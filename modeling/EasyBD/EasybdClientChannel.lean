import EasyBD.EasyioSenders
import EasyBD.EasybdClient

/-! The client's socket as the channel that its `send_request` coroutines share. -/
namespace EasybdClientChannel

open TransitionRuns SerializedFrames EasyioQueue EasyioMutex EasyioSenders EasybdRequests
open EasybdClient

@[simp] def Frame.holders : Frame → Multiset (Holder SendRequest)
  | .calling t => {.sending t}
  | .returned t count => {.back t count}
  | .release t => {.leaving t}
  | _ => 0

@[simp] def Effect.op : Effect → Option (Op UInt8)
  | .channel op => some op
  | _ => none

def channelLog (trace : List Effect) : List (Op UInt8) := trace.filterMap Effect.op

def sender : Sender SendRequest := ⟨SendRequest.send, State.resumed, fun _ _ => rfl⟩

@[simp] theorem sender_send (t : SendRequest) : sender.send t = t.send := rfl

@[simp] theorem sender_resumed (t : SendRequest) (n : ℕ) :
    sender.resumed t n = State.resumed t n := rfl

/-- `_send_mtx` and who holds it; `~LibcQueue` has the operations that `destroy` goes through. -/
def channel (s : State) : Channel SendRequest :=
  ⟨s.sendMtx, s.ops.map Holder.sending + places Frame.holders s.io s.cq s.stack,
    channelLog s.trace⟩

def entering (s : State) : Event → Option SendRequest
  | .request r none =>
    if EasybdProtocol.easybdMaxPayloadSize < r.size then none else some (s.sendRequest r)
  | _ => none

@[simp] theorem channelLog_cons (x : Effect) (trace : List Effect) :
    channelLog (x :: trace) = (Effect.op x).toList ++ channelLog trace := by
  cases x <;> rfl

@[simp] theorem channelLog_shown (b : Backend) (t : SendRequest) (o : SendOutcome)
    (trace : List Effect) : channelLog (shown b t o ++ trace) = channelLog trace := by
  unfold shown
  split <;> rfl

theorem channelLog_taken (t : SendRequest) (o : SendOutcome) (trace : List Effect) :
    channelLog (taken t o ++ trace) = takenOps t.send o ++ channelLog trace := by
  cases o <;> rfl

section Steps

variable {s s' : State}

theorem channel_request {r : Request} {fault : Option Fault} (step : Step s (.request r fault) s') :
    ChannelStep sender (channel s) (entering s (.request r fault)) (channel s') := by
  cases step with
  | oversized _ _ may size =>
    cases fault with
    | none =>
      simp only [entering, if_pos size]
      exact .of_same rfl rfl rfl
    | some fault => exact .of_same rfl rfl rfl
  | noEntry | noFrame => exact .of_same rfl rfl rfl
  | sends _ may size free =>
    have hch : ChannelStep sender (channel s) _ _ := .enters (s.sendRequest r) free
    simpa [channel, entering, size, State.ops, Multiset.singleton_add] using hch
  | queues _ may size busy =>
    have hch : ChannelStep sender (channel s) _ _ := .queues (s.sendRequest r) busy
    simpa [channel, entering, size, State.ops] using hch

theorem channel_destroy (step : Step s .destroy s') :
    ChannelStep sender (channel s) none (channel s') := by
  -- the operations registered in the queue become those that `destroy` cancels
  cases step with
  | destroyUring idle => exact .of_same rfl (by simp [channel, State.ops, idle.2]) rfl
  | destroyEnded idle | destroyReading idle =>
    exact .of_same rfl
      (by simp [channel, State.ops, idle.2, places, add_assoc, -Multiset.coe_add]) rfl

theorem channel_cancel (step : Step s .cancel s') :
    ChannelStep sender (channel s) none (channel s') := by
  cases step with
  | @cancel t ops flat call =>
    have hch : ChannelStep sender (channel s) _ _ := .refuses t
      (ops.map Holder.sending + places Frame.holders s.io s.cq [])
      (by simp [channel, State.ops, call, flat, ← Multiset.cons_coe])
    simpa [channel, State.ops, Multiset.singleton_add] using hch

variable {o : SendOutcome} {t : SendRequest}

theorem channel_sendCall (step : Step s (.sendCall o) s') :
    ChannelStep sender (channel s) none (channel s') := by
  cases step with
  | callBlocks top =>
    exact .of_same rfl (by simp [channel, State.ops, top, Multiset.singleton_add])
      (by simp [channel])
  | @callReturns t stack _ top settled within =>
    refine .comesBack t (s.ops.map Holder.sending + places Frame.holders s.io s.cq stack) rfl
      ?_ ?_ ?_ settled within
    · simp [channel, top, Multiset.singleton_add]
    · simp [channel, State.ops, Multiset.singleton_add]
    · simp [channel, channelLog_taken]

theorem channel_sendReady (step : Step s (.sendReady t o) s') :
    ChannelStep sender (channel s) none (channel s') := by
  cases step with
  | stillBlocked => exact .of_same rfl rfl (by simp [channel])
  | readyReturns dispatching mem settled within =>
    refine .comesBack t (s.ops.map Holder.sending + places Frame.holders (s.io.erase t) s.cq
      s.stack) rfl ?_ ?_ ?_ settled within
    · simp [channel, places_io_erase mem]
    · simp [channel, State.ops, Multiset.singleton_add]
    · simp [channel, channelLog_taken]

theorem channel_complete (step : Step s (.complete t o) s') :
    ChannelStep sender (channel s) none (channel s') := by
  cases step with
  | completes mem settled within =>
    refine .comesBack t (s.ops.map Holder.sending + places Frame.holders (s.io.erase t) s.cq
      s.stack) rfl ?_ ?_ (channelLog_taken _ _ _) settled within
    · simp [channel, places_io_erase mem]
    · simp [channel, State.ops]

theorem channel_run (step : Step s .run s') :
    ChannelStep sender (channel s) none (channel s') := by
  cases step with
  | @sendsOn t stack n top more =>
    have hch : ChannelStep sender (channel s) _ _ := .sendsOn t n
      (s.ops.map Holder.sending + places Frame.holders s.io s.cq stack)
      (by simp [channel, top, Multiset.singleton_add]) more
    simpa [channel, State.ops, Multiset.singleton_add] using hch
  | @sent t stack n top finished =>
    have hch : ChannelStep sender (channel s) _ _ := .sent t n
      (s.ops.map Holder.sending + places Frame.holders s.io s.cq stack)
      (by simp [channel, top, Multiset.singleton_add]) finished
    simpa [channel, State.ops, Multiset.singleton_add] using hch
  | @sendThrows t stack _ top | @sendThrowsLate t stack top =>
    have hch : ChannelStep sender (channel s) _ _ := .throws t
      (s.ops.map Holder.sending + places Frame.holders s.io s.cq stack)
      (by simp [channel, top, Multiset.singleton_add])
    simpa [channel, State.ops, Multiset.singleton_add] using hch
  | @handsOver c t stack waiters top waiting =>
    have hch : ChannelStep sender (channel s) _ _ := .handsOver c t waiters
      (s.ops.map Holder.sending + places Frame.holders s.io s.cq stack)
      (by simp [channel, top, Multiset.singleton_add]) waiting
    simpa [channel, State.ops, Multiset.singleton_add] using hch
  | @frees c stack top alone =>
    have hch : ChannelStep sender (channel s) _ _ := .frees c
      (s.ops.map Holder.sending + places Frame.holders s.io s.cq stack)
      (by simp [channel, top, Multiset.singleton_add]) alone
    simpa [channel, State.ops] using hch
  | readsOn top | unknownCid top | awaitsBody top | answered top | copies top | readsNothing top
  | failsNext top | failedAll top =>
    exact .of_same rfl (by simp [channel, State.ops, top]) rfl

theorem channel_step {e : Event} (step : Step s e s') :
    ChannelStep sender (channel s) (entering s e) (channel s') := by
  have hstep := step
  cases step with
  | oversized | sends | queues | noEntry | noFrame => exact channel_request hstep
  | destroyUring | destroyEnded | destroyReading => exact channel_destroy hstep
  | cancel => exact channel_cancel hstep
  | callBlocks | callReturns => exact channel_sendCall hstep
  | stillBlocked | readyReturns => exact channel_sendReady hstep
  | completes => exact channel_complete hstep
  | reap dispatching mem =>
    exact .of_same rfl
      (by simp [channel, State.ops, places_cq_erase mem, Multiset.singleton_add]) rfl
  | wait idle => exact .of_same rfl (by simp [channel, State.ops, idle.2]) rfl
  | pollFailed _ flat call | poll flat call | waitReturn flat call | destroyReturn flat call =>
    exact .of_same rfl (by simp [channel, State.ops, call]) rfl
  | requestReturn top | callbackReturn top | drain top =>
    exact .of_same rfl (by simp [channel, top, State.ops]) rfl
  | received | receiveFailed => exact .of_same rfl (by simp [channel, State.ops]) rfl
  | _ => exact channel_run hstep

end Steps

theorem unsent_entering {s : State} {e : Event} {t : SendRequest} (h : t ∈ entering s e) :
    Unsent t.send := by
  unfold entering at h
  split at h
  · next r =>
    split at h
    · cases h
    · obtain rfl := Option.some.inj h
      refine ⟨r.wellFormed_startSend _ _, ?_⟩
      simp only [State.sendRequest, r.rest_startSend]
      exact r.encode_ne_nil _ _
  · cases h

theorem channel_ok {G : State → Event → Prop} {backend : Backend} {syncWrites : Bool} {s : State}
    (h : Run machine G (initial backend syncWrites) s) : (channel s).Ok sender :=
  h.invariant (I := fun s => (channel s).Ok sender) (Channel.Ok.initial _)
    fun _ _ hok he _ =>
      hok.step (fun _ hc => unsent_entering hc) (channel_step (step_of_enabled he))

def Permanent (s : State) : Event → Prop
  | .sendCall (.accepted _) | .sendReady _ (.accepted _) | .complete _ (.accepted _) =>
    ¬ Torn (channelLog s.trace)
  | _ => True

instance (s : State) (e : Event) : Decidable (Permanent s e) := by
  unfold Permanent
  split <;> infer_instance

theorem sticky_step {s s' : State} {e : Event} (h : Sticky (channelLog s.trace))
    (g : Permanent s e) (step : Step s e s') : Sticky (channelLog s'.trace) := by
  cases step with
  | sends => simpa [Sticky] using h
  | callBlocks => simpa using h
  | stillBlocked => simpa using h
  | callReturns | readyReturns =>
    simp only [channelLog_taken, channelLog_shown]
    refine sticky_takenOps h ?_
    rintro n rfl
    exact g
  | completes =>
    rw [channelLog_taken]
    refine sticky_takenOps h ?_
    rintro n rfl
    exact g
  | _ => simpa [Sticky] using h

end EasybdClientChannel
