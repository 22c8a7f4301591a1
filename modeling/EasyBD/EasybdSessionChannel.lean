import EasyBD.EasyioSenders
import EasyBD.EasybdSessionTasks
import EasyBD.EasybdSessionParsing

/-! The accepted socket as the channel that the handlers of a connection share, and which
responses it has taken as whole frames. -/
namespace EasybdSessionChannel

open TransitionRuns SerializedFrames EasybdProtocol EasyioQueue EasyioSendAll EasyioMutex
open EasyioSenders EasybdHandlers EasybdHandleConnection EasybdSession
open EasybdSessionTasks EasybdSessionParsing

@[simp] def Frame.holders : Frame → Multiset (Holder Reply)
  | .calling t => {.sending t}
  | .returned t count => {.back t count}
  | .release t _ => {.leaving t}
  | _ => 0

@[simp] def Effect.op : Effect → Option (Op UInt8)
  | .channel op => some op
  | _ => none

def channelLog (trace : List Effect) : List (Op UInt8) := trace.filterMap Effect.op

def sender : Sender Reply := ⟨Reply.send, State.resumed, fun _ _ => rfl⟩

@[simp] theorem sender_send (t : Reply) : sender.send t = t.send := rfl

@[simp] theorem sender_resumed (t : Reply) (n : ℕ) : sender.resumed t n = State.resumed t n := rfl

def channel (s : State) : Channel Reply :=
  ⟨s.sendMtx, places Frame.holders s.io s.cq s.stack, channelLog s.trace⟩

def entering (s : State) : Event → Option Reply
  | .alloc true =>
    match s.stack with
    | .spawning (.sendError cid err) :: _ =>
      some (State.replyOf s.dispatched.length (.sendError cid err) (errorResponse cid err))
    | _ => none
  | .perform (.result r) =>
    match s.stack with
    | .performing id h :: _ => some (State.replyOf id h (h.respond r))
    | _ => none
  | .fileReady id h r => some (State.replyOf id h (h.respond r))
  | _ => none

@[simp] theorem channelLog_cons (x : Effect) (trace : List Effect) :
    channelLog (x :: trace) = (Effect.op x).toList ++ channelLog trace := by
  cases x <;> rfl

theorem channelLog_taken (t : Reply) (o : SendOutcome) (trace : List Effect) :
    channelLog (taken t o ++ trace) = takenOps t.send o ++ channelLog trace := by
  cases o <;> rfl

theorem channel_reply (s : State) (t : Reply) :
    ChannelStep sender (channel s) (some t) (channel (s.reply t)) := by
  unfold State.reply
  split
  · next busy => simpa [channel] using ChannelStep.queues (S := sender) t busy
  · next free =>
    have hch : ChannelStep sender (channel s) _ _ := .enters t (Bool.eq_false_iff.mpr free)
    simpa [channel, Multiset.singleton_add] using hch

theorem channel_endLoop (s : State) : channel s.endLoop = channel s := by
  unfold State.endLoop
  split
  · simp [channel]
  · rfl

section Steps

variable {s s' : State} {o : SendOutcome} {t : Reply}

theorem channel_alloc {ok : Bool} (step : Step s (.alloc ok) s') :
    ChannelStep sender (channel s) (entering s (.alloc ok)) (channel s') := by
  cases step with
  | notAllocated top | notSpawned top =>
    rw [channel_endLoop]
    exact .of_same rfl (by simp [channel, top]) rfl
  | @spawnsError stack cid err top =>
    have hch := channel_reply { s with
        dispatched := s.dispatched ++ [Handler.sendError cid err], stack := .reading :: stack }
      (State.replyOf s.dispatched.length (.sendError cid err) (errorResponse cid err))
    simpa [channel, entering, top] using hch
  | @spawned stack h top file f first =>
    have hentering : entering s (.alloc true) = none := by
      cases h with
      | sendError cid err => exact absurd rfl (file cid err)
      | handleWrite | handleRead => simp [entering, top]
    rw [hentering]
    rcases first with rfl | rfl
    · exact .of_same rfl (by simp [channel, top]) rfl
    · exact .of_same rfl (by simp [channel, top]) rfl
  | allocated top | buffered top =>
    simp only [entering, top]
    exact .of_same rfl (by simp [channel, top]) rfl
  | notBuffered top => exact .of_same rfl (by simp [channel, top]) rfl

theorem channel_perform {out : FileOutcome} (step : Step s (.perform out) s') :
    ChannelStep sender (channel s) (entering s (.perform out)) (channel s') := by
  cases step with
  | @performed stack id h r top =>
    have hch := channel_reply { s with stack, trace := .performed id r :: s.trace }
      (State.replyOf id h (h.respond r))
    simpa [channel, entering, top] using hch
  | performs top | performThrows top => exact .of_same rfl (by simp [channel, top]) rfl

theorem channel_sendCall (step : Step s (.sendCall o) s') :
    ChannelStep sender (channel s) none (channel s') := by
  cases step with
  | callBlocks top => exact .of_same rfl (by simp [channel, top, Multiset.singleton_add]) rfl
  | @callReturns t stack _ top settled within =>
    refine .comesBack t (places Frame.holders s.io s.cq stack) rfl ?_ ?_ (channelLog_taken _ _ _)
      settled within
    · simp [channel, top, Multiset.singleton_add]
    · simp [channel, Multiset.singleton_add]

theorem channel_sendReady (step : Step s (.sendReady t o) s') :
    ChannelStep sender (channel s) none (channel s') := by
  cases step with
  | stillBlocked => exact .same
  | readyReturns flat mem settled within =>
    exact .comesBack t (places Frame.holders (s.io.erase t) s.cq s.stack) rfl
      (places_io_erase mem) (by simp [channel, Multiset.singleton_add]) (channelLog_taken _ _ _)
      settled within

theorem channel_complete (step : Step s (.complete t o) s') :
    ChannelStep sender (channel s) none (channel s') := by
  cases step with
  | completes mem settled within =>
    exact .comesBack t (places Frame.holders (s.io.erase t) s.cq s.stack) rfl
      (places_io_erase mem) places_cq (channelLog_taken _ _ _) settled within

theorem channel_run (step : Step s .run s') :
    ChannelStep sender (channel s) none (channel s') := by
  cases step with
  | rejects top =>
    rw [channel_endLoop]
    exact .of_same rfl (by simp [channel, top]) rfl
  | @sendsOn t stack n top more =>
    have hch : ChannelStep sender (channel s) _ _ := .sendsOn t n
      (places Frame.holders s.io s.cq stack) (by simp [channel, top, Multiset.singleton_add]) more
    simpa [channel, Multiset.singleton_add] using hch
  | @sent t stack n top finished =>
    have hch : ChannelStep sender (channel s) _ _ := .sent t n
      (places Frame.holders s.io s.cq stack) (by simp [channel, top, Multiset.singleton_add])
      finished
    simpa [channel, Multiset.singleton_add] using hch
  | @sendThrows t stack top =>
    have hch : ChannelStep sender (channel s) _ _ := .throws t
      (places Frame.holders s.io s.cq stack) (by simp [channel, top, Multiset.singleton_add])
    simpa [channel, Multiset.singleton_add] using hch
  | @handsOver t sent u waiters stack top waiting =>
    have hch : ChannelStep sender (channel s) _ _ := .handsOver t u waiters
      (places Frame.holders s.io s.cq stack) (by simp [channel, top, Multiset.singleton_add])
      waiting
    cases sent <;> simpa [channel, State.outcome, Multiset.singleton_add] using hch
  | @frees t sent stack top alone =>
    have hch : ChannelStep sender (channel s) _ _ := .frees t
      (places Frame.holders s.io s.cq stack) (by simp [channel, top, Multiset.singleton_add]) alone
    cases sent <;> simpa [channel, State.outcome] using hch
  | awaitsHeader top | allocates top | spawns top | awaitsPayload top | spawnsWrite top
  | readsNothing top | finishes top | finishesLast top =>
    exact .of_same rfl (by simp [channel, top]) rfl

theorem channel_step {e : Event} (step : Step s e s') :
    ChannelStep sender (channel s) (entering s e) (channel s') := by
  have hstep := step
  cases step with
  | receivesHeader flat | receivesPayload flat =>
    exact .of_same rfl (by simp [channel, flat]) rfl
  | receiveFailed =>
    rw [channel_endLoop]
    exact .same
  | allocated | notAllocated | spawned | spawnsError | notSpawned | buffered | notBuffered =>
    exact channel_alloc hstep
  | performs | performed | performThrows => exact channel_perform hstep
  | @fileReady id h r =>
    have hch := channel_reply { s with
        files := s.files.erase (id, h), trace := .performed id r :: s.trace }
      (State.replyOf id h (h.respond r))
    simpa [channel, entering] using hch
  | callBlocks | callReturns => exact channel_sendCall hstep
  | stillBlocked | readyReturns => exact channel_sendReady hstep
  | completes => exact channel_complete hstep
  | reap flat mem =>
    exact .of_same rfl (by simp [channel, places_cq_erase mem, Multiset.singleton_add]) rfl
  | closes top => exact .of_same rfl (by simp [channel, top]) rfl
  | _ => exact channel_run hstep

end Steps

theorem unsent_replyOf (id : ℕ) (h : Handler) (resp : Response) :
    Unsent (State.replyOf id h resp).send :=
  ⟨h.wellFormed_startSend resp, h.rest_startSend_ne_nil resp⟩

theorem entering_cases {s s' : State} {e : Event} {t : Reply} (step : Step s e s')
    (ht : t ∈ entering s e) :
    (∃ cid err, (∃ stack, s.stack = .spawning (.sendError cid err) :: stack) ∧
      t = State.replyOf s.dispatched.length (.sendError cid err) (errorResponse cid err)) ∨
    ∃ id h r, Task.job id h ∈ tasks s ∧ (h.Fits r ∨ ∃ err, r = .error err) ∧
      t = State.replyOf id h (h.respond r) := by
  cases step with
  | @spawnsError stack cid err top =>
    simp only [entering, top, Option.mem_some_iff] at ht
    exact Or.inl ⟨cid, err, ⟨stack, top⟩, ht.symm⟩
  | @spawned stack h top file =>
    cases h with
    | sendError cid err => exact absurd rfl (file cid err)
    | handleWrite => simp [entering, top] at ht
    | handleRead => simp [entering, top] at ht
  | @performed stack id h r top fits =>
    simp only [entering, top, Option.mem_some_iff] at ht
    exact Or.inr ⟨id, h, r, by simp [tasks, top], fits, ht.symm⟩
  | @fileReady id h r flat mem fits =>
    simp only [entering, Option.mem_some_iff] at ht
    exact Or.inr ⟨id, h, r, by simp [tasks, running_file_erase mem], Or.inl fits, ht.symm⟩
  | allocated top | buffered top => simp [entering, top] at ht
  | _ => cases ht

theorem unsent_entering {s s' : State} {e : Event} {t : Reply} (step : Step s e s')
    (ht : t ∈ entering s e) : Unsent t.send := by
  rcases entering_cases step ht with ⟨cid, err, -, rfl⟩ | ⟨id, h, r, -, -, rfl⟩
  · exact unsent_replyOf _ _ _
  · exact unsent_replyOf _ _ _

section Runs

variable {G : State → Event → Prop} {backend : Backend} {s : State}

theorem channel_ok (h : Run machine G (initial backend) s) : (channel s).Ok sender :=
  h.invariant (I := fun s => (channel s).Ok sender) (Channel.Ok.initial _)
    fun _ _ hok he _ =>
      hok.step (fun _ ht => unsent_entering (step_of_enabled he) ht)
        (channel_step (step_of_enabled he))

end Runs

def Permanent (s : State) : Event → Prop
  | .sendCall (.accepted _) | .sendReady _ (.accepted _) | .complete _ (.accepted _) =>
    ¬ Torn (channelLog s.trace)
  | _ => True

instance (s : State) (e : Event) : Decidable (Permanent s e) := by
  unfold Permanent
  split <;> infer_instance

theorem sticky_reply {s : State} {t : Reply} (h : Sticky (channelLog s.trace)) :
    Sticky (channelLog (s.reply t).trace) := by
  unfold State.reply
  split
  · simpa using h
  · simpa [Sticky] using h

theorem sticky_step {s s' : State} {e : Event} (h : Sticky (channelLog s.trace))
    (g : Permanent s e) (step : Step s e s') : Sticky (channelLog s'.trace) := by
  cases step with
  | callReturns | readyReturns | completes =>
    simp only [channelLog_taken]
    refine sticky_takenOps h ?_
    rintro n rfl
    exact g
  | spawnsError | performed | fileReady => exact sticky_reply (by simpa using h)
  | @handsOver t sent => cases sent <;> simpa [Sticky, State.outcome] using h
  | @frees t sent => cases sent <;> simpa [Sticky, State.outcome] using h
  | _ => simpa [Sticky] using h

end EasybdSessionChannel
