import EasyBD.EasybdSessionChannel

/-! The responses of a connection and their frames: handlers queue for the socket with the
frame of their response, and the frames taken whole are those of the answered handlers. -/
namespace EasybdSessionResponses

open TransitionRuns SerializedFrames EasybdProtocol EasyioQueue EasyioSendAll EasyioMutex
open EasyioSenders EasybdHandlers EasybdHandleConnection EasybdSession
open EasybdSessionTasks EasybdSessionParsing EasybdSessionChannel

def replied : List Effect → List (ℕ × Response)
  | [] => []
  | .replied id resp :: trace => replied trace ++ [(id, resp)]
  | _ :: trace => replied trace

def answers : List Effect → List (ℕ × Response)
  | [] => []
  | .answered id resp :: trace => answers trace ++ [(id, resp)]
  | _ :: trace => answers trace

@[simp] theorem replied_taken (t : Reply) (o : SendOutcome) (trace : List Effect) :
    replied (taken t o ++ trace) = replied trace := by
  cases o <;> rfl

@[simp] theorem answers_taken (t : Reply) (o : SendOutcome) (trace : List Effect) :
    answers (taken t o ++ trace) = answers trace := by
  cases o <;> rfl

theorem replied_reply (s : State) (t : Reply) :
    replied (s.reply t).trace = replied s.trace ++ [(t.id, t.response)] := by
  unfold State.reply
  split <;> rfl

theorem answers_reply (s : State) (t : Reply) :
    answers (s.reply t).trace = answers s.trace := by
  unfold State.reply
  split <;> rfl

theorem mem_answers {trace : List Effect} {id : ℕ} {resp : Response} :
    (id, resp) ∈ answers trace ↔ .answered id resp ∈ trace := by
  induction trace with
  | nil => simp [answers]
  | cons x trace ih => cases x <;> simp [answers, ih, or_comm]

theorem replied_step {s s' : State} {e : Event} (step : Step s e s') :
    replied s'.trace = replied s.trace ++
      ((entering s e).map fun t => (t.id, t.response)).toList := by
  cases step with
  | spawnsError top => simp [entering, top, replied_reply]
  | @spawned stack h top file =>
    cases h with
    | sendError cid err => exact absurd rfl (file cid err)
    | handleWrite => simp [entering, top]
    | handleRead => simp [entering, top]
  | performed top => simp [entering, top, replied_reply, replied]
  | fileReady => simp [entering, replied_reply, replied]
  | @handsOver t sent => cases sent <;> simp [entering, replied, State.outcome]
  | @frees t sent => cases sent <;> simp [entering, replied, State.outcome]
  | allocated top | buffered top => simp [entering, top]
  | _ => simp [entering, replied]

def Sized (s : State) : Prop := ∀ h ∈ s.dispatched, h.PassesSizeCheck

theorem sized_step {s s' : State} {e : Event} (h : Sized s) (hp : AtOnePlace s)
    (step : Step s e s') : Sized s' := by
  cases tasks_step step with
  | starts k t stack he top hk htasks hmarks hdispatched =>
    intro x hx
    rw [hdispatched, List.mem_append, List.mem_singleton] at hx
    rcases hx with hx | rfl
    · exact h x hx
    · exact (hp.spawning x (by simp [top])).1
  | same htasks hmarks hdispatched => exact fun x hx => h x (hdispatched ▸ hx)
  | performs id k r others fits hbefore htasks hmarks hdispatched =>
    exact fun x hx => h x (hdispatched ▸ hx)
  | answers id resp htasks hmarks hdispatched => exact fun x hx => h x (hdispatched ▸ hx)
  | loses k htasks hmarks hdispatched => exact fun x hx => h x (hdispatched ▸ hx)

def frame (t : Reply) : List UInt8 := t.response.encode

theorem rest_entering {s s' : State} {e : Event} {t : Reply} (hsized : Sized s)
    (haccounted : Accounted s) (step : Step s e s') (ht : t ∈ entering s e) :
    t.send.rest = frame t := by
  rcases entering_cases step ht with ⟨cid, err, -, rfl⟩ | ⟨id, h, r, hjob, fits, rfl⟩
  · simp [frame, Response.encode, Handler.startSend, errorResponse]
  · have hmem : h ∈ s.dispatched := List.mem_of_getElem? (haccounted.tasks _ hjob).1
    exact Handler.rest_startSend fits (hsized h hmem)

/-- While a guard is being destroyed, the channel knows how the send has ended. -/
def Ended (s : State) : Prop :=
  ∀ t sent, .release t sent ∈ s.stack →
    (sent = true → ∃ bytes n, phase (channelLog s.trace) = .sending bytes n) ∧
    (sent = false → ∃ bytes n, phase (channelLog s.trace) = .failed bytes n)

theorem leaving_mem {s : State} {t : Reply} {sent : Bool} (h : .release t sent ∈ s.stack) :
    .leaving t ∈ (channel s).holders := by
  obtain ⟨above, below, hstack⟩ := List.append_of_mem h
  simp [channel, places, hstack]

theorem release_mem_reply {s : State} {t u : Reply} {sent : Bool}
    (h : .release t sent ∈ (s.reply u).stack) : .release t sent ∈ s.stack := by
  unfold State.reply at h
  split at h
  · exact h
  · simpa using h

theorem release_mem_endLoop {s : State} {t : Reply} {sent : Bool}
    (h : .release t sent ∈ s.endLoop.stack) : .release t sent ∈ s.stack := by
  unfold State.endLoop at h
  split at h
  · simpa using h
  · exact h

theorem release_step {s s' : State} {e : Event} {t : Reply} {sent : Bool} (step : Step s e s')
    (h : .release t sent ∈ s'.stack) :
    .release t sent ∈ s.stack ∨
    (sent = true ∧ ∃ n stack, s.stack = .returned t (some n) :: stack ∧
      channelLog s'.trace = channelLog s.trace) ∨
    (sent = false ∧ e = .run ∧ ∃ stack, s.stack = .returned t none :: stack ∧
      channelLog s'.trace = .fail :: channelLog s.trace) := by
  cases step with
  | @sent u stack n top =>
    rw [List.mem_cons] at h
    rcases h with heq | hmem
    · obtain ⟨rfl, rfl⟩ := Frame.release.inj heq
      exact Or.inr (Or.inl ⟨rfl, n, stack, top, rfl⟩)
    · exact Or.inl (by simp [top, hmem])
  | @sendThrows u stack top =>
    rw [List.mem_cons] at h
    rcases h with heq | hmem
    · obtain ⟨rfl, rfl⟩ := Frame.release.inj heq
      exact Or.inr (Or.inr ⟨rfl, rfl, stack, top, rfl⟩)
    · exact Or.inl (by simp [top, hmem])
  | @spawned stack k top file f first =>
    rcases first with rfl | rfl
    · exact Or.inl (by simpa [top] using h)
    · exact Or.inl (by simpa [top] using h)
  | spawnsError top => exact Or.inl (by simpa [top] using release_mem_reply h)
  | performed top => exact Or.inl (by simpa [top] using release_mem_reply h)
  | fileReady flat => exact Or.inl (by simpa using release_mem_reply h)
  | receiveFailed flat => exact Or.inl (release_mem_endLoop h)
  | rejects top | notAllocated top | notSpawned top =>
    exact Or.inl (by simpa [top] using release_mem_endLoop h)
  | _ => exact Or.inl (by simp_all)

theorem ended_step {s s' : State} {e : Event} (h : Ended s) (hok : (channel s).Ok sender)
    (step : Step s e s') : Ended s' := by
  intro t sent hmem
  rcases release_step step hmem with hold | ⟨rfl, n, stack, top, hlog⟩ | ⟨rfl, -, stack, top, hlog⟩
  · have hlog : channelLog s'.trace = channelLog s.trace :=
      hok.leaving_step (channel_step step) (leaving_mem hold) (leaving_mem hmem)
    rw [hlog]
    exact h t sent hold
  · have hholders : (channel s).holders =
        .back t (some n) ::ₘ places Frame.holders s.io s.cq stack := by
      simp [channel, top, Multiset.singleton_add]
    obtain ⟨-, -, -, -, -, bytes, k, hphase, -⟩ := hok.alone hholders
    refine ⟨fun _ => ⟨bytes, k + n, ?_⟩, fun hsent => Bool.noConfusion hsent⟩
    rw [hlog]
    exact hphase
  · have hholders : (channel s).holders =
        .back t none ::ₘ places Frame.holders s.io s.cq stack := by
      simp [channel, top, Multiset.singleton_add]
    obtain ⟨-, -, bytes, k, hphase⟩ := hok.alone hholders
    refine ⟨fun hsent => Bool.noConfusion hsent, fun _ => ⟨bytes, k, ?_⟩⟩
    have hphase : phase (channelLog s.trace) = .sending bytes k := hphase
    rw [hlog, phase_cons, hphase]
    rfl

/-- What ties the responses of the handlers to the frames on the channel. -/
structure Delivers (s : State) : Prop where
  sized : Sized s
  ended : Ended s
  framed : (channel s).Framed sender frame
  order : (channel s).order sender = (replied s.trace).map fun p => p.2.encode
  delivered : delivered (channelLog s.trace) = (answers s.trace).map fun p => p.2.encode

theorem delivered_unlock {log : List (Op UInt8)} {trace : List Effect} {t : Reply} {sent : Bool}
    (hdelivered : delivered log = (answers trace).map fun p => p.2.encode)
    (hframe : (phase log).frame = some (frame t))
    (hended : (sent = true → ∃ bytes n, phase log = .sending bytes n) ∧
      (sent = false → ∃ bytes n, phase log = .failed bytes n)) :
    delivered (.release :: log) =
      (answers (State.outcome t sent :: trace)).map fun p => p.2.encode := by
  cases sent with
  | true =>
    obtain ⟨bytes, n, hphase⟩ := hended.1 rfl
    rw [hphase] at hframe
    obtain rfl : bytes = frame t := Option.some.inj hframe
    simp [delivered, hphase, answers, State.outcome, hdelivered, frame]
  | false =>
    obtain ⟨bytes, n, hphase⟩ := hended.2 rfl
    simp [delivered, hphase, answers, State.outcome, hdelivered]

theorem delivered_step {s s' : State} {e : Event} (h : Delivers s) (step : Step s e s') :
    delivered (channelLog s'.trace) = (answers s'.trace).map fun p => p.2.encode := by
  have hframe {t : Reply} {sent : Bool} (hmem : .release t sent ∈ s.stack) :
      (phase (channelLog s.trace)).frame = some (frame t) :=
    h.framed.holders _ (leaving_mem hmem)
  have hsame := h.delivered
  cases step with
  | @handsOver t sent u waiters stack top waiting =>
    have hmem : .release t sent ∈ s.stack := by simp [top]
    have hunlock := delivered_unlock h.delivered (hframe hmem) (h.ended t sent hmem)
    cases sent <;> simpa [delivered, answers, State.outcome] using hunlock
  | @frees t sent stack top alone =>
    have hmem : .release t sent ∈ s.stack := by simp [top]
    have hunlock := delivered_unlock h.delivered (hframe hmem) (h.ended t sent hmem)
    cases sent <;> simpa [answers, State.outcome] using hunlock
  | spawnsError | performed | fileReady =>
    rw [answers_reply]
    unfold State.reply
    split <;> simpa [delivered, answers] using hsame
  | @callReturns t stack o => cases o <;> simpa [taken, delivered, answers] using hsame
  | @readyReturns t o => cases o <;> simpa [taken, delivered, answers] using hsame
  | @completes t o => cases o <;> simpa [taken, delivered, answers] using hsame
  | _ => simpa [delivered, answers] using hsame

theorem delivers_step {s s' : State} {e : Event} (h : Delivers s) (hp : AtOnePlace s)
    (haccounted : Accounted s) (hok : (channel s).Ok sender) (step : Step s e s') :
    Delivers s' := by
  have hentering (t : Reply) (ht : t ∈ entering s e) : t.send.rest = frame t :=
    rest_entering h.sized haccounted step ht
  refine ⟨sized_step h.sized hp step, ended_step h.ended hok step, ?_, ?_, delivered_step h step⟩
  · exact h.framed.step hok (fun _ _ => rfl) hentering (channel_step step)
  · rw [hok.order_step (channel_step step), h.order, replied_step step, List.map_append]
    cases he : entering s e with
    | none => rfl
    | some t => simp [hentering t he, frame]

theorem delivers_of_run {G : State → Event → Prop} {backend : Backend} {s : State}
    (h : Run machine G (initial backend) s) : Delivers s := by
  refine h.invariant_under
    (I := fun s => AtOnePlace s ∧ Accounted s ∧ (channel s).Ok sender) (fun u hu => ?_) ?_
    fun u e hu hd he _ => delivers_step hd hu.1 hu.2.1 hu.2.2 (step_of_enabled he)
  · exact ⟨(follows_of_run hu).1, accounted_of_run hu, channel_ok hu⟩
  · exact ⟨by rintro h ⟨⟩, by rintro t sent ⟨⟩, .initial, rfl, rfl⟩

end EasybdSessionResponses
