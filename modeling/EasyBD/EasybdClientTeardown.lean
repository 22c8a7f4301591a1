import EasyBD.EasybdClientChannel

/-! `~Client` on the libc backend. `cancel_fd` goes through the operations registered when it
starts; a sender it cancels hands the mutex to the next one, which may register again. -/
namespace EasybdClientTeardown

open TransitionRuns EasyioQueue EasyioSenders EasybdRequests EasybdClient EasybdClientChannel

def Destroys (s : State) : Prop :=
  match s.call with
  | .destroying _ | .destroyed => True
  | _ => False

structure NoneSuspended (s : State) : Prop where
  reader : s.readerAt = .ended
  queue : s.io = [] ∧ s.cq = []
  mutex : s.sendMtx.waiters = []
  running : s.stack = []

/-- No `send` made during the destructor finds the socket full. -/
def NeverBlocks (s : State) : Event → Prop
  | .sendCall o => o = .suspended → ¬ Destroys s
  | _ => True

instance (s : State) : Decidable (Destroys s) :=
  match h : s.call with
  | .destroying _ => isTrue (by simp [Destroys, h])
  | .destroyed => isTrue (by simp [Destroys, h])
  | .idle => isFalse (by simp [Destroys, h])
  | .polling _ => isFalse (by simp [Destroys, h])
  | .dispatching _ => isFalse (by simp [Destroys, h])

instance (s : State) : ∀ e, Decidable (NeverBlocks s e)
  | .sendCall o => inferInstanceAs (Decidable (o = .suspended → ¬ Destroys s))
  | .request _ _ | .requestReturn | .wait | .pollFailed _ | .poll | .waitReturn | .destroy
  | .cancel | .destroyReturn | .callbackReturn | .sendReady _ _ | .complete _ _ | .reap _ _
  | .received _ | .receiveFailed | .drain _ | .run => isTrue trivial

structure Ending (s : State) : Prop where
  backend : s.backend = .libc
  cq : s.cq = []
  reader : Destroys s → s.readerAt = .ended
  io : Destroys s → s.io = []
  flat : s.call = .destroyed → s.stack = []

theorem ended_step {s s' : State} {e : Event} (step : Step s e s') (h : s.readerAt = .ended) :
    s'.readerAt = .ended := by
  cases step with
  | awaitsBody top at_ => exact absurd (h.symm.trans at_) (by simp)
  | answered top at_ => exact absurd (h.symm.trans at_) (by simp)
  | copies top at_ => exact absurd (h.symm.trans at_) (by simp)
  | _ => first | exact h | rfl

section Steps

variable {s s' : State} {e : Event}

theorem Ending.of_same (h : Ending s) (hbackend : s'.backend = s.backend) (hcq : s'.cq = [])
    (hcall : s'.call = s.call) (hreader : s.readerAt = .ended → s'.readerAt = .ended)
    (hio : Destroys s → s'.io = []) (hflat : s.call = .destroyed → s'.stack = []) : Ending s' := by
  have hdestroys (hd : Destroys s') : Destroys s := by
    rw [Destroys, hcall] at hd
    exact hd
  exact ⟨hbackend.trans h.backend, hcq, fun hd => hreader (h.reader (hdestroys hd)),
    fun hd => hio (hdestroys hd), fun hd => hflat (hcall ▸ hd)⟩

theorem Ending.alive (h : Ending s) {f : Frame} {stack : List Frame} (top : s.stack = f :: stack) :
    s.call ≠ .destroyed := by
  intro hcall
  rw [h.flat hcall] at top
  cases top

theorem Ending.mayRequest (h : Ending s) (may : s.MayRequest) : s.call ≠ .destroyed := by
  intro hcall
  have hflat := h.flat hcall
  simp [State.MayRequest, hflat, hcall] at may

theorem Ending.outside (hbackend : s.backend = .libc) (hcq : s.cq = []) (hd : ¬ Destroys s) :
    Ending s where
  backend := hbackend
  cq := hcq
  reader h := absurd h hd
  io h := absurd h hd
  flat hcall := absurd (by simp [Destroys, hcall]) hd

theorem not_destroyed (h : s.Dispatching) : s.call ≠ .destroyed := by
  obtain ⟨before, hcall⟩ := h.call
  simp [hcall]

theorem ending_step (h : Ending s) (g : NeverBlocks s e) (he : Enabled s e) :
    Ending (next s e) := by
  have step := step_of_enabled he
  have hreader := ended_step step
  generalize next s e = s' at step hreader
  cases step with
  | oversized r fault may => exact h.of_same rfl h.cq rfl hreader h.io h.flat
  | noEntry r may => exact h.of_same rfl h.cq rfl hreader h.io h.flat
  | noFrame r may => exact h.of_same rfl h.cq rfl hreader h.io h.flat
  | sends r may =>
    exact h.of_same rfl h.cq rfl hreader h.io fun hcall => absurd hcall (h.mayRequest may)
  | queues r may =>
    exact h.of_same rfl h.cq rfl hreader h.io fun hcall => absurd hcall (h.mayRequest may)
  | wait idle => exact .outside h.backend h.cq id
  | pollFailed err flat call => exact .outside h.backend h.cq id
  | poll flat call => exact .outside h.backend h.cq id
  | waitReturn flat call => exact .outside h.backend h.cq id
  | destroyUring idle backend => exact absurd (h.backend.symm.trans backend) (by simp)
  | destroyEnded idle backend ended =>
    exact ⟨h.backend, h.cq, fun _ => ended, fun _ => rfl, fun hcall => Call.noConfusion hcall⟩
  | destroyReading idle backend reads =>
    exact ⟨h.backend, h.cq, fun _ => rfl, fun _ => rfl, fun hcall => Call.noConfusion hcall⟩
  | cancel flat call =>
    have hd : Destroys s := by simp [Destroys, call]
    exact ⟨h.backend, h.cq, fun _ => h.reader hd, fun _ => h.io hd,
      fun hcall => Call.noConfusion hcall⟩
  | destroyReturn flat call =>
    have hd : Destroys s := by simp [Destroys, call]
    exact ⟨h.backend, h.cq, fun _ => h.reader hd, fun _ => h.io hd, fun _ => flat⟩
  | callBlocks top =>
    exact h.of_same rfl h.cq rfl hreader (fun hd => absurd hd (g rfl))
      fun hcall => absurd hcall (h.alive top)
  | completes => exact absurd (h.backend.symm.trans he.1) (by simp)
  | reap dispatching mem =>
    rw [h.cq] at mem
    cases mem
  | stillBlocked => exact h.of_same rfl h.cq rfl hreader h.io h.flat
  | readyReturns dispatching mem =>
    refine h.of_same rfl h.cq rfl hreader (fun hd => ?_)
      fun hcall => absurd hcall (not_destroyed dispatching)
    rw [h.io hd] at mem
    cases mem
  | received dispatching =>
    exact h.of_same rfl h.cq rfl hreader h.io fun hcall => absurd hcall (not_destroyed dispatching)
  | receiveFailed dispatching =>
    exact h.of_same rfl h.cq rfl hreader h.io fun hcall => absurd hcall (not_destroyed dispatching)
  | requestReturn top | callbackReturn top | callReturns top | drain top | sendsOn top | sent top
  | sendThrows top | sendThrowsLate top | handsOver top | frees top | readsOn top | unknownCid top
  | awaitsBody top | answered top | copies top | readsNothing top | failsNext top
  | failedAll top =>
    exact h.of_same rfl h.cq rfl hreader h.io fun hcall => absurd hcall (h.alive top)

end Steps

theorem ending_initial (syncWrites : Bool) : Ending (initial .libc syncWrites) :=
  .outside rfl rfl id

theorem ending_of_run {syncWrites : Bool} {s : State}
    (h : Run machine NeverBlocks (initial .libc syncWrites) s) : Ending s :=
  h.invariant (ending_initial syncWrites) fun _ _ hs he hg => ending_step hs hg he

/-- In every run in which no `send` made during the destructor finds the socket full, no
coroutine of the client outlives it. -/
theorem teardown_leaves_none (syncWrites : Bool) (s : State)
    (h : Run machine NeverBlocks (initial .libc syncWrites) s) (hd : s.call = .destroyed) :
    NoneSuspended s := by
  have hs := ending_of_run h
  have hdestroys : Destroys s := by simp [Destroys, hd]
  have hio := hs.io hdestroys
  have hstack := hs.flat hd
  have hnone : (channel s).holders = 0 := by
    simp [channel, places, State.ops, hio, hs.cq, hd, hstack]
  exact ⟨hs.reader hdestroys, ⟨hio, hs.cq⟩, (channel_ok h).waiters_of_no_holder hnone, hstack⟩

section Traces

/-- Two reads: the socket is full in the middle of the first header, and the second
`send_request` waits for the mutex. Then the client is destroyed: both callbacks have fired
when the first sender is canceled and hands the mutex over. -/
def destroyedMidMessage (o : SendOutcome) : List Event :=
  [.request shortRead none, .sendCall (.accepted 24), .run, .sendCall .suspended, .requestReturn,
    .request shortRead none, .requestReturn,
    .destroy, .drain [⟨true, 0⟩, ⟨true, 1⟩], .run, .callbackReturn, .run, .callbackReturn, .run,
    .cancel, .run, .run, .sendCall o]

def refusedAfterHandover : List Event :=
  destroyedMidMessage .failed ++ [.run, .run, .destroyReturn]

/-- The second `send` is refused: the socket is shut down. -/
theorem teardown_leaves_none_after_handover :
    NoneSuspended (runTrace machine (initial .libc false) refusedAfterHandover) := by
  have hrun : Run machine NeverBlocks (initial .libc false)
      (runTrace machine (initial .libc false) refusedAfterHandover) :=
    run_of_trace refusedAfterHandover (by decide +kernel) (by decide +kernel)
  exact teardown_leaves_none false _ hrun (by decide +kernel)

def blockedAfterHandover : List Event := destroyedMidMessage .suspended ++ [.destroyReturn]

/-- The second `send` finds the socket still full, and registers after `cancel_fd` has taken
the operations it goes through. -/
theorem sender_outlives_teardown : ∃ s, Reachable machine (initial .libc false) s ∧
    s.call = .destroyed ∧ s.io.map SendRequest.request = [1] ∧ ¬ NoneSuspended s := by
  let s := runTrace machine (initial .libc false) blockedAfterHandover
  have hio : s.io.map SendRequest.request = [1] := by decide +kernel
  refine ⟨s, reachable_of_trace blockedAfterHandover (by decide +kernel), by decide +kernel, hio,
    fun h => ?_⟩
  rw [h.queue.1] at hio
  cases hio

end Traces

end EasybdClientTeardown
