import EasyBD.EasybdClientTable

/-! In which API call callbacks fire, and what `wait` returns. -/
namespace EasybdClientWait

open TransitionRuns EntryLedger SerializedFrames EasybdProtocol EasyioQueue EasybdRequests
open EasybdClient EasybdClientTable

def sinceWait : List Effect → ℕ
  | [] => 0
  | .waitStarted :: _ => 0
  | .fired _ _ _ :: trace => sinceWait trace + 1
  | _ :: trace => sinceWait trace

/-- The sum of the counts `wait` has returned, errors left out. -/
def waitSum : List Effect → ℕ
  | [] => 0
  | .waited v :: trace => waitSum trace + v.toNat
  | _ :: trace => waitSum trace

def WaitsExact : List Effect → Prop
  | [] => True
  | .waited v :: trace => (0 ≤ v → v = sinceWait trace) ∧ WaitsExact trace
  | _ :: trace => WaitsExact trace

def IsDispatching : Call → Prop
  | .dispatching _ => True
  | _ => False

instance (call : Call) : Decidable (IsDispatching call) := by
  unfold IsDispatching
  split <;> infer_instance

def InWait : Call → Prop
  | .polling _ | .dispatching _ => True
  | _ => False

def InDestroy : Call → Prop
  | .destroying _ | .destroyed => True
  | _ => False

instance (call : Call) : Decidable (InDestroy call) := by
  unfold InDestroy
  split <;> infer_instance

structure CallbacksInWait (s : State) : Prop where
  inside : ∀ id res c, .fired id res c ∈ s.trace → c = .wait
  exact : WaitsExact s.trace
  total : ¬ InWait s.call → waitSum s.trace = (firedIds s.trace).length

def calling (s : State) : Option SendRequest :=
  match s.stack with
  | .calling t :: _ => some t
  | _ => none

/-- Nothing fails for a request that is still pending outside of `wait`: no send fails at once
in `pread`, `pwrite` or `destroy`, `cancel_fd` cancels no send, and the reader fails no entry
in `destroy`. And one `wait` fires fewer callbacks than an `int` counts. -/
def WaitOnly (s : State) : Event → Prop
  | .sendCall .failed => ∀ t ∈ calling s,
      IsDispatching s.call ∧ .request ∉ s.stack ∨ s.pending.lookup t.cid = none
  | .destroy => s.backend = .libc → s.readerAt ≠ .ended → values s.pending = []
  | .cancel => ∀ t ∈ s.ops.head?, s.pending.lookup t.cid = none
  | .waitReturn => sinceWait s.trace < 2 ^ 31
  | _ => True

instance (s : State) (e : Event) : Decidable (WaitOnly s e) := by
  unfold WaitOnly
  split <;> infer_instance

def Quiet (pending : PendingMap) : Frame → Prop
  | .request | .calling _ | .release _ => True
  | .returned t count => count = none → pending.lookup t.cid = none
  | .failAllPending => values pending = []
  | .failing ps => ps = []
  | .callback _ | .reading => False

/-- Whatever may fire is run by the dispatch loop of `wait`, with no request below it. -/
def Calm (call : Call) (pending : PendingMap) : List Frame → Prop
  | [] => True
  | f :: stack =>
    (Quiet pending f ∨ IsDispatching call ∧ .request ∉ stack) ∧ Calm call pending stack

theorem calm_of_dispatching {call : Call} {pending : PendingMap} {stack : List Frame}
    (hc : IsDispatching call) (h : .request ∉ stack) : Calm call pending stack := by
  induction stack with
  | nil => trivial
  | cons f stack ih =>
    have hrest : .request ∉ stack := fun hm => h (List.mem_cons_of_mem _ hm)
    exact ⟨Or.inr ⟨hc, hrest⟩, ih hrest⟩

theorem Calm.quiet {call : Call} {pending : PendingMap} {f : Frame} {stack : List Frame}
    (h : Calm call pending stack) (hf : Quiet pending f) : Calm call pending (f :: stack) :=
  ⟨Or.inl hf, h⟩

theorem Calm.empty {call : Call} {pending : PendingMap} {stack : List Frame}
    (h : Calm call pending stack) : Calm call ∅ stack := by
  induction stack with
  | nil => trivial
  | cons f stack ih =>
    refine ⟨h.1.imp_left fun hf => ?_, ih h.2⟩
    cases f with
    | returned t count => exact fun _ => rfl
    | failAllPending => rfl
    | _ => exact hf

section Tops

variable {s : State} {call : Call} {pending : PendingMap} {f : Frame} {stack l : List Frame}

theorem Calm.pop (h : Calm call pending l) (top : l = f :: stack) : Calm call pending stack := by
  rw [top] at h
  exact h.2

/-- An activation that may fire has only `wait` below it. -/
theorem Calm.loud (h : Calm call pending l) (top : l = f :: stack) (hf : ¬ Quiet pending f) :
    IsDispatching call ∧ .request ∉ stack := by
  rw [top] at h
  exact h.1.resolve_left hf

theorem Calm.mayRequest (h : Calm s.call s.pending s.stack) (may : s.MayRequest)
    (pending : PendingMap) : Calm s.call pending s.stack := by
  cases top : s.stack with
  | nil => trivial
  | cons f stack =>
    cases f with
    | callback id =>
      obtain ⟨hc, hr⟩ := h.loud top fun hq => hq
      exact calm_of_dispatching hc (by simpa using hr)
    | _ => simp [State.MayRequest, top] at may

theorem calm_dispatched (h : s.Dispatching) (hf : f ≠ .request) :
    Calm s.call s.pending (f :: s.stack) := by
  obtain ⟨before, hc⟩ := h.call
  exact calm_of_dispatching (hc ▸ trivial) (by simpa [h.1] using hf.symm)

end Tops

theorem calm_step {s s' : State} {e : Event} (h : Calm s.call s.pending s.stack)
    (g : WaitOnly s e) (step : Step s e s') : Calm s'.call s'.pending s'.stack := by
  cases step with
  | oversized | noEntry | stillBlocked | completes => exact h
  | noFrame r may => exact h.mayRequest may _
  | sends r may => exact ⟨Or.inl trivial, Or.inl trivial, h.mayRequest may _⟩
  | queues r may => exact ⟨Or.inl trivial, h.mayRequest may _⟩
  | requestReturn top | callbackReturn top | callBlocks top | frees top | readsOn top
  | readsNothing top | failedAll top =>
    exact h.pop top
  | wait idle | destroyUring idle | destroyEnded idle => exact idle.1 ▸ trivial
  | pollFailed err flat => exact flat ▸ trivial
  | poll flat | waitReturn flat | destroyReturn flat => exact flat ▸ trivial
  | destroyReading idle backend reads =>
    exact ⟨Or.inl (g backend reads), idle.1 ▸ trivial⟩
  | cancel flat call =>
    simp only [WaitOnly, State.ops, call] at g
    exact ⟨Or.inl fun _ => g _ rfl, trivial⟩
  | @callReturns t stack o top =>
    refine ⟨?_, h.pop top⟩
    cases o with
    | failed =>
      rcases g t (by simp [calling, top]) with ⟨hc, hr⟩ | gone
      · exact Or.inr ⟨hc, fun hm => hr (by rw [top]; exact List.mem_cons_of_mem _ hm)⟩
      · exact Or.inl fun _ => gone
    | accepted n => exact Or.inl fun hc => by cases hc
    | suspended => contradiction
  | readyReturns dispatching | reap dispatching | received dispatching
  | receiveFailed dispatching =>
    exact calm_dispatched dispatching Frame.noConfusion
  | drain top perm =>
    refine ⟨?_, (h.pop top).empty⟩
    rw [top] at h
    refine h.1.imp_left fun hv => ?_
    have hnil : values s.pending = [] := hv
    rw [hnil] at perm
    exact perm.eq_nil
  | sendsOn top | sent top | sendThrowsLate top | handsOver top =>
    exact ⟨Or.inl trivial, h.pop top⟩
  | sendThrows top known =>
    obtain ⟨hc, hr⟩ := h.loud top fun hq => by simp [Quiet, known] at hq
    exact calm_of_dispatching hc (by simpa using hr)
  | unknownCid top | awaitsBody top | answered top | copies top =>
    obtain ⟨hc, hr⟩ := h.loud top fun hq => hq
    exact calm_of_dispatching hc (by simpa using hr)
  | failsNext top =>
    obtain ⟨hc, hr⟩ := h.loud top fun hq => by cases hq
    exact calm_of_dispatching hc (by simpa using hr)

def Aside : Effect → Prop
  | .fired _ _ _ | .waitStarted | .waited _ => False
  | _ => True

inductive CountStep (s s' : State) : Prop where
  | aside (new : List Effect) (hnew : ∀ x ∈ new, Aside x) (htrace : s'.trace = new ++ s.trace)
      (htotal : s'.totalDispatched = s.totalDispatched)
      (hcall : s'.call = s.call ∨ ¬ InWait s.call ∧ ¬ InWait s'.call)
  | fires (id : ℕ) (res : Int64) (new : List Effect) (hnew : ∀ x ∈ new, Aside x)
      (htrace : s'.trace = .fired id res .wait :: (new ++ s.trace))
      (htotal : s'.totalDispatched = s.totalDispatched + 1)
      (hc : IsDispatching s.call) (hcall : s'.call = s.call)
  | begins (idle : s.call = .idle) (htrace : s'.trace = .waitStarted :: s.trace)
      (htotal : s'.totalDispatched = s.totalDispatched)
      (hcall : s'.call = .polling s.totalDispatched)
  | polls (before : UInt64) (polling : s.call = .polling before)
      (htrace : s'.trace = s.trace) (htotal : s'.totalDispatched = s.totalDispatched)
      (hcall : s'.call = .dispatching before)
  | fails (before : UInt64) (err : Errno) (polling : s.call = .polling before)
      (htrace : s'.trace = .waited (-err.val) :: s.trace) (hcall : s'.call = .idle)
  | returns (before : UInt64) (dispatching : s.call = .dispatching before)
      (short : sinceWait s.trace < 2 ^ 31)
      (htrace : s'.trace =
        .waited (((s.totalDispatched - before).toNat : ℤ).bmod (2 ^ 32)) :: s.trace)
      (hcall : s'.call = .idle)

theorem CountStep.of_same {s s' : State} (htrace : s'.trace = s.trace)
    (htotal : s'.totalDispatched = s.totalDispatched)
    (hcall : s'.call = s.call ∨ ¬ InWait s.call ∧ ¬ InWait s'.call) : CountStep s s' :=
  .aside [] (by simp) htrace htotal hcall

theorem CountStep.of_emit {s s' : State} {x : Effect} (htrace : s'.trace = x :: s.trace)
    (hx : Aside x) (htotal : s'.totalDispatched = s.totalDispatched)
    (hcall : s'.call = s.call) : CountStep s s' :=
  .aside [x] (by simpa using hx) htrace htotal (Or.inl hcall)

theorem aside_shown (b : Backend) (t : SendRequest) (o : SendOutcome) :
    ∀ x ∈ shown b t o, Aside x := by
  unfold shown
  split <;> simp [Aside]

theorem aside_taken (t : SendRequest) (o : SendOutcome) : ∀ x ∈ taken t o, Aside x := by
  cases o <;> simp [taken, Aside]

theorem aside_send (t : SendRequest) (b : Backend) (o : SendOutcome) :
    ∀ x ∈ taken t o ++ shown b t o, Aside x := by
  intro x hx
  rcases List.mem_append.mp hx with hx | hx
  · exact aside_taken t o x hx
  · exact aside_shown b t o x hx

theorem context_of_loud {s : State} (hc : IsDispatching s.call) (hr : .request ∉ s.stack) :
    s.context = .wait := by
  cases call : s.call with
  | dispatching before => simp [State.context, hr, call]
  | _ => simp [IsDispatching, call] at hc

theorem count_step {s s' : State} {e : Event} (h : Calm s.call s.pending s.stack)
    (g : WaitOnly s e) (step : Step s e s') : CountStep s s' := by
  cases step with
  | oversized | noEntry | noFrame | queues | received | sendThrowsLate | frees =>
    exact .of_emit rfl trivial rfl rfl
  | sends | handsOver => exact .aside [_, _] (by simp [Aside]) rfl rfl (Or.inl rfl)
  | wait idle => exact .begins idle.2 rfl rfl rfl
  | pollFailed err flat call => exact .fails _ err call rfl rfl
  | poll flat call => exact .polls _ call rfl rfl rfl
  | waitReturn flat call => exact .returns _ call g rfl rfl
  | destroyUring idle | destroyEnded idle | destroyReading idle =>
    exact .of_same rfl rfl (Or.inr ⟨idle.2 ▸ id, id⟩)
  | cancel flat call | destroyReturn flat call =>
    exact .of_same rfl rfl (Or.inr ⟨call ▸ id, id⟩)
  | callBlocks | stillBlocked => exact .aside _ (aside_shown _ _ _) rfl rfl (Or.inl rfl)
  | callReturns | readyReturns =>
    exact .aside _ (aside_send _ _ _) (List.append_assoc _ _ _).symm rfl (Or.inl rfl)
  | completes => exact .aside _ (aside_taken _ _) rfl rfl (Or.inl rfl)
  | @sendThrows t stack p top known =>
    obtain ⟨hc, hr⟩ := h.loud top fun hq => by simp [Quiet, known] at hq
    refine .fires p.request (negErrno econnreset) [.channel .fail] (by simp [Aside]) ?_ rfl hc rfl
    rw [State.fire, context_of_loud (by exact hc) (by simpa using hr)]
    rfl
  | @answered stack p top at_ enough resp =>
    obtain ⟨hc, hr⟩ := h.loud top fun hq => hq
    refine .fires p.request resp.res [] (by simp) ?_ rfl hc rfl
    rw [State.finishResponse, State.fire, context_of_loud (by exact hc) (by simpa using hr)]
    rfl
  | @copies stack cid res p top =>
    obtain ⟨hc, hr⟩ := h.loud top fun hq => hq
    refine .fires p.request res [.copied p.request (s.reader.unread.take s.readerAt.needed)]
      (by simp [Aside]) ?_ rfl hc rfl
    rw [State.finishResponse, State.fire, context_of_loud (by exact hc) (by simpa using hr)]
    rfl
  | @failsNext stack p ps top =>
    obtain ⟨hc, hr⟩ := h.loud top fun hq => by cases hq
    refine .fires p.request (negErrno econnreset) [] (by simp) ?_ rfl hc rfl
    rw [State.fire, context_of_loud (by exact hc) (by simpa using hr)]
    rfl
  | _ => exact .of_same rfl rfl (Or.inl rfl)

theorem counts_aside {new : List Effect} (trace : List Effect) (h : ∀ x ∈ new, Aside x) :
    sinceWait (new ++ trace) = sinceWait trace ∧ waitSum (new ++ trace) = waitSum trace ∧
      firedIds (new ++ trace) = firedIds trace ∧
      (WaitsExact trace → WaitsExact (new ++ trace)) := by
  induction new with
  | nil => exact ⟨rfl, rfl, rfl, id⟩
  | cons x new ih =>
    have hx := h x List.mem_cons_self
    have ih := ih fun y hy => h y (List.mem_cons_of_mem _ hy)
    cases x <;> first | exact hx.elim | exact ih

/-- What `wait` will return, against what has been fired. -/
def Balanced (s : State) : Prop :=
  match s.call with
  | .polling before =>
    s.totalDispatched = before ∧ sinceWait s.trace = 0 ∧
      (firedIds s.trace).length = waitSum s.trace
  | .dispatching before =>
    s.totalDispatched = before + UInt64.ofNat (sinceWait s.trace) ∧
      (firedIds s.trace).length = waitSum s.trace + sinceWait s.trace
  | _ => (firedIds s.trace).length = waitSum s.trace

structure Counted (s : State) : Prop where
  calm : Calm s.call s.pending s.stack
  inside : ∀ id res c, .fired id res c ∈ s.trace → c = .wait
  exact : WaitsExact s.trace
  balanced : Balanced s

theorem balanced_outside {s : State} (hc : ¬ InWait s.call) :
    Balanced s ↔ (firedIds s.trace).length = waitSum s.trace := by
  unfold Balanced
  split
  · next hcall => exact absurd (hcall ▸ trivial : InWait s.call) hc
  · next hcall => exact absurd (hcall ▸ trivial : InWait s.call) hc
  · rfl

/-- The count of a `wait` that dispatched fewer callbacks than an `int` holds. -/
theorem count_of_dispatched {n : ℕ} (before : UInt64) (h : n < 2 ^ 31) :
    ((before + UInt64.ofNat n - before).toNat : ℤ).bmod (2 ^ 32) = n := by
  have hsub : before + UInt64.ofNat n - before = UInt64.ofNat n := by
    rw [UInt64.add_comm, UInt64.add_sub_cancel]
  have hn : (UInt64.ofNat n).toNat = n := by
    rw [UInt64.toNat_ofNat']
    omega
  rw [hsub, hn]
  apply Int.bmod_eq_of_le <;> omega

theorem counted_step {s s' : State} {e : Event} (h : Counted s) (g : WaitOnly s e)
    (step : Step s e s') : Counted s' := by
  have hcalm := calm_step h.calm g step
  have hbal := h.balanced
  cases count_step h.calm g step with
  | aside new hnew htrace htotal hcall =>
    obtain ⟨hsince, hsum, hfired, hexact⟩ := counts_aside s.trace hnew
    refine ⟨hcalm, fun id res c hm => ?_, htrace ▸ hexact h.exact, ?_⟩
    · rw [htrace] at hm
      exact h.inside id res c ((List.mem_append.mp hm).resolve_left fun hn => hnew _ hn)
    · rcases hcall with hcall | ⟨hout, hout'⟩
      · simpa only [Balanced, hcall, htotal, htrace, hsince, hsum, hfired] using hbal
      · rw [balanced_outside hout', htrace, hfired, hsum]
        exact (balanced_outside hout).mp hbal
  | fires id res new hnew htrace htotal hc hcall =>
    obtain ⟨hsince, hsum, hfired, hexact⟩ := counts_aside s.trace hnew
    refine ⟨hcalm, fun i r c hm => ?_, htrace ▸ hexact h.exact, ?_⟩
    · rw [htrace] at hm
      rcases List.mem_cons.mp hm with heq | hm
      · cases heq
        rfl
      · exact h.inside i r c ((List.mem_append.mp hm).resolve_left fun hn => hnew _ hn)
    · cases call : s.call with
      | dispatching before =>
        simp only [Balanced, call] at hbal
        simp only [Balanced, hcall, call, htrace, htotal, sinceWait, waitSum, firedIds_cons,
          Effect.firedId, hsince, hsum, hfired, Option.toList, List.length_append]
        refine ⟨?_, by rw [hbal.2]; simp; omega⟩
        rw [hbal.1, UInt64.ofNat_add, UInt64.add_assoc]
        rfl
      | _ => simp [IsDispatching, call] at hc
  | begins idle htrace htotal hcall =>
    refine ⟨hcalm, fun i r c hm => ?_, htrace ▸ h.exact, ?_⟩
    · rw [htrace] at hm
      exact h.inside i r c (by simpa using hm)
    · simp only [Balanced, idle] at hbal
      simp only [Balanced, hcall, htrace, htotal, sinceWait, waitSum]
      exact ⟨trivial, trivial, hbal⟩
  | polls before polling htrace htotal hcall =>
    refine ⟨hcalm, htrace ▸ h.inside, htrace ▸ h.exact, ?_⟩
    simp only [Balanced, polling] at hbal
    obtain ⟨htot, hzero, hlen⟩ := hbal
    simp only [Balanced, hcall, htrace, htotal, hzero, htot, hlen]
    simp
  | fails before err polling htrace hcall =>
    simp only [Balanced, polling] at hbal
    refine ⟨hcalm, fun i r c hm => ?_, ?_, ?_⟩
    · rw [htrace] at hm
      exact h.inside i r c (by simpa using hm)
    · rw [htrace]
      have := err.pos
      exact ⟨fun hv => by omega, h.exact⟩
    · simp only [Balanced, hcall, htrace, waitSum]
      have := err.pos
      simp [hbal.2.2]
  | returns before dispatching short htrace hcall =>
    simp only [Balanced, dispatching] at hbal
    rw [hbal.1, count_of_dispatched before short] at htrace
    refine ⟨hcalm, fun i r c hm => ?_, ?_, ?_⟩
    · rw [htrace] at hm
      exact h.inside i r c (by simpa using hm)
    · rw [htrace]
      exact ⟨fun _ => rfl, h.exact⟩
    · simp only [Balanced, hcall, htrace, waitSum]
      simp [hbal.2]

theorem counted_initial (backend : Backend) (syncWrites : Bool) :
    Counted (initial backend syncWrites) where
  calm := trivial
  inside := by rintro id res c ⟨⟩
  exact := trivial
  balanced := rfl

theorem counted_of_run {backend : Backend} {syncWrites : Bool} {s : State}
    (h : Run machine WaitOnly (initial backend syncWrites) s) : Counted s :=
  h.invariant (counted_initial backend syncWrites) fun _ _ hc he hg =>
    counted_step hc hg (step_of_enabled he)

theorem inDestroy_step {s s' : State} {e : Event} (h : InDestroy s.call) (step : Step s e s') :
    InDestroy s'.call := by
  cases step with
  | wait idle => rw [idle.2] at h; exact h.elim
  | pollFailed err flat call => rw [call] at h; exact h.elim
  | poll flat call => rw [call] at h; exact h.elim
  | waitReturn flat call => rw [call] at h; exact h.elim
  | destroyUring => trivial
  | destroyEnded => trivial
  | destroyReading => trivial
  | cancel => trivial
  | destroyReturn => trivial
  | _ => exact h

/-- What is in flight at `destroy` never gets its callback. -/
theorem firedIds_inDestroy {s s' : State} {e : Event} (hd : InDestroy s.call) (h : Counted s)
    (g : WaitOnly s e) (step : Step s e s') : firedIds s'.trace = firedIds s.trace := by
  cases count_step h.calm g step with
  | aside new hnew htrace htotal hcall =>
    rw [htrace]
    exact (counts_aside s.trace hnew).2.2.1
  | fires id res new hnew htrace htotal hc hcall =>
    cases call : s.call <;> simp [IsDispatching, InDestroy, call] at hc hd
  | begins idle htrace htotal hcall => rw [htrace]; rfl
  | polls before polling htrace htotal hcall => rw [htrace]
  | fails before err polling htrace hcall => rw [htrace]; rfl
  | returns before dispatching short htrace hcall => rw [htrace]; rfl

theorem callbacks_only_in_wait {backend : Backend} {syncWrites : Bool} {s : State}
    (h : Run machine WaitOnly (initial backend syncWrites) s) : CallbacksInWait s ∧
      ∀ u, InDestroy s.call → Run machine WaitOnly s u → firedIds u.trace = firedIds s.trace := by
  have hs := counted_of_run h
  refine ⟨⟨hs.inside, hs.exact, fun hc => ((balanced_outside hc).mp hs.balanced).symm⟩, ?_⟩
  intro u hd hr
  let I (v : State) : Prop := InDestroy v.call ∧ Counted v ∧ firedIds v.trace = firedIds s.trace
  have hend : I u := by
    refine hr.invariant ⟨hd, hs, rfl⟩ fun v e ⟨hdv, hcv, hfired⟩ he hg => ?_
    have step := step_of_enabled he
    exact ⟨inDestroy_step hdv step, counted_step hcv hg step,
      (firedIds_inDestroy hdv hcv hg step).trans hfired⟩
  exact hend.2.2

section Traces

def byteRead : Request := ⟨true, 1, 0, [0], rfl⟩

def readSend (b : Backend) : SendRequest := (initial b false).sendRequest byteRead

/-- One read is answered in `wait`, a second one is in flight when the client is destroyed. -/
def destroyedInFlight : List Event :=
  [.request byteRead none, .sendCall .suspended, .requestReturn, .wait, .poll,
    .complete (readSend .ioUring) (.accepted 25), .reap (readSend .ioUring) (some 25), .run, .run,
    .received [ResponseHeader.bytes ⟨1, 1⟩ ++ [7]], .run, .run, .callbackReturn, .run,
    .waitReturn, .request byteRead none, .sendCall .suspended, .requestReturn, .destroy]

theorem callbacks_only_in_wait_destroyed_in_flight :
    CallbacksInWait (runTrace machine (initial .ioUring false) destroyedInFlight) ∧
      firedIds (next (runTrace machine (initial .ioUring false) destroyedInFlight)
        .destroyReturn).trace = [0] := by
  have h := callbacks_only_in_wait
    (run_of_trace (G := WaitOnly) (s := initial .ioUring false) destroyedInFlight
      (by decide +kernel) (by decide +kernel))
  have hlast := h.2 _ (by decide +kernel)
    (Run.single (e := .destroyReturn) (by decide +kernel) (by decide +kernel))
  exact ⟨h.1, hlast.trans (by decide +kernel)⟩

/-- The read's send fails at once: no SQE, or an error from `sendmsg`. -/
def failsAtOnce : List Event := [.request byteRead none, .sendCall .failed, .run]

def destroyedWaiting : List Event :=
  [.request byteRead none, .sendCall (.accepted 25), .run, .run, .requestReturn, .destroy,
    .drain [⟨true, 0⟩], .run]

/-- Its callback fires inside `pread` or, on libc, inside `destroy`. -/
theorem callback_fires_outside_wait :
    (∀ backend, ∃ s, Reachable machine (initial backend false) s ∧
      .fired 0 (negErrno econnreset) .request ∈ s.trace ∧ ¬ CallbacksInWait s) ∧
    ∃ s, Reachable machine (initial .libc false) s ∧
      .fired 0 (negErrno econnreset) .destroy ∈ s.trace ∧ ¬ CallbacksInWait s := by
  refine ⟨fun backend => ?_, ?_⟩
  · have hvalid : ValidTrace machine (initial backend false) failsAtOnce := by
      cases backend <;> decide +kernel
    have hfired : .fired 0 (negErrno econnreset) .request ∈
        (runTrace machine (initial backend false) failsAtOnce).trace := by
      cases backend <;> decide +kernel
    exact ⟨_, reachable_of_trace _ hvalid, hfired, fun h => by cases h.inside _ _ _ hfired⟩
  · have hfired : .fired 0 (negErrno econnreset) .destroy ∈
        (runTrace machine (initial .libc false) destroyedWaiting).trace := by decide +kernel
    exact ⟨_, reachable_of_trace destroyedWaiting (by decide +kernel), hfired,
      fun h => by cases h.inside _ _ _ hfired⟩

end Traces

end EasybdClientWait
