import EasyBD.EasybdSessionAnswers

/-! `tracked`, `wg.wait()` and the `close` in `accept_one`: `handle_connection` outlives its
handlers, and the last of them resumes it. -/
namespace EasybdSessionWaitGroup

open TransitionRuns EasybdProtocol EasyioQueue EasyioMutex EasyioSenders EasybdHandlers
open EasybdRequests EasybdHandleConnection EasybdSession EasybdSessionTasks EasybdSessionParsing
open EasybdSessionChannel EasybdSessionAnswers

@[simp] def Frame.isFinishing : Frame → Bool
  | .finishing => true
  | _ => false

def unfinished (s : State) : ℕ := (tasks s).card + s.stack.countP Frame.isFinishing

/-- The handler that `wg.add()` has counted and `spawn` has not yet got frames for. -/
def starting (s : State) : ℕ := s.stack.countP Frame.isUnstarted

section Counting

theorem counted_frame (f : Frame) : Frame.counted f = (Frame.tasks f).card +
    (if Frame.isFinishing f then 1 else 0) + (if Frame.isUnstarted f then 1 else 0) := by
  cases f <;> rfl

theorem counted_stack (stack : List Frame) : (stack.map Frame.counted).sum =
    (stack.map Frame.tasks).sum.card + stack.countP Frame.isFinishing +
      stack.countP Frame.isUnstarted := by
  induction stack with
  | nil => rfl
  | cons f stack ih =>
    rw [List.map_cons, List.sum_cons, ih, counted_frame, List.map_cons, List.sum_cons,
      Multiset.card_add, List.countP_cons, List.countP_cons]
    omega

theorem counted_eq (s : State) : counted s = unfinished s + starting s := by
  simp only [counted, unfinished, starting, counted_stack, tasks, running, Multiset.card_add,
    Multiset.coe_card, List.length_map]
  omega

end Counting

/-- What a step does to `accept_one` behind `handle_connection`. -/
inductive ClosingStep (s s' : State) : Prop where
  | same (hat : s'.readerAt = .returned ↔ s.readerAt = .returned)
      (hcount : s'.stack.count .closing = s.stack.count .closing) (hclosed : s'.closed = s.closed)
  | returns (hat : s.readerAt ≠ .returned) (hat' : s'.readerAt = .returned)
      (hcount : s'.stack.count .closing = s.stack.count .closing + 1)
      (hclosed : s'.closed = s.closed)
  | closes (hat : s'.readerAt = s.readerAt)
      (hcount : s.stack.count .closing = s'.stack.count .closing + 1)

section Closing

variable {s s' : State} {e : Event}

theorem closingStep_endLoop {u : State} (hat : s.readerAt ≠ .returned)
    (hcount : u.stack.count .closing = s.stack.count .closing) (hclosed : u.closed = s.closed) :
    ClosingStep s u.endLoop := by
  unfold State.endLoop
  split
  · exact .returns hat rfl (by simp [hcount]) hclosed
  · exact .same (by simp [hat]) hcount hclosed

theorem closingStep_reply {u : State} {t : Reply} (hat : u.readerAt = s.readerAt)
    (hcount : u.stack.count .closing = s.stack.count .closing) (hclosed : u.closed = s.closed) :
    ClosingStep s (u.reply t) := by
  refine .same (by rw [(reply_same u t).2.1, hat]) ?_ ((closed_reply t).trans hclosed)
  unfold State.reply
  split
  · exact hcount
  · simpa using hcount

theorem closing_step (hp : AtOnePlace s) (step : Step s e s') : ClosingStep s s' := by
  cases step with
  | receiveFailed flat loops =>
    refine closingStep_endLoop ?_ rfl rfl
    intro hat
    simp [State.Loops, hat] at loops
  | rejects top at_ => exact closingStep_endLoop (by simp [at_]) (by simp [top]) rfl
  | @notAllocated stack req top =>
    have hat := (hp.allocating req (by simp [top])).2
    exact closingStep_endLoop (by simp [hat]) (by simp [top]) rfl
  | @notSpawned stack k top =>
    have hat := (hp.spawning k (by simp [top])).2
    exact closingStep_endLoop (by simp [hat]) (by simp [top]) rfl
  | receivesHeader flat at_ => exact .same (by simp [at_]) (by simp [flat]) rfl
  | receivesPayload flat at_ => exact .same (by simp [at_]) (by simp [flat]) rfl
  | spawnsWrite top at_ => exact .same (by simp [at_]) (by simp [top]) rfl
  | @allocated stack req top =>
    have hat := (hp.allocating req (by simp [top])).2
    exact .same (by simp [hat]) (by simp [top]) rfl
  | spawnsError top => exact closingStep_reply rfl (by simp [top]) rfl
  | performed top => exact closingStep_reply rfl (by simp [top]) rfl
  | fileReady => exact closingStep_reply rfl rfl rfl
  | spawned top file f first =>
    refine .same Iff.rfl ?_ rfl
    rcases first with rfl | rfl <;> simp [top]
  | finishesLast top last drains => exact .returns (by simp [drains]) rfl (by simp [top]) rfl
  | closes top => exact .closes rfl (by simp [top])
  | readyReturns | stillBlocked | completes | reap => exact .same Iff.rfl (by simp) rfl
  | awaitsHeader top | allocates top | spawns top | awaitsPayload top | readsNothing top
  | buffered top | notBuffered top | performs top | performThrows top | callBlocks top
  | callReturns top | sendsOn top | sent top | sendThrows top | handsOver top | frees top
  | finishes top =>
    exact .same Iff.rfl (by simp [top]) rfl

structure ClosesOnce (s : State) : Prop where
  before : s.readerAt ≠ .returned → s.stack.count .closing = 0 ∧ s.closed = false
  once : s.stack.count .closing ≤ 1

theorem closesOnce_step (h : ClosesOnce s) (step : ClosingStep s s') : ClosesOnce s' := by
  cases step with
  | same hat hcount hclosed =>
    refine ⟨fun hne => ?_, hcount ▸ h.once⟩
    rw [hcount, hclosed]
    exact h.before (mt hat.mpr hne)
  | returns hat hat' hcount hclosed =>
    refine ⟨fun hne => absurd hat' hne, ?_⟩
    rw [hcount, (h.before hat).1]
  | closes hat hcount =>
    have honce := h.once
    refine ⟨fun hne => ?_, by omega⟩
    have hnone := (h.before (hat ▸ hne)).1
    omega

theorem returned_forever (hp : AtOnePlace s) (h : s.readerAt = .returned)
    (hs : Reachable machine s s') :
    s'.readerAt = .returned ∧ s'.stack.count .closing ≤ s.stack.count .closing := by
  have hstay : AtOnePlace s' ∧ s'.readerAt = .returned ∧
      s'.stack.count .closing ≤ s.stack.count .closing := by
    refine Run.invariant (I := fun u => AtOnePlace u ∧ u.readerAt = .returned ∧
      u.stack.count .closing ≤ s.stack.count .closing) hs ⟨hp, h, le_rfl⟩ ?_
    rintro u e ⟨hu, hat, hle⟩ he -
    have step := step_of_enabled he
    refine ⟨atOnePlace_step hu step, ?_⟩
    cases closing_step hu step with
    | same hat' hcount => exact ⟨hat'.mpr hat, hcount.trans_le hle⟩
    | returns hne => exact absurd hat hne
    | closes hat' hcount =>
      have hless : (next u e).stack.count .closing ≤ s.stack.count .closing := by omega
      exact ⟨hat'.trans hat, hless⟩
  exact hstay.2

theorem completes_endLoop (h : s.endLoop.readerAt = .returned) : s.endLoop.remaining = 0 := by
  rw [remaining_endLoop]
  unfold State.endLoop at h
  split at h
  · assumption
  · cases h

theorem completes_step (hr : s.readerAt = .returned → s.remaining = 0) (step : Step s e s')
    (h : s'.readerAt = .returned) : s'.remaining = 0 := by
  cases step with
  | receiveFailed => exact completes_endLoop h
  | rejects => exact completes_endLoop h
  | notAllocated => exact completes_endLoop h
  | notSpawned => exact completes_endLoop h
  | spawnsError | performed | fileReady =>
    rw [remaining_reply]
    rw [(reply_same _ _).2.1] at h
    exact hr h
  | spawns top at_ => cases at_.symm.trans h
  | finishes => exact Nat.sub_eq_zero_of_le ((hr h).trans_le (Nat.zero_le _))
  | finishesLast top last => exact last
  | receivesPayload | spawnsWrite | allocated => cases h
  | _ => exact hr h

end Closing

def Resumes (s : State) (e : Event) : Prop :=
  s.readerAt = .draining ∧ (next s e).readerAt = .returned

/-- The wait group counts exactly the handlers that are not done. The connection completes,
and its fd is closed, only when none is left and the mutex is free; a loop that has ended
waits for somebody, and the last `done()` and nothing else resumes it, once. -/
structure OutlivesHandlers (s : State) : Prop where
  remaining : s.remaining = unfinished s + starting s
  completes : s.readerAt = .returned → unfinished s = 0 ∧ starting s = 0 ∧ s.sendMtx = .initial
  closes : .closing ∈ s.stack ∨ s.closed = true → s.readerAt = .returned
  waits : s.readerAt = .draining → 0 < unfinished s
  resumes : ∀ e, Enabled s e → s.readerAt = .draining → (unfinished (next s e) = 0 ↔ Resumes s e)
  last : ∀ e, Enabled s e → Resumes s e → e = .run ∧ unfinished s = 1 ∧
    ∃ stack, s.stack = .finishing :: stack ∧ (next s e).stack = .closing :: stack
  once : s.readerAt = .returned → ∀ s', Reachable machine s s' →
    s'.readerAt = .returned ∧ s'.stack.count .closing ≤ s.stack.count .closing

section Runs

variable {backend : Backend} {s : State}

structure Waiting (s : State) : Prop where
  remaining : s.remaining = counted s
  waits : s.readerAt = .draining → 0 < s.remaining
  completes : s.readerAt = .returned → s.remaining = 0
  closes : ClosesOnce s

theorem waiting_of_run (h : Run machine FramesAllocated (initial backend) s) : Waiting s := by
  refine h.invariant_under (I := AtOnePlace) (fun u hu => (follows_of_run hu).1)
    ⟨rfl, nofun, nofun, ⟨fun _ => ⟨rfl, rfl⟩, Nat.zero_le _⟩⟩ fun u e hp hw he hg => ?_
  have step := step_of_enabled he
  exact ⟨counted_step hw.remaining hg step, draining_step hw.waits step,
    completes_step hw.completes step, closesOnce_step hw.closes (closing_step hp step)⟩

theorem starting_eq_zero (hp : AtOnePlace s) (hat : s.readerAt ≠ .header) : starting s = 0 := by
  refine List.countP_eq_zero.mpr fun f hf => ?_
  cases f with
  | spawning k => exact absurd (hp.spawning k hf).2 hat
  | _ => exact Bool.false_ne_true

theorem holders_le_tasks (s : State) : (channel s).holders.card ≤ (tasks s).card := by
  have hstack (stack : List Frame) :
      (stack.map EasybdSessionChannel.Frame.holders).sum.card ≤
        (stack.map Frame.tasks).sum.card := by
    induction stack with
    | nil => exact le_rfl
    | cons f stack ih =>
      have hframe : (EasybdSessionChannel.Frame.holders f).card ≤ (Frame.tasks f).card := by
        cases f <;> first | exact le_rfl | exact Nat.zero_le _
      simp only [List.map_cons, List.sum_cons, Multiset.card_add]
      omega
  have hle := hstack s.stack
  simp only [channel, places, tasks, running, Multiset.card_add, Multiset.coe_card,
    List.length_map]
  omega

theorem mutex_free (hok : (channel s).Ok sender) (hnone : unfinished s = 0) :
    s.sendMtx = .initial := by
  have hle := holders_le_tasks s
  have hzero : (channel s).holders.card = 0 := by
    simp only [unfinished] at hnone
    omega
  have hfree : s.sendMtx.locked = false := by
    by_contra hlocked
    have hheld := hok.exclusive.held
    rw [hzero, show (channel s).mutex = s.sendMtx from rfl,
      if_pos (by simpa using hlocked)] at hheld
    cases hheld
  have hnobody : s.sendMtx.waiters = [] := by
    by_contra hwaiting
    have hlocked := hok.exclusive.waiting hwaiting
    rw [show (channel s).mutex = s.sendMtx from rfl, hfree] at hlocked
    cases hlocked
  rcases hm : s.sendMtx with ⟨locked, waiters⟩
  rw [hm] at hfree hnobody
  subst hfree hnobody
  rfl

theorem resumes_step {s' : State} {e : Event} (hp : AtOnePlace s) (step : Step s e s')
    (hat : s.readerAt = .draining) (hat' : s'.readerAt = .returned) :
    e = .run ∧ s.remaining - 1 = 0 ∧
      ∃ stack, s.stack = .finishing :: stack ∧ s'.stack = .closing :: stack := by
  cases step with
  | finishesLast top last => exact ⟨rfl, last, _, top, rfl⟩
  | receiveFailed flat loops => simp [State.Loops, hat] at loops
  | rejects top at_ => cases hat.symm.trans at_
  | @notAllocated stack req top => cases hat.symm.trans (hp.allocating req (by simp [top])).2
  | @notSpawned stack k top => cases hat.symm.trans (hp.spawning k (by simp [top])).2
  | spawnsError | performed | fileReady =>
    rw [(reply_same _ _).2.1] at hat'
    cases hat.symm.trans hat'
  | receivesPayload | spawnsWrite | allocated => cases hat'
  | _ => cases hat.symm.trans hat'

theorem outlives_handlers (h : Run machine FramesAllocated (initial backend) s) :
    OutlivesHandlers s := by
  have hplace := (follows_of_run h).1
  have hw := waiting_of_run h
  have hremaining : s.remaining = unfinished s + starting s := by rw [hw.remaining, counted_eq]
  have hstarting (hat : s.readerAt = .draining) : starting s = 0 :=
    starting_eq_zero hplace (by simp [hat])
  refine ⟨hremaining, fun hat => ?_, fun hclosing => ?_, fun hat => ?_, fun e he hat => ?_,
    fun e he hresumes => ?_, fun hat s' hs => returned_forever hplace hat hs⟩
  · have hzero := hw.completes hat
    have hnone : unfinished s = 0 := by omega
    exact ⟨hnone, by omega, mutex_free (channel_ok h) hnone⟩
  · by_contra hne
    obtain ⟨hcount, hclosed⟩ := hw.closes.before hne
    rcases hclosing with hmem | hopen
    · exact List.count_eq_zero.mp hcount hmem
    · exact absurd (hopen.symm.trans hclosed) Bool.noConfusion
  · have hpos := hw.waits hat
    rw [hremaining, hstarting hat] at hpos
    exact hpos
  · have step := step_of_enabled he
    have hguard : FramesAllocated s e := by
      cases e with
      | alloc ok =>
        intro f hf hunstarted
        have hmem := List.mem_of_mem_head? hf
        exact absurd hunstarted (List.countP_eq_zero.mp (hstarting hat) f hmem)
      | _ => trivial
    have hw' := waiting_of_run (h.tail he hguard)
    have hplace' := atOnePlace_step hplace step
    have hcounted := (hw'.remaining).trans (counted_eq (next s e))
    constructor
    · intro hnone
      refine ⟨hat, ?_⟩
      have hends := (ended_step hplace step (by simp [State.Loops, hat])).1
      cases hat' : (next s e).readerAt with
      | header => simp [State.Loops, hat'] at hends
      | payload req got => simp [State.Loops, hat'] at hends
      | returned => rfl
      | draining =>
        -- it would wait for nobody
        have hpos := hw'.waits hat'
        have hnobody := starting_eq_zero hplace' (by simp [hat'])
        omega
    · rintro ⟨-, hat'⟩
      have hzero := hw'.completes hat'
      omega
  · obtain ⟨hat, hat'⟩ := hresumes
    obtain ⟨rfl, hlast, stack, top, hstack⟩ :=
      resumes_step hplace (step_of_enabled he) hat hat'
    have hpos := hw.waits hat
    have hnone := hstarting hat
    exact ⟨rfl, by omega, stack, top, hstack⟩

end Runs

section Traces

/-- The first response meets a full socket, the second waits for the mutex, the stream ends.
The first handler hands the mutex over from inside its release, and the second finishes
there. -/
def finishesNested : List Event :=
  [.received twoReads, .run, .alloc true, .alloc true, .perform (.result (.transferred 2 [7, 8])),
    .sendCall .suspended, .run, .alloc true, .alloc true,
    .perform (.result (.transferred 2 [7, 8])), .run, .receiveFailed,
    .sendReady (State.replyOf 0 (.handleRead 1 0 2) ⟨1, 2, [7, 8]⟩) (.accepted 18), .run, .run,
    .sendCall (.accepted 18), .run, .run, .run, .run]

theorem outlives_handlers_nested :
    (runTrace machine (initial .libc) finishesNested).readerAt = .returned ∧
      OutlivesHandlers (runTrace machine (initial .libc) finishesNested) :=
  ⟨by decide +kernel, outlives_handlers
    (run_of_trace finishesNested (by decide +kernel) (by decide +kernel))⟩

def noFrames : List Event :=
  [.received [shortRead.encode false 1], .run, .alloc false]

/-- `wg.add()` has counted a handler that never ran: the connection waits for nobody. -/
theorem waits_for_nobody : ∃ s, Reachable machine (initial .libc) s ∧ s.stack = [] ∧
    s.readerAt = .draining ∧ s.remaining = 1 ∧ unfinished s = 0 ∧ ¬ OutlivesHandlers s := by
  let s := runTrace machine (initial .libc) noFrames
  have hat : s.readerAt = .draining := by decide +kernel
  have hnone : unfinished s = 0 := by decide +kernel
  refine ⟨s, reachable_of_trace noFrames (by decide +kernel), by decide +kernel, hat,
    by decide +kernel, hnone, fun h => ?_⟩
  have hpos := h.waits hat
  omega

end Traces

end EasybdSessionWaitGroup
