import EasyBD.TransitionRuns
import EasyBD.EasyioLibcQueue

/-! The libc `Queue::step`. What `poll` reports and what the coroutines resumed by `on_ready` do
are inputs; which entry a finished operation takes out is the code's. -/
namespace EasyioLibcStep

open TransitionRuns EasyioLibcQueue

/-- An `on_ready` call: what the resumed coroutine calls before it returns, and its result. -/
structure Answer where
  calls : List Call
  done : Bool
  deriving DecidableEq

/-- A `pollfd`, whether its `revents` ask for the read and for the write operations, and what
`on_ready` then does; a write operation with no answer left is not ready and calls nothing. -/
structure PollEvent where
  fd : ℕ
  readable : Bool
  writable : Bool
  read : Answer
  writes : List Answer
  deriving DecidableEq

/-- The read operation has finished: whatever the entry holds at the generation `gen` goes. -/
def deregisterRead (q : Queue) (fd : ℕ) (op : Op) (gen : UInt64) : Queue :=
  match q.fds fd with
  | some st =>
    if st.readOpGen = gen then
      match st.readOp with
      | some removed => (q.put fd (some { st with readOp := none })).note (.removed op removed)
      | none => q
    else q
  | none => q

def dispatchRead (q : Queue) (fd : ℕ) (a : Answer) : Queue :=
  match q.read fd with
  | some op =>
    if a.done = true then
      deregisterRead ((q.calls a.calls).note (.readDone fd op)) fd op (q.entry fd).readOpGen
    else q.calls a.calls
  | none => q

/-- The write operation has finished: the front goes if it is at its address. -/
def popWrite (q : Queue) (fd : ℕ) (op : Op) : Queue :=
  match q.fds fd with
  | some st =>
    match st.writeQueue with
    | front :: rest =>
      if front.addr = op.addr then
        (q.put fd (some { st with writeQueue := rest })).note (.removed op front)
      else q
    | [] => q
  | none => q

/-- The loop over the write operations of a ready descriptor. -/
def dispatchWrites (fd : ℕ) : List Answer → Queue → Queue
  | [], q => q
  | a :: answers, q =>
    match q.writes fd with
    | op :: _ =>
      if a.done = true then
        dispatchWrites fd answers (popWrite ((q.calls a.calls).note (.writeDone fd op)) fd op)
      else q.calls a.calls
    | [] => q

def eraseEmpty (q : Queue) (fd : ℕ) : Queue :=
  match q.fds fd with
  | some st => if st.Empty then q.put fd none else q
  | none => q

def dispatch (q : Queue) (e : PollEvent) : Queue :=
  if e.readable = true ∨ e.writable = true then
    let q := if e.readable = true then dispatchRead q e.fd e.read else q
    let q := if e.writable = true then dispatchWrites e.fd e.writes q else q
    eraseEmpty q e.fd
  else q

/-- `step` with what `poll` reports; none when it times out or is interrupted. -/
def step (q : Queue) (events : List PollEvent) : Queue :=
  events.foldl dispatch { q with notes := [] }

inductive Event where
  | call (c : Call)
  | cancelFd (fd : ℕ)
  | step (events : List PollEvent)

/-- Coroutines call at any time; `cancel_fd` takes its entry out before it resumes any. -/
def machine : System Queue Event where
  Enabled := fun _ _ => True
  next := fun q e =>
    match e with
    | .call c => q.call c
    | .cancelFd fd => q.put fd none
    | .step events => step q events

/-- The guard tells the finished read operation from a later one: what the entry holds at the
saved generation, once the coroutine has made its calls, is the operation that finished. -/
def RecognizedRead (q : Queue) (fd : ℕ) (a : Answer) : Prop :=
  a.done = true → ∀ op ∈ q.read fd, ∀ st ∈ (q.calls a.calls).fds fd,
    st.readOpGen = (q.entry fd).readOpGen → ∀ left ∈ st.readOp, left = op

def Recognized (q : Queue) (e : PollEvent) : Prop :=
  e.readable = true → RecognizedRead q e.fd e.read

instance (q : Queue) (e : PollEvent) : Decidable (Recognized q e) :=
  inferInstanceAs (Decidable (_ → _ → _))

def AllRecognized : Queue → List PollEvent → Prop
  | _, [] => True
  | q, e :: events => Recognized q e ∧ AllRecognized (dispatch q e) events

instance AllRecognized.decidable : (q : Queue) → (events : List PollEvent) →
    Decidable (AllRecognized q events)
  | _, [] => isTrue trivial
  | q, e :: events => @instDecidableAnd _ _ _ (AllRecognized.decidable (dispatch q e) events)

def OnlyFinished (notes : List Note) : Prop :=
  ∀ finished removed, .removed finished removed ∈ notes → removed = finished

/-- `step` leaves registered what was, with the calls made meanwhile and without the operations
that finished; it takes out only the operation that finished. -/
structure StepFaithful (q : Queue) (events : List PollEvent) : Prop where
  registrations : (step q events).view = (step q events).notes.foldl Registrations.after q.view
  removals : OnlyFinished (step q events).notes

section Notes

theorem onlyFinished_append {notes new : List Note} :
    OnlyFinished (notes ++ new) ↔ OnlyFinished notes ∧ OnlyFinished new := by
  constructor
  · intro h
    exact ⟨fun op left hmem => h op left (List.mem_append_left _ hmem),
      fun op left hmem => h op left (List.mem_append_right _ hmem)⟩
  · rintro ⟨hnotes, hnew⟩ op left hmem
    rcases List.mem_append.mp hmem with hold | hlast
    · exact hnotes op left hold
    · exact hnew op left hlast

theorem onlyFinished_single {n : Note} (h : ∀ op left, n = .removed op left → left = op) :
    OnlyFinished [n] := fun op left hmem => h op left (List.mem_singleton.mp hmem).symm

theorem onlyFinished_note {q : Queue} {n : Note} (h : ∀ op left, n = .removed op left → left = op) :
    OnlyFinished (q.note n).notes ↔ OnlyFinished q.notes :=
  onlyFinished_append.trans (and_iff_left (onlyFinished_single h))

theorem onlyFinished_calls (q : Queue) (cs : List Call) :
    OnlyFinished (q.calls cs).notes ↔ OnlyFinished q.notes := by
  induction cs generalizing q with
  | nil => exact Iff.rfl
  | cons c cs ih =>
    refine (ih (q.call c)).trans ?_
    cases c with
    | setReadOp fd addr => exact onlyFinished_note (by rintro op left ⟨⟩)
    | pushWriteOp fd addr => exact onlyFinished_note (by rintro op left ⟨⟩)
    | clearReadOp fd addr =>
      rw [Queue.call, notes_clearReadOp]
      exact onlyFinished_note (by rintro op left ⟨⟩)

end Notes

section Reads

variable {q : Queue} {fd : ℕ} {op : Op} {a : Answer}

theorem after_readDone_of_eq {r : Registrations} (h : r.read fd = some op) :
    r.after (.readDone fd op) = { r with read := Function.update r.read fd none } := by
  simp only [Registrations.after, if_pos h]

theorem after_readDone_of_ne {r : Registrations} (h : r.read fd ≠ some op) :
    r.after (.readDone fd op) = r := by
  simp only [Registrations.after, if_neg h, Function.update_eq_self]

inductive Deregistered (q : Queue) (fd : ℕ) (op : Op) (gen : UInt64) : Queue → Prop where
  | other : (∀ st ∈ q.fds fd, st.readOpGen = gen → st.readOp = none) → Deregistered q fd op gen q
  | taken (st : FdState) (left : Op) : q.fds fd = some st → st.readOpGen = gen →
      st.readOp = some left → Deregistered q fd op gen
        ((q.put fd (some { st with readOp := none })).note (.removed op left))

theorem deregisterRead_cases (q : Queue) (fd : ℕ) (op : Op) (gen : UInt64) :
    Deregistered q fd op gen (deregisterRead q fd op gen) := by
  cases hst : q.fds fd with
  | none =>
    simp only [deregisterRead, hst]
    apply Deregistered.other
    rintro st hmem
    rw [hst] at hmem
    cases hmem
  | some st =>
    by_cases hgen : st.readOpGen = gen
    · cases hop : st.readOp with
      | none =>
        simp only [deregisterRead, hst, if_pos hgen, hop]
        apply Deregistered.other
        intro st' hmem _
        rw [hst] at hmem
        cases hmem
        exact hop
      | some left =>
        simp only [deregisterRead, hst, if_pos hgen, hop]
        exact Deregistered.taken st left hst hgen hop
    · simp only [deregisterRead, hst, if_neg hgen]
      apply Deregistered.other
      intro st' hmem hgen'
      rw [hst] at hmem
      cases hmem
      exact absurd hgen' hgen

/-- Where `dispatch` of a readable descriptor leaves the table: there was nothing to resume, the
operation goes on waiting, or it has finished and the guard has been asked. -/
inductive DispatchedRead (q : Queue) (fd : ℕ) (a : Answer) : Queue → Prop where
  | idle (hread : q.read fd = none) : DispatchedRead q fd a q
  | waits (op : Op) (hread : q.read fd = some op) (hdone : ¬ a.done = true) :
      DispatchedRead q fd a (q.calls a.calls)
  | finishes (op : Op) (q' : Queue) (hread : q.read fd = some op) (hdone : a.done = true)
      (h : Deregistered ((q.calls a.calls).note (.readDone fd op)) fd op
        (q.entry fd).readOpGen q') :
      DispatchedRead q fd a q'

theorem dispatchRead_cases (q : Queue) (fd : ℕ) (a : Answer) :
    DispatchedRead q fd a (dispatchRead q fd a) := by
  cases hread : q.read fd with
  | none =>
    simp only [dispatchRead, hread]
    exact .idle hread
  | some op =>
    by_cases hdone : a.done = true
    · simp only [dispatchRead, hread, if_pos hdone]
      exact .finishes op _ hread hdone (deregisterRead_cases _ fd op _)
    · simp only [dispatchRead, hread, if_neg hdone]
      exact .waits op hread hdone

theorem recognizedRead_of_none (h : q.read fd = none) : RecognizedRead q fd a := by
  intro _ op hop
  rw [h] at hop
  cases hop

theorem onlyFinished_dispatchRead (q : Queue) (fd : ℕ) (a : Answer) :
    OnlyFinished (dispatchRead q fd a).notes ↔ OnlyFinished q.notes ∧ RecognizedRead q fd a := by
  have hcase := dispatchRead_cases q fd a
  generalize dispatchRead q fd a = q' at hcase ⊢
  cases hcase with
  | idle hread => exact (and_iff_left (recognizedRead_of_none hread)).symm
  | waits op hread hdone =>
    refine (onlyFinished_calls q a.calls).trans (and_iff_left ?_).symm
    exact fun htrue => absurd htrue hdone
  | finishes op _ hread hdone hcase =>
    have hcalls : OnlyFinished ((q.calls a.calls).note (.readDone fd op)).notes ↔
        OnlyFinished q.notes :=
      (onlyFinished_note (by rintro op' left ⟨⟩)).trans (onlyFinished_calls q a.calls)
    cases hcase with
    | other hnone =>
      refine hcalls.trans (and_iff_left ?_).symm
      intro _ op' _ st hst hgen left hleft
      rw [hnone st hst hgen] at hleft
      cases hleft
    | taken st left hst hgen hleft =>
      refine onlyFinished_append.trans (and_congr hcalls ?_)
      constructor
      · intro hremoved _ op' hop' st' hst' _ left' hleft'
        have hsame : st' = st := Option.some.inj (hst'.symm.trans hst)
        rw [hsame, hleft] at hleft'
        rw [hread] at hop'
        cases hop'
        cases hleft'
        exact hremoved op left (List.mem_singleton_self _)
      · intro hrec
        apply onlyFinished_single
        rintro _ _ ⟨⟩
        exact hrec hdone op hread st hst hgen left hleft

theorem simulates_dispatchRead (hfresh : Fresh q) (hrec : RecognizedRead q fd a) :
    Simulates q (dispatchRead q fd a) := by
  have hcalls := simulates_calls q a.calls
  have hcase := dispatchRead_cases q fd a
  generalize dispatchRead q fd a = q' at hcase ⊢
  cases hcase with
  | idle _ => exact .refl q
  | waits op _ _ => exact hcalls
  | finishes op _ hread hdone hcase =>
    cases hcase with
    | other hnone =>
      -- Had the operation stayed registered, its entry would be at its generation.
      have hgone : (q.calls a.calls).read fd ≠ some op := by
        intro hleft
        obtain ⟨-, hgen⟩ := gen_calls (hfresh fd op hread) hleft
        obtain ⟨st, hst, hop⟩ := Option.bind_eq_some_iff.mp hleft
        rw [Queue.entry, hst, Option.getD_some] at hgen
        rw [hnone st hst hgen] at hop
        cases hop
      have hview : (q.calls a.calls).view.after (.readDone fd op) = (q.calls a.calls).view :=
        after_readDone_of_ne hgone
      exact hcalls.trans (.single rfl hview.symm)
    | taken st left hst hgen hleft =>
      have hop : left = op := hrec hdone op hread st hst hgen left hleft
      have hthere : (q.calls a.calls).read fd = some op :=
        (read_of_entry hst).trans (hleft.trans (congrArg some hop))
      have hview : (q.calls a.calls).view.after (.readDone fd op) =
          ⟨Function.update (q.calls a.calls).read fd none, (q.calls a.calls).writes⟩ :=
        after_readDone_of_eq hthere
      have hwrites : Function.update (q.calls a.calls).writes fd st.writeQueue =
          (q.calls a.calls).writes := by
        rw [← writes_of_entry hst]
        exact Function.update_eq_self _ _
      refine hcalls.trans ⟨[.readDone fd op, .removed op left], by simp [Queue.note, Queue.put], ?_⟩
      rw [List.foldl_cons, hview]
      exact Registrations.ext (read_put _ fd _) ((writes_put _ fd _).trans hwrites)

theorem fresh_put {st : FdState} (h : Fresh q) (hst : ∀ op ∈ st.readOp, op ∈ q.read fd) :
    Fresh (q.put fd (some st)) := by
  intro fd' op hop
  rw [read_put] at hop
  by_cases hfd : fd' = fd
  · rw [hfd, Function.update_self] at hop
    exact h fd op (hst op hop)
  · rw [Function.update_of_ne hfd] at hop
    exact h fd' op hop

theorem fresh_dispatchRead (hfresh : Fresh q) : Fresh (dispatchRead q fd a) := by
  have hcalls := fresh_calls hfresh a.calls
  have hcase := dispatchRead_cases q fd a
  generalize dispatchRead q fd a = q' at hcase ⊢
  cases hcase with
  | idle _ => exact hfresh
  | waits op _ _ => exact hcalls
  | finishes op _ hread hdone hcase =>
    cases hcase with
    | other _ => exact hcalls
    | taken st left _ _ _ =>
      have hput : Fresh ((q.calls a.calls).put fd (some { st with readOp := none })) :=
        fresh_put hcalls (by rintro op' ⟨⟩)
      exact hput

end Reads

section Writes

variable {q : Queue} {fd : ℕ} {op : Op}

theorem popWrite_front {rest : List Op} (h : q.writes fd = op :: rest) :
    ∃ st, q.fds fd = some st ∧ popWrite q fd op =
      (q.put fd (some { st with writeQueue := rest })).note (.removed op op) := by
  cases hst : q.fds fd with
  | none =>
    rw [Queue.writes, Queue.entry, hst] at h
    cases h
  | some st =>
    rw [writes_of_entry hst] at h
    exact ⟨st, rfl, by simp only [popWrite, hst, h, if_true]⟩

theorem simulates_popWrite {rest : List Op} (h : q.writes fd = op :: rest) :
    Simulates q (popWrite (q.note (.writeDone fd op)) fd op) := by
  have hfront : (q.note (.writeDone fd op)).writes fd = op :: rest := h
  obtain ⟨st, hst, hpop⟩ := popWrite_front hfront
  refine ⟨[.writeDone fd op, .removed op op], ?_, ?_⟩
  · rw [hpop]
    simp [Queue.note, Queue.put]
  · rw [hpop]
    refine Registrations.ext ?_ ?_
    · refine (read_put _ fd _).trans ?_
      rw [Option.bind_some, ← read_of_entry hst]
      exact Function.update_eq_self fd q.read
    · refine (writes_put _ fd _).trans ?_
      have hspec : (q.writes fd).erase op = rest := by
        rw [h, List.erase_cons_head]
      simp only [List.foldl_cons, List.foldl_nil, Registrations.after, Queue.view, hspec]
      rfl

theorem onlyFinished_popWrite {rest : List Op} (h : q.writes fd = op :: rest) :
    OnlyFinished (popWrite (q.note (.writeDone fd op)) fd op).notes ↔ OnlyFinished q.notes := by
  have hfront : (q.note (.writeDone fd op)).writes fd = op :: rest := h
  obtain ⟨st, -, hpop⟩ := popWrite_front hfront
  rw [hpop]
  refine (onlyFinished_note ?_).trans (onlyFinished_note (by rintro op' left ⟨⟩))
  rintro _ _ ⟨⟩
  rfl

theorem fresh_popWrite {rest : List Op} (hfresh : Fresh q) (h : q.writes fd = op :: rest) :
    Fresh (popWrite (q.note (.writeDone fd op)) fd op) := by
  have hfront : (q.note (.writeDone fd op)).writes fd = op :: rest := h
  obtain ⟨st, hst, hpop⟩ := popWrite_front hfront
  have hput : Fresh (q.put fd (some { st with writeQueue := rest })) := by
    apply fresh_put hfresh
    intro op' hop'
    exact (read_of_entry hst).trans hop'
  rw [hpop]
  exact hput

theorem dispatchWrites_spec (fd : ℕ) (answers : List Answer) (q : Queue) (hfresh : Fresh q) :
    Simulates q (dispatchWrites fd answers q) ∧ Fresh (dispatchWrites fd answers q) ∧
      (OnlyFinished (dispatchWrites fd answers q).notes ↔ OnlyFinished q.notes) := by
  induction answers generalizing q with
  | nil => exact ⟨.refl q, hfresh, Iff.rfl⟩
  | cons a answers ih =>
    have hcalls := simulates_calls q a.calls
    cases hwrites : q.writes fd with
    | nil =>
      simp only [dispatchWrites, hwrites]
      exact ⟨.refl q, hfresh, trivial⟩
    | cons op rest =>
      by_cases hdone : a.done = true
      · simp only [dispatchWrites, hwrites, if_pos hdone]
        obtain ⟨more, hfront⟩ := writes_calls q a.calls fd
        rw [hwrites, List.cons_append] at hfront
        obtain ⟨hsim, hfresh', honly⟩ :=
          ih _ (fresh_popWrite (fresh_calls hfresh a.calls) hfront.symm)
        refine ⟨(hcalls.trans (simulates_popWrite hfront.symm)).trans hsim, hfresh', honly.trans ?_⟩
        exact (onlyFinished_popWrite hfront.symm).trans (onlyFinished_calls q a.calls)
      · simp only [dispatchWrites, hwrites, if_neg hdone]
        exact ⟨hcalls, fresh_calls hfresh a.calls, onlyFinished_calls q a.calls⟩

theorem eraseEmpty_spec (q : Queue) (fd : ℕ) :
    (eraseEmpty q fd).view = q.view ∧ (eraseEmpty q fd).notes = q.notes ∧
      (eraseEmpty q fd).registered = q.registered := by
  unfold eraseEmpty
  split
  · next st hst =>
    split
    · next hempty =>
      refine ⟨Registrations.ext ?_ ?_, rfl, rfl⟩
      · refine (read_put q fd none).trans ?_
        rw [Option.bind_none, ← hempty.1, ← read_of_entry hst]
        exact Function.update_eq_self fd q.read
      · refine (writes_put q fd none).trans ?_
        rw [Option.getD_none, ← hempty.2, ← writes_of_entry hst]
        exact Function.update_eq_self fd q.writes
    · exact ⟨rfl, rfl, rfl⟩
  · exact ⟨rfl, rfl, rfl⟩

theorem simulates_eraseEmpty (q : Queue) (fd : ℕ) : Simulates q (eraseEmpty q fd) := by
  obtain ⟨hview, hnotes, -⟩ := eraseEmpty_spec q fd
  exact ⟨[], by simpa using hnotes, hview⟩

theorem fresh_eraseEmpty (hfresh : Fresh q) (fd : ℕ) : Fresh (eraseEmpty q fd) := by
  obtain ⟨hview, -, hregistered⟩ := eraseEmpty_spec q fd
  have hread : (eraseEmpty q fd).read = q.read := congrArg Registrations.read hview
  intro fd' op hop
  rw [hread] at hop
  rw [hregistered]
  exact hfresh fd' op hop

end Writes

section Steps

variable {q : Queue}

theorem dispatch_spec (hfresh : Fresh q) (e : PollEvent) : Fresh (dispatch q e) ∧
    (OnlyFinished (dispatch q e).notes ↔ OnlyFinished q.notes ∧ Recognized q e) ∧
    (Recognized q e → Simulates q (dispatch q e)) := by
  have hread : ∃ u, (if e.readable = true then dispatchRead q e.fd e.read else q) = u ∧ Fresh u ∧
      (OnlyFinished u.notes ↔ OnlyFinished q.notes ∧ Recognized q e) ∧
      (Recognized q e → Simulates q u) := by
    by_cases hreadable : e.readable = true
    · rw [if_pos hreadable]
      refine ⟨_, rfl, fresh_dispatchRead hfresh, ?_, fun hrec => ?_⟩
      · refine (onlyFinished_dispatchRead q e.fd e.read).trans (and_congr_right' ?_)
        exact ⟨fun hrec _ => hrec, fun hrec => hrec hreadable⟩
      · exact simulates_dispatchRead hfresh (hrec hreadable)
    · rw [if_neg hreadable]
      refine ⟨q, rfl, hfresh, (and_iff_left ?_).symm, fun _ => .refl q⟩
      exact fun htrue => absurd htrue hreadable
  obtain ⟨u, hu, hfresh', honly, hsim⟩ := hread
  have hwrite : ∃ v, (if e.writable = true then dispatchWrites e.fd e.writes u else u) = v ∧
      Fresh v ∧ (OnlyFinished v.notes ↔ OnlyFinished u.notes) ∧ Simulates u v := by
    by_cases hwritable : e.writable = true
    · rw [if_pos hwritable]
      obtain ⟨hsim', hfresh'', honly'⟩ := dispatchWrites_spec e.fd e.writes u hfresh'
      exact ⟨_, rfl, hfresh'', honly', hsim'⟩
    · rw [if_neg hwritable]
      exact ⟨u, rfl, hfresh', Iff.rfl, .refl u⟩
  obtain ⟨v, hv, hfresh'', honly', hsim'⟩ := hwrite
  by_cases hready : e.readable = true ∨ e.writable = true
  · simp only [dispatch, if_pos hready, hu, hv]
    rw [(eraseEmpty_spec v e.fd).2.1]
    exact ⟨fresh_eraseEmpty hfresh'' e.fd, honly'.trans honly, fun hrec =>
      ((hsim hrec).trans hsim').trans (simulates_eraseEmpty v e.fd)⟩
  · simp only [dispatch, if_neg hready]
    refine ⟨hfresh, (and_iff_left ?_).symm, fun _ => .refl q⟩
    exact fun htrue => absurd (Or.inl htrue) hready

theorem foldl_dispatch_spec (hfresh : Fresh q) (events : List PollEvent) :
    Fresh (events.foldl dispatch q) ∧
    (OnlyFinished (events.foldl dispatch q).notes ↔
      OnlyFinished q.notes ∧ AllRecognized q events) ∧
    (AllRecognized q events → Simulates q (events.foldl dispatch q)) := by
  induction events generalizing q with
  | nil => exact ⟨hfresh, (and_iff_left trivial).symm, fun _ => .refl q⟩
  | cons e events ih =>
    obtain ⟨hfresh', honly, hsim⟩ := dispatch_spec hfresh e
    obtain ⟨hfresh'', honly', hsim'⟩ := ih hfresh'
    refine ⟨hfresh'', ?_, fun hrec => (hsim hrec.1).trans (hsim' hrec.2)⟩
    exact honly'.trans ((and_congr_left' honly).trans and_assoc)

theorem fresh_of_reachable (h : Reachable machine .create q) : Fresh q := by
  refine h.invariant (I := Fresh) (by rintro fd op ⟨⟩) ?_
  intro u e hfresh _ _
  cases e with
  | call c => exact fresh_call hfresh c
  | cancelFd fd =>
    intro fd' op hop
    have hread := congrFun (read_put u fd none) fd'
    by_cases hfd : fd' = fd
    · rw [hfd, Function.update_self] at hread
      rw [hfd] at hop
      cases hread.symm.trans hop
    · rw [Function.update_of_ne hfd] at hread
      exact hfresh fd' op (hread.symm.trans hop)
  | step events =>
    have hclean : Fresh { u with notes := [] } := hfresh
    exact (foldl_dispatch_spec hclean events).1

end Steps

section Kept

variable {q : Queue} {fd : ℕ}

def setsRead (fd : ℕ) : Call → Bool
  | .setReadOp fd' _ => fd' == fd
  | .clearReadOp _ _ | .pushWriteOp _ _ => false

/-- While its read operation is not cleared, an entry counts its registrations. -/
theorem gen_of_kept {cs : List Call} (hkept : ∀ addr, .clearReadOp fd addr ∉ cs) :
    ((q.calls cs).entry fd).readOpGen =
        (q.entry fd).readOpGen + UInt64.ofNat (cs.countP (setsRead fd)) ∧
      (cs.countP (setsRead fd) = 0 → (q.calls cs).read fd = q.read fd) := by
  induction cs generalizing q with
  | nil => exact ⟨by simp [Queue.calls], fun _ => rfl⟩
  | cons c cs ih =>
    obtain ⟨hgen, hread⟩ :=
      @ih (q.call c) fun addr hmem => hkept addr (List.mem_cons_of_mem c hmem)
    by_cases hset : setsRead fd c = true
    · rw [List.countP_cons_of_pos hset]
      cases c with
      | setReadOp fd' addr =>
        have hfd : fd' = fd := by simpa [setsRead] using hset
        subst hfd
        have hbump : ((q.call (.setReadOp fd' addr)).entry fd').readOpGen =
            (q.entry fd').readOpGen + 1 := by
          simp [Queue.call, Queue.setReadOp, Queue.entry, Queue.put, Queue.note]
        refine ⟨?_, fun hzero => absurd hzero (Nat.succ_ne_zero _)⟩
        rw [Queue.calls, List.foldl_cons, ← Queue.calls, hgen, hbump, UInt64.ofNat_add,
          UInt64.add_assoc, UInt64.add_comm 1]
        rfl
      | clearReadOp fd' addr => simp [setsRead] at hset
      | pushWriteOp fd' addr => simp [setsRead] at hset
    · rw [List.countP_cons_of_neg hset]
      have hsame : ((q.call c).entry fd).readOpGen = (q.entry fd).readOpGen ∧
          (q.call c).read fd = q.read fd := by
        by_cases hfd : fd = c.fd
        · cases c with
          | setReadOp fd' addr =>
            have hfd' : fd' = fd := hfd.symm
            exact absurd (by simp [setsRead, hfd']) hset
          | clearReadOp fd' addr => exact absurd (hfd ▸ List.mem_cons_self) (hkept addr)
          | pushWriteOp fd' addr =>
            have hfd' : fd = fd' := hfd
            subst hfd'
            refine ⟨?_, ?_⟩
            · simp [Queue.call, Queue.pushWriteOp, Queue.entry, Queue.put, Queue.note]
            · exact (congrFun (read_put q fd _) fd).trans
                ((Function.update_self _ _ _).trans (read_entry q fd))
        · rw [Queue.entry, Queue.read, fds_call_of_ne hfd]
          exact ⟨rfl, rfl⟩
      refine ⟨?_, fun hzero => (hread hzero).trans hsame.2⟩
      rw [Queue.calls, List.foldl_cons, ← Queue.calls, hgen, hsame.1]

/-- Where the coroutine does not clear the descriptor's read operation, as `accept_loop` does
not, the guard recognizes it; only 2^64 registrations bring the generation back. -/
theorem recognizedRead_of_kept {a : Answer} (hkept : ∀ addr, .clearReadOp fd addr ∉ a.calls)
    (hfew : a.calls.countP (setsRead fd) < UInt64.size) : RecognizedRead q fd a := by
  obtain ⟨hgen, hread⟩ := @gen_of_kept q fd a.calls hkept
  intro _ op hop st hst hsame left hleft
  rw [Queue.entry, hst, Option.getD_some, hsame] at hgen
  have hnone : a.calls.countP (setsRead fd) = 0 := by
    have hzero : UInt64.ofNat (a.calls.countP (setsRead fd)) = 0 := by
      simpa using hgen
    have hmod := congrArg UInt64.toNat hzero
    rw [UInt64.toNat_ofNat', Nat.mod_eq_of_lt hfew] at hmod
    exact hmod
  have hthere := hread hnone
  rw [read_of_entry hst, hleft, hop] at hthere
  exact Option.some.inj hthere

end Kept

/-- The guard is all it takes: `step` is faithful exactly if it recognizes every read operation
that finishes. -/
theorem libc_step_faithful_iff {q : Queue} (h : Reachable machine .create q)
    (events : List PollEvent) :
    StepFaithful q events ↔ AllRecognized { q with notes := [] } events := by
  have hfresh : Fresh q := fresh_of_reachable h
  have hclean : Fresh { q with notes := [] } := hfresh
  obtain ⟨-, honly, hsim⟩ := foldl_dispatch_spec hclean events
  constructor
  · intro hfaithful
    exact (honly.mp hfaithful.removals).2
  · intro hrec
    obtain ⟨new, hnotes, hview⟩ := hsim hrec
    rw [List.nil_append] at hnotes
    refine ⟨?_, honly.mpr ⟨by rintro op left ⟨⟩, hrec⟩⟩
    rw [step, hnotes]
    exact hview

section Traces

def accepting : Queue := runTrace machine .create [.call (.setReadOp 3 100)]

theorem accepting_reachable : Reachable machine .create accepting :=
  reachable_of_trace _ (by simp [ValidTrace, machine])

/-- It finishes: the connection's stream is registered on descriptor 7, and the next accept at
the address of the one that finished. -/
def acceptsAgain : List PollEvent :=
  [⟨3, true, false, ⟨[.setReadOp 7 400, .setReadOp 3 100], true⟩, []⟩]

theorem libc_step_faithful_of_accepts_again : StepFaithful accepting acceptsAgain :=
  (libc_step_faithful_iff accepting_reachable acceptsAgain).mpr (by decide +kernel)

/-- It finishes: a stream is registered on descriptor 3 and destroyed, which erases the entry,
and another one is registered, at generation 1 as the accept was. -/
def entryRecreated : List PollEvent :=
  [⟨3, true, false, ⟨[.setReadOp 3 200, .clearReadOp 3 200, .setReadOp 3 300], true⟩, []⟩]

/-- The new registration is taken for the finished one and lost. -/
theorem live_registration_lost : Reachable machine .create accepting ∧
    (step accepting entryRecreated).read 3 = none ∧
    .removed ⟨100, 0⟩ ⟨300, 2⟩ ∈ (step accepting entryRecreated).notes ∧
    ¬ StepFaithful accepting entryRecreated := by
  have hremoved : .removed ⟨100, 0⟩ ⟨300, 2⟩ ∈ (step accepting entryRecreated).notes := by
    decide +kernel
  refine ⟨accepting_reachable, by decide +kernel, hremoved, fun h => ?_⟩
  cases h.removals _ _ hremoved

end Traces

end EasyioLibcStep
