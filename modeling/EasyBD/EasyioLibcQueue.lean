import Mathlib.Logic.Function.Basic
import Mathlib.Data.List.Basic

/-! The libc `Queue`'s table `_fds`: one entry a descriptor, with a read operation and a deque of
write operations. `Registrations` is what the table is for; the generations and the entries
themselves are the code's own. -/
namespace EasyioLibcQueue

/-- A registered `FdOp`: its address, and the number of its registration, which tells it from
another one at the same address. -/
structure Op where
  addr : ℕ
  id : ℕ
  deriving DecidableEq

structure FdState where
  readOp : Option Op
  readOpGen : UInt64
  writeQueue : List Op
  deriving DecidableEq

def FdState.Empty (st : FdState) : Prop := st.readOp = none ∧ st.writeQueue = []

instance (st : FdState) : Decidable st.Empty :=
  inferInstanceAs (Decidable (st.readOp = none ∧ st.writeQueue = []))

/-- What happens to registrations: calls by coroutines, operations whose `on_ready` returned
true, and operations that `step` takes out for a finished one. -/
inductive Note where
  | set (fd : ℕ) (op : Op)
  | clear (fd addr : ℕ)
  | push (fd : ℕ) (op : Op)
  | readDone (fd : ℕ) (op : Op)
  | writeDone (fd : ℕ) (op : Op)
  | removed (finished op : Op)
  deriving DecidableEq

/-- `registered` numbers the registrations; `notes` records what happened since `step` began. -/
structure Queue where
  fds : ℕ → Option FdState
  registered : ℕ
  notes : List Note

inductive Call where
  | setReadOp (fd addr : ℕ)
  | clearReadOp (fd addr : ℕ)
  | pushWriteOp (fd addr : ℕ)
  deriving DecidableEq

namespace Queue

def create : Queue := ⟨fun _ => none, 0, []⟩

def entry (q : Queue) (fd : ℕ) : FdState := (q.fds fd).getD ⟨none, 0, []⟩

def read (q : Queue) (fd : ℕ) : Option Op := (q.fds fd).bind FdState.readOp

def writes (q : Queue) (fd : ℕ) : List Op := (q.entry fd).writeQueue

def put (q : Queue) (fd : ℕ) (st : Option FdState) : Queue :=
  { q with fds := Function.update q.fds fd st }

def note (q : Queue) (n : Note) : Queue := { q with notes := q.notes ++ [n] }

def newOp (q : Queue) (addr : ℕ) : Op := ⟨addr, q.registered⟩

def setReadOp (q : Queue) (fd addr : ℕ) : Queue :=
  let st := q.entry fd
  { q.put fd (some { st with readOp := some (q.newOp addr), readOpGen := st.readOpGen + 1 }) with
    registered := q.registered + 1 }.note (.set fd (q.newOp addr))

/-- `_clear_read_op`, which compares addresses. -/
def clearReadOp (q : Queue) (fd addr : ℕ) : Queue :=
  (match q.fds fd with
    | some st =>
      if st.readOp.map Op.addr = some addr then
        if st.writeQueue = [] then q.put fd none else q.put fd (some { st with readOp := none })
      else q
    | none => q).note (.clear fd addr)

def pushWriteOp (q : Queue) (fd addr : ℕ) : Queue :=
  let st := q.entry fd
  { q.put fd (some { st with writeQueue := st.writeQueue ++ [q.newOp addr] }) with
    registered := q.registered + 1 }.note (.push fd (q.newOp addr))

def call (q : Queue) : Call → Queue
  | .setReadOp fd addr => q.setReadOp fd addr
  | .clearReadOp fd addr => q.clearReadOp fd addr
  | .pushWriteOp fd addr => q.pushWriteOp fd addr

def calls (q : Queue) (cs : List Call) : Queue := cs.foldl call q

end Queue

/-- What is registered: for each descriptor a read operation and the write operations in order. -/
@[ext] structure Registrations where
  read : ℕ → Option Op
  writes : ℕ → List Op

/-- The last read operation registered stays until it is cleared or is itself finished; a write
operation stays until it is itself finished. -/
def Registrations.after (r : Registrations) : Note → Registrations
  | .set fd op => { r with read := Function.update r.read fd (some op) }
  | .clear fd addr =>
    let cleared := if (r.read fd).map Op.addr = some addr then none else r.read fd
    { r with read := Function.update r.read fd cleared }
  | .push fd op => { r with writes := Function.update r.writes fd (r.writes fd ++ [op]) }
  | .readDone fd op =>
    let left := if r.read fd = some op then none else r.read fd
    { r with read := Function.update r.read fd left }
  | .writeDone fd op =>
    { r with writes := Function.update r.writes fd ((r.writes fd).erase op) }
  | .removed _ _ => r

def Queue.view (q : Queue) : Registrations := ⟨q.read, q.writes⟩

/-- The table is what is registered after the notes taken since `q`. -/
def Simulates (q q' : Queue) : Prop :=
  ∃ new, q'.notes = q.notes ++ new ∧ q'.view = new.foldl Registrations.after q.view

section Calls

variable {q q' q'' : Queue}

theorem Simulates.refl (q : Queue) : Simulates q q := ⟨[], by simp, rfl⟩

theorem Simulates.trans (h : Simulates q q') (k : Simulates q' q'') : Simulates q q'' := by
  obtain ⟨new, hnotes, hview⟩ := h
  obtain ⟨new', hnotes', hview'⟩ := k
  refine ⟨new ++ new', ?_, ?_⟩
  · rw [hnotes', hnotes, List.append_assoc]
  · rw [hview', hview, List.foldl_append]

theorem Simulates.single {n : Note} (hnotes : q'.notes = q.notes ++ [n])
    (hview : q'.view = q.view.after n) : Simulates q q' := ⟨[n], hnotes, hview⟩

theorem read_put (q : Queue) (fd : ℕ) (st : Option FdState) :
    (q.put fd st).read = Function.update q.read fd (st.bind FdState.readOp) := by
  funext fd'
  by_cases hfd : fd' = fd
  · subst hfd
    simp [Queue.read, Queue.put]
  · simp [Queue.read, Queue.put, Function.update_of_ne hfd]

theorem writes_put (q : Queue) (fd : ℕ) (st : Option FdState) :
    (q.put fd st).writes = Function.update q.writes fd (st.getD ⟨none, 0, []⟩).writeQueue := by
  funext fd'
  by_cases hfd : fd' = fd
  · subst hfd
    simp [Queue.writes, Queue.entry, Queue.put]
  · simp [Queue.writes, Queue.entry, Queue.put, Function.update_of_ne hfd]

theorem read_of_entry {fd : ℕ} {st : FdState} (h : q.fds fd = some st) : q.read fd = st.readOp := by
  simp [Queue.read, h]

theorem writes_of_entry {fd : ℕ} {st : FdState} (h : q.fds fd = some st) :
    q.writes fd = st.writeQueue := by
  simp [Queue.writes, Queue.entry, h]

theorem read_entry (q : Queue) (fd : ℕ) : (q.entry fd).readOp = q.read fd := by
  cases h : q.fds fd <;> simp [Queue.entry, Queue.read, h]

theorem simulates_setReadOp (q : Queue) (fd addr : ℕ) : Simulates q (q.setReadOp fd addr) := by
  apply Simulates.single (n := .set fd (q.newOp addr)) rfl
  refine Registrations.ext ?_ ?_
  · exact read_put q fd _
  · refine (writes_put q fd _).trans ?_
    exact Function.update_eq_self fd q.writes

theorem simulates_pushWriteOp (q : Queue) (fd addr : ℕ) :
    Simulates q (q.pushWriteOp fd addr) := by
  apply Simulates.single (n := .push fd (q.newOp addr)) rfl
  refine Registrations.ext ?_ ?_
  · refine (read_put q fd _).trans ?_
    simp only [Option.bind_some, read_entry]
    exact Function.update_eq_self fd q.read
  · exact writes_put q fd _

theorem after_clear_of_eq {r : Registrations} {fd addr : ℕ}
    (h : (r.read fd).map Op.addr = some addr) :
    r.after (.clear fd addr) = { r with read := Function.update r.read fd none } := by
  simp only [Registrations.after, if_pos h]

theorem after_clear_of_ne {r : Registrations} {fd addr : ℕ}
    (h : (r.read fd).map Op.addr ≠ some addr) : r.after (.clear fd addr) = r := by
  simp only [Registrations.after, if_neg h, Function.update_eq_self]

theorem clearReadOp_of_ne {fd addr : ℕ} (h : (q.read fd).map Op.addr ≠ some addr) :
    q.clearReadOp fd addr = q.note (.clear fd addr) := by
  cases hst : q.fds fd with
  | none => simp only [Queue.clearReadOp, hst]
  | some st =>
    rw [read_of_entry hst] at h
    simp only [Queue.clearReadOp, hst, if_neg h]

theorem view_clearReadOp (q : Queue) (fd addr : ℕ) :
    (q.clearReadOp fd addr).view = q.view.after (.clear fd addr) := by
  by_cases hmatch : (q.read fd).map Op.addr = some addr
  · have hself : Function.update q.writes fd (q.writes fd) = q.writes :=
      Function.update_eq_self _ _
    have hspec : q.view.after (.clear fd addr) = ⟨Function.update q.read fd none, q.writes⟩ :=
      after_clear_of_eq hmatch
    rw [hspec]
    cases hst : q.fds fd with
    | none =>
      rw [Queue.read, hst] at hmatch
      cases hmatch
    | some st =>
      rw [read_of_entry hst] at hmatch
      rw [writes_of_entry hst] at hself
      by_cases hempty : st.writeQueue = []
      · have hclear : q.clearReadOp fd addr = (q.put fd none).note (.clear fd addr) := by
          simp only [Queue.clearReadOp, hst, if_pos hmatch, if_pos hempty]
        rw [hempty] at hself
        rw [hclear]
        exact Registrations.ext (read_put q fd none) ((writes_put q fd none).trans hself)
      · have hclear : q.clearReadOp fd addr =
            (q.put fd (some { st with readOp := none })).note (.clear fd addr) := by
          simp only [Queue.clearReadOp, hst, if_pos hmatch, if_neg hempty]
        rw [hclear]
        exact Registrations.ext (read_put q fd _) ((writes_put q fd _).trans hself)
  · have hspec : q.view.after (.clear fd addr) = q.view := after_clear_of_ne hmatch
    rw [hspec, clearReadOp_of_ne hmatch]
    rfl

theorem notes_clearReadOp (q : Queue) (fd addr : ℕ) :
    (q.clearReadOp fd addr).notes = q.notes ++ [.clear fd addr] := by
  simp only [Queue.clearReadOp, Queue.note]
  split
  · split
    · split <;> rfl
    · rfl
  · rfl

theorem simulates_call (q : Queue) (c : Call) : Simulates q (q.call c) := by
  cases c with
  | setReadOp fd addr => exact simulates_setReadOp q fd addr
  | clearReadOp fd addr => exact .single (notes_clearReadOp q fd addr) (view_clearReadOp q fd addr)
  | pushWriteOp fd addr => exact simulates_pushWriteOp q fd addr

theorem simulates_calls (q : Queue) (cs : List Call) : Simulates q (q.calls cs) := by
  induction cs generalizing q with
  | nil => exact .refl q
  | cons c cs ih => exact (simulates_call q c).trans (ih (q.call c))

theorem fds_setReadOp (q : Queue) (fd addr : ℕ) : (q.setReadOp fd addr).fds fd =
    some ⟨some (q.newOp addr), (q.entry fd).readOpGen + 1, (q.entry fd).writeQueue⟩ :=
  Function.update_self _ _ _

theorem fds_pushWriteOp {fd : ℕ} {st : FdState} (h : q.fds fd = some st) (addr : ℕ) :
    (q.pushWriteOp fd addr).fds fd =
      some { st with writeQueue := st.writeQueue ++ [q.newOp addr] } := by
  simp [Queue.pushWriteOp, Queue.note, Queue.put, Queue.entry, h]

theorem fds_clearReadOp {fd : ℕ} {op : Op} {gen : UInt64} {ops : List Op}
    (h : q.fds fd = some ⟨some op, gen, ops⟩) : (q.clearReadOp fd op.addr).fds fd =
      if ops = [] then none else some ⟨none, gen, ops⟩ := by
  by_cases hempty : ops = []
  · simp [Queue.clearReadOp, Queue.note, Queue.put, h, hempty]
  · simp [Queue.clearReadOp, Queue.note, Queue.put, h, hempty]

def Call.fd : Call → ℕ
  | .setReadOp fd _ | .clearReadOp fd _ | .pushWriteOp fd _ => fd

theorem fds_call_of_ne {c : Call} {fd : ℕ} (h : fd ≠ c.fd) : (q.call c).fds fd = q.fds fd := by
  cases c with
  | setReadOp fd' addr => exact Function.update_of_ne h _ _
  | pushWriteOp fd' addr => exact Function.update_of_ne h _ _
  | clearReadOp fd' addr =>
    simp only [Queue.call, Queue.clearReadOp, Queue.note]
    split
    · split
      · split
        · exact Function.update_of_ne h _ _
        · exact Function.update_of_ne h _ _
      · rfl
    · rfl

theorem registered_call (q : Queue) (c : Call) : q.registered ≤ (q.call c).registered := by
  cases c with
  | setReadOp fd addr => exact Nat.le_succ _
  | pushWriteOp fd addr => exact Nat.le_succ _
  | clearReadOp fd addr =>
    simp only [Queue.call, Queue.clearReadOp, Queue.note]
    split
    · split
      · split <;> exact Nat.le_refl _
      · exact Nat.le_refl _
    · exact Nat.le_refl _

def Fresh (q : Queue) : Prop := ∀ fd, ∀ op ∈ q.read fd, op.id < q.registered

/-- A call registers a new read operation, leaves none, or leaves the one there is with its
generation. -/
theorem read_call_cases (q : Queue) (c : Call) (fd : ℕ) :
    (∃ addr, (q.call c).read fd = some (q.newOp addr) ∧ q.registered < (q.call c).registered) ∨
    (q.call c).read fd = none ∨
    ((q.call c).read fd = q.read fd ∧
      ((q.call c).entry fd).readOpGen = (q.entry fd).readOpGen) := by
  by_cases hfd : fd = c.fd
  · subst hfd
    cases c with
    | setReadOp fd addr =>
      refine Or.inl ⟨addr, ?_, Nat.lt_succ_self _⟩
      exact (congrFun (read_put q fd _) fd).trans (Function.update_self _ _ _)
    | pushWriteOp fd addr =>
      refine Or.inr (Or.inr ⟨?_, ?_⟩)
      · exact (congrFun (read_put q fd _) fd).trans
          ((Function.update_self _ _ _).trans (read_entry q fd))
      · simp [Queue.call, Queue.pushWriteOp, Queue.entry, Queue.put, Queue.note, Call.fd]
    | clearReadOp fd addr =>
      by_cases hmatch : (q.read fd).map Op.addr = some addr
      · have hspec : q.view.after (.clear fd addr) = ⟨Function.update q.read fd none, q.writes⟩ :=
          after_clear_of_eq hmatch
        have hview := congrArg Registrations.read ((view_clearReadOp q fd addr).trans hspec)
        exact Or.inr (Or.inl ((congrFun hview fd).trans (Function.update_self _ _ _)))
      · rw [Queue.call, Call.fd, clearReadOp_of_ne hmatch]
        exact Or.inr (Or.inr ⟨rfl, rfl⟩)
  · refine Or.inr (Or.inr ⟨?_, ?_⟩)
    · rw [Queue.read, fds_call_of_ne hfd, Queue.read]
    · rw [Queue.entry, fds_call_of_ne hfd, Queue.entry]

theorem fresh_call (h : Fresh q) (c : Call) : Fresh (q.call c) := by
  intro fd op hop
  rcases read_call_cases q c fd with ⟨addr, hnew, hlt⟩ | hnone | ⟨hsame, -⟩
  · rw [hnew] at hop
    cases hop
    exact hlt
  · rw [hnone] at hop
    cases hop
  · rw [hsame] at hop
    exact Nat.lt_of_lt_of_le (h fd op hop) (registered_call q c)

theorem fresh_calls (h : Fresh q) (cs : List Call) : Fresh (q.calls cs) := by
  induction cs generalizing q with
  | nil => exact h
  | cons c cs ih => exact ih (fresh_call h c)

theorem gen_calls {fd : ℕ} {op : Op} (hold : op.id < q.registered) {cs : List Call}
    (h : (q.calls cs).read fd = some op) : q.read fd = some op ∧
      ((q.calls cs).entry fd).readOpGen = (q.entry fd).readOpGen := by
  induction cs generalizing q with
  | nil => exact ⟨h, rfl⟩
  | cons c cs ih =>
    obtain ⟨hread, hgen⟩ := ih (Nat.lt_of_lt_of_le hold (registered_call q c)) h
    rcases read_call_cases q c fd with ⟨addr, hnew, -⟩ | hnone | ⟨hsame, hgen'⟩
    · rw [hnew] at hread
      cases hread
      exact absurd hold (Nat.lt_irrefl _)
    · rw [hnone] at hread
      cases hread
    · exact ⟨hsame.symm.trans hread, hgen.trans hgen'⟩

theorem writes_calls (q : Queue) (cs : List Call) (fd : ℕ) :
    q.writes fd <+: (q.calls cs).writes fd := by
  induction cs generalizing q with
  | nil => exact List.prefix_rfl
  | cons c cs ih =>
    refine List.IsPrefix.trans ?_ (ih (q.call c))
    cases c with
    | setReadOp fd' addr =>
      have hview : (q.setReadOp fd' addr).writes = q.writes :=
        (writes_put q fd' _).trans (Function.update_eq_self fd' q.writes)
      exact (congrFun hview fd).symm ▸ List.prefix_rfl
    | clearReadOp fd' addr =>
      have hview : (q.clearReadOp fd' addr).writes = q.writes :=
        congrArg Registrations.writes (view_clearReadOp q fd' addr)
      exact (congrFun hview fd).symm ▸ List.prefix_rfl
    | pushWriteOp fd' addr =>
      have hview : (q.pushWriteOp fd' addr).writes =
          Function.update q.writes fd' (q.writes fd' ++ [q.newOp addr]) := writes_put q fd' _
      by_cases hfd : fd = fd'
      · subst hfd
        have hadd : (q.pushWriteOp fd addr).writes fd = q.writes fd ++ [q.newOp addr] :=
          (congrFun hview fd).trans (Function.update_self _ _ _)
        exact ⟨_, hadd.symm⟩
      · have hsame : (q.pushWriteOp fd' addr).writes fd = q.writes fd :=
          (congrFun hview fd).trans (Function.update_of_ne hfd _ _)
        exact hsame.symm ▸ List.prefix_rfl

end Calls

end EasyioLibcQueue
