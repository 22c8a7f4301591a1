import Mathlib.Data.List.Nodup
import EasyBD.EasyioLibcStep

/-! Runs of the libc `Queue` in which a coroutine that `on_ready` or `cancel` resumes runs inside
that call: the activations of `step` and `cancel_fd` are a stack, and the coroutine on top of it
may call anything. The table is the one of `EasyioLibcQueue`. -/
namespace EasyioLibcCompletions

open TransitionRuns EasyioLibcQueue EasyioLibcStep

inductive Kind where
  | accept
  | connect
  | send
  | sendmsg
  /-- `RecvStreamImpl`, whose `on_ready` always returns false. -/
  | stream
  deriving DecidableEq

def Kind.reads : Kind → Bool
  | .accept | .stream => true
  | .connect | .send | .sendmsg => false

structure Registration where
  fd : ℕ
  kind : Kind
  deriving DecidableEq

/-- A call on an operation; `on_ready` that finds the descriptor not ready resumes nobody. -/
inductive OpCall where
  | onReady (op : Op) (resumes : Bool)
  | cancel (op : Op)
  deriving DecidableEq

def OpCall.op : OpCall → Op
  | .onReady op _ | .cancel op => op

def OpCall.resumes : OpCall → Bool
  | .onReady _ resumes => resumes
  | .cancel _ => true

/-- An operation whose `on_ready` has resumed its coroutine, and what `step` does with it once
`on_ready` returns: `done` is the result, `gen` the saved `read_op_gen`. -/
inductive Active where
  | read (fd : ℕ) (op : Op) (gen : UInt64) (done : Bool)
  | write (fd : ℕ) (op : Op)
  deriving DecidableEq

def Active.op : Active → Op
  | .read _ op _ _ | .write _ op => op

def Active.written : Active → Option Op
  | .read _ _ _ _ => none
  | .write _ op => some op

/-- What is left of the loop in `step` for one `pollfd`. -/
inductive Task where
  | read (fd : ℕ)
  | write (fd : ℕ)
  | erase (fd : ℕ)
  deriving DecidableEq

/-- An activation of `step` or `cancel_fd`. Under `dispatching` and `canceling` a coroutine
runs; `ops` are the operations that `cancel_fd` has taken out and not yet canceled. -/
inductive Frame where
  | stepping (tasks : List Task)
  | dispatching (active : Active) (tasks : List Task)
  | canceling (ops : List Op)
  deriving DecidableEq

def Frame.active : Frame → Option Active
  | .dispatching active _ => some active
  | .stepping _ | .canceling _ => none

def Frame.cancels : Frame → List Op
  | .canceling ops => ops
  | .stepping _ | .dispatching _ _ => []

/-- `registrations` lists every operation by its number; `calls` is newest first. -/
structure State where
  queue : Queue
  registrations : List Registration
  stack : List Frame
  calls : List OpCall

def initial : State := ⟨.create, [], [], []⟩

structure Ready where
  fd : ℕ
  readable : Bool
  writable : Bool
  deriving DecidableEq

def Ready.tasks (r : Ready) : List Task :=
  (if r.readable = true then [.read r.fd] else []) ++
    (if r.writable = true then [.write r.fd] else []) ++ [.erase r.fd]

namespace State

def active (s : State) : List Active := s.stack.filterMap Frame.active

def cancels (s : State) : List Op := s.stack.flatMap Frame.cancels

/-- `await_suspend` of an awaiter, or the constructor of a stream. -/
def register (s : State) (fd addr : ℕ) (kind : Kind) : State :=
  { s with
    queue := if kind.reads = true then s.queue.setReadOp fd addr else s.queue.pushWriteOp fd addr
    registrations := s.registrations ++ [⟨fd, kind⟩] }

/-- The loop of `cancel_fd`, up to where it resumes a coroutine. -/
def cancelNext (s : State) (stack : List Frame) : List Op → State
  | op :: ops => { s with stack := .canceling ops :: stack, calls := .cancel op :: s.calls }
  | [] => { s with stack }

def cancelFd (s : State) (fd : ℕ) : State :=
  match s.queue.fds fd with
  | some st =>
    { s with queue := s.queue.put fd none }.cancelNext s.stack (st.readOp.toList ++ st.writeQueue)
  | none => s

/-- `on_ready` of `op`, which returns true exactly if a one-shot operation has resumed. -/
def onReady (s : State) (op : Op) (resumes : Bool) (tasks : List Task) (stack : List Frame)
    (active : Active) : State :=
  { s with
    stack := (if resumes = true then .dispatching active tasks else .stepping tasks) :: stack
    calls := .onReady op resumes :: s.calls }

def kind (s : State) (op : Op) : Option Kind := s.registrations[op.id]?.map Registration.kind

def advance (s : State) (resumes : Bool) : State :=
  match s.stack with
  | .stepping (.read fd :: tasks) :: stack =>
    match s.queue.read fd with
    | some op => s.onReady op resumes tasks stack
        (.read fd op (s.queue.entry fd).readOpGen (s.kind op ≠ some .stream))
    | none => { s with stack := .stepping tasks :: stack }
  | .stepping (.write fd :: tasks) :: stack =>
    match s.queue.writes fd with
    | op :: _ => s.onReady op resumes tasks stack (.write fd op)
    | [] => { s with stack := .stepping tasks :: stack }
  | .stepping (.erase fd :: tasks) :: stack =>
    { s with queue := eraseEmpty s.queue fd, stack := .stepping tasks :: stack }
  | .stepping [] :: stack => { s with stack }
  | _ => s

/-- The coroutine on top suspends or ends, and what resumed it goes on. -/
def suspend (s : State) : State :=
  match s.stack with
  | .dispatching (.read fd op gen done) tasks :: stack =>
    { s with
      queue := if done = true then deregisterRead s.queue fd op gen else s.queue
      stack := .stepping tasks :: stack }
  | .dispatching (.write fd op) tasks :: stack =>
    { s with
      queue := popWrite s.queue fd op
      stack := .stepping (.write fd :: tasks) :: stack }
  | .canceling ops :: stack => s.cancelNext stack ops
  | _ => s

def addressed (s : State) : Option Op :=
  match s.stack with
  | .stepping (.read fd :: _) :: _ => s.queue.read fd
  | .stepping (.write fd :: _) :: _ => (s.queue.writes fd).head?
  | _ => none

def Running (s : State) : Prop :=
  match s.stack with
  | .stepping _ :: _ => False
  | _ => True

end State

inductive Event where
  | register (fd addr : ℕ) (kind : Kind)
  | clearReadOp (fd addr : ℕ)
  | cancelFd (fd : ℕ)
  /-- `step`, with what `poll` reports; nothing when it times out or is interrupted. -/
  | step (ready : List Ready)
  | advance (resumes : Bool)
  | suspend
  deriving DecidableEq

/-- `poll` reports descriptors with an operation, each once; a connect always finishes. -/
def Enabled (s : State) : Event → Prop
  | .register _ _ _ | .clearReadOp _ _ | .cancelFd _ => s.Running
  | .step ready => s.Running ∧ (ready.map Ready.fd).Nodup ∧
      ∀ r ∈ ready, s.queue.read r.fd ≠ none ∨ s.queue.writes r.fd ≠ []
  | .advance resumes => ¬ s.Running ∧
      ∀ op ∈ s.addressed, s.kind op = some .connect → resumes = true
  | .suspend => s.stack ≠ [] ∧ s.Running

def next (s : State) : Event → State
  | .register fd addr kind => s.register fd addr kind
  | .clearReadOp fd addr => { s with queue := s.queue.clearReadOp fd addr }
  | .cancelFd fd => s.cancelFd fd
  | .step ready => { s with stack := .stepping (ready.flatMap Ready.tasks) :: s.stack }
  | .advance resumes => s.advance resumes
  | .suspend => s.suspend

def machine : System State Event := ⟨Enabled, next⟩

def OneShot (registrations : List Registration) (op : Op) : Prop :=
  ∃ r ∈ registrations[op.id]?, r.kind ≠ .stream

def Resumed (calls : List OpCall) (op : Op) : Prop := ∃ c ∈ calls, c.op = op ∧ c.resumes = true

/-- Every one-shot operation resumes its coroutine at most once, and is left alone after it. -/
structure CompletesOnce (s : State) : Prop where
  once : ∀ op, OneShot s.registrations op →
    s.calls.countP (fun c => c.op = op ∧ c.resumes = true) ≤ 1
  quiet : ∀ later c earlier, s.calls = later ++ c :: earlier → OneShot s.registrations c.op →
    c.resumes = true → ∀ c' ∈ later, c'.op ≠ c.op

/-- The one-shot operations whose `on_ready` has resumed and not returned. -/
def State.finishing (s : State) : List Op :=
  (s.active.map Active.op).filter fun op => ∃ r ∈ s.registrations[op.id]?, r.kind ≠ .stream

/-- While an operation finishes and is still in the table, its descriptor is not canceled, and
no `step` inside of that comes to it. -/
def Apart (s : State) : Event → Prop
  | .cancelFd fd => ∀ op ∈ s.finishing, op ∉ s.queue.read fd ∧ op ∉ s.queue.writes fd
  | .advance _ => ∀ op ∈ s.addressed, op ∉ s.finishing
  | _ => True

section Decidability

instance (s : State) : Decidable s.Running := by
  unfold State.Running
  split <;> infer_instance

instance (registrations : List Registration) (op : Op) : Decidable (OneShot registrations op) :=
  inferInstanceAs (Decidable (∃ r ∈ registrations[op.id]?, r.kind ≠ .stream))

instance (s : State) : (e : Event) → Decidable (Enabled s e)
  | .register _ _ _ | .clearReadOp _ _ | .cancelFd _ => inferInstanceAs (Decidable s.Running)
  | .step ready => inferInstanceAs (Decidable (s.Running ∧ (ready.map Ready.fd).Nodup ∧
      ∀ r ∈ ready, s.queue.read r.fd ≠ none ∨ s.queue.writes r.fd ≠ []))
  | .advance resumes => inferInstanceAs (Decidable (¬ s.Running ∧
      ∀ op ∈ s.addressed, s.kind op = some .connect → resumes = true))
  | .suspend => inferInstanceAs (Decidable (s.stack ≠ [] ∧ s.Running))

instance (s : State) (e : Event) : Decidable (machine.Enabled s e) :=
  inferInstanceAs (Decidable (Enabled s e))

instance (s : State) : (e : Event) → Decidable (Apart s e)
  | .cancelFd fd => inferInstanceAs
      (Decidable (∀ op ∈ s.finishing, op ∉ s.queue.read fd ∧ op ∉ s.queue.writes fd))
  | .advance _ => inferInstanceAs (Decidable (∀ op ∈ s.addressed, op ∉ s.finishing))
  | .register _ _ _ | .clearReadOp _ _ | .step _ | .suspend => isTrue trivial

end Decidability

/-- Operations only leave the table, and one that stays keeps its generation. -/
structure Shrinks (q q' : Queue) : Prop where
  registered : q'.registered = q.registered
  read : ∀ fd, ∀ op ∈ q'.read fd,
    op ∈ q.read fd ∧ (q'.entry fd).readOpGen = (q.entry fd).readOpGen
  writes : ∀ fd, (q'.writes fd).Sublist (q.writes fd)

section Shrinking

variable {q : Queue} {fd : ℕ}

theorem Shrinks.refl (q : Queue) : Shrinks q q :=
  ⟨rfl, fun _ _ hop => ⟨hop, rfl⟩, fun _ => List.Sublist.refl _⟩

theorem Shrinks.note {q' : Queue} (h : Shrinks q q') (n : Note) : Shrinks q (q'.note n) :=
  ⟨h.registered, h.read, h.writes⟩

theorem entry_put (q : Queue) (fd : ℕ) (st : Option FdState) :
    (q.put fd st).entry = Function.update q.entry fd (st.getD ⟨none, 0, []⟩) := by
  funext fd'
  by_cases hfd : fd' = fd
  · subst hfd
    simp [Queue.entry, Queue.put]
  · simp [Queue.entry, Queue.put, Function.update_of_ne hfd]

theorem shrinks_put {st : FdState} {st' : Option FdState} (hst : q.fds fd = some st)
    (hread : ∀ op ∈ st'.bind FdState.readOp,
      op ∈ st.readOp ∧ (st'.getD ⟨none, 0, []⟩).readOpGen = st.readOpGen)
    (hwrites : (st'.getD ⟨none, 0, []⟩).writeQueue.Sublist st.writeQueue) :
    Shrinks q (q.put fd st') where
  registered := rfl
  read fd' op hop := by
    rw [read_put] at hop
    by_cases hfd : fd' = fd
    · subst hfd
      rw [Function.update_self] at hop
      obtain ⟨hold, hgen⟩ := hread op hop
      rw [read_of_entry hst, entry_put, Function.update_self, Queue.entry, hst]
      exact ⟨hold, hgen⟩
    · rw [Function.update_of_ne hfd] at hop
      rw [entry_put, Function.update_of_ne hfd]
      exact ⟨hop, rfl⟩
  writes fd' := by
    rw [writes_put]
    by_cases hfd : fd' = fd
    · subst hfd
      rwa [Function.update_self, writes_of_entry hst]
    · rw [Function.update_of_ne hfd]

theorem shrinks_put_none {st : FdState} (hst : q.fds fd = some st) :
    Shrinks q (q.put fd none) :=
  shrinks_put hst (by simp) (List.nil_sublist _)

theorem shrinks_put_no_read {st : FdState} (hst : q.fds fd = some st) :
    Shrinks q (q.put fd (some { st with readOp := none })) :=
  shrinks_put hst (by simp) (List.Sublist.refl _)

theorem shrinks_clearReadOp (q : Queue) (fd addr : ℕ) : Shrinks q (q.clearReadOp fd addr) := by
  by_cases hmatch : (q.read fd).map Op.addr = some addr
  · cases hst : q.fds fd with
    | none =>
      rw [Queue.read, hst] at hmatch
      cases hmatch
    | some st =>
      rw [read_of_entry hst] at hmatch
      by_cases hempty : st.writeQueue = []
      · simpa only [Queue.clearReadOp, hst, if_pos hmatch, if_pos hempty] using
          (shrinks_put_none hst).note (.clear fd addr)
      · simpa only [Queue.clearReadOp, hst, if_pos hmatch, if_neg hempty] using
          (shrinks_put_no_read hst).note (.clear fd addr)
  · rw [clearReadOp_of_ne hmatch]
    exact (Shrinks.refl q).note _

theorem shrinks_deregisterRead (q : Queue) (fd : ℕ) (op : Op) (gen : UInt64) :
    Shrinks q (deregisterRead q fd op gen) := by
  have hcase := deregisterRead_cases q fd op gen
  generalize deregisterRead q fd op gen = q' at hcase ⊢
  cases hcase with
  | other => exact .refl q
  | taken st left hst =>
    exact (shrinks_put_no_read hst).note _

theorem shrinks_popWrite {op : Op} {rest : List Op} (h : q.writes fd = op :: rest) :
    Shrinks q (popWrite q fd op) ∧ (popWrite q fd op).writes =
      Function.update q.writes fd rest := by
  obtain ⟨st, hst, hpop⟩ := popWrite_front h
  have hqueue : st.writeQueue = op :: rest := (writes_of_entry hst).symm.trans h
  rw [hpop]
  refine ⟨?_, writes_put q fd _⟩
  apply Shrinks.note
  apply shrinks_put hst
  · exact fun op' hop' => ⟨hop', rfl⟩
  · rw [hqueue]
    exact List.sublist_cons_self op rest

theorem shrinks_eraseEmpty (q : Queue) (fd : ℕ) : Shrinks q (eraseEmpty q fd) := by
  unfold eraseEmpty
  split
  · next st hst =>
    split
    · exact shrinks_put_none hst
    · exact .refl q
  · exact .refl q

theorem writes_eraseEmpty (q : Queue) (fd : ℕ) : (eraseEmpty q fd).writes = q.writes :=
  congrArg Registrations.writes (eraseEmpty_spec q fd).1

theorem writes_deregisterRead (q : Queue) (fd : ℕ) (op : Op) (gen : UInt64) :
    (deregisterRead q fd op gen).writes = q.writes := by
  have hcase := deregisterRead_cases q fd op gen
  generalize deregisterRead q fd op gen = q' at hcase ⊢
  cases hcase with
  | other => rfl
  | taken st left hst =>
    refine (writes_put q fd _).trans ?_
    rw [Option.getD_some, ← writes_of_entry hst]
    exact Function.update_eq_self fd q.writes

theorem read_deregisterRead {op : Op} (hread : op ∈ q.read fd) :
    (deregisterRead q fd op (q.entry fd).readOpGen).read fd = none := by
  obtain ⟨st, hst, hop⟩ := Option.bind_eq_some_iff.mp hread
  have hgen : (q.entry fd).readOpGen = st.readOpGen := by rw [Queue.entry, hst, Option.getD_some]
  simp only [deregisterRead, hst, hgen, if_true, hop]
  exact (congrFun (read_put q fd _) fd).trans (Function.update_self _ _ _)

end Shrinking

structure Registers (q q' : Queue) (fd : ℕ) (op : Op) (reads : Bool) : Prop where
  registered : q'.registered = q.registered + 1
  number : op.id = q.registered
  read : ∀ fd', ∀ op' ∈ q'.read fd', (op' = op ∧ fd' = fd ∧ reads = true) ∨
    (op' ∈ q.read fd' ∧ (q'.entry fd').readOpGen = (q.entry fd').readOpGen)
  writes : ∀ fd', q'.writes fd' = q.writes fd' ∨
    (q'.writes fd' = q.writes fd' ++ [op] ∧ fd' = fd ∧ reads = false)

theorem Registers.mem_writes {q q' : Queue} {fd fd' : ℕ} {op op' : Op} {reads : Bool}
    (hr : Registers q q' fd op reads) (hop : op' ∈ q'.writes fd') :
    op' ∈ q.writes fd' ∨ op' = op ∧ fd' = fd ∧ reads = false := by
  rcases hr.writes fd' with hsame | ⟨hadd, hfd, hreads⟩
  · exact Or.inl (hsame ▸ hop)
  · rw [hadd, List.mem_append, List.mem_singleton] at hop
    exact hop.imp_right fun heq => ⟨heq, hfd, hreads⟩

theorem registers_setReadOp (q : Queue) (fd addr : ℕ) :
    Registers q (q.setReadOp fd addr) fd (q.newOp addr) true where
  registered := rfl
  number := rfl
  read fd' op' hop := by
    have hview : (q.setReadOp fd addr).read =
        Function.update q.read fd (some (q.newOp addr)) := read_put q fd _
    rw [hview] at hop
    by_cases hfd : fd' = fd
    · rw [hfd, Function.update_self] at hop
      exact Or.inl ⟨(Option.some.inj hop).symm, hfd, rfl⟩
    · rw [Function.update_of_ne hfd] at hop
      refine Or.inr ⟨hop, ?_⟩
      have hentry : (q.setReadOp fd addr).entry fd' = q.entry fd' :=
        (congrFun (entry_put q fd _) fd').trans (Function.update_of_ne hfd _ _)
      rw [hentry]
  writes fd' := by
    refine Or.inl ((congrFun (writes_put q fd _) fd').trans ?_)
    exact congrFun (Function.update_eq_self fd q.writes) fd'

theorem registers_pushWriteOp (q : Queue) (fd addr : ℕ) :
    Registers q (q.pushWriteOp fd addr) fd (q.newOp addr) false where
  registered := rfl
  number := rfl
  read fd' op' hop := by
    have hview : (q.pushWriteOp fd addr).read = q.read := by
      refine (read_put q fd _).trans ?_
      simp only [Option.bind_some, read_entry]
      exact Function.update_eq_self fd q.read
    rw [hview] at hop
    refine Or.inr ⟨hop, ?_⟩
    have hentry : (q.pushWriteOp fd addr).entry fd' = (q.put fd (some { q.entry fd with
        writeQueue := (q.entry fd).writeQueue ++ [q.newOp addr] })).entry fd' := rfl
    rw [hentry, entry_put]
    by_cases hfd : fd' = fd
    · rw [hfd, Function.update_self, Option.getD_some]
    · rw [Function.update_of_ne hfd]
  writes fd' := by
    have hview : (q.pushWriteOp fd addr).writes fd' =
        Function.update q.writes fd (q.writes fd ++ [q.newOp addr]) fd' :=
      congrFun (writes_put q fd _) fd'
    by_cases hfd : fd' = fd
    · subst hfd
      exact Or.inr ⟨hview.trans (Function.update_self _ _ _), rfl, rfl⟩
    · exact Or.inl (hview.trans (Function.update_of_ne hfd _ _))

/-- A registered operation is in one place only, and a one-shot operation that has resumed is in
the table only while its `on_ready` is on the stack. -/
structure Coherent (q : Queue) (registrations : List Registration) (active : List Active)
    (cancels : List Op) (calls : List OpCall) : Prop where
  count : registrations.length = q.registered
  read : ∀ fd, ∀ op ∈ q.read fd, ∃ r ∈ registrations[op.id]?, r.fd = fd ∧ r.kind.reads = true
  writes : ∀ fd, ∀ op ∈ q.writes fd, ∃ r ∈ registrations[op.id]?, r.fd = fd ∧ r.kind.reads = false
  distinct : ∀ fd, (q.writes fd).Nodup
  canceled : cancels.Nodup
  moved : ∀ op ∈ cancels, ∀ fd, op ∉ q.read fd ∧ op ∉ q.writes fd
  known : ∀ op ∈ cancels ++ active.map Active.op ++ calls.map OpCall.op,
    op.id < registrations.length
  gens : ∀ fd op gen done, .read fd op gen done ∈ active → op ∈ q.read fd →
    (q.entry fd).readOpGen = gen
  finishes : ∀ fd op gen done, .read fd op gen done ∈ active → OneShot registrations op →
    done = true
  front : ∀ fd op, .write fd op ∈ active → ∃ rest, q.writes fd = op :: rest
  single : (active.filterMap Active.written).Nodup
  quiet : calls.Pairwise fun later earlier => OneShot registrations earlier.op →
    later.op = earlier.op → earlier.resumes = false
  waiting : ∀ op ∈ cancels, OneShot registrations op → ¬ Resumed calls op
  readResumed : ∀ fd, ∀ op ∈ q.read fd, OneShot registrations op → Resumed calls op →
    ∃ gen done, .read fd op gen done ∈ active
  writeResumed : ∀ fd, ∀ op ∈ q.writes fd, Resumed calls op → .write fd op ∈ active

section Operations

variable {q q' : Queue} {registrations : List Registration} {active : List Active}
  {cancels : List Op} {calls : List OpCall}

theorem coherent_initial : Coherent .create [] [] [] [] where
  count := rfl
  read := by rintro fd op ⟨⟩
  writes := by rintro fd op ⟨⟩
  distinct _ := List.nodup_nil
  canceled := List.nodup_nil
  moved := by rintro op ⟨⟩
  known := by rintro op ⟨⟩
  gens := by rintro fd op gen done ⟨⟩
  finishes := by rintro fd op gen done ⟨⟩
  front := by rintro fd op ⟨⟩
  single := List.nodup_nil
  quiet := List.Pairwise.nil
  waiting := by rintro op ⟨⟩
  readResumed := by rintro fd op ⟨⟩
  writeResumed := by rintro fd op ⟨⟩

theorem Coherent.shrink (h : Coherent q registrations active cancels calls) (hs : Shrinks q q')
    (hfront : ∀ fd op, .write fd op ∈ active → q'.writes fd = q.writes fd) :
    Coherent q' registrations active cancels calls where
  count := h.count.trans hs.registered.symm
  read fd op hop := h.read fd op (hs.read fd op hop).1
  writes fd op hop := h.writes fd op ((hs.writes fd).subset hop)
  distinct fd := (h.distinct fd).sublist (hs.writes fd)
  canceled := h.canceled
  moved op hop fd := by
    obtain ⟨hread, hwrites⟩ := h.moved op hop fd
    exact ⟨fun hin => hread (hs.read fd op hin).1, fun hin => hwrites ((hs.writes fd).subset hin)⟩
  known := h.known
  gens fd op gen done hin hop := by
    obtain ⟨hold, hgen⟩ := hs.read fd op hop
    exact hgen.trans (h.gens fd op gen done hin hold)
  finishes := h.finishes
  front fd op hin := by
    rw [hfront fd op hin]
    exact h.front fd op hin
  single := h.single
  quiet := h.quiet
  waiting := h.waiting
  readResumed fd op hop := h.readResumed fd op (hs.read fd op hop).1
  writeResumed fd op hop := h.writeResumed fd op ((hs.writes fd).subset hop)

theorem lt_of_registered {op : Op} {p : Registration → Prop}
    (h : ∃ r ∈ registrations[op.id]?, p r) : op.id < registrations.length := by
  obtain ⟨r, hr, -⟩ := h
  exact (List.getElem?_eq_some_iff.mp hr).1

theorem Coherent.known_of_read (h : Coherent q registrations active cancels calls) {fd : ℕ}
    {op : Op} (hop : op ∈ q.read fd) : op.id < registrations.length :=
  lt_of_registered (h.read fd op hop)

theorem Coherent.known_of_writes (h : Coherent q registrations active cancels calls) {fd : ℕ}
    {op : Op} (hop : op ∈ q.writes fd) : op.id < registrations.length :=
  lt_of_registered (h.writes fd op hop)

theorem Coherent.known_of_cancels (h : Coherent q registrations active cancels calls) {op : Op}
    (hop : op ∈ cancels) : op.id < registrations.length :=
  h.known op (List.mem_append_left _ (List.mem_append_left _ hop))

theorem Coherent.known_of_active (h : Coherent q registrations active cancels calls) {op : Op}
    (hop : op ∈ active.map Active.op) : op.id < registrations.length :=
  h.known op (List.mem_append_left _ (List.mem_append_right _ hop))

theorem Coherent.known_of_calls (h : Coherent q registrations active cancels calls) {op : Op}
    (hop : op ∈ calls.map OpCall.op) : op.id < registrations.length :=
  h.known op (List.mem_append_right _ hop)

theorem lookup_append {i : ℕ} (h : i < registrations.length) (r : Registration) :
    (registrations ++ [r])[i]? = registrations[i]? := List.getElem?_append_left h

theorem oneShot_append {op : Op} (h : op.id < registrations.length) (r : Registration) :
    OneShot (registrations ++ [r]) op ↔ OneShot registrations op := by
  rw [OneShot, lookup_append h, OneShot]

theorem Coherent.register (h : Coherent q registrations active cancels calls) {fd : ℕ} {op : Op}
    {kind : Kind} (hr : Registers q q' fd op kind.reads) :
    Coherent q' (registrations ++ [⟨fd, kind⟩]) active cancels calls := by
  have hnew : op.id = registrations.length := hr.number.trans h.count.symm
  have hfresh : ∀ op', op'.id < registrations.length → op' ≠ op := by
    rintro op' hlt rfl
    omega
  have hactive : ∀ a ∈ active, a.op.id < registrations.length := fun a ha =>
    h.known_of_active (List.mem_map_of_mem ha)
  have hcall : ∀ c ∈ calls, c.op.id < registrations.length := fun c hc =>
    h.known_of_calls (List.mem_map_of_mem hc)
  have hunresumed : ¬ Resumed calls op := by
    rintro ⟨c, hc, rfl, -⟩
    exact hfresh _ (hcall c hc) rfl
  have hself : (registrations ++ [⟨fd, kind⟩])[op.id]? = some ⟨fd, kind⟩ := by
    rw [hnew, List.getElem?_concat_length]
  refine ⟨?_, ?_, ?_, ?_, h.canceled, ?_, ?_, ?_, ?_, ?_, h.single, ?_, ?_, ?_, ?_⟩
  · rw [List.length_append, hr.registered, h.count]
    rfl
  · intro fd' op' hop'
    rcases hr.read fd' op' hop' with ⟨rfl, rfl, hreads⟩ | ⟨hold, -⟩
    · exact ⟨_, hself, rfl, hreads⟩
    · rw [lookup_append (h.known_of_read hold)]
      exact h.read fd' op' hold
  · intro fd' op' hop'
    rcases hr.mem_writes hop' with hold | ⟨rfl, rfl, hreads⟩
    · rw [lookup_append (h.known_of_writes hold)]
      exact h.writes fd' op' hold
    · exact ⟨_, hself, rfl, hreads⟩
  · intro fd'
    rcases hr.writes fd' with hsame | ⟨hadd, -, -⟩
    · rw [hsame]
      exact h.distinct fd'
    · rw [hadd]
      refine List.nodup_append.mpr ⟨h.distinct fd', List.nodup_singleton _, ?_⟩
      intro op₁ hop₁ op₂ hop₂
      rw [List.mem_singleton.mp hop₂]
      exact hfresh op₁ (h.known_of_writes hop₁)
  · intro op' hop' fd'
    obtain ⟨hout, hout'⟩ := h.moved op' hop' fd'
    have hne := hfresh op' (h.known_of_cancels hop')
    constructor
    · exact fun hin => (hr.read fd' op' hin).elim (fun hnew => hne hnew.1) fun hold => hout hold.1
    · exact fun hin => (hr.mem_writes hin).elim hout' fun hnew => hne hnew.1
  · intro op' hop'
    rw [List.length_append]
    exact Nat.lt_add_right _ (h.known op' hop')
  · intro fd' op' gen done hin hop'
    rcases hr.read fd' op' hop' with ⟨rfl, -⟩ | ⟨hold, hgen⟩
    · exact absurd rfl (hfresh op' (hactive _ hin))
    · exact hgen.trans (h.gens fd' op' gen done hin hold)
  · intro fd' op' gen done hin hone
    exact h.finishes fd' op' gen done hin ((oneShot_append (hactive _ hin) _).mp hone)
  · intro fd' op' hin
    obtain ⟨rest, hrest⟩ := h.front fd' op' hin
    rcases hr.writes fd' with hsame | ⟨hadd, -, -⟩
    · exact ⟨rest, hsame.trans hrest⟩
    · exact ⟨rest ++ [op], by rw [hadd, hrest, List.cons_append]⟩
  · refine h.quiet.imp_of_mem ?_
    intro later earlier _ hearlier hquiet hone
    exact hquiet ((oneShot_append (hcall earlier hearlier) _).mp hone)
  · intro op' hop' hone
    exact h.waiting op' hop' ((oneShot_append (h.known_of_cancels hop') _).mp hone)
  · intro fd' op' hop' hone hres
    rcases hr.read fd' op' hop' with ⟨rfl, -⟩ | ⟨hold, -⟩
    · exact absurd hres hunresumed
    · exact h.readResumed fd' op' hold ((oneShot_append (h.known_of_read hold) _).mp hone) hres
  · intro fd' op' hop' hres
    rcases hr.mem_writes hop' with hold | ⟨rfl, -⟩
    · exact h.writeResumed fd' op' hold hres
    · exact absurd hres hunresumed

theorem resumed_cons {c : OpCall} {op : Op} :
    Resumed (c :: calls) op ↔ (c.op = op ∧ c.resumes = true) ∨ Resumed calls op := by
  simp only [Resumed, List.exists_mem_cons_iff]

theorem resumed_of_cons {c : OpCall} (op : Op) {op' : Op} (hc : c.op = op)
    (hres : Resumed (c :: calls) op') : op = op' ∨ Resumed calls op' :=
  (resumed_cons.mp hres).imp_left fun heq => hc.symm.trans heq.1

theorem Coherent.quiet_cons (h : Coherent q registrations active cancels calls) {c : OpCall}
    (hc : OneShot registrations c.op → ¬ Resumed calls c.op) :
    (c :: calls).Pairwise fun later earlier => OneShot registrations earlier.op →
      later.op = earlier.op → earlier.resumes = false := by
  refine List.pairwise_cons.mpr ⟨fun earlier hearlier hone hsame => ?_, h.quiet⟩
  rw [← hsame] at hone
  by_contra hres
  exact hc hone ⟨earlier, hearlier, hsame.symm, by simpa using hres⟩

theorem Coherent.known_cons (h : Coherent q registrations active cancels calls) {c : OpCall}
    (hc : c.op.id < registrations.length) :
    ∀ op ∈ cancels ++ active.map Active.op ++ (c :: calls).map OpCall.op,
      op.id < registrations.length := by
  intro op hop
  rw [List.map_cons, List.mem_append, List.mem_cons] at hop
  rcases hop with hold | rfl | hold
  · exact h.known op (List.mem_append_left _ hold)
  · exact hc
  · exact h.known op (List.mem_append_right _ hold)

theorem Coherent.known_resume (h : Coherent q registrations active cancels calls) {a : Active}
    (ha : a.op.id < registrations.length) :
    ∀ op ∈ cancels ++ (a :: active).map Active.op ++ (.onReady a.op true :: calls).map OpCall.op,
      op.id < registrations.length := by
  intro op hop
  rw [List.map_cons, List.mem_append, List.mem_append, List.mem_cons] at hop
  rcases hop with (hold | rfl | hold) | hold
  · exact h.known_of_cancels hold
  · exact ha
  · exact h.known_of_active hold
  · have hcall : OpCall.op (.onReady a.op true) = a.op := rfl
    exact h.known_cons (hcall ▸ ha) op (List.mem_append_right _ hold)

theorem Coherent.again (h : Coherent q registrations active cancels calls) {op : Op}
    (hknown : op.id < registrations.length)
    (hop : OneShot registrations op → ¬ Resumed calls op) :
    Coherent q registrations active cancels (.onReady op false :: calls) := by
  have hcall : (OpCall.onReady op false).op.id < registrations.length := hknown
  have hsame : ∀ op', Resumed (.onReady op false :: calls) op' → Resumed calls op' := by
    intro op' hres
    refine (resumed_cons.mp hres).resolve_left ?_
    rintro ⟨-, ⟨⟩⟩
  exact ⟨h.count, h.read, h.writes, h.distinct, h.canceled, h.moved, h.known_cons hcall, h.gens,
    h.finishes, h.front, h.single, h.quiet_cons hop,
    fun op' hop' hone hres => h.waiting op' hop' hone (hsame op' hres),
    fun fd op' hop' hone hres => h.readResumed fd op' hop' hone (hsame op' hres),
    fun fd op' hop' hres => h.writeResumed fd op' hop' (hsame op' hres)⟩

theorem Coherent.same_fd (h : Coherent q registrations active cancels calls) {fd fd' : ℕ} {op : Op}
    (hop : op ∈ q.read fd) (hop' : op ∈ q.read fd') : fd' = fd := by
  obtain ⟨r, hr, rfl, -⟩ := h.read fd op hop
  obtain ⟨r', hr', rfl, -⟩ := h.read fd' op hop'
  rw [Option.some.inj (hr.symm.trans hr')]

theorem Coherent.same_fd_of_writes (h : Coherent q registrations active cancels calls)
    {fd fd' : ℕ} {op : Op} (hop : op ∈ q.writes fd) (hop' : op ∈ q.writes fd') : fd' = fd := by
  obtain ⟨r, hr, rfl, -⟩ := h.writes fd op hop
  obtain ⟨r', hr', rfl, -⟩ := h.writes fd' op hop'
  rw [Option.some.inj (hr.symm.trans hr')]

theorem Coherent.not_both (h : Coherent q registrations active cancels calls) {fd fd' : ℕ} {op : Op}
    (hop : op ∈ q.read fd) : op ∉ q.writes fd' := by
  intro hop'
  obtain ⟨r, hr, -, hreads⟩ := h.read fd op hop
  obtain ⟨r', hr', -, hreads'⟩ := h.writes fd' op hop'
  rw [Option.some.inj (hr.symm.trans hr'), hreads'] at hreads
  cases hreads

theorem Coherent.oneShot_of_writes (h : Coherent q registrations active cancels calls) {fd : ℕ}
    {op : Op} (hop : op ∈ q.writes fd) : OneShot registrations op := by
  obtain ⟨r, hr, -, hreads⟩ := h.writes fd op hop
  refine ⟨r, hr, fun hstream => ?_⟩
  rw [hstream] at hreads
  cases hreads

theorem Coherent.read_fresh (h : Coherent q registrations active cancels calls) {fd : ℕ} {op : Op}
    (hop : op ∈ q.read fd) (hout : OneShot registrations op → ∀ a ∈ active, a.op ≠ op) :
    OneShot registrations op → ¬ Resumed calls op := by
  intro hone hres
  obtain ⟨gen, done, hin⟩ := h.readResumed fd op hop hone hres
  exact hout hone _ hin rfl

theorem Coherent.writes_fresh (h : Coherent q registrations active cancels calls) {fd : ℕ} {op : Op}
    (hop : op ∈ q.writes fd) (hout : ∀ a ∈ active, a.op ≠ op) : ¬ Resumed calls op :=
  fun hres => hout _ (h.writeResumed fd op hop hres) rfl

theorem Coherent.resume_read (h : Coherent q registrations active cancels calls) {fd : ℕ} {op : Op}
    {done : Bool} (hop : op ∈ q.read fd) (hdone : OneShot registrations op → done = true)
    (hout : OneShot registrations op → ∀ a ∈ active, a.op ≠ op) :
    Coherent q registrations (.read fd op (q.entry fd).readOpGen done :: active) cancels
      (.onReady op true :: calls) := by
  have hknown : (Active.read fd op (q.entry fd).readOpGen done).op.id < registrations.length :=
    h.known_of_read hop
  refine ⟨h.count, h.read, h.writes, h.distinct, h.canceled, h.moved, h.known_resume hknown, ?_,
    ?_, ?_, h.single, h.quiet_cons (h.read_fresh hop hout), ?_, ?_, ?_⟩
  · intro fd' op' gen done' hin hop'
    rcases List.mem_cons.mp hin with heq | hold
    · cases heq
      rfl
    · exact h.gens fd' op' gen done' hold hop'
  · intro fd' op' gen done' hin hone
    rcases List.mem_cons.mp hin with heq | hold
    · cases heq
      exact hdone hone
    · exact h.finishes fd' op' gen done' hold hone
  · intro fd' op' hin
    exact h.front fd' op' ((List.mem_cons.mp hin).resolve_left (by rintro ⟨⟩))
  · intro op' hop' hone hres
    rcases resumed_of_cons op rfl hres with rfl | hold
    · exact (h.moved _ hop' fd).1 hop
    · exact h.waiting op' hop' hone hold
  · intro fd' op' hop' hone hres
    rcases resumed_of_cons op rfl hres with rfl | hold
    · rw [h.same_fd hop hop']
      exact ⟨_, _, List.mem_cons_self⟩
    · obtain ⟨gen, done', hin⟩ := h.readResumed fd' op' hop' hone hold
      exact ⟨gen, done', List.mem_cons_of_mem _ hin⟩
  · intro fd' op' hop' hres
    rcases resumed_of_cons op rfl hres with rfl | hold
    · exact absurd hop' (h.not_both hop)
    · exact List.mem_cons_of_mem _ (h.writeResumed fd' op' hop' hold)

theorem Coherent.resume_write (h : Coherent q registrations active cancels calls) {fd : ℕ} {op : Op}
    {rest : List Op} (hfront : q.writes fd = op :: rest) (hout : ∀ a ∈ active, a.op ≠ op) :
    Coherent q registrations (.write fd op :: active) cancels (.onReady op true :: calls) := by
  have hop : op ∈ q.writes fd := hfront ▸ List.mem_cons_self
  have hknown : (Active.write fd op).op.id < registrations.length :=
    h.known_of_writes hop
  refine ⟨h.count, h.read, h.writes, h.distinct, h.canceled, h.moved, h.known_resume hknown, ?_,
    ?_, ?_, ?_, h.quiet_cons fun _ => h.writes_fresh hop hout, ?_, ?_, ?_⟩
  · intro fd' op' gen done hin hop'
    exact h.gens fd' op' gen done ((List.mem_cons.mp hin).resolve_left (by rintro ⟨⟩)) hop'
  · intro fd' op' gen done hin
    exact h.finishes fd' op' gen done ((List.mem_cons.mp hin).resolve_left (by rintro ⟨⟩))
  · intro fd' op' hin
    rcases List.mem_cons.mp hin with heq | hold
    · cases heq
      exact ⟨rest, hfront⟩
    · exact h.front fd' op' hold
  · have hnotin : op ∉ active.filterMap Active.written := by
      intro hin
      obtain ⟨a, ha, hwritten⟩ := List.mem_filterMap.mp hin
      cases a with
      | read => cases hwritten
      | write fd' op' =>
        cases hwritten
        exact hout _ ha rfl
    exact List.nodup_cons.mpr ⟨hnotin, h.single⟩
  · intro op' hop' hone hres
    rcases resumed_of_cons op rfl hres with rfl | hold
    · exact (h.moved _ hop' fd).2 hop
    · exact h.waiting op' hop' hone hold
  · intro fd' op' hop' hone hres
    rcases resumed_of_cons op rfl hres with rfl | hold
    · exact absurd hop (h.not_both hop')
    · obtain ⟨gen, done, hin⟩ := h.readResumed fd' op' hop' hone hold
      exact ⟨gen, done, List.mem_cons_of_mem _ hin⟩
  · intro fd' op' hop' hres
    rcases resumed_of_cons op rfl hres with rfl | hold
    · rw [h.same_fd_of_writes hop hop']
      exact List.mem_cons_self
    · exact List.mem_cons_of_mem _ (h.writeResumed fd' op' hop' hold)

/-- `on_ready` of the read operation returns: a one-shot operation is gone from the table. -/
theorem Coherent.suspend_read {fd : ℕ} {op : Op} {gen : UInt64} {done : Bool}
    (h : Coherent q registrations (.read fd op gen done :: active) cancels calls) :
    Coherent (if done = true then deregisterRead q fd op gen else q) registrations active cancels
      calls := by
  have hold : Coherent (if done = true then deregisterRead q fd op gen else q) registrations
      (.read fd op gen done :: active) cancels calls := by
    split
    · exact h.shrink (shrinks_deregisterRead q fd op gen)
        fun fd' _ _ => congrFun (writes_deregisterRead q fd op gen) fd'
    · exact h
  have hgone : OneShot registrations op →
      op ∉ (if done = true then deregisterRead q fd op gen else q).read fd := by
    intro hone hin
    have hdone := h.finishes fd op gen done List.mem_cons_self hone
    rw [if_pos hdone] at hin
    have hthere := ((shrinks_deregisterRead q fd op gen).read fd op hin).1
    have hgen := h.gens fd op gen done List.mem_cons_self hthere
    rw [← hgen, read_deregisterRead hthere] at hin
    cases hin
  refine ⟨hold.count, hold.read, hold.writes, hold.distinct, hold.canceled, hold.moved, ?_,
    fun fd' op' gen' done' hin => hold.gens fd' op' gen' done' (List.mem_cons_of_mem _ hin),
    fun fd' op' gen' done' hin => hold.finishes fd' op' gen' done' (List.mem_cons_of_mem _ hin),
    fun fd' op' hin => hold.front fd' op' (List.mem_cons_of_mem _ hin), hold.single, hold.quiet,
    hold.waiting, ?_, ?_⟩
  · intro op' hop'
    apply hold.known op'
    simp only [List.map_cons, List.mem_append, List.mem_cons] at hop' ⊢
    tauto
  · intro fd' op' hop' hone hres
    obtain ⟨gen', done', hin⟩ := hold.readResumed fd' op' hop' hone hres
    rcases List.mem_cons.mp hin with heq | hin
    · cases heq
      exact absurd hop' (hgone hone)
    · exact ⟨gen', done', hin⟩
  · intro fd' op' hop' hres
    exact (List.mem_cons.mp (hold.writeResumed fd' op' hop' hres)).resolve_left (by rintro ⟨⟩)

theorem Coherent.suspend_write {fd : ℕ} {op : Op}
    (h : Coherent q registrations (.write fd op :: active) cancels calls) :
    Coherent (popWrite q fd op) registrations active cancels calls := by
  obtain ⟨rest, hfront⟩ := h.front fd op List.mem_cons_self
  obtain ⟨hs, hwrites⟩ := shrinks_popWrite hfront
  have hdistinct := h.distinct fd
  rw [hfront, List.nodup_cons] at hdistinct
  have hgone : op ∉ (popWrite q fd op).writes fd := by
    rw [hwrites, Function.update_self]
    exact hdistinct.1
  have hsingle : op ∉ active.filterMap Active.written ∧
      (active.filterMap Active.written).Nodup := List.nodup_cons.mp h.single
  -- No other operation of this descriptor is at the front, so none of it is finishing.
  have hother : ∀ fd' op', .write fd' op' ∈ active → fd' ≠ fd := by
    rintro fd' op' hin rfl
    obtain ⟨rest', hfront'⟩ := h.front fd' op' (List.mem_cons_of_mem _ hin)
    rw [hfront] at hfront'
    obtain ⟨rfl, -⟩ := List.cons.inj hfront'
    exact hsingle.1 (List.mem_filterMap.mpr ⟨_, hin, rfl⟩)
  refine ⟨h.count.trans hs.registered.symm, fun fd' op' hop' => h.read fd' op' (hs.read _ _ hop').1,
    fun fd' op' hop' => h.writes fd' op' ((hs.writes fd').subset hop'),
    fun fd' => (h.distinct fd').sublist (hs.writes fd'), h.canceled, ?_, ?_, ?_,
    fun fd' op' gen done hin => h.finishes fd' op' gen done (List.mem_cons_of_mem _ hin), ?_,
    hsingle.2, h.quiet, h.waiting, ?_, ?_⟩
  · intro op' hop' fd'
    obtain ⟨hout, hout'⟩ := h.moved op' hop' fd'
    exact ⟨fun hin => hout (hs.read _ _ hin).1, fun hin => hout' ((hs.writes fd').subset hin)⟩
  · intro op' hop'
    apply h.known op'
    simp only [List.map_cons, List.mem_append, List.mem_cons] at hop' ⊢
    tauto
  · intro fd' op' gen done hin hop'
    obtain ⟨hin', hgen⟩ := hs.read fd' op' hop'
    exact hgen.trans (h.gens fd' op' gen done (List.mem_cons_of_mem _ hin) hin')
  · intro fd' op' hin
    rw [hwrites, Function.update_of_ne (hother fd' op' hin)]
    exact h.front fd' op' (List.mem_cons_of_mem _ hin)
  · intro fd' op' hop' hone hres
    obtain ⟨gen, done, hin⟩ := h.readResumed fd' op' (hs.read fd' op' hop').1 hone hres
    exact ⟨gen, done, (List.mem_cons.mp hin).resolve_left (by rintro ⟨⟩)⟩
  · intro fd' op' hop' hres
    rcases List.mem_cons.mp (h.writeResumed fd' op' ((hs.writes fd').subset hop') hres) with
      heq | hin
    · cases heq
      exact absurd hop' hgone
    · exact hin

/-- `cancel_fd` takes the entry out; none of its operations is finishing. -/
theorem Coherent.take_entry (h : Coherent q registrations active cancels calls) {fd : ℕ}
    {st : FdState} (hst : q.fds fd = some st)
    (hout : ∀ a ∈ active, OneShot registrations a.op →
      a.op ∉ q.read fd ∧ a.op ∉ q.writes fd) :
    Coherent (q.put fd none) registrations active (st.readOp.toList ++ st.writeQueue ++ cancels)
      calls := by
  have hread : q.read fd = st.readOp := read_of_entry hst
  have hwrites : q.writes fd = st.writeQueue := writes_of_entry hst
  have hs := shrinks_put_none hst
  have hnone : (q.put fd none).read fd = none :=
    (congrFun (read_put q fd none) fd).trans (Function.update_self _ _ _)
  have hnil : (q.put fd none).writes fd = [] :=
    (congrFun (writes_put q fd none) fd).trans (Function.update_self _ _ _)
  have hfd : ∀ fd' op', .write fd' op' ∈ active → fd' ≠ fd := by
    rintro fd' op' hin rfl
    obtain ⟨rest, hfront⟩ := h.front fd' op' hin
    have hin' : op' ∈ q.writes fd' := hfront ▸ List.mem_cons_self
    exact (hout _ hin (h.oneShot_of_writes hin')).2 hin'
  have hold : Coherent (q.put fd none) registrations active cancels calls :=
    h.shrink hs fun fd' op' hin =>
      (congrFun (writes_put q fd none) fd').trans (Function.update_of_ne (hfd fd' op' hin) _ _)
  have hmem : ∀ op, op ∈ st.readOp.toList ++ st.writeQueue → op ∈ q.read fd ∨ op ∈ q.writes fd := by
    intro op hop
    rw [hread, hwrites]
    exact (List.mem_append.mp hop).imp_left Option.mem_toList.mp
  refine ⟨hold.count, hold.read, hold.writes, hold.distinct, ?_, ?_, ?_, hold.gens, hold.finishes,
    hold.front, hold.single, hold.quiet, ?_, hold.readResumed, hold.writeResumed⟩
  · refine List.nodup_append.mpr ⟨?_, h.canceled, ?_⟩
    · refine List.nodup_append.mpr ⟨Option.toList_nodup st.readOp, hwrites ▸ h.distinct fd, ?_⟩
      rintro op₁ hop₁ op₂ hop₂ rfl
      rw [Option.mem_toList, ← hread] at hop₁
      rw [← hwrites] at hop₂
      exact h.not_both hop₁ hop₂
    · rintro op₁ hop₁ op₂ hop₂ rfl
      obtain ⟨hnot, hnot'⟩ := h.moved op₁ hop₂ fd
      exact (hmem op₁ hop₁).elim hnot hnot'
  · intro op hop fd'
    rcases List.mem_append.mp hop with hnew | hwaits
    · rcases hmem op hnew with hin | hin
      · refine ⟨fun hin' => ?_, fun hin' => h.not_both hin ((hs.writes fd').subset hin')⟩
        rw [h.same_fd hin (hs.read fd' op hin').1, hnone] at hin'
        cases hin'
      · refine ⟨fun hin' => h.not_both (hs.read fd' op hin').1 hin, fun hin' => ?_⟩
        rw [h.same_fd_of_writes hin ((hs.writes fd').subset hin'), hnil] at hin'
        cases hin'
    · exact hold.moved op hwaits fd'
  · intro op hop
    rw [List.mem_append, List.mem_append, List.mem_append (s := _ ++ _)] at hop
    rcases hop with ((hnew | hwaits) | hact) | hcall
    · rcases hmem op hnew with hin | hin
      · exact h.known_of_read hin
      · exact h.known_of_writes hin
    · exact h.known_of_cancels hwaits
    · exact h.known_of_active hact
    · exact h.known_of_calls hcall
  · intro op hop hone
    rcases List.mem_append.mp hop with hnew | hwaits
    · rcases hmem op hnew with hin | hin
      · refine h.read_fresh hin (fun _ a ha heq => ?_) hone
        exact (hout a ha (heq ▸ hone)).1 (heq ▸ hin)
      · refine h.writes_fresh hin (fun a ha heq => ?_)
        exact (hout a ha (heq ▸ hone)).2 (heq ▸ hin)
    · exact h.waiting op hwaits hone

theorem Coherent.cancel {op : Op}
    (h : Coherent q registrations active (op :: cancels) calls) :
    Coherent q registrations active cancels (.cancel op :: calls) := by
  obtain ⟨hnot, hnodup⟩ := List.nodup_cons.mp h.canceled
  refine ⟨h.count, h.read, h.writes, h.distinct, hnodup,
    fun op' hop' => h.moved op' (List.mem_cons_of_mem _ hop'), ?_, h.gens, h.finishes, h.front,
    h.single, h.quiet_cons (h.waiting op List.mem_cons_self), ?_, ?_, ?_⟩
  · intro op' hop'
    apply h.known op'
    simp only [List.map_cons, List.mem_append, List.mem_cons, OpCall.op] at hop' ⊢
    tauto
  · intro op' hop' hone hres
    rcases resumed_of_cons op rfl hres with rfl | hold
    · exact hnot hop'
    · exact h.waiting op' (List.mem_cons_of_mem _ hop') hone hold
  · intro fd op' hop' hone hres
    rcases resumed_of_cons op rfl hres with rfl | hold
    · exact absurd hop' (h.moved _ List.mem_cons_self fd).1
    · exact h.readResumed fd op' hop' hone hold
  · intro fd op' hop' hres
    rcases resumed_of_cons op rfl hres with rfl | hold
    · exact absurd hop' (h.moved _ List.mem_cons_self fd).2
    · exact h.writeResumed fd op' hop' hold

end Operations

section Steps

variable {s : State}

def State.Coherent (s : State) : Prop :=
  EasyioLibcCompletions.Coherent s.queue s.registrations s.active s.cancels s.calls

theorem mem_finishing {a : Active} (ha : a ∈ s.active) (hone : OneShot s.registrations a.op) :
    a.op ∈ s.finishing :=
  List.mem_filter.mpr ⟨List.mem_map_of_mem ha, decide_eq_true hone⟩

theorem active_ne {op : Op} (hop : op ∉ s.finishing) (hone : OneShot s.registrations op) :
    ∀ a ∈ s.active, a.op ≠ op := by
  rintro a ha rfl
  exact hop (mem_finishing ha hone)

theorem coherent_cancelNext {q : Queue} {stack : List Frame} {ops : List Op}
    (h : Coherent q s.registrations (stack.filterMap Frame.active)
      (ops ++ stack.flatMap Frame.cancels) s.calls) :
    ({ s with queue := q }.cancelNext stack ops).Coherent := by
  cases ops with
  | nil => exact h
  | cons op ops => exact Coherent.cancel h

theorem done_of_oneShot {op : Op} (hone : OneShot s.registrations op) :
    decide (s.kind op ≠ some .stream) = true := by
  obtain ⟨r, hr, hkind⟩ := hone
  apply decide_eq_true
  intro hstream
  rw [State.kind, hr, Option.map_some] at hstream
  exact hkind (Option.some.inj hstream)

theorem coherent_advance (h : s.Coherent) {resumes : Bool} (g : Apart s (.advance resumes)) :
    (s.advance resumes).Coherent := by
  rcases s with ⟨q, registrations, stack, calls⟩
  rcases stack with - | ⟨⟨tasks⟩ | _ | _, stack⟩
  · exact h
  · rcases tasks with - | ⟨fd | fd | fd, tasks⟩
    · exact h
    · cases hread : q.read fd with
      | none =>
        simp only [State.advance, hread]
        exact h
      | some op =>
        have hfree := active_ne (g op hread)
        simp only [State.advance, hread, State.onReady]
        cases resumes with
        | false =>
          have hknown := h.known_of_read hread
          exact Coherent.again h hknown (h.read_fresh hread hfree)
        | true => exact Coherent.resume_read h hread done_of_oneShot hfree
    · cases hwrites : q.writes fd with
      | nil =>
        simp only [State.advance, hwrites]
        exact h
      | cons op rest =>
        have hop : op ∈ q.writes fd := hwrites ▸ List.mem_cons_self
        have haddressed : op ∈ (q.writes fd).head? := by rw [hwrites]; rfl
        have hfree := active_ne (g op haddressed) (h.oneShot_of_writes hop)
        simp only [State.advance, hwrites, State.onReady]
        cases resumes with
        | false =>
          have hknown := h.known_of_writes hop
          exact Coherent.again h hknown fun _ => h.writes_fresh hop hfree
        | true => exact Coherent.resume_write h hwrites hfree
    · exact Coherent.shrink h (shrinks_eraseEmpty q fd)
        fun fd' _ _ => congrFun (writes_eraseEmpty q fd) fd'
  · exact h
  · exact h

theorem coherent_suspend (h : s.Coherent) : s.suspend.Coherent := by
  rcases s with ⟨q, registrations, stack, calls⟩
  rcases stack with - | ⟨_ | ⟨⟨fd, op, gen, done⟩ | ⟨fd, op⟩, tasks⟩ | ops, stack⟩
  · exact h
  · exact h
  · exact Coherent.suspend_read h
  · exact Coherent.suspend_write h
  · exact coherent_cancelNext (s := ⟨q, registrations, .canceling ops :: stack, calls⟩) h

theorem coherent_cancelFd (h : s.Coherent) {fd : ℕ} (g : Apart s (.cancelFd fd)) :
    (s.cancelFd fd).Coherent := by
  cases hst : s.queue.fds fd with
  | none =>
    simp only [State.cancelFd, hst]
    exact h
  | some st =>
    simp only [State.cancelFd, hst]
    apply coherent_cancelNext
    exact h.take_entry hst fun a ha hone => g a.op (mem_finishing ha hone)

theorem coherent_register (h : s.Coherent) (fd addr : ℕ) (kind : Kind) :
    (s.register fd addr kind).Coherent := by
  apply Coherent.register h
  simp only [State.register]
  cases kind.reads with
  | true => exact registers_setReadOp s.queue fd addr
  | false => exact registers_pushWriteOp s.queue fd addr

theorem coherent_step {e : Event} (h : s.Coherent) (g : Apart s e) : (next s e).Coherent := by
  cases e with
  | register fd addr kind => exact coherent_register h fd addr kind
  | clearReadOp fd addr =>
    refine Coherent.shrink h (shrinks_clearReadOp s.queue fd addr) fun fd' _ _ => ?_
    exact congrFun (congrArg Registrations.writes (view_clearReadOp s.queue fd addr)) fd'
  | cancelFd fd => exact coherent_cancelFd h g
  | step ready => exact h
  | advance resumes => exact coherent_advance h g
  | suspend => exact coherent_suspend h

/-- Once an operation has resumed there is no other call on it to count. -/
theorem resumes_le_one {registrations : List Registration} {calls : List OpCall} {op : Op}
    (hone : OneShot registrations op)
    (hquiet : calls.Pairwise fun later earlier => OneShot registrations earlier.op →
      later.op = earlier.op → earlier.resumes = false) :
    calls.countP (fun c => c.op = op ∧ c.resumes = true) ≤ 1 := by
  induction calls with
  | nil => exact Nat.zero_le 1
  | cons c calls ih =>
    obtain ⟨hc, hcalls⟩ := List.pairwise_cons.mp hquiet
    rw [List.countP_cons]
    by_cases hnew : c.op = op ∧ c.resumes = true
    · have hzero : calls.countP (fun c => c.op = op ∧ c.resumes = true) = 0 := by
        refine List.countP_eq_zero.mpr fun c' hc' htrue => ?_
        obtain ⟨hop, hres⟩ := of_decide_eq_true htrue
        have hnot := hc c' hc' (hop ▸ hone) (hnew.1.trans hop.symm)
        rw [hres] at hnot
        cases hnot
      rw [hzero]
      split <;> omega
    · rw [if_neg (by simpa using hnew)]
      exact ih hcalls

theorem Coherent.completesOnce (h : s.Coherent) : CompletesOnce s where
  once _ hone := resumes_le_one hone h.quiet
  quiet later c earlier hsplit hone hres c' hc' hsame := by
    have hquiet := h.quiet
    rw [hsplit] at hquiet
    have hnot := (List.pairwise_append.mp hquiet).2.2 c' hc' c List.mem_cons_self hone hsame
    rw [hres] at hnot
    cases hnot

end Steps

/-- A one-shot operation completes at most once in every run in which no operation is reached
while it finishes and is still in the table. -/
theorem libc_ops_complete_once {s : State} (h : Run machine Apart initial s) : CompletesOnce s := by
  apply Coherent.completesOnce
  exact h.invariant (I := State.Coherent) coherent_initial fun _ _ hc _ hg => coherent_step hc hg

section Traces

/-- Two descriptors become ready; the coroutine that a finished accept resumes accepts again,
sends on the other one and cancels it, which resumes the suspended send. -/
def cancelsAnother : List Event :=
  [.register 3 100 .accept, .register 7 200 .send, .step [⟨3, true, false⟩, ⟨7, false, true⟩],
    .advance true, .register 3 100 .accept, .register 7 300 .send, .cancelFd 7, .suspend, .suspend,
    .suspend, .advance true]

theorem libc_ops_complete_once_canceled_inside :
    CompletesOnce (runTrace machine initial cancelsAnother) :=
  libc_ops_complete_once (run_of_trace cancelsAnother (by decide +kernel) (by decide +kernel))

/-- A send finishes, and the coroutine it resumes cancels its descriptor. -/
def cancelsOwn : List Event :=
  [.register 3 100 .send, .step [⟨3, false, true⟩], .advance true, .cancelFd 3]

/-- The finished send is still queued: it is canceled, and its coroutine resumed again. -/
theorem finished_op_resumed_again :
    let s := runTrace machine initial cancelsOwn
    Reachable machine initial s ∧ s.calls = [.cancel ⟨100, 0⟩, .onReady ⟨100, 0⟩ true] ∧
      ¬ CompletesOnce s := by
  intro s
  have hcalls : s.calls = [.cancel ⟨100, 0⟩, .onReady ⟨100, 0⟩ true] := by decide +kernel
  refine ⟨reachable_of_trace cancelsOwn (by decide +kernel), hcalls, fun h => ?_⟩
  have hone : OneShot s.registrations ⟨100, 0⟩ := by decide +kernel
  have hcount := h.once ⟨100, 0⟩ hone
  rw [hcalls] at hcount
  exact absurd hcount (by decide)

end Traces

end EasyioLibcCompletions
