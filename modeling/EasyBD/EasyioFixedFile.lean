import EasyBD.EasyioQueue

/-! `_use_fixed_file`: the io_uring queue keeps the number of the one descriptor it has
registered, the ring keeps the file behind it, and `open` and `close` change what the number
denotes. -/
namespace EasyioFixedFile

inductive FileCall where
  | pread (size : ℕ) (offset : UInt64)
  | pwrite (data : List UInt8) (offset : UInt64)
  | pwriteDsync (data : List UInt8) (offset : UInt64)
  deriving DecidableEq, Repr

variable {φ : Type*}

/-- The process's descriptors; `φ` are the open files. -/
abbrev FdTable (φ : Type*) := ℕ → Option φ

/-- A file call and the file the kernel performs it on; `none` is `EBADF`. -/
structure Access (φ : Type*) where
  call : FileCall
  target : Option φ
  deriving DecidableEq

/-- `slot` is index 0 of the ring's fixed files. -/
structure Queue (φ : Type*) where
  table : FdTable φ
  registeredFd : Option ℕ
  slot : Option φ

def Queue.create (table : FdTable φ) : Queue φ := ⟨table, none, none⟩

namespace Queue

/-- `registers` is the outcome of `io_uring_register_files`, which fails on a closed
descriptor in any case. -/
def useFixedFile (q : Queue φ) (fd : ℕ) (registers : Bool) : Bool × Queue φ :=
  if q.registeredFd = some fd then (true, q)
  else if q.registeredFd ≠ none then (false, q)
  else if registers = true ∧ (q.table fd).isSome then
    (true, { q with registeredFd := some fd, slot := q.table fd })
  else (false, q)

/-- The SQE that the three file functions prepare, with or without `IOSQE_FIXED_FILE`. -/
def submit (q : Queue φ) (fd : ℕ) (registers : Bool) (call : FileCall) : Access φ × Queue φ :=
  let (fixed, q) := q.useFixedFile fd registers
  (⟨call, if fixed then q.slot else q.table fd⟩, q)

def pread (q : Queue φ) (fd size : ℕ) (offset : UInt64) (registers : Bool) :=
  q.submit fd registers (.pread size offset)

def pwrite (q : Queue φ) (fd : ℕ) (data : List UInt8) (offset : UInt64) (registers : Bool) :=
  q.submit fd registers (.pwrite data offset)

def pwriteDsync (q : Queue φ) (fd : ℕ) (data : List UInt8) (offset : UInt64)
    (registers : Bool) :=
  q.submit fd registers (.pwriteDsync data offset)

def file (q : Queue φ) (fd : ℕ) (registers : Bool) : FileCall → Access φ × Queue φ
  | .pread size offset => q.pread fd size offset registers
  | .pwrite data offset => q.pwrite fd data offset registers
  | .pwriteDsync data offset => q.pwriteDsync fd data offset registers

theorem file_eq (q : Queue φ) (fd : ℕ) (registers : Bool) (call : FileCall) :
    q.file fd registers call = q.submit fd registers call := by
  cases call <;> rfl

end Queue

/-- One awaited operation with what the kernel answers: the number `open` returns, and
whether a registration would succeed. -/
inductive Op (φ : Type*) where
  | open (fd : ℕ) (f : φ)
  | openFailed
  | close (fd : ℕ)
  | file (call : FileCall) (fd : ℕ) (registers : Bool)

def FdTable.set (t : FdTable φ) (fd : ℕ) (f : Option φ) : FdTable φ :=
  fun n => if n = fd then f else t n

/-- What the descriptors denote after an operation, on either queue. -/
def FdTable.after (t : FdTable φ) : Op φ → FdTable φ
  | .open fd f => t.set fd (some f)
  | .close fd => t.set fd none
  | .openFailed | .file _ _ _ => t

def libcAccesses (t : FdTable φ) : List (Op φ) → List (Access φ)
  | [] => []
  | .file call fd _ :: ops => ⟨call, t fd⟩ :: libcAccesses t ops
  | op :: ops => libcAccesses (t.after op) ops

def uringAccesses (q : Queue φ) : List (Op φ) → List (Access φ)
  | [] => []
  | .file call fd registers :: ops =>
    (q.file fd registers call).1 :: uringAccesses (q.file fd registers call).2 ops
  | op :: ops => uringAccesses { q with table := q.table.after op } ops

def denotes (t : FdTable φ) (ops : List (Op φ)) (fd : ℕ) : Option φ :=
  ops.foldl FdTable.after t fd

def Keeps (t : FdTable φ) (fd : ℕ) (f : Option φ) (ops : List (Op φ)) : Prop :=
  ∀ before call registers after, ops = before ++ .file call fd registers :: after →
    denotes t before fd = f

/-- No file call has been offered the ring a descriptor that it took. -/
def NoneRegistered (t : FdTable φ) (ops : List (Op φ)) : Prop :=
  ∀ before call fd after, ops = before ++ .file call fd true :: after → denotes t before fd = none

/-- Whenever a file call uses the number that was registered, by the first file call whose
registration succeeded, the number still denotes the file it denoted then. -/
def RegisteredKept (t : FdTable φ) (ops : List (Op φ)) : Prop :=
  ∀ before call fd after, ops = before ++ .file call fd true :: after → NoneRegistered t before →
    denotes t before fd ≠ none → Keeps (before.foldl FdTable.after t) fd (denotes t before fd) after

theorem Op.file_or_other (op : Op φ) : (∃ call fd registers, op = .file call fd registers) ∨
    ∀ call fd registers, op ≠ .file call fd registers := by
  cases op with
  | file call fd registers => exact Or.inl ⟨call, fd, registers, rfl⟩
  | _ => exact Or.inr (by rintro _ _ _ ⟨⟩)

section Histories

variable {t : FdTable φ} {op : Op φ} {ops : List (Op φ)} {fd : ℕ} {f : Option φ}

@[simp] theorem denotes_nil (t : FdTable φ) (fd : ℕ) : denotes t [] fd = t fd := rfl

@[simp] theorem denotes_cons (t : FdTable φ) (op : Op φ) (ops : List (Op φ)) (fd : ℕ) :
    denotes t (op :: ops) fd = denotes (t.after op) ops fd := rfl

theorem keeps_nil : Keeps t fd f [] := by
  intro before call registers after h
  simp at h

theorem keeps_cons : Keeps t fd f (op :: ops) ↔
    (∀ call registers, op = .file call fd registers → t fd = f) ∧
      Keeps (t.after op) fd f ops := by
  constructor
  · intro h
    refine ⟨fun call registers heq => ?_, fun before call registers after heq => ?_⟩
    · exact h [] call registers ops (by rw [heq, List.nil_append])
    · exact h (op :: before) call registers after (by rw [heq, List.cons_append])
  · rintro ⟨hhead, htail⟩ before call registers after heq
    cases before with
    | nil => exact hhead call registers (List.cons.inj heq).1
    | cons op' before =>
      obtain ⟨rfl, hrest⟩ := List.cons.inj heq
      exact htail before call registers after hrest

theorem libcAccesses_other (h : ∀ call fd registers, op ≠ .file call fd registers) :
    libcAccesses t (op :: ops) = libcAccesses (t.after op) ops := by
  cases op with
  | file call fd registers => exact absurd rfl (h call fd registers)
  | _ => rfl

theorem uringAccesses_other {q : Queue φ} (h : ∀ call fd registers, op ≠ .file call fd registers) :
    uringAccesses q (op :: ops) = uringAccesses { q with table := q.table.after op } ops := by
  cases op with
  | file call fd registers => exact absurd rfl (h call fd registers)
  | _ => rfl

end Histories

theorem submit_registered {q : Queue φ} {fd : ℕ} (hfd : q.registeredFd = some fd) (n : ℕ)
    (registers : Bool) (call : FileCall) :
    q.submit n registers call = (⟨call, if n = fd then q.slot else q.table n⟩, q) := by
  by_cases hn : n = fd
  · simp [Queue.submit, Queue.useFixedFile, hfd, hn]
  · have hne : ¬ fd = n := fun h => hn h.symm
    simp [Queue.submit, Queue.useFixedFile, hfd, hn, hne]

theorem submit_unregistered {q : Queue φ} (hfd : q.registeredFd = none) (n : ℕ)
    (registers : Bool) (call : FileCall) :
    q.submit n registers call = (⟨call, q.table n⟩,
      if registers = true ∧ q.table n ≠ none then
        { q with registeredFd := some n, slot := q.table n }
      else q) := by
  by_cases hr : registers = true ∧ q.table n ≠ none
  · have hsome : (q.table n).isSome = true := Option.isSome_iff_ne_none.mpr hr.2
    simp [Queue.submit, Queue.useFixedFile, hfd, hr, hsome]
  · have hnone : ¬ (registers = true ∧ (q.table n).isSome = true) := by
      rwa [Option.isSome_iff_ne_none]
    simp [Queue.submit, Queue.useFixedFile, hfd, hr, hnone]

/-- Once `fd` is registered only its own calls can go astray. -/
theorem accesses_registered {q : Queue φ} {fd : ℕ} (hfd : q.registeredFd = some fd)
    (ops : List (Op φ)) :
    uringAccesses q ops = libcAccesses q.table ops ↔ Keeps q.table fd q.slot ops := by
  induction ops generalizing q with
  | nil => exact iff_of_true rfl keeps_nil
  | cons op ops ih =>
    rw [keeps_cons]
    rcases op.file_or_other with ⟨call, n, registers, rfl⟩ | hother
    · rw [uringAccesses, libcAccesses, Queue.file_eq, submit_registered hfd, List.cons.injEq,
        ih hfd]
      refine and_congr ⟨?_, ?_⟩ Iff.rfl
      · intro haccess call' registers' heq
        obtain ⟨-, rfl, -⟩ := Op.file.inj heq
        have htarget := (Access.mk.inj haccess).2
        rw [if_pos rfl] at htarget
        exact htarget.symm
      · intro hkeeps
        by_cases hn : n = fd
        · subst hn
          rw [if_pos rfl, hkeeps call registers rfl]
        · rw [if_neg hn]
    · have hrest := ih (q := { q with table := q.table.after op }) hfd
      rw [uringAccesses_other hother, libcAccesses_other hother, hrest]
      constructor
      · exact fun h => ⟨fun call registers heq => absurd heq (hother call fd registers), h⟩
      · exact And.right

theorem noneRegistered_nil {t : FdTable φ} : NoneRegistered t ([] : List (Op φ)) := by
  intro before call fd after h
  simp at h

theorem noneRegistered_cons {t : FdTable φ} {op : Op φ} {ops : List (Op φ)} :
    NoneRegistered t (op :: ops) ↔ (∀ call fd, op = .file call fd true → t fd = none) ∧
      NoneRegistered (t.after op) ops := by
  constructor
  · intro h
    refine ⟨fun call fd heq => ?_, fun before call fd after heq => ?_⟩
    · exact h [] call fd ops (by rw [heq, List.nil_append])
    · exact h (op :: before) call fd after (by rw [heq, List.cons_append])
  · rintro ⟨hhead, htail⟩ before call fd after heq
    cases before with
    | nil => exact hhead call fd (List.cons.inj heq).1
    | cons op' before =>
      obtain ⟨rfl, hrest⟩ := List.cons.inj heq
      exact htail before call fd after hrest

theorem registeredKept_cons {t : FdTable φ} {op : Op φ} {ops : List (Op φ)} :
    RegisteredKept t (op :: ops) ↔
      (∀ call fd, op = .file call fd true → t fd ≠ none → Keeps t fd (t fd) ops) ∧
      ((∀ call fd, op = .file call fd true → t fd = none) → RegisteredKept (t.after op) ops) := by
  constructor
  · intro h
    refine ⟨fun call fd heq hopen => ?_, fun hhead before call fd after heq hnone hopen => ?_⟩
    · exact h [] call fd ops (by rw [heq, List.nil_append]) noneRegistered_nil hopen
    · exact h (op :: before) call fd after (by rw [heq, List.cons_append])
        (noneRegistered_cons.mpr ⟨hhead, hnone⟩) hopen
  · rintro ⟨hhead, htail⟩ before call fd after heq hnone hopen
    cases before with
    | nil =>
      obtain ⟨hop, rfl⟩ := List.cons.inj heq
      exact hhead call fd hop hopen
    | cons op' before =>
      obtain ⟨rfl, hrest⟩ := List.cons.inj heq
      obtain ⟨hfirst, hrestnone⟩ := noneRegistered_cons.mp hnone
      exact htail hfirst before call fd after hrest hrestnone hopen

theorem registeredKept_nil {t : FdTable φ} : RegisteredKept t ([] : List (Op φ)) := by
  intro before call fd after h
  simp at h

theorem accesses_unregistered {q : Queue φ} (hfd : q.registeredFd = none) (ops : List (Op φ)) :
    uringAccesses q ops = libcAccesses q.table ops ↔ RegisteredKept q.table ops := by
  induction ops generalizing q with
  | nil => exact iff_of_true rfl registeredKept_nil
  | cons op ops ih =>
    rw [registeredKept_cons]
    rcases op.file_or_other with ⟨call, n, registers, rfl⟩ | hother
    · rw [uringAccesses, libcAccesses, Queue.file_eq, submit_unregistered hfd, List.cons.injEq]
      by_cases hr : registers = true ∧ q.table n ≠ none
      · -- from here on the slot holds what `n` denotes now
        obtain ⟨rfl, hopen⟩ := hr
        have hrest := accesses_registered (φ := φ)
          (q := { q with registeredFd := some n, slot := q.table n }) rfl ops
        rw [if_pos ⟨rfl, hopen⟩, hrest]
        constructor
        · rintro ⟨-, hkeeps⟩
          refine ⟨?_, fun hnone => absurd (hnone call n rfl) hopen⟩
          rintro call' fd' heq -
          obtain ⟨-, rfl, -⟩ := Op.file.inj heq
          exact hkeeps
        · rintro ⟨hkeeps, -⟩
          exact ⟨rfl, hkeeps call n rfl hopen⟩
      · rw [if_neg hr, ih hfd]
        have hnone : ∀ call' fd', (.file call n registers : Op φ) = .file call' fd' true →
            q.table fd' = none := by
          intro call' fd' heq
          obtain ⟨-, rfl, rfl⟩ := Op.file.inj heq
          by_contra hopen
          exact hr ⟨rfl, hopen⟩
        constructor
        · rintro ⟨-, hkept⟩
          exact ⟨fun call' fd' heq hopen => absurd (hnone call' fd' heq) hopen, fun _ => hkept⟩
        · rintro ⟨-, hkept⟩
          exact ⟨rfl, hkept hnone⟩
    · have hrest := ih (q := { q with table := q.table.after op }) hfd
      rw [uringAccesses_other hother, libcAccesses_other hother, hrest]
      constructor
      · exact fun h => ⟨fun call n heq => absurd heq (hother call n true), fun _ => h⟩
      · exact fun h => h.2 fun call n heq => absurd heq (hother call n true)

/-- The file calls of a history act on the files that the same history acts on with a libc
queue, that is on what each descriptor denotes at its call. -/
theorem fixed_file_transparent_iff (table : FdTable φ) (ops : List (Op φ)) :
    uringAccesses (.create table) ops = libcAccesses table ops ↔ RegisteredKept table ops :=
  accesses_unregistered rfl ops

theorem denotes_of_not_closed {t : FdTable φ} {fd : ℕ} {ops : List (Op φ)}
    (hclose : ∀ op ∈ ops, op ≠ .close fd) (hopen : ∀ op ∈ ops, ∀ f, op ≠ .open fd f) :
    denotes t ops fd = t fd := by
  induction ops generalizing t with
  | nil => rfl
  | cons op ops ih =>
    rw [denotes_cons, ih (fun op' h => hclose op' (List.mem_cons_of_mem _ h))
      fun op' h => hopen op' (List.mem_cons_of_mem _ h)]
    have hne := hclose op List.mem_cons_self
    have hne' := hopen op List.mem_cons_self
    cases op with
    | «open» n f =>
      have hn : fd ≠ n := by
        rintro rfl
        exact hne' f rfl
      simp [FdTable.after, FdTable.set, hn]
    | close n =>
      have hn : fd ≠ n := by
        rintro rfl
        exact hne rfl
      simp [FdTable.after, FdTable.set, hn]
    | openFailed => rfl
    | file call n registers => rfl

/-- The server's use: file calls on its backing file only, which it never closes. -/
theorem backing_file_transparent {table : FdTable φ} {ops : List (Op φ)} (fileFd : ℕ)
    (honly : ∀ call fd registers, .file call fd registers ∈ ops → fd = fileFd)
    (hclose : ∀ op ∈ ops, op ≠ .close fileFd) (hopen : ∀ op ∈ ops, ∀ f, op ≠ .open fileFd f) :
    uringAccesses (.create table) ops = libcAccesses table ops := by
  refine (accesses_unregistered rfl ops).mpr ?_
  rintro before call fd after rfl - - front call' registers rest rfl
  obtain rfl := honly call fd true (by simp)
  have hmem (op : Op φ) (h : op ∈ front) :
      op ∈ before ++ .file call fd true :: (front ++ .file call' fd registers :: rest) := by
    simp [h]
  exact denotes_of_not_closed (fun op h => hclose op (hmem op h)) fun op h => hopen op (hmem op h)

/-- Descriptor 3 is written, closed, and returned again for another file. -/
def reused : List (Op ℕ) :=
  [.open 3 100, .file (.pwrite [7] 0) 3 true, .close 3, .open 3 200, .file (.pwrite [8] 0) 3 true]

theorem stale_registration : uringAccesses (.create fun _ => none) reused =
      [⟨.pwrite [7] 0, some 100⟩, ⟨.pwrite [8] 0, some 100⟩] ∧
    libcAccesses (fun _ => none) reused =
      [⟨.pwrite [7] 0, some 100⟩, ⟨.pwrite [8] 0, some 200⟩] ∧
    uringAccesses (.create fun _ => none) reused ≠ libcAccesses (fun _ => none) reused := by
  decide

end EasyioFixedFile
