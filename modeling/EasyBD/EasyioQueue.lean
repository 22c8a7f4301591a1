import Mathlib.Data.List.Basic

/-! What a coroutine sees of `easyio::Queue`: the backend, and how an awaited send or file
operation can come back. -/
namespace EasyioQueue

inductive Backend where
  | ioUring
  | libc
  deriving DecidableEq, Repr

structure Errno where
  val : ℕ
  pos : 0 < val
  lt : val < 4096
  deriving DecidableEq

def einval : Errno := ⟨22, by decide, by decide⟩

/-- One step of an awaited `send`/`sendmsg`: the coroutine stays suspended, resumes with a
count, or resumes with an exception. -/
inductive SendOutcome where
  | suspended
  | accepted (n : ℕ)
  | failed
  deriving DecidableEq, Repr

/-- The call itself: libc tries at once and registers on `EAGAIN`; io_uring only queues an
SQE, and fails at once when it gets none. -/
def SendOutcome.AtCall (b : Backend) : SendOutcome → Prop
  | .suspended => True
  | .accepted _ => b = .libc
  | .failed => True

/-- A later event on a registered operation: libc may meet `EAGAIN` again. -/
def SendOutcome.AtEvent (b : Backend) : SendOutcome → Prop
  | .suspended => b = .libc
  | .accepted _ => True
  | .failed => True

def SendOutcome.count : SendOutcome → Option ℕ
  | .accepted n => some n
  | _ => none

theorem SendOutcome.count_ne_none {o : SendOutcome} (settled : o ≠ .suspended) (ok : o ≠ .failed) :
    o.count ≠ none := by
  cases o <;> simp_all [count]

instance (b : Backend) (o : SendOutcome) : Decidable (o.AtCall b) := by
  cases o <;> simp only [SendOutcome.AtCall] <;> infer_instance

instance (b : Backend) (o : SendOutcome) : Decidable (o.AtEvent b) := by
  cases o <;> simp only [SendOutcome.AtEvent] <;> infer_instance

/-- The kernel reports between one byte and everything it was offered. -/
def SendOutcome.Within (offered : ℕ) : SendOutcome → Prop
  | .accepted n => 0 < n ∧ n ≤ offered
  | _ => True

instance (offered : ℕ) (o : SendOutcome) : Decidable (o.Within offered) := by
  cases o <;> simp only [SendOutcome.Within] <;> infer_instance

end EasyioQueue
