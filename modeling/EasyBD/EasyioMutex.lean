import Mathlib.Data.List.Basic

/-! `easyio::Mutex`. A waiter is the suspended coroutine itself; `unlock` returns the one
to resume, and `_locked` stays true across that hand-off. -/
namespace EasyioMutex

variable {κ : Type*}

structure Mutex (κ : Type*) where
  locked : Bool
  waiters : List κ
  deriving DecidableEq

def Mutex.initial : Mutex κ := ⟨false, []⟩

/-- `LockAwaiter::await_ready` when the mutex is free. -/
def Mutex.take (m : Mutex κ) : Mutex κ := { m with locked := true }

/-- `LockAwaiter::await_suspend`. -/
def Mutex.wait (m : Mutex κ) (h : κ) : Mutex κ := { m with waiters := m.waiters ++ [h] }

def Mutex.unlock (m : Mutex κ) : Option κ × Mutex κ :=
  match m.waiters with
  | h :: waiters => (some h, { m with waiters })
  | [] => (none, { m with locked := false })

theorem Mutex.unlock_cons {m : Mutex κ} {h : κ} {waiters : List κ} (hw : m.waiters = h :: waiters) :
    m.unlock = (some h, { m with waiters }) := by
  rw [Mutex.unlock, hw]

theorem Mutex.unlock_nil {m : Mutex κ} (hw : m.waiters = []) :
    m.unlock = (none, { m with locked := false }) := by
  rw [Mutex.unlock, hw]

/-- The lock is free only when nobody waits for it, and held by exactly `holders`
coroutines, so by at most one. -/
structure Mutex.Exclusive (m : Mutex κ) (holders : ℕ) : Prop where
  held : holders = if m.locked then 1 else 0
  waiting : m.waiters ≠ [] → m.locked

theorem Mutex.Exclusive.initial : (Mutex.initial : Mutex κ).Exclusive 0 :=
  ⟨rfl, fun h => absurd rfl h⟩

theorem Mutex.Exclusive.take {m : Mutex κ} {n : ℕ} (h : m.Exclusive n) (hl : m.locked = false) :
    m.take.Exclusive (n + 1) where
  held := by have := h.held; simp only [hl] at this; simpa [Mutex.take] using this
  waiting := fun _ => rfl

theorem Mutex.Exclusive.wait {m : Mutex κ} {n : ℕ} (h : m.Exclusive n) (hl : m.locked = true)
    (c : κ) : (m.wait c).Exclusive n where
  held := h.held
  waiting := fun _ => hl

theorem Mutex.Exclusive.unlock {m : Mutex κ} (h : m.Exclusive 1) :
    m.unlock.2.Exclusive (if m.unlock.1.isSome then 1 else 0) := by
  rcases m with ⟨_ | _, waiters⟩
  · exact absurd h.held Nat.one_ne_zero
  · cases waiters with
    | nil => exact ⟨rfl, fun hn => absurd rfl hn⟩
    | cons c waiters => exact ⟨rfl, fun _ => rfl⟩

theorem Mutex.Exclusive.le_one {m : Mutex κ} {n : ℕ} (h : m.Exclusive n) : n ≤ 1 := by
  rw [h.held]; split <;> omega

end EasyioMutex
