import Mathlib.Data.Nat.Find
import EasyBD.EasyioQueue

/-! `accept_loop` on the libc backend, from one return to `step()` to the next. It leaves the
thread only where `AcceptAwaiter` suspends, which is on `EAGAIN` alone. -/
namespace EasybdAcceptLoop

open EasyioQueue

inductive Accept4 where
  | accepted (fd : ℕ)
  | again
  | failed (err : Errno)
  deriving DecidableEq

/-- `AcceptAwaiter::_try`; `none` is its `false`. -/
def tryAccept : Accept4 → Option (Except Errno ℕ)
  | .accepted fd => some (.ok fd)
  | .again => none
  | .failed err => some (.error err)

/-- The calls of `accept4` so far, and the connections handed to `accept_one`. -/
structure Activation where
  calls : ℕ
  accepted : List ℕ
  deriving DecidableEq

def Activation.initial : Activation := ⟨0, []⟩

/-- The body of the loop once `queue.accept` has returned or thrown; `none` is `co_return`. -/
def afterAccept (shutdown : Bool) (a : Activation) : Except Errno ℕ → Option Activation
  | .ok fd => some { a with accepted := a.accepted ++ [fd] }
  | .error _ => if shutdown then none else some a

inductive Outcome where
  | suspended (a : Activation)
  | returned (a : Activation)
  | running (a : Activation)
  deriving DecidableEq

def Outcome.calls : Outcome → ℕ
  | .suspended a | .returned a | .running a => a.calls

/-- `accept4 k` is what call number `k` returns. Each round of fuel is one call. -/
def acceptLoop (shutdown : Bool) (accept4 : ℕ → Accept4) : ℕ → Activation → Outcome
  | 0, a => .running a
  | fuel + 1, a =>
    let called := { a with calls := a.calls + 1 }
    match tryAccept (accept4 a.calls) with
    | none => .suspended called
    | some r =>
      match afterAccept shutdown called r with
      | none => .returned called
      | some a => acceptLoop shutdown accept4 fuel a

/-- `AcceptAwaiter::on_ready`: the first call is made before the loop is resumed. -/
def onReady (shutdown : Bool) (accept4 : ℕ → Accept4) (fuel : ℕ) : Outcome :=
  let called : Activation := ⟨1, []⟩
  match tryAccept (accept4 0) with
  | none => .suspended called
  | some r =>
    match afterAccept shutdown called r with
    | none => .returned called
    | some a => acceptLoop shutdown accept4 fuel a

/-- An error stays until the worker closes a connection, and between two calls of one
activation that follow an error it closes none. -/
def Persistent (accept4 : ℕ → Accept4) : Prop :=
  ∀ k err, accept4 k = .failed err → accept4 (k + 1) = .failed err

/-- The loop makes finitely many calls and suspends, so that `step()` goes on. -/
structure ReturnsToStep (accept4 : ℕ → Accept4) : Prop where
  finite : ∃ n, ∀ fuel, (acceptLoop false accept4 fuel .initial).calls ≤ n
  suspends : ∃ fuel a, acceptLoop false accept4 fuel .initial = .suspended a

section Loop

variable {accept4 : ℕ → Accept4}

theorem acceptLoop_goes_on {a : Activation} (h : accept4 a.calls ≠ .again) (fuel : ℕ) :
    ∃ accepted, acceptLoop false accept4 (fuel + 1) a =
      acceptLoop false accept4 fuel ⟨a.calls + 1, accepted⟩ := by
  cases hr : accept4 a.calls with
  | accepted fd => exact ⟨a.accepted ++ [fd], by simp [acceptLoop, hr, tryAccept, afterAccept]⟩
  | failed err => exact ⟨a.accepted, by simp [acceptLoop, hr, tryAccept, afterAccept]⟩
  | again => exact absurd hr h

theorem acceptLoop_running {fuel : ℕ} {a : Activation}
    (h : ∀ k, a.calls ≤ k → k < a.calls + fuel → accept4 k ≠ .again) :
    ∃ accepted, acceptLoop false accept4 fuel a = .running ⟨a.calls + fuel, accepted⟩ := by
  induction fuel generalizing a with
  | zero => exact ⟨a.accepted, rfl⟩
  | succ fuel ih =>
    obtain ⟨accepted, hnext⟩ := acceptLoop_goes_on (h a.calls le_rfl (by omega)) fuel
    obtain ⟨accepted', hrest⟩ := ih (a := ⟨a.calls + 1, accepted⟩) fun k hle hlt =>
      h k (Nat.le_of_succ_le hle) (by simp only at hlt; omega)
    refine ⟨accepted', ?_⟩
    rw [hnext, hrest]
    simp only [Nat.add_assoc, Nat.add_comm 1]

theorem acceptLoop_suspends {n : ℕ} {a : Activation} (hagain : accept4 (a.calls + n) = .again)
    (hfirst : ∀ k, a.calls ≤ k → k < a.calls + n → accept4 k ≠ .again) (fuel : ℕ) :
    ∃ accepted, acceptLoop false accept4 (n + 1 + fuel) a =
      .suspended ⟨a.calls + n + 1, accepted⟩ := by
  induction n generalizing a with
  | zero =>
    refine ⟨a.accepted, ?_⟩
    rw [Nat.zero_add, Nat.add_comm, acceptLoop]
    rw [Nat.add_zero] at hagain
    simp [hagain, tryAccept]
  | succ n ih =>
    obtain ⟨accepted, hnext⟩ := acceptLoop_goes_on (hfirst a.calls le_rfl (by omega)) (n + 1 + fuel)
    obtain ⟨accepted', hrest⟩ := ih (a := ⟨a.calls + 1, accepted⟩)
      (by rw [← hagain]; congr 1; simp only; omega)
      fun k hle hlt => hfirst k (Nat.le_of_succ_le hle) (by simp only at hlt; omega)
    refine ⟨accepted', ?_⟩
    rw [show n + 1 + 1 + fuel = n + 1 + fuel + 1 by omega, hnext, hrest]
    congr 2
    simp only
    omega

theorem Persistent.failed_le (h : Persistent accept4) {j k : ℕ} {err : Errno}
    (hj : accept4 j = .failed err) (hle : j ≤ k) : accept4 k = .failed err := by
  induction hle with
  | refl => exact hj
  | step _ ih => exact h _ _ ih

end Loop

theorem returnsToStep_of_again {accept4 : ℕ → Accept4} (h : ∃ k, accept4 k = .again) :
    ReturnsToStep accept4 := by
  have hagain := Nat.find_spec h
  have hfirst (k : ℕ) (hk : k < Nat.find h) : accept4 k ≠ .again := Nat.find_min h hk
  generalize Nat.find h = n at hagain hfirst
  have hsuspends (fuel : ℕ) : ∃ accepted, acceptLoop false accept4 (n + 1 + fuel) .initial =
      .suspended ⟨0 + n + 1, accepted⟩ :=
    acceptLoop_suspends (a := .initial) (by rw [← hagain, Activation.initial, Nat.zero_add])
      (fun k _ hk => hfirst k (by simpa [Activation.initial] using hk)) fuel
  constructor
  · refine ⟨n + 1, fun fuel => ?_⟩
    by_cases hfuel : fuel ≤ n
    · have hbelow (k : ℕ) (_ : 0 ≤ k) (hk : k < 0 + fuel) : accept4 k ≠ .again :=
        hfirst k (by omega)
      obtain ⟨accepted, hrunning⟩ := acceptLoop_running (a := .initial) hbelow
      rw [hrunning]
      simp only [Outcome.calls, Activation.initial]
      omega
    · obtain ⟨accepted, hsuspended⟩ := hsuspends (fuel - (n + 1))
      rw [Nat.add_sub_cancel' (by omega)] at hsuspended
      rw [hsuspended]
      simp only [Outcome.calls]
      omega
  · obtain ⟨accepted, hsuspended⟩ := hsuspends 0
    exact ⟨_, _, hsuspended⟩

theorem accept_loop_returns_to_step_iff {accept4 : ℕ → Accept4} (h : Persistent accept4) :
    ReturnsToStep accept4 ↔
      ∃ k, accept4 k = .again ∧ ∀ j < k, ∀ err, accept4 j ≠ .failed err := by
  constructor
  · rintro ⟨-, fuel, a, hsuspended⟩
    by_contra hnone
    have hnever : ∀ k, accept4 k ≠ .again := by
      intro k hk
      refine hnone ⟨k, hk, fun j hj err hfailed => ?_⟩
      have hsame := h.failed_le hfailed (Nat.le_of_lt hj)
      rw [hk] at hsame
      cases hsame
    have hrounds (k : ℕ) (_ : 0 ≤ k) (_ : k < 0 + fuel) : accept4 k ≠ .again := hnever k
    obtain ⟨accepted, hrunning⟩ := acceptLoop_running (a := .initial) hrounds
    rw [hsuspended] at hrunning
    cases hrunning
  · rintro ⟨k, hk, -⟩
    exact returnsToStep_of_again ⟨k, hk⟩

def twoWaiting : ℕ → Accept4
  | 0 => .accepted 7
  | 1 => .accepted 8
  | _ => .again

theorem accept_loop_returns_to_step_iff_two_waiting : ReturnsToStep twoWaiting := by
  have hnofail (k : ℕ) (err : Errno) : twoWaiting k ≠ .failed err := by
    unfold twoWaiting
    split <;> exact fun h => Accept4.noConfusion h
  exact (accept_loop_returns_to_step_iff fun k err h => absurd h (hnofail k err)).mpr
    ⟨2, rfl, fun j _ err => hnofail j err⟩

example : acceptLoop false twoWaiting 5 .initial = .suspended ⟨3, [7, 8]⟩ := by decide

def emfile : Errno := ⟨24, by decide, by decide⟩

/-- With no descriptor left the loop calls `accept4` for good. -/
theorem accept_loop_spins : Persistent (fun _ => .failed emfile) ∧
    (∀ fuel, acceptLoop false (fun _ => .failed emfile) fuel .initial = .running ⟨fuel, []⟩) ∧
    ¬ ReturnsToStep (fun _ => .failed emfile) := by
  have hspins (fuel : ℕ) (a : Activation) :
      acceptLoop false (fun _ => .failed emfile) fuel a =
        .running { a with calls := a.calls + fuel } := by
    induction fuel generalizing a with
    | zero => rfl
    | succ fuel ih =>
      simp only [acceptLoop, tryAccept, afterAccept, Bool.false_eq_true, if_false, ih]
      congr 2
      omega
  refine ⟨fun _ _ h => h, fun fuel => ?_, fun h => ?_⟩
  · rw [hspins, Activation.initial, Nat.zero_add]
  · obtain ⟨fuel, a, hsuspended⟩ := h.suspends
    rw [hspins] at hsuspended
    cases hsuspended

end EasybdAcceptLoop
