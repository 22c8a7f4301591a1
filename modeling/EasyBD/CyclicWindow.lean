import Mathlib.Order.Interval.Finset.Nat
import Mathlib.Data.List.Basic

/-! Consecutive slots of a ring. A window is given by how many slots have passed before it, a
number that only grows; the ring sees it modulo its size. -/
namespace CyclicWindow

/-- The `k` slots of a ring of `n` from number `first` on. -/
def window (n first k : ℕ) : List ℕ := (List.range' first k).map (· % n)

variable {n first k : ℕ}

@[simp] theorem window_length : (window n first k).length = k := by
  simp [window]

@[simp] theorem window_zero : window n first 0 = [] := rfl

theorem window_succ : window n first (k + 1) = window n first k ++ [(first + k) % n] := by
  simp [window, List.range'_concat]

theorem window_drop (j : ℕ) : (window n first k).drop j = window n (first + j) (k - j) := by
  rw [window, ← List.map_drop, List.drop_range']
  simp [window]

theorem window_nodup (hk : k ≤ n) : (window n first k).Nodup := by
  refine List.Nodup.map_on ?_ List.nodup_range'
  intro a ha b hb hab
  have hmem {c : ℕ} (hc : c ∈ List.range' first k) :
      c ∈ (Finset.Ico first (first + n) : Set ℕ) := by
    rw [List.mem_range'_1] at hc
    rw [Finset.mem_coe, Finset.mem_Ico]
    omega
  exact Nat.mod_injOn_Ico first n (hmem ha) (hmem hb) hab

/-- As long as a slot is free, the next one is. -/
theorem next_notMem (hk : k < n) : (first + k) % n ∉ window n first k := by
  have hnodup : (window n first (k + 1)).Nodup := window_nodup hk
  rw [window_succ] at hnodup
  intro hmem
  exact (List.nodup_append.mp hnodup).2.2 _ hmem _ (List.mem_singleton_self _) rfl

end CyclicWindow
