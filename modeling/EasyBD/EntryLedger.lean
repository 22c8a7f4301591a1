import Mathlib.Data.List.AList
import Mathlib.Data.Multiset.Range

/-! Accounting for numbered tasks. A table holds the tasks that are open under some key;
`open ++ closed` is a permutation of all numbers given out. -/
namespace EntryLedger

variable {κ β : Type*} [DecidableEq κ]

def values (m : AList fun _ : κ => β) : List β := m.entries.map Sigma.snd

theorem mem_values_of_lookup {m : AList fun _ : κ => β} {a : κ} {b : β} (h : m.lookup a = some b) :
    b ∈ values m :=
  List.mem_map.mpr ⟨⟨a, b⟩, AList.mem_lookup_iff.mp h, rfl⟩

theorem lookup_of_mem_values {m : AList fun _ : κ => β} {b : β} (h : b ∈ values m) :
    ∃ a, m.lookup a = some b := by
  obtain ⟨⟨a, b⟩, hm, rfl⟩ := List.mem_map.mp h
  exact ⟨a, AList.mem_lookup_iff.mpr hm⟩

theorem lookup_of_lookup_erase {m : AList fun _ : κ => β} {a k : κ} {b : β}
    (h : (m.erase a).lookup k = some b) : m.lookup k = some b := by
  by_cases hk : k = a
  · rw [hk, AList.lookup_erase] at h
    cases h
  · rwa [AList.lookup_erase_ne hk] at h

theorem values_insert (m : AList fun _ : κ => β) (a : κ) (b : β) :
    values (m.insert a b) = b :: values (m.erase a) := by
  rw [values, AList.entries_insert]
  rfl

theorem values_erase_of_none {m : AList fun _ : κ => β} {a : κ} (h : m.lookup a = none) :
    values (m.erase a) = values m := by
  have hentries : (m.erase a).entries = m.entries :=
    List.kerase_of_notMem_keys (AList.lookup_eq_none.mp h)
  rw [values, values, hentries]

theorem values_erase_sublist (m : AList fun _ : κ => β) (a : κ) :
    (values (m.erase a)).Sublist (values m) := by
  have h : (m.erase a).entries.Sublist m.entries := List.kerase_sublist a m.entries
  exact h.map _

theorem values_erase {m : AList fun _ : κ => β} {a : κ} {b : β} (h : m.lookup a = some b) :
    (values m).Perm (b :: values (m.erase a)) := by
  have hmem : (⟨a, b⟩ : Sigma fun _ : κ => β) ∈ m.entries := AList.mem_lookup_iff.mp h
  obtain ⟨c, l₁, l₂, -, hsplit, herase⟩ := List.exists_of_kerase (List.mem_keys_of_mem hmem)
  have hc : c = b := by
    have hmem' : (⟨a, c⟩ : Sigma fun _ : κ => β) ∈ m.entries := by rw [hsplit]; simp
    have hlook : m.lookup a = some c := AList.mem_lookup_iff.mpr hmem'
    exact Option.some.inj (hlook.symm.trans h)
  subst hc
  have hentries : (m.erase a).entries = l₁ ++ l₂ := herase
  rw [values, values, hentries, hsplit, List.map_append, List.map_append, List.map_cons]
  exact List.perm_middle

/-- Taking an entry out of a list, whatever is counted of each. -/
theorem coe_map_erase {α γ : Type*} [BEq α] [LawfulBEq α] {a : α} {l : List α} (h : a ∈ l)
    (f : α → γ) : (l.map f : Multiset γ) = {f a} + ((l.erase a).map f : List γ) := by
  rw [Multiset.singleton_add, Multiset.cons_coe]
  exact Multiset.coe_eq_coe.mpr ((List.perm_cons_erase h).map f)

/-- In a ledger of `n` tasks each is open and never closed, or closed exactly once. -/
theorem open_or_closed_of_add {live closed : Multiset ℕ} {n i : ℕ}
    (h : live + closed = Multiset.range n) (hi : i < n) :
    (i ∈ live ∧ closed.count i = 0) ∨ (i ∉ live ∧ closed.count i = 1) := by
  have hcount : live.count i + closed.count i = 1 := by
    rw [← Multiset.count_add, h]
    exact Multiset.count_eq_one_of_mem (Multiset.nodup_range n) (Multiset.mem_range.mpr hi)
  by_cases hlive : i ∈ live
  · have := Multiset.count_pos.mpr hlive
    exact Or.inl ⟨hlive, by omega⟩
  · have := Multiset.count_eq_zero.mpr hlive
    exact Or.inr ⟨hlive, by omega⟩

theorem open_or_closed {live closed : List ℕ} {n i : ℕ}
    (h : (live ++ closed).Perm (List.range n)) (hi : i < n) :
    (i ∈ live ∧ closed.count i = 0) ∨ (i ∉ live ∧ closed.count i = 1) := by
  have hadd : (live : Multiset ℕ) + closed = Multiset.range n := by
    rw [Multiset.coe_add]
    exact Multiset.coe_eq_coe.mpr h
  simpa only [Multiset.mem_coe, Multiset.coe_count] using open_or_closed_of_add hadd hi

theorem close {live live' closed : List ℕ} {n i : ℕ}
    (h : (live ++ closed).Perm (List.range n)) (hlive : live.Perm (i :: live')) :
    (live' ++ i :: closed).Perm (List.range n) :=
  List.perm_middle.trans (((hlive.append_right closed).symm).trans h)

theorem give_out {live closed : List ℕ} {n : ℕ} (h : (live ++ closed).Perm (List.range n)) :
    ((n :: live) ++ closed).Perm (List.range (n + 1)) := by
  rw [List.range_succ]
  exact (List.Perm.cons n h).trans (List.perm_append_singleton n _).symm

section Under

variable {γ : Type*}

def under (a : κ) (l : List (κ × β)) : List β :=
  (l.filter fun p => p.1 = a).map Prod.snd

theorem under_of_notMem {a : κ} {l : List (κ × β)} (h : a ∉ l.map Prod.fst) : under a l = [] := by
  rw [under, List.map_eq_nil_iff, List.filter_eq_nil_iff]
  intro p hp hkey
  exact h (List.mem_map.mpr ⟨p, hp, of_decide_eq_true hkey⟩)

theorem under_of_mem {a : κ} {b : β} {l : List (κ × β)} (once : (l.map Prod.fst).Nodup)
    (h : (a, b) ∈ l) : under a l = [b] := by
  obtain ⟨l₁, l₂, rfl⟩ := List.append_of_mem h
  rw [List.map_append, List.map_cons, List.nodup_middle, List.nodup_cons, ← List.map_append,
    List.map_append, List.mem_append, not_or] at once
  have h₁ := under_of_notMem once.1.1
  have h₂ := under_of_notMem once.1.2
  simp only [under] at h₁ h₂ ⊢
  rw [List.filter_append, List.map_append, h₁, List.filter_cons_of_pos (by simp), List.map_cons, h₂]
  rfl

theorem under_map (f : β → γ) (a : κ) (l : List (κ × β)) :
    under a (l.map fun p => (p.1, f p.2)) = (under a l).map f := by
  simp [under, List.filter_map, Function.comp_def]

theorem under_filter (p : β → Bool) (a : κ) (l : List (κ × β)) :
    under a (l.filter fun q => p q.2) = (under a l).filter p := by
  simp [under, List.filter_map, List.filter_filter, Function.comp_def, Bool.and_comm]

end Under

end EntryLedger
