import Mathlib.Data.Int.Notation
import Mathlib.Tactic.Common
import EasyBD.Linearizability

/-! A block device as a sequential object, and what its callers can tell of the bytes they read
from a history that is linearizable. -/
namespace BlockDevice

open Linearizability

structure Device where
  size : ℕ
  byte : ℕ → UInt8

/-- Without an offset the device itself chooses where the transfer happens. -/
inductive Op where
  | read (offset : Option ℕ) (size : ℕ)
  | write (offset : Option ℕ) (data : List UInt8)
  deriving DecidableEq

/-- A negative value is a failure, another one the number of bytes transferred. -/
structure Result where
  value : ℤ
  data : List UInt8
  deriving DecidableEq

def Device.store (d : Device) (start : ℕ) (data : List UInt8) : Device where
  size := if data = [] then d.size else max d.size (start + data.length)
  byte i := if start ≤ i ∧ i < start + data.length then data.getD (i - start) 0 else d.byte i

/-- A transfer starts at the offset that the request names, which has to be below `limit`. -/
def Places (limit : ℕ) (offset : Option ℕ) (start : ℕ) : Prop :=
  ∀ o, offset = some o → start = o ∧ o < limit

/-- A write that fails may have stored some bytes; a transfer may be short. -/
inductive Step (limit : ℕ) (d : Device) : Op → Result → Device → Prop where
  | fails {op : Op} {err : ℕ} (pos : 0 < err) : Step limit d op ⟨-err, []⟩ d
  | reads {offset : Option ℕ} {size start : ℕ} {data : List UInt8}
      (place : Places limit offset start) (fits : data.length ≤ size)
      (within : data ≠ [] → start + data.length ≤ d.size)
      (stored : ∀ k b, data[k]? = some b → d.byte (start + k) = b) :
      Step limit d (.read offset size) ⟨data.length, data⟩ d
  | writes {offset : Option ℕ} {data : List UInt8} {start n : ℕ}
      (place : Places limit offset start) (fits : n ≤ data.length) :
      Step limit d (.write offset data) ⟨n, []⟩ (d.store start (data.take n))
  | failsLate {offset : Option ℕ} {data : List UInt8} {start n err : ℕ}
      (place : Places limit offset start) (pos : 0 < err) :
      Step limit d (.write offset data) ⟨-err, []⟩ (d.store start (data.take n))

/-- A write of which a prefix, at its offset or where the device chose, may put `v` at `i`. -/
def MayStore (op : Op) (i : ℕ) (v : UInt8) : Prop :=
  match op with
  | .write offset data => ∃ k, data[k]? = some v ∧ ∀ o, offset = some o → o + k = i
  | .read _ _ => False

def Stored (op : Op) (r : Result) (i : ℕ) (v : UInt8) : Prop :=
  match op with
  | .write (some o) data => ∃ k : ℕ, data[k]? = some v ∧ (k : ℤ) < r.value ∧ o + k = i
  | _ => False

def Found (op : Op) (r : Result) (i : ℕ) (v : UInt8) : Prop :=
  match op with
  | .read (some o) _ => ∃ k, r.data[k]? = some v ∧ o + k = i
  | _ => False

variable {κ : Type*} {limit : ℕ} {d d' : Device} {op : Op} {r : Result} {i : ℕ} {v : UInt8}

theorem getD_take (data : List UInt8) (n : ℕ) {k : ℕ} (h : k < (data.take n).length) :
    data[k]? = some ((data.take n).getD k 0) := by
  rw [List.getD_eq_getElem?_getD, List.getElem?_eq_getElem h, Option.getD_some, List.getElem_take,
    List.getElem?_eq_getElem]

theorem store_byte (start : ℕ) (offset : Option ℕ) (data : List UInt8) (n : ℕ)
    (place : Places limit offset start) :
    (d.store start (data.take n)).byte i = d.byte i ∨
      MayStore (.write offset data) i ((d.store start (data.take n)).byte i) := by
  by_cases inside : start ≤ i ∧ i < start + (data.take n).length
  · right
    have hbyte : (d.store start (data.take n)).byte i = (data.take n).getD (i - start) 0 :=
      if_pos inside
    refine ⟨i - start, ?_, fun o ho => ?_⟩
    · rw [hbyte]
      exact getD_take data n (by omega)
    · obtain ⟨rfl, -⟩ := place o ho
      omega
  · left
    exact if_neg inside

theorem step_byte (step : Step limit d op r d') :
    d'.byte i = d.byte i ∨ MayStore op i (d'.byte i) := by
  cases step with
  | fails | reads => exact Or.inl rfl
  | writes place fits => exact store_byte _ _ _ _ place
  | failsLate place pos => exact store_byte _ _ _ _ place

theorem not_stored_of_failed {err : ℕ} : ¬ Stored op ⟨-err, []⟩ i v := by
  intro h
  unfold Stored at h
  split at h
  · obtain ⟨k, -, hk, -⟩ := h
    have hk : (k : ℤ) < -(err : ℤ) := hk
    omega
  · exact h

theorem step_stored (step : Step limit d op r d') (h : Stored op r i v) : d'.byte i = v := by
  cases step with
  | reads => exact h.elim
  | fails pos => exact absurd h not_stored_of_failed
  | failsLate place pos => exact absurd h not_stored_of_failed
  | @writes offset data start n place fits =>
    cases offset with
    | none => exact h.elim
    | some o =>
      obtain ⟨k, hk, hlt, rfl⟩ := h
      obtain ⟨rfl, -⟩ := place o rfl
      have hlt : k < n := Int.ofNat_lt.mp hlt
      have hlen : (data.take n).length = n := List.length_take_of_le fits
      have inside : start ≤ start + k ∧ start + k < start + (data.take n).length := by omega
      have hbyte : (d.store start (data.take n)).byte (start + k) =
          (data.take n).getD (start + k - start) 0 := if_pos inside
      have htake := getD_take data n (k := k) (by omega)
      rw [hbyte, Nat.add_sub_cancel_left]
      exact Option.some.inj (htake.symm.trans hk)

theorem step_found (step : Step limit d op r d') (h : Found op r i v) : d.byte i = v := by
  unfold Found at h
  split at h
  · obtain ⟨k, hk, rfl⟩ := h
    cases step with
    | fails => simp at hk
    | reads place fits within stored =>
      obtain ⟨rfl, -⟩ := place _ rfl
      exact stored k v hk
  · exact h.elim

theorem mayStore_of_stored (h : Stored op r i v) : MayStore op i v := by
  unfold Stored at h
  split at h
  · obtain ⟨k, hk, -, rfl⟩ := h
    exact ⟨k, hk, fun o ho => by rw [Option.some.inj ho]⟩
  · exact h.elim

/-- After a sequence of operations a byte is the old one, which then has not been overwritten,
or it is what some write stored there, and it has not been overwritten since. -/
theorem legal_source {S : List (Completed κ Op Result)} (h : Legal (Step limit) d S d') :
    (d'.byte i = d.byte i ∧ ∀ c ∈ S, ∀ u, ¬ Stored c.op c.res i u) ∨
      ∃ A c B, S = A ++ c :: B ∧ MayStore c.op i (d'.byte i) ∧
        ∀ c' ∈ B, ∀ u, ¬ Stored c'.op c'.res i u := by
  induction S using List.reverseRecOn generalizing d' with
  | nil =>
    cases h
    exact Or.inl ⟨rfl, List.forall_mem_nil _⟩
  | append_singleton S c ih =>
    obtain ⟨d₁, hS, hlast⟩ := h.split
    obtain ⟨d₂, hstep, hnil⟩ := hlast.uncons
    cases hnil
    by_cases hstored : ∃ u, Stored c.op c.res i u
    · obtain ⟨u, hu⟩ := hstored
      have hmay := mayStore_of_stored hu
      rw [← step_stored hstep hu] at hmay
      exact Or.inr ⟨S, c, [], rfl, hmay, List.forall_mem_nil _⟩
    · have hkept : ∀ B : List (Completed κ Op Result), (∀ c' ∈ B, ∀ u, ¬ Stored c'.op c'.res i u) →
          ∀ c' ∈ B ++ [c], ∀ u, ¬ Stored c'.op c'.res i u := by
        intro B hB c' hc' u hu
        rcases List.mem_append.mp hc' with hc' | hc'
        · exact hB c' hc' u hu
        · rw [List.mem_singleton.mp hc'] at hu
          exact hstored ⟨u, hu⟩
      rcases step_byte (i := i) hstep with hsame | hnew
      · rw [hsame]
        rcases ih hS with ⟨hold, hnone⟩ | ⟨A, c', B, rfl, hmay, hB⟩
        · exact Or.inl ⟨hold, hkept S hnone⟩
        · exact Or.inr ⟨A, c', B ++ [c], by simp, hmay, hkept B hB⟩
      · exact Or.inr ⟨S, c, [], rfl, hnew, List.forall_mem_nil _⟩

section Histories

variable {H : List (Event κ Op Result)} {S : List (Completed κ Op Result)} {q w : κ}

def WroteBefore (H : List (Event κ Op Result)) (i : ℕ) (w q : κ) : Prop :=
  ∃ op r u, .call w op ∈ H ∧ .ret w r ∈ H ∧ Stored op r i u ∧ Precedes H w q

/-- Reads are not stale. A byte that is found was there from the start, and no write of it had
returned before the read was called; or it is what a write stored that was called before the
read returned, and that had not itself returned before such a write was called. -/
theorem found_source (h : Linearizes (Step limit) d H S) (once : CalledOnce H)
    (hcall : .call q op ∈ H) (hret : .ret q r ∈ H) (found : Found op r i v) :
    (v = d.byte i ∧ ∀ w, ¬ WroteBefore H i w q) ∨
      ∃ k opk, .call k opk ∈ H ∧ MayStore opk i v ∧ ¬ Precedes H q k ∧
        ∀ w, WroteBefore H i w q → ¬ Precedes H k w := by
  have hq := h.of_return once hcall hret
  obtain ⟨S₁, S₂, rfl⟩ := List.append_of_mem hq
  obtain ⟨final, hlegal⟩ := h.legal
  obtain ⟨d₁, hbefore, hrest⟩ := hlegal.split
  obtain ⟨d₂, hread, -⟩ := hrest.uncons
  obtain rfl := step_found hread found
  -- A write that returned before the read was called is in front of it.
  have hwrote : ∀ w, WroteBefore H i w q → ∃ c ∈ S₁, c.key = w ∧ ∃ u, Stored c.op c.res i u := by
    rintro w ⟨opw, rw, u, hcallw, hretw, hstored, hprec⟩
    have hw := h.of_return once hcallw hretw
    refine ⟨⟨w, opw, rw⟩, ?_, rfl, u, hstored⟩
    exact mem_front_of_sublist h.once (h.order _ hw _ hq hprec)
  rcases legal_source hbefore with ⟨hsame, hnone⟩ | ⟨A, c, B, rfl, hmay, hB⟩
  · refine Or.inl ⟨hsame, fun w hw => ?_⟩
    obtain ⟨c, hc, -, u, hu⟩ := hwrote w hw
    exact hnone c hc u hu
  · have hc : c ∈ A ++ c :: B := List.mem_append_right _ List.mem_cons_self
    have horder : [c, ⟨q, op, r⟩].Sublist (A ++ c :: B ++ ⟨q, op, r⟩ :: S₂) :=
      (List.singleton_sublist.mpr hc).append (List.singleton_sublist.mpr List.mem_cons_self)
    refine Or.inr ⟨c.key, c.op, h.called c (List.mem_append_left _ hc), hmay,
      h.not_precedes horder, fun w hw => ?_⟩
    obtain ⟨c', hc', rfl, u, hu⟩ := hwrote w hw
    rcases List.mem_append.mp hc' with hA | hcB
    · have hsub : [c', c].Sublist (A ++ c :: B) :=
        (List.singleton_sublist.mpr hA).append (List.singleton_sublist.mpr List.mem_cons_self)
      exact h.not_precedes (hsub.trans (List.sublist_append_left _ _))
    · rcases List.mem_cons.mp hcB with rfl | hcB
      · exact h.not_precedes_self (List.mem_append_left _ hc)
      · exact absurd hu (hB c' hcB u)

end Histories

end BlockDevice
