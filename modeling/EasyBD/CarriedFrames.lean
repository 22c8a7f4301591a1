import Mathlib.Algebra.Order.Group.Multiset
import Mathlib.Data.Multiset.UnionInter
import EasyBD.SerializedFrames

/-! Senders that may fail on a channel that may break: which frames the channel has taken whole,
which it has begun to take, and whose senders have failed. -/
namespace CarriedFrames

open SerializedFrames

variable {α : Type*}

def whole : List (Op α) → List (List α)
  | [] => []
  | .accept bytes :: log =>
    match phase log with
    | .sending frame n =>
      if n + bytes.length = frame.length then whole log ++ [frame] else whole log
    | _ => whole log
  | _ :: log => whole log

def carried : List (Op α) → List (List α)
  | [] => []
  | .accept _ :: log =>
    match phase log with
    | .sending frame n => if n = 0 then carried log ++ [frame] else carried log
    | _ => carried log
  | _ :: log => carried log

def dropped : List (Op α) → List (List α)
  | [] => []
  | .fail :: log =>
    match phase log with
    | .sending frame _ => dropped log ++ [frame]
    | _ => dropped log
  | _ :: log => dropped log

/-- Senders fail only with something left to send. -/
def Premature : List (Op α) → Prop
  | [] => True
  | .fail :: log => (∀ frame n, phase log = .sending frame n → n < frame.length) ∧ Premature log
  | _ :: log => Premature log

theorem carried_grows (o : Op α) (log : List (Op α)) :
    (carried log).IsPrefix (carried (o :: log)) := by
  cases o with
  | accept bytes =>
    simp only [carried]
    split
    · split
      · exact List.prefix_append _ _
      · exact List.prefix_rfl
    · exact List.prefix_rfl
  | acquire | fail | release => exact List.prefix_rfl

theorem dropped_grows (o : Op α) (log : List (Op α)) :
    (dropped log).IsPrefix (dropped (o :: log)) := by
  cases o with
  | fail =>
    simp only [dropped]
    split
    · exact List.prefix_append _ _
    · exact List.prefix_rfl
  | acquire | accept | release => exact List.prefix_rfl

/-- What the channel has taken: whole frames, and a part of one more if a sender is at it or
the channel has broken there. -/
inductive Cut (log : List (Op α)) : Prop where
  | whole (carried_eq : carried log = whole log) (wire_eq : wire log = (whole log).flatten)
      (intact : ¬ Torn log)
      (between : ∀ frame n, phase log = .sending frame n → n = 0 ∨ n = frame.length)
  | part (frame : List α) (n : ℕ) (begun : 0 < n) (short : n < frame.length)
      (carried_eq : carried log = CarriedFrames.whole log ++ [frame])
      (wire_eq : wire log = (CarriedFrames.whole log).flatten ++ frame.take n)
      (broken : phase log = .sending frame n ∨ Torn log)

theorem cut_accept {bytes : List α} {log : List (Op α)} (h : Cut log)
    (hl : Legal (phase log) (.accept bytes)) (hs : ¬ Torn log) : Cut (.accept bytes :: log) := by
  obtain ⟨hne, frame, n, hp, hpre⟩ := hl
  have hpos : 0 < bytes.length := List.length_pos_iff.mpr hne
  have hlen := hpre.length_le
  rw [List.length_drop] at hlen
  have hbytes : frame.take n ++ bytes = frame.take (n + bytes.length) := by
    rw [List.take_add, ← List.prefix_iff_eq_take.mp hpre]
  have hphase : phase (.accept bytes :: log) = .sending frame (n + bytes.length) := by
    rw [phase_cons, hp, Phase.after]
  -- however much of the frame the channel had before
  have hbefore : carried (.accept bytes :: log) = whole log ++ [frame] ∧
      wire log = (whole log).flatten ++ frame.take n := by
    cases h with
    | whole carried_eq wire_eq intact between =>
      have hn : n = 0 := (between frame n hp).resolve_right (by omega)
      subst hn
      exact ⟨by simp [carried, hp, carried_eq], by simp [wire_eq]⟩
    | part frame' m begun short carried_eq wire_eq broken =>
      obtain ⟨rfl, rfl⟩ := Phase.sending.inj (hp.symm.trans (broken.resolve_right hs))
      refine ⟨?_, wire_eq⟩
      simp only [carried, hp, if_neg begun.ne', carried_eq]
  obtain ⟨hcarried, hwire⟩ := hbefore
  have hwire' : wire (.accept bytes :: log) =
      (whole log).flatten ++ frame.take (n + bytes.length) := by
    rw [wire, hwire, List.append_assoc, hbytes]
  by_cases hfull : n + bytes.length = frame.length
  · have hwhole : whole (.accept bytes :: log) = whole log ++ [frame] := by
      simp only [whole, hp, if_pos hfull]
    refine .whole (hcarried.trans hwhole.symm) ?_ hs ?_
    · rw [hwire', hwhole, hfull, List.take_length, List.flatten_append]
      simp
    · rw [hphase]
      rintro _ _ ⟨⟩
      exact Or.inr hfull
  · have hwhole : whole (.accept bytes :: log) = whole log := by
      simp only [whole, hp, if_neg hfull]
    refine .part frame (n + bytes.length) (by omega) (by omega) ?_ ?_ (Or.inl hphase)
    · rw [hwhole, hcarried]
    · rw [hwhole, hwire']

theorem cut_cons {o : Op α} {log : List (Op α)} (h : Cut log) (hl : Legal (phase log) o)
    (hs : Sticky (o :: log)) (hp : Premature (o :: log)) : Cut (o :: log) := by
  cases o with
  | accept bytes => exact cut_accept h hl hs.1
  | acquire frame =>
    have hidle : phase log = .idle := hl
    cases h with
    | whole carried_eq wire_eq intact between =>
      refine .whole carried_eq wire_eq intact ?_
      rintro _ _ ⟨⟩
      exact Or.inl rfl
    | part frame n begun short carried_eq wire_eq broken =>
      refine .part frame n begun short carried_eq wire_eq (Or.inr ?_)
      exact broken.resolve_left (by simp [hidle])
  | fail =>
    obtain ⟨frame, n, hphase⟩ := hl
    have hshort : n < frame.length := hp.1 frame n hphase
    cases h with
    | whole carried_eq wire_eq intact between =>
      have hn : n = 0 := (between frame n hphase).resolve_right hshort.ne
      refine .whole carried_eq wire_eq ?_ (by simp [hphase, Phase.after])
      rintro (⟨_, _, hsending, hpos⟩ | htorn)
      · obtain ⟨-, rfl⟩ := Phase.sending.inj (hphase.symm.trans hsending)
        omega
      · exact intact htorn
    | part frame' m begun short carried_eq wire_eq broken =>
      refine .part frame' m begun short carried_eq wire_eq (Or.inr ?_)
      exact broken.imp (fun hsending => ⟨frame', m, hsending, begun⟩) id
  | release =>
    cases h with
    | whole carried_eq wire_eq intact between =>
      exact .whole carried_eq wire_eq intact (by simp [Phase.after])
    | part frame n begun short carried_eq wire_eq broken =>
      refine .part frame n begun short carried_eq wire_eq (Or.inr ?_)
      refine broken.resolve_left fun hsending => ?_
      rcases hl with ⟨frame', hdone⟩ | ⟨frame', n', hfailed⟩
      · obtain ⟨rfl, rfl⟩ := Phase.sending.inj (hsending.symm.trans hdone)
        exact short.ne rfl
      · exact absurd (hsending.symm.trans hfailed) (by simp)

theorem cut {log : List (Op α)} (h : Serial log) (hs : Sticky log) (hp : Premature log) :
    Cut log := by
  induction log with
  | nil => exact .whole rfl rfl id (by simp)
  | cons o log ih =>
    have hs' : Sticky log := by cases o <;> first | exact hs | exact hs.2
    have hp' : Premature log := by cases o <;> first | exact hp | exact hp.2
    exact cut_cons (ih h.2 hs' hp') h.1 hs hp

section Cut

variable {log : List (Op α)}

theorem Cut.whole_prefix (h : Cut log) : (CarriedFrames.whole log).IsPrefix (carried log) := by
  cases h with
  | whole carried_eq => exact ⟨[], by rw [List.append_nil, carried_eq]⟩
  | part frame n begun short carried_eq =>
    rw [carried_eq]
    exact List.prefix_append _ _

/-- The channel has taken the frames it has begun up to some point of the last. -/
theorem Cut.wire_prefix (h : Cut log) : (wire log).IsPrefix (carried log).flatten := by
  cases h with
  | whole carried_eq wire_eq => exact ⟨[], by rw [List.append_nil, wire_eq, carried_eq]⟩
  | part frame n begun short carried_eq wire_eq =>
    rw [wire_eq, carried_eq, List.flatten_append, List.prefix_append_right_inj]
    simpa using List.take_prefix n frame

theorem Cut.wire_eq (h : Cut log) : ∃ rest, wire log = (CarriedFrames.whole log).flatten ++ rest ∧
    (rest = [] ∨ ∃ frame ∈ carried log, rest.IsPrefix frame ∧ rest.length < frame.length) := by
  cases h with
  | whole carried_eq wire_eq => exact ⟨[], by simp [wire_eq], Or.inl rfl⟩
  | part frame n begun short carried_eq wire_eq =>
    refine ⟨frame.take n, wire_eq, Or.inr ⟨frame, by simp [carried_eq], List.take_prefix _ _, ?_⟩⟩
    rw [List.length_take]
    omega

end Cut

/-- Frames are begun in the order in which their senders got the lock. -/
theorem carried_sublist {log : List (Op α)} (h : Serial log) :
    (carried log).Sublist (acquired log) ∧
      ∀ frame, phase log = .sending frame 0 →
        ∃ before, acquired log = before ++ [frame] ∧ (carried log).Sublist before := by
  induction log with
  | nil => exact ⟨List.Sublist.refl _, by simp⟩
  | cons o log ih =>
    obtain ⟨hsub, hfresh⟩ := ih h.2
    cases o with
    | acquire frame =>
      refine ⟨hsub.trans (List.sublist_append_left _ _), ?_⟩
      rintro _ ⟨⟩
      exact ⟨acquired log, rfl, hsub⟩
    | accept bytes =>
      obtain ⟨hne, frame, n, hp, -⟩ := h.1
      have hpos : 0 < bytes.length := List.length_pos_iff.mpr hne
      refine ⟨?_, fun frame' hsending => ?_⟩
      · simp only [carried, hp, acquired]
        split
        · next hn =>
          obtain ⟨before, hacq, hbefore⟩ := hfresh frame (by rw [hp, hn])
          rw [hacq]
          exact hbefore.append (List.Sublist.refl _)
        · exact hsub
      · rw [phase_cons, hp, Phase.after] at hsending
        have hzero := (Phase.sending.inj hsending).2
        omega
    | fail =>
      obtain ⟨frame, n, hp⟩ := h.1
      exact ⟨hsub, by simp [hp, Phase.after]⟩
    | release => exact ⟨hsub, by simp [Phase.after]⟩

def unsettled (log : List (Op α)) : List (List α) :=
  match phase log with
  | .sending frame n => if n < frame.length then [frame] else []
  | _ => []

/-- A frame that was acquired once is taken whole, dropped or unsettled, and only one of these. -/
theorem settled {log : List (Op α)} (h : Serial log) (hp : Premature log) :
    (whole log : Multiset (List α)) + dropped log + unsettled log ≤ acquired log := by
  induction log with
  | nil => exact le_rfl
  | cons o log ih =>
    have hp' : Premature log := by cases o <;> first | exact hp | exact hp.2
    have ih := ih h.2 hp'
    cases o with
    | acquire frame =>
      have hidle : phase log = .idle := h.1
      simp only [unsettled, hidle, Multiset.coe_nil, add_zero] at ih
      have hle : (unsettled (.acquire frame :: log) : Multiset (List α)) ≤ [frame] := by
        simp only [unsettled, phase_cons, Phase.after]
        split
        · exact le_rfl
        · exact Multiset.zero_le _
      simpa only [whole, dropped, acquired, ← Multiset.coe_add] using add_le_add ih hle
    | accept bytes =>
      obtain ⟨hne, frame, n, hphase, hpre⟩ := h.1
      have hpos : 0 < bytes.length := List.length_pos_iff.mpr hne
      have hlen := hpre.length_le
      rw [List.length_drop] at hlen
      have hunsettled : unsettled log = [frame] := by
        simp only [unsettled, hphase]
        exact if_pos (by omega)
      rw [hunsettled] at ih
      by_cases hfull : n + bytes.length = frame.length
      · have hdone : unsettled (.accept bytes :: log) = [] := by
          simp only [unsettled, phase_cons, hphase, Phase.after]
          exact if_neg (by omega)
        simp only [whole, hphase, if_pos hfull, dropped, acquired, hdone, Multiset.coe_nil,
          add_zero, ← Multiset.coe_add]
        rwa [add_right_comm]
      · have hmore : unsettled (.accept bytes :: log) = [frame] := by
          simp only [unsettled, phase_cons, hphase, Phase.after]
          exact if_pos (by omega)
        simpa only [whole, hphase, if_neg hfull, dropped, acquired, hmore] using ih
    | fail =>
      obtain ⟨frame, n, hphase⟩ := h.1
      have hunsettled : unsettled log = [frame] := by
        simp only [unsettled, hphase]
        exact if_pos (hp.1 frame n hphase)
      have hdone : unsettled (.fail :: log) = [] := by
        simp only [unsettled, phase_cons, hphase, Phase.after]
      rw [hunsettled] at ih
      simpa only [whole, dropped, hphase, acquired, hdone, Multiset.coe_nil, add_zero,
        ← Multiset.coe_add, add_assoc] using ih
    | release =>
      have hle : (unsettled (.release :: log) : Multiset (List α)) ≤ unsettled log :=
        Multiset.zero_le _
      exact (add_le_add_right hle _).trans ih

theorem not_dropped_of_whole {β : Type*} {log : List (Op α)} {key : List α → β}
    (h : Serial log) (hp : Premature log) (once : ((acquired log).map key).Nodup)
    {a b : List α} (ha : a ∈ whole log) (hb : b ∈ dropped log) : key a ≠ key b := by
  have hle : (whole log : Multiset (List α)) + dropped log ≤ acquired log :=
    (Multiset.le_add_right _ _).trans (settled h hp)
  have hnodup : (((whole log : Multiset (List α)) + dropped log).map key).Nodup :=
    Multiset.nodup_of_le (Multiset.map_le_map hle) once
  rw [Multiset.map_add, Multiset.nodup_add] at hnodup
  intro heq
  refine Multiset.disjoint_left.mp hnodup.2.2 (Multiset.mem_map_of_mem key ha) ?_
  rw [heq]
  exact Multiset.mem_map_of_mem key hb

end CarriedFrames
