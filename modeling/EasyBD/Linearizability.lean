import Mathlib.Data.List.Nodup
import Mathlib.Data.List.Sublists
import Mathlib.Data.Nat.Notation

/-! Linearizable histories of a sequential object. A concurrent run in which every operation
takes effect at one moment between its call and its return has the effects as a linearization. -/
namespace Linearizability

variable {κ ω ρ σ : Type*}

/-- What the callers see of a run; `k` is the identity of the operation. -/
inductive Event (κ ω ρ : Type*) where
  | call (k : κ) (op : ω)
  | ret (k : κ) (r : ρ)

/-- The same with the moments at which the operations take effect. -/
inductive Mark (κ ω ρ : Type*) where
  | call (k : κ) (op : ω)
  | effect (k : κ) (op : ω) (r : ρ)
  | ret (k : κ) (r : ρ)
  deriving DecidableEq

structure Completed (κ ω ρ : Type*) where
  key : κ
  op : ω
  res : ρ

inductive Legal (step : σ → ω → ρ → σ → Prop) : σ → List (Completed κ ω ρ) → σ → Prop where
  | nil (s : σ) : Legal step s [] s
  | cons {s u v : σ} {c : Completed κ ω ρ} {S : List (Completed κ ω ρ)} :
      step s c.op c.res u → Legal step u S v → Legal step s (c :: S) v

def Precedes (H : List (Event κ ω ρ)) (a b : κ) : Prop :=
  ∃ r op, [.ret a r, .call b op].Sublist H

/-- A sequential execution that the history cannot be told from: some of the operations that
have been called, among them all that have returned, in an order that respects real time. -/
structure Linearizes (step : σ → ω → ρ → σ → Prop) (s : σ) (H : List (Event κ ω ρ))
    (S : List (Completed κ ω ρ)) : Prop where
  once : (S.map Completed.key).Nodup
  called : ∀ c ∈ S, .call c.key c.op ∈ H
  returned : ∀ k r, .ret k r ∈ H → ∃ c ∈ S, c.key = k ∧ c.res = r
  legal : ∃ u, Legal step s S u
  order : ∀ a ∈ S, ∀ b ∈ S, Precedes H a.key b.key → [a, b].Sublist S

def Linearizable (step : σ → ω → ρ → σ → Prop) (s : σ) (H : List (Event κ ω ρ)) : Prop :=
  ∃ S, Linearizes step s H S

def CalledOnce (H : List (Event κ ω ρ)) : Prop :=
  ∀ k op op', .call k op ∈ H → .call k op' ∈ H → op = op'

section Legal

variable {step : σ → ω → ρ → σ → Prop} {s u v : σ} {S T : List (Completed κ ω ρ)}

theorem Legal.append (h : Legal step s S u) (k : Legal step u T v) : Legal step s (S ++ T) v := by
  induction h with
  | nil => exact k
  | cons hstep _ ih => exact .cons hstep (ih k)

theorem Legal.snoc (h : Legal step s S u) {c : Completed κ ω ρ} (hstep : step u c.op c.res v) :
    Legal step s (S ++ [c]) v :=
  h.append (.cons hstep (.nil v))

theorem Legal.split (h : Legal step s (S ++ T) v) : ∃ u, Legal step s S u ∧ Legal step u T v := by
  induction S generalizing s with
  | nil => exact ⟨s, .nil s, h⟩
  | cons c S ih =>
    cases h with
    | cons hstep hrest =>
      obtain ⟨u, hS, hT⟩ := ih hrest
      exact ⟨u, .cons hstep hS, hT⟩

theorem Legal.uncons {c : Completed κ ω ρ} (h : Legal step s (c :: S) v) :
    ∃ u, step s c.op c.res u ∧ Legal step u S v := by
  cases h with
  | cons hstep hrest => exact ⟨_, hstep, hrest⟩

theorem Legal.invariant {P : σ → Prop} (h : Legal step s S v) (start : P s)
    (keeps : ∀ c ∈ S, ∀ s u, P s → step s c.op c.res u → P u) : P v := by
  induction h with
  | nil => exact start
  | cons hstep _ ih =>
    have hu := keeps _ List.mem_cons_self _ _ start hstep
    exact ih hu fun c hc => keeps c (List.mem_cons_of_mem _ hc)

end Legal

section Linearizes

variable {step : σ → ω → ρ → σ → Prop} {s : σ} {H : List (Event κ ω ρ)}
  {S : List (Completed κ ω ρ)}

theorem Linearizes.of_return (h : Linearizes step s H S) (once : CalledOnce H) {k : κ} {op : ω}
    {r : ρ} (hcall : .call k op ∈ H) (hret : .ret k r ∈ H) : ⟨k, op, r⟩ ∈ S := by
  obtain ⟨⟨k, op', r⟩, hmem, rfl, rfl⟩ := h.returned k r hret
  obtain rfl := once k op op' hcall (h.called _ hmem)
  exact hmem

theorem not_both_orders {a b : Completed κ ω ρ} (once : (S.map Completed.key).Nodup)
    (hab : [a, b].Sublist S) : ¬ [b, a].Sublist S := by
  intro hba
  have hnodup : S.Nodup := .of_map _ once
  have hpair := (List.pairwise_iff_forall_sublist.mp (List.nodup_iff_pairwise_ne.mp hnodup)) hab
  obtain ⟨l, t, rfl, hl, ht⟩ := List.cons_sublist_iff.mp hab
  obtain ⟨l', t', heq, hl', ht'⟩ := List.cons_sublist_iff.mp hba
  have hb := List.singleton_sublist.mp ht
  have ha := List.singleton_sublist.mp ht'
  have hdisj := List.disjoint_of_nodup_append hnodup
  have hdisj' := List.disjoint_of_nodup_append (heq ▸ hnodup)
  -- One of the two cuts lies in front of the other.
  rcases List.append_eq_append_iff.mp heq with ⟨m, rfl, rfl⟩ | ⟨m, rfl, rfl⟩
  · exact hdisj' (List.mem_append_left _ hl) ha
  · exact hdisj (List.mem_append_left _ hl') hb

theorem Linearizes.not_precedes (h : Linearizes step s H S) {a b : Completed κ ω ρ}
    (hab : [a, b].Sublist S) : ¬ Precedes H b.key a.key := by
  intro hba
  have ha : a ∈ S := hab.subset List.mem_cons_self
  have hb : b ∈ S := hab.subset (List.mem_cons_of_mem _ List.mem_cons_self)
  exact not_both_orders h.once hab (h.order b hb a ha hba)

theorem Linearizes.not_precedes_self (h : Linearizes step s H S) {a : Completed κ ω ρ}
    (ha : a ∈ S) : ¬ Precedes H a.key a.key := by
  intro haa
  have hself := h.order a ha a ha haa
  exact not_both_orders h.once hself hself

/-- What has to come before a given operation is in front of it. -/
theorem mem_front_of_sublist {a b : Completed κ ω ρ} {T U : List (Completed κ ω ρ)}
    (once : ((T ++ b :: U).map Completed.key).Nodup) (h : [a, b].Sublist (T ++ b :: U)) :
    a ∈ T := by
  have ha : a ∈ T ++ b :: U := h.subset List.mem_cons_self
  rcases List.mem_append.mp ha with hT | hU
  · exact hT
  · have hba : [b, a].Sublist (b :: U) ∨ a = b := by
      rcases List.mem_cons.mp hU with rfl | hU
      · exact Or.inr rfl
      · exact Or.inl ((List.singleton_sublist.mpr hU).cons_cons b)
    rcases hba with hba | rfl
    · exact absurd (hba.trans (List.sublist_append_right T _)) (not_both_orders once h)
    · exact absurd h (not_both_orders once h)

end Linearizes

section Marks

namespace Mark

def key : Mark κ ω ρ → κ
  | .call k _ | .effect k _ _ | .ret k _ => k

def event? : Mark κ ω ρ → Option (Event κ ω ρ)
  | .call k op => some (.call k op)
  | .effect _ _ _ => none
  | .ret k r => some (.ret k r)

def effect? : Mark κ ω ρ → Option (Completed κ ω ρ)
  | .effect k op r => some ⟨k, op, r⟩
  | _ => none

end Mark

def Event.mark : Event κ ω ρ → Mark κ ω ρ
  | .call k op => .call k op
  | .ret k r => .ret k r

/-- The marks are newest first, as are traces; the history and the effects are in their order. -/
def history (marks : List (Mark κ ω ρ)) : List (Event κ ω ρ) :=
  (marks.filterMap Mark.event?).reverse

def effects (marks : List (Mark κ ω ρ)) : List (Completed κ ω ρ) :=
  (marks.filterMap Mark.effect?).reverse

/-- Each operation is called, takes effect and returns, in this order and once. -/
inductive WellTimed : List (Mark κ ω ρ) → Prop where
  | nil : WellTimed []
  | call {marks : List (Mark κ ω ρ)} {k : κ} {op : ω} :
      WellTimed marks → (∀ op', .call k op' ∉ marks) → WellTimed (.call k op :: marks)
  | effect {marks : List (Mark κ ω ρ)} {k : κ} {op : ω} {r : ρ} :
      WellTimed marks → .call k op ∈ marks → (∀ op' r', .effect k op' r' ∉ marks) →
      WellTimed (.effect k op r :: marks)
  | ret {marks : List (Mark κ ω ρ)} {k : κ} {op : ω} {r : ρ} :
      WellTimed marks → .effect k op r ∈ marks → (∀ r', .ret k r' ∉ marks) →
      WellTimed (.ret k r :: marks)

variable {marks : List (Mark κ ω ρ)} {k : κ} {op op' : ω} {r r' : ρ}

theorem mem_effects : ⟨k, op, r⟩ ∈ effects marks ↔ .effect k op r ∈ marks := by
  simp only [effects, List.mem_reverse, List.mem_filterMap]
  constructor
  · rintro ⟨m, hm, heq⟩
    cases m with
    | effect k' op' r' =>
      obtain ⟨rfl, rfl, rfl⟩ := Completed.mk.inj (Option.some.inj heq)
      exact hm
    | _ => cases heq
  · intro hm
    exact ⟨_, hm, rfl⟩

theorem call_mem_history : .call k op ∈ history marks ↔ .call k op ∈ marks := by
  simp only [history, List.mem_reverse, List.mem_filterMap]
  constructor
  · rintro ⟨m, hm, heq⟩
    cases m with
    | call k' op' =>
      obtain ⟨rfl, rfl⟩ := Event.call.inj (Option.some.inj heq)
      exact hm
    | _ => cases heq
  · intro hm
    exact ⟨_, hm, rfl⟩

theorem ret_mem_history : .ret k r ∈ history marks ↔ .ret k r ∈ marks := by
  simp only [history, List.mem_reverse, List.mem_filterMap]
  constructor
  · rintro ⟨m, hm, heq⟩
    cases m with
    | ret k' r' =>
      obtain ⟨rfl, rfl⟩ := Event.ret.inj (Option.some.inj heq)
      exact hm
    | _ => cases heq
  · intro hm
    exact ⟨_, hm, rfl⟩

theorem effects_append (added : List (Mark κ ω ρ)) :
    effects (added ++ marks) = effects marks ++ effects added := by
  simp [effects]

theorem effects_effect : effects (.effect k op r :: marks) = effects marks ++ [⟨k, op, r⟩] := by
  simp [effects, Mark.effect?]

theorem map_mark_sublist (l : List (Mark κ ω ρ)) :
    ((l.filterMap Mark.event?).map Event.mark).Sublist l := by
  induction l with
  | nil => exact .slnil
  | cons m l ih =>
    cases m with
    | effect => exact ih.cons _
    | call | ret => exact ih.cons_cons _

theorem WellTimed.called (h : WellTimed marks) (he : .effect k op r ∈ marks) :
    .call k op ∈ marks := by
  induction h with
  | nil => cases he
  | call _ _ ih =>
    have he := (List.mem_cons.mp he).resolve_left nofun
    exact List.mem_cons_of_mem _ (ih he)
  | effect _ hcall _ ih =>
    rcases List.mem_cons.mp he with heq | he
    · obtain ⟨rfl, rfl, rfl⟩ := Mark.effect.inj heq
      exact List.mem_cons_of_mem _ hcall
    · exact List.mem_cons_of_mem _ (ih he)
  | ret _ _ _ ih =>
    have he := (List.mem_cons.mp he).resolve_left nofun
    exact List.mem_cons_of_mem _ (ih he)

theorem WellTimed.took_effect (h : WellTimed marks) (hr : .ret k r ∈ marks) :
    ∃ op, .effect k op r ∈ marks := by
  induction h with
  | nil => cases hr
  | call _ _ ih =>
    obtain ⟨op, hop⟩ := ih ((List.mem_cons.mp hr).resolve_left nofun)
    exact ⟨op, List.mem_cons_of_mem _ hop⟩
  | effect _ _ _ ih =>
    obtain ⟨op, hop⟩ := ih ((List.mem_cons.mp hr).resolve_left nofun)
    exact ⟨op, List.mem_cons_of_mem _ hop⟩
  | ret _ heffect _ ih =>
    rcases List.mem_cons.mp hr with heq | hr
    · obtain ⟨rfl, rfl⟩ := Mark.ret.inj heq
      exact ⟨_, List.mem_cons_of_mem _ heffect⟩
    · obtain ⟨op, hop⟩ := ih hr
      exact ⟨op, List.mem_cons_of_mem _ hop⟩

theorem WellTimed.one_effect (h : WellTimed marks) (he : .effect k op r ∈ marks)
    (he' : .effect k op' r' ∈ marks) : op = op' ∧ r = r' := by
  induction h with
  | nil => cases he
  | call _ _ ih | ret _ _ _ ih =>
    exact ih ((List.mem_cons.mp he).resolve_left nofun) ((List.mem_cons.mp he').resolve_left nofun)
  | effect _ _ fresh ih =>
    rcases List.mem_cons.mp he with heq | hold <;> rcases List.mem_cons.mp he' with heq' | hold'
    · obtain ⟨rfl, rfl, rfl⟩ := Mark.effect.inj heq
      obtain ⟨-, rfl, rfl⟩ := Mark.effect.inj heq'
      exact ⟨rfl, rfl⟩
    · obtain ⟨rfl, -, -⟩ := Mark.effect.inj heq
      exact absurd hold' (fresh _ _)
    · obtain ⟨rfl, -, -⟩ := Mark.effect.inj heq'
      exact absurd hold (fresh _ _)
    · exact ih hold hold'

theorem WellTimed.one_call (h : WellTimed marks) (hc : .call k op ∈ marks)
    (hc' : .call k op' ∈ marks) : op = op' := by
  induction h with
  | nil => cases hc
  | effect _ _ _ ih | ret _ _ _ ih =>
    exact ih ((List.mem_cons.mp hc).resolve_left nofun) ((List.mem_cons.mp hc').resolve_left nofun)
  | call _ fresh ih =>
    rcases List.mem_cons.mp hc with heq | hold <;> rcases List.mem_cons.mp hc' with heq' | hold'
    · obtain ⟨rfl, rfl⟩ := Mark.call.inj heq
      exact (Mark.call.inj heq').2.symm
    · obtain ⟨rfl, -⟩ := Mark.call.inj heq
      exact absurd hold' (fresh _)
    · obtain ⟨rfl, -⟩ := Mark.call.inj heq'
      exact absurd hold (fresh _)
    · exact ih hold hold'

theorem WellTimed.calledOnce (h : WellTimed marks) : CalledOnce (history marks) := by
  intro k op op' hc hc'
  exact h.one_call (call_mem_history.mp hc) (call_mem_history.mp hc')

theorem WellTimed.effects_once (h : WellTimed marks) :
    ((effects marks).map Completed.key).Nodup := by
  rw [effects, List.map_reverse, List.nodup_reverse]
  induction h with
  | nil => exact List.nodup_nil
  | call _ _ ih | ret _ _ _ ih => exact ih
  | @effect marks k op r _ _ fresh ih =>
    rw [List.filterMap_cons_some (show Mark.effect? (.effect k op r) = some ⟨k, op, r⟩ from rfl),
      List.map_cons, List.nodup_cons]
    refine ⟨fun hmem => ?_, ih⟩
    obtain ⟨⟨k', op', r'⟩, hc, rfl⟩ := List.mem_map.mp hmem
    exact fresh op' r' (mem_effects.mp (List.mem_reverse.mpr hc))

theorem WellTimed.effect_order (h : WellTimed marks) {a b : κ} {opa opb op : ω} {ra rb r : ρ}
    (hab : [.call b op, .ret a r].Sublist marks) (ha : .effect a opa ra ∈ marks)
    (hb : .effect b opb rb ∈ marks) : [.effect b opb rb, .effect a opa ra].Sublist marks := by
  induction h with
  | nil => cases hb
  | @call marks k op' htimed fresh ih =>
    have hold_a : Mark.effect a opa ra ∈ marks := (List.mem_cons.mp ha).resolve_left nofun
    have hold_b : Mark.effect b opb rb ∈ marks := (List.mem_cons.mp hb).resolve_left nofun
    cases hab with
    | cons _ hab => exact (ih hab hold_a hold_b).cons _
    | cons_cons => exact absurd (htimed.called hold_b) (fresh _)
  | @ret marks k op' r' htimed heffect fresh ih =>
    have hold_a : Mark.effect a opa ra ∈ marks := (List.mem_cons.mp ha).resolve_left nofun
    have hold_b : Mark.effect b opb rb ∈ marks := (List.mem_cons.mp hb).resolve_left nofun
    cases hab with
    | cons _ hab => exact (ih hab hold_a hold_b).cons _
  | @effect marks k op' r' htimed hcall fresh ih =>
    cases hab with
    | cons _ hab =>
      have hret : Mark.ret a r ∈ marks := hab.subset (List.mem_cons_of_mem _ List.mem_cons_self)
      obtain ⟨op₀, hold⟩ := htimed.took_effect hret
      have ha : Mark.effect a opa ra ∈ marks := by
        refine (List.mem_cons.mp ha).resolve_left fun heq => ?_
        obtain ⟨rfl, -, -⟩ := Mark.effect.inj heq
        exact fresh _ _ hold
      rcases List.mem_cons.mp hb with heq | hb
      · rw [← heq]
        exact (List.singleton_sublist.mpr ha).cons_cons _
      · exact (ih hab ha hb).cons _

theorem marks_of_precedes {a b : κ} (h : Precedes (history marks) a b) :
    ∃ r op, [.call b op, .ret a r].Sublist marks := by
  obtain ⟨r, op, hsub⟩ := h
  have hsub : [Event.call b op, .ret a r].Sublist (marks.filterMap Mark.event?) := by
    have hrev := hsub.reverse
    rwa [history, List.reverse_reverse] at hrev
  obtain ⟨l, hl, heq⟩ := List.sublist_filterMap_iff.mp hsub
  refine ⟨r, op, List.Sublist.trans ?_ hl⟩
  have hmarks := map_mark_sublist l
  rwa [← heq] at hmarks

theorem linearizes_effects {step : σ → ω → ρ → σ → Prop} {s u : σ} (h : WellTimed marks)
    (legal : Legal step s (effects marks) u) :
    Linearizes step s (history marks) (effects marks) where
  once := h.effects_once
  called := by
    rintro ⟨k, op, r⟩ hc
    exact call_mem_history.mpr (h.called (mem_effects.mp hc))
  returned := by
    intro k r hret
    obtain ⟨op, hop⟩ := h.took_effect (ret_mem_history.mp hret)
    exact ⟨⟨k, op, r⟩, mem_effects.mpr hop, rfl, rfl⟩
  legal := ⟨u, legal⟩
  order := by
    rintro ⟨a, opa, ra⟩ ha ⟨b, opb, rb⟩ hb hprec
    obtain ⟨r, op, hsub⟩ := marks_of_precedes hprec
    have horder := h.effect_order hsub (mem_effects.mp ha) (mem_effects.mp hb)
    exact (horder.filterMap Mark.effect?).reverse

end Marks

end Linearizability
