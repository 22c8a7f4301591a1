import Mathlib.Logic.Relation
import Mathlib.Data.Nat.Notation

/-! Guarded transition systems. A run may carry a side condition on every step, so
that a law which fails on some steps can be stated about the runs that avoid them. -/
namespace TransitionRuns

variable {σ ε σ' ε' : Type*}

structure System (σ ε : Type*) where
  Enabled : σ → ε → Prop
  next : σ → ε → σ

/-- Finite runs from `s`; each event is enabled and meets `G` where it is taken. -/
inductive Run (M : System σ ε) (G : σ → ε → Prop) (s : σ) : σ → Prop where
  | refl : Run M G s s
  | tail {u e} : Run M G s u → M.Enabled u e → G u e → Run M G s (M.next u e)

def Unrestricted (_ : σ) (_ : ε) : Prop := True

def Reachable (M : System σ ε) (s u : σ) : Prop := Run M Unrestricted s u

variable {M : System σ ε} {G H : σ → ε → Prop} {s u v : σ}

theorem Run.mono (h : Run M G s u) (hw : ∀ u e, M.Enabled u e → G u e → H u e) :
    Run M H s u := by
  induction h with
  | refl => exact .refl
  | tail _ he hg ih => exact .tail ih he (hw _ _ he hg)

theorem Run.reachable (h : Run M G s u) : Reachable M s u := h.mono fun _ _ _ _ => trivial

theorem Run.trans (h : Run M G s u) (k : Run M G u v) : Run M G s v := by
  induction k with
  | refl => exact h
  | tail _ he hg ih => exact .tail ih he hg

theorem Reachable.step {e : ε} (h : Reachable M s u) (he : M.Enabled u e) :
    Reachable M s (M.next u e) := .tail h he trivial

theorem Run.single {e : ε} (he : M.Enabled s e) (hg : G s e) : Run M G s (M.next s e) :=
  .tail .refl he hg

/-- The induction rule: what one step preserves, a whole run preserves. -/
theorem Run.invariant {I : σ → Prop} (h : Run M G s u) (start : I s)
    (step : ∀ u e, I u → M.Enabled u e → G u e → I (M.next u e)) : I u := by
  induction h with
  | refl => exact start
  | tail _ he hg ih => exact step _ _ ih he hg

/-- A second invariant may use an established one before and after the step. -/
theorem Run.invariant_under {I J : σ → Prop} (h : Run M G s u) (hI : ∀ u, Run M G s u → I u)
    (start : J s) (step : ∀ u e, I u → J u → M.Enabled u e → G u e → J (M.next u e)) :
    J u := by
  induction h with
  | refl => exact start
  | tail hr he hg ih => exact step _ _ (hI _ hr) ih he hg

theorem Run.simulate {N : System σ' ε'} {K : σ' → ε' → Prop} {f : σ → σ'} (h : Run M G s u)
    (step : ∀ u e, Run M G s u → M.Enabled u e → G u e → Run N K (f u) (f (M.next u e))) :
    Run N K (f s) (f u) := by
  induction h with
  | refl => exact .refl
  | tail hr he hg ih => exact ih.trans (step _ _ hr he hg)

/-- Whichever `G`-steps the system takes from a state, it comes to one that meets `P`. -/
inductive Inevitable (M : System σ ε) (G : σ → ε → Prop) (P : σ → Prop) : σ → Prop where
  | now {s : σ} : P s → Inevitable M G P s
  | later {s : σ} : (∃ e, M.Enabled s e ∧ G s e) →
      (∀ e, M.Enabled s e → G s e → Inevitable M G P (M.next s e)) → Inevitable M G P s

/-- Where it can always go on to `P` and each step leaves less work, it cannot but get there. -/
theorem Inevitable.of_work {I P : σ → Prop} (work : σ → ℕ)
    (keeps : ∀ u e, I u → M.Enabled u e → G u e → I (M.next u e))
    (moves : ∀ u, I u → ¬ P u → ∃ e, M.Enabled u e ∧ G u e)
    (less : ∀ u e, I u → M.Enabled u e → G u e → work (M.next u e) < work u) (h : I s) :
    Inevitable M G P s := by
  induction hn : work s using Nat.strongRecOn generalizing s with
  | ind n ih =>
    by_cases hp : P s
    · exact .now hp
    · refine .later (moves s h hp) fun e he hg => ?_
      exact ih _ (hn ▸ less s e h he hg) (keeps s e h he hg) rfl

def runTrace (M : System σ ε) (s : σ) : List ε → σ
  | [] => s
  | e :: es => runTrace M (M.next s e) es

def ValidTrace (M : System σ ε) (s : σ) : List ε → Prop
  | [] => True
  | e :: es => M.Enabled s e ∧ ValidTrace M (M.next s e) es

instance ValidTrace.decidable (M : System σ ε) [∀ s e, Decidable (M.Enabled s e)] :
    ∀ (es : List ε) (s : σ), Decidable (ValidTrace M s es)
  | [], _ => isTrue trivial
  | _ :: es, _ => @instDecidableAnd _ _ _ (ValidTrace.decidable M es _)

/-- The side condition along a concrete trace. -/
def GuardedTrace (M : System σ ε) (G : σ → ε → Prop) (s : σ) : List ε → Prop
  | [] => True
  | e :: es => G s e ∧ GuardedTrace M G (M.next s e) es

instance GuardedTrace.decidable (M : System σ ε) (G : σ → ε → Prop) [∀ s e, Decidable (G s e)] :
    ∀ (es : List ε) (s : σ), Decidable (GuardedTrace M G s es)
  | [], _ => isTrue trivial
  | _ :: es, _ => @instDecidableAnd _ _ _ (GuardedTrace.decidable M G es _)

theorem run_of_trace (es : List ε) (h : ValidTrace M s es) (hg : GuardedTrace M G s es) :
    Run M G s (runTrace M s es) := by
  induction es generalizing s with
  | nil => exact .refl
  | cons e es ih => exact (Run.single h.1 hg.1).trans (ih h.2 hg.2)

theorem reachable_of_trace (es : List ε) (h : ValidTrace M s es) :
    Reachable M s (runTrace M s es) := by
  induction es generalizing s with
  | nil => exact .refl
  | cons e es ih => exact (Run.single h.1 trivial).trans (ih h.2)

end TransitionRuns
