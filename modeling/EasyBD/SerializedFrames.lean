import Mathlib.Data.List.Sublists
import EasyBD.TransitionRuns

/-! Senders that write whole frames to one byte channel under a lock. The log lists what
happened on the channel, newest first; a sender may fail between two partial writes. -/
namespace SerializedFrames

variable {α : Type*}

inductive Op (α : Type*) where
  | acquire (frame : List α)
  | accept (bytes : List α)
  | fail
  | release
  deriving DecidableEq

/-- The lock is free, or its holder has had the first `n` items of its frame accepted. -/
inductive Phase (α : Type*) where
  | idle
  | sending (frame : List α) (n : ℕ)
  | failed (frame : List α) (n : ℕ)
  deriving DecidableEq

def Phase.after (p : Phase α) : Op α → Phase α
  | .acquire frame => .sending frame 0
  | .accept bytes =>
    match p with
    | .sending frame n => .sending frame (n + bytes.length)
    | p => p
  | .fail =>
    match p with
    | .sending frame n => .failed frame n
    | p => p
  | .release => .idle

def phase (log : List (Op α)) : Phase α := log.foldr (fun o p => p.after o) .idle

def wire : List (Op α) → List α
  | [] => []
  | .accept bytes :: log => wire log ++ bytes
  | _ :: log => wire log

/-- The frames in the order in which their senders got the lock. -/
def acquired : List (Op α) → List (List α)
  | [] => []
  | .acquire frame :: log => acquired log ++ [frame]
  | _ :: log => acquired log

def delivered : List (Op α) → List (List α)
  | [] => []
  | .release :: log =>
    match phase log with
    | .sending frame _ => delivered log ++ [frame]
    | _ => delivered log
  | _ :: log => delivered log

def Phase.inFlight : Phase α → List α
  | .sending frame n => frame.take n
  | _ => []

def Phase.frame : Phase α → Option (List α)
  | .idle => none
  | .sending frame _ | .failed frame _ => some frame

theorem Phase.frame_accept (p : Phase α) (bytes : List α) :
    (p.after (.accept bytes)).frame = p.frame := by
  cases p <;> rfl

theorem Phase.frame_fail (p : Phase α) : (p.after .fail).frame = p.frame := by
  cases p <;> rfl

/-- What a correctly locked sender may do next. -/
def Legal (p : Phase α) : Op α → Prop
  | .acquire _ => p = .idle
  | .accept bytes => bytes ≠ [] ∧ ∃ frame n, p = .sending frame n ∧ bytes.IsPrefix (frame.drop n)
  | .fail => ∃ frame n, p = .sending frame n
  | .release => (∃ frame, p = .sending frame frame.length) ∨ ∃ frame n, p = .failed frame n

def Serial : List (Op α) → Prop
  | [] => True
  | o :: log => Legal (phase log) o ∧ Serial log

/-- Some sender failed after the channel had taken a part of its frame. -/
def Torn : List (Op α) → Prop
  | [] => False
  | .fail :: log => (∃ frame n, phase log = .sending frame n ∧ 0 < n) ∨ Torn log
  | _ :: log => Torn log

instance Torn.decidable [DecidableEq α] : (log : List (Op α)) → Decidable (Torn log)
  | [] => isFalse id
  | .fail :: log => by
    have := Torn.decidable log
    cases hp : phase log with
    | sending frame n =>
      exact decidable_of_iff (0 < n ∨ Torn log) (by simp [Torn, hp])
    | idle => exact decidable_of_iff (Torn log) (by simp [Torn, hp])
    | failed frame n => exact decidable_of_iff (Torn log) (by simp [Torn, hp])
  | .acquire _ :: log => Torn.decidable log
  | .accept _ :: log => Torn.decidable log
  | .release :: log => Torn.decidable log

/-- A failure in the middle of a frame is permanent: the channel takes nothing after it. -/
def Sticky : List (Op α) → Prop
  | [] => True
  | .accept _ :: log => ¬ Torn log ∧ Sticky log
  | _ :: log => Sticky log

@[simp] theorem phase_nil : phase ([] : List (Op α)) = .idle := rfl
@[simp] theorem phase_cons (o : Op α) (log : List (Op α)) :
    phase (o :: log) = (phase log).after o := rfl

/-- The channel's content while no frame has been torn. -/
structure Shape (log : List (Op α)) : Prop where
  wire_eq : wire log = (delivered log).flatten ++ (phase log).inFlight
  within : ∀ frame n, phase log = .sending frame n → n ≤ frame.length
  order : (delivered log).Sublist (acquired log)
  current : ∀ frame n, phase log = .sending frame n →
    ∃ before, acquired log = before ++ [frame] ∧ (delivered log).Sublist before
  unsent : ∀ frame n, phase log = .failed frame n → n = 0

theorem shape_nil : Shape ([] : List (Op α)) where
  wire_eq := rfl
  within := by rintro _ _ ⟨⟩
  order := List.Sublist.refl _
  current := by rintro _ _ ⟨⟩
  unsent := by rintro _ _ ⟨⟩

private theorem take_accept {frame bytes : List α} {n : ℕ}
    (h : bytes.IsPrefix (frame.drop n)) :
    frame.take n ++ bytes = frame.take (n + bytes.length) := by
  rw [List.take_add, List.prefix_iff_eq_take.mp h]
  simp

theorem shape_cons {o : Op α} {log : List (Op α)} (h : Shape log) (hl : Legal (phase log) o)
    (ht : ¬ Torn (o :: log)) : Shape (o :: log) := by
  cases o with
  | acquire frame =>
    have hp : phase log = .idle := hl
    have hwire := h.wire_eq
    rw [hp] at hwire
    refine ⟨by simpa [wire, delivered, Phase.after, Phase.inFlight] using hwire, ?_, ?_, ?_, ?_⟩
    · rintro _ _ ⟨⟩; exact Nat.zero_le _
    · exact h.order.trans (List.sublist_append_left _ _)
    · rintro _ _ ⟨⟩; exact ⟨acquired log, rfl, h.order⟩
    · rintro _ _ ⟨⟩
  | accept bytes =>
    obtain ⟨_, frame, n, hp, hpre⟩ := hl
    have hwire := h.wire_eq
    rw [hp] at hwire
    have hlen : n + bytes.length ≤ frame.length := by
      have := hpre.length_le
      have := h.within _ _ hp
      simp only [List.length_drop] at *
      omega
    refine ⟨?_, ?_, h.order, ?_, ?_⟩
    · simp only [wire, delivered, phase_cons, hp, Phase.after, Phase.inFlight]
      rw [hwire, Phase.inFlight, List.append_assoc, take_accept hpre]
    · simp only [phase_cons, hp, Phase.after]
      rintro _ _ ⟨⟩; exact hlen
    · simp only [phase_cons, hp, Phase.after]
      rintro _ _ ⟨⟩; exact h.current _ _ hp
    · simp [hp, Phase.after]
  | fail =>
    obtain ⟨frame, n, hp⟩ := hl
    have hwire := h.wire_eq
    have hn : n = 0 := by
      by_contra hne
      exact ht (Or.inl ⟨frame, n, hp, Nat.pos_of_ne_zero hne⟩)
    subst hn
    rw [hp] at hwire
    refine ⟨by simpa [wire, delivered, hp, Phase.after, Phase.inFlight] using hwire, ?_, h.order,
      ?_, ?_⟩
    · simp [hp, Phase.after]
    · simp [hp, Phase.after]
    · simp only [phase_cons, hp, Phase.after]
      rintro _ _ ⟨⟩; rfl
  | release =>
    have hwire := h.wire_eq
    rcases hl with ⟨frame, hp⟩ | ⟨frame, n, hp⟩
    · obtain ⟨before, hacq, hsub⟩ := h.current _ _ hp
      rw [hp] at hwire
      refine ⟨?_, by simp [Phase.after], ?_, by simp [Phase.after], by simp [Phase.after]⟩
      · simpa [wire, delivered, hp, Phase.after, Phase.inFlight] using hwire
      · simp only [delivered, hp, acquired, hacq]
        exact List.Sublist.append hsub (List.Sublist.refl _)
    · rw [hp] at hwire
      refine ⟨?_, by simp [Phase.after], ?_, by simp [Phase.after], by simp [Phase.after]⟩
      · simpa [wire, delivered, hp, Phase.after, Phase.inFlight] using hwire
      · simpa only [delivered, hp, acquired] using h.order

theorem shape {log : List (Op α)} (h : Serial log) (ht : ¬ Torn log) : Shape log := by
  induction log with
  | nil => exact shape_nil
  | cons o log ih =>
    have hprev : ¬ Torn log := by
      intro hlog
      apply ht
      cases o with
      | fail => exact Or.inr hlog
      | acquire => exact hlog
      | accept => exact hlog
      | release => exact hlog
    exact shape_cons (ih h.2 hprev) h.1 ht

/-- The channel holds whole frames, and of the last one possibly only a part. -/
def FramePrefix (log : List (Op α)) : Prop :=
  ∃ frames : List (List α), frames.Sublist (acquired log) ∧ (wire log).IsPrefix frames.flatten

instance [DecidableEq α] (log : List (Op α)) : Decidable (FramePrefix log) :=
  decidable_of_iff (∃ frames ∈ (acquired log).sublists, (wire log).IsPrefix frames.flatten)
    (by simp only [FramePrefix, List.mem_sublists])

theorem Shape.framePrefix {log : List (Op α)} (h : Shape log) : FramePrefix log := by
  cases hp : phase log with
  | idle =>
    exact ⟨delivered log, h.order, by rw [h.wire_eq, hp]; simp [Phase.inFlight]⟩
  | failed frame n =>
    exact ⟨delivered log, h.order, by rw [h.wire_eq, hp]; simp [Phase.inFlight]⟩
  | sending frame n =>
    obtain ⟨before, hacq, hsub⟩ := h.current _ _ hp
    refine ⟨delivered log ++ [frame], by rw [hacq]; exact hsub.append (List.Sublist.refl _), ?_⟩
    rw [h.wire_eq, hp, List.flatten_append]
    simpa [Phase.inFlight] using List.take_prefix n frame

theorem framePrefix {log : List (Op α)} (h : Serial log) (hs : Sticky log) : FramePrefix log := by
  induction log with
  | nil => exact shape_nil.framePrefix
  | cons o log ih =>
    by_cases ht : Torn (o :: log)
    · -- from a torn frame on only the lock changes hands
      obtain ⟨frames, hsub, hpre⟩ := ih h.2 (by cases o <;> first | exact hs | exact hs.2)
      cases o with
      | acquire frame => exact ⟨frames, hsub.trans (List.sublist_append_left _ _), hpre⟩
      | accept bytes => exact absurd ht hs.1
      | fail => exact ⟨frames, hsub, hpre⟩
      | release => exact ⟨frames, hsub, hpre⟩
    · exact (shape h ht).framePrefix

/-- The same for a run that never adds to a torn frame. -/
theorem framePrefix_of_run {σ ε : Type*} {M : TransitionRuns.System σ ε} {G : σ → ε → Prop}
    {init s : σ} (log : σ → List (Op α)) (h : TransitionRuns.Run M G init s)
    (serial : Serial (log s)) (start : Sticky (log init))
    (step : ∀ u e, Sticky (log u) → M.Enabled u e → G u e → Sticky (log (M.next u e))) :
    FramePrefix (log s) :=
  framePrefix serial (h.invariant (I := fun u => Sticky (log u)) start step)

theorem not_torn_of_no_fail {log : List (Op α)} (h : Op.fail ∉ log) : ¬ Torn log := by
  induction log with
  | nil => exact id
  | cons o log ih =>
    have hlog := ih fun hm => h (List.mem_cons_of_mem _ hm)
    cases o with
    | fail => exact absurd List.mem_cons_self h
    | acquire => exact hlog
    | accept => exact hlog
    | release => exact hlog

theorem phase_not_failed {log : List (Op α)} (h : Op.fail ∉ log) :
    ∀ frame n, phase log ≠ .failed frame n := by
  induction log with
  | nil => simp
  | cons o log ih =>
    have hlog := ih fun hm => h (List.mem_cons_of_mem _ hm)
    cases o with
    | fail => exact absurd List.mem_cons_self h
    | acquire => simp [Phase.after]
    | release => simp [Phase.after]
    | accept bytes =>
      cases hp : phase log with
      | failed frame n => exact absurd hp (hlog frame n)
      | idle => simp [hp, Phase.after]
      | sending frame n => simp [hp, Phase.after]

/-- Without failures every frame but the current one is delivered. -/
theorem acquired_of_no_fail {log : List (Op α)} (h : Serial log) (hf : Op.fail ∉ log) :
    acquired log = delivered log ++
      match phase log with
      | .sending frame _ => [frame]
      | _ => [] := by
  induction log with
  | nil => rfl
  | cons o log ih =>
    have hlog : Op.fail ∉ log := fun hm => hf (List.mem_cons_of_mem _ hm)
    have ih := ih h.2 hlog
    cases o with
    | fail => exact absurd List.mem_cons_self hf
    | acquire frame =>
      have hp : phase log = .idle := h.1
      rw [hp] at ih
      simp only [acquired, delivered, phase_cons, Phase.after, ih, List.append_nil]
    | accept bytes =>
      obtain ⟨_, frame, n, hp, _⟩ := h.1
      rw [hp] at ih
      simpa only [acquired, delivered, phase_cons, hp, Phase.after] using ih
    | release =>
      rcases h.1 with ⟨frame, hp⟩ | ⟨frame, n, hp⟩
      · rw [hp] at ih
        simpa [acquired, delivered, hp, Phase.after] using ih
      · exact absurd hp (phase_not_failed hlog _ _)

theorem wire_prefix_acquired {log : List (Op α)} (h : Serial log) (hf : Op.fail ∉ log) :
    (wire log).IsPrefix (acquired log).flatten := by
  have hwire := (shape h (not_torn_of_no_fail hf)).wire_eq
  have hacquired := acquired_of_no_fail h hf
  cases hp : phase log with
  | sending frame n =>
    rw [hwire, hacquired, hp, List.flatten_append, List.prefix_append_right_inj]
    simpa [Phase.inFlight] using List.take_prefix n frame
  | idle =>
    rw [hwire, hacquired, hp]
    simp [Phase.inFlight]
  | failed frame n => exact absurd hp (phase_not_failed hf frame n)

theorem wire_eq_acquired {log : List (Op α)} (h : Serial log) (hf : Op.fail ∉ log)
    (idle : phase log = .idle) : wire log = (acquired log).flatten := by
  have hwire := (shape h (not_torn_of_no_fail hf)).wire_eq
  have hacquired := acquired_of_no_fail h hf
  rw [idle] at hwire hacquired
  rw [hwire, hacquired]
  simp [Phase.inFlight]

end SerializedFrames
