import EasyBD.TransitionRuns
import EasyBD.EasyioQueue
import EasyBD.EasyioSendAll

/-! The two `send_all` overloads over the `iov` array itself, one call or one round of the inner
loop at a time. `EasyioSendAll` keeps only the entries that are left of the array. -/
namespace EasyioSendAllCalls

open TransitionRuns EasyioQueue EasyioSendAll

/-- The variables of either overload. -/
inductive Locals where
  | plain (buf : List UInt8) (off : ℕ)
  | gathered (iov : List (List UInt8)) (first sent total : ℕ)
  deriving DecidableEq

/-- In front of the outer loop's condition, in the inner loop with what is left of `n`, returned,
after an exception of the call, or at a read of `iov[2]`. -/
inductive Point where
  | loop
  | consuming (n : ℕ)
  | returned
  | thrown (err : Errno)
  | overrun
  deriving DecidableEq

/-- `accepted` are the bytes that the kernel has taken, oldest first. -/
structure State where
  vars : Locals
  point : Point
  accepted : List UInt8
  deriving DecidableEq

def plain (buf : List UInt8) : State := ⟨.plain buf 0, .loop, []⟩

def gathered (buf1 buf2 : List UInt8) : State :=
  ⟨.gathered [buf1, buf2] 0 0 (buf1.length + buf2.length), .loop, []⟩

namespace Locals

def Unsent : Locals → Prop
  | .plain buf off => off < buf.length
  | .gathered _ _ sent total => sent < total

instance : (v : Locals) → Decidable v.Unsent
  | .plain buf off => inferInstanceAs (Decidable (off < buf.length))
  | .gathered _ _ sent total => inferInstanceAs (Decidable (sent < total))

/-- What the next call passes to the kernel: what is behind `p + off`, or `2 - first` entries from
`iov + first` on. -/
def passed : Locals → List (List UInt8)
  | .plain buf off => [buf.drop off]
  | .gathered iov first _ _ => (iov.drop first).take (2 - first)

end Locals

namespace State

def afterCall (s : State) (n : ℕ) : State :=
  let accepted := s.accepted ++ s.vars.passed.flatten.take n
  match s.vars with
  | .plain buf off => ⟨.plain buf (off + n), .loop, accepted⟩
  | .gathered iov first sent total =>
    ⟨.gathered iov first (sent + n) total, .consuming n, accepted⟩

/-- One round of the inner loop, or its end. -/
def iterate (s : State) : State :=
  match s.point, s.vars with
  | .consuming 0, _ => { s with point := .loop }
  | .consuming (n + 1), .gathered iov first sent total =>
    match iov[first]? with
    | none => { s with point := .overrun }
    | some b =>
      if n + 1 < b.length then
        { s with
          vars := .gathered (iov.set first (b.drop (n + 1))) first sent total
          point := .consuming 0 }
      else
        { s with
          vars := .gathered iov (first + 1) sent total
          point := .consuming (n + 1 - b.length) }
  | _, _ => s

end State

inductive Event where
  | accepted (n : ℕ)
  | fails (err : Errno)
  | iterate
  | finish
  deriving DecidableEq

/-- A call takes at least one byte and at most those it is passed, or fails. -/
def Enabled (s : State) : Event → Prop
  | .accepted n => s.point = .loop ∧ s.vars.Unsent ∧ 1 ≤ n ∧ n ≤ s.vars.passed.flatten.length
  | .fails _ => s.point = .loop ∧ s.vars.Unsent
  | .iterate => ∃ n, s.point = .consuming n
  | .finish => s.point = .loop ∧ ¬ s.vars.Unsent

def next (s : State) : Event → State
  | .accepted n => s.afterCall n
  | .fails err => { s with point := .thrown err }
  | .iterate => s.iterate
  | .finish => { s with point := .returned }

def machine : System State Event := ⟨Enabled, next⟩

/-- What the inner loop still has to step over. -/
def Point.owed : Point → ℕ
  | .consuming n => n
  | _ => 0

/-- The variables describe the bytes that are not accepted, once the inner loop is through. -/
inductive Describes (bytes accepted : List UInt8) : Locals → ℕ → Prop where
  | plain : Describes bytes accepted (.plain bytes accepted.length) 0
  | gathered {iov : List (List UInt8)} {first n : ℕ} : iov.length = 2 →
      n ≤ (iov.drop first).flatten.length →
      (iov.drop first).flatten.drop n = bytes.drop accepted.length →
      Describes bytes accepted (.gathered iov first accepted.length bytes.length) n

structure Sound (bytes : List UInt8) (s : State) : Prop where
  sent : s.accepted <+: bytes
  vars : Describes bytes s.accepted s.vars s.point.owed
  inside : s.point ≠ .overrun
  returned : s.point = .returned → s.accepted = bytes

section Steps

variable {bytes : List UInt8} {s : State}

theorem sound_plain (buf : List UInt8) : Sound buf (plain buf) :=
  ⟨List.nil_prefix, .plain, by rintro ⟨⟩, by rintro ⟨⟩⟩

theorem sound_gathered (buf1 buf2 : List UInt8) : Sound (buf1 ++ buf2) (gathered buf1 buf2) := by
  refine ⟨List.nil_prefix, ?_, by rintro ⟨⟩, by rintro ⟨⟩⟩
  have hvars : Describes (buf1 ++ buf2) [] (.gathered [buf1, buf2] 0 0 (buf1 ++ buf2).length) 0 :=
    .gathered rfl (Nat.zero_le _) (by simp)
  rwa [List.length_append] at hvars

/-- The array has two entries, so the call is passed all that are left. -/
theorem passed_gathered {iov : List (List UInt8)} (htwo : iov.length = 2) (first sent total : ℕ) :
    (Locals.gathered iov first sent total).passed = iov.drop first := by
  rw [Locals.passed, ← htwo, ← List.length_drop, List.take_length]

/-- In front of the loop the next call is passed exactly what is not accepted yet. -/
theorem Sound.passed (h : Sound bytes s) (hloop : s.point = .loop) :
    s.vars.passed.flatten = bytes.drop s.accepted.length ∧
      (s.vars.Unsent ↔ s.accepted.length < bytes.length) := by
  have hvars := h.vars
  rw [hloop] at hvars
  generalize s.vars = v at hvars ⊢
  cases hvars with
  | plain => exact ⟨List.flatten_singleton, Iff.rfl⟩
  | gathered htwo _ hrest =>
    rw [passed_gathered htwo]
    exact ⟨hrest, Iff.rfl⟩

theorem Sound.first_le (h : Sound bytes s) (hloop : s.point = .loop) (hunsent : s.vars.Unsent)
    {iov : List (List UInt8)} {first sent total : ℕ}
    (hv : s.vars = .gathered iov first sent total) : first ≤ 1 := by
  obtain ⟨hpassed, hcount⟩ := h.passed hloop
  have hleft := hcount.mp hunsent
  by_contra hpast
  have hnone : s.vars.passed = [] := by
    rw [hv, Locals.passed, show 2 - first = 0 from by omega, List.take_zero]
  have hlength := congrArg List.length hpassed
  rw [hnone, List.flatten_nil, List.length_nil, List.length_drop] at hlength
  omega

theorem Sound.afterCall (h : Sound bytes s) (hloop : s.point = .loop) {n : ℕ}
    (hn : n ≤ s.vars.passed.flatten.length) : Sound bytes (s.afterCall n) := by
  obtain ⟨hpassed, -⟩ := h.passed hloop
  have hlength : (s.accepted ++ s.vars.passed.flatten.take n).length = s.accepted.length + n := by
    rw [List.length_append, List.length_take, Nat.min_eq_left hn]
  have hsent : s.accepted ++ s.vars.passed.flatten.take n <+: bytes := by
    rw [hpassed]
    conv_rhs => rw [← List.prefix_iff_eq_append.mp h.sent]
    exact (List.prefix_append_right_inj _).mpr (List.take_prefix _ _)
  have hvars := h.vars
  rw [hloop] at hvars
  cases hv : s.vars with
  | plain buf off =>
    rw [hv] at hvars hlength hsent
    cases hvars
    simp only [State.afterCall, hv]
    refine ⟨hsent, ?_, by rintro ⟨⟩, by rintro ⟨⟩⟩
    rw [← hlength]
    exact .plain
  | gathered iov first sent total =>
    rw [hv] at hvars hlength hsent hn
    cases hvars with
    | gathered htwo _ hrest =>
      simp only [State.afterCall, hv]
      refine ⟨hsent, ?_, by rintro ⟨⟩, by rintro ⟨⟩⟩
      rw [passed_gathered htwo] at hn hlength ⊢
      rw [← hlength]
      refine .gathered htwo hn ?_
      change (iov.drop first).flatten.drop n = _
      change (iov.drop first).flatten = _ at hrest
      rw [hlength, ← List.drop_drop, hrest]

theorem Sound.iterate (h : Sound bytes s) {n : ℕ} (hpoint : s.point = .consuming n) :
    Sound bytes s.iterate := by
  have hvars := h.vars
  rw [hpoint] at hvars
  cases n with
  | zero =>
    simp only [State.iterate, hpoint]
    exact ⟨h.sent, hvars, by rintro ⟨⟩, by rintro ⟨⟩⟩
  | succ n =>
    cases hv : s.vars with
    | plain buf off =>
      rw [hv] at hvars
      cases hvars
    | gathered iov first sent total =>
      rw [hv] at hvars
      cases hvars with
      | gathered htwo hn hrest =>
        change n + 1 ≤ _ at hn
        change (iov.drop first).flatten.drop (n + 1) = _ at hrest
        have hlt : first < iov.length := by
          by_contra hge
          rw [List.drop_of_length_le (by omega), List.flatten_nil, List.length_nil] at hn
          omega
        have hentry := List.drop_eq_getElem_cons hlt
        rw [hentry, List.flatten_cons] at hn hrest
        rw [List.length_append] at hn
        simp only [State.iterate, hpoint, hv, List.getElem?_eq_getElem hlt]
        split
        · next hshort =>
          have hset : (iov.set first (iov[first].drop (n + 1))).drop first =
              iov[first].drop (n + 1) :: iov.drop (first + 1) := by
            rw [List.drop_set, if_neg (Nat.lt_irrefl first), Nat.sub_self, hentry,
              List.set_cons_zero]
          refine ⟨h.sent, .gathered (List.length_set.trans htwo) (Nat.zero_le _) ?_,
            by rintro ⟨⟩, by rintro ⟨⟩⟩
          rw [hset, List.flatten_cons, ← hrest,
            List.drop_append_of_le_length (i := n + 1) (by omega)]
          rfl
        · next hpast =>
          refine ⟨h.sent, .gathered htwo ?_ ?_, by rintro ⟨⟩, by rintro ⟨⟩⟩
          · change n + 1 - iov[first].length ≤ _
            omega
          · change (iov.drop (first + 1)).flatten.drop (n + 1 - iov[first].length) = _
            rw [← hrest, List.drop_append, List.drop_of_length_le (l := iov[first]) (by omega),
              List.nil_append]

theorem sound_step {e : Event} (h : Sound bytes s) (he : Enabled s e) : Sound bytes (next s e) := by
  cases e with
  | accepted n => exact h.afterCall he.1 he.2.2.2
  | fails err =>
    have hvars := h.vars
    rw [he.1] at hvars
    exact ⟨h.sent, hvars, by rintro ⟨⟩, by rintro ⟨⟩⟩
  | iterate =>
    obtain ⟨n, hpoint⟩ := he
    exact h.iterate hpoint
  | finish =>
    have hvars := h.vars
    rw [he.1] at hvars
    refine ⟨h.sent, hvars, by rintro ⟨⟩, fun _ => h.sent.eq_of_length_le ?_⟩
    exact Nat.le_of_not_lt fun hlt => he.2 ((h.passed he.1).2.mpr hlt)

theorem sound_of_run {G : State → Event → Prop} {s₀ : State} (h₀ : Sound bytes s₀)
    (h : Run machine G s₀ s) : Sound bytes s :=
  h.invariant (I := Sound bytes) h₀ fun _ _ hs he _ => sound_step hs he

end Steps

section Termination

variable {bytes : List UInt8} {s : State}

/-- Five steps for each byte: the call, three rounds of the inner loop at most, and its end. -/
def work (bytes : List UInt8) (s : State) : ℕ :=
  match s.point, s.vars with
  | .loop, _ => 5 * (bytes.length - s.accepted.length) + 1
  | .consuming n, .gathered _ first _ _ =>
    5 * (bytes.length - s.accepted.length) + (2 - first) + (if n = 0 then 2 else 3)
  | .consuming _, .plain _ _ => 5 * (bytes.length - s.accepted.length) + 2
  | _, _ => 0

def Stopped (s : State) : Prop := s.point = .returned ∨ ∃ err, s.point = .thrown err

def NoFailure (_ : State) : Event → Prop
  | .fails _ => False
  | _ => True

theorem Sound.moves (h : Sound bytes s) (hgoes : ¬ Stopped s) :
    ∃ e, Enabled s e ∧ NoFailure s e := by
  cases hpoint : s.point with
  | loop =>
    by_cases hunsent : s.vars.Unsent
    · obtain ⟨hpassed, hcount⟩ := h.passed hpoint
      have hleft := hcount.mp hunsent
      have hone : 1 ≤ s.vars.passed.flatten.length := by
        rw [hpassed, List.length_drop]
        omega
      exact ⟨.accepted 1, ⟨hpoint, hunsent, Nat.le_refl 1, hone⟩, trivial⟩
    · exact ⟨.finish, ⟨hpoint, hunsent⟩, trivial⟩
  | consuming n => exact ⟨.iterate, ⟨n, hpoint⟩, trivial⟩
  | returned => exact absurd (Or.inl hpoint) hgoes
  | thrown err => exact absurd (Or.inr ⟨err, hpoint⟩) hgoes
  | overrun => exact absurd hpoint h.inside

theorem work_afterCall (h : Sound bytes s) (hloop : s.point = .loop) {n : ℕ} (hpos : 1 ≤ n)
    (hn : n ≤ s.vars.passed.flatten.length) : work bytes (s.afterCall n) < work bytes s := by
  obtain ⟨hpassed, -⟩ := h.passed hloop
  have hlength : (s.accepted ++ s.vars.passed.flatten.take n).length = s.accepted.length + n := by
    rw [List.length_append, List.length_take, Nat.min_eq_left hn]
  have hroom : s.accepted.length + n ≤ bytes.length := by
    rw [hpassed, List.length_drop] at hn
    have hsent := h.sent.length_le
    omega
  cases hv : s.vars with
  | plain buf off =>
    rw [hv] at hlength
    simp only [work, State.afterCall, hv, hloop, hlength]
    omega
  | gathered iov first sent total =>
    rw [hv] at hlength
    have hn0 : n ≠ 0 := Nat.ne_of_gt hpos
    simp only [work, State.afterCall, hv, hloop, hlength, if_neg hn0]
    omega

theorem work_iterate (h : Sound bytes s) {n : ℕ} (hpoint : s.point = .consuming n) :
    work bytes s.iterate < work bytes s := by
  cases n with
  | zero =>
    cases hv : s.vars with
    | plain buf off =>
      simp only [work, State.iterate, hpoint, hv]
      omega
    | gathered iov first sent total =>
      simp only [work, State.iterate, hpoint, hv, if_true]
      omega
  | succ n =>
    have hinside := (h.iterate hpoint).inside
    have hvars := h.vars
    rw [hpoint] at hvars
    cases hv : s.vars with
    | plain buf off =>
      rw [hv] at hvars
      cases hvars
    | gathered iov first sent total =>
      rw [hv] at hvars
      cases hvars with
      | gathered htwo _ _ =>
        cases hentry : iov[first]? with
        | none => simp [State.iterate, hpoint, hv, hentry] at hinside
        | some b =>
          have hfirst : first < 2 := htwo ▸ (List.getElem?_eq_some_iff.mp hentry).1
          by_cases hshort : n + 1 < b.length
          · simp only [work, State.iterate, hpoint, hv, hentry, if_pos hshort, Nat.succ_ne_zero,
              if_false, if_true]
            omega
          · simp only [work, State.iterate, hpoint, hv, hentry, if_neg hshort, Nat.succ_ne_zero,
              if_false]
            split <;> omega

theorem work_step (h : Sound bytes s) {e : Event} (he : Enabled s e) :
    work bytes (next s e) < work bytes s := by
  cases e with
  | accepted n => exact work_afterCall h he.1 he.2.2.1 he.2.2.2
  | fails err => simp [next, work, he.1]
  | iterate =>
    obtain ⟨n, hpoint⟩ := he
    exact work_iterate h hpoint
  | finish => simp [next, work, he.1]

theorem Sound.stops (h : Sound bytes s) {G : State → Event → Prop}
    (hG : ∀ s e, NoFailure s e → G s e) :
    Inevitable machine G Stopped s :=
  Inevitable.of_work (I := Sound bytes) (work bytes) (fun _ _ hs he _ => sound_step hs he)
    (fun u hs hgoes => by
      obtain ⟨e, he, hfine⟩ := hs.moves hgoes
      exact ⟨e, he, hG u e hfine⟩)
    (fun _ _ hs he _ => work_step hs he) h

theorem not_thrown_step {e : Event} (he : Enabled s e) (hfine : NoFailure s e) (err : Errno) :
    (next s e).point ≠ .thrown err := by
  cases e with
  | accepted n =>
    simp only [next, State.afterCall]
    split <;> simp
  | fails err => exact hfine.elim
  | iterate =>
    obtain ⟨n, hpoint⟩ := he
    simp only [next, State.iterate, hpoint]
    split
    · simp
    · split
      · simp
      · split <;> simp
    · simp [hpoint]
  | finish => simp [next]

theorem Sound.returns (h : Sound bytes s) (hfine : ∀ err, s.point ≠ .thrown err) :
    Inevitable machine NoFailure (fun s => s.point = .returned) s :=
  Inevitable.of_work (I := fun s => Sound bytes s ∧ ∀ err, s.point ≠ .thrown err) (work bytes)
    (fun _ _ hs he hg => ⟨sound_step hs.1 he, not_thrown_step he hg⟩)
    (fun _ hs hgoes => hs.1.moves fun hstopped => by
      rcases hstopped with hreturned | ⟨err, hthrown⟩
      · exact hgoes hreturned
      · exact hs.2 err hthrown)
    (fun _ _ hs he _ => work_step hs.1 he) ⟨h, hfine⟩

end Termination

section View

/-- What `EasyioSendAll` keeps of the variables. -/
def Locals.view : Locals → SendAll
  | .plain buf off => .plain buf off
  | .gathered iov first sent total => .gathered (iov.drop first) first sent total

theorem run_iterate {s t : State} {n : ℕ} (hpoint : s.point = .consuming n)
    (ht : s.iterate = t) : Run machine NoFailure s t :=
  ht ▸ Run.single (M := machine) (e := .iterate) ⟨n, hpoint⟩ trivial

/-- The inner loop steps over the entries, and shortens one, as `consume` does. -/
theorem iterations_consume {left : List (List UInt8)} {n k : ℕ} {left' : List (List UInt8)}
    (h : consume left n = some (k, left')) {iov : List (List UInt8)} {first : ℕ}
    (hleft : iov.drop first = left) (sent total : ℕ) (accepted : List UInt8) :
    ∃ iov', iov'.length = iov.length ∧ iov'.drop (first + k) = left' ∧
      Run machine NoFailure ⟨.gathered iov first sent total, .consuming n, accepted⟩
        ⟨.gathered iov' (first + k) sent total, .loop, accepted⟩ := by
  induction left generalizing n k first with
  | nil =>
    cases n with
    | zero =>
      obtain ⟨rfl, rfl⟩ := Prod.mk.inj (Option.some.inj (by simpa only [consume] using h))
      exact ⟨iov, rfl, hleft, run_iterate rfl rfl⟩
    | succ n => simp [consume] at h
  | cons b left ih =>
    cases n with
    | zero =>
      obtain ⟨rfl, rfl⟩ := Prod.mk.inj (Option.some.inj (by simpa only [consume] using h))
      exact ⟨iov, rfl, hleft, run_iterate rfl rfl⟩
    | succ n =>
      have hlt : first < iov.length := by
        by_contra hge
        rw [List.drop_of_length_le (by omega)] at hleft
        cases hleft
      obtain ⟨hentry, hrest⟩ := List.cons.inj ((List.drop_eq_getElem_cons hlt).symm.trans hleft)
      have hget : iov[first]? = some b := hentry ▸ List.getElem?_eq_getElem hlt
      by_cases hshort : n + 1 < b.length
      · simp only [consume, if_pos hshort] at h
        obtain ⟨rfl, rfl⟩ := Prod.mk.inj (Option.some.inj h)
        have hstep : State.iterate ⟨.gathered iov first sent total, .consuming (n + 1), accepted⟩ =
            ⟨.gathered (iov.set first (b.drop (n + 1))) first sent total, .consuming 0,
              accepted⟩ := by
          simp only [State.iterate, hget, if_pos hshort]
        refine ⟨iov.set first (b.drop (n + 1)), List.length_set, ?_, ?_⟩
        · rw [Nat.add_zero, List.drop_set, if_neg (Nat.lt_irrefl first), Nat.sub_self, hleft,
            List.set_cons_zero]
        · exact (run_iterate rfl hstep).trans (run_iterate rfl rfl)
      · simp only [consume, if_neg hshort, Option.map_eq_some_iff] at h
        obtain ⟨⟨k', left''⟩, hconsume, hpair⟩ := h
        obtain ⟨rfl, rfl⟩ := Prod.mk.inj hpair
        have hstep : State.iterate ⟨.gathered iov first sent total, .consuming (n + 1), accepted⟩ =
            ⟨.gathered iov (first + 1) sent total, .consuming (n + 1 - b.length), accepted⟩ := by
          simp only [State.iterate, hget, if_neg hshort]
        obtain ⟨iov', hlength, hdrop, hrun⟩ := ih hconsume hrest
        rw [show first + (k' + 1) = first + 1 + k' from by omega]
        exact ⟨iov', hlength, hdrop, (run_iterate rfl hstep).trans hrun⟩

theorem Sound.resume {bytes : List UInt8} {s : State} (h : Sound bytes s)
    (hloop : s.point = .loop) {n : ℕ} (hn : n ≤ s.vars.passed.flatten.length) :
    ∃ t, Run machine NoFailure (s.afterCall n) t ∧ t.point = .loop ∧
      s.vars.view.resume n = some t.vars.view := by
  have hvars := h.vars
  rw [hloop] at hvars
  cases hv : s.vars with
  | plain buf off =>
    simp only [State.afterCall, hv]
    exact ⟨_, .refl, rfl, rfl⟩
  | gathered iov first sent total =>
    rw [hv] at hvars hn
    cases hvars with
    | gathered htwo _ _ =>
      rw [passed_gathered htwo] at hn
      obtain ⟨k, left, hconsume, -, -⟩ := consume_spec hn
      simp only [State.afterCall, hv]
      obtain ⟨iov', -, hdrop, hrun⟩ := iterations_consume hconsume rfl (s.accepted.length + n)
        bytes.length (s.accepted ++
          (Locals.gathered iov first s.accepted.length bytes.length).passed.flatten.take n)
      refine ⟨_, hrun, rfl, ?_⟩
      simp only [Locals.view, SendAll.resume, hconsume, Option.map_some, hdrop]

end View

/-- A call is passed exactly the unsent rest, `iov[2]` is not read, and whether it returns or
throws, what has been sent is what the kernel accepted. -/
structure Transmits (bytes : List UInt8) (s : State) : Prop where
  call : s.point = .loop → s.vars.Unsent →
    s.vars.passed ≠ [] ∧ s.vars.passed.flatten = bytes.drop s.accepted.length
  first : s.point = .loop → s.vars.Unsent →
    ∀ iov first sent total, s.vars = .gathered iov first sent total → first ≤ 1
  inside : s.point ≠ .overrun
  sent : s.accepted = bytes.take s.accepted.length
  returned : s.point = .returned → s.accepted = bytes
  failure : ∀ err, Enabled s (.fails err) →
    next s (.fails err) = ⟨s.vars, .thrown err, s.accepted⟩ ∧ ∀ e, ¬ Enabled (next s (.fails err)) e

structure SendsExactly (bytes : List UInt8) (call : State) : Prop where
  run : ∀ s, Reachable machine call s → Transmits bytes s
  stops : Inevitable machine Unrestricted Stopped call
  returns : Inevitable machine NoFailure (fun s => s.point = .returned) call

theorem Sound.transmits {bytes : List UInt8} {s : State} (h : Sound bytes s) :
    Transmits bytes s where
  call hloop hunsent := by
    obtain ⟨hpassed, hcount⟩ := h.passed hloop
    refine ⟨fun hnil => ?_, hpassed⟩
    have hlength := congrArg List.length hpassed
    rw [hnil, List.flatten_nil, List.length_nil, List.length_drop] at hlength
    have hleft := hcount.mp hunsent
    omega
  first hloop hunsent _ _ _ _ hv := h.first_le hloop hunsent hv
  inside := h.inside
  sent := List.prefix_iff_eq_take.mp h.sent
  returned := h.returned
  failure err _ := by
    refine ⟨rfl, fun e => ?_⟩
    cases e <;> simp [Enabled, next]

theorem Sound.sendsExactly {bytes : List UInt8} {s : State} (h : Sound bytes s)
    (hfine : ∀ err, s.point ≠ .thrown err) : SendsExactly bytes s :=
  ⟨fun _ hs => (sound_of_run h hs).transmits, h.stops fun _ _ _ => trivial, h.returns hfine⟩

theorem send_all_sends_exactly (buf1 buf2 : List UInt8) :
    SendsExactly (buf1 ++ buf2) (gathered buf1 buf2) ∧ SendsExactly buf1 (plain buf1) :=
  ⟨(sound_gathered buf1 buf2).sendsExactly (by simp [gathered]),
    (sound_plain buf1).sendsExactly (by simp [plain])⟩

/-- The first buffer is empty; its entry goes with the first two bytes of the second. -/
example : runTrace machine (gathered [] [1, 2, 3])
    [.accepted 2, .iterate, .iterate, .iterate, .accepted 1, .iterate, .iterate, .finish] =
      ⟨.gathered [[], [3]] 2 3 3, .returned, [1, 2, 3]⟩ := by decide

end EasyioSendAllCalls
