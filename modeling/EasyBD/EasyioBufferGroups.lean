import Mathlib.Data.List.Basic
import EasyBD.TransitionRuns

/-! The buffer group ids of the `RecvSink`s of one process. The counter is shared by all rings,
and the kernel refuses an id that is registered on the ring already. -/
namespace EasyioBufferGroups

open TransitionRuns

/-- A registered buffer ring; `serial` tells how many ids had been given out before its own. -/
structure Group where
  ring : ℕ
  bgid : UInt16
  serial : ℕ
  deriving DecidableEq

/-- Where the constructor of a `RecvSink` can fail besides: no mapping, no registration for
another reason, or no SQE for the first recv. -/
inductive Fault where
  | mapping
  | registration
  | submission
  deriving DecidableEq

/-- `counter` is that of `next_buffer_group_id`. `alive` are the buffer rings of the sinks that
exist; `leaked` are those whose sink's constructor threw after it had registered them. `created`
counts the ids given out, and `refusals` the constructors that failed for an id in use. -/
structure State where
  counter : UInt16
  created : ℕ
  alive : List Group
  leaked : List Group
  refusals : ℕ
  deriving DecidableEq

def initial : State := ⟨1, 0, [], [], 0⟩

namespace State

def registered (s : State) : List Group := s.alive ++ s.leaked

def InUse (s : State) (ring : ℕ) (bgid : UInt16) : Prop :=
  ∃ g ∈ s.registered, g.ring = ring ∧ g.bgid = bgid

instance (s : State) (ring : ℕ) (bgid : UInt16) : Decidable (s.InUse ring bgid) :=
  inferInstanceAs (Decidable (∃ g ∈ s.registered, g.ring = ring ∧ g.bgid = bgid))

/-- `next_buffer_group_id`. -/
def numbered (s : State) : State :=
  { s with counter := s.counter + 1, created := s.created + 1 }

def newGroup (s : State) (ring : ℕ) : Group := ⟨ring, s.counter, s.created⟩

/-- The constructor from the registration on. -/
def register (s : State) (ring : ℕ) (fault : Option Fault) : State :=
  if s.InUse ring s.counter then { s.numbered with refusals := s.refusals + 1 }
  else match fault with
    | none => { s.numbered with alive := s.alive ++ [s.newGroup ring] }
    | some .submission => { s.numbered with leaked := s.leaked ++ [s.newGroup ring] }
    | some _ => s.numbered

def create (s : State) (ring : ℕ) (fault : Option Fault) : State :=
  if fault = some .mapping then s.numbered else s.register ring fault

end State

inductive Event where
  | create (ring : ℕ) (fault : Option Fault)
  /-- The destructor of `RecvSink`. -/
  | destroy (g : Group)
  deriving DecidableEq

def Enabled (s : State) : Event → Prop
  | .create _ _ => True
  | .destroy g => g ∈ s.alive

instance (s : State) : (e : Event) → Decidable (Enabled s e)
  | .create _ _ => isTrue trivial
  | .destroy g => inferInstanceAs (Decidable (g ∈ s.alive))

def next (s : State) : Event → State
  | .create ring fault => s.create ring fault
  | .destroy g => { s with alive := s.alive.erase g }

def machine : System State Event := ⟨Enabled, next⟩

instance (s : State) (e : Event) : Decidable (machine.Enabled s e) :=
  inferInstanceAs (Decidable (Enabled s e))

/-- No buffer ring registered on the ring was made a multiple of 65536 ids ago. -/
def NotWrapped (s : State) : Event → Prop
  | .create ring _ => ∀ g ∈ s.registered, g.ring = ring → ¬ 65536 ∣ s.created - g.serial
  | .destroy _ => True

instance (s : State) : (e : Event) → Decidable (NotWrapped s e)
  | .create ring _ => inferInstanceAs
      (Decidable (∀ g ∈ s.registered, g.ring = ring → ¬ 65536 ∣ s.created - g.serial))
  | .destroy _ => isTrue trivial

/-- The ids are the low bits of the serial numbers, and those on one ring are distinct. -/
structure Numbers (s : State) : Prop where
  counter : s.counter.toNat = (s.created + 1) % 65536
  ids : ∀ g ∈ s.registered, g.bgid.toNat = (g.serial + 1) % 65536 ∧ g.serial < s.created
  apart : s.registered.Pairwise fun g g' => g.ring = g'.ring → g.bgid ≠ g'.bgid

section Steps

variable {s : State}

theorem numbers_initial : Numbers initial :=
  ⟨rfl, List.forall_mem_nil _, List.Pairwise.nil⟩

/-- The next id is in use on a ring exactly if the counter has come round to it. -/
theorem Numbers.inUse_iff (h : Numbers s) (ring : ℕ) (fault : Option Fault) :
    NotWrapped s (.create ring fault) ↔ ¬ s.InUse ring s.counter := by
  have hsame : ∀ g ∈ s.registered, g.bgid = s.counter ↔ 65536 ∣ s.created - g.serial := by
    intro g hg
    obtain ⟨hid, hserial⟩ := h.ids g hg
    have hcounter := h.counter
    rw [← UInt16.toNat_inj, hid, hcounter]
    omega
  constructor
  · rintro hfar ⟨g, hg, hring, hid⟩
    exact hfar g hg hring ((hsame g hg).mp hid)
  · intro hfree g hg hring hwrapped
    exact hfree ⟨g, hg, hring, (hsame g hg).mpr hwrapped⟩

theorem Numbers.numbered (h : Numbers s) : Numbers s.numbered := by
  have hcounter := h.counter
  refine ⟨?_, fun g hg => ⟨(h.ids g hg).1, Nat.lt_succ_of_lt (h.ids g hg).2⟩, h.apart⟩
  change (s.counter + 1).toNat = (s.created + 1 + 1) % 65536
  rw [UInt16.toNat_add, hcounter]
  change ((s.created + 1) % 65536 + 1) % 65536 = _
  omega

theorem Numbers.registers (h : Numbers s) {ring : ℕ} (hfree : ¬ s.InUse ring s.counter)
    {s' : State} (hcounter : s'.counter = s.numbered.counter)
    (hcreated : s'.created = s.numbered.created)
    (hregistered : s'.registered.Perm (s.newGroup ring :: s.registered)) : Numbers s' := by
  have hn := h.numbered
  refine ⟨?_, fun g hg => ?_, ?_⟩
  · rw [hcounter, hcreated]
    exact hn.counter
  · rw [hcreated]
    rcases List.mem_cons.mp (hregistered.mem_iff.mp hg) with rfl | hold
    · exact ⟨h.counter, Nat.lt_succ_self _⟩
    · exact hn.ids g hold
  · have hsymm : ∀ {g g' : Group}, (g.ring = g'.ring → g.bgid ≠ g'.bgid) →
        g'.ring = g.ring → g'.bgid ≠ g.bgid :=
      fun happart hring heq => happart hring.symm heq.symm
    refine (hregistered.pairwise_iff hsymm).mpr
      (List.pairwise_cons.mpr ⟨fun g hg hring heq => ?_, h.apart⟩)
    exact hfree ⟨g, hg, hring.symm, heq.symm⟩

theorem numbers_create (h : Numbers s) (ring : ℕ) (fault : Option Fault) :
    Numbers (s.create ring fault) := by
  have hn := h.numbered
  unfold State.create State.register
  split
  · exact hn
  · split
    · exact ⟨hn.counter, hn.ids, hn.apart⟩
    · next hfree =>
      split
      · refine h.registers hfree rfl rfl ?_
        change (s.alive ++ [s.newGroup ring] ++ s.leaked).Perm _
        rw [List.append_assoc, List.singleton_append]
        exact List.perm_middle
      · refine h.registers hfree rfl rfl ?_
        change (s.alive ++ (s.leaked ++ [s.newGroup ring])).Perm _
        rw [← List.append_assoc]
        exact List.perm_append_singleton _ _
      · exact hn

theorem numbers_step (h : Numbers s) (e : Event) : Numbers (next s e) := by
  cases e with
  | create ring fault => exact numbers_create h ring fault
  | destroy g =>
    have hsub : (s.alive.erase g ++ s.leaked).Sublist s.registered :=
      List.Sublist.append List.erase_sublist (List.Sublist.refl _)
    exact ⟨h.counter, fun g' hg' => h.ids g' (hsub.subset hg'), h.apart.sublist hsub⟩

theorem numbers_of_run {G : State → Event → Prop} (h : Run machine G initial s) : Numbers s :=
  h.invariant (I := Numbers) numbers_initial fun _ e hs _ _ => numbers_step hs e

theorem refusals_step {e : Event} (hfine : ∀ ring fault, e = .create ring fault →
    ¬ s.InUse ring s.counter) : (next s e).refusals = s.refusals := by
  cases e with
  | create ring fault =>
    have hfree := hfine ring fault rfl
    simp only [next, State.create, State.register, if_neg hfree]
    split
    · rfl
    · split <;> rfl
  | destroy g => rfl

end Steps

/-- Groups that are registered on one ring have different ids, and none was refused for an id in
use. -/
structure Collisionless (s : State) : Prop where
  apart : s.registered.Pairwise fun g g' => g.ring = g'.ring → g.bgid ≠ g'.bgid
  refusals : s.refusals = 0

/-- The ids do not collide in a run whose counter never comes round to a buffer ring that is still
registered; and where it has, the next one is refused. -/
theorem buffer_groups_never_collide {s : State} (h : Run machine NotWrapped initial s) :
    Collisionless s ∧
      ∀ ring fault, NotWrapped s (.create ring fault) ↔ ¬ s.InUse ring s.counter := by
  have hnumbers := numbers_of_run h
  refine ⟨⟨hnumbers.apart, ?_⟩, hnumbers.inUse_iff⟩
  refine h.invariant_under (I := Numbers) (J := fun s => s.refusals = 0)
    (fun _ hu => numbers_of_run hu) rfl fun u e hu hrefusals _ hfar => ?_
  rw [show machine.next u e = next u e from rfl, refusals_step]
  · exact hrefusals
  · rintro ring fault rfl
    exact (hu.inUse_iff ring fault).mp hfar

section Traces

def twoRings : List Event :=
  [.create 0 none, .create 1 (some .submission), .destroy ⟨0, 1, 0⟩, .create 0 none]

theorem buffer_groups_never_collide_on_two_rings :
    let s := runTrace machine initial twoRings
    Collisionless s ∧
      ∀ ring fault, NotWrapped s (.create ring fault) ↔ ¬ s.InUse ring s.counter :=
  buffer_groups_never_collide (run_of_trace twoRings (by decide +kernel) (by decide +kernel))

def Few (s : State) (_ : Event) : Prop := s.alive.length < 65536

/-- One connection that lasts and `n` short ones after it, all on ring 0. -/
def afterShort (n : ℕ) : State := ⟨UInt16.ofNat (n + 2), n + 1, [⟨0, 1, 0⟩], [], 0⟩

theorem run_afterShort {n : ℕ} (hn : n ≤ 65535) : Run machine Few initial (afterShort n) := by
  induction n with
  | zero =>
    exact Run.single (M := machine) (e := .create 0 none) trivial (by decide : 0 < 65536)
  | succ n ih =>
    have hfree : ¬ (afterShort n).InUse 0 (afterShort n).counter := by
      rintro ⟨g, hg, -, hid⟩
      rw [List.mem_singleton.mp hg] at hid
      have hnat := congrArg UInt16.toNat hid
      change 1 = (UInt16.ofNat (n + 2)).toNat at hnat
      rw [UInt16.toNat_ofNat'] at hnat
      omega
    have hcreate : next (afterShort n) (.create 0 none) = { (afterShort n).numbered with
        alive := [⟨0, 1, 0⟩, (afterShort n).newGroup 0] } := by
      simp only [next, State.create, State.register, if_neg hfree]
      rfl
    have hdestroy : next (next (afterShort n) (.create 0 none))
        (.destroy ((afterShort n).newGroup 0)) = afterShort (n + 1) := by
      have hcounter : UInt16.ofNat (n + 2) + 1 = UInt16.ofNat (n + 1 + 2) :=
        (UInt16.ofNat_add (n + 2) 1).symm
      have halive : [⟨0, 1, 0⟩, (afterShort n).newGroup 0].erase ((afterShort n).newGroup 0) =
          [⟨0, 1, 0⟩] := by
        simp [State.newGroup, afterShort]
      rw [hcreate]
      simp only [next]
      rw [halive]
      change State.mk (UInt16.ofNat (n + 2) + 1) (n + 1 + 1) _ _ _ = _
      rw [hcounter]
      rfl
    have hshort : (afterShort n).alive.length < 65536 := (by decide : 1 < 65536)
    have hcan : machine.Enabled (afterShort n) (.create 0 none) := trivial
    have hfirst := Run.tail (ih (by omega)) hcan hshort
    rw [← hdestroy]
    refine Run.tail (M := machine) (e := .destroy ((afterShort n).newGroup 0)) hfirst ?_ ?_
    · change (afterShort n).newGroup 0 ∈ (next (afterShort n) (.create 0 none)).alive
      rw [hcreate]
      exact List.mem_cons_of_mem _ List.mem_cons_self
    · change (next (afterShort n) (.create 0 none)).alive.length < 65536
      rw [hcreate]
      exact (by decide : 2 < 65536)

/-- After 65535 short connections the id of the lasting one comes round, and the next connection
is refused. -/
theorem group_refused_after_wrap : ∃ s, Run machine Few initial s ∧ s.alive = [⟨0, 1, 0⟩] ∧
    s.leaked = [] ∧ s.InUse 0 s.counter ∧ ¬ Collisionless (next s (.create 0 none)) := by
  have hcounter : (afterShort 65535).counter = 1 := by decide
  have hinUse : (afterShort 65535).InUse 0 (afterShort 65535).counter :=
    ⟨⟨0, 1, 0⟩, List.mem_cons_self, rfl, hcounter.symm⟩
  refine ⟨afterShort 65535, run_afterShort (Nat.le_refl _), rfl, rfl, hinUse, fun h => ?_⟩
  have hrefusals := h.refusals
  simp only [next, State.create, State.register, if_pos hinUse] at hrefusals
  cases hrefusals

end Traces

end EasyioBufferGroups
