import Mathlib.Data.List.Basic
import EasyBD.TransitionRuns
import EasyBD.EasyioRecvStream

/-! The lifetime of `RecvSink` and `SingleShotRecvSink`. `Sink` is what the two share and knows of
the stream only when it submits a recv; `Driver` is a stream seen from its sink. `on_cqe` does
nothing after `handle_cqe`, and that nothing after it has resumed the reader, so what the reader
does inside the resumption, which may be to destroy the stream, is the step that follows. -/
namespace EasyioRecvSink

open TransitionRuns EasyioRecvStream

/-- `queued` and `running` count the recvs that `submit_recv` has queued and that the kernel runs;
`posted` are their completions not yet dispatched, true for one with `IORING_CQE_F_MORE`. -/
structure Recv where
  live : Bool
  queued : ℕ
  running : ℕ
  posted : List Bool
  deriving DecidableEq

namespace Recv

def submitRecv (r : Recv) : Recv := { r with queued := r.queued + 1, live := true }

def start (r : Recv) : Recv := { r with queued := r.queued - 1, running := r.running + 1 }

/-- The kernel posts a completion; one without `F_MORE` ends the recv. -/
def post (r : Recv) (more : Bool) : Recv :=
  { r with
    posted := r.posted ++ [more]
    running := if more = true then r.running else r.running - 1 }

/-- The first part of `on_cqe`. A plain recv's completion never has `F_MORE`. -/
def seen (r : Recv) (more : Bool) : Recv := if more = true then r else { r with live := false }

end Recv

/-- `canceling` tells that a cancel SQE was queued, `freed` counts the deletes, and `late` the
completions delivered after one. -/
structure Sink where
  owned : Bool
  recv : Recv
  canceling : Bool
  freed : ℕ
  late : ℕ
  deriving DecidableEq

namespace Sink

def initial : Sink := ⟨true, ⟨true, 1, 0, []⟩, false, 0, 0⟩

def delivered (k : Sink) (more : Bool) : Sink :=
  { k with recv := k.recv.seen more, late := if k.freed = 0 then k.late else k.late + 1 }

/-- `handle_cqe` of the owner, or the end of an orphan. -/
def handled (k : Sink) (resubmits : Bool) : Sink :=
  if k.owned = true then
    if resubmits = true then { k with recv := k.recv.submitRecv } else k
  else if k.recv.live = false then { k with freed := k.freed + 1 } else k

def onCqe (k : Sink) (more resubmits : Bool) : Sink := (k.delivered more).handled resubmits

/-- The destructor of either stream; `sqe` tells that there was room for the cancel SQE. -/
def destroy (k : Sink) (sqe : Bool) : Sink :=
  if k.recv.live = true then { k with owned := false, canceling := sqe }
  else { k with owned := false, freed := k.freed + 1 }

end Sink

inductive Event where
  | submit
  | complete (more : Bool)
  | dispatch (resubmits : Bool)
  /-- `next` or `next_batch` of the owner's reader. -/
  | call (resubmits : Bool)
  | destroy (sqe : Bool)
  deriving DecidableEq

/-- The stream submits a recv only while none is live. -/
def Enabled (k : Sink) : Event → Prop
  | .submit => 0 < k.recv.queued
  | .complete _ => 0 < k.recv.running
  | .dispatch resubmits => k.recv.posted ≠ [] ∧
      (resubmits = true → k.owned = true ∧ k.recv.posted.head? = some false)
  | .call resubmits => k.owned = true ∧ (resubmits = true → k.recv.live = false)
  | .destroy _ => k.owned = true

def next (k : Sink) : Event → Sink
  | .submit => { k with recv := k.recv.start }
  | .complete more => { k with recv := k.recv.post more }
  | .dispatch resubmits =>
    match k.recv.posted with
    | more :: posted => { k with recv := { k.recv with posted } }.onCqe more resubmits
    | [] => k
  | .call resubmits => if resubmits = true then { k with recv := k.recv.submitRecv } else k
  | .destroy sqe => k.destroy sqe

def machine : System Sink Event := ⟨Enabled, next⟩

/-- A recv is live from `submit_recv` until its last completion is dispatched, and there is one
at a time; the sink is deleted once it has neither an owner nor a recv. -/
structure Sound (k : Sink) : Prop where
  outstanding : k.recv.queued + k.recv.running + k.recv.posted.count false = k.recv.live.toNat
  last : ∀ more ∈ k.recv.posted.dropLast, more = true
  posted : k.recv.posted ≠ [] → k.recv.live = true
  freed : k.freed = if k.owned = false ∧ k.recv.live = false then 1 else 0
  late : k.late = 0

section Steps

variable {k : Sink}

theorem sound_initial : Sound .initial :=
  ⟨rfl, List.forall_mem_nil _, fun hne => absurd rfl hne, rfl, rfl⟩

theorem Sound.freed_of_live (h : Sound k) (hlive : k.recv.live = true) : k.freed = 0 := by
  rw [h.freed, hlive]
  simp

theorem Sound.freed_of_owned (h : Sound k) (howned : k.owned = true) : k.freed = 0 := by
  rw [h.freed, howned]
  simp

theorem Sound.idle (h : Sound k) (hlive : k.recv.live = false) :
    k.recv.queued = 0 ∧ k.recv.running = 0 ∧ k.recv.posted = [] := by
  have houtstanding := h.outstanding
  rw [hlive, Bool.toNat_false] at houtstanding
  refine ⟨by omega, by omega, ?_⟩
  by_contra hne
  rw [h.posted hne] at hlive
  cases hlive

theorem Sound.submitRecv (h : Sound k) (howned : k.owned = true) (hlive : k.recv.live = false) :
    Sound { k with recv := k.recv.submitRecv } := by
  obtain ⟨hqueued, hrunning, hposted⟩ := h.idle hlive
  refine ⟨?_, h.last, fun _ => rfl, ?_, h.late⟩
  · simp [Recv.submitRecv, hqueued, hrunning, hposted]
  · rw [h.freed_of_owned howned]
    simp [Recv.submitRecv]

theorem Sound.complete (h : Sound k) (hrunning : 0 < k.recv.running) (more : Bool) :
    Sound { k with recv := k.recv.post more } := by
  have houtstanding := h.outstanding
  have hlive : k.recv.live = true := by
    by_contra hdead
    rw [Bool.not_eq_true] at hdead
    have hzero := (h.idle hdead).2.1
    omega
  rw [hlive, Bool.toNat_true] at houtstanding
  have hnone : k.recv.posted.count false = 0 := by omega
  refine ⟨?_, ?_, fun _ => hlive, h.freed, h.late⟩
  · have hqueued : k.recv.queued = 0 := by omega
    cases more with
    | true => simp [Recv.post, hlive, hnone]; omega
    | false => simp [Recv.post, hlive, hnone]; omega
  · intro more' hmore'
    simp only [Recv.post, List.dropLast_concat] at hmore'
    by_contra hfalse
    rw [Bool.not_eq_true] at hfalse
    subst hfalse
    exact List.count_eq_zero.mp hnone hmore'

/-- A completion is delivered to a sink that is there; the last one of an orphan deletes it. -/
theorem Sound.dispatch (h : Sound k) {more : Bool} {posted : List Bool}
    (top : k.recv.posted = more :: posted) {resubmits : Bool}
    (hresubmits : resubmits = true → k.owned = true ∧ more = false) :
    Sound ({ k with recv := { k.recv with posted } }.onCqe more resubmits) := by
  have hlive := h.posted (by simp [top])
  have hfreed := h.freed_of_live hlive
  have houtstanding := h.outstanding
  have hlast := h.last
  rw [top, hlive, Bool.toNat_true] at houtstanding
  rw [top] at hlast
  have htail : ∀ more' ∈ posted.dropLast, more' = true := by
    intro more' hmore'
    apply hlast more'
    cases posted with
    | nil => cases hmore'
    | cons p posted => exact List.mem_cons_of_mem _ hmore'
  cases more with
  | true =>
    have hno : resubmits = false := by
      by_contra hyes
      have hmore := (hresubmits (by simpa using hyes)).2
      cases hmore
    subst hno
    rw [List.count_cons_of_ne (by simp)] at houtstanding
    have hgoes : Sound { k with recv := { k.recv with posted } } :=
      ⟨by simpa [hlive] using houtstanding, htail, fun _ => hlive, h.freed, h.late⟩
    simpa [Sink.onCqe, Sink.delivered, Sink.handled, Recv.seen, hfreed, hlive] using hgoes
  | false =>
    rw [List.count_cons_self] at houtstanding
    -- The last completion is the last one posted.
    have hposted : posted = [] := by
      by_contra hne
      have hfirst := hlast false
      rw [List.dropLast_cons_of_ne_nil hne] at hfirst
      cases hfirst List.mem_cons_self
    subst hposted
    have hqueued : k.recv.queued = 0 := by omega
    have hrunning : k.recv.running = 0 := by omega
    cases howned : k.owned with
    | true =>
      have hended : Sound { k with recv := { k.recv with posted := [], live := false } } :=
        ⟨by simp [hqueued, hrunning], List.forall_mem_nil _, fun hne => absurd rfl hne,
          by simp [hfreed, howned], h.late⟩
      cases resubmits with
      | true =>
        have hsubmitted := hended.submitRecv howned rfl
        simpa [Sink.onCqe, Sink.delivered, Sink.handled, Recv.seen, hfreed, howned] using hsubmitted
      | false =>
        simpa [Sink.onCqe, Sink.delivered, Sink.handled, Recv.seen, hfreed, howned] using hended
    | false =>
      have hdeleted : Sound { k with
          recv := { k.recv with posted := [], live := false }, freed := k.freed + 1 } :=
        ⟨by simp [hqueued, hrunning], List.forall_mem_nil _, fun hne => absurd rfl hne,
          by simp [hfreed, howned], h.late⟩
      simpa [Sink.onCqe, Sink.delivered, Sink.handled, Recv.seen, hfreed, howned] using hdeleted

theorem Sound.destroy (h : Sound k) (howned : k.owned = true) (sqe : Bool) :
    Sound (k.destroy sqe) := by
  have hfreed := h.freed_of_owned howned
  cases hlive : k.recv.live with
  | true =>
    have horphan : Sound { k with owned := false, canceling := sqe } :=
      ⟨h.outstanding, h.last, h.posted, by simp [hfreed, hlive], h.late⟩
    simpa [Sink.destroy, hlive] using horphan
  | false =>
    have hdeleted : Sound { k with owned := false, freed := k.freed + 1 } :=
      ⟨h.outstanding, h.last, h.posted, by simp [hfreed, hlive], h.late⟩
    simpa [Sink.destroy, hlive] using hdeleted

theorem sound_step {e : Event} (h : Sound k) (he : Enabled k e) : Sound (next k e) := by
  cases e with
  | submit =>
    refine ⟨?_, h.last, h.posted, h.freed, h.late⟩
    have houtstanding := h.outstanding
    have hqueued : 0 < k.recv.queued := he
    simp only [next, Recv.start]
    omega
  | complete more => exact h.complete he more
  | dispatch resubmits =>
    obtain ⟨hne, hresubmits⟩ := he
    obtain ⟨more, posted, top⟩ := List.exists_cons_of_ne_nil hne
    simp only [next, top]
    refine h.dispatch top fun hyes => ?_
    obtain ⟨howned, hhead⟩ := hresubmits hyes
    rw [top, List.head?_cons] at hhead
    exact ⟨howned, Option.some.inj hhead⟩
  | call resubmits =>
    cases resubmits with
    | true => exact h.submitRecv he.1 (he.2 rfl)
    | false => exact h
  | destroy sqe => exact h.destroy he sqe

end Steps

/-- No completion is delivered to a freed sink; it is freed at most once, with no recv
outstanding and nobody owning it, and as soon as that is so. -/
structure FreedOnce (k : Sink) : Prop where
  late : k.late = 0
  once : k.freed ≤ 1
  outstanding : 0 < k.freed → k.recv.queued + k.recv.running = 0 ∧ k.recv.posted = []
  orphaned : 0 < k.freed → k.owned = false
  freed : k.owned = false → k.recv.queued + k.recv.running = 0 → k.recv.posted = [] → k.freed = 1

theorem freedOnce_of_reachable {k : Sink} (h : Reachable machine .initial k) : FreedOnce k := by
  have hsound : Sound k :=
    h.invariant (I := Sound) sound_initial fun _ _ hs he _ => sound_step hs he
  have hfreed := hsound.freed
  have hboth : 0 < k.freed → k.owned = false ∧ k.recv.live = false := by
    intro hpos
    by_contra hnot
    rw [if_neg hnot] at hfreed
    omega
  refine ⟨hsound.late, ?_, fun hpos => ?_, fun hpos => (hboth hpos).1,
    fun howned hnone hposted => ?_⟩
  · split at hfreed <;> omega
  · obtain ⟨hqueued, hrunning, hposted⟩ := hsound.idle (hboth hpos).2
    exact ⟨by omega, hposted⟩
  · have houtstanding := hsound.outstanding
    rw [hposted, List.count_nil, Nat.add_zero, hnone] at houtstanding
    have hdead : k.recv.live = false := by
      cases hlive : k.recv.live with
      | false => rfl
      | true => rw [hlive] at houtstanding; cases houtstanding
    rw [hfreed, if_pos ⟨howned, hdead⟩]

/-- A stream and its sink's recv: what the kernel does, `_live = false`, `handle_cqe` and the
reader's calls. -/
structure Driver (σ κ : Type*) where
  recv : σ → Recv
  more : κ → Bool
  start : σ → σ
  post : σ → κ → σ
  front : σ → Option (κ × σ)
  clear : σ → σ
  handleCqe : σ → κ → σ
  await : σ → Waiter → σ
  waiter : σ → Option Waiter

namespace Driver

variable {σ κ : Type*}

/-- A sink and its stream; once `owned` is false only the recv is left of it. -/
structure State (σ : Type*) where
  stream : σ
  owned : Bool
  canceling : Bool
  freed : ℕ
  late : ℕ

inductive Event (κ : Type*) where
  | submit
  | complete (c : κ)
  | dispatch
  | call (w : Waiter)
  | destroy (sqe : Bool)

variable (D : Driver σ κ)

def initial (s : σ) : State σ := ⟨s, true, false, 0, 0⟩

def sink (m : State σ) : Sink := ⟨m.owned, D.recv m.stream, m.canceling, m.freed, m.late⟩

def onCqe (m : State σ) (c : κ) : State σ :=
  let m := if m.freed = 0 then m else { m with late := m.late + 1 }
  let m := if D.more c = true then m else { m with stream := D.clear m.stream }
  if m.owned = true then { m with stream := D.handleCqe m.stream c }
  else if (D.recv m.stream).live = false then { m with freed := m.freed + 1 } else m

/-- The stream's destructor. -/
def destroy (m : State σ) (sqe : Bool) : State σ :=
  let m := { m with owned := false }
  if (D.recv m.stream).live = true then { m with canceling := sqe }
  else { m with freed := m.freed + 1 }

def next (m : State σ) : Event κ → State σ
  | .submit => { m with stream := D.start m.stream }
  | .complete c => { m with stream := D.post m.stream c }
  | .dispatch =>
    match D.front m.stream with
    | some (c, s) => D.onCqe { m with stream := s } c
    | none => m
  | .call w => { m with stream := D.await m.stream w }
  | .destroy sqe => D.destroy m sqe

/-- `Posts` is what the kernel posts; a suspended reader makes no call. -/
def Enabled (Posts : κ → Prop) (m : State σ) : Event κ → Prop
  | .submit => 0 < (D.recv m.stream).queued
  | .complete c => 0 < (D.recv m.stream).running ∧ Posts c
  | .dispatch => (D.front m.stream).isSome = true
  | .call _ => m.owned = true ∧ D.waiter m.stream = none
  | .destroy _ => m.owned = true

def machine (Posts : κ → Prop) : System (State σ) (Event κ) := ⟨D.Enabled Posts, D.next⟩

instance (Posts : κ → Prop) [DecidablePred Posts] (m : State σ) :
    (e : Event κ) → Decidable (D.Enabled Posts m e)
  | .submit => inferInstanceAs (Decidable (0 < (D.recv m.stream).queued))
  | .complete c => inferInstanceAs (Decidable (0 < (D.recv m.stream).running ∧ Posts c))
  | .dispatch => inferInstanceAs (Decidable ((D.front m.stream).isSome = true))
  | .call _ => inferInstanceAs (Decidable (m.owned = true ∧ D.waiter m.stream = none))
  | .destroy _ => inferInstanceAs (Decidable (m.owned = true))

instance (Posts : κ → Prop) [DecidablePred Posts] (m : State σ) (e : Event κ) :
    Decidable ((D.machine Posts).Enabled m e) := inferInstanceAs (Decidable (D.Enabled Posts m e))

/-- The stream does to the recv what it should: it submits one only after the last has ended. -/
structure Lawful (Posts : κ → Prop) (I : σ → Prop) : Prop where
  start : ∀ s, D.recv (D.start s) = (D.recv s).start
  post : ∀ s c, D.recv (D.post s c) = (D.recv s).post (D.more c)
  front : ∀ s c s', D.front s = some (c, s') →
    D.recv s = { D.recv s' with posted := D.more c :: (D.recv s').posted }
  clear : ∀ s, D.recv (D.clear s) = { D.recv s with live := false }
  keeps_start : ∀ s, I s → 0 < (D.recv s).queued → I (D.start s)
  keeps_post : ∀ s c, I s → 0 < (D.recv s).running → Posts c → I (D.post s c)
  dispatch : ∀ s c s', I s → D.front s = some (c, s') →
    ∃ resubmits, (resubmits = true → D.more c = false) ∧
      let u := D.handleCqe (if D.more c = true then s' else D.clear s') c
      I u ∧ D.recv u = if resubmits = true then ((D.recv s').seen (D.more c)).submitRecv
        else (D.recv s').seen (D.more c)
  await : ∀ s w, I s → ∃ resubmits, (resubmits = true → (D.recv s).live = false) ∧
    I (D.await s w) ∧
      D.recv (D.await s w) = if resubmits = true then (D.recv s).submitRecv else D.recv s

section Simulation

variable {D} {Posts : κ → Prop} {I : σ → Prop} {m : State σ}

theorem sink_onCqe_owned (m : State σ) (howned : m.owned = true) (c : κ) {resubmits : Bool}
    (hrecv : D.recv (D.handleCqe (if D.more c = true then m.stream else D.clear m.stream) c) =
      if resubmits = true then ((D.recv m.stream).seen (D.more c)).submitRecv
      else (D.recv m.stream).seen (D.more c)) :
    (D.onCqe m c).owned = true ∧ (D.onCqe m c).stream =
        D.handleCqe (if D.more c = true then m.stream else D.clear m.stream) c ∧
      D.sink (D.onCqe m c) = (D.sink m).onCqe (D.more c) resubmits := by
  by_cases hmore : D.more c = true
  · rw [if_pos hmore] at hrecv ⊢
    by_cases hfreed : m.freed = 0
    · cases resubmits <;> simp_all [Driver.onCqe, sink, Sink.onCqe, Sink.delivered, Sink.handled]
    · cases resubmits <;> simp_all [Driver.onCqe, sink, Sink.onCqe, Sink.delivered, Sink.handled]
  · rw [if_neg hmore] at hrecv ⊢
    by_cases hfreed : m.freed = 0
    · cases resubmits <;> simp_all [Driver.onCqe, sink, Sink.onCqe, Sink.delivered, Sink.handled]
    · cases resubmits <;> simp_all [Driver.onCqe, sink, Sink.onCqe, Sink.delivered, Sink.handled]

theorem sink_onCqe_orphaned (L : D.Lawful Posts I) (m : State σ) (howned : m.owned = false)
    (c : κ) : (D.onCqe m c).owned = false ∧
      D.sink (D.onCqe m c) = (D.sink m).onCqe (D.more c) false := by
  have hclear := L.clear m.stream
  by_cases hmore : D.more c = true
  · by_cases hlive : (D.recv m.stream).live = false
    · by_cases hfreed : m.freed = 0
      · simp [Driver.onCqe, sink, Sink.onCqe, Sink.delivered, Sink.handled, Recv.seen, *]
      · simp [Driver.onCqe, sink, Sink.onCqe, Sink.delivered, Sink.handled, Recv.seen, *]
    · by_cases hfreed : m.freed = 0
      · simp [Driver.onCqe, sink, Sink.onCqe, Sink.delivered, Sink.handled, Recv.seen, *]
      · simp [Driver.onCqe, sink, Sink.onCqe, Sink.delivered, Sink.handled, Recv.seen, *]
  · by_cases hfreed : m.freed = 0
    · simp [Driver.onCqe, sink, Sink.onCqe, Sink.delivered, Sink.handled, Recv.seen, *]
    · simp [Driver.onCqe, sink, Sink.onCqe, Sink.delivered, Sink.handled, Recv.seen, *]

theorem Lawful.sink_step (L : D.Lawful Posts I) (h : m.owned = true → I m.stream) {e : Event κ}
    (he : D.Enabled Posts m e) :
    ((D.next m e).owned = true → I (D.next m e).stream) ∧
      ∃ e', EasyioRecvSink.Enabled (D.sink m) e' ∧
        D.sink (D.next m e) = EasyioRecvSink.next (D.sink m) e' := by
  cases e with
  | submit =>
    refine ⟨fun howned => L.keeps_start _ (h howned) he, .submit, he, ?_⟩
    simp only [Driver.next, sink, EasyioRecvSink.next, L.start]
  | complete c =>
    refine ⟨fun howned => L.keeps_post _ c (h howned) he.1 he.2, .complete (D.more c),
      he.1, ?_⟩
    simp only [Driver.next, sink, EasyioRecvSink.next, L.post]
  | dispatch =>
    cases hfront : D.front m.stream with
    | none =>
      rw [Driver.Enabled, hfront] at he
      cases he
    | some cs =>
      obtain ⟨c, s⟩ := cs
      have htop := L.front m.stream c s hfront
      have hposted : (D.sink m).recv.posted = D.more c :: (D.recv s).posted :=
        congrArg Recv.posted htop
      have hnext : ∀ resubmits, EasyioRecvSink.next (D.sink m) (.dispatch resubmits) =
          (D.sink { m with stream := s }).onCqe (D.more c) resubmits := by
        intro resubmits
        simp only [EasyioRecvSink.next, hposted]
        simp only [sink, htop]
      simp only [Driver.next, hfront]
      by_cases howned : m.owned = true
      · obtain ⟨resubmits, hlast, hkeeps, hrecv⟩ := L.dispatch m.stream c s (h howned) hfront
        obtain ⟨-, hstream, hsink⟩ := sink_onCqe_owned { m with stream := s } howned c hrecv
        refine ⟨fun _ => ?_, .dispatch resubmits, ⟨by simp [hposted], fun hyes => ⟨howned, ?_⟩⟩, ?_⟩
        · rw [hstream]
          exact hkeeps
        · rw [hposted, hlast hyes]
          rfl
        · rw [hnext]
          exact hsink
      · rw [Bool.not_eq_true] at howned
        obtain ⟨horphan, hsink⟩ := sink_onCqe_orphaned L { m with stream := s } howned c
        refine ⟨fun hyes => ?_, .dispatch false, ⟨by simp [hposted], by rintro ⟨⟩⟩, ?_⟩
        · rw [horphan] at hyes
          cases hyes
        · rw [hnext]
          exact hsink
  | call w =>
    obtain ⟨resubmits, hdead, hkeeps, hrecv⟩ := L.await m.stream w (h he.1)
    refine ⟨fun _ => hkeeps, .call resubmits, ⟨he.1, hdead⟩, ?_⟩
    cases resubmits <;> simp_all [Driver.next, sink, EasyioRecvSink.next]
  | destroy sqe =>
    refine ⟨fun howned => ?_, .destroy sqe, he, ?_⟩
    · simp only [Driver.next, Driver.destroy] at howned
      split at howned <;> cases howned
    · by_cases hlive : (D.recv m.stream).live = true
      · simp [Driver.next, Driver.destroy, sink, EasyioRecvSink.next, Sink.destroy, hlive]
      · simp [Driver.next, Driver.destroy, sink, EasyioRecvSink.next, Sink.destroy, hlive]

/-- A lawful stream's sink is freed exactly once and never too early. -/
theorem Lawful.freedOnce (L : D.Lawful Posts I) {s : σ} (hs : I s)
    (hrecv : D.recv s = ⟨true, 1, 0, []⟩) (h : Reachable (D.machine Posts) (initial s) m) :
    FreedOnce (D.sink m) := by
  have hinv : ∀ u, Run (D.machine Posts) Unrestricted (initial s) u →
      u.owned = true → I u.stream := by
    intro u hu
    exact hu.invariant (I := fun u => u.owned = true → I u.stream) (fun _ => hs)
      fun _ _ hi he _ => (L.sink_step hi he).1
  have hinitial : D.sink (initial s) = .initial := by
    simp only [sink, initial, hrecv, Sink.initial]
  apply freedOnce_of_reachable
  rw [← hinitial]
  refine Run.simulate h fun u e hu he _ => ?_
  obtain ⟨-, e', he', hsink⟩ := L.sink_step (hinv u hu) he
  rw [show (D.machine Posts).next u e = D.next u e from rfl, hsink]
  exact Run.single (M := EasyioRecvSink.machine) he' trivial

end Simulation

end Driver

end EasyioRecvSink
