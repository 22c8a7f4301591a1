import EasyBD.EasyioUringRecvStream
import EasyBD.EasyioSingleShotRecvStream

/-! The io_uring receive streams where `_get_sqe` may throw while a stream resubmits its recv.
`sqe` is what it throws, if it does; the constructors, which may throw too, are not part of this:
there is no stream yet. -/
namespace EasyioUringResubmission

open TransitionRuns EasyioQueue EasyioRecvStream

/-- How a noexcept function ends. -/
inductive Outcome (σ : Type*) where
  | returned (s : σ)
  | terminated
  deriving DecidableEq

variable {σ κ : Type*}

/-- An exception that leaves a noexcept function ends the process. -/
def noexcept : Except Errno σ → Outcome σ
  | .ok s => .returned s
  | .error _ => .terminated

inductive Entry (κ : Type*) where
  | cqe (c : κ)
  | call (w : Waiter)
  deriving DecidableEq

/-- A stream for its reader: whether a recv is live, how it has ended, and who waits. -/
structure Reading where
  live : Bool
  eof : Bool
  error : Option Errno
  waiter : Option Waiter
  deriving DecidableEq

/-- The reader waits, and nothing will ever wake it. -/
def Reading.Stuck (r : Reading) : Prop :=
  r.live = false ∧ r.eof = false ∧ r.error = none ∧ r.waiter ≠ none

/-- The reader is told, now or at its next call. -/
def Reading.Told (r : Reading) : Prop := r.error ≠ none ∧ r.waiter = none

/-- What should come of `body`, the inside of a noexcept function: the function returns, an
exception thrown in it is told to the reader, and no reader is left waiting for nothing. -/
def Contained (reading : σ → Reading) (body : Except Errno σ) (o : Outcome σ) : Prop :=
  ∃ s, o = .returned s ∧ ((∃ err, body = .error err) → (reading s).Told) ∧ ¬ (reading s).Stuck

/-- A body that throws just where the entry needs an SQE (`P`) and gets none is contained just
where that is not so. -/
theorem contained_iff {reading : σ → Reading} (body : Option Errno → Except Errno σ) {s : σ}
    {P : Prop} [Decidable P] (hnone : body none = .ok s)
    (hsome : ∀ err, body (some err) = if P then .error err else .ok s)
    (hs : ¬ (reading s).Stuck) (sqe : Option Errno) :
    Contained reading (body sqe) (noexcept (body sqe)) ↔ ¬ (P ∧ sqe ≠ none) := by
  have hok (hbody : body sqe = .ok s) : Contained reading (body sqe) (noexcept (body sqe)) := by
    rw [hbody]
    refine ⟨s, rfl, ?_, hs⟩
    rintro ⟨err, ⟨⟩⟩
  cases sqe with
  | none => exact iff_of_true (hok hnone) fun hboth => hboth.2 rfl
  | some err =>
    have hbody := hsome err
    by_cases hp : P
    · rw [if_pos hp] at hbody
      refine iff_of_false ?_ (not_not_intro ⟨hp, by simp⟩)
      rw [hbody]
      rintro ⟨s', ⟨⟩, -⟩
    · rw [if_neg hp] at hbody
      exact iff_of_true (hok hbody) fun hboth => hp hboth.1

section Multishot

open EasyioUringRecvStream

namespace Multishot

/-- `RecvSink::submit_recv`. -/
def submitRecv (sqe : Option Errno) (s : State) : Except Errno State :=
  match sqe with
  | some err => .error err
  | none => .ok s.submitRecv

def maybeResubmit (sqe : Option Errno) (s : State) : Except Errno State :=
  if s.needsResubmit = true ∧ s.checkedOut = [] then
    submitRecv sqe { s with needsResubmit := false }
  else .ok s

def returnCheckedOut (sqe : Option Errno) (s : State) : Except Errno State :=
  maybeResubmit sqe { s with br := s.br ++ s.checkedOut, checkedOut := [], lent := [] }

/-- `handle_cqe` up to where it wakes the reader. -/
def absorb (sqe : Option Errno) (s : State) (c : Cqe) : Except Errno State :=
  let r := s.record c
  let s := if c.more = false ∧ r.1.error = none ∧ r.1.eof = false ∧ r.2 = false then
    { r.1 with eof := true } else r.1
  if r.2 = true then maybeResubmit sqe s else .ok s

/-- `on_cqe` with `handle_cqe`, and either awaiter with `_ready`; all four are noexcept. -/
def body (sqe : Option Errno) (s : State) : Entry Cqe → Except Errno State
  | .cqe c => (absorb sqe (if c.more = false then { s with live := false } else s) c).map fun s =>
      if s.Readable then s.resume else s
  | .call w => (returnCheckedOut sqe s).map fun s =>
      if s.Readable then s.awaitResume w else { s with waiter := some w }

def enter (sqe : Option Errno) (s : State) (e : Entry Cqe) : Outcome State :=
  noexcept (body sqe s e)

/-- The entry in a run where `_get_sqe` never throws. -/
def entered (s : State) : Entry Cqe → State
  | .cqe c => s.onCqe c
  | .call w => s.await w

def reading (s : State) : Reading := ⟨s.live, s.eof, s.error, s.waiter⟩

/-- The completion tells that the ring has run out of buffers. -/
def RanDry (c : Cqe) : Prop := c.res = .failed enobufs ∨ c.span ≠ none ∧ c.more = false

instance (c : Cqe) : Decidable (RanDry c) :=
  inferInstanceAs (Decidable (c.res = .failed enobufs ∨ c.span ≠ none ∧ c.more = false))

def Resubmits (s : State) : Entry Cqe → Prop
  | .cqe c => RanDry c ∧ s.checkedOut = []
  | .call _ => s.needsResubmit = true

instance (s : State) : (e : Entry Cqe) → Decidable (Resubmits s e)
  | .cqe c => inferInstanceAs (Decidable (RanDry c ∧ s.checkedOut = []))
  | .call _ => inferInstanceAs (Decidable (s.needsResubmit = true))

end Multishot

variable {s : State}

theorem maybeResubmit_some (err : Errno) (s : State) : Multishot.maybeResubmit (some err) s =
    if s.needsResubmit = true ∧ s.checkedOut = [] then .error err else .ok s.maybeResubmit := by
  unfold Multishot.maybeResubmit
  split
  · rfl
  · next hno => rw [State.maybeResubmit, if_neg hno]

theorem maybeResubmit_none (s : State) :
    Multishot.maybeResubmit none s = .ok s.maybeResubmit := by
  unfold Multishot.maybeResubmit State.maybeResubmit
  split <;> rfl

theorem absorb_none (s : State) (c : Cqe) : Multishot.absorb none s c = .ok (s.absorb c) := by
  simp only [Multishot.absorb, State.absorb, maybeResubmit_none]
  split <;> rfl

theorem absorb_some (err : Errno) (s : State) (c : Cqe) : Multishot.absorb (some err) s c =
    if Multishot.RanDry c ∧ s.checkedOut = [] then .error err else .ok (s.absorb c) := by
  obtain ⟨res, more, buffer⟩ := c
  cases res with
  | failed err' =>
    by_cases herr : err' = enobufs
    · simp [Multishot.absorb, State.absorb, State.record, maybeResubmit_some, Multishot.RanDry,
        herr]
    · simp [Multishot.absorb, State.absorb, State.record, Multishot.RanDry, Cqe.span, herr]
  | ok len =>
    cases buffer with
    | none => simp [Multishot.absorb, State.absorb, State.record, Multishot.RanDry, Cqe.span]
    | some idx =>
      cases more with
      | true => simp [Multishot.absorb, State.absorb, State.record, Multishot.RanDry]
      | false =>
        simp [Multishot.absorb, State.absorb, State.record, maybeResubmit_some, Multishot.RanDry,
          Cqe.span]

theorem Multishot.body_none (s : State) (e : Entry Cqe) :
    Multishot.body none s e = .ok (Multishot.entered s e) := by
  cases e with
  | cqe c =>
    rw [Multishot.body, absorb_none]
    rfl
  | call w =>
    rw [Multishot.body, Multishot.returnCheckedOut, maybeResubmit_none]
    rfl

theorem Multishot.body_some (err : Errno) (s : State) (e : Entry Cqe) :
    Multishot.body (some err) s e =
      if Multishot.Resubmits s e then .error err else .ok (Multishot.entered s e) := by
  cases e with
  | cqe c =>
    have hout : (if c.more = false then { s with live := false } else s).checkedOut =
        s.checkedOut := by
      split <;> rfl
    rw [Multishot.body, absorb_some, hout]
    by_cases hr : Multishot.RanDry c ∧ s.checkedOut = []
    · have hr' : Multishot.Resubmits s (.cqe c) := hr
      rw [if_pos hr, if_pos hr']
      rfl
    · have hr' : ¬ Multishot.Resubmits s (.cqe c) := hr
      rw [if_neg hr, if_neg hr']
      rfl
  | call w =>
    rw [Multishot.body, Multishot.returnCheckedOut, maybeResubmit_some]
    by_cases hr : s.needsResubmit = true
    · have hr' : Multishot.Resubmits s (.call w) := hr
      rw [if_pos ⟨hr, rfl⟩, if_pos hr']
      rfl
    · have hr' : ¬ Multishot.Resubmits s (.call w) := hr
      rw [if_neg fun hboth => hr hboth.1, if_neg hr']
      rfl

/-- Without a live recv the stream is over or will ask for one, and a reader that waits has
returned its chunks and has a recv to wait for. -/
structure Attended (s : State) : Prop where
  idle : s.live = false → s.needsResubmit = true ∨ s.Over
  waits : s.waiter ≠ none → ¬ s.Readable ∧ s.checkedOut = [] ∧ s.live = true

theorem attended_initial (entrySize entries : ℕ) (buf : ℕ → List UInt8) :
    Attended (initial entrySize entries buf) := ⟨by rintro ⟨⟩, fun hne => absurd rfl hne⟩

theorem Attended.not_stuck (h : Attended s) : ¬ (Multishot.reading s).Stuck := by
  rintro ⟨hdead, -, -, hwaits⟩
  have hlive := (h.waits hwaits).2.2
  rw [show s.live = false from hdead] at hlive
  cases hlive

theorem attended_awaitResume (hidle : s.live = false → s.needsResubmit = true ∨ s.Over)
    (hfree : s.waiter = none) (w : Waiter) : Attended (s.awaitResume w) := by
  have hkeeps := Source.awaitResume_invariant (T := State.source)
    (I := fun s => (s.live = false → s.needsResubmit = true ∨ s.Over) ∧ s.waiter = none)
    (fun _ _ _ h _ => h) (fun _ h => h) ⟨hidle, hfree⟩ w
  exact ⟨hkeeps.1, fun hne => absurd hkeeps.2 hne⟩

theorem attended_resume (hidle : s.live = false → s.needsResubmit = true ∨ s.Over) :
    Attended s.resume := by
  unfold State.resume
  split
  · next w _ => exact attended_awaitResume (s := { s with waiter := none }) hidle rfl w
  · next hfree => exact ⟨hidle, fun hne => absurd hfree hne⟩

theorem idle_maybeResubmit (hneeds : s.needsResubmit = true) : s.maybeResubmit.live = false →
    s.maybeResubmit.needsResubmit = true ∨ s.maybeResubmit.Over := by
  unfold State.maybeResubmit
  split
  · rintro ⟨⟩
  · exact fun _ => Or.inl hneeds

theorem idle_absorbed {c : Cqe} {s' : State} (ha : Absorbed (s.popped c s.cq) c s')
    (h : s.live = false → s.needsResubmit = true ∨ s.Over) :
    s'.live = false → s'.needsResubmit = true ∨ s'.Over := by
  cases ha with
  | chunk p _ hmore =>
    intro hdead
    rw [State.popped, hmore, Bool.and_true] at hdead
    exact h hdead
  | lastChunk | noBuffers => exact idle_maybeResubmit rfl
  | error err => exact fun _ => Or.inr (Or.inr (by simp))
  | eof => exact fun _ => Or.inr (Or.inl rfl)

theorem attended_onCqe (h : Attended s) (c : Cqe) : Attended (s.onCqe c) := by
  have ha := absorb_cases (s.popped c s.cq) c
  have hidle := idle_absorbed ha h.idle
  obtain ⟨hwaiter, hout, -⟩ := absorbed_frame ha
  rw [show s.onCqe c = (s.popped c s.cq).handleCqe c from onCqe_eq s c s.cq]
  simp only [State.handleCqe]
  split
  · exact attended_resume hidle
  · next hr =>
    refine ⟨hidle, fun hne => ?_⟩
    rw [hwaiter] at hne
    have hreturned := (h.waits hne).2.1
    exact ⟨hr, hout.trans hreturned, armed_absorbed ha hreturned hr⟩

theorem attended_await (h : Attended s) (w : Waiter) : Attended (s.await w) := by
  have hreturned : s.returnCheckedOut.checkedOut = [] ∧ s.returnCheckedOut.waiter = s.waiter ∧
      (s.returnCheckedOut.Readable → s.Readable) ∧
      (s.returnCheckedOut.live = false → s.returnCheckedOut.Over) := by
    unfold State.returnCheckedOut State.maybeResubmit
    split
    · exact ⟨rfl, rfl, fun hr => hr, by rintro ⟨⟩⟩
    · next hno =>
      refine ⟨rfl, rfl, fun hr => hr, fun hdead => (h.idle hdead).resolve_left fun hneeds => ?_⟩
      exact hno ⟨hneeds, rfl⟩
  obtain ⟨hout, hwaiter, hreadable, hover⟩ := hreturned
  have hidle : s.returnCheckedOut.live = false →
      s.returnCheckedOut.needsResubmit = true ∨ s.returnCheckedOut.Over :=
    fun hdead => Or.inr (hover hdead)
  simp only [State.await]
  split
  · next hr =>
    refine attended_awaitResume hidle ?_ w
    by_contra hne
    rw [hwaiter] at hne
    exact (h.waits hne).1 (hreadable hr)
  · next hr =>
    refine ⟨hidle, fun _ => ⟨hr, hout, ?_⟩⟩
    by_contra hdead
    exact hr (Or.inr (hover (by simpa using hdead)))

theorem attended_entered (h : Attended s) (e : Entry Cqe) : Attended (Multishot.entered s e) := by
  cases e with
  | cqe c => exact attended_onCqe h c
  | call w => exact attended_await h w

theorem attended_of_reachable {entrySize entries : ℕ} {buf : ℕ → List UInt8}
    (h : Reachable machine (initial entrySize entries buf) s) : Attended s := by
  refine h.invariant (I := Attended) (attended_initial entrySize entries buf)
    fun u e hu he _ => ?_
  cases e with
  | submit | data | eof | failure => exact ⟨hu.idle, hu.waits⟩
  | dispatch =>
    obtain ⟨c, cq, top⟩ := List.exists_cons_of_ne_nil he
    have hpopped : Attended { u with cq } := ⟨hu.idle, hu.waits⟩
    change Attended (next u .dispatch)
    simp only [next, top]
    exact attended_onCqe hpopped c
  | next => exact attended_await hu .next
  | nextBatch cap maxBytes => exact attended_await hu (.nextBatch cap maxBytes)

end Multishot

section SingleShot

open EasyioUringRecvStream (Res)
open EasyioSingleShotRecvStream

namespace SingleShot

/-- `SingleShotRecvSink::submit_recv`. -/
def submitRecv (sqe : Option Errno) (s : State) : Except Errno State :=
  match sqe with
  | some err => .error err
  | none => .ok s.submitRecv

def reclaim (sqe : Option Errno) (s : State) : Except Errno State :=
  if s.checkedOut = true then
    if s.error = none ∧ s.eof = false then
      submitRecv sqe { s with checkedOut := false, lent := [] }
    else .ok { s with checkedOut := false, lent := [] }
  else .ok s

/-- `on_cqe` with `handle_cqe`, which asks for no SQE, and either awaiter with `_ready`. -/
def body (sqe : Option Errno) (s : State) : Entry Res → Except Errno State
  | .cqe r => .ok (s.onCqe r)
  | .call w => (reclaim sqe s).map fun s =>
      if s.Readable then s.awaitResume w else { s with waiter := some w }

def enter (sqe : Option Errno) (s : State) (e : Entry Res) : Outcome State :=
  noexcept (body sqe s e)

/-- The entry in a run where `_get_sqe` never throws. -/
def entered (s : State) : Entry Res → State
  | .cqe r => s.onCqe r
  | .call w => s.await w

def reading (s : State) : Reading := ⟨s.live, s.eof, s.error, s.waiter⟩

def Resubmits (s : State) : Entry Res → Prop
  | .cqe _ => False
  | .call _ => s.checkedOut = true ∧ s.error = none ∧ s.eof = false

instance (s : State) : (e : Entry Res) → Decidable (Resubmits s e)
  | .cqe _ => isFalse fun h => h
  | .call _ => inferInstanceAs (Decidable (s.checkedOut = true ∧ s.error = none ∧ s.eof = false))

end SingleShot

variable {s : State}

theorem reclaim_none (s : State) : SingleShot.reclaim none s = .ok s.reclaim := by
  simp only [SingleShot.reclaim, State.reclaim]
  split
  · split <;> rfl
  · rfl

theorem reclaim_some (err : Errno) (s : State) : SingleShot.reclaim (some err) s =
    if s.checkedOut = true ∧ s.error = none ∧ s.eof = false then .error err
    else .ok s.reclaim := by
  by_cases hout : s.checkedOut = true
  · by_cases hopen : s.error = none ∧ s.eof = false
    · simp only [SingleShot.reclaim, if_pos hout, if_pos hopen, if_pos (And.intro hout hopen)]
      rfl
    · have hno : ¬ (s.checkedOut = true ∧ s.error = none ∧ s.eof = false) := fun h => hopen h.2
      simp only [SingleShot.reclaim, State.reclaim, if_pos hout, if_neg hopen, if_neg hno]
  · have hno : ¬ (s.checkedOut = true ∧ s.error = none ∧ s.eof = false) := fun h => hout h.1
    simp only [SingleShot.reclaim, State.reclaim, if_neg hout, if_neg hno]

theorem SingleShot.body_none (s : State) (e : Entry Res) :
    SingleShot.body none s e = .ok (SingleShot.entered s e) := by
  cases e with
  | cqe r => rfl
  | call w =>
    rw [SingleShot.body, reclaim_none]
    rfl

theorem SingleShot.body_some (err : Errno) (s : State) (e : Entry Res) :
    SingleShot.body (some err) s e =
      if SingleShot.Resubmits s e then .error err else .ok (SingleShot.entered s e) := by
  cases e with
  | cqe r =>
    have hno : ¬ SingleShot.Resubmits s (.cqe r) := fun h => h
    rw [if_neg hno]
    rfl
  | call w =>
    rw [SingleShot.body, reclaim_some]
    by_cases hr : s.checkedOut = true ∧ s.error = none ∧ s.eof = false
    · have hr' : SingleShot.Resubmits s (.call w) := hr
      rw [if_pos hr, if_pos hr']
      rfl
    · have hr' : ¬ SingleShot.Resubmits s (.call w) := hr
      rw [if_neg hr, if_neg hr']
      rfl

theorem waiter_awaitResume (s : State) (w : Waiter) : (s.awaitResume w).waiter = s.waiter := by
  have htake : s.take.waiter = s.waiter := by
    unfold State.take
    split <;> rfl
  cases w with
  | next => exact htake
  | nextBatch cap maxBytes =>
    simp only [State.awaitResume]
    split
    · rfl
    · exact htake

theorem waiter_onCqe (s : State) (r : Res) : (s.onCqe r).waiter = none := by
  have hr := readable_record { s with live := false } r
  simp only [State.onCqe, State.handleCqe, if_pos hr, State.resume]
  split
  · exact waiter_awaitResume _ _
  · next hnone => exact hnone

theorem not_stuck_entered (h : Exact s) (e : Entry Res) :
    ¬ (SingleShot.reading (SingleShot.entered s e)).Stuck := by
  cases e with
  | cqe r => exact fun hstuck => hstuck.2.2.2 (waiter_onCqe s r)
  | call w =>
    obtain ⟨-, hout, hwaiter⟩ := stored_reclaim h.stored
    have howned := owned_reclaim h.owned
    unfold SingleShot.entered
    simp only [State.await]
    split
    · next hr =>
      rintro ⟨-, -, -, hwaits⟩
      have hwaits' : s.waiter ≠ none := by
        intro hnone
        exact hwaits ((waiter_awaitResume _ w).trans (hwaiter.trans hnone))
      -- A reader that waits has returned its chunk, and there is nothing for it.
      have hsame : s.reclaim = s := by
        rw [State.reclaim, if_neg (by simp [h.suspended.returned hwaits'])]
      rw [hsame] at hr
      exact h.suspended.empty hwaits' hr
    · next hr =>
      obtain ⟨hchunk, hopen⟩ := not_or.mp hr
      have hone := howned.inFlight hopen (by simpa using hchunk) hout
      rintro ⟨hdead, -⟩
      have hlive := howned.live
      rw [hone, show s.reclaim.live = false from hdead] at hlive
      cases hlive

end SingleShot

open EasyioUringRecvStream in
/-- A failed resubmission is contained just where there is none: `handle_cqe` and `_ready` catch
nothing, and are noexcept. -/
theorem resubmission_contained_iff {entrySize entries : ℕ} {buf : ℕ → List UInt8} {s : State}
    (h : Reachable machine (initial entrySize entries buf) s) {page : List UInt8}
    {t : EasyioSingleShotRecvStream.State}
    (k : Reachable EasyioSingleShotRecvStream.machine
      (EasyioSingleShotRecvStream.initial entrySize page) t) (sqe : Option Errno) :
    (∀ e, Contained Multishot.reading (Multishot.body sqe s e) (Multishot.enter sqe s e) ↔
      ¬ (Multishot.Resubmits s e ∧ sqe ≠ none)) ∧
    (∀ e, Contained SingleShot.reading (SingleShot.body sqe t e) (SingleShot.enter sqe t e) ↔
      ¬ (SingleShot.Resubmits t e ∧ sqe ≠ none)) := by
  have hattended := attended_of_reachable h
  have hexact := EasyioSingleShotRecvStream.exact_of_reachable k
  constructor
  · intro e
    exact contained_iff (fun sqe => Multishot.body sqe s e) (Multishot.body_none s e)
      (fun err => Multishot.body_some err s e) (attended_entered hattended e).not_stuck sqe
  · intro e
    exact contained_iff (fun sqe => SingleShot.body sqe t e) (SingleShot.body_none t e)
      (fun err => SingleShot.body_some err t e) (not_stuck_entered hexact e) sqe

section Traces

open EasyioUringRecvStream (Event enobufs)

/-- The only entry is filled and handed out, and the recv ends for want of another; the reader has
returned the entry and waits when that completion is delivered. -/
def ringRanDry : List Event :=
  [.submit, .data 0 [7] true, .failure enobufs, .dispatch, .next, .next]

def chunkHeld : List EasyioSingleShotRecvStream.Event := [.submit, .data [7], .dispatch, .next]

open EasyioUringRecvStream in
/-- The submission queue has no room, and the process is terminated. -/
theorem failed_resubmission_terminates :
    let s := runTrace machine (initial 1 1 fun _ => []) ringRanDry
    let t := runTrace EasyioSingleShotRecvStream.machine
      (EasyioSingleShotRecvStream.initial 1 []) chunkHeld
    Reachable machine (initial 1 1 fun _ => []) s ∧
      Reachable EasyioSingleShotRecvStream.machine (EasyioSingleShotRecvStream.initial 1 []) t ∧
      s.waiter = some .next ∧ s.cq = [⟨.failed enobufs, false, none⟩] ∧
      ¬ Contained Multishot.reading
        (Multishot.body (some enobufs) s (.cqe ⟨.failed enobufs, false, none⟩))
        (Multishot.enter (some enobufs) s (.cqe ⟨.failed enobufs, false, none⟩)) ∧
      ¬ Contained SingleShot.reading (SingleShot.body (some enobufs) t (.call .next))
        (SingleShot.enter (some enobufs) t (.call .next)) := by
  intro s t
  have hresubmits : Multishot.Resubmits s (.cqe ⟨.failed enobufs, false, none⟩) := by
    decide +kernel
  have hresubmits' : SingleShot.Resubmits t (.call .next) := by decide +kernel
  refine ⟨reachable_of_trace ringRanDry (by decide +kernel),
    reachable_of_trace chunkHeld (by decide +kernel), by decide +kernel, by decide +kernel, ?_, ?_⟩
  · rw [Multishot.enter, Multishot.body_some, if_pos hresubmits]
    rintro ⟨s', ⟨⟩, -⟩
  · rw [SingleShot.enter, SingleShot.body_some, if_pos hresubmits']
    rintro ⟨t', ⟨⟩, -⟩

open EasyioUringRecvStream in
/-- There, with room for the SQE. -/
theorem resubmission_contained_iff_with_room :
    let s := runTrace machine (initial 1 1 fun _ => []) ringRanDry
    let t := runTrace EasyioSingleShotRecvStream.machine
      (EasyioSingleShotRecvStream.initial 1 []) chunkHeld
    (∀ e, Contained Multishot.reading (Multishot.body none s e) (Multishot.enter none s e) ↔
      ¬ (Multishot.Resubmits s e ∧ (none : Option Errno) ≠ none)) ∧
    (∀ e, Contained SingleShot.reading (SingleShot.body none t e) (SingleShot.enter none t e) ↔
      ¬ (SingleShot.Resubmits t e ∧ (none : Option Errno) ≠ none)) :=
  resubmission_contained_iff (reachable_of_trace ringRanDry (by decide +kernel))
    (reachable_of_trace chunkHeld (by decide +kernel)) none

end Traces

end EasyioUringResubmission
