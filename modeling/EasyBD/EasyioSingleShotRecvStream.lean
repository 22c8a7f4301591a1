import EasyBD.TransitionRuns
import EasyBD.EasyioUringRecvStream

/-! The io_uring backend's `SingleShotRecvStreamImpl` and `SingleShotRecvSink`: one buffer, and one
plain recv into it at a time. `handle_cqe` does nothing after it resumes the reader, so what the
reader does then is a step of its own. -/
namespace EasyioSingleShotRecvStream

open TransitionRuns EasyioQueue EasyioRecvStream
open EasyioUringRecvStream (Res)

/-- `queued` and `ops` count the recvs that `submit_recv` has queued and that the kernel runs;
`lent`, `received` and `handed` are the records of `EasyioUringRecvStream`. -/
structure State where
  entrySize : ℕ
  buf : List UInt8
  queued : ℕ
  ops : ℕ
  cq : List Res
  live : Bool
  len : ℕ
  hasChunk : Bool
  checkedOut : Bool
  eof : Bool
  error : Option Errno
  waiter : Option Waiter
  lent : List Lent
  received : List (List UInt8)
  handed : List Chunk

def initial (entrySize : ℕ) (buf : List UInt8) : State where
  entrySize := entrySize
  buf := buf
  queued := 1
  ops := 0
  cq := []
  live := true
  len := 0
  hasChunk := false
  checkedOut := false
  eof := false
  error := none
  waiter := none
  lent := []
  received := []
  handed := []

namespace State

def read (s : State) (p : Pending) : List UInt8 := s.buf.take p.len

def Readable (s : State) : Prop := s.hasChunk = true ∨ s.eof = true ∨ s.error ≠ none

instance (s : State) : Decidable s.Readable :=
  inferInstanceAs (Decidable (s.hasChunk = true ∨ s.eof = true ∨ s.error ≠ none))

def submitRecv (s : State) : State := { s with queued := s.queued + 1, live := true }

def reclaim (s : State) : State :=
  if s.checkedOut = true then
    let s := { s with checkedOut := false, lent := [] }
    if s.error = none ∧ s.eof = false then s.submitRecv else s
  else s

def handOut (s : State) : State :=
  { s with
    hasChunk := false
    checkedOut := true
    lent := s.lent ++ [⟨⟨0, s.len⟩, s.read ⟨0, s.len⟩⟩]
    handed := s.handed ++ [⟨s.read ⟨0, s.len⟩, none⟩] }

/-- The chunk that ends the stream. -/
def handEnd (s : State) : State := { s with handed := s.handed ++ [⟨[], s.error⟩] }

def take (s : State) : State := if s.hasChunk = true then s.handOut else s.handEnd

/-- `await_resume`; `_take_batch` takes one chunk whatever `max_bytes` is. -/
def awaitResume (s : State) : Waiter → State
  | .next => s.take
  | .nextBatch cap _ => if cap = 0 then s else s.take

/-- `std::exchange(_waiter, nullptr).resume()`, up to what the reader is handed. -/
def resume (s : State) : State :=
  match s.waiter with
  | some w => { s with waiter := none }.awaitResume w
  | none => s

/-- The first part of `handle_cqe`. -/
def record (s : State) : Res → State
  | .failed err => { s with error := some err }
  | .ok 0 => { s with eof := true }
  | .ok (n + 1) => { s with len := n + 1, hasChunk := true }

def handleCqe (s : State) (r : Res) : State :=
  let s := s.record r
  if s.Readable then s.resume else s

/-- `SingleShotRecvSink::on_cqe`. -/
def onCqe (s : State) (r : Res) : State := { s with live := false }.handleCqe r

/-- `co_await` of either awaiter: `_ready`, and then `await_resume` or `_arm`. -/
def await (s : State) (w : Waiter) : State :=
  let s := s.reclaim
  if s.Readable then s.awaitResume w else { s with waiter := some w }

def post (s : State) (r : Res) : State := { s with cq := s.cq ++ [r], ops := s.ops - 1 }

/-- The kernel fills the buffer. -/
def fill (s : State) (bytes : List UInt8) : State :=
  { s with buf := bytes ++ s.buf.drop bytes.length, received := s.received ++ [bytes] }

end State

inductive Event where
  | submit
  | data (bytes : List UInt8)
  | eof
  | failure (err : Errno)
  | dispatch
  | next
  | nextBatch (cap maxBytes : ℕ)

/-- A recv completes once, with at most the bytes it asked for. A suspended reader makes no call. -/
def Enabled (s : State) : Event → Prop
  | .submit => 0 < s.queued
  | .data bytes => 0 < s.ops ∧ bytes ≠ [] ∧ bytes.length ≤ s.entrySize
  | .eof | .failure _ => 0 < s.ops
  | .dispatch => s.cq ≠ []
  | .next | .nextBatch _ _ => s.waiter = none

instance (s : State) : (e : Event) → Decidable (Enabled s e)
  | .submit => inferInstanceAs (Decidable (0 < s.queued))
  | .data bytes =>
    inferInstanceAs (Decidable (0 < s.ops ∧ bytes ≠ [] ∧ bytes.length ≤ s.entrySize))
  | .eof | .failure _ => inferInstanceAs (Decidable (0 < s.ops))
  | .dispatch => inferInstanceAs (Decidable (s.cq ≠ []))
  | .next | .nextBatch _ _ => inferInstanceAs (Decidable (s.waiter = none))

def next (s : State) : Event → State
  | .submit => { s with queued := s.queued - 1, ops := s.ops + 1 }
  | .data bytes => (s.fill bytes).post (.ok bytes.length)
  | .eof => s.post (.ok 0)
  | .failure err => s.post (.failed err)
  | .dispatch =>
    match s.cq with
    | r :: cq => { s with cq }.onCqe r
    | [] => s
  | .next => s.await .next
  | .nextBatch cap maxBytes => s.await (.nextBatch cap maxBytes)

def machine : System State Event := ⟨Enabled, next⟩

instance (s : State) (e : Event) : Decidable (machine.Enabled s e) :=
  inferInstanceAs (Decidable (Enabled s e))

namespace State

def Over (s : State) : Prop := s.eof = true ∨ s.error ≠ none

instance (s : State) : Decidable s.Over :=
  inferInstanceAs (Decidable (s.eof = true ∨ s.error ≠ none))

def inFlight (s : State) : ℕ := s.queued + s.ops + s.cq.length

def reported (s : State) : Res → Option (List UInt8)
  | .ok (n + 1) => some (s.read ⟨0, n + 1⟩)
  | .ok 0 | .failed _ => none

/-- What has been received and not handed out. -/
def waiting (s : State) : List (List UInt8) :=
  (if s.hasChunk = true then [s.read ⟨0, s.len⟩] else []) ++ s.cq.filterMap s.reported

/-- What `_take` hands out at the end of the stream, which is final. -/
def Ended (s : State) (c : Chunk) : Prop := c = ⟨[], s.error⟩ ∧ s.Over

end State

/-- The buffer has one owner until the stream is over, and none afterwards. -/
structure Owned (s : State) : Prop where
  owners : s.inFlight + s.hasChunk.toNat + s.checkedOut.toNat = if s.Over then 0 else 1
  live : s.inFlight = s.live.toNat
  lent : s.lent.length = s.checkedOut.toNat

/-- What is behind the reader's span is what the kernel put there. -/
structure Stored (s : State) : Prop where
  intact : ∀ l ∈ s.lent, s.read l.span = l.bytes
  data : [] ∉ s.received
  order : ∃ delivered ends,
    InOrder s.handed s.received s.waiting s.lent s.Ended delivered ends

structure Suspended (s : State) : Prop where
  empty : s.waiter ≠ none → ¬ s.Readable
  returned : s.waiter ≠ none → s.checkedOut = false

structure Exact (s : State) : Prop where
  owned : Owned s
  stored : Stored s
  suspended : Suspended s

section Steps

variable {s : State}

theorem suspended_of_none (h : s.waiter = none) : Suspended s :=
  ⟨fun hne => absurd h hne, fun hne => absurd h hne⟩

theorem exact_initial (entrySize : ℕ) (buf : List UInt8) : Exact (initial entrySize buf) where
  owned := ⟨rfl, rfl, rfl⟩
  stored := ⟨by rintro l ⟨⟩, by rintro ⟨⟩, [], [], .initial⟩
  suspended := suspended_of_none rfl

/-- While a recv has the buffer nothing else has, and the stream goes on. -/
theorem Owned.of_inFlight (h : Owned s) (hpos : 0 < s.inFlight) : ¬ s.Over ∧ s.inFlight = 1 ∧
    s.hasChunk = false ∧ s.checkedOut = false ∧ s.lent = [] := by
  have howners := h.owners
  have hlent := h.lent
  by_cases hover : s.Over
  · rw [if_pos hover] at howners
    omega
  · rw [if_neg hover] at howners
    have hchunk : s.hasChunk.toNat = 0 := by omega
    have hout : s.checkedOut.toNat = 0 := by omega
    refine ⟨hover, by omega, by simpa using hchunk, by simpa using hout, ?_⟩
    exact List.length_eq_zero_iff.mp (hlent.trans hout)

theorem Owned.inFlight (h : Owned s) (hover : ¬ s.Over) (hchunk : s.hasChunk = false)
    (hout : s.checkedOut = false) : s.inFlight = 1 := by
  have howners := h.owners
  rw [if_neg hover, hchunk, hout] at howners
  simpa using howners

theorem Owned.of_hasChunk (h : Owned s) (hchunk : s.hasChunk = true) :
    ¬ s.Over ∧ s.inFlight = 0 ∧ s.checkedOut = false := by
  have howners := h.owners
  rw [hchunk, Bool.toNat_true] at howners
  by_cases hover : s.Over
  · rw [if_pos hover] at howners
    omega
  · rw [if_neg hover] at howners
    have hout : s.checkedOut.toNat = 0 := by omega
    exact ⟨hover, by omega, by simpa using hout⟩

theorem Owned.of_checkedOut (h : Owned s) (hout : s.checkedOut = true) :
    ¬ s.Over ∧ s.inFlight = 0 ∧ s.hasChunk = false := by
  have howners := h.owners
  rw [hout, Bool.toNat_true] at howners
  by_cases hover : s.Over
  · rw [if_pos hover] at howners
    omega
  · rw [if_neg hover] at howners
    have hchunk : s.hasChunk.toNat = 0 := by omega
    exact ⟨hover, by omega, by simpa using hchunk⟩

theorem owned_submit (h : Owned s) (hqueued : 0 < s.queued) :
    Owned { s with queued := s.queued - 1, ops := s.ops + 1 } := by
  have hsame : s.queued - 1 + (s.ops + 1) + s.cq.length = s.queued + s.ops + s.cq.length := by
    omega
  refine ⟨?_, ?_, h.lent⟩
  · have howners := h.owners
    rw [State.inFlight, ← hsame] at howners
    exact howners
  · have hlive := h.live
    rw [State.inFlight, ← hsame] at hlive
    exact hlive

theorem owned_post (h : Owned s) (hops : 0 < s.ops) (r : Res) : Owned (s.post r) := by
  have hsame : (s.post r).inFlight = s.inFlight := by
    simp only [State.inFlight, State.post, List.length_append, List.length_singleton]
    omega
  refine ⟨?_, ?_, h.lent⟩
  · rw [hsame]
    exact h.owners
  · rw [hsame]
    exact h.live

theorem Owned.popped (h : Owned s) {r : Res} {cq : List Res} (top : s.cq = r :: cq) :
    s.queued = 0 ∧ s.ops = 0 ∧ cq = [] ∧ ¬ s.Over ∧ s.hasChunk = false ∧ s.checkedOut = false ∧
      s.lent = [] := by
  have hpos : 0 < s.inFlight := by
    rw [State.inFlight, top, List.length_cons]
    omega
  obtain ⟨hopen, hone, hrest⟩ := h.of_inFlight hpos
  rw [State.inFlight, top, List.length_cons] at hone
  exact ⟨by omega, by omega, List.length_eq_zero_iff.mp (by omega), hopen, hrest⟩

/-- The buffer goes to the chunk that the completion reports, or to nobody. -/
theorem owned_record (h : Owned s) {r : Res} {cq : List Res} (top : s.cq = r :: cq) :
    Owned ({ s with cq, live := false }.record r) := by
  obtain ⟨hqueued, hops, rfl, hopen, hchunk, hout, hlent⟩ := h.popped top
  obtain ⟨heof, herror⟩ := not_or.mp hopen
  have hlent' := h.lent
  rcases r with err | _ | n
  · refine ⟨?_, ?_, hlent'⟩
    · simp [State.inFlight, State.record, State.Over, hqueued, hops, hchunk, hout]
    · simp [State.inFlight, State.record, hqueued, hops]
  · refine ⟨?_, ?_, hlent'⟩
    · simp [State.inFlight, State.record, State.Over, hqueued, hops, hchunk, hout]
    · simp [State.inFlight, State.record, hqueued, hops]
  · refine ⟨?_, ?_, hlent'⟩
    · simp [State.inFlight, State.record, State.Over, hqueued, hops, hout, heof, herror]
    · simp [State.inFlight, State.record, hqueued, hops]

theorem owned_take (h : Owned s) : Owned s.take := by
  unfold State.take
  by_cases hchunk : s.hasChunk = true
  · obtain ⟨hopen, hfree, hout⟩ := h.of_hasChunk hchunk
    have hopen' : ¬ s.handOut.Over := hopen
    have hfree' : s.handOut.inFlight = 0 := hfree
    have hlent : s.lent.length = 0 := h.lent.trans (congrArg Bool.toNat hout)
    rw [if_pos hchunk]
    refine ⟨?_, h.live, ?_⟩
    · rw [if_neg hopen', hfree']
      rfl
    · rw [State.handOut, List.length_append, hlent]
      rfl
  · rw [if_neg hchunk]
    exact ⟨h.owners, h.live, h.lent⟩

theorem owned_reclaim (h : Owned s) : Owned s.reclaim := by
  unfold State.reclaim
  by_cases hout : s.checkedOut = true
  · obtain ⟨hopen, hfree, hchunk⟩ := h.of_checkedOut hout
    obtain ⟨heof, herror⟩ := not_or.mp hopen
    have hgoes : s.error = none ∧ s.eof = false := ⟨not_not.mp herror, by simpa using heof⟩
    have hone : ({ s with checkedOut := false, lent := [] } : State).submitRecv.inFlight = 1 := by
      simp only [State.inFlight, State.submitRecv] at hfree ⊢
      omega
    have hopen' : ¬ ({ s with checkedOut := false, lent := [] } : State).submitRecv.Over := hopen
    rw [if_pos hout, if_pos hgoes]
    refine ⟨?_, hone, rfl⟩
    rw [if_neg hopen', hone]
    exact congrArg (fun chunk => 1 + Bool.toNat chunk + 0) hchunk
  · rw [if_neg hout]
    exact h

theorem owned_waiter (h : Owned s) (waiter : Option Waiter) : Owned { s with waiter } :=
  ⟨h.owners, h.live, h.lent⟩

theorem owned_awaitResume (h : Owned s) (w : Waiter) : Owned (s.awaitResume w) := by
  cases w with
  | next => exact owned_take h
  | nextBatch cap maxBytes =>
    simp only [State.awaitResume]
    split
    · exact h
    · exact owned_take h

theorem owned_resume (h : Owned s) : Owned s.resume := by
  unfold State.resume
  split
  · next w _ => exact owned_awaitResume (owned_waiter h none) w
  · exact h

theorem owned_handleCqe (h : Owned s) {r : Res} {cq : List Res} (top : s.cq = r :: cq) :
    Owned ({ s with cq, live := false }.handleCqe r) := by
  have hrecord := owned_record h top
  simp only [State.handleCqe]
  split
  · exact owned_resume hrecord
  · exact hrecord

theorem owned_await (h : Owned s) (w : Waiter) : Owned (s.await w) := by
  have hreclaim := owned_reclaim h
  simp only [State.await]
  split
  · exact owned_awaitResume hreclaim w
  · exact owned_waiter hreclaim (some w)

theorem stored_post (h : Owned s) (hs : Stored s) (hops : 0 < s.ops) (buf : List UInt8)
    (bytes : Option (List UInt8)) {r : Res} (hne : [] ∉ bytes)
    (hreported : { s with buf }.reported r = bytes) :
    Stored ({ s with buf, received := s.received ++ bytes.toList }.post r) := by
  set u := { s with buf, received := s.received ++ bytes.toList }.post r with hu
  have hpos : 0 < s.inFlight := by
    unfold State.inFlight
    omega
  obtain ⟨hopen, hone, hchunk, hout, hlent⟩ := h.of_inFlight hpos
  have hcq : s.cq = [] := by
    unfold State.inFlight at hone
    exact List.length_eq_zero_iff.mp (by omega)
  have hwaiting : s.waiting = [] := by
    rw [State.waiting, hcq, hchunk]
    rfl
  have hwaiting' : u.waiting = bytes.toList := by
    have hu' : u.cq = [r] := by rw [hu, State.post, hcq, List.nil_append]
    have hreported' : u.reported r = bytes := hreported
    rw [State.waiting, hu', show u.hasChunk = false from hchunk]
    cases bytes with
    | none => simp [hreported']
    | some b => simp [hreported']
  obtain ⟨delivered, ends, horder⟩ := hs.order
  have hends := horder.no_ends fun c hc => hopen hc.2
  refine ⟨?_, ?_, delivered, [], ?_⟩
  · intro l hl
    have hnil : l ∈ s.lent := hl
    rw [hlent] at hnil
    cases hnil
  · intro hmem
    rcases List.mem_append.mp hmem with hold | hnew
    · exact hs.data hold
    · exact hne (Option.mem_toList.mp hnew)
  · rw [hwaiting']
    refine ⟨?_, ?_, horder.lent, List.forall_mem_nil _⟩
    · rw [← hends]
      exact horder.handed
    · have hreceived := horder.received
      rw [hwaiting, List.append_nil] at hreceived
      exact congrArg (· ++ bytes.toList) hreceived

theorem exact_data (h : Exact s) (hops : 0 < s.ops) {bytes : List UInt8} (hbytes : bytes ≠ []) :
    Exact ((s.fill bytes).post (.ok bytes.length)) := by
  have hfill : Owned (s.fill bytes) := ⟨h.owned.owners, h.owned.live, h.owned.lent⟩
  refine ⟨owned_post hfill hops _, stored_post h.owned h.stored hops _ (some bytes) ?_ ?_,
    ⟨h.suspended.empty, h.suspended.returned⟩⟩
  · intro hnil
    exact hbytes (Option.some.inj hnil)
  · obtain ⟨n, hn⟩ := Nat.exists_eq_add_one_of_ne_zero
      fun hzero => hbytes (List.length_eq_zero_iff.mp hzero)
    simp only [State.reported, hn, State.read]
    rw [← hn, List.take_left]

theorem exact_no_data (h : Exact s) (hops : 0 < s.ops) {r : Res} (hr : s.reported r = none) :
    Exact (s.post r) := by
  have hpost := stored_post h.owned h.stored hops s.buf none (by rintro ⟨⟩) hr
  rw [Option.toList_none, List.append_nil] at hpost
  exact ⟨owned_post h.owned hops r, hpost, ⟨h.suspended.empty, h.suspended.returned⟩⟩

theorem readable_record (s : State) (r : Res) : (s.record r).Readable := by
  rcases r with err | _ | n
  · exact Or.inr (Or.inr (by simp [State.record]))
  · exact Or.inr (Or.inl rfl)
  · exact Or.inl rfl

theorem waiting_record {r : Res} (hchunk : s.hasChunk = false) (hcq : s.cq = []) :
    (s.record r).waiting = (s.reported r).toList := by
  rcases r with err | _ | n
  · simp [State.waiting, State.record, State.reported, hchunk, hcq]
  · simp [State.waiting, State.record, State.reported, hchunk, hcq]
  · simp [State.waiting, State.record, State.reported, State.read, hcq]

theorem frame_record (s : State) (r : Res) : (s.record r).buf = s.buf ∧
    (s.record r).received = s.received ∧ (s.record r).handed = s.handed ∧
    (s.record r).lent = s.lent ∧ (s.record r).waiter = s.waiter := by
  rcases r with err | _ | n <;> exact ⟨rfl, rfl, rfl, rfl, rfl⟩

theorem stored_record (h : Owned s) (hs : Stored s) {r : Res} {cq : List Res}
    (top : s.cq = r :: cq) : Stored ({ s with cq, live := false }.record r) := by
  obtain ⟨-, -, rfl, hopen, hchunk, -, hlent⟩ := h.popped top
  obtain ⟨delivered, ends, horder⟩ := hs.order
  have hends := horder.no_ends fun c hc => hopen hc.2
  have hwaiting : s.waiting = (s.reported r).toList := by
    rw [State.waiting, top, hchunk]
    cases hr : s.reported r with
    | none => simp [hr]
    | some b => simp [hr]
  have hwaiting' : ({ s with cq := [], live := false }.record r).waiting = (s.reported r).toList :=
    waiting_record hchunk rfl
  obtain ⟨-, hreceived, hhanded, hlent', -⟩ := frame_record { s with cq := [], live := false } r
  refine ⟨fun l hl => ?_, fun hmem => ?_, delivered, [], ?_⟩
  · rw [hlent'] at hl
    have hnil : l ∈ s.lent := hl
    rw [hlent] at hnil
    cases hnil
  · rw [hreceived] at hmem
    exact hs.data hmem
  · rw [hhanded, hreceived, hlent', hwaiting', ← hwaiting]
    refine ⟨?_, horder.received, horder.lent, List.forall_mem_nil _⟩
    rw [← hends]
    exact horder.handed

theorem stored_take (h : Owned s) (hs : Stored s) (hr : s.Readable) : Stored s.take := by
  obtain ⟨delivered, ends, horder⟩ := hs.order
  unfold State.take
  by_cases hchunk : s.hasChunk = true
  · obtain ⟨hopen, hfree, -⟩ := h.of_hasChunk hchunk
    have hcq : s.cq = [] := by
      unfold State.inFlight at hfree
      exact List.length_eq_zero_iff.mp (by omega)
    have hwaiting : s.waiting = [s.read ⟨0, s.len⟩] := by
      rw [State.waiting, hchunk, hcq]
      rfl
    have hwaiting' : s.handOut.waiting = [] := by
      rw [State.waiting, show s.handOut.cq = [] from hcq]
      rfl
    rw [hwaiting] at horder
    rw [if_pos hchunk]
    refine ⟨?_, hs.data, delivered ++ [s.read ⟨0, s.len⟩], [], ?_⟩
    · intro l hl
      rcases List.mem_append.mp hl with hold | hnew
      · exact hs.intact l hold
      · rw [List.mem_singleton.mp hnew]
        rfl
    · rw [hwaiting']
      exact horder.handOut (fun c hc => hopen hc.2) ⟨0, s.len⟩
  · rw [if_neg hchunk]
    refine ⟨hs.intact, hs.data, delivered, ends ++ [⟨[], s.error⟩], ?_⟩
    exact horder.handEnd ⟨rfl, hr.resolve_left hchunk⟩

theorem stored_awaitResume (h : Owned s) (hs : Stored s) (hr : s.Readable) (w : Waiter) :
    Stored (s.awaitResume w) ∧ (s.awaitResume w).waiter = s.waiter := by
  have hwaiter : s.take.waiter = s.waiter := by
    unfold State.take
    split <;> rfl
  have hstored := stored_take h hs hr
  cases w with
  | next => exact ⟨hstored, hwaiter⟩
  | nextBatch cap maxBytes =>
    simp only [State.awaitResume]
    split
    · exact ⟨hs, rfl⟩
    · exact ⟨hstored, hwaiter⟩

theorem exact_dispatch (h : Exact s) {r : Res} {cq : List Res} (top : s.cq = r :: cq) :
    Exact ({ s with cq }.onCqe r) := by
  have howned := owned_record h.owned top
  have hstored := stored_record h.owned h.stored top
  have hr := readable_record { s with cq, live := false } r
  suffices hrest : Stored ({ s with cq }.onCqe r) ∧ Suspended ({ s with cq }.onCqe r) from
    ⟨owned_handleCqe h.owned top, hrest.1, hrest.2⟩
  simp only [State.onCqe, State.handleCqe, if_pos hr, State.resume]
  split
  · next w hw =>
    have hstored' : Stored { { s with cq, live := false }.record r with waiter := none } :=
      ⟨hstored.intact, hstored.data, hstored.order⟩
    obtain ⟨hstored'', hwaiter⟩ := stored_awaitResume (owned_waiter howned none) hstored' hr w
    exact ⟨hstored'', suspended_of_none hwaiter⟩
  · next hw => exact ⟨hstored, suspended_of_none hw⟩

theorem stored_reclaim (hs : Stored s) : Stored s.reclaim ∧ s.reclaim.checkedOut = false ∧
    s.reclaim.waiter = s.waiter := by
  obtain ⟨delivered, ends, horder⟩ := hs.order
  have hreturned := horder.returned
  unfold State.reclaim
  by_cases hout : s.checkedOut = true
  · rw [if_pos hout]
    dsimp only
    split
    · exact ⟨⟨by rintro l ⟨⟩, hs.data, delivered, ends, hreturned⟩, rfl, rfl⟩
    · exact ⟨⟨by rintro l ⟨⟩, hs.data, delivered, ends, hreturned⟩, rfl, rfl⟩
  · rw [if_neg hout]
    exact ⟨hs, by simpa using hout, rfl⟩

theorem exact_await (h : Exact s) (hfree : s.waiter = none) (w : Waiter) : Exact (s.await w) := by
  have howned := owned_reclaim h.owned
  obtain ⟨hstored, hout, hwaiter⟩ := stored_reclaim h.stored
  suffices hrest : Stored (s.await w) ∧ Suspended (s.await w) from
    ⟨owned_await h.owned w, hrest.1, hrest.2⟩
  by_cases hr : s.reclaim.Readable
  · obtain ⟨hstored', hwaiter'⟩ := stored_awaitResume howned hstored hr w
    simp only [State.await, if_pos hr]
    exact ⟨hstored', suspended_of_none (hwaiter'.trans (hwaiter.trans hfree))⟩
  · simp only [State.await, if_neg hr]
    exact ⟨⟨hstored.intact, hstored.data, hstored.order⟩, fun _ => hr, fun _ => hout⟩

theorem exact_submit (h : Exact s) (hqueued : 0 < s.queued) :
    Exact { s with queued := s.queued - 1, ops := s.ops + 1 } :=
  ⟨owned_submit h.owned hqueued, ⟨h.stored.intact, h.stored.data, h.stored.order⟩,
    ⟨h.suspended.empty, h.suspended.returned⟩⟩

theorem exact_step {e : Event} (h : Exact s) (he : Enabled s e) : Exact (next s e) := by
  cases e with
  | submit => exact exact_submit h he
  | data bytes => exact exact_data h he.1 he.2.1
  | eof => exact exact_no_data h he rfl
  | failure err => exact exact_no_data h he rfl
  | dispatch =>
    obtain ⟨r, cq, top⟩ := List.exists_cons_of_ne_nil he
    simp only [next, top]
    exact exact_dispatch h top
  | next => exact exact_await h he .next
  | nextBatch cap maxBytes => exact exact_await h he (.nextBatch cap maxBytes)

theorem exact_of_reachable {entrySize : ℕ} {buf : List UInt8}
    (h : Reachable machine (initial entrySize buf) s) : Exact s :=
  h.invariant (I := Exact) (exact_initial entrySize buf) fun _ _ hexact he _ =>
    exact_step hexact he

end Steps

/-- The buffer belongs to the recv in flight, to the chunk that waits or to the reader, and the
stream is delivered exactly. -/
structure DeliversExactly (s : State) : Prop where
  owner : ¬ s.Over → s.inFlight + s.hasChunk.toNat + s.checkedOut.toNat = 1
  apart : 0 < s.inFlight → s.hasChunk = false ∧ s.checkedOut = false ∧ s.lent = []
  order : ∃ delivered ends,
    InOrder s.handed s.received s.waiting s.lent s.Ended delivered ends ∧ [] ∉ delivered
  intact : ∀ l ∈ s.lent, s.read l.span = l.bytes
  armed : s.waiter ≠ none → s.inFlight = 1

theorem single_shot_stream_delivers_exactly {entrySize : ℕ} {buf : List UInt8} {s : State}
    (h : Reachable machine (initial entrySize buf) s) : DeliversExactly s := by
  have hexact := exact_of_reachable h
  obtain ⟨delivered, ends, horder⟩ := hexact.stored.order
  refine ⟨fun hopen => ?_, fun hpos => ?_, ⟨delivered, ends, horder, fun hmem => ?_⟩,
    hexact.stored.intact, fun hwaits => ?_⟩
  · rw [hexact.owned.owners, if_neg hopen]
  · obtain ⟨-, -, hchunk, hout, hlent⟩ := hexact.owned.of_inFlight hpos
    exact ⟨hchunk, hout, hlent⟩
  · apply hexact.stored.data
    rw [← horder.received]
    exact List.mem_append_left _ hmem
  · have hempty := hexact.suspended.empty hwaits
    have hchunk : s.hasChunk = false := by
      by_contra hne
      exact hempty (Or.inl (by simpa using hne))
    exact hexact.owned.inFlight (fun hover => hempty (Or.inr hover)) hchunk
      (hexact.suspended.returned hwaits)

section Traces

/-- The reader is suspended when the first chunk arrives, holds it while it asks for nothing and
then for the next one, and is told of the end twice. -/
def readsToTheEnd : List Event :=
  [.next, .submit, .data [7, 8], .dispatch, .nextBatch 0 1, .submit, .data [9], .dispatch,
    .nextBatch 4 1, .next, .submit, .eof, .dispatch, .next]

theorem single_shot_stream_delivers_exactly_to_the_end :
    DeliversExactly (runTrace machine (initial 4 []) readsToTheEnd) :=
  single_shot_stream_delivers_exactly (reachable_of_trace readsToTheEnd (by decide +kernel))

end Traces

end EasyioSingleShotRecvStream
