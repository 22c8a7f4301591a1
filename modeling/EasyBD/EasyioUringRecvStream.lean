import Mathlib.Logic.Function.Basic
import Mathlib.Data.List.Nodup
import EasyBD.TransitionRuns
import EasyBD.EasyioRecvStream

/-! The io_uring backend's multishot `RecvStreamImpl` and `RecvSink`, with the part of the kernel
they rely on: the provided buffers, the submission and completion queues, and the running op.
`handle_cqe` does nothing after it resumes the reader, so what the reader does then is a step of
its own. -/
namespace EasyioUringRecvStream

open TransitionRuns EasyioQueue EasyioRecvStream

inductive Res where
  | failed (err : Errno)
  | ok (len : ℕ)
  deriving DecidableEq

/-- A completion: `res`, `IORING_CQE_F_MORE`, and the buffer when `IORING_CQE_F_BUFFER` is set. -/
structure Cqe where
  res : Res
  more : Bool
  buffer : Option ℕ
  deriving DecidableEq

def Cqe.span (c : Cqe) : Option Pending :=
  match c.res, c.buffer with
  | .ok len, some idx => some ⟨idx, len⟩
  | _, _ => none

def enobufs : Errno := ⟨105, by decide, by decide⟩

/-- `br` holds the provided buffers; `queued` and `ops` count the recvs that `submit_recv` has
queued and that the kernel runs; `closed` is set once the socket has no more data. `lent`,
`received` and `handed` record what was handed out since the reader's last call, what the kernel
received, and all chunks handed out, oldest first. -/
structure State where
  entrySize : ℕ
  entries : ℕ
  buf : ℕ → List UInt8
  br : List ℕ
  queued : ℕ
  ops : ℕ
  closed : Bool
  cq : List Cqe
  live : Bool
  pending : List Pending
  checkedOut : List ℕ
  eof : Bool
  error : Option Errno
  needsResubmit : Bool
  waiter : Option Waiter
  lent : List Lent
  received : List (List UInt8)
  handed : List Chunk

/-- After the constructor: every entry is provided, and the first recv is queued. -/
def initial (entrySize entries : ℕ) (buf : ℕ → List UInt8) : State where
  entrySize := entrySize
  entries := entries
  buf := buf
  br := List.range entries
  queued := 1
  ops := 0
  closed := false
  cq := []
  live := true
  pending := []
  checkedOut := []
  eof := false
  error := none
  needsResubmit := false
  waiter := none
  lent := []
  received := []
  handed := []

namespace State

def read (s : State) (p : Pending) : List UInt8 := (s.buf p.idx).take p.len

def posted (s : State) : List Pending := s.cq.filterMap Cqe.span

def Readable (s : State) : Prop := s.pending ≠ [] ∨ s.eof = true ∨ s.error ≠ none

instance (s : State) : Decidable s.Readable :=
  inferInstanceAs (Decidable (s.pending ≠ [] ∨ s.eof = true ∨ s.error ≠ none))

def submitRecv (s : State) : State := { s with queued := s.queued + 1, live := true }

def maybeResubmit (s : State) : State :=
  if s.needsResubmit = true ∧ s.checkedOut = [] then
    { s with needsResubmit := false }.submitRecv
  else s

def returnCheckedOut (s : State) : State :=
  { s with br := s.br ++ s.checkedOut, checkedOut := [], lent := [] }.maybeResubmit

/-- One data chunk, in `_take` and in the loop of `_take_batch`. -/
def handOut (s : State) (p : Pending) (pending : List Pending) : State :=
  { s with
    pending
    checkedOut := s.checkedOut ++ [p.idx]
    lent := s.lent ++ [⟨p, s.read p⟩]
    handed := s.handed ++ [⟨s.read p, none⟩] }

/-- The chunk that ends the stream. -/
def handEnd (s : State) : State := { s with handed := s.handed ++ [⟨[], s.error⟩] }

def source : Source State := ⟨State.pending, handOut, handEnd⟩

def awaitResume (s : State) (w : Waiter) : State := source.awaitResume s w

/-- `std::exchange(_waiter, nullptr).resume()`, up to what the reader is handed. -/
def resume (s : State) : State :=
  match s.waiter with
  | some w => { s with waiter := none }.awaitResume w
  | none => s

/-- The first part of `handle_cqe`, and its `enobufs`. -/
def record (s : State) (c : Cqe) : State × Bool :=
  match c.res, c.buffer with
  | .failed err, _ =>
    if err = enobufs then ({ s with needsResubmit := true }, true)
    else ({ s with error := some err }, false)
  | .ok len, some idx =>
    if c.more = true then ({ s with pending := s.pending ++ [⟨idx, len⟩] }, false)
    else ({ s with pending := s.pending ++ [⟨idx, len⟩], needsResubmit := true }, true)
  | .ok _, none => ({ s with eof := true }, false)

/-- `handle_cqe` up to where it wakes the reader. -/
def absorb (s : State) (c : Cqe) : State :=
  let r := s.record c
  let s := if c.more = false ∧ r.1.error = none ∧ r.1.eof = false ∧ r.2 = false then
    { r.1 with eof := true } else r.1
  if r.2 = true then s.maybeResubmit else s

def handleCqe (s : State) (c : Cqe) : State :=
  let s := s.absorb c
  if s.Readable then s.resume else s

def onCqe (s : State) (c : Cqe) : State :=
  (if c.more = false then { s with live := false } else s).handleCqe c

/-- `co_await` of either awaiter: `_ready`, and then `await_resume` or `_arm`. -/
def await (s : State) (w : Waiter) : State :=
  let s := s.returnCheckedOut
  if s.Readable then s.awaitResume w else { s with waiter := some w }

/-- The kernel posts a completion of the running recv; one without `F_MORE` ends the recv. -/
def post (s : State) (c : Cqe) : State :=
  { s with cq := s.cq ++ [c], ops := if c.more = true then s.ops else s.ops - 1 }

/-- The kernel fills a provided buffer. -/
def fill (s : State) (idx : ℕ) (bytes : List UInt8) : State :=
  { s with
    buf := Function.update s.buf idx (bytes ++ (s.buf idx).drop bytes.length)
    br := s.br.erase idx
    received := s.received ++ [bytes] }

end State

inductive Event where
  | submit
  | data (idx : ℕ) (bytes : List UInt8) (more : Bool)
  | eof (more : Bool)
  | failure (err : Errno)
  | dispatch
  | next
  | nextBatch (cap maxBytes : ℕ)

/-- The kernel's side: a running recv, any provided buffer, no data once the socket is closed. A
suspended reader makes no call. -/
def Enabled (s : State) : Event → Prop
  | .submit => 0 < s.queued
  | .data idx bytes _ => 0 < s.ops ∧ s.closed = false ∧ idx ∈ s.br ∧ bytes ≠ [] ∧
      bytes.length ≤ s.entrySize
  | .eof _ => 0 < s.ops
  | .failure _ => 0 < s.ops
  | .dispatch => s.cq ≠ []
  | .next | .nextBatch _ _ => s.waiter = none

instance (s : State) : (e : Event) → Decidable (Enabled s e)
  | .submit => inferInstanceAs (Decidable (0 < s.queued))
  | .data idx bytes _ => inferInstanceAs (Decidable (0 < s.ops ∧ s.closed = false ∧ idx ∈ s.br ∧
      bytes ≠ [] ∧ bytes.length ≤ s.entrySize))
  | .eof _ | .failure _ => inferInstanceAs (Decidable (0 < s.ops))
  | .dispatch => inferInstanceAs (Decidable (s.cq ≠ []))
  | .next | .nextBatch _ _ => inferInstanceAs (Decidable (s.waiter = none))

def next (s : State) : Event → State
  | .submit => { s with queued := s.queued - 1, ops := s.ops + 1 }
  | .data idx bytes more => (s.fill idx bytes).post ⟨.ok bytes.length, more, some idx⟩
  | .eof more => { s with closed := true }.post ⟨.ok 0, more, none⟩
  | .failure err => s.post ⟨.failed err, false, none⟩
  | .dispatch =>
    match s.cq with
    | c :: cq => { s with cq }.onCqe c
    | [] => s
  | .next => s.await .next
  | .nextBatch cap maxBytes => s.await (.nextBatch cap maxBytes)

def machine : System State Event := ⟨Enabled, next⟩

instance (s : State) (e : Event) : Decidable (machine.Enabled s e) :=
  inferInstanceAs (Decidable (Enabled s e))

/-- Every call leaves room for a chunk. -/
def AsksForData (_ : State) : Event → Prop
  | .nextBatch cap maxBytes => (Waiter.nextBatch cap maxBytes).Asks
  | _ => True

instance (s : State) : (e : Event) → Decidable (AsksForData s e)
  | .nextBatch cap maxBytes => inferInstanceAs (Decidable (Waiter.nextBatch cap maxBytes).Asks)
  | .submit | .data _ _ _ | .eof _ | .failure _ | .dispatch | .next => isTrue trivial

/-- The end of the stream or an error has been dispatched. -/
def State.Over (s : State) : Prop := s.eof = true ∨ s.error ≠ none

/-- How often an entry is with the kernel (provided, or filled and not yet dispatched), in
`_pending`, and in `_checked_out`. -/
def State.places (s : State) (idx : ℕ) : ℕ :=
  (s.br.count idx + (s.posted.map Pending.idx).count idx) +
    (s.pending.map Pending.idx).count idx + s.checkedOut.count idx

/-- What `_take` hands out at the end of the stream, which is final. -/
structure State.Ended (s : State) (c : Chunk) : Prop where
  data : c.data = []
  eof : c.error = none → s.eof = true
  error : ∀ err, c.error = some err → s.error = some err
  pending : s.pending = []
  posted : s.posted = []

/-- Every entry is in one place, and what is behind a span is what the kernel put there. -/
structure Stored (s : State) : Prop where
  places : ∀ idx, s.places idx = (List.range s.entries).count idx
  lent : s.lent.map (fun l => l.span.idx) = s.checkedOut
  intact : ∀ l ∈ s.lent, s.read l.span = l.bytes
  data : [] ∉ s.received
  order : ∃ delivered ends, InOrder s.handed s.received ((s.pending ++ s.posted).map s.read)
    s.lent s.Ended delivered ends

/-- One recv from `submit_recv` until its last completion is dispatched, and no other. -/
structure OneRecv (s : State) : Prop where
  count : s.queued + s.ops + s.cq.countP (fun c => c.more = false) =
    if s.live = true then 1 else 0
  resubmit : s.needsResubmit = true → s.live = false
  failed : s.error ≠ none → s.live = false ∧ s.needsResubmit = false
  idle : s.live = false → s.needsResubmit = true ∨ s.Over
  single : ∀ c ∈ s.cq, ∀ err, c.res = .failed err → c.more = false

/-- A completion after which the kernel posts no data. -/
def Cqe.Ends (c : Cqe) : Prop := c.span = none ∧ c.res ≠ .failed enobufs

/-- No data follows the end of the stream or an error. -/
structure Closing (s : State) : Prop where
  eof : s.eof = true → s.closed = true
  posted : ∀ c ∈ s.cq, ∀ len, c.span = none → c.res = .ok len → s.closed = true
  after : s.cq.Pairwise fun c c' => c.Ends → c'.span = none
  quiet : s.Over → s.posted = []

structure Exact (s : State) : Prop where
  stored : Stored s
  recv : OneRecv s
  closing : Closing s

section Kernel

variable {s : State}

theorem ended_over {c : Chunk} (hc : s.Ended c) : s.Over := by
  cases herror : c.error with
  | none => exact Or.inl (hc.eof herror)
  | some err => exact Or.inr (by simp [hc.error err herror])

theorem exact_initial (entrySize entries : ℕ) (buf : ℕ → List UInt8) :
    Exact (initial entrySize entries buf) where
  stored := by
    refine ⟨fun idx => ?_, rfl, by rintro l ⟨⟩, by rintro ⟨⟩, [], [], .initial⟩
    simp [State.places, State.posted, initial]
  recv := ⟨rfl, by rintro ⟨⟩, fun h => absurd rfl h, by rintro ⟨⟩, by rintro c ⟨⟩⟩
  closing := ⟨by rintro ⟨⟩, by rintro c ⟨⟩, List.Pairwise.nil, fun _ => rfl⟩

theorem posted_post (s : State) (c : Cqe) : (s.post c).posted = s.posted ++ c.span.toList := by
  simp only [State.posted, State.post, List.filterMap_append]
  cases hc : c.span with
  | none => simp [hc]
  | some p => simp [hc]

theorem more_of_running (h : OneRecv s) (hops : 0 < s.ops) {c : Cqe} (hc : c ∈ s.cq) :
    c.more = true := by
  by_contra hmore
  rw [Bool.not_eq_true] at hmore
  have hpos : 0 < s.cq.countP fun c => c.more = false :=
    List.countP_pos_iff.mpr ⟨c, hc, by simpa using hmore⟩
  have hcount := h.count
  split at hcount <;> omega

/-- While the kernel may post data, nothing has ended. -/
theorem open_of_running (h : Exact s) (hops : 0 < s.ops) (hclosed : s.closed = false) :
    ¬ s.Over ∧ ∀ c ∈ s.cq, ¬ c.Ends := by
  have hlive : s.live = true := by
    by_contra hdead
    have hcount := h.recv.count
    rw [if_neg hdead] at hcount
    omega
  constructor
  · rintro (heof | herror)
    · have hover := h.closing.eof heof
      rw [hclosed] at hover
      cases hover
    · have hdead := (h.recv.failed herror).1
      rw [hlive] at hdead
      cases hdead
  · rintro c hc ⟨hspan, hres⟩
    have hmore := more_of_running h.recv hops hc
    cases hkind : c.res with
    | failed err =>
      have hlast := h.recv.single c hc err hkind
      rw [hmore] at hlast
      cases hlast
    | ok len =>
      have hover := h.closing.posted c hc len hspan hkind
      rw [hclosed] at hover
      cases hover

theorem recv_post (h : OneRecv s) (hops : 0 < s.ops) {c : Cqe}
    (hc : ∀ err, c.res = .failed err → c.more = false) : OneRecv (s.post c) := by
  refine ⟨?_, h.resubmit, h.failed, h.idle, fun c' hc' => ?_⟩
  · have hcount := h.count
    cases hmore : c.more with
    | true =>
      simp only [State.post, List.countP_append, List.countP_singleton, hmore, if_true]
      simpa using hcount
    | false =>
      simp only [State.post, List.countP_append, List.countP_singleton, hmore]
      simp only [decide_true, if_true, Bool.false_eq_true, if_false]
      rw [← hcount]
      omega
  · rcases List.mem_append.mp hc' with hold | hnew
    · exact h.single c' hold
    · rw [List.mem_singleton.mp hnew]
      exact hc

theorem exact_submit (h : Exact s) (hqueued : 0 < s.queued) :
    Exact { s with queued := s.queued - 1, ops := s.ops + 1 } := by
  obtain ⟨delivered, ends, horder⟩ := h.stored.order
  refine ⟨⟨h.stored.places, h.stored.lent, h.stored.intact, h.stored.data, delivered, ends,
    horder.mono fun c hc => ⟨hc.data, hc.eof, hc.error, hc.pending, hc.posted⟩⟩,
    ⟨?_, h.recv.resubmit, h.recv.failed, h.recv.idle, h.recv.single⟩,
    ⟨h.closing.eof, h.closing.posted, h.closing.after, h.closing.quiet⟩⟩
  rw [← h.recv.count]
  simp only
  omega

theorem stored_post (h : Stored s) {c : Cqe} (hc : c.span = none) (closed : Bool) :
    Stored ({ s with closed }.post c) := by
  have hposted : ({ s with closed }.post c).posted = s.posted := by
    rw [posted_post, hc]
    exact List.append_nil _
  obtain ⟨delivered, ends, horder⟩ := h.order
  refine ⟨fun idx => ?_, h.lent, h.intact, h.data, delivered, ends, ?_⟩
  · rw [State.places, hposted]
    exact h.places idx
  · rw [hposted]
    exact horder.mono fun c hc => ⟨hc.data, hc.eof, hc.error, hc.pending, hposted.trans hc.posted⟩

theorem closing_post (h : Closing s) {c : Cqe} (hc : c.span = none) {closed : Bool}
    (hmono : s.closed = true → closed = true) (hclosed : ∀ len, c.res = .ok len → closed = true) :
    Closing ({ s with closed }.post c) := by
  refine ⟨fun heof => hmono (h.eof heof), fun c' hc' len hspan hres => ?_, ?_, fun hover => ?_⟩
  · rcases List.mem_append.mp hc' with hold | hnew
    · exact hmono (h.posted c' hold len hspan hres)
    · rw [List.mem_singleton.mp hnew] at hres
      exact hclosed len hres
  · refine List.pairwise_append.mpr ⟨h.after, List.pairwise_singleton _ _, ?_⟩
    rintro c₁ - c₂ hc₂ -
    rw [List.mem_singleton.mp hc₂]
    exact hc
  · rw [posted_post, hc]
    exact (List.append_nil _).trans (h.quiet hover)

theorem exact_eof (h : Exact s) (hops : 0 < s.ops) (more : Bool) :
    Exact ({ s with closed := true }.post ⟨.ok 0, more, none⟩) where
  stored := stored_post h.stored rfl true
  recv := by
    have hrecv : OneRecv { s with closed := true } :=
      ⟨h.recv.count, h.recv.resubmit, h.recv.failed, h.recv.idle, h.recv.single⟩
    exact recv_post hrecv hops (by rintro err ⟨⟩)
  closing := closing_post h.closing rfl (fun _ => rfl) fun _ _ => rfl

theorem exact_failure (h : Exact s) (hops : 0 < s.ops) (err : Errno) :
    Exact (s.post ⟨.failed err, false, none⟩) where
  stored := stored_post h.stored rfl s.closed
  recv := recv_post h.recv hops fun _ _ => rfl
  closing := closing_post h.closing rfl id (by rintro len ⟨⟩)

theorem read_fill {idx : ℕ} {p : Pending} (hp : p.idx ≠ idx) (bytes : List UInt8) :
    (s.fill idx bytes).read p = s.read p := by
  simp only [State.read, State.fill, Function.update_of_ne hp]

theorem read_filled (s : State) (idx : ℕ) (bytes : List UInt8) :
    (s.fill idx bytes).read ⟨idx, bytes.length⟩ = bytes := by
  simp [State.read, State.fill]

theorem provided_apart (h : Stored s) {idx : ℕ} (hidx : idx ∈ s.br) :
    (∀ p ∈ s.pending ++ s.posted, p.idx ≠ idx) ∧ idx ∉ s.checkedOut := by
  have hone : s.places idx ≤ 1 := by
    rw [h.places]
    exact List.nodup_iff_count_le_one.mp List.nodup_range idx
  have hbr : 0 < s.br.count idx := List.count_pos_iff.mpr hidx
  unfold State.places at hone
  refine ⟨fun p hp heq => ?_, fun hout => ?_⟩
  · rcases List.mem_append.mp hp with hpending | hposted
    · have hpos : 0 < (s.pending.map Pending.idx).count idx :=
        List.count_pos_iff.mpr (heq ▸ List.mem_map_of_mem hpending)
      omega
    · have hpos : 0 < (s.posted.map Pending.idx).count idx :=
        List.count_pos_iff.mpr (heq ▸ List.mem_map_of_mem hposted)
      omega
  · have hpos : 0 < s.checkedOut.count idx := List.count_pos_iff.mpr hout
    omega

theorem stored_data (h : Stored s) {idx : ℕ} (hidx : idx ∈ s.br) {bytes : List UInt8}
    (hbytes : bytes ≠ []) (more : Bool) (hopen : ¬ s.Over) :
    Stored ((s.fill idx bytes).post ⟨.ok bytes.length, more, some idx⟩) := by
  set u := (s.fill idx bytes).post ⟨.ok bytes.length, more, some idx⟩ with hu
  have hposted : u.posted = s.posted ++ [⟨idx, bytes.length⟩] := posted_post _ _
  obtain ⟨hspans, hout⟩ := provided_apart h hidx
  have hread {p : Pending} (hp : p.idx ≠ idx) : u.read p = s.read p := read_fill hp bytes
  have hwaiting : (u.pending ++ u.posted).map u.read =
      (s.pending ++ s.posted).map s.read ++ [bytes] := by
    have hold : (s.pending ++ s.posted).map u.read = (s.pending ++ s.posted).map s.read :=
      List.map_congr_left fun p hp => hread (hspans p hp)
    rw [hposted, ← List.append_assoc, List.map_append, ← hold]
    congr 1
    rw [List.map_singleton]
    exact congrArg (fun b => [b]) (read_filled s idx bytes)
  obtain ⟨delivered, ends, horder⟩ := h.order
  refine ⟨fun i => ?_, h.lent, fun l hl => ?_, ?_, delivered, ends, ?_⟩
  · have hplaces := h.places i
    rw [show u.entries = s.entries from rfl, ← hplaces]
    simp only [State.places, hposted, List.map_append, List.count_append, List.map_singleton,
      List.count_singleton, show u.br = s.br.erase idx from rfl, List.count_erase,
      show u.pending = s.pending from rfl, show u.checkedOut = s.checkedOut from rfl]
    by_cases hi : idx = i
    · subst hi
      have hpos : 0 < s.br.count idx := List.count_pos_iff.mpr hidx
      simp only [beq_self_eq_true, if_true]
      omega
    · simp only [beq_iff_eq, hi, if_false]
      omega
  · rw [hread fun heq => hout ?_]
    · exact h.intact l hl
    · rw [← h.lent, ← heq]
      exact List.mem_map_of_mem hl
  · intro hmem
    rcases List.mem_append.mp hmem with hold | hnew
    · exact h.data hold
    · exact hbytes (List.mem_singleton.mp hnew).symm
  · rw [hwaiting]
    exact horder.receive (fun c hc => hopen (ended_over hc)) bytes

theorem exact_data (h : Exact s) {idx : ℕ} {bytes : List UInt8} {more : Bool}
    (he : Enabled s (.data idx bytes more)) :
    Exact ((s.fill idx bytes).post ⟨.ok bytes.length, more, some idx⟩) := by
  obtain ⟨hops, hclosed, hidx, hbytes, -⟩ := he
  obtain ⟨hopen, hnone⟩ := open_of_running h hops hclosed
  have hrecv : OneRecv (s.fill idx bytes) :=
    ⟨h.recv.count, h.recv.resubmit, h.recv.failed, h.recv.idle, h.recv.single⟩
  refine ⟨stored_data h.stored hidx hbytes more hopen,
    recv_post hrecv hops (by rintro err ⟨⟩), h.closing.eof, fun c hc len hspan hres => ?_, ?_,
    fun hover => absurd hover hopen⟩
  · rcases List.mem_append.mp hc with hold | hnew
    · exact h.closing.posted c hold len hspan hres
    · rw [List.mem_singleton.mp hnew] at hspan
      cases hspan
  · refine List.pairwise_append.mpr ⟨h.closing.after, List.pairwise_singleton _ _, ?_⟩
    intro c hc c' _ hends
    exact absurd hends (hnone c hc)

end Kernel

inductive Absorbed (s : State) (c : Cqe) : State → Prop where
  | chunk (p : Pending) : c.span = some p → c.more = true →
      Absorbed s c { s with pending := s.pending ++ [p] }
  | lastChunk (p : Pending) : c.span = some p → c.more = false →
      Absorbed s c { s with pending := s.pending ++ [p], needsResubmit := true }.maybeResubmit
  | noBuffers : c.res = .failed enobufs →
      Absorbed s c { s with needsResubmit := true }.maybeResubmit
  | error (err : Errno) : c.res = .failed err → err ≠ enobufs →
      Absorbed s c { s with error := some err }
  | eof (len : ℕ) : c.res = .ok len → c.buffer = none → Absorbed s c { s with eof := true }

theorem absorb_cases (s : State) (c : Cqe) : Absorbed s c (s.absorb c) := by
  obtain ⟨res, more, buffer⟩ := c
  cases res with
  | failed err =>
    by_cases herr : err = enobufs
    · subst herr
      simpa [State.absorb, State.record] using Absorbed.noBuffers rfl
    · simpa [State.absorb, State.record, herr] using Absorbed.error err rfl herr
  | ok len =>
    cases buffer with
    | none => simpa [State.absorb, State.record] using Absorbed.eof len rfl rfl
    | some idx =>
      cases more with
      | true => simpa [State.absorb, State.record] using Absorbed.chunk ⟨idx, len⟩ rfl rfl
      | false => simpa [State.absorb, State.record] using Absorbed.lastChunk ⟨idx, len⟩ rfl rfl

/-- `_dispatch` takes a completion off the queue and `on_cqe` clears `_live` at the last one. -/
def State.popped (s : State) (c : Cqe) (cq : List Cqe) : State :=
  { s with cq, live := s.live && c.more }

theorem onCqe_eq (s : State) (c : Cqe) (cq : List Cqe) :
    { s with cq }.onCqe c = (s.popped c cq).handleCqe c := by
  cases hmore : c.more with
  | true => simp [State.onCqe, State.popped, hmore]
  | false => simp [State.onCqe, State.popped, hmore]

section Dispatch

variable {s s' : State} {c : Cqe} {cq : List Cqe}

theorem span_of_failed {err : Errno} (hres : c.res = .failed err) : c.span = none := by
  simp [Cqe.span, hres]

theorem span_of_no_buffer (hbuffer : c.buffer = none) : c.span = none := by
  cases hres : c.res with
  | failed err => exact span_of_failed hres
  | ok len => simp [Cqe.span, hres, hbuffer]

theorem stored_maybeResubmit (h : Stored s) : Stored s.maybeResubmit := by
  obtain ⟨delivered, ends, horder⟩ := h.order
  unfold State.maybeResubmit
  split
  · exact ⟨h.places, h.lent, h.intact, h.data, delivered, ends,
      horder.mono fun c hc => ⟨hc.data, hc.eof, hc.error, hc.pending, hc.posted⟩⟩
  · exact h

theorem closing_maybeResubmit (h : Closing s) : Closing s.maybeResubmit := by
  unfold State.maybeResubmit
  split
  · exact ⟨h.eof, h.posted, h.after, h.quiet⟩
  · exact h

/-- The recv is submitted again only after its last completion. -/
theorem recv_maybeResubmit (h : OneRecv s) : OneRecv s.maybeResubmit := by
  unfold State.maybeResubmit
  split
  · next hneeds =>
    have hdead := h.resubmit hneeds.1
    have hcount := h.count
    rw [if_neg (by simp [hdead])] at hcount
    refine ⟨?_, by rintro ⟨⟩, fun herror => ?_, by rintro ⟨⟩, h.single⟩
    · simp only [State.submitRecv, if_true]
      omega
    · have hnone := (h.failed herror).2
      rw [hneeds.1] at hnone
      cases hnone
  · exact h

theorem last_completion (h : OneRecv s) (top : s.cq = c :: cq) (hlast : c.more = false) :
    s.live = true ∧ s.queued + s.ops + cq.countP (fun c => c.more = false) = 0 := by
  have hcount := h.count
  rw [top, List.countP_cons_of_pos (by simpa using hlast)] at hcount
  cases hlive : s.live with
  | true =>
    rw [if_pos hlive] at hcount
    exact ⟨rfl, by omega⟩
  | false =>
    rw [if_neg (by simp [hlive])] at hcount
    omega

theorem recv_dispatch (h : OneRecv s) (top : s.cq = c :: cq) (ha : Absorbed (s.popped c cq) c s') :
    OneRecv s' := by
  have hsingle : ∀ c' ∈ cq, ∀ err, c'.res = .failed err → c'.more = false :=
    fun c' hc' => h.single c' (top ▸ List.mem_cons_of_mem c hc')
  have hfailed {err : Errno} (hres : c.res = .failed err) : c.more = false :=
    h.single c (top ▸ List.mem_cons_self) err hres
  have herror (hlive : s.live = true) : s.error = none := by
    by_contra hne
    have hdead := (h.failed hne).1
    rw [hlive] at hdead
    cases hdead
  -- After the last completion there is no recv, until `_maybe_resubmit` submits one.
  have hresubmits (hlast : c.more = false) (pending : List Pending) :
      OneRecv { s.popped c cq with pending, needsResubmit := true } := by
    obtain ⟨hlive, hcount⟩ := last_completion h top hlast
    refine ⟨?_, fun _ => ?_, fun hne => absurd (herror hlive) hne, fun _ => Or.inl rfl, hsingle⟩
    · simpa [State.popped, hlast] using hcount
    · simp [State.popped, hlast]
  -- While it goes on, everything else is as before.
  have hgoes (hmore : c.more = true) : (s.popped c cq).live = s.live ∧
      s.queued + s.ops + cq.countP (fun c => c.more = false) = if s.live = true then 1 else 0 := by
    have hcount := h.count
    rw [top, List.countP_cons_of_neg (by simp [hmore])] at hcount
    exact ⟨by simp [State.popped, hmore], hcount⟩
  cases ha with
  | chunk p hspan hmore =>
    obtain ⟨hlive, hcount⟩ := hgoes hmore
    refine ⟨?_, fun hneeds => ?_, fun hne => ?_, fun hdead => ?_, hsingle⟩
    · rw [← hlive] at hcount
      exact hcount
    · exact hlive.trans (h.resubmit hneeds)
    · exact ⟨hlive.trans (h.failed hne).1, (h.failed hne).2⟩
    · exact h.idle (hlive.symm.trans hdead)
  | lastChunk p hspan hlast => exact recv_maybeResubmit (hresubmits hlast _)
  | noBuffers hres => exact recv_maybeResubmit (hresubmits (hfailed hres) _)
  | error err hres herr =>
    have hlast := hfailed hres
    obtain ⟨hlive, hcount⟩ := last_completion h top hlast
    have hdead : (s.popped c cq).live = false := by simp [State.popped, hlast]
    have hneeds : s.needsResubmit = false := by
      by_contra hne
      have hnone := h.resubmit (by simpa using hne)
      rw [hlive] at hnone
      cases hnone
    refine ⟨?_, fun _ => hdead, fun _ => ⟨hdead, hneeds⟩, fun _ => Or.inr (Or.inr (by simp)),
      hsingle⟩
    simpa [State.popped, hlast] using hcount
  | eof len hres hbuffer =>
    refine ⟨?_, fun hneeds => ?_, fun hne => ?_, fun _ => Or.inr (Or.inl rfl), hsingle⟩
    · cases hmore : c.more with
      | true =>
        obtain ⟨hlive, hcount⟩ := hgoes hmore
        rw [← hlive] at hcount
        exact hcount
      | false => simpa [State.popped, hmore] using (last_completion h top hmore).2
    · simp [State.popped, h.resubmit hneeds]
    · exact ⟨by simp [State.popped, (h.failed hne).1], (h.failed hne).2⟩

theorem posted_popped (top : s.cq = c :: cq) :
    s.posted = c.span.toList ++ (s.popped c cq).posted := by
  simp only [State.posted, State.popped, top, List.filterMap_cons]
  cases c.span <;> rfl

theorem stored_chunk (h : Stored s) (top : s.cq = c :: cq) {p : Pending} (hspan : c.span = some p)
    (needsResubmit : Bool) :
    Stored { s.popped c cq with pending := s.pending ++ [p], needsResubmit } := by
  have hposted := posted_popped top
  rw [hspan, Option.toList_some, List.singleton_append] at hposted
  obtain ⟨delivered, ends, horder⟩ := h.order
  refine ⟨fun idx => ?_, h.lent, h.intact, h.data, delivered, ends, ?_⟩
  · have hplaces := h.places idx
    rw [State.places, hposted, List.map_cons, List.count_cons] at hplaces
    simp only [State.places, List.map_append, List.count_append, List.map_singleton,
      List.count_singleton]
    rw [← show s.entries = (s.popped c cq).entries from rfl, ← hplaces]
    simp only [State.popped, State.posted]
    omega
  · rw [hposted] at horder
    have hwaiting : s.pending ++ [p] ++ (s.popped c cq).posted =
        s.pending ++ p :: (s.popped c cq).posted := by simp
    have hopen (chunk : Chunk) : ¬ s.Ended chunk := by
      intro hended
      have hnil := hended.posted
      rw [hposted] at hnil
      cases hnil
    rw [← hwaiting] at horder
    exact horder.mono fun chunk hended => absurd hended (hopen chunk)

theorem stored_quiet (h : Stored s) (top : s.cq = c :: cq) (hspan : c.span = none) {eof : Bool}
    {error : Option Errno} (needsResubmit : Bool) (heof : s.eof = true → eof = true)
    (herror : ∀ err, s.error = some err → error = some err) :
    Stored { s.popped c cq with eof, error, needsResubmit } := by
  have hposted := posted_popped top
  rw [hspan, Option.toList_none, List.nil_append] at hposted
  obtain ⟨delivered, ends, horder⟩ := h.order
  have hsame : InOrder s.handed s.received ((s.pending ++ s.posted).map s.read) s.lent
      ({ s.popped c cq with eof, error, needsResubmit } : State).Ended delivered ends :=
    horder.mono fun chunk hended => ⟨hended.data, fun hnone => heof (hended.eof hnone),
      fun err hsome => herror err (hended.error err hsome), hended.pending,
      hposted.symm.trans hended.posted⟩
  refine ⟨fun idx => ?_, h.lent, h.intact, h.data, delivered, ends, ?_⟩
  · have hplaces := h.places idx
    rw [State.places, hposted] at hplaces
    exact hplaces
  · rw [hposted] at hsame
    exact hsame

theorem stored_dispatch (h : Stored s) (hrecv : OneRecv s) (top : s.cq = c :: cq)
    (ha : Absorbed (s.popped c cq) c s') : Stored s' := by
  cases ha with
  | chunk p hspan _ => exact stored_chunk h top hspan s.needsResubmit
  | lastChunk p hspan _ => exact stored_maybeResubmit (stored_chunk h top hspan true)
  | noBuffers hres =>
    exact stored_maybeResubmit
      (stored_quiet h top (span_of_failed hres) true id fun _ herror => herror)
  | error err hres _ =>
    refine stored_quiet h top (span_of_failed hres) s.needsResubmit id fun err' herror => ?_
    -- The recv that reports an error was live, so there was none before.
    have hlast := hrecv.single c (top ▸ List.mem_cons_self) err hres
    have hdead := (hrecv.failed (by simp [herror])).1
    rw [(last_completion hrecv top hlast).1] at hdead
    cases hdead
  | eof len _ hbuffer =>
    exact stored_quiet h top (span_of_no_buffer hbuffer) s.needsResubmit (fun _ => rfl)
      fun _ herror => herror

theorem closing_dispatch (h : Closing s) (top : s.cq = c :: cq)
    (ha : Absorbed (s.popped c cq) c s') : Closing s' := by
  have hafter := h.after
  rw [top] at hafter
  obtain ⟨hends, htail⟩ := List.pairwise_cons.mp hafter
  have hposted : ∀ c' ∈ cq, ∀ len, c'.span = none → c'.res = .ok len → s.closed = true :=
    fun c' hc' => h.posted c' (top ▸ List.mem_cons_of_mem c hc')
  have hover (hover : s.Over) : (s.popped c cq).posted = [] := by
    have hnil := h.quiet hover
    rw [posted_popped top] at hnil
    exact (List.append_eq_nil_iff.mp hnil).2
  have hlast (hc : c.Ends) : (s.popped c cq).posted = [] :=
    List.filterMap_eq_nil_iff.mpr fun c' hc' => hends c' hc' hc
  cases ha with
  | chunk p hspan hmore => exact ⟨h.eof, hposted, htail, hover⟩
  | lastChunk p hspan hmore => exact closing_maybeResubmit ⟨h.eof, hposted, htail, hover⟩
  | noBuffers hres => exact closing_maybeResubmit ⟨h.eof, hposted, htail, hover⟩
  | error err hres herr =>
    refine ⟨h.eof, hposted, htail, fun _ => hlast ⟨span_of_failed hres, fun heq => ?_⟩⟩
    rw [hres] at heq
    exact herr (by injection heq)
  | eof len hres hbuffer =>
    have hspan := span_of_no_buffer hbuffer
    refine ⟨fun _ => h.posted c (top ▸ List.mem_cons_self) len hspan hres, hposted, htail,
      fun _ => hlast ⟨hspan, fun heq => ?_⟩⟩
    rw [hres] at heq
    cases heq

theorem exact_dispatch (h : Exact s) (top : s.cq = c :: cq) :
    Exact ((s.popped c cq).absorb c) := by
  have ha := absorb_cases (s.popped c cq) c
  exact ⟨stored_dispatch h.stored h.recv top ha, recv_dispatch h.recv top ha,
    closing_dispatch h.closing top ha⟩

end Dispatch

section Calls

variable {s : State}

theorem exact_maybeResubmit (h : Exact s) : Exact s.maybeResubmit :=
  ⟨stored_maybeResubmit h.stored, recv_maybeResubmit h.recv, closing_maybeResubmit h.closing⟩

theorem exact_returnCheckedOut (h : Exact s) : Exact s.returnCheckedOut := by
  obtain ⟨delivered, ends, horder⟩ := h.stored.order
  refine exact_maybeResubmit ⟨⟨fun idx => ?_, rfl, by rintro l ⟨⟩, h.stored.data, delivered, ends,
    ?_⟩, ⟨h.recv.count, h.recv.resubmit, h.recv.failed, h.recv.idle, h.recv.single⟩,
    ⟨h.closing.eof, h.closing.posted, h.closing.after, h.closing.quiet⟩⟩
  · have hplaces := h.stored.places idx
    simp only [State.places, State.posted, List.count_append, List.count_nil] at hplaces ⊢
    omega
  · exact horder.returned.mono fun c hc => ⟨hc.data, hc.eof, hc.error, hc.pending, hc.posted⟩

theorem exact_handOut (h : Exact s) {p : Pending} {pending : List Pending}
    (top : s.pending = p :: pending) : Exact (s.handOut p pending) := by
  obtain ⟨delivered, ends, horder⟩ := h.stored.order
  have hnone (c : Chunk) : ¬ s.Ended c := by
    intro hc
    have hempty := hc.pending
    rw [top] at hempty
    cases hempty
  rw [top, List.cons_append, List.map_cons] at horder
  refine ⟨⟨fun idx => ?_, ?_, ?_, h.stored.data, delivered ++ [s.read p], [],
    horder.handOut hnone p⟩,
    ⟨h.recv.count, h.recv.resubmit, h.recv.failed, h.recv.idle, h.recv.single⟩,
    ⟨h.closing.eof, h.closing.posted, h.closing.after, h.closing.quiet⟩⟩
  · have hplaces := h.stored.places idx
    simp only [State.places, State.posted, top, State.handOut, List.map_cons, List.count_cons,
      List.count_append, List.count_nil] at hplaces ⊢
    omega
  · simp [State.handOut, h.stored.lent]
  · intro l hl
    rcases List.mem_append.mp hl with hold | hnew
    · exact h.stored.intact l hold
    · rw [List.mem_singleton.mp hnew]
      rfl

theorem exact_handEnd (h : Exact s) (hover : s.Over) (hempty : s.pending = []) :
    Exact s.handEnd := by
  have hend : s.Ended ⟨[], s.error⟩ :=
    ⟨rfl, fun hnone => hover.resolve_right fun hne => hne hnone, fun _ herror => herror, hempty,
      h.closing.quiet hover⟩
  obtain ⟨delivered, ends, horder⟩ := h.stored.order
  exact ⟨⟨h.stored.places, h.stored.lent, h.stored.intact, h.stored.data, delivered, _,
    (horder.handEnd hend).mono fun c hc => ⟨hc.data, hc.eof, hc.error, hc.pending, hc.posted⟩⟩,
    ⟨h.recv.count, h.recv.resubmit, h.recv.failed, h.recv.idle, h.recv.single⟩,
    ⟨h.closing.eof, h.closing.posted, h.closing.after, h.closing.quiet⟩⟩

theorem exact_waiter (h : Exact s) (waiter : Option Waiter) : Exact { s with waiter } := by
  obtain ⟨delivered, ends, horder⟩ := h.stored.order
  exact ⟨⟨h.stored.places, h.stored.lent, h.stored.intact, h.stored.data, delivered, ends,
    horder.mono fun c hc => ⟨hc.data, hc.eof, hc.error, hc.pending, hc.posted⟩⟩,
    ⟨h.recv.count, h.recv.resubmit, h.recv.failed, h.recv.idle, h.recv.single⟩,
    ⟨h.closing.eof, h.closing.posted, h.closing.after, h.closing.quiet⟩⟩

theorem exact_source : State.source.KeepsReader State.Over Exact State.waiter State.entries where
  handOut := fun _ _ _ h top => exact_handOut h top
  handEnd := fun _ h hover hempty => exact_handEnd h hover hempty
  out_frame := fun _ _ _ => ⟨rfl, rfl⟩
  end_frame := fun _ => ⟨rfl, rfl⟩

end Calls

structure Suspended (s : State) : Prop where
  asks : ∀ w, s.waiter = some w → w.Asks
  empty : s.waiter ≠ none → ¬ s.Readable
  returned : s.waiter ≠ none → s.checkedOut = []
  armed : s.waiter ≠ none → s.live = true

theorem suspended_of_none {s : State} (h : s.waiter = none) : Suspended s := by
  refine ⟨fun w hw => ?_, fun hne => absurd h hne, fun hne => absurd h hne,
    fun hne => absurd h hne⟩
  rw [h] at hw
  cases hw

section Steps

variable {s s' : State}

theorem maybeResubmit_frame (s : State) : s.maybeResubmit.waiter = s.waiter ∧
    s.maybeResubmit.checkedOut = s.checkedOut ∧ s.maybeResubmit.entries = s.entries ∧
    s.maybeResubmit.pending = s.pending := by
  unfold State.maybeResubmit
  split
  · exact ⟨rfl, rfl, rfl, rfl⟩
  · exact ⟨rfl, rfl, rfl, rfl⟩

theorem resubmitted (hout : s.checkedOut = []) : s.maybeResubmit.needsResubmit = false ∧
    (s.needsResubmit = true → s.maybeResubmit.live = true) := by
  unfold State.maybeResubmit
  split
  · exact ⟨rfl, fun _ => rfl⟩
  · next hnot =>
    have hneeds : s.needsResubmit = false := by
      by_contra hne
      exact hnot ⟨by simpa using hne, hout⟩
    exact ⟨hneeds, fun htrue => absurd (hneeds.symm.trans htrue) (by simp)⟩

theorem absorbed_frame {c : Cqe} (ha : Absorbed s c s') : s'.waiter = s.waiter ∧
    s'.checkedOut = s.checkedOut ∧ s'.entries = s.entries := by
  cases ha with
  | chunk | error | eof => exact ⟨rfl, rfl, rfl⟩
  | lastChunk | noBuffers =>
    obtain ⟨hwaiter, hout, hentries, -⟩ := maybeResubmit_frame _
    exact ⟨hwaiter, hout, hentries⟩

/-- Either there is something for the reader, or the recv goes on, or the next one is queued. -/
theorem armed_absorbed {c : Cqe} {cq : List Cqe} (ha : Absorbed (s.popped c cq) c s')
    (hout : s.checkedOut = []) (hr : ¬ s'.Readable) : s'.live = true := by
  cases ha with
  | chunk p => exact absurd (Or.inl (by simp)) hr
  | lastChunk p =>
    refine absurd (Or.inl ?_) hr
    rw [(maybeResubmit_frame _).2.2.2]
    simp
  | noBuffers =>
    have hout' : ({ s.popped c cq with needsResubmit := true } : State).checkedOut = [] := hout
    exact (resubmitted hout').2 rfl
  | error err => exact absurd (Or.inr (Or.inr (by simp))) hr
  | eof => exact absurd (Or.inr (Or.inl rfl)) hr

theorem resume_spec (h : Exact s) (hr : s.Readable) (hasks : ∀ w, s.waiter = some w → w.Asks) :
    Exact s.resume ∧ s.resume.waiter = none ∧ s.resume.entries = s.entries := by
  unfold State.resume
  split
  · next w hw =>
    have hready : ({ s with waiter := none } : State).Readable := hr
    exact exact_source.awaitResume (exact_waiter h none) hready (hasks w hw)
  · next hw => exact ⟨h, hw, rfl⟩

theorem dispatch_spec (h : Exact s) (hs : Suspended s) {c : Cqe} {cq : List Cqe}
    (top : s.cq = c :: cq) : Exact ((s.popped c cq).handleCqe c) ∧
      Suspended ((s.popped c cq).handleCqe c) ∧
      ((s.popped c cq).handleCqe c).entries = s.entries := by
  have ha := absorb_cases (s.popped c cq) c
  have hexact := exact_dispatch h top
  obtain ⟨hwaiter, hout, hentries⟩ := absorbed_frame ha
  replace hwaiter : ((s.popped c cq).absorb c).waiter = s.waiter := hwaiter
  unfold State.handleCqe
  by_cases hr : ((s.popped c cq).absorb c).Readable
  · rw [if_pos hr]
    obtain ⟨hexact', hnone, hentries'⟩ :=
      resume_spec hexact hr fun w hw => hs.asks w (hwaiter ▸ hw)
    exact ⟨hexact', suspended_of_none hnone, hentries'.trans hentries⟩
  · rw [if_neg hr]
    refine ⟨hexact, ⟨fun w hw => hs.asks w (hwaiter ▸ hw), fun _ => hr, fun hne => ?_,
      fun hne => ?_⟩, hentries⟩
    · exact hout.trans (hs.returned (hwaiter ▸ hne))
    · exact armed_absorbed ha (hs.returned (hwaiter ▸ hne)) hr

theorem await_spec (h : Exact s) (hfree : s.waiter = none) {w : Waiter} (hw : w.Asks) :
    Exact (s.await w) ∧ Suspended (s.await w) ∧ (s.await w).entries = s.entries := by
  have hexact := exact_returnCheckedOut h
  obtain ⟨hwaiter, hout, hentries, -⟩ :=
    maybeResubmit_frame { s with br := s.br ++ s.checkedOut, checkedOut := [], lent := [] }
  by_cases hr : s.returnCheckedOut.Readable
  · obtain ⟨hexact', hwaiter', hentries'⟩ := exact_source.awaitResume hexact hr hw
    simp only [State.await, if_pos hr]
    exact ⟨hexact', suspended_of_none (hwaiter'.trans (hwaiter.trans hfree)),
      hentries'.trans hentries⟩
  · simp only [State.await, if_neg hr]
    have hlive : s.returnCheckedOut.live = true := by
      by_contra hdead
      rcases hexact.recv.idle (by simpa using hdead) with hneeds | hover
      · have hnone : s.returnCheckedOut.needsResubmit = false := (resubmitted rfl).1
        rw [hneeds] at hnone
        cases hnone
      · exact hr (Or.inr hover)
    refine ⟨exact_waiter hexact (some w), ⟨?_, fun _ => hr, fun _ => hout, fun _ => hlive⟩,
      hentries⟩
    rintro _ ⟨⟩
    exact hw

theorem exact_step {e : Event} (h : Exact s) (hs : Suspended s) (he : Enabled s e)
    (g : AsksForData s e) :
    Exact (next s e) ∧ Suspended (next s e) ∧ (next s e).entries = s.entries := by
  cases e with
  | submit => exact ⟨exact_submit h he, ⟨hs.asks, hs.empty, hs.returned, hs.armed⟩, rfl⟩
  | data idx bytes more =>
    exact ⟨exact_data h he, ⟨hs.asks, hs.empty, hs.returned, hs.armed⟩, rfl⟩
  | eof more =>
    exact ⟨exact_eof h he more, ⟨hs.asks, hs.empty, hs.returned, hs.armed⟩, rfl⟩
  | failure err =>
    exact ⟨exact_failure h he err, ⟨hs.asks, hs.empty, hs.returned, hs.armed⟩, rfl⟩
  | dispatch =>
    obtain ⟨c, cq, top⟩ := List.exists_cons_of_ne_nil he
    simp only [next, top, onCqe_eq]
    exact dispatch_spec h hs top
  | next => exact await_spec h he trivial
  | nextBatch cap maxBytes => exact await_spec h he g

end Steps

/-- The stream is delivered exactly: every entry is in one place, at most one recv is queued or
running, the chunks are the received ones and then the end, no span changes while the reader may
use it, and a suspended reader has a recv to wait for. -/
structure DeliversExactly (entries : ℕ) (s : State) : Prop where
  inside : ∀ idx, idx < entries → s.places idx = 1
  outside : ∀ idx, entries ≤ idx → s.places idx = 0
  oneRecv : s.queued + s.ops ≤ 1
  order : ∃ delivered ends, InOrder s.handed s.received ((s.pending ++ s.posted).map s.read)
    s.lent s.Ended delivered ends ∧ [] ∉ delivered
  intact : ∀ l ∈ s.lent, s.read l.span = l.bytes
  armed : s.waiter ≠ none → s.live = true ∧ (s.cq = [] → s.queued + s.ops = 1)

theorem uring_stream_delivers_exactly {entrySize entries : ℕ} {buf : ℕ → List UInt8} {s : State}
    (h : Run machine AsksForData (initial entrySize entries buf) s) :
    DeliversExactly entries s := by
  have hinv : Exact s ∧ Suspended s ∧ s.entries = entries := by
    refine h.invariant (I := fun s => Exact s ∧ Suspended s ∧ s.entries = entries)
      ⟨exact_initial _ _ _, suspended_of_none rfl, rfl⟩ ?_
    rintro u e ⟨hexact, hsuspended, hsame⟩ he hg
    obtain ⟨hexact', hsuspended', hsame'⟩ := exact_step hexact hsuspended he hg
    exact ⟨hexact', hsuspended', hsame'.trans hsame⟩
  obtain ⟨hexact, hsuspended, rfl⟩ := hinv
  have hcount := hexact.recv.count
  obtain ⟨delivered, ends, horder⟩ := hexact.stored.order
  refine ⟨fun idx hidx => ?_, fun idx hidx => ?_, ?_, ⟨delivered, ends, horder, fun hmem => ?_⟩,
    hexact.stored.intact, fun hwaits => ?_⟩
  · rw [hexact.stored.places]
    exact List.count_eq_one_of_mem List.nodup_range (List.mem_range.mpr hidx)
  · rw [hexact.stored.places]
    exact List.count_eq_zero_of_not_mem fun hmem => absurd (List.mem_range.mp hmem) (by omega)
  · split at hcount <;> omega
  · apply hexact.stored.data
    rw [← horder.received]
    exact List.mem_append_left _ hmem
  · have hlive := hsuspended.armed hwaits
    refine ⟨hlive, fun hempty => ?_⟩
    rw [if_pos hlive, hempty] at hcount
    exact hcount

section Traces

/-- Two entries: one fills while the reader is suspended, the second with the end of the ring
folded into it; the recv is submitted again when the reader returns the first. -/
def ringRunsDry : List Event :=
  [.next, .submit, .data 0 [7] true, .dispatch, .data 1 [8] false, .dispatch, .nextBatch 4 64,
    .submit, .eof false, .dispatch, .next]

theorem uring_stream_delivers_exactly_when_ring_runs_dry :
    DeliversExactly 2 (runTrace machine (initial 1 2 fun _ => []) ringRunsDry) :=
  uring_stream_delivers_exactly (run_of_trace ringRunsDry (by decide +kernel) (by decide +kernel))

def limitOfZero : List Event := [.submit, .data 0 [7] true, .dispatch, .nextBatch 1 0]

/-- The reader is told that the stream is over, and the chunk is still there. -/
theorem uring_limit_of_zero_reads_as_eof :
    let s := runTrace machine (initial 1 1 fun _ => []) limitOfZero
    Reachable machine (initial 1 1 fun _ => []) s ∧ s.handed = [⟨[], none⟩] ∧
      s.pending = [⟨0, 1⟩] ∧ ¬ DeliversExactly 1 s := by
  intro s
  have hhanded : s.handed = [⟨[], none⟩] := by decide +kernel
  have hpending : s.pending = [⟨0, 1⟩] := by decide +kernel
  refine ⟨reachable_of_trace limitOfZero (by decide +kernel), hhanded, hpending, fun h => ?_⟩
  obtain ⟨delivered, ends, horder, hdata⟩ := h.order
  rcases horder.mem_handed (hhanded ▸ List.mem_singleton_self _) with hend | hnil
  · have hempty := (horder.ends _ hend).pending
    rw [hpending] at hempty
    cases hempty
  · exact hdata hnil

end Traces

end EasyioUringRecvStream
