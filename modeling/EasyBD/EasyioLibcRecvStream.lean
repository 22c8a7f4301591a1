import Mathlib.Logic.Function.Basic
import EasyBD.TransitionRuns
import EasyBD.CyclicWindow
import EasyBD.EasyioRecvStream

/-! The libc backend's `RecvStreamImpl`: a ring of `entries` buffers that `on_ready` fills and
`next`/`next_batch` empties. Where `on_ready` or `cancel` resumes the reader they do nothing
afterwards, so what the reader does then is a step of its own. -/
namespace EasyioLibcRecvStream

open TransitionRuns CyclicWindow EasyioQueue EasyioRecvStream

inductive RecvResult where
  | data (bytes : List UInt8)
  | again
  | eof
  | failed (err : Errno)
  deriving DecidableEq

/-- `lent`, `received` and `handed` record what was handed out since the reader's last call,
what `recv` returned, and all chunks handed out, oldest first. -/
structure State where
  entrySize : ℕ
  entries : ℕ
  buf : ℕ → List UInt8
  writeIdx : ℕ
  pending : List Pending
  checkedOutCount : ℕ
  eof : Bool
  error : Option Errno
  waiter : Option Waiter
  lent : List Lent
  received : List (List UInt8)
  handed : List Chunk

def initial (entrySize entries : ℕ) (buf : ℕ → List UInt8) : State where
  entrySize := entrySize
  entries := entries
  buf := buf
  writeIdx := 0
  pending := []
  checkedOutCount := 0
  eof := false
  error := none
  waiter := none
  lent := []
  received := []
  handed := []

namespace State

def read (s : State) (p : Pending) : List UInt8 := (s.buf p.idx).take p.len

def Readable (s : State) : Prop := s.pending ≠ [] ∨ s.eof = true ∨ s.error ≠ none

instance (s : State) : Decidable s.Readable :=
  inferInstanceAs (Decidable (s.pending ≠ [] ∨ s.eof = true ∨ s.error ≠ none))

/-- `recv` into the entry at `_write_idx`. -/
def store (s : State) (bytes : List UInt8) : State :=
  { s with
    buf := Function.update s.buf s.writeIdx (bytes ++ (s.buf s.writeIdx).drop bytes.length)
    writeIdx := (s.writeIdx + 1) % s.entries
    pending := s.pending ++ [⟨s.writeIdx, bytes.length⟩]
    received := s.received ++ [bytes] }

def returnCheckedOut (s : State) : State := { s with checkedOutCount := 0, lent := [] }

/-- One data chunk, in `_take` and in the loop of `_take_batch`. -/
def handOut (s : State) (p : Pending) (pending : List Pending) : State :=
  { s with
    pending
    checkedOutCount := s.checkedOutCount + 1
    lent := s.lent ++ [⟨p, s.read p⟩]
    handed := s.handed ++ [⟨s.read p, none⟩] }

/-- The chunk that ends the stream. -/
def handEnd (s : State) : State := { s with handed := s.handed ++ [⟨[], s.error⟩] }

def source : Source State := ⟨State.pending, handOut, handEnd⟩

def awaitResume (s : State) (w : Waiter) : State := source.awaitResume s w

/-- `std::exchange(_waiter, nullptr).resume()`, up to what the reader is handed. -/
def resume (s : State) : State :=
  match s.waiter with
  | some w => { s with waiter := none }.awaitResume w
  | none => s

/-- The loop of `on_ready`; `recv` answers `EAGAIN` once the results are used up. -/
def receive : List RecvResult → State → State
  | [], s => s
  | r :: results, s =>
    if s.error = none ∧ s.eof = false ∧ s.pending.length + s.checkedOutCount < s.entries then
      match r with
      | .data bytes => receive results (s.store bytes)
      | .again => s
      | .eof => { s with eof := true }
      | .failed err => { s with error := some err }
    else s

def onReady (s : State) (results : List RecvResult) : State :=
  let s := s.receive results
  if s.Readable then s.resume else s

def ecanceled : Errno := ⟨125, by decide, by decide⟩

def cancel (s : State) : State :=
  (if s.error = none ∧ s.eof = false then { s with error := some ecanceled } else s).resume

/-- `co_await` of either awaiter: `_ready`, and then `await_resume` or `_arm`. -/
def await (s : State) (w : Waiter) : State :=
  let s := s.returnCheckedOut
  if s.Readable then s.awaitResume w else { s with waiter := some w }

end State

inductive Event where
  | onReady (results : List RecvResult)
  | cancel
  | next
  | nextBatch (cap maxBytes : ℕ)

/-- `recv` returns at most `entry_size` bytes, and 0 only at the end of the stream. -/
def Fits (s : State) : RecvResult → Prop
  | .data bytes => bytes ≠ [] ∧ bytes.length ≤ s.entrySize
  | _ => True

instance (s : State) : (r : RecvResult) → Decidable (Fits s r)
  | .data bytes => inferInstanceAs (Decidable (bytes ≠ [] ∧ bytes.length ≤ s.entrySize))
  | .again | .eof | .failed _ => isTrue trivial

/-- A suspended reader makes no call. -/
def Enabled (s : State) : Event → Prop
  | .onReady results => ∀ r ∈ results, Fits s r
  | .cancel => True
  | .next | .nextBatch _ _ => s.waiter = none

instance (s : State) : (e : Event) → Decidable (Enabled s e)
  | .onReady results => inferInstanceAs (Decidable (∀ r ∈ results, Fits s r))
  | .cancel => isTrue trivial
  | .next | .nextBatch _ _ => inferInstanceAs (Decidable (s.waiter = none))

def next (s : State) : Event → State
  | .onReady results => s.onReady results
  | .cancel => s.cancel
  | .next => s.await .next
  | .nextBatch cap maxBytes => s.await (.nextBatch cap maxBytes)

def machine : System State Event := ⟨Enabled, next⟩

instance (s : State) (e : Event) : Decidable (machine.Enabled s e) :=
  inferInstanceAs (Decidable (Enabled s e))

/-- The end of the stream has been received, or it was canceled. -/
def State.Over (s : State) : Prop := s.eof = true ∨ s.error ≠ none

/-- Entries in use: lent to the reader, then received and not handed out. -/
def State.used (s : State) : List ℕ :=
  s.lent.map (fun l => l.span.idx) ++ s.pending.map Pending.idx

/-- The used entries are the cyclic window that ends just before `_write_idx`. -/
structure Windowed (s : State) : Prop where
  window : ∃ first, s.used = window s.entries first s.used.length ∧
    (first + s.used.length) % s.entries = s.writeIdx
  count : s.checkedOutCount = s.lent.length
  room : s.pending.length + s.checkedOutCount ≤ s.entries

/-- What is behind a span is what `recv` put there. -/
structure Intact (s : State) : Prop where
  lent : ∀ l ∈ s.lent, s.read l.span = l.bytes
  data : [] ∉ s.received

/-- What `_take` hands out at the end of the stream, which is final. -/
def State.Ended (s : State) (c : Chunk) : Prop := c = ⟨[], s.error⟩ ∧ s.Over ∧ s.pending = []

structure Exact (s : State) : Prop where
  windowed : Windowed s
  intact : Intact s
  order : ∃ delivered ends,
    InOrder s.handed s.received (s.pending.map s.read) s.lent s.Ended delivered ends

section Operations

variable {s : State}

theorem used_length (h : Windowed s) : s.used.length = s.checkedOutCount + s.pending.length := by
  simp [State.used, h.count]

theorem exact_initial (entrySize entries : ℕ) (buf : ℕ → List UInt8) :
    Exact (initial entrySize entries buf) where
  windowed := ⟨⟨0, rfl, Nat.zero_mod _⟩, rfl, Nat.zero_le _⟩
  intact := ⟨by rintro l ⟨⟩, by rintro ⟨⟩⟩
  order := ⟨[], [], .initial⟩

theorem writeIdx_notMem (h : Windowed s) (room : s.pending.length + s.checkedOutCount < s.entries) :
    s.writeIdx ∉ s.used := by
  obtain ⟨first, hused, hwrite⟩ := h.window
  rw [← hwrite, hused, window_length]
  apply next_notMem
  rw [used_length h]
  omega

theorem read_store {p : Pending} (hp : p.idx ≠ s.writeIdx) (bytes : List UInt8) :
    (s.store bytes).read p = s.read p := by
  simp only [State.read, State.store, Function.update_of_ne hp]

theorem read_stored (bytes : List UInt8) :
    (s.store bytes).read ⟨s.writeIdx, bytes.length⟩ = bytes := by
  simp [State.read, State.store]

theorem windowed_store (h : Windowed s) (room : s.pending.length + s.checkedOutCount < s.entries)
    (bytes : List UInt8) : Windowed (s.store bytes) := by
  obtain ⟨first, hused, hwrite⟩ := h.window
  have hstored : (s.store bytes).used = s.used ++ [s.writeIdx] := by
    simp [State.used, State.store]
  refine ⟨⟨first, ?_, ?_⟩, h.count, ?_⟩
  · rw [hstored, List.length_append, List.length_singleton, show (s.store bytes).entries = s.entries
      from rfl, window_succ, ← hused, hwrite]
  · rw [hstored, List.length_append, List.length_singleton, ← Nat.add_assoc, ← Nat.mod_add_mod]
    simp only [State.store, hwrite]
  · simp only [State.store, List.length_append, List.length_singleton]
    omega

theorem not_ended (open_ : ¬ s.Over) (c : Chunk) : ¬ s.Ended c := fun hc => open_ hc.2.1

theorem exact_store (h : Exact s) (room : s.pending.length + s.checkedOutCount < s.entries)
    (open_ : ¬ s.Over) {bytes : List UInt8} (hbytes : bytes ≠ []) : Exact (s.store bytes) := by
  have hfree := writeIdx_notMem h.windowed room
  have hkept {p : Pending} (hp : p.idx ∈ s.used) : (s.store bytes).read p = s.read p :=
    read_store (fun heq => hfree (heq ▸ hp)) bytes
  have hpending : (s.store bytes).pending.map (s.store bytes).read =
      s.pending.map s.read ++ [bytes] := by
    have hold : s.pending.map (s.store bytes).read = s.pending.map s.read :=
      List.map_congr_left fun p hp => hkept (List.mem_append_right _ (List.mem_map_of_mem hp))
    simp only [show (s.store bytes).pending = s.pending ++ [⟨s.writeIdx, bytes.length⟩] from rfl,
      List.map_append, List.map_cons, List.map_nil, hold, read_stored]
  obtain ⟨delivered, ends, horder⟩ := h.order
  refine ⟨windowed_store h.windowed room bytes, ⟨fun l hl => ?_, ?_⟩, delivered, ends, ?_⟩
  · rw [hkept (List.mem_append_left _ (List.mem_map_of_mem hl))]
    exact h.intact.lent l hl
  · intro hmem
    rcases List.mem_append.mp hmem with hold | hnew
    · exact h.intact.data hold
    · exact hbytes (List.mem_singleton.mp hnew).symm
  · rw [hpending]
    exact horder.receive (not_ended open_) bytes

theorem exact_returnCheckedOut (h : Exact s) : Exact s.returnCheckedOut := by
  obtain ⟨first, hused, hwrite⟩ := h.windowed.window
  obtain ⟨delivered, ends, horder⟩ := h.order
  have hreturned : s.returnCheckedOut.used = s.used.drop s.lent.length := by
    simp [State.used, State.returnCheckedOut]
  have hlen : s.lent.length + s.pending.length = s.used.length := by
    rw [used_length h.windowed, h.windowed.count]
  refine ⟨⟨⟨first + s.lent.length, ?_, ?_⟩, rfl, ?_⟩, ⟨by rintro l ⟨⟩, h.intact.data⟩,
    delivered, ends, horder.returned⟩
  · rw [hreturned, List.length_drop]
    conv_lhs => rw [hused]
    exact window_drop _
  · rw [hreturned, List.length_drop, show s.returnCheckedOut.writeIdx = s.writeIdx from rfl,
      ← hwrite]
    congr 1
    omega
  · have hroom := h.windowed.room
    simp only [State.returnCheckedOut]
    omega

theorem exact_handOut (h : Exact s) {p : Pending} {pending : List Pending}
    (top : s.pending = p :: pending) : Exact (s.handOut p pending) := by
  obtain ⟨delivered, ends, horder⟩ := h.order
  have hnone (c : Chunk) : ¬ s.Ended c := by
    rintro ⟨-, -, hempty⟩
    rw [top] at hempty
    cases hempty
  have hused : (s.handOut p pending).used = s.used := by
    simp [State.used, State.handOut, top]
  rw [top, List.map_cons] at horder
  refine ⟨⟨?_, ?_, ?_⟩, ⟨?_, h.intact.data⟩, delivered ++ [s.read p], [], horder.handOut hnone p⟩
  · rw [hused]
    exact h.windowed.window
  · simp [State.handOut, h.windowed.count]
  · have hroom := h.windowed.room
    simp only [State.handOut, top, List.length_cons] at hroom ⊢
    omega
  · intro l hl
    rcases List.mem_append.mp hl with hold | hnew
    · exact h.intact.lent l hold
    · rw [List.mem_singleton.mp hnew]
      rfl

theorem exact_handEnd (h : Exact s) (hover : s.Over) (hempty : s.pending = []) :
    Exact s.handEnd := by
  have hend : s.Ended ⟨[], s.error⟩ := ⟨rfl, hover, hempty⟩
  obtain ⟨delivered, ends, horder⟩ := h.order
  exact ⟨⟨h.windowed.window, h.windowed.count, h.windowed.room⟩,
    ⟨h.intact.lent, h.intact.data⟩, delivered, _, horder.handEnd hend⟩

/-- Nothing has been reported while the stream goes on, so the first end may be anything. -/
theorem exact_over (h : Exact s) (open_ : ¬ s.Over) (eof : Bool) (error : Option Errno) :
    Exact { s with eof, error } := by
  obtain ⟨delivered, ends, horder⟩ := h.order
  exact ⟨⟨h.windowed.window, h.windowed.count, h.windowed.room⟩,
    ⟨h.intact.lent, h.intact.data⟩, delivered, ends,
    horder.mono fun c hc => absurd hc (not_ended open_ c)⟩

theorem exact_waiter (h : Exact s) (waiter : Option Waiter) : Exact { s with waiter } := by
  obtain ⟨delivered, ends, horder⟩ := h.order
  exact ⟨⟨h.windowed.window, h.windowed.count, h.windowed.room⟩,
    ⟨h.intact.lent, h.intact.data⟩, delivered, ends, horder⟩

end Operations

section Calls

variable {s : State}

theorem not_over_of_not_readable (h : ¬ s.Readable) : ¬ s.Over := fun hover => h (Or.inr hover)

theorem exact_source : State.source.KeepsReader State.Over Exact State.waiter State.entries where
  handOut := fun _ _ _ h top => exact_handOut h top
  handEnd := fun _ h hover hempty => exact_handEnd h hover hempty
  out_frame := fun _ _ _ => ⟨rfl, rfl⟩
  end_frame := fun _ => ⟨rfl, rfl⟩

theorem awaitResume_hands (s : State) (w : Waiter) :
    s.handed.length < (s.awaitResume w).handed.length := by
  apply Source.awaitResume_hands fun u : State => u.handed.length
  · intro u p pending
    simp [State.source, State.handOut]
  · intro u
    simp [State.source, State.handEnd]

end Calls

section Receiving

variable {s : State}

theorem receive_frame (results : List RecvResult) (s : State) :
    (s.receive results).waiter = s.waiter ∧ (s.receive results).entries = s.entries ∧
      (s.receive results).checkedOutCount = s.checkedOutCount ∧
      (s.receive results).handed = s.handed ∧ (s.Readable → (s.receive results).Readable) := by
  induction results generalizing s with
  | nil => exact ⟨rfl, rfl, rfl, rfl, id⟩
  | cons r results ih =>
    unfold State.receive
    split
    · cases r with
      | data bytes =>
        obtain ⟨hwaiter, hentries, hcount, hhanded, hreadable⟩ := ih (s.store bytes)
        exact ⟨hwaiter, hentries, hcount, hhanded, fun _ =>
          hreadable (Or.inl (by simp [State.store]))⟩
      | again => exact ⟨rfl, rfl, rfl, rfl, id⟩
      | eof => exact ⟨rfl, rfl, rfl, rfl, fun _ => Or.inr (Or.inl rfl)⟩
      | failed err => exact ⟨rfl, rfl, rfl, rfl, fun _ => Or.inr (Or.inr (by simp))⟩
    · exact ⟨rfl, rfl, rfl, rfl, id⟩

/-- With a free entry, whatever `recv` returns but `EAGAIN` is something for the reader. -/
theorem receive_readable (open_ : ¬ s.Over)
    (room : s.pending.length + s.checkedOutCount < s.entries) {r : RecvResult} (hr : r ≠ .again)
    (results : List RecvResult) : (s.receive (r :: results)).Readable := by
  have hrunning : s.error = none ∧ s.eof = false ∧
      s.pending.length + s.checkedOutCount < s.entries := by
    simp only [State.Over, not_or, ne_eq, not_not, Bool.not_eq_true] at open_
    exact ⟨open_.2, open_.1, room⟩
  cases r with
  | data bytes =>
    rw [State.receive, if_pos hrunning]
    exact (receive_frame results (s.store bytes)).2.2.2.2 (Or.inl (by simp [State.store]))
  | again => exact absurd rfl hr
  | eof =>
    rw [State.receive, if_pos hrunning]
    exact Or.inr (Or.inl rfl)
  | failed err =>
    rw [State.receive, if_pos hrunning]
    exact Or.inr (Or.inr (by simp))

theorem exact_receive (h : Exact s) {results : List RecvResult}
    (hfits : ∀ bytes, .data bytes ∈ results → bytes ≠ []) : Exact (s.receive results) := by
  induction results generalizing s with
  | nil => exact h
  | cons r results ih =>
    unfold State.receive
    split
    · next hrunning =>
      have open_ : ¬ s.Over := by
        simp [State.Over, hrunning.1, hrunning.2.1]
      cases r with
      | data bytes =>
        apply ih (exact_store h hrunning.2.2 open_ (hfits bytes List.mem_cons_self))
        exact fun bytes' hmem => hfits bytes' (List.mem_cons_of_mem _ hmem)
      | again => exact h
      | eof => exact exact_over h open_ true s.error
      | failed err => exact exact_over h open_ s.eof (some err)
    · exact h

end Receiving

def Suspended (s : State) : Prop :=
  ∀ w, s.waiter = some w → w.Asks ∧ ¬ s.Readable ∧ s.checkedOutCount = 0

/-- Every call leaves room for a chunk. -/
def AsksForData (_ : State) : Event → Prop
  | .nextBatch cap maxBytes => (Waiter.nextBatch cap maxBytes).Asks
  | _ => True

instance (s : State) : (e : Event) → Decidable (AsksForData s e)
  | .nextBatch cap maxBytes => inferInstanceAs (Decidable (Waiter.nextBatch cap maxBytes).Asks)
  | .onReady _ | .cancel | .next => isTrue trivial

section Steps

variable {s : State}

theorem resume_spec (h : Exact s) (hr : s.Readable) (hasks : ∀ w, s.waiter = some w → w.Asks) :
    Exact s.resume ∧ s.resume.waiter = none ∧ s.resume.entries = s.entries ∧
      (s.waiter ≠ none → s.handed.length < s.resume.handed.length) := by
  unfold State.resume
  split
  · next w hw =>
    have hready : ({ s with waiter := none } : State).Readable := hr
    obtain ⟨hexact, hwaiter, hentries⟩ :=
      exact_source.awaitResume (exact_waiter h none) hready (hasks w hw)
    exact ⟨hexact, hwaiter, hentries, fun _ => awaitResume_hands { s with waiter := none } w⟩
  · next hw => exact ⟨h, hw, rfl, fun hne => absurd hw hne⟩

theorem onReady_spec (h : Exact s) (hs : Suspended s) {results : List RecvResult}
    (hfits : ∀ bytes, .data bytes ∈ results → bytes ≠ []) :
    Exact (s.onReady results) ∧ Suspended (s.onReady results) ∧
      (s.onReady results).entries = s.entries ∧
      ((s.receive results).Readable → (s.onReady results).waiter = none ∧
        (s.waiter ≠ none → s.handed.length < (s.onReady results).handed.length)) := by
  obtain ⟨hwaiter, hentries, hcount, hhanded, -⟩ := receive_frame results s
  have hexact := exact_receive h hfits
  by_cases hr : (s.receive results).Readable
  · obtain ⟨hexact', hnone, hentries', hmore⟩ :=
      resume_spec hexact hr fun w hw => (hs w (hwaiter ▸ hw)).1
    simp only [State.onReady, if_pos hr]
    rw [hwaiter, hhanded] at hmore
    refine ⟨hexact', fun w hw => ?_, hentries'.trans hentries, fun _ => ⟨hnone, hmore⟩⟩
    rw [hnone] at hw
    cases hw
  · simp only [State.onReady, if_neg hr]
    refine ⟨hexact, fun w hw => ?_, hentries, fun hreadable => absurd hreadable hr⟩
    obtain ⟨hasks, -, hzero⟩ := hs w (hwaiter ▸ hw)
    exact ⟨hasks, hr, hcount.trans hzero⟩

theorem cancel_spec (h : Exact s) (hs : Suspended s) :
    Exact s.cancel ∧ Suspended s.cancel ∧ s.cancel.entries = s.entries := by
  have hcanceled : ∃ u : State, s.cancel = u.resume ∧ Exact u ∧ u.Readable ∧ u.waiter = s.waiter ∧
      u.entries = s.entries := by
    unfold State.cancel
    split
    · next hrunning =>
      have open_ : ¬ s.Over := by simp [State.Over, hrunning.1, hrunning.2]
      exact ⟨_, rfl, exact_over h open_ s.eof (some State.ecanceled), Or.inr (Or.inr (by simp)),
        rfl, rfl⟩
    · next hover =>
      refine ⟨s, rfl, h, Or.inr ?_, rfl, rfl⟩
      cases heof : s.eof with
      | true => exact Or.inl rfl
      | false => exact Or.inr fun herror => hover ⟨herror, heof⟩
  obtain ⟨u, hu, hexact, hr, hwaiter, hentries⟩ := hcanceled
  obtain ⟨hexact', hnone, hentries', -⟩ :=
    resume_spec hexact hr fun w hw => (hs w (hwaiter ▸ hw)).1
  rw [hu]
  refine ⟨hexact', fun w hw => ?_, hentries'.trans hentries⟩
  rw [hnone] at hw
  cases hw

theorem await_spec (h : Exact s) (hfree : s.waiter = none) {w : Waiter} (hw : w.Asks) :
    Exact (s.await w) ∧ Suspended (s.await w) ∧ (s.await w).entries = s.entries := by
  have hexact := exact_returnCheckedOut h
  by_cases hr : s.returnCheckedOut.Readable
  · obtain ⟨hexact', hwaiter, hentries⟩ := exact_source.awaitResume hexact hr hw
    simp only [State.await, if_pos hr]
    refine ⟨hexact', fun w' hw' => ?_, hentries⟩
    have hnone : (s.returnCheckedOut.awaitResume w).waiter = none := hwaiter.trans hfree
    rw [hnone] at hw'
    cases hw'
  · simp only [State.await, if_neg hr]
    refine ⟨exact_waiter hexact (some w), ?_, rfl⟩
    rintro _ ⟨⟩
    exact ⟨hw, hr, rfl⟩

theorem exact_step {e : Event} (h : Exact s) (hs : Suspended s) (he : Enabled s e)
    (g : AsksForData s e) :
    Exact (next s e) ∧ Suspended (next s e) ∧ (next s e).entries = s.entries := by
  cases e with
  | onReady results =>
    have hfits (bytes : List UInt8) (hmem : .data bytes ∈ results) : bytes ≠ [] := by
      have hdata : Fits s (.data bytes) := he _ hmem
      exact hdata.1
    obtain ⟨hexact, hsuspended, hentries, -⟩ := onReady_spec h hs hfits
    exact ⟨hexact, hsuspended, hentries⟩
  | cancel => exact cancel_spec h hs
  | next => exact await_spec h he trivial
  | nextBatch cap maxBytes => exact await_spec h he g

end Steps

/-- The stream is delivered exactly: no entry in use is the one `recv` writes next, no span
changes while the reader may use it, the chunks are the received ones and then the end, and a
suspended reader is resumed by the next `recv` that returns anything. -/
structure DeliversExactly (s : State) : Prop where
  window : ∃ first, s.used = window s.entries first (s.pending.length + s.checkedOutCount) ∧
    (first + (s.pending.length + s.checkedOutCount)) % s.entries = s.writeIdx
  distinct : s.used.Nodup
  room : s.pending.length + s.checkedOutCount ≤ s.entries
  intact : ∀ l ∈ s.lent, s.read l.span = l.bytes
  order : ∃ delivered ends, InOrder s.handed s.received (s.pending.map s.read) s.lent s.Ended
    delivered ends ∧ [] ∉ delivered
  wakes : s.waiter ≠ none → s.pending.length + s.checkedOutCount < s.entries ∧
    ∀ r results, (∀ r' ∈ r :: results, Fits s r') → r ≠ .again →
      (s.onReady (r :: results)).waiter = none ∧
        s.handed.length < (s.onReady (r :: results)).handed.length

theorem libc_stream_delivers_exactly {entrySize entries : ℕ} (hentries : 1 ≤ entries)
    {buf : ℕ → List UInt8} {s : State}
    (h : Run machine AsksForData (initial entrySize entries buf) s) : DeliversExactly s := by
  have hinv : Exact s ∧ Suspended s ∧ s.entries = entries := by
    refine h.invariant (I := fun s => Exact s ∧ Suspended s ∧ s.entries = entries)
      ⟨exact_initial _ _ _, by rintro w ⟨⟩, rfl⟩ ?_
    rintro u e ⟨hexact, hsuspended, hsame⟩ he hg
    obtain ⟨hexact', hsuspended', hsame'⟩ := exact_step hexact hsuspended he hg
    exact ⟨hexact', hsuspended', hsame'.trans hsame⟩
  obtain ⟨hexact, hsuspended, rfl⟩ := hinv
  have hlen := used_length hexact.windowed
  rw [Nat.add_comm] at hlen
  obtain ⟨first, hused, hwrite⟩ := hexact.windowed.window
  rw [hlen] at hused hwrite
  obtain ⟨delivered, ends, horder⟩ := hexact.order
  refine ⟨⟨first, hused, hwrite⟩, ?_, hexact.windowed.room, hexact.intact.lent,
    ⟨delivered, ends, horder, fun hmem => ?_⟩, fun hwaits => ?_⟩
  · rw [hused]
    exact window_nodup hexact.windowed.room
  · apply hexact.intact.data
    rw [← horder.received]
    exact List.mem_append_left _ hmem
  · obtain ⟨w, hw⟩ := Option.ne_none_iff_exists'.mp hwaits
    obtain ⟨-, hidle, hzero⟩ := hsuspended w hw
    have hempty : s.pending = [] := by
      by_contra hne
      exact hidle (Or.inl hne)
    have hroom : s.pending.length + s.checkedOutCount < s.entries := by
      rw [hempty, hzero]
      exact hentries
    refine ⟨hroom, fun r results hfits hr => ?_⟩
    have hdata (bytes : List UInt8) (hmem : .data bytes ∈ r :: results) : bytes ≠ [] := by
      have hdata : Fits s (.data bytes) := hfits _ hmem
      exact hdata.1
    obtain ⟨-, -, -, hresumes⟩ := onReady_spec hexact hsuspended hdata
    have hreadable := receive_readable (not_over_of_not_readable hidle) hroom hr results
    exact ⟨(hresumes hreadable).1, (hresumes hreadable).2 hwaits⟩

section Traces

def oneEntry : List Event :=
  [.onReady [.again], .next, .onReady [.data [7]], .nextBatch 4 64, .onReady [.data [8], .eof]]

theorem libc_stream_delivers_exactly_of_one_entry :
    DeliversExactly (runTrace machine (initial 1 1 fun _ => []) oneEntry) :=
  libc_stream_delivers_exactly (Nat.le_refl 1)
    (run_of_trace oneEntry (by decide +kernel) (by decide +kernel))

def limitOfZero : List Event := [.onReady [.data [7]], .nextBatch 1 0]

/-- The reader is told that the stream is over, and the chunk is still there. -/
theorem libc_limit_of_zero_reads_as_eof :
    let s := runTrace machine (initial 1 1 fun _ => []) limitOfZero
    Reachable machine (initial 1 1 fun _ => []) s ∧ s.handed = [⟨[], none⟩] ∧
      s.pending = [⟨0, 1⟩] ∧ ¬ DeliversExactly s := by
  intro s
  have hhanded : s.handed = [⟨[], none⟩] := by decide +kernel
  have hpending : s.pending = [⟨0, 1⟩] := by decide +kernel
  refine ⟨reachable_of_trace limitOfZero (by decide +kernel), hhanded, hpending, fun h => ?_⟩
  obtain ⟨delivered, ends, horder, hdata⟩ := h.order
  rcases horder.mem_handed (hhanded ▸ List.mem_singleton_self _) with hend | hnil
  · have hempty := (horder.ends _ hend).2.2
    rw [hpending] at hempty
    cases hempty
  · exact hdata hnil

end Traces

end EasyioLibcRecvStream
