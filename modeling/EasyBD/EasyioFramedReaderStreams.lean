import EasyBD.TransitionRuns
import EasyBD.EasyioFramedReaderCalls
import EasyBD.EasyioRecvStream

/-! `FramedReader` on the streams of the backends. The chunks of a batch point into the stream's
own buffers, and the kernel goes on filling those while the reader copies, so each chunk is copied
in a step of its own. -/
namespace EasyioFramedReaderStreams

open TransitionRuns EasyioQueue EasyioRecvStream EasyioFramedReader EasyioFramedReaderCalls

/-- A stream as its reader sees it; `Reads` are the reader's own calls, `pending` what the stream
could hand out, and `waiting` all that has been received and not handed out. -/
structure Receiver (σ ε : Type*) where
  machine : System σ ε
  nextBatch : ℕ → ℕ → ε
  Reads : ε → Prop
  waiter : σ → Option Waiter
  read : σ → Pending → List UInt8
  lent : σ → List Lent
  pending : σ → List Pending
  handed : σ → List Chunk
  received : σ → List (List UInt8)
  waiting : σ → List (List UInt8)
  Over : σ → Prop

/-- A chunk as the reader gets it: where its data is, and its error. -/
structure Item where
  data : Pending
  error : Option Errno

/-- The frame of a suspended or running `read_exact` or `read_exact_into`; `got` is what `dest`
holds so far. -/
inductive Frame where
  | readExact (n : ℕ)
  | readExactInto (n : ℕ) (got : List UInt8)

namespace Frame

def call : Frame → Call
  | readExact n => .readExact n
  | readExactInto n _ => .readExactInto n

def stored : Frame → List UInt8
  | readExact _ => []
  | readExactInto _ got => got

/-- How many bytes the loop's test counts. -/
def count (f : Frame) (r : FramedReader) : ℕ :=
  match f with
  | readExact _ => r.buf.length
  | readExactInto _ got => got.length

def copy (f : Frame) (r : FramedReader) (chunk : List UInt8) : Frame × FramedReader :=
  match f with
  | readExact n => (readExact n, r.insertBatch [chunk])
  | readExactInto n got =>
    (readExactInto n (r.copyChunk n got chunk).1, (r.copyChunk n got chunk).2)

def finish (f : Frame) (r : FramedReader) : List UInt8 × FramedReader :=
  match f with
  | readExact n => r.returnExact n
  | readExactInto _ got => (got, r)

def enter (c : Call) (r : FramedReader) : Frame × FramedReader :=
  match c with
  | .readExact n => (readExact n, r.eraseConsumed)
  | .readExactInto n =>
    (readExactInto n (r.eraseConsumed.takeLeftover n).1, (r.eraseConsumed.takeLeftover n).2)

end Frame

/-- The call that threw, what it had stored in `dest`, and the chunk's error. -/
structure Failure where
  call : Call
  stored : List UInt8
  error : Option Errno

structure State (σ : Type*) where
  stream : σ
  reader : FramedReader
  frame : Option Frame
  batch : List Item
  calls : List Call
  results : List (List UInt8)
  failed : Option Failure

def State.initial {σ : Type*} (s : σ) : State σ := ⟨s, .initial, none, [], [], [], none⟩

/-- The kernel and the queue go on, somebody calls the reader, or the reader runs. -/
inductive Event (ε : Type*) where
  | stream (e : ε)
  | call (c : Call)
  | run

namespace Receiver

variable {σ ε : Type*} (R : Receiver σ ε)

def items (s : σ) : List Item :=
  match R.lent s with
  | [] => [⟨⟨0, 0⟩, (R.handed s).getLast?.bind Chunk.error⟩]
  | lent => lent.map fun l => ⟨l.span, none⟩

/-- The stream has gone on, and may have resumed the reader with a batch. -/
def observe (s : State σ) (stream : σ) : State σ :=
  if R.handed stream = R.handed s.stream then { s with stream }
  else { s with stream, batch := R.items stream }

def step (s : State σ) (f : Frame) : State σ :=
  match s.batch with
  | chunk :: batch =>
    if chunk.error ≠ none ∨ chunk.data.len = 0 then
      { s with batch := [], frame := none, failed := some ⟨f.call, f.stored, chunk.error⟩ }
    else
      { s with
        batch
        frame := some (f.copy s.reader (R.read s.stream chunk.data)).1
        reader := (f.copy s.reader (R.read s.stream chunk.data)).2 }
  | [] =>
    if f.count s.reader < f.call.size then
      R.observe s (R.machine.next s.stream
        (R.nextBatch kBatchCapacity (f.call.size - f.count s.reader)))
    else
      { s with
        frame := none
        reader := (f.finish s.reader).2
        calls := s.calls ++ [f.call]
        results := s.results ++ [(f.finish s.reader).1] }

def Enabled (s : State σ) : Event ε → Prop
  | .stream e => ¬ R.Reads e ∧ R.machine.Enabled s.stream e
  | .call _ => s.frame = none ∧ s.failed = none
  | .run => s.frame ≠ none ∧ R.waiter s.stream = none

def next (s : State σ) : Event ε → State σ
  | .stream e => R.observe s (R.machine.next s.stream e)
  | .call c =>
    { s with frame := some (Frame.enter c s.reader).1, reader := (Frame.enter c s.reader).2 }
  | .run =>
    match s.frame with
    | some f => R.step s f
    | none => s

def reading : System (State σ) (Event ε) := ⟨R.Enabled, R.next⟩

instance [∀ e, Decidable (R.Reads e)] [∀ s e, Decidable (R.machine.Enabled s e)]
    (s : State σ) : ∀ e, Decidable (R.reading.Enabled s e)
  | .stream e => inferInstanceAs (Decidable (¬ R.Reads e ∧ R.machine.Enabled s.stream e))
  | .call _ => inferInstanceAs (Decidable (s.frame = none ∧ s.failed = none))
  | .run => inferInstanceAs (Decidable (s.frame ≠ none ∧ R.waiter s.stream = none))

end Receiver

section Laws

variable {σ ε : Type*} (R : Receiver σ ε)

/-- What a step without a word to the reader leaves alone. -/
structure Same (s t : σ) : Prop where
  handed : R.handed t = R.handed s
  lent : R.lent t = R.lent s
  waiter : R.waiter t = R.waiter s

/-- Nothing more will come. -/
def Finished (s : σ) : Prop := R.Over s ∧ R.waiting s = []

/-- The reader is handed a batch of data, of which only the last chunk may reach the limit, or the
end of the stream. -/
inductive Hands (maxBytes : ℕ) (s t : σ) : Prop where
  | data : R.waiter t = none → R.lent t ≠ [] →
      R.handed t = R.handed s ++ (R.lent t).map (fun l => ⟨l.bytes, none⟩) →
      (∀ l ∈ R.lent t, l.bytes ≠ []) →
      ((R.lent t).dropLast.flatMap Lent.bytes).length < maxBytes → Hands maxBytes s t
  | ended (error : Option Errno) : R.waiter t = none → R.lent t = [] →
      R.handed t = R.handed s ++ [⟨[], error⟩] → Finished R t → Hands maxBytes s t

structure Suspends (cap maxBytes : ℕ) (s t : σ) : Prop where
  handed : R.handed t = R.handed s
  lent : R.lent t = []
  waiter : R.waiter t = some (.nextBatch cap maxBytes)

/-- What the reader relies on, where the stream keeps `I`. -/
structure Lawful (start : σ) (I : σ → Prop) : Prop where
  start : I start ∧ R.waiter start = none ∧ R.lent start = [] ∧ R.handed start = []
  keeps : ∀ s e, I s → R.machine.Enabled s e → ¬ R.Reads e → I (R.machine.next s e)
  flow : ∀ s, I s → (R.handed s).flatMap Chunk.data ++ (R.waiting s).flatten =
    (R.received s).flatten
  intact : ∀ s, I s → ∀ l ∈ R.lent s, R.read s l.span = l.bytes
  empty : ∀ s p, p.len = 0 → R.read s p = []
  starved : ∀ s, I s → R.waiter s ≠ none → R.pending s = []
  finished : ∀ s e, I s → R.machine.Enabled s e → ¬ R.Reads e → Finished R s →
    Finished R (R.machine.next s e)
  idle : ∀ s e, I s → R.machine.Enabled s e → ¬ R.Reads e → R.waiter s = none →
    Same R s (R.machine.next s e)
  wakes : ∀ s e cap maxBytes, I s → R.machine.Enabled s e → ¬ R.Reads e → R.lent s = [] →
    R.waiter s = some (.nextBatch cap maxBytes) → 0 < cap → 0 < maxBytes →
    Same R s (R.machine.next s e) ∨ Hands R maxBytes s (R.machine.next s e)
  call : ∀ s cap maxBytes, I s → R.waiter s = none → 0 < cap → 0 < maxBytes →
    R.machine.Enabled s (R.nextBatch cap maxBytes) ∧
      I (R.machine.next s (R.nextBatch cap maxBytes)) ∧
      (Suspends R cap maxBytes s (R.machine.next s (R.nextBatch cap maxBytes)) ∨
        Hands R maxBytes s (R.machine.next s (R.nextBatch cap maxBytes)))

end Laws

namespace Frame

/-- What the loop of either function keeps about `_buf`: `read_exact` has erased what was consumed,
and `read_exact_into` uses up the leftover first. -/
def Loops (f : Frame) (r : FramedReader) : Prop :=
  match f with
  | readExact _ => r.consumed = 0
  | readExactInto n got => Copying n got r

def held (f : Frame) (r : FramedReader) : List UInt8 := f.stored ++ r.unread

@[simp] theorem call_copy (f : Frame) (r : FramedReader) (chunk : List UInt8) :
    (f.copy r chunk).1.call = f.call := by
  cases f <;> rfl

theorem enter_spec (c : Call) (r : FramedReader) :
    (enter c r).1.call = c ∧ (enter c r).1.Loops (enter c r).2 ∧
      (enter c r).1.held (enter c r).2 = r.unread := by
  cases c with
  | readExact n => exact ⟨rfl, rfl, rfl⟩
  | readExactInto n =>
    exact ⟨rfl, copying_takeLeftover _ n, unread_takeLeftover r.eraseConsumed n⟩

/-- While bytes are missing they are counted exactly. -/
theorem count_eq {f : Frame} {r : FramedReader} (h : f.Loops r) (hlt : f.count r < f.call.size) :
    f.count r = (f.held r).length := by
  cases f with
  | readExact n =>
    have hconsumed : r.consumed = 0 := h
    simp [count, held, stored, FramedReader.unread, hconsumed]
  | readExactInto n got => simp [count, held, stored, Copying.drained h hlt]

theorem copy_spec {f : Frame} {r : FramedReader} (h : f.Loops r)
    (hlt : f.count r < f.call.size) (chunk : List UInt8) :
    (f.copy r chunk).1.Loops (f.copy r chunk).2 ∧
      (f.copy r chunk).1.held (f.copy r chunk).2 = f.held r ++ chunk ∧
      (f.count r + chunk.length < f.call.size →
        (f.copy r chunk).1.count (f.copy r chunk).2 = f.count r + chunk.length) := by
  cases f with
  | readExact n =>
    have hconsumed : r.consumed = 0 := h
    refine ⟨hconsumed, ?_, fun _ => ?_⟩
    · simp [copy, held, stored, FramedReader.unread, FramedReader.insertBatch, hconsumed]
    · simp [copy, count, FramedReader.insertBatch]
  | readExactInto n got =>
    obtain ⟨hcopying, hbytes, hlen⟩ := copyChunk_spec h hlt chunk
    refine ⟨hcopying, ?_, fun hfits => ?_⟩
    · simp only [copy, held, stored, Copying.drained h hlt, List.append_nil]
      exact hbytes
    · have hfits' : got.length + chunk.length < n := hfits
      simp only [copy, count, hlen]
      omega

theorem finish_spec {f : Frame} {r : FramedReader} (h : f.Loops r)
    (hge : f.call.size ≤ f.count r) :
    (f.finish r).1.length = f.call.size ∧ (f.finish r).1 ++ (f.finish r).2.unread = f.held r := by
  cases f with
  | readExact n =>
    have hconsumed : r.consumed = 0 := h
    have hle : n ≤ r.buf.length := hge
    refine ⟨?_, ?_⟩
    · simp [finish, FramedReader.returnExact, call, Call.size, hle]
    · rw [finish, unread_returnExact]
      simp [held, stored, FramedReader.unread, hconsumed]
  | readExactInto n got =>
    exact ⟨Nat.le_antisymm h.within hge, rfl⟩

end Frame

def State.held {σ : Type*} (s : State σ) : List UInt8 :=
  match s.frame, s.failed with
  | some f, _ => f.held s.reader
  | none, some x => x.stored ++ s.reader.unread
  | none, none => s.reader.unread

section Reading

variable {σ ε : Type*} {R : Receiver σ ε}

inductive Todo (R : Receiver σ ε) (s : State σ) : List Lent → Prop
  | data (todo : List Lent) : todo <:+ R.lent s.stream →
      s.batch = todo.map (fun l => ⟨l.span, none⟩) → (∀ l ∈ todo, l.bytes ≠ []) →
      (todo ≠ [] → ∃ f, s.frame = some f ∧
        f.count s.reader + (todo.dropLast.flatMap Lent.bytes).length < f.call.size) → Todo R s todo
  | ended (error : Option Errno) (f : Frame) : s.batch = [⟨⟨0, 0⟩, error⟩] →
      Finished R s.stream → s.frame = some f → f.count s.reader < f.call.size → Todo R s []

/-- Every byte handed out is in a result, with the reader, or still to be copied, in this order. -/
structure Sound (R : Receiver σ ε) (I : σ → Prop) (s : State σ) : Prop where
  stream : I s.stream
  loops : ∀ f, s.frame = some f → f.Loops s.reader
  waits : R.waiter s.stream ≠ none → s.batch = [] ∧ R.lent s.stream = [] ∧
    ∃ f, s.frame = some f ∧ f.count s.reader < f.call.size ∧
      R.waiter s.stream = some (.nextBatch kBatchCapacity (f.call.size - f.count s.reader))
  sizes : s.results.map List.length = s.calls.map Call.size
  failed : ∀ x, s.failed = some x → s.frame = none ∧ Finished R s.stream ∧
    (x.stored ++ s.reader.unread).length < x.call.size
  bytes : ∃ todo, Todo R s todo ∧ s.results.flatten ++ s.held ++ todo.flatMap Lent.bytes =
    (R.handed s.stream).flatMap Chunk.data

variable {I : σ → Prop} {start : σ} {s : State σ} {t : σ}

theorem Todo.of_empty {todo : List Lent} (h : Todo R s todo) (hempty : s.batch = []) :
    todo = [] := by
  cases h with
  | data todo _ hbatch => exact List.map_eq_nil_iff.mp (hbatch.symm.trans hempty)
  | ended => rfl

theorem observe_same (h : Same R s.stream t) : R.observe s t = { s with stream := t } := by
  simp only [Receiver.observe, h.handed, if_true]

theorem observe_hands {maxBytes : ℕ} (h : Hands R maxBytes s.stream t) :
    R.observe s t = { s with stream := t, batch := R.items t } := by
  have hmore : R.handed t ≠ R.handed s.stream := by
    cases h with
    | data _ hlent hhanded => simpa [hhanded] using hlent
    | ended error _ _ hhanded => simp [hhanded]
  simp only [Receiver.observe, if_neg hmore]

theorem sound_same (h : Sound R I s) (ht : I t) (hsame : Same R s.stream t)
    (hfinished : Finished R s.stream → Finished R t) :
    Sound R I { s with stream := t } := by
  obtain ⟨todo, htodo, hbytes⟩ := h.bytes
  refine ⟨ht, h.loops, ?_, h.sizes, fun x hx => ?_, todo, ?_, ?_⟩
  · show R.waiter t ≠ none → _ ∧ R.lent t = [] ∧ _
    rw [hsame.waiter, hsame.lent]
    exact h.waits
  · obtain ⟨hframe, hfin, hshort⟩ := h.failed x hx
    exact ⟨hframe, hfinished hfin, hshort⟩
  · cases htodo with
    | data todo hsuffix hbatch hdata hlimit =>
      exact .data todo (hsame.lent.symm ▸ hsuffix) hbatch hdata hlimit
    | ended error f hbatch hfin hframe hlt =>
      exact .ended error f hbatch (hfinished hfin) hframe hlt
  · exact hbytes.trans (congrArg _ hsame.handed.symm)

theorem sound_hands (h : Sound R I s) {f : Frame} (hframe : s.frame = some f)
    (hlt : f.count s.reader < f.call.size) (hempty : s.batch = []) (ht : I t)
    (hhands : Hands R (f.call.size - f.count s.reader) s.stream t) :
    Sound R I { s with stream := t, batch := R.items t } := by
  obtain ⟨todo, htodo, hbytes⟩ := h.bytes
  rw [htodo.of_empty hempty, List.flatMap_nil, List.append_nil] at hbytes
  have hfailed : s.failed = none := by
    by_contra hne
    obtain ⟨x, hx⟩ := Option.ne_none_iff_exists'.mp hne
    rw [(h.failed x hx).1] at hframe
    cases hframe
  have hnot : ∀ x, s.failed = some x → ∀ p : Prop, p := fun x hx => by simp [hfailed] at hx
  cases hhands with
  | data hwaiter hlent hhanded hdata hlimit =>
    have hitems : R.items t = (R.lent t).map fun l => ⟨l.span, none⟩ := by
      obtain ⟨l, rest, hcons⟩ := List.exists_cons_of_ne_nil hlent
      simp only [Receiver.items, hcons]
    refine ⟨ht, h.loops, fun hne => absurd hwaiter hne, h.sizes, fun x hx => hnot x hx _,
      R.lent t, .data _ List.suffix_rfl hitems hdata fun _ => ⟨f, hframe, ?_⟩, ?_⟩
    · show f.count s.reader + _ < f.call.size
      omega
    · show s.results.flatten ++ s.held ++ _ = (R.handed t).flatMap Chunk.data
      rw [hbytes, hhanded, List.flatMap_append, List.flatMap_map]
  | ended error hwaiter hlent hhanded hfin =>
    have hitems : R.items t = [⟨⟨0, 0⟩, error⟩] := by
      simp only [Receiver.items, hlent, hhanded, List.getLast?_concat, Option.bind_some]
    refine ⟨ht, h.loops, fun hne => absurd hwaiter hne, h.sizes, fun x hx => hnot x hx _,
      [], .ended error f hitems hfin hframe hlt, ?_⟩
    show s.results.flatten ++ s.held ++ [] = (R.handed t).flatMap Chunk.data
    rw [List.append_nil, hbytes, hhanded]
    simp

theorem sound_stream (L : Lawful R start I) (h : Sound R I s) {e : ε}
    (he : R.Enabled s (.stream e)) : Sound R I (R.next s (.stream e)) := by
  obtain ⟨hreads, he⟩ := he
  have ht := L.keeps _ e h.stream he hreads
  have hfinished := L.finished _ e h.stream he hreads
  show Sound R I (R.observe s (R.machine.next s.stream e))
  cases hw : R.waiter s.stream with
  | none =>
    have hsame := L.idle _ e h.stream he hreads hw
    rw [observe_same hsame]
    exact sound_same h ht hsame hfinished
  | some w =>
    obtain ⟨hempty, hlent, f, hframe, hlt, hcall⟩ := h.waits (by simp [hw])
    rcases L.wakes _ e _ _ h.stream he hreads hlent hcall (by decide) (by omega) with
      hsame | hhands
    · rw [observe_same hsame]
      exact sound_same h ht hsame hfinished
    · rw [observe_hands hhands]
      exact sound_hands h hframe hlt hempty ht hhands

theorem sound_call (h : Sound R I s) {c : Call} (he : R.Enabled s (.call c : Event ε)) :
    Sound R I (R.next s (.call c)) := by
  obtain ⟨hframe, hfailed⟩ := he
  obtain ⟨hcall, hloops, hheld⟩ := Frame.enter_spec c s.reader
  obtain ⟨todo, htodo, hbytes⟩ := h.bytes
  have hnone : todo = [] := by
    cases htodo with
    | data todo _ _ _ hlimit =>
      by_contra hne
      obtain ⟨f, hf, -⟩ := hlimit hne
      rw [hframe] at hf
      cases hf
    | ended => rfl
  have hempty : s.batch = [] := by
    cases htodo with
    | data todo _ hbatch => rw [hbatch, hnone, List.map_nil]
    | ended error f _ _ hf =>
      rw [hframe] at hf
      cases hf
  have hidle : s.held = s.reader.unread := by simp only [State.held, hframe, hfailed]
  refine ⟨h.stream, ?_, fun hne => ?_, h.sizes, fun x hx => ?_, [],
    .data [] List.nil_suffix hempty (by simp) (by simp), ?_⟩
  · rintro f ⟨⟩
    exact hloops
  · obtain ⟨-, -, f, hf, -⟩ := h.waits hne
    rw [hframe] at hf
    cases hf
  · have hx' : s.failed = some x := hx
    rw [hfailed] at hx'
    cases hx'
  · show s.results.flatten ++ (Frame.enter c s.reader).1.held (Frame.enter c s.reader).2 ++
      [] = (R.handed s.stream).flatMap Chunk.data
    rw [hheld, ← hidle, ← hbytes, hnone, List.flatMap_nil]

theorem sound_copy (L : Lawful R start I) (h : Sound R I s) {f : Frame}
    (hframe : s.frame = some f) (hfree : R.waiter s.stream = none) {l : Lent} {todo : List Lent}
    (hsuffix : l :: todo <:+ R.lent s.stream)
    (hbatch : s.batch = (l :: todo).map fun l => ⟨l.span, none⟩)
    (hdata : ∀ l' ∈ l :: todo, l'.bytes ≠ [])
    (hlimit : f.count s.reader + ((l :: todo).dropLast.flatMap Lent.bytes).length < f.call.size)
    (hbytes : s.results.flatten ++ s.held ++ (l :: todo).flatMap Lent.bytes =
      (R.handed s.stream).flatMap Chunk.data) : Sound R I (R.step s f) := by
  have hread : R.read s.stream l.span = l.bytes :=
    L.intact _ h.stream l (hsuffix.subset List.mem_cons_self)
  have hlen : l.span.len ≠ 0 := fun hzero =>
    hdata l List.mem_cons_self (hread.symm.trans (L.empty _ _ hzero))
  have hlt : f.count s.reader < f.call.size := by omega
  obtain ⟨hloops, hheld, hcount⟩ := Frame.copy_spec (h.loops f hframe) hlt l.bytes
  have hstep : R.step s f = { s with
      batch := todo.map fun l => ⟨l.span, none⟩
      frame := some (f.copy s.reader l.bytes).1
      reader := (f.copy s.reader l.bytes).2 } := by
    simp only [Receiver.step, hbatch, List.map_cons, hread]
    rw [if_neg (by simpa using hlen)]
  have hold : s.held = f.held s.reader := by simp only [State.held, hframe]
  rw [hstep]
  refine ⟨h.stream, ?_, fun hne => absurd hfree hne, h.sizes, fun x hx => ?_, todo,
    .data todo ((List.suffix_cons l todo).trans hsuffix) rfl
      (fun l' hl' => hdata l' (List.mem_cons_of_mem l hl')) fun hne => ?_, ?_⟩
  · rintro f' ⟨⟩
    exact hloops
  · have hnone := (h.failed x hx).1
    rw [hframe] at hnone
    cases hnone
  · -- Another chunk of the batch stands after this one, so the limit is not reached here.
    obtain ⟨l', todo', rfl⟩ := List.exists_cons_of_ne_nil hne
    rw [List.dropLast_cons_cons, List.flatMap_cons, List.length_append] at hlimit
    refine ⟨_, rfl, ?_⟩
    rw [Frame.call_copy, hcount (by omega)]
    omega
  · show s.results.flatten ++ (f.copy s.reader l.bytes).1.held (f.copy s.reader l.bytes).2 ++
      todo.flatMap Lent.bytes = (R.handed s.stream).flatMap Chunk.data
    rw [hheld, ← hbytes, hold]
    simp

theorem sound_throw (h : Sound R I s) {f : Frame} (hframe : s.frame = some f)
    (hfree : R.waiter s.stream = none) {error : Option Errno} (hbatch : s.batch = [⟨⟨0, 0⟩, error⟩])
    (hfin : Finished R s.stream) (hlt : f.count s.reader < f.call.size)
    (hbytes : s.results.flatten ++ s.held = (R.handed s.stream).flatMap Chunk.data) :
    Sound R I (R.step s f) := by
  have hstep : R.step s f =
      { s with batch := [], frame := none, failed := some ⟨f.call, f.stored, error⟩ } := by
    simp only [Receiver.step, hbatch]
    rw [if_pos (Or.inr trivial)]
  have hshort := Frame.count_eq (h.loops f hframe) hlt
  rw [hstep]
  refine ⟨h.stream, by rintro f' ⟨⟩, fun hne => absurd hfree hne, h.sizes, ?_, [],
    .data [] List.nil_suffix rfl (by simp) (by simp), ?_⟩
  · rintro x ⟨⟩
    exact ⟨rfl, hfin, hshort ▸ hlt⟩
  · show s.results.flatten ++ (f.stored ++ s.reader.unread) ++ [] = _
    rw [List.append_nil, ← hbytes]
    simp only [State.held, hframe, Frame.held]

theorem sound_await (L : Lawful R start I) (h : Sound R I s) {f : Frame}
    (hframe : s.frame = some f) (hfree : R.waiter s.stream = none) (hbatch : s.batch = [])
    (hlt : f.count s.reader < f.call.size) : Sound R I (R.step s f) := by
  obtain ⟨-, ht, hcall⟩ := L.call s.stream kBatchCapacity (f.call.size - f.count s.reader)
    h.stream hfree (by decide) (by omega)
  have hstep : R.step s f = R.observe s (R.machine.next s.stream
      (R.nextBatch kBatchCapacity (f.call.size - f.count s.reader))) := by
    simp only [Receiver.step, hbatch, if_pos hlt]
  rw [hstep]
  rcases hcall with hsuspends | hhands
  · obtain ⟨todo, htodo, hbytes⟩ := h.bytes
    rw [htodo.of_empty hbatch] at hbytes
    have hobserve : ∀ u, R.handed u = R.handed s.stream →
        R.observe s u = { s with stream := u } := fun u hu => by
      simp only [Receiver.observe, hu, if_true]
    rw [hobserve _ hsuspends.handed]
    refine ⟨ht, h.loops, fun _ => ⟨hbatch, hsuspends.lent, f, hframe, hlt, hsuspends.waiter⟩,
      h.sizes, fun x hx => ?_, [], .data [] List.nil_suffix hbatch (by simp) (by simp), ?_⟩
    · have hnone := (h.failed x hx).1
      rw [hframe] at hnone
      cases hnone
    · exact hbytes.trans (congrArg _ hsuspends.handed.symm)
  · rw [observe_hands hhands]
    exact sound_hands h hframe hlt hbatch ht hhands

theorem sound_return (h : Sound R I s) {f : Frame} (hframe : s.frame = some f)
    (hfree : R.waiter s.stream = none) (hbatch : s.batch = [])
    (hge : f.call.size ≤ f.count s.reader) : Sound R I (R.step s f) := by
  obtain ⟨hlen, hrest⟩ := Frame.finish_spec (h.loops f hframe) hge
  obtain ⟨todo, htodo, hbytes⟩ := h.bytes
  rw [htodo.of_empty hbatch] at hbytes
  have hfailed : s.failed = none := by
    by_contra hne
    obtain ⟨x, hx⟩ := Option.ne_none_iff_exists'.mp hne
    rw [(h.failed x hx).1] at hframe
    cases hframe
  simp only [Receiver.step, hbatch, if_neg (Nat.not_lt.mpr hge)]
  refine ⟨h.stream, by rintro f' ⟨⟩, fun hne => absurd hfree hne, ?_, fun x hx => ?_, [],
    .data [] List.nil_suffix rfl (by simp) (by simp), ?_⟩
  · rw [List.map_append, List.map_append, h.sizes, List.map_singleton, List.map_singleton, hlen]
  · have hx' : s.failed = some x := hx
    rw [hfailed] at hx'
    cases hx'
  · rw [← hbytes]
    simp only [State.held, hframe, hfailed, List.flatten_append, List.flatten_singleton]
    rw [← hrest]
    simp

theorem sound_run (L : Lawful R start I) (h : Sound R I s) (he : R.Enabled s (.run : Event ε)) :
    Sound R I (R.next s .run) := by
  obtain ⟨hruns, hfree⟩ := he
  obtain ⟨f, hframe⟩ := Option.ne_none_iff_exists'.mp hruns
  obtain ⟨todo, htodo, hbytes⟩ := h.bytes
  simp only [Receiver.next, hframe]
  cases htodo with
  | ended error f' hbatch hfin hf hlt =>
    obtain rfl : f = f' := Option.some.inj (hframe.symm.trans hf)
    exact sound_throw h hframe hfree hbatch hfin hlt (by simpa using hbytes)
  | data todo hsuffix hbatch hdata hlimit =>
    cases todo with
    | cons l todo =>
      obtain ⟨f', hf, hlt⟩ := hlimit (List.cons_ne_nil _ _)
      obtain rfl : f = f' := Option.some.inj (hframe.symm.trans hf)
      exact sound_copy L h hframe hfree hsuffix hbatch hdata hlt hbytes
    | nil =>
      by_cases hlt : f.count s.reader < f.call.size
      · exact sound_await L h hframe hfree hbatch hlt
      · exact sound_return h hframe hfree hbatch (Nat.le_of_not_lt hlt)

theorem sound_initial (L : Lawful R start I) : Sound R I (.initial start) := by
  obtain ⟨hstart, hfree, hlent, hhanded⟩ := L.start
  refine ⟨hstart, by rintro f ⟨⟩, fun hne => absurd hfree hne, rfl, by rintro x ⟨⟩, [],
    .data [] List.nil_suffix rfl (by simp) (by simp), ?_⟩
  show [] = (R.handed start).flatMap Chunk.data
  rw [hhanded, List.flatMap_nil]

theorem sound (L : Lawful R start I) (hs : Reachable R.reading (State.initial start) s) :
    Sound R I s := by
  refine hs.invariant (sound_initial L) fun u e hu he _ => ?_
  cases e with
  | stream e => exact sound_stream L hu he
  | call c => exact sound_call hu he
  | run => exact sound_run L hu he

theorem cut_of_sizes {calls : List Call} {results : List (List UInt8)} (rest : List UInt8)
    (h : results.map List.length = calls.map Call.size) :
    results = cut calls (results.flatten ++ rest) ∧ results.flatten.length = demand calls := by
  induction calls generalizing results with
  | nil =>
    rw [List.map_nil, List.map_eq_nil_iff] at h
    simp [h, cut]
  | cons c calls ih =>
    obtain ⟨bytes, results, rfl, hlen, hsizes⟩ := List.map_eq_cons_iff.mp h
    obtain ⟨hcut, hdemand⟩ := ih hsizes
    rw [List.flatten_cons, List.append_assoc, cut, demand_cons, List.length_append, hlen, hdemand,
      ← hlen, List.take_left, List.drop_left, ← hcut]
    exact ⟨rfl, rfl⟩

theorem demand_concat (calls : List Call) (c : Call) :
    demand (calls ++ [c]) = demand calls + c.size := by
  induction calls with
  | nil => simp
  | cons d calls ih => rw [List.cons_append, demand_cons, demand_cons, ih, Nat.add_assoc]

/-- The calls that have returned cut what has been received at their sizes, and `dest` begins with
the bytes that follow. A call throws only when the stream is over and too short for it, and waits
only when nothing is left to hand out and what was handed out is too short for it. -/
structure ReadsInOrder (R : Receiver σ ε) (s : State σ) : Prop where
  results : s.results = cut s.calls (R.received s.stream).flatten
  enough : demand s.calls ≤ (R.received s.stream).flatten.length
  running : ∀ f, s.frame = some f →
    f.stored <+: (R.received s.stream).flatten.drop (demand s.calls)
  failed : ∀ x, s.failed = some x → R.Over s.stream ∧
    (R.received s.stream).flatten.length < demand (s.calls ++ [x.call]) ∧
    x.stored <+: (R.received s.stream).flatten.drop (demand s.calls)
  waits : R.waiter s.stream ≠ none → R.pending s.stream = [] ∧ ∃ f, s.frame = some f ∧
    ((R.handed s.stream).flatMap Chunk.data).length < demand (s.calls ++ [f.call])

theorem reads_in_order (L : Lawful R start I)
    (hs : Reachable R.reading (.initial start) s) : ReadsInOrder R s := by
  have h := sound L hs
  obtain ⟨todo, htodo, hbytes⟩ := h.bytes
  have hflow := L.flow _ h.stream
  have hall : (R.received s.stream).flatten = s.results.flatten ++
      (s.held ++ (todo.flatMap Lent.bytes ++ (R.waiting s.stream).flatten)) := by
    rw [← hflow, ← hbytes]
    simp
  obtain ⟨hcut, hdemand⟩ := cut_of_sizes
    (s.held ++ (todo.flatMap Lent.bytes ++ (R.waiting s.stream).flatten)) h.sizes
  have hdrop : (R.received s.stream).flatten.drop (demand s.calls) =
      s.held ++ (todo.flatMap Lent.bytes ++ (R.waiting s.stream).flatten) := by
    rw [hall, ← hdemand, List.drop_left]
  refine ⟨hall ▸ hcut, ?_, fun f hf => ?_, fun x hx => ?_, fun hne => ?_⟩
  · rw [hall, List.length_append, hdemand]
    exact Nat.le_add_right _ _
  · have hheld : s.held = f.held s.reader := by simp only [State.held, hf]
    rw [hdrop, hheld, Frame.held, List.append_assoc]
    exact List.prefix_append _ _
  · obtain ⟨hframe, ⟨hover, hnone⟩, hshort⟩ := h.failed x hx
    have hheld : s.held = x.stored ++ s.reader.unread := by simp only [State.held, hframe, hx]
    have htodo' : todo = [] := by
      cases htodo with
      | data todo _ _ _ hlimit =>
        by_contra hne
        obtain ⟨f, hf, -⟩ := hlimit hne
        rw [hframe] at hf
        cases hf
      | ended => rfl
    rw [hnone, htodo'] at hall
    refine ⟨hover, ?_, ?_⟩
    · rw [hall, demand_concat, List.length_append, hdemand, hheld]
      simpa using hshort
    · rw [hdrop, hheld, List.append_assoc]
      exact List.prefix_append _ _
  · obtain ⟨hbatch, -, f, hframe, hlt, -⟩ := h.waits hne
    have hheld : s.held = f.held s.reader := by simp only [State.held, hframe]
    rw [htodo.of_empty hbatch] at hbytes
    refine ⟨L.starved _ h.stream hne, f, hframe, ?_⟩
    rw [← hbytes, demand_concat]
    rw [Frame.count_eq (h.loops f hframe) hlt] at hlt
    simpa [← hdemand, hheld] using hlt

end Reading

end EasyioFramedReaderStreams
