import EasyBD.EasyioFramedReaderCalls
import EasyBD.EasyioLibcRecvStream
import EasyBD.EasyioUringRecvStream

/-! `_take_batch` against `_take`: a batch is what `_take` hands out again and again while there
is room, and only its last chunk may reach the byte limit. -/
namespace EasyioNextBatch

open TransitionRuns EasyioQueue EasyioRecvStream

/-- A backend's own part, with the chunks it writes. Handing out a chunk takes it from `_pending`
and leaves the bytes of the ring alone. -/
structure Stream (σ : Type*) extends Source σ where
  read : σ → Pending → List UInt8
  error : σ → Option Errno
  handed : σ → List Chunk
  Over : σ → Prop
  pending_handOut : ∀ s p rest, pending (handOut s p rest) = rest
  read_handOut : ∀ s p rest, read (handOut s p rest) = read s
  handed_handOut : ∀ s p rest, handed (handOut s p rest) = handed s ++ [⟨read s p, none⟩]
  handed_handEnd : ∀ s, handed (handEnd s) = handed s ++ [⟨[], error s⟩]

def size (out : List Chunk) : ℕ := (out.flatMap Chunk.data).length

@[simp] theorem size_nil : size [] = 0 := rfl

@[simp] theorem size_concat (out : List Chunk) (c : Chunk) :
    size (out ++ [c]) = size out + c.data.length := by
  simp [size]

namespace Stream

variable {σ : Type*}

def take (T : Stream σ) (s : σ) : Chunk × σ :=
  match T.pending s with
  | p :: rest => (⟨T.read s p, none⟩, T.handOut s p rest)
  | [] => (⟨[], T.error s⟩, T.handEnd s)

/-- The loop of `_take_batch`: `left` is `out.size() - count`. -/
def takeBatchLoop (T : Stream σ) (maxBytes : ℕ) :
    (left : ℕ) → List Chunk → (bytes : ℕ) → σ → List Chunk × σ
  | left + 1, out, bytes, s =>
    match T.pending s with
    | p :: rest =>
      if bytes < maxBytes then
        T.takeBatchLoop maxBytes left (out ++ [⟨T.read s p, none⟩]) (bytes + p.len)
          (T.handOut s p rest)
      else (out, s)
    | [] => (out, s)
  | 0, out, _, s => (out, s)

def takeBatch (T : Stream σ) (cap maxBytes : ℕ) (s : σ) : List Chunk × σ :=
  match T.takeBatchLoop maxBytes cap [] 0 s with
  | ([], s) => ([⟨[], T.error s⟩], T.handEnd s)
  | (c :: out, s) => (c :: out, s)

/-- `_take` again and again while data is pending and both limits leave room. -/
def takeAgain (T : Stream σ) (maxBytes : ℕ) : (left : ℕ) → List Chunk → σ → List Chunk × σ
  | left + 1, out, s =>
    if T.pending s ≠ [] ∧ size out < maxBytes then
      T.takeAgain maxBytes left (out ++ [(T.take s).1]) (T.take s).2
    else (out, s)
  | 0, out, s => (out, s)

/-- Every pending span is behind as many bytes as it counts, and counts at least one. -/
def Filled (T : Stream σ) (s : σ) : Prop :=
  ∀ p ∈ T.pending s, (T.read s p).length = p.len ∧ T.read s p ≠ []

/-- The batch is what `_take` hands out again and again, the end of the stream is written only
alone and when nothing is pending, and only the last chunk may reach the limit. -/
structure Agrees (T : Stream σ) (cap maxBytes : ℕ) (s : σ) : Prop where
  again : T.pending s ≠ [] → T.takeBatch cap maxBytes s = T.takeAgain maxBytes cap [] s
  ended : T.pending s = [] → T.takeBatch cap maxBytes s = ([(T.take s).1], (T.take s).2)
  handed : T.handed (T.takeBatch cap maxBytes s).2 =
    T.handed s ++ (T.takeBatch cap maxBytes s).1
  limit : size (T.takeBatch cap maxBytes s).1.dropLast < maxBytes
  nonempty : (T.takeBatch cap maxBytes s).1 ≠ []
  room : (T.takeBatch cap maxBytes s).1.length ≤ cap
  alone : ∀ c ∈ (T.takeBatch cap maxBytes s).1, c.data = [] ∨ c.error ≠ none →
    (T.takeBatch cap maxBytes s).1 = [c] ∧ T.pending s = [] ∧ T.Over s

section Batches

variable {T : Stream σ} {s : σ} {cap maxBytes : ℕ}

theorem take_of_pending {p : Pending} {rest : List Pending} (top : T.pending s = p :: rest) :
    T.take s = (⟨T.read s p, none⟩, T.handOut s p rest) := by
  simp only [take, top]

theorem take_of_empty (hempty : T.pending s = []) :
    T.take s = (⟨[], T.error s⟩, T.handEnd s) := by
  simp only [take, hempty]

theorem Filled.handOut (h : T.Filled s) {p : Pending} {rest : List Pending}
    (top : T.pending s = p :: rest) : T.Filled (T.handOut s p rest) := by
  intro q hq
  rw [T.pending_handOut] at hq
  rw [T.read_handOut]
  exact h q (top ▸ List.mem_cons_of_mem p hq)

/-- The count of bytes is the size of what has been written. -/
theorem takeBatchLoop_eq_takeAgain (h : T.Filled s) (left : ℕ) (out : List Chunk) :
    T.takeBatchLoop maxBytes left out (size out) s = T.takeAgain maxBytes left out s := by
  induction left generalizing out s with
  | zero => rfl
  | succ left ih =>
    cases top : T.pending s with
    | nil => simp [takeBatchLoop, takeAgain, top]
    | cons p rest =>
      by_cases hlimit : size out < maxBytes
      · have hlen := (h p (top ▸ List.mem_cons_self)).1
        have hnext := ih (h.handOut top) (out ++ [⟨T.read s p, none⟩])
        rw [size_concat, hlen] at hnext
        simpa [takeBatchLoop, takeAgain, top, hlimit, take_of_pending top] using hnext
      · simp [takeBatchLoop, takeAgain, top, hlimit]

theorem takeAgain_keeps {I : List Chunk → σ → Prop}
    (step : ∀ out s p rest, I out s → T.pending s = p :: rest → size out < maxBytes →
      I (out ++ [⟨T.read s p, none⟩]) (T.handOut s p rest))
    (left : ℕ) {out : List Chunk} (h : I out s) :
    I (T.takeAgain maxBytes left out s).1 (T.takeAgain maxBytes left out s).2 := by
  induction left generalizing out s with
  | zero => exact h
  | succ left ih =>
    simp only [takeAgain]
    split
    · next hgoes =>
      obtain ⟨p, rest, top⟩ := List.exists_cons_of_ne_nil hgoes.1
      rw [take_of_pending top]
      apply ih
      exact step out s p rest h top hgoes.2
    · exact h

theorem takeAgain_length (left : ℕ) (out : List Chunk) :
    (T.takeAgain maxBytes left out s).1.length ≤ out.length + left := by
  induction left generalizing out s with
  | zero => exact Nat.le_refl _
  | succ left ih =>
    simp only [takeAgain]
    split
    · have hrest := ih (s := (T.take s).2) (out ++ [(T.take s).1])
      rw [List.length_append, List.length_singleton] at hrest
      omega
    · exact Nat.le_add_right _ _

theorem takeAgain_ne_nil (hcap : 0 < cap) (hmax : 0 < maxBytes) (hne : T.pending s ≠ []) :
    (T.takeAgain maxBytes cap [] s).1 ≠ [] := by
  obtain ⟨left, rfl⟩ := Nat.exists_eq_add_one_of_ne_zero (Nat.ne_of_gt hcap)
  have hgoes : T.pending s ≠ [] ∧ size [] < maxBytes := ⟨hne, hmax⟩
  rw [takeAgain, if_pos hgoes]
  exact takeAgain_keeps (I := fun out _ => out ≠ []) (by simp) left (by simp)

theorem takeBatch_of_empty (hempty : T.pending s = []) (cap maxBytes : ℕ) :
    T.takeBatch cap maxBytes s = ([⟨[], T.error s⟩], T.handEnd s) := by
  have hloop : T.takeBatchLoop maxBytes cap [] 0 s = ([], s) := by
    cases cap with
    | zero => rfl
    | succ cap => simp only [takeBatchLoop, hempty]
  simp only [takeBatch, hloop]

theorem takeBatch_of_pending (h : T.Filled s) (hcap : 0 < cap) (hmax : 0 < maxBytes)
    (hne : T.pending s ≠ []) :
    T.takeBatch cap maxBytes s = T.takeAgain maxBytes cap [] s := by
  have hloop : T.takeBatchLoop maxBytes cap [] 0 s = T.takeAgain maxBytes cap [] s :=
    takeBatchLoop_eq_takeAgain h cap []
  obtain ⟨c, out, hout⟩ := List.exists_cons_of_ne_nil (takeAgain_ne_nil hcap hmax hne)
  have hpair : T.takeAgain maxBytes cap [] s = (c :: out, (T.takeAgain maxBytes cap [] s).2) :=
    Prod.ext hout rfl
  simp only [takeBatch, hloop]
  rw [hpair]

theorem agrees_of_empty (hempty : T.pending s = []) (hover : T.Over s) (hcap : 0 < cap)
    (hmax : 0 < maxBytes) : T.Agrees cap maxBytes s := by
  have hbatch := takeBatch_of_empty hempty cap maxBytes
  refine ⟨fun hne => absurd hempty hne, fun _ => ?_, ?_, ?_, ?_, ?_, ?_⟩
  · rw [hbatch, take_of_empty hempty]
  · rw [hbatch, T.handed_handEnd]
  · rw [hbatch]
    exact hmax
  · rw [hbatch]
    exact List.cons_ne_nil _ _
  · rw [hbatch]
    exact hcap
  · rw [hbatch]
    intro c hc _
    rw [List.mem_singleton.mp hc]
    exact ⟨rfl, hempty, hover⟩

theorem agrees_of_pending (h : T.Filled s) (hne : T.pending s ≠ []) (hcap : 0 < cap)
    (hmax : 0 < maxBytes) : T.Agrees cap maxBytes s := by
  have hbatch := takeBatch_of_pending h hcap hmax hne
  have hhanded : T.handed (T.takeAgain maxBytes cap [] s).2 =
      T.handed s ++ (T.takeAgain maxBytes cap [] s).1 := by
    apply takeAgain_keeps (I := fun out u => T.handed u = T.handed s ++ out)
    · intro out u p rest hu _ _
      rw [T.handed_handOut, hu, List.append_assoc]
    · exact (List.append_nil _).symm
  -- The loop's own test bounds what stands before the chunk it writes.
  have hlimit : size (T.takeAgain maxBytes cap [] s).1.dropLast < maxBytes := by
    apply takeAgain_keeps (I := fun out _ => size out.dropLast < maxBytes)
    · intro out u p rest _ _ hsize
      rwa [List.dropLast_concat]
    · exact hmax
  have hdata : T.Filled (T.takeAgain maxBytes cap [] s).2 ∧
      ∀ c ∈ (T.takeAgain maxBytes cap [] s).1, c.data ≠ [] ∧ c.error = none := by
    apply takeAgain_keeps (I := fun out u =>
      T.Filled u ∧ ∀ c ∈ out, c.data ≠ [] ∧ c.error = none)
    · rintro out u p rest ⟨hu, hout⟩ top _
      refine ⟨hu.handOut top, fun c hc => ?_⟩
      rcases List.mem_append.mp hc with hold | hnew
      · exact hout c hold
      · rw [List.mem_singleton.mp hnew]
        exact ⟨(hu p (top ▸ List.mem_cons_self)).2, rfl⟩
    · exact ⟨h, by rintro c ⟨⟩⟩
  refine ⟨fun _ => hbatch, fun hempty => absurd hempty hne, ?_, ?_, ?_, ?_, ?_⟩
  · rw [hbatch, hhanded]
  · rw [hbatch]
    exact hlimit
  · rw [hbatch]
    exact takeAgain_ne_nil hcap hmax hne
  · rw [hbatch]
    simpa using takeAgain_length (T := T) (s := s) cap []
  · rw [hbatch]
    rintro c hc (hnil | herror)
    · exact absurd hnil (hdata.2 c hc).1
    · exact absurd (hdata.2 c hc).2 herror

theorem agrees (h : T.Filled s) (hr : T.pending s ≠ [] ∨ T.Over s) (hcap : 0 < cap)
    (hmax : 0 < maxBytes) : T.Agrees cap maxBytes s := by
  by_cases hempty : T.pending s = []
  · exact agrees_of_empty hempty (hr.resolve_left fun hne => hne hempty) hcap hmax
  · exact agrees_of_pending h hempty hcap hmax

/-- What the stream's model keeps of the loop: the state, and its `count`. -/
theorem takeBatchLoop_source (left : ℕ) (out : List Chunk) (bytes : ℕ) :
    T.toSource.takeBatchLoop left (maxBytes - bytes) out.length s =
      ((T.takeBatchLoop maxBytes left out bytes s).2,
        (T.takeBatchLoop maxBytes left out bytes s).1.length) := by
  induction left generalizing out bytes s with
  | zero => rfl
  | succ left ih =>
    cases top : T.pending s with
    | nil => simp only [Source.takeBatchLoop, takeBatchLoop, top]
    | cons p rest =>
      by_cases hlimit : bytes < maxBytes
      · have hbudget : maxBytes - bytes ≠ 0 := by omega
        have hnext := ih (s := T.handOut s p rest) (out ++ [⟨T.read s p, none⟩]) (bytes + p.len)
        rw [List.length_append, List.length_singleton, ← Nat.sub_sub] at hnext
        simpa only [Source.takeBatchLoop, takeBatchLoop, top, if_pos hlimit, if_neg hbudget]
          using hnext
      · have hbudget : maxBytes - bytes = 0 := by omega
        simp only [Source.takeBatchLoop, takeBatchLoop, top, if_neg hlimit, if_pos hbudget]

theorem takeBatch_source (T : Stream σ) (s : σ) (cap maxBytes : ℕ) :
    T.toSource.takeBatch s cap maxBytes = (T.takeBatch cap maxBytes s).2 := by
  have hloop : T.toSource.takeBatchLoop cap maxBytes 0 s =
      ((T.takeBatchLoop maxBytes cap [] 0 s).2, (T.takeBatchLoop maxBytes cap [] 0 s).1.length) :=
    takeBatchLoop_source cap [] 0
  simp only [Source.takeBatch, hloop, takeBatch, List.length_eq_zero_iff]
  rcases T.takeBatchLoop maxBytes cap [] 0 s with ⟨_ | ⟨c, out⟩, u⟩
  · rfl
  · rfl

/-- What `FramedReader` relies on: of a batch of data only the last chunk reaches the limit. -/
theorem Agrees.isBatch (h : T.Agrees cap maxBytes s) (hne : T.pending s ≠ [])
    (hcap : cap ≤ EasyioFramedReader.kBatchCapacity) :
    EasyioFramedReader.IsBatch maxBytes ((T.takeBatch cap maxBytes s).1.map Chunk.data) where
  nonempty hnil := h.nonempty (List.map_eq_nil_iff.mp hnil)
  data hmem := by
    obtain ⟨c, hc, hnil⟩ := List.mem_map.mp hmem
    exact hne (h.alone c hc (Or.inl hnil)).2.1
  capacity := by
    rw [List.length_map]
    exact Nat.le_trans h.room hcap
  limit front last heq := by
    have hfront : (T.takeBatch cap maxBytes s).1.dropLast.map Chunk.data = front := by
      rw [List.map_dropLast, heq, List.dropLast_concat]
    rw [← hfront, ← List.flatMap_def]
    exact h.limit

theorem Agrees.nextBatch (h : T.Agrees cap maxBytes s) (hne : T.pending s ≠ [])
    (hcap : cap ≤ EasyioFramedReader.kBatchCapacity) (rest : List (List UInt8))
    (ending : EasyioFramedReader.Ending) (arrived : List ℕ) :
    let batch := (T.takeBatch cap maxBytes s).1.map Chunk.data
    EasyioFramedReader.Stream.nextBatch
      ⟨batch ++ rest, ending, (batch.length - 1) :: arrived⟩ maxBytes =
        (batch, ⟨rest, ending, arrived⟩) :=
  EasyioFramedReaderCalls.nextBatch_of_isBatch (h.isBatch hne hcap) ending arrived

end Batches

end Stream

/-- Every span lies in its entry and is not empty. -/
def Spans (buf : ℕ → List UInt8) (spans : List Pending) : Prop :=
  ∀ p ∈ spans, 0 < p.len ∧ p.len ≤ (buf p.idx).length

theorem Spans.read {buf : ℕ → List UInt8} {spans : List Pending} (h : Spans buf spans)
    {p : Pending} (hp : p ∈ spans) :
    ((buf p.idx).take p.len).length = p.len ∧ (buf p.idx).take p.len ≠ [] := by
  obtain ⟨hpos, hle⟩ := h p hp
  have hlen : ((buf p.idx).take p.len).length = p.len := by
    rw [List.length_take, Nat.min_eq_left hle]
  refine ⟨hlen, fun hnil => ?_⟩
  rw [hnil, List.length_nil] at hlen
  omega

theorem Spans.mono {buf : ℕ → List UInt8} {spans spans' : List Pending} (h : Spans buf spans)
    (hsub : ∀ p ∈ spans', p ∈ spans) : Spans buf spans' := fun p hp => h p (hsub p hp)

theorem Spans.store {buf : ℕ → List UInt8} {spans : List Pending} (h : Spans buf spans) (idx : ℕ)
    {bytes : List UInt8} (hbytes : bytes ≠ []) :
    Spans (Function.update buf idx (bytes ++ (buf idx).drop bytes.length))
      (spans ++ [⟨idx, bytes.length⟩]) := by
  have hgrows (i : ℕ) : (buf i).length ≤
      (Function.update buf idx (bytes ++ (buf idx).drop bytes.length) i).length := by
    by_cases hi : i = idx
    · rw [hi, Function.update_self, List.length_append, List.length_drop]
      omega
    · rw [Function.update_of_ne hi]
  intro p hp
  rcases List.mem_append.mp hp with hold | hnew
  · exact ⟨(h p hold).1, Nat.le_trans (h p hold).2 (hgrows p.idx)⟩
  · rw [List.mem_singleton.mp hnew, Function.update_self, List.length_append]
    exact ⟨List.length_pos_of_ne_nil hbytes, Nat.le_add_right _ _⟩

section Libc

open EasyioLibcRecvStream

variable {s u : State} {w : Waiter} {e : Event}

def libc : Stream State where
  toSource := State.source
  read := State.read
  error := State.error
  handed := State.handed
  Over := State.Over
  pending_handOut := fun _ _ _ => rfl
  read_handOut := fun _ _ _ => rfl
  handed_handOut := fun _ _ _ => rfl
  handed_handEnd := fun _ => rfl

def canceled (s : State) : State :=
  if s.error = none ∧ s.eof = false then { s with error := some State.ecanceled } else s

def libcCall : Waiter → Event
  | .next => .next
  | .nextBatch cap maxBytes => .nextBatch cap maxBytes

/-- In the step `e` the awaiter `w` resumes, in the state `u`. -/
inductive LibcResumed (s : State) : Event → Waiter → State → Prop where
  | ready (w : Waiter) : s.waiter = none → s.returnCheckedOut.Readable →
      LibcResumed s (libcCall w) w s.returnCheckedOut
  | received (results : List RecvResult) (w : Waiter) : s.waiter = some w →
      (s.receive results).Readable →
      LibcResumed s (.onReady results) w { s.receive results with waiter := none }
  | canceled (w : Waiter) : s.waiter = some w →
      LibcResumed s .cancel w { canceled s with waiter := none }

theorem libc_resumes (h : LibcResumed s e w u) :
    EasyioLibcRecvStream.next s e = u.awaitResume w := by
  cases h with
  | ready _ hfree hr =>
    cases w with
    | next => exact if_pos hr
    | nextBatch cap maxBytes => exact if_pos hr
  | received results _ hw hr =>
    have hwaiter : (s.receive results).waiter = some w := (receive_frame results s).1.trans hw
    simp only [EasyioLibcRecvStream.next, State.onReady, if_pos hr, State.resume, hwaiter]
  | canceled _ hw =>
    have hwaiter : (canceled s).waiter = some w := by
      unfold canceled
      split
      · exact hw
      · exact hw
    change (canceled s).resume = _
    simp only [State.resume, hwaiter]

theorem libc_handed (he : Enabled s e)
    (hmore : (EasyioLibcRecvStream.next s e).handed ≠ s.handed) :
    ∃ w u, LibcResumed s e w u := by
  have hready (w : Waiter) (hfree : s.waiter = none) (hawait : (s.await w).handed ≠ s.handed) :
      ∃ w' u, LibcResumed s (libcCall w) w' u := by
    by_cases hr : s.returnCheckedOut.Readable
    · exact ⟨w, _, .ready w hfree hr⟩
    · simp only [State.await, if_neg hr] at hawait
      exact absurd rfl hawait
  cases e with
  | onReady results =>
    obtain ⟨hwaiter, -, -, hhanded, -⟩ := receive_frame results s
    change (s.onReady results).handed ≠ s.handed at hmore
    by_cases hr : (s.receive results).Readable
    · cases hw : s.waiter with
      | none =>
        simp only [State.onReady, if_pos hr, State.resume, hwaiter, hw] at hmore
        exact absurd hhanded hmore
      | some w => exact ⟨w, _, .received results w hw hr⟩
    · simp only [State.onReady, if_neg hr] at hmore
      exact absurd hhanded hmore
  | cancel =>
    cases hw : s.waiter with
    | none =>
      have hwaiter : (canceled s).waiter = none ∧ (canceled s).handed = s.handed := by
        unfold canceled
        split
        · exact ⟨hw, rfl⟩
        · exact ⟨hw, rfl⟩
      change (canceled s).resume.handed ≠ s.handed at hmore
      simp only [State.resume, hwaiter.1] at hmore
      exact absurd hwaiter.2 hmore
    | some w => exact ⟨w, _, .canceled w hw⟩
  | next => exact hready .next he hmore
  | nextBatch cap maxBytes => exact hready (.nextBatch cap maxBytes) he hmore

theorem libc_spans_awaitResume (h : Spans s.buf s.pending) (w : Waiter) :
    Spans (s.awaitResume w).buf (s.awaitResume w).pending := by
  refine Source.awaitResume_invariant (T := State.source)
    (I := fun u => Spans u.buf u.pending) (fun u p rest hu top => ?_) (fun _ hu => hu) h w
  have hpending : u.pending = p :: rest := top
  exact hu.mono fun q hq => hpending ▸ List.mem_cons_of_mem p hq

theorem libc_spans_resume (h : Spans s.buf s.pending) :
    Spans s.resume.buf s.resume.pending := by
  unfold State.resume
  split
  · next w hw => exact libc_spans_awaitResume (s := { s with waiter := none }) h w
  · exact h

theorem libc_spans_receive (h : Spans s.buf s.pending) {results : List RecvResult}
    (hfits : ∀ r ∈ results, Fits s r) :
    Spans (s.receive results).buf (s.receive results).pending := by
  induction results generalizing s with
  | nil => exact h
  | cons r results ih =>
    have hrest : ∀ r ∈ results, Fits s r := fun r' hr => hfits r' (List.mem_cons_of_mem r hr)
    unfold State.receive
    split
    · cases r with
      | data bytes =>
        have hdata : Fits s (.data bytes) := hfits _ List.mem_cons_self
        exact ih (h.store s.writeIdx hdata.1) hrest
      | again | eof | failed _ => exact h
    · exact h

theorem libc_spans_step (h : Spans s.buf s.pending) (he : Enabled s e) :
    Spans (EasyioLibcRecvStream.next s e).buf (EasyioLibcRecvStream.next s e).pending := by
  have hawait (w : Waiter) : Spans (s.await w).buf (s.await w).pending := by
    by_cases hr : s.returnCheckedOut.Readable
    · simp only [State.await, if_pos hr]
      exact libc_spans_awaitResume (s := s.returnCheckedOut) h w
    · simp only [State.await, if_neg hr]
      exact h
  cases e with
  | onReady results =>
    have hreceived := libc_spans_receive h he
    change Spans (s.onReady results).buf (s.onReady results).pending
    by_cases hr : (s.receive results).Readable
    · simp only [State.onReady, if_pos hr]
      exact libc_spans_resume hreceived
    · simp only [State.onReady, if_neg hr]
      exact hreceived
  | cancel =>
    have hcanceled : Spans (canceled s).buf (canceled s).pending := by
      unfold canceled
      split
      · exact h
      · exact h
    exact libc_spans_resume hcanceled
  | next => exact hawait .next
  | nextBatch cap maxBytes => exact hawait (.nextBatch cap maxBytes)

theorem libc_resumed (h : Spans s.buf s.pending) (he : Enabled s e) (hu : LibcResumed s e w u) :
    libc.Filled u ∧ (libc.pending u ≠ [] ∨ libc.Over u) := by
  cases hu with
  | ready _ _ hr => exact ⟨fun p hp => h.read hp, hr⟩
  | received results _ _ hr => exact ⟨fun p hp => (libc_spans_receive h he).read hp, hr⟩
  | canceled _ hw =>
    have hcanceled : Spans (canceled s).buf (canceled s).pending ∧ (canceled s).Over := by
      unfold canceled
      split
      · exact ⟨h, Or.inr (by simp)⟩
      · next hover =>
        refine ⟨h, ?_⟩
        cases heof : s.eof with
        | true => exact Or.inl heof
        | false => exact Or.inr fun herror => hover ⟨herror, heof⟩
    exact ⟨fun p hp => hcanceled.1.read hp, Or.inr hcanceled.2⟩

end Libc

section Uring

open EasyioUringRecvStream

variable {s u : State} {w : Waiter} {e : Event}

def uring : Stream State where
  toSource := State.source
  read := State.read
  error := State.error
  handed := State.handed
  Over := State.Over
  pending_handOut := fun _ _ _ => rfl
  read_handOut := fun _ _ _ => rfl
  handed_handOut := fun _ _ _ => rfl
  handed_handEnd := fun _ => rfl

def uringCall : Waiter → Event
  | .next => .next
  | .nextBatch cap maxBytes => .nextBatch cap maxBytes

/-- In the step `e` the awaiter `w` resumes, in the state `u`. -/
inductive UringResumed (s : State) : Event → Waiter → State → Prop where
  | ready (w : Waiter) : s.waiter = none → s.returnCheckedOut.Readable →
      UringResumed s (uringCall w) w s.returnCheckedOut
  | dispatched (c : Cqe) (cq : List Cqe) (w : Waiter) : s.cq = c :: cq → s.waiter = some w →
      ((s.popped c cq).absorb c).Readable →
      UringResumed s .dispatch w { (s.popped c cq).absorb c with waiter := none }

theorem uring_resumes (h : UringResumed s e w u) :
    EasyioUringRecvStream.next s e = u.awaitResume w := by
  cases h with
  | ready _ hfree hr =>
    cases w with
    | next => exact if_pos hr
    | nextBatch cap maxBytes => exact if_pos hr
  | dispatched c cq _ top hw hr =>
    have hwaiter : ((s.popped c cq).absorb c).waiter = some w :=
      (absorbed_frame (absorb_cases (s.popped c cq) c)).1.trans hw
    simp only [EasyioUringRecvStream.next, top, onCqe_eq, State.handleCqe, if_pos hr, State.resume,
      hwaiter]

theorem uring_maybeResubmit (s : State) : s.maybeResubmit.buf = s.buf ∧
    s.maybeResubmit.posted = s.posted ∧ s.maybeResubmit.handed = s.handed ∧
    s.maybeResubmit.pending = s.pending := by
  unfold State.maybeResubmit
  split
  · exact ⟨rfl, rfl, rfl, rfl⟩
  · exact ⟨rfl, rfl, rfl, rfl⟩

/-- What a completion adds to `_pending` is what it reports, and it touches no entry. -/
theorem absorbed_spans {c : Cqe} {s' : State} (ha : Absorbed s c s') :
    s'.buf = s.buf ∧ s'.posted = s.posted ∧ s'.handed = s.handed ∧
      ∀ p ∈ s'.pending, p ∈ s.pending ++ c.span.toList := by
  cases ha with
  | chunk p hspan _ =>
    refine ⟨rfl, rfl, rfl, fun q hq => ?_⟩
    rw [hspan]
    exact hq
  | lastChunk p hspan _ =>
    obtain ⟨hbuf, hposted, hhanded, hpending⟩ :=
      uring_maybeResubmit { s with pending := s.pending ++ [p], needsResubmit := true }
    refine ⟨hbuf, hposted, hhanded, fun q hq => ?_⟩
    rw [hpending] at hq
    rw [hspan]
    exact hq
  | noBuffers _ =>
    obtain ⟨hbuf, hposted, hhanded, hpending⟩ :=
      uring_maybeResubmit { s with needsResubmit := true }
    refine ⟨hbuf, hposted, hhanded, fun q hq => ?_⟩
    rw [hpending] at hq
    exact List.mem_append_left _ hq
  | error | eof => exact ⟨rfl, rfl, rfl, fun q hq => List.mem_append_left _ hq⟩

theorem uring_handed (he : Enabled s e)
    (hmore : (EasyioUringRecvStream.next s e).handed ≠ s.handed) :
    ∃ w u, UringResumed s e w u := by
  have hready (w : Waiter) (hfree : s.waiter = none) (hawait : (s.await w).handed ≠ s.handed) :
      ∃ w' u, UringResumed s (uringCall w) w' u := by
    by_cases hr : s.returnCheckedOut.Readable
    · exact ⟨w, _, .ready w hfree hr⟩
    · simp only [State.await, if_neg hr] at hawait
      exact absurd (uring_maybeResubmit _).2.2.1 hawait
  cases e with
  | submit | data | eof | failure => exact absurd rfl hmore
  | dispatch =>
    obtain ⟨c, cq, top⟩ := List.exists_cons_of_ne_nil he
    have ha := absorb_cases (s.popped c cq) c
    have hwaiter : ((s.popped c cq).absorb c).waiter = s.waiter := (absorbed_frame ha).1
    have hhanded : ((s.popped c cq).absorb c).handed = s.handed := (absorbed_spans ha).2.2.1
    simp only [EasyioUringRecvStream.next, top, onCqe_eq, State.handleCqe] at hmore
    by_cases hr : ((s.popped c cq).absorb c).Readable
    · cases hw : s.waiter with
      | none =>
        simp only [if_pos hr, State.resume, hwaiter, hw] at hmore
        exact absurd hhanded hmore
      | some w => exact ⟨w, _, .dispatched c cq w top hw hr⟩
    · rw [if_neg hr] at hmore
      exact absurd hhanded hmore
  | next => exact hready .next he hmore
  | nextBatch cap maxBytes => exact hready (.nextBatch cap maxBytes) he hmore

def spans (s : State) : List Pending := s.pending ++ s.posted

theorem uring_spans_awaitResume (h : Spans s.buf (spans s)) (w : Waiter) :
    Spans (s.awaitResume w).buf (spans (s.awaitResume w)) := by
  refine Source.awaitResume_invariant (T := State.source)
    (I := fun u => Spans u.buf (spans u)) (fun u p rest hu top => ?_) (fun _ hu => hu) h w
  have hpending : spans u = p :: (rest ++ u.posted) := congrArg (fun l => l ++ u.posted) top
  exact hu.mono fun q hq => hpending ▸ List.mem_cons_of_mem p hq

theorem uring_spans_absorb (h : Spans s.buf (spans s)) {c : Cqe} {cq : List Cqe}
    (top : s.cq = c :: cq) :
    Spans ((s.popped c cq).absorb c).buf (spans ((s.popped c cq).absorb c)) := by
  obtain ⟨hbuf, hposted, -, hpending⟩ := absorbed_spans (absorb_cases (s.popped c cq) c)
  have hall : s.posted = c.span.toList ++ (s.popped c cq).posted := posted_popped top
  rw [hbuf]
  refine h.mono fun p hp => ?_
  rcases List.mem_append.mp hp with hold | hlater
  · have hnow : p ∈ s.pending ++ c.span.toList := hpending p hold
    rw [spans, hall, ← List.append_assoc]
    exact List.mem_append_left _ hnow
  · rw [hposted] at hlater
    rw [spans, hall]
    exact List.mem_append_right _ (List.mem_append_right _ hlater)

theorem uring_spans_dispatch (h : Spans s.buf (spans s)) {c : Cqe} {cq : List Cqe}
    (top : s.cq = c :: cq) : Spans ((s.popped c cq).handleCqe c).buf
      (spans ((s.popped c cq).handleCqe c)) := by
  have habsorbed := uring_spans_absorb h top
  by_cases hr : ((s.popped c cq).absorb c).Readable
  · simp only [State.handleCqe, if_pos hr, State.resume]
    split
    · next w hw =>
      exact uring_spans_awaitResume
        (s := { (s.popped c cq).absorb c with waiter := none }) habsorbed w
    · exact habsorbed
  · simp only [State.handleCqe, if_neg hr]
    exact habsorbed

theorem uring_spans_returnCheckedOut (h : Spans s.buf (spans s)) :
    Spans s.returnCheckedOut.buf (spans s.returnCheckedOut) := by
  obtain ⟨hbuf, hposted, -, hpending⟩ :=
    uring_maybeResubmit { s with br := s.br ++ s.checkedOut, checkedOut := [], lent := [] }
  have hspans : spans s.returnCheckedOut = spans s := congr_arg₂ (· ++ ·) hpending hposted
  have hsame : s.returnCheckedOut.buf = s.buf := hbuf
  rw [hspans, hsame]
  exact h

theorem uring_spans_post {c : Cqe} (h : Spans s.buf (spans s ++ c.span.toList)) :
    Spans (s.post c).buf (spans (s.post c)) := by
  rw [spans, posted_post, ← List.append_assoc]
  exact h

theorem uring_spans_step (h : Spans s.buf (spans s)) (he : Enabled s e) :
    Spans (EasyioUringRecvStream.next s e).buf (spans (EasyioUringRecvStream.next s e)) := by
  have hawait (w : Waiter) : Spans (s.await w).buf (spans (s.await w)) := by
    have hreturned := uring_spans_returnCheckedOut h
    by_cases hr : s.returnCheckedOut.Readable
    · simp only [State.await, if_pos hr]
      exact uring_spans_awaitResume hreturned w
    · simp only [State.await, if_neg hr]
      exact hreturned
  cases e with
  | submit => exact h
  | data idx bytes more =>
    obtain ⟨-, -, -, hbytes, -⟩ := he
    exact uring_spans_post (s := s.fill idx bytes) (h.store idx hbytes)
  | eof more =>
    apply uring_spans_post (s := { s with closed := true })
    exact (List.append_nil (spans s)).symm ▸ h
  | failure err =>
    apply uring_spans_post
    exact (List.append_nil (spans s)).symm ▸ h
  | dispatch =>
    obtain ⟨c, cq, top⟩ := List.exists_cons_of_ne_nil he
    simp only [EasyioUringRecvStream.next, top, onCqe_eq]
    exact uring_spans_dispatch h top
  | next => exact hawait .next
  | nextBatch cap maxBytes => exact hawait (.nextBatch cap maxBytes)

theorem uring_resumed (h : Spans s.buf (spans s)) (hu : UringResumed s e w u) :
    uring.Filled u ∧ (uring.pending u ≠ [] ∨ uring.Over u) := by
  cases hu with
  | ready _ _ hr =>
    have hreturned := uring_spans_returnCheckedOut h
    exact ⟨fun p hp => hreturned.read (List.mem_append_left _ hp), hr⟩
  | dispatched c cq _ top _ hr =>
    have habsorbed := uring_spans_absorb h top
    exact ⟨fun p hp => habsorbed.read (List.mem_append_left _ hp), hr⟩

end Uring

/-- In the state `s` of a stream: where an awaiter resumes every batch agrees with `_take`, the
step of a `next_batch` call is that batch, and chunks are handed out nowhere else. -/
structure BatchesAgree {σ ε : Type*} (T : Stream σ) (M : System σ ε)
    (Resumed : σ → ε → Waiter → σ → Prop) (s : σ) : Prop where
  agrees : ∀ e w u, M.Enabled s e → Resumed s e w u → ∀ cap maxBytes, 0 < cap → 0 < maxBytes →
    T.Agrees cap maxBytes u
  step : ∀ e cap maxBytes u, Resumed s e (.nextBatch cap maxBytes) u →
    M.next s e = (T.takeBatch cap maxBytes u).2
  only : ∀ e, M.Enabled s e → T.handed (M.next s e) ≠ T.handed s → ∃ w u, Resumed s e w u

theorem libc_batches_agree {entrySize entries : ℕ} {buf : ℕ → List UInt8}
    {s : EasyioLibcRecvStream.State}
    (h : Reachable EasyioLibcRecvStream.machine
      (EasyioLibcRecvStream.initial entrySize entries buf) s) :
    BatchesAgree libc EasyioLibcRecvStream.machine LibcResumed s := by
  have hspans : Spans s.buf s.pending :=
    h.invariant (I := fun s => Spans s.buf s.pending) (by rintro p ⟨⟩)
      fun _ _ hu he _ => libc_spans_step hu he
  refine ⟨fun e w u he hu cap maxBytes hcap hmax => ?_, fun e cap maxBytes u hu => ?_,
    fun e he hmore => libc_handed he hmore⟩
  · obtain ⟨hfilled, hr⟩ := libc_resumed hspans he hu
    exact Stream.agrees hfilled hr hcap hmax
  · exact (libc_resumes hu).trans (libc.takeBatch_source u cap maxBytes)

theorem uring_batches_agree {entrySize entries : ℕ} {buf : ℕ → List UInt8}
    {s : EasyioUringRecvStream.State}
    (h : Reachable EasyioUringRecvStream.machine
      (EasyioUringRecvStream.initial entrySize entries buf) s) :
    BatchesAgree uring EasyioUringRecvStream.machine UringResumed s := by
  have hspans : Spans s.buf (spans s) :=
    h.invariant (I := fun s => Spans s.buf (spans s)) (by rintro p ⟨⟩)
      fun _ _ hu he _ => uring_spans_step hu he
  refine ⟨fun e w u _ hu cap maxBytes hcap hmax => ?_, fun e cap maxBytes u hu => ?_,
    fun e he hmore => uring_handed he hmore⟩
  · obtain ⟨hfilled, hr⟩ := uring_resumed hspans hu
    exact Stream.agrees hfilled hr hcap hmax
  · exact (uring_resumes hu).trans (uring.takeBatch_source u cap maxBytes)

theorem next_batch_agrees_with_next (entrySize entries : ℕ) (buf : ℕ → List UInt8) :
    (∀ s, Reachable EasyioLibcRecvStream.machine
        (EasyioLibcRecvStream.initial entrySize entries buf) s →
      BatchesAgree libc EasyioLibcRecvStream.machine LibcResumed s) ∧
    ∀ s, Reachable EasyioUringRecvStream.machine
        (EasyioUringRecvStream.initial entrySize entries buf) s →
      BatchesAgree uring EasyioUringRecvStream.machine UringResumed s :=
  ⟨fun _ h => libc_batches_agree h, fun _ h => uring_batches_agree h⟩

section Traces

def twoChunks : List EasyioLibcRecvStream.Event := [.onReady [.data [7], .data [8]]]

def oneChunk : List EasyioUringRecvStream.Event :=
  [.nextBatch 4 1, .submit, .data 0 [7] true]

theorem next_batch_agrees_up_to_the_limit :
    let s := runTrace EasyioLibcRecvStream.machine
      (EasyioLibcRecvStream.initial 1 2 fun _ => []) twoChunks
    let v := runTrace EasyioUringRecvStream.machine
      (EasyioUringRecvStream.initial 1 2 fun _ => []) oneChunk
    libc.Agrees 4 1 s.returnCheckedOut ∧
      (libc.takeBatch 4 1 s.returnCheckedOut).1 = [⟨[7], none⟩] ∧
      (EasyioUringRecvStream.machine.next v .dispatch).handed = [⟨[7], none⟩] := by
  intro s v
  obtain ⟨hlibc, huring⟩ := next_batch_agrees_with_next 1 2 fun _ => []
  have hs := hlibc s (reachable_of_trace twoChunks (by decide +kernel))
  have hv := huring v (reachable_of_trace oneChunk (by decide +kernel))
  have hresumed : LibcResumed s (.nextBatch 4 1) (.nextBatch 4 1) s.returnCheckedOut :=
    .ready (.nextBatch 4 1) (by decide +kernel) (by decide +kernel)
  have hdispatched := UringResumed.dispatched (s := v) ⟨.ok 1, true, some 0⟩ [] (.nextBatch 4 1)
    (by decide +kernel) (by decide +kernel) (by decide +kernel)
  refine ⟨hs.agrees _ _ _ (by decide +kernel) hresumed 4 1 (by decide) (by decide),
    by decide +kernel, ?_⟩
  have hbatch := hv.agrees _ _ _ (by decide +kernel) hdispatched 4 1 (by decide) (by decide)
  exact (congrArg uring.handed (hv.step _ _ _ _ hdispatched)).trans
    (hbatch.handed.trans (by decide +kernel))

end Traces

end EasyioNextBatch
