import Mathlib.Data.List.Basic

/-! `FramedReader` over a chunked stream. The reader only sees batches: the stream decides
where chunks are cut and how many have arrived at each `next_batch` call. -/
namespace EasyioFramedReader

inductive ReadError where
  | systemError (err : ℕ)
  | connectionClosed
  | outOfFuel
  deriving DecidableEq, Repr

/-- What a stream delivers after its last chunk. -/
inductive Ending where
  | eof
  | error (err : ℕ)
  deriving DecidableEq, Repr

def Ending.thrown : Ending → ReadError
  | .eof => .connectionClosed
  | .error err => .systemError err

/-- `arrived` says, one entry for each `next_batch` call to come, how many chunks beyond
the first have arrived when the call returns. -/
structure Stream where
  chunks : List (List UInt8)
  ending : Ending
  arrived : List ℕ
  deriving DecidableEq, Repr

def kBatchCapacity : ℕ := 64

/-- The loop of `_take_batch`: stop at `cap` chunks or once `maxBytes` is reached. -/
def takeBatch : ℕ → ℕ → List (List UInt8) → List (List UInt8) × List (List UInt8)
  | cap + 1, maxBytes, c :: chunks =>
    if maxBytes = 0 then ([], c :: chunks)
    else
      let r := takeBatch cap (maxBytes - c.length) chunks
      (c :: r.1, r.2)
  | _, _, chunks => ([], chunks)

def Stream.nextBatch (s : Stream) (maxBytes : ℕ) : List (List UInt8) × Stream :=
  let r := takeBatch (min kBatchCapacity (1 + s.arrived.headD 0)) maxBytes s.chunks
  (r.1, { s with chunks := r.2, arrived := s.arrived.tail })

structure FramedReader where
  buf : List UInt8
  consumed : ℕ
  deriving DecidableEq, Repr

namespace FramedReader

def initial : FramedReader := ⟨[], 0⟩

/-- The statements both read functions start with. -/
def eraseConsumed (r : FramedReader) : FramedReader := ⟨r.buf.drop r.consumed, 0⟩

def unread (r : FramedReader) : List UInt8 := r.buf.drop r.consumed

/-- `read_exact` for one batch of data chunks. -/
def insertBatch (r : FramedReader) (batch : List (List UInt8)) : FramedReader :=
  { r with buf := r.buf ++ batch.flatten }

/-- `read_exact`'s last two statements. -/
def returnExact (r : FramedReader) (n : ℕ) : List UInt8 × FramedReader :=
  (r.buf.take n, { r with consumed := n })

/-- `read_exact_into` before its loop: the leftover that goes to `dest`. -/
def takeLeftover (r : FramedReader) (n : ℕ) : List UInt8 × FramedReader :=
  (r.buf.take n, { r with consumed := min r.buf.length n })

/-- `read_exact_into` for one data chunk; `got` is what `dest` holds so far. -/
def copyChunk (n : ℕ) (got : List UInt8) (r : FramedReader) (chunk : List UInt8) :
    List UInt8 × FramedReader :=
  let take := min chunk.length (n - got.length)
  (got ++ chunk.take take, if take < chunk.length then ⟨chunk.drop take, 0⟩ else r)

def copyBatch (n : ℕ) (got : List UInt8) (r : FramedReader) (batch : List (List UInt8)) :
    List UInt8 × FramedReader :=
  batch.foldl (fun p chunk => copyChunk n p.1 p.2 chunk) (got, r)

end FramedReader

open FramedReader

def readExactLoop (n : ℕ) : ℕ → FramedReader → Stream → Except ReadError (FramedReader × Stream)
  | fuel, r, s =>
    if n ≤ r.buf.length then .ok (r, s)
    else if s.chunks = [] then .error s.ending.thrown
    else
      match fuel with
      | 0 => .error .outOfFuel
      | fuel + 1 =>
        let b := s.nextBatch (n - r.buf.length)
        readExactLoop n fuel (r.insertBatch b.1) b.2

/-- Every iteration takes at least one chunk, so their number is enough fuel. -/
def readExact (n : ℕ) (r : FramedReader) (s : Stream) :
    Except ReadError (List UInt8 × FramedReader × Stream) :=
  match readExactLoop n s.chunks.length r.eraseConsumed s with
  | .ok (r, s) => .ok ((r.returnExact n).1, (r.returnExact n).2, s)
  | .error e => .error e

def readExactIntoLoop (n : ℕ) :
    ℕ → List UInt8 → FramedReader → Stream → Except ReadError (List UInt8 × FramedReader × Stream)
  | fuel, got, r, s =>
    if n ≤ got.length then .ok (got, r, s)
    else if s.chunks = [] then .error s.ending.thrown
    else
      match fuel with
      | 0 => .error .outOfFuel
      | fuel + 1 =>
        let b := s.nextBatch (n - got.length)
        let p := copyBatch n got r b.1
        readExactIntoLoop n fuel p.1 p.2 b.2

def readExactInto (n : ℕ) (r : FramedReader) (s : Stream) :
    Except ReadError (List UInt8 × FramedReader × Stream) :=
  let p := r.eraseConsumed.takeLeftover n
  readExactIntoLoop n s.chunks.length p.1 p.2 s

/-- Chunks are never empty: an empty one is the end of the stream. -/
def Stream.WellFormed (s : Stream) : Prop := [] ∉ s.chunks

instance (s : Stream) : Decidable s.WellFormed := inferInstanceAs (Decidable (¬ _ ∈ _))

def remaining (r : FramedReader) (s : Stream) : List UInt8 := r.unread ++ s.chunks.flatten

/-- A batch is a nonempty run of chunks, and only its last chunk reaches the limit. -/
structure IsBatch (maxBytes : ℕ) (batch : List (List UInt8)) : Prop where
  nonempty : batch ≠ []
  data : [] ∉ batch
  capacity : batch.length ≤ kBatchCapacity
  limit : ∀ front last, batch = front ++ [last] → front.flatten.length < maxBytes

instance (maxBytes : ℕ) (batch : List (List UInt8)) : Decidable (IsBatch maxBytes batch) :=
  decidable_of_iff (batch ≠ [] ∧ [] ∉ batch ∧ batch.length ≤ kBatchCapacity ∧
      batch.dropLast.flatten.length < maxBytes) <| by
    constructor
    · rintro ⟨hne, hdata, hcap, hlimit⟩
      refine ⟨hne, hdata, hcap, ?_⟩
      rintro front last rfl
      simpa only [List.dropLast_concat] using hlimit
    · rintro ⟨hne, hdata, hcap, hlimit⟩
      exact ⟨hne, hdata, hcap, hlimit _ _ (List.dropLast_append_getLast hne).symm⟩

theorem IsBatch.flatten_pos {maxBytes : ℕ} {batch : List (List UInt8)}
    (h : IsBatch maxBytes batch) : 0 < batch.flatten.length := by
  obtain ⟨chunk, hchunk⟩ := List.exists_mem_of_ne_nil _ h.nonempty
  have hdata : chunk ≠ [] := fun hnil => h.data (hnil ▸ hchunk)
  have hle := (List.sublist_flatten_of_mem hchunk).length_le
  have hpos := List.length_pos_of_ne_nil hdata
  omega

theorem isBatch_single {maxBytes : ℕ} {chunk : List UInt8} (hpos : 0 < maxBytes)
    (hdata : chunk ≠ []) : IsBatch maxBytes [chunk] where
  nonempty := List.cons_ne_nil _ _
  data hm := hdata (List.mem_singleton.mp hm).symm
  capacity := by simp [kBatchCapacity]
  limit front last heq := by
    have hfront : front = [] := by
      have hlen := congrArg List.length heq
      simp only [List.length_append, List.length_cons, List.length_nil] at hlen
      exact List.eq_nil_of_length_eq_zero (by omega)
    simpa [hfront] using hpos

theorem takeBatch_append (cap maxBytes : ℕ) (chunks : List (List UInt8)) :
    (takeBatch cap maxBytes chunks).1 ++ (takeBatch cap maxBytes chunks).2 = chunks := by
  fun_induction takeBatch cap maxBytes chunks with
  | case1 => rfl
  | case2 cap maxBytes c chunks _ r ih => simpa using ih
  | case3 => rfl

theorem takeBatch_length (cap maxBytes : ℕ) (chunks : List (List UInt8)) :
    (takeBatch cap maxBytes chunks).1.length ≤ cap := by
  fun_induction takeBatch cap maxBytes chunks with
  | case1 => exact Nat.zero_le _
  | case2 cap maxBytes c chunks _ r ih => simpa using ih
  | case3 => exact Nat.zero_le _

theorem takeBatch_limit (cap maxBytes : ℕ) (chunks : List (List UInt8)) :
    ∀ front last, (takeBatch cap maxBytes chunks).1 = front ++ [last] →
      front.flatten.length < maxBytes := by
  fun_induction takeBatch cap maxBytes chunks with
  | case1 => simp
  | case2 cap maxBytes c chunks hmax r ih =>
    intro front last h
    cases front with
    | nil => simp only [List.flatten_nil, List.length_nil]; omega
    | cons d front =>
      obtain ⟨rfl, hr⟩ := List.cons.inj h
      have := ih front last hr
      rw [List.flatten_cons, List.length_append]
      omega
  | case3 => simp

theorem Stream.nextBatch_isBatch {s : Stream} (hs : s.WellFormed) (hne : s.chunks ≠ [])
    {maxBytes : ℕ} (hmax : 0 < maxBytes) : IsBatch maxBytes (s.nextBatch maxBytes).1 where
  nonempty := by
    obtain ⟨c, chunks, hc⟩ := List.exists_cons_of_ne_nil hne
    have hcap : min kBatchCapacity (1 + s.arrived.headD 0) =
        min 63 (s.arrived.headD 0) + 1 := by simp only [kBatchCapacity]; omega
    simp only [nextBatch, hc, hcap, takeBatch]
    rw [if_neg (by omega)]
    exact List.cons_ne_nil _ _
  data := fun hm => hs (by
    rw [← takeBatch_append _ _ s.chunks]
    exact List.mem_append_left _ hm)
  capacity := Nat.le_trans (takeBatch_length _ _ _) (Nat.min_le_left _ _)
  limit := takeBatch_limit _ _ _

theorem Stream.nextBatch_chunks (s : Stream) (maxBytes : ℕ) :
    (s.nextBatch maxBytes).1 ++ (s.nextBatch maxBytes).2.chunks = s.chunks :=
  takeBatch_append _ _ _

/-- Every batch takes a chunk, which bounds the reader's loop. -/
theorem Stream.nextBatch_shorter {s : Stream} (hs : s.WellFormed) (hne : s.chunks ≠ [])
    {maxBytes : ℕ} (hmax : 0 < maxBytes) :
    (s.nextBatch maxBytes).2.chunks.length < s.chunks.length := by
  have hpos := List.length_pos_of_ne_nil (s.nextBatch_isBatch hs hne hmax).nonempty
  have hchunks := congrArg List.length (s.nextBatch_chunks maxBytes)
  rw [List.length_append] at hchunks
  omega

theorem Stream.WellFormed.nextBatch {s : Stream} (hs : s.WellFormed) (maxBytes : ℕ) :
    (s.nextBatch maxBytes).2.WellFormed := fun hm => hs (by
  rw [← s.nextBatch_chunks maxBytes]
  exact List.mem_append_right _ hm)

@[simp] theorem unread_eraseConsumed (r : FramedReader) : r.eraseConsumed.unread = r.unread := rfl

@[simp] theorem buf_eraseConsumed (r : FramedReader) : r.eraseConsumed.buf = r.unread := rfl

theorem unread_returnExact (r : FramedReader) (n : ℕ) :
    (r.returnExact n).1 ++ (r.returnExact n).2.unread = r.buf := List.take_append_drop n r.buf

theorem unread_takeLeftover (r : FramedReader) (n : ℕ) :
    (r.takeLeftover n).1 ++ (r.takeLeftover n).2.unread = r.buf := by
  have h : (r.takeLeftover n).2.unread = r.buf.drop n := by
    simp only [takeLeftover, unread]
    rcases Nat.le_total r.buf.length n with hl | hl
    · rw [Nat.min_eq_left hl, List.drop_of_length_le (Nat.le_refl _), List.drop_of_length_le hl]
    · rw [Nat.min_eq_right hl]
  rw [h]
  exact List.take_append_drop n r.buf

/-- Invariant of `read_exact_into`'s loop: while `dest` still lacks bytes, every byte of
`_buf` has been handed over. -/
structure Copying (n : ℕ) (got : List UInt8) (r : FramedReader) : Prop where
  within : got.length ≤ n
  drained : got.length < n → r.unread = []

theorem copying_takeLeftover (r : FramedReader) (n : ℕ) :
    Copying n (r.takeLeftover n).1 (r.takeLeftover n).2 where
  within := List.length_take_le n r.buf
  drained := by
    intro h
    simp only [takeLeftover, List.length_take] at h
    simp only [takeLeftover, unread, List.drop_eq_nil_iff]
    omega

/-- A chunk met while bytes are missing goes to `dest`, its overshoot to `_buf`. -/
theorem copyChunk_spec {n : ℕ} {got : List UInt8} {r : FramedReader} (h : Copying n got r)
    (hlt : got.length < n) (chunk : List UInt8) :
    Copying n (copyChunk n got r chunk).1 (copyChunk n got r chunk).2 ∧
      (copyChunk n got r chunk).1 ++ (copyChunk n got r chunk).2.unread = got ++ chunk ∧
      (copyChunk n got r chunk).1.length = min n (got.length + chunk.length) := by
  have hdrained := h.drained hlt
  by_cases hover : n - got.length < chunk.length
  · have htake : min chunk.length (n - got.length) = n - got.length := by omega
    simp only [copyChunk, htake, if_pos hover]
    refine ⟨⟨?_, ?_⟩, ?_, ?_⟩
    · simp only [List.length_append, List.length_take]; omega
    · intro hl
      simp only [List.length_append, List.length_take] at hl
      omega
    · simp [unread]
    · simp only [List.length_append, List.length_take]; omega
  · have htake : min chunk.length (n - got.length) = chunk.length := by omega
    simp only [copyChunk, htake, Nat.lt_irrefl, if_false, List.take_length]
    refine ⟨⟨?_, fun _ => hdrained⟩, by rw [hdrained, List.append_nil], ?_⟩
    · rw [List.length_append]; omega
    · rw [List.length_append]; omega

/-- A whole batch: only its last chunk can fill `dest`, so no chunk meets a full `dest`. -/
theorem copyBatch_spec {n : ℕ} {got : List UInt8} {r : FramedReader} (h : Copying n got r)
    {batch : List (List UInt8)}
    (hlimit : ∀ front last, batch = front ++ [last] → got.length + front.flatten.length < n) :
    Copying n (copyBatch n got r batch).1 (copyBatch n got r batch).2 ∧
      (copyBatch n got r batch).1 ++ (copyBatch n got r batch).2.unread =
        got ++ r.unread ++ batch.flatten := by
  induction batch generalizing got r with
  | nil => exact ⟨h, by simp [copyBatch]⟩
  | cons c batch ih =>
    have hlt : got.length < n := by
      obtain ⟨front, last, hb⟩ := List.eq_nil_or_concat (c :: batch) |>.resolve_left (by simp)
      rw [List.concat_eq_append] at hb
      have := hlimit front last hb
      omega
    obtain ⟨hcopy, hbytes, hlen⟩ := copyChunk_spec h hlt c
    have hdrained := h.drained hlt
    have hstep : copyBatch n got r (c :: batch) =
        copyBatch n (copyChunk n got r c).1 (copyChunk n got r c).2 batch := rfl
    have hnext := ih hcopy (by
      intro front last hb
      have := hlimit (c :: front) last (by rw [hb, List.cons_append])
      rw [List.flatten_cons, List.length_append] at this
      omega)
    rw [hstep]
    refine ⟨hnext.1, ?_⟩
    rw [hnext.2, hbytes, hdrained, List.flatten_cons]
    simp

def Within (r : FramedReader) : Prop := r.consumed ≤ r.buf.length

theorem Within.eraseConsumed (r : FramedReader) : Within r.eraseConsumed := Nat.zero_le _

theorem Within.insertBatch {r : FramedReader} (h : Within r) (batch : List (List UInt8)) :
    Within (r.insertBatch batch) := by
  simp only [Within, FramedReader.insertBatch, List.length_append] at h ⊢
  omega

theorem Within.takeLeftover (r : FramedReader) (n : ℕ) : Within (r.takeLeftover n).2 :=
  Nat.min_le_left _ _

theorem Within.copyBatch {n : ℕ} {got : List UInt8} {r : FramedReader} (h : Within r)
    (batch : List (List UInt8)) : Within (copyBatch n got r batch).2 := by
  induction batch generalizing got r with
  | nil => exact h
  | cons c batch ih =>
    apply ih
    by_cases hover : min c.length (n - got.length) < c.length
    · simp only [if_pos hover]
      exact Nat.zero_le _
    · simp only [if_neg hover]
      exact h

theorem unread_insertBatch {r : FramedReader} (h : Within r) (batch : List (List UInt8)) :
    (r.insertBatch batch).unread = r.unread ++ batch.flatten := by
  simp only [unread, insertBatch]
  exact List.drop_append_of_le_length h

section Loops

variable {n : ℕ}

theorem readExactLoop_spec {fuel : ℕ} {r : FramedReader} {s : Stream} (hr : r.consumed = 0)
    (hs : s.WellFormed) (hf : s.chunks.length ≤ fuel) :
    if n ≤ (remaining r s).length then
      ∃ r' s', readExactLoop n fuel r s = .ok (r', s') ∧ s'.WellFormed ∧
        s'.ending = s.ending ∧ r'.consumed = 0 ∧ n ≤ r'.buf.length ∧
        remaining r' s' = remaining r s
    else readExactLoop n fuel r s = .error s.ending.thrown := by
  induction fuel generalizing r s with
  | zero =>
    have hc : s.chunks = [] := List.length_eq_zero_iff.mp (by omega)
    have hrem : (remaining r s).length = r.buf.length := by simp [remaining, unread, hr, hc]
    rw [hrem]
    split
    · next hn => exact ⟨r, s, by simp [readExactLoop, hn], hs, rfl, hr, hn, rfl⟩
    · next hn => simp [readExactLoop, hn, hc]
  | succ fuel ih =>
    by_cases hn : n ≤ r.buf.length
    · have hle : n ≤ (remaining r s).length := by
        simp only [remaining, unread, hr, List.drop_zero, List.length_append]; omega
      rw [if_pos hle]
      exact ⟨r, s, by simp [readExactLoop, hn], hs, rfl, hr, hn, rfl⟩
    · by_cases hc : s.chunks = []
      · have hrem : (remaining r s).length = r.buf.length := by simp [remaining, unread, hr, hc]
        rw [hrem, if_neg hn]
        simp [readExactLoop, hn, hc]
      · let b := s.nextBatch (n - r.buf.length)
        have hchunks : b.1 ++ b.2.chunks = s.chunks := s.nextBatch_chunks _
        have hlen : b.2.chunks.length ≤ fuel := by
          have hshorter : b.2.chunks.length < s.chunks.length :=
            s.nextBatch_shorter hs hc (by omega)
          omega
        have hrem : remaining (r.insertBatch b.1) b.2 = remaining r s := by
          simp only [remaining, unread, insertBatch, hr, List.drop_zero, ← hchunks,
            List.flatten_append, List.append_assoc]
        have hstep : readExactLoop n (fuel + 1) r s =
            readExactLoop n fuel (r.insertBatch b.1) b.2 := by
          rw [readExactLoop, if_neg hn, if_neg hc]
        rw [hstep, ← hrem]
        exact ih (by simpa [insertBatch] using hr) (hs.nextBatch _) hlen

theorem readExactIntoLoop_spec {fuel : ℕ} {got : List UInt8} {r : FramedReader} {s : Stream}
    (h : Copying n got r) (hs : s.WellFormed) (hf : s.chunks.length ≤ fuel) :
    if n ≤ (got ++ remaining r s).length then
      ∃ got' r' s', readExactIntoLoop n fuel got r s = .ok (got', r', s') ∧ s'.WellFormed ∧
        s'.ending = s.ending ∧ got'.length = n ∧ got' ++ remaining r' s' = got ++ remaining r s
    else readExactIntoLoop n fuel got r s = .error s.ending.thrown := by
  induction fuel generalizing got r s with
  | zero =>
    have hc : s.chunks = [] := List.length_eq_zero_iff.mp (by omega)
    by_cases hn : n ≤ got.length
    · rw [if_pos (by rw [List.length_append]; omega)]
      exact ⟨got, r, s, by simp [readExactIntoLoop, hn], hs, rfl,
        Nat.le_antisymm h.within hn, rfl⟩
    · have hdrained := h.drained (by omega)
      have hrem : (got ++ remaining r s).length = got.length := by simp [remaining, hdrained, hc]
      rw [hrem, if_neg hn]
      simp [readExactIntoLoop, hn, hc]
  | succ fuel ih =>
    by_cases hn : n ≤ got.length
    · rw [if_pos (by rw [List.length_append]; omega)]
      exact ⟨got, r, s, by simp [readExactIntoLoop, hn], hs, rfl,
        Nat.le_antisymm h.within hn, rfl⟩
    · have hdrained := h.drained (by omega)
      by_cases hc : s.chunks = []
      · have hrem : (got ++ remaining r s).length = got.length := by
          simp [remaining, hdrained, hc]
        rw [hrem, if_neg hn]
        simp [readExactIntoLoop, hn, hc]
      · let b := s.nextBatch (n - got.length)
        have hb : IsBatch (n - got.length) b.1 := s.nextBatch_isBatch hs hc (by omega)
        have hchunks : b.1 ++ b.2.chunks = s.chunks := s.nextBatch_chunks _
        have hlen : b.2.chunks.length ≤ fuel := by
          have hshorter : b.2.chunks.length < s.chunks.length :=
            s.nextBatch_shorter hs hc (by omega)
          omega
        have hlimit (front : List (List UInt8)) (last : List UInt8)
            (hfl : b.1 = front ++ [last]) : got.length + front.flatten.length < n := by
          have := hb.limit front last hfl
          omega
        obtain ⟨hcopy, hbytes⟩ := copyBatch_spec h hlimit
        have hrem : (copyBatch n got r b.1).1 ++ remaining (copyBatch n got r b.1).2 b.2 =
            got ++ remaining r s := by
          rw [remaining, ← List.append_assoc, hbytes, remaining, ← hchunks, List.flatten_append]
          simp only [List.append_assoc]
        have hstep : readExactIntoLoop n (fuel + 1) got r s =
            readExactIntoLoop n fuel (copyBatch n got r b.1).1 (copyBatch n got r b.1).2 b.2 := by
          rw [readExactIntoLoop, if_neg hn, if_neg hc]
        rw [hstep, ← hrem]
        exact ih hcopy (hs.nextBatch _) hlen

end Loops

/-- `read_exact` hands out the next `n` bytes of the stream, or throws what ends it. -/
theorem readExact_spec (n : ℕ) (r : FramedReader) {s : Stream} (hs : s.WellFormed) :
    if n ≤ (remaining r s).length then
      ∃ r' s', readExact n r s = .ok ((remaining r s).take n, r', s') ∧ s'.WellFormed ∧
        s'.ending = s.ending ∧ remaining r' s' = (remaining r s).drop n
    else readExact n r s = .error s.ending.thrown := by
  have h := readExactLoop_spec (n := n) (r := r.eraseConsumed) rfl hs (Nat.le_refl _)
  rw [show remaining r.eraseConsumed s = remaining r s from rfl] at h
  split
  · next hn =>
    rw [if_pos hn] at h
    obtain ⟨r', s', hrun, hs', hend, hr', hlen, hrem⟩ := h
    have hrem' : r'.buf ++ s'.chunks.flatten = remaining r s := by
      rw [← hrem]; simp [remaining, unread, hr']
    refine ⟨(r'.returnExact n).2, s', ?_, hs', hend, ?_⟩
    · rw [readExact, hrun, ← hrem', List.take_append_of_le_length hlen]; rfl
    · rw [← hrem', List.drop_append_of_le_length hlen]; rfl
  · next hn =>
    rw [if_neg hn] at h
    simp only [readExact, h]

theorem readExactInto_spec (n : ℕ) (r : FramedReader) {s : Stream} (hs : s.WellFormed) :
    if n ≤ (remaining r s).length then
      ∃ r' s', readExactInto n r s = .ok ((remaining r s).take n, r', s') ∧ s'.WellFormed ∧
        s'.ending = s.ending ∧ remaining r' s' = (remaining r s).drop n
    else readExactInto n r s = .error s.ending.thrown := by
  have h := readExactIntoLoop_spec (copying_takeLeftover r.eraseConsumed n) hs (Nat.le_refl _)
  have hrem : (r.eraseConsumed.takeLeftover n).1 ++
      remaining (r.eraseConsumed.takeLeftover n).2 s = remaining r s := by
    rw [remaining, ← List.append_assoc, unread_takeLeftover]; rfl
  rw [hrem] at h
  split
  · next hn =>
    rw [if_pos hn] at h
    obtain ⟨got, r', s', hrun, hs', hend, hlen, hbytes⟩ := h
    refine ⟨r', s', ?_, hs', hend, ?_⟩
    · rw [readExactInto, hrun, ← hbytes, List.take_left' hlen]
    · rw [← hbytes, List.drop_left' hlen]
  · next hn =>
    rw [if_neg hn] at h
    exact h

section Events

variable {ε : Type*}

class Receives (ε : Type*) where
  batch : ε → Option (List (List UInt8))

def arriving [Receives ε] (e : ε) : List UInt8 := ((Receives.batch e).getD []).flatten

end Events

end EasyioFramedReader
