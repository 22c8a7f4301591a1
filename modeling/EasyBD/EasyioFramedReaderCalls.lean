import EasyBD.EasyioFramedReader

/-! A `FramedReader` over a whole sequence of `read_exact` and `read_exact_into` calls, up to
the first one that throws. -/
namespace EasyioFramedReaderCalls

open EasyioFramedReader FramedReader

/-- Any batch that keeps to the limits may be what has arrived. -/
theorem nextBatch_of_isBatch {maxBytes : ℕ} {batch rest : List (List UInt8)}
    (hb : IsBatch maxBytes batch) (ending : Ending) (arrived : List ℕ) :
    Stream.nextBatch ⟨batch ++ rest, ending, (batch.length - 1) :: arrived⟩ maxBytes =
      (batch, ⟨rest, ending, arrived⟩) := by
  have htake (m : ℕ) (front : List (List UInt8)) (hlimit : ∀ before last,
      front = before ++ [last] → before.flatten.length < m) :
      takeBatch front.length m (front ++ rest) = (front, rest) := by
    induction front generalizing m with
    | nil => rfl
    | cons c front ih =>
      have hm : m ≠ 0 := by
        obtain ⟨before, last, hsplit⟩ :=
          (List.eq_nil_or_concat (c :: front)).resolve_left (List.cons_ne_nil _ _)
        rw [List.concat_eq_append] at hsplit
        have hlt := hlimit before last hsplit
        omega
      have hnext := ih (m - c.length) fun before last hsplit => by
        have hlt := hlimit (c :: before) last (by rw [hsplit, List.cons_append])
        rw [List.flatten_cons, List.length_append] at hlt
        omega
      rw [List.length_cons, List.cons_append, takeBatch, if_neg hm, hnext]
  have hcap : min kBatchCapacity (1 + (batch.length - 1)) = batch.length := by
    have hpos := List.length_pos_of_ne_nil hb.nonempty
    have hle := hb.capacity
    omega
  simp only [Stream.nextBatch, List.headD_cons, List.tail_cons, hcap, htake _ _ hb.limit]

inductive Call where
  | readExact (n : ℕ)
  | readExactInto (n : ℕ)
  deriving DecidableEq, Repr

def Call.size : Call → ℕ
  | .readExact n | .readExactInto n => n

def Call.run : Call → FramedReader → Stream → Except ReadError (List UInt8 × FramedReader × Stream)
  | .readExact n => EasyioFramedReader.readExact n
  | .readExactInto n => EasyioFramedReader.readExactInto n

/-- The calls one after the other; nothing is called after an exception. -/
def runCalls : List Call → FramedReader → Stream →
    Except ReadError (List (List UInt8) × FramedReader × Stream)
  | [], r, s => .ok ([], r, s)
  | c :: calls, r, s =>
    match c.run r s with
    | .error e => .error e
    | .ok (bytes, r, s) =>
      match runCalls calls r s with
      | .error e => .error e
      | .ok (results, r, s) => .ok (bytes :: results, r, s)

def demand : List Call → ℕ
  | [] => 0
  | c :: calls => c.size + demand calls

@[simp] theorem demand_nil : demand [] = 0 := rfl

@[simp] theorem demand_cons (c : Call) (calls : List Call) :
    demand (c :: calls) = c.size + demand calls := rfl

/-- What the calls should return: the stream cut at their sizes. -/
def cut : List Call → List UInt8 → List (List UInt8)
  | [], _ => []
  | c :: calls, bytes => bytes.take c.size :: cut calls (bytes.drop c.size)

@[simp] theorem cut_length (calls : List Call) (bytes : List UInt8) :
    (cut calls bytes).length = calls.length := by
  induction calls generalizing bytes with
  | nil => rfl
  | cons c calls ih => simp [cut, ih]

theorem cut_get (calls : List Call) (bytes : List UInt8) {i : ℕ} {c : Call}
    (hi : calls[i]? = some c) :
    (cut calls bytes)[i]? = some ((bytes.drop (demand (calls.take i))).take c.size) := by
  induction calls generalizing bytes i with
  | nil => cases hi
  | cons d calls ih =>
    cases i with
    | zero =>
      obtain rfl := Option.some.inj hi
      rfl
    | succ i =>
      rw [cut, List.getElem?_cons_succ, ih (bytes.drop d.size) (by simpa using hi),
        List.take_succ_cons, demand_cons, List.drop_drop]

section Suffix

variable {n : ℕ} {r r' : FramedReader} {s s' : Stream}

theorem nextBatch_suffix (s : Stream) (maxBytes : ℕ) :
    (s.nextBatch maxBytes).2.chunks <:+ s.chunks := ⟨_, s.nextBatch_chunks maxBytes⟩

theorem readExactLoop_suffix {fuel : ℕ} (h : readExactLoop n fuel r s = .ok (r', s')) :
    s'.chunks <:+ s.chunks := by
  induction fuel generalizing r s with
  | zero =>
    unfold readExactLoop at h
    split at h
    · cases h
      exact List.suffix_rfl
    · split at h <;> cases h
  | succ fuel ih =>
    unfold readExactLoop at h
    split at h
    · cases h
      exact List.suffix_rfl
    · split at h
      · cases h
      · exact (ih h).trans (nextBatch_suffix s _)

theorem readExactIntoLoop_suffix {fuel : ℕ} {got got' : List UInt8}
    (h : readExactIntoLoop n fuel got r s = .ok (got', r', s')) : s'.chunks <:+ s.chunks := by
  induction fuel generalizing got r s with
  | zero =>
    unfold readExactIntoLoop at h
    split at h
    · cases h
      exact List.suffix_rfl
    · split at h <;> cases h
  | succ fuel ih =>
    unfold readExactIntoLoop at h
    split at h
    · cases h
      exact List.suffix_rfl
    · split at h
      · cases h
      · exact (ih h).trans (nextBatch_suffix s _)

theorem Call.run_suffix {c : Call} {bytes : List UInt8} (h : c.run r s = .ok (bytes, r', s')) :
    s'.chunks <:+ s.chunks := by
  cases c with
  | readExact n =>
    simp only [Call.run, EasyioFramedReader.readExact] at h
    split at h
    · next hloop =>
      cases h
      exact readExactLoop_suffix hloop
    · cases h
  | readExactInto n => exact readExactIntoLoop_suffix h

end Suffix

theorem Call.run_spec (c : Call) (r : FramedReader) {s : Stream} (hs : s.WellFormed) :
    if c.size ≤ (remaining r s).length then
      ∃ r' s', c.run r s = .ok ((remaining r s).take c.size, r', s') ∧ s'.WellFormed ∧
        s'.ending = s.ending ∧ remaining r' s' = (remaining r s).drop c.size
    else c.run r s = .error s.ending.thrown := by
  cases c with
  | readExact n => exact readExact_spec n r hs
  | readExactInto n => exact readExactInto_spec n r hs

theorem runCalls_spec (calls : List Call) (r : FramedReader) {s : Stream} (hs : s.WellFormed)
    (henough : demand calls ≤ (remaining r s).length) :
    ∃ r' s', runCalls calls r s = .ok (cut calls (remaining r s), r', s') ∧ s'.WellFormed ∧
      s'.ending = s.ending ∧ s'.chunks <:+ s.chunks ∧
      remaining r' s' = (remaining r s).drop (demand calls) := by
  induction calls generalizing r s with
  | nil => exact ⟨r, s, rfl, hs, rfl, List.suffix_rfl, rfl⟩
  | cons c calls ih =>
    rw [demand_cons] at henough
    have hrun := c.run_spec r hs
    rw [if_pos (by omega)] at hrun
    obtain ⟨r₁, s₁, hrun, hs₁, hending₁, hrest₁⟩ := hrun
    obtain ⟨r₂, s₂, hcalls, hs₂, hending₂, hsuffix, hrest₂⟩ := ih r₁ hs₁ (by
      rw [hrest₁, List.length_drop]
      omega)
    refine ⟨r₂, s₂, ?_, hs₂, hending₂.trans hending₁, hsuffix.trans (Call.run_suffix hrun), ?_⟩
    · rw [runCalls, hrun]
      simp only [hcalls, hrest₁, cut]
    · rw [hrest₂, hrest₁, List.drop_drop, demand_cons]

theorem first_unsatisfied (calls : List Call) {total : ℕ} (h : total < demand calls) :
    ∃ before c after, calls = before ++ c :: after ∧ demand before ≤ total ∧
      total < demand before + c.size := by
  induction calls generalizing total with
  | nil => exact absurd h (Nat.not_lt_zero _)
  | cons c calls ih =>
    rw [demand_cons] at h
    by_cases hc : total < c.size
    · exact ⟨[], c, calls, rfl, Nat.zero_le _, by simpa using hc⟩
    · have hrest : total - c.size < demand calls := by omega
      obtain ⟨before, d, after, rfl, hle, hlt⟩ := ih hrest
      refine ⟨c :: before, d, after, rfl, ?_, ?_⟩
      · rw [demand_cons]
        omega
      · rw [demand_cons]
        omega

theorem runCalls_append_error {before : List Call} {c : Call} {after : List Call}
    {r r' : FramedReader} {s s' : Stream} {results : List (List UInt8)} {e : ReadError}
    (hbefore : runCalls before r s = .ok (results, r', s')) (hc : c.run r' s' = .error e) :
    runCalls (before ++ c :: after) r s = .error e := by
  induction before generalizing r s results with
  | nil =>
    cases hbefore
    rw [List.nil_append, runCalls, hc]
  | cons d before ih =>
    rw [runCalls] at hbefore
    rw [List.cons_append, runCalls]
    split at hbefore
    · cases hbefore
    · next hd =>
      split at hbefore
      · cases hbefore
      · next hrest =>
        cases hbefore
        simp only [ih hrest]

/-- After the calls: each has returned the bytes that follow those of the calls before it,
and `_buf` behind `_consumed` is what was received beyond them. -/
structure CutsExactly (calls : List Call) (s : Stream) (results : List (List UInt8))
    (r' : FramedReader) (s' : Stream) : Prop where
  count : results.length = calls.length
  results : ∀ i c, calls[i]? = some c → results[i]? =
    some ((s.chunks.flatten.drop (demand (calls.take i))).take c.size)
  leftover : ∃ received, s.chunks = received ++ s'.chunks ∧
    r'.buf.drop r'.consumed = received.flatten.drop (demand calls)

theorem leftover_of_remaining {r' : FramedReader} {s' : Stream} {received : List (List UInt8)}
    {n : ℕ} (henough : n ≤ (received ++ s'.chunks).flatten.length)
    (hrest : remaining r' s' = (received ++ s'.chunks).flatten.drop n) :
    r'.buf.drop r'.consumed = received.flatten.drop n := by
  rw [List.flatten_append] at henough hrest
  have hlen := congrArg List.length hrest
  simp only [remaining, List.length_append, List.length_drop] at henough hlen
  rw [List.drop_append_of_le_length (by omega), remaining] at hrest
  exact List.append_cancel_right hrest

theorem cutsExactly_of_enough {calls : List Call} {s : Stream} (hs : s.WellFormed)
    (henough : demand calls ≤ s.chunks.flatten.length) :
    ∃ results r' s', runCalls calls .initial s = .ok (results, r', s') ∧ s'.WellFormed ∧
      s'.ending = s.ending ∧ (remaining r' s').length = s.chunks.flatten.length - demand calls ∧
      CutsExactly calls s results r' s' := by
  have hrem : remaining .initial s = s.chunks.flatten := rfl
  obtain ⟨r', s', hrun, hs', hending, ⟨received, hchunks⟩, hrest⟩ :=
    runCalls_spec calls .initial hs henough
  rw [hrem] at hrun hrest
  refine ⟨_, r', s', hrun, hs', hending, by rw [hrest, List.length_drop], cut_length _ _,
    fun i c hi => cut_get calls _ hi, received, hchunks.symm, ?_⟩
  rw [← hchunks] at henough hrest
  exact leftover_of_remaining henough hrest

/-- As long as the stream is long enough every call returns its bytes. The first call for
which it is not throws what ends the stream. -/
theorem framed_reader_cuts_exactly (calls : List Call) {s : Stream} (hs : s.WellFormed) :
    if demand calls ≤ s.chunks.flatten.length then
      ∃ results r' s', runCalls calls .initial s = .ok (results, r', s') ∧
        CutsExactly calls s results r' s'
    else
      ∃ before c after, calls = before ++ c :: after ∧
        s.chunks.flatten.length < demand before + c.size ∧
        ∃ results r' s', runCalls before .initial s = .ok (results, r', s') ∧
          CutsExactly before s results r' s' ∧ c.run r' s' = .error s.ending.thrown ∧
          runCalls calls .initial s = .error s.ending.thrown := by
  by_cases henough : demand calls ≤ s.chunks.flatten.length
  · rw [if_pos henough]
    obtain ⟨results, r', s', hrun, -, -, -, hcuts⟩ := cutsExactly_of_enough hs henough
    exact ⟨results, r', s', hrun, hcuts⟩
  · rw [if_neg henough]
    obtain ⟨before, c, after, rfl, hle, hlt⟩ := first_unsatisfied calls (Nat.lt_of_not_le henough)
    obtain ⟨results, r', s', hrun, hs', hending, hlength, hcuts⟩ := cutsExactly_of_enough hs hle
    have hthrows := c.run_spec r' hs'
    rw [if_neg (by omega), hending] at hthrows
    exact ⟨before, c, after, rfl, hlt, results, r', s', hrun, hcuts, hthrows,
      runCalls_append_error hrun hthrows⟩

/-- Chunks of two, three and one bytes, the first two in one batch, then an error. -/
def brokenStream : Stream := ⟨[[1, 2], [3, 4, 5], [6]], .error 104, [1]⟩

theorem framed_reader_cuts_exactly_broken_stream :
    brokenStream.WellFormed ∧ demand [.readExact 4, .readExactInto 0, .readExactInto 3] = 7 ∧
      ∃ before c after, [.readExact 4, .readExactInto 0, .readExactInto 3] = before ++ c :: after ∧
        6 < demand before + c.size ∧
        ∃ results r' s', runCalls before .initial brokenStream = .ok (results, r', s') ∧
          CutsExactly before brokenStream results r' s' ∧
          c.run r' s' = .error (.systemError 104) ∧
          runCalls [.readExact 4, .readExactInto 0, .readExactInto 3] .initial brokenStream =
            .error (.systemError 104) := by
  have hs : brokenStream.WellFormed := by decide
  have h := framed_reader_cuts_exactly [.readExact 4, .readExactInto 0, .readExactInto 3] hs
  rw [if_neg (by decide)] at h
  exact ⟨hs, rfl, h⟩

example : runCalls [.readExact 3, .readExactInto 2] .initial brokenStream =
    .ok ([[1, 2, 3], [4, 5]], ⟨[4, 5], 2⟩, ⟨[[6]], .error 104, []⟩) := by decide

end EasyioFramedReaderCalls
