import EasyBD.EasyioQueue

/-! What the ring-based receive streams share: chunks, `_take` and `_take_batch`, and the order
in which received bytes are handed out. -/
namespace EasyioRecvStream

open EasyioQueue

structure Chunk where
  data : List UInt8
  error : Option Errno
  deriving DecidableEq

/-- `RecvStreamImpl::Pending`: an entry of the ring and how much of it is filled. -/
structure Pending where
  idx : ℕ
  len : ℕ
  deriving DecidableEq

/-- A chunk the reader may still use: the span it points to, and the bytes it had when it was
handed out. -/
structure Lent where
  span : Pending
  bytes : List UInt8
  deriving DecidableEq

inductive Waiter where
  | next
  | nextBatch (cap maxBytes : ℕ)
  deriving DecidableEq

/-- A call that leaves room for a chunk, as `FramedReader`'s do. -/
def Waiter.Asks : Waiter → Prop
  | .next => True
  | .nextBatch cap maxBytes => 0 < cap ∧ 0 < maxBytes

instance : (w : Waiter) → Decidable w.Asks
  | .next => isTrue trivial
  | .nextBatch cap maxBytes => inferInstanceAs (Decidable (0 < cap ∧ 0 < maxBytes))

/-- A backend's own part: what is in `_pending`, handing out its first chunk, and handing out
the chunk that ends the stream. -/
structure Source (σ : Type*) where
  pending : σ → List Pending
  handOut : σ → Pending → List Pending → σ
  handEnd : σ → σ

namespace Source

variable {σ : Type*}

def take (T : Source σ) (s : σ) : σ :=
  match T.pending s with
  | p :: pending => T.handOut s p pending
  | [] => T.handEnd s

/-- The loop of `_take_batch`, with what is left of its two limits; also its `count`. -/
def takeBatchLoop (T : Source σ) : ℕ → ℕ → ℕ → σ → σ × ℕ
  | cap + 1, budget, count, s =>
    match T.pending s with
    | p :: pending =>
      if budget = 0 then (s, count)
      else T.takeBatchLoop cap (budget - p.len) (count + 1) (T.handOut s p pending)
    | [] => (s, count)
  | 0, _, count, s => (s, count)

def takeBatch (T : Source σ) (s : σ) (cap maxBytes : ℕ) : σ :=
  let r := T.takeBatchLoop cap maxBytes 0 s
  if r.2 = 0 then T.handEnd r.1 else r.1

def awaitResume (T : Source σ) (s : σ) : Waiter → σ
  | .next => T.take s
  | .nextBatch cap maxBytes => T.takeBatch s cap maxBytes

/-- Both ways of handing out a chunk keep `I`; the end is handed out only when it is `Over`. -/
structure Keeps (T : Source σ) (Over I : σ → Prop) : Prop where
  handOut : ∀ s p pending, I s → T.pending s = p :: pending → I (T.handOut s p pending)
  handEnd : ∀ s, I s → Over s → T.pending s = [] → I (T.handEnd s)

/-- Handing out keeps `I` and touches neither the suspended reader nor the ring's size. -/
structure KeepsReader (T : Source σ) (Over I : σ → Prop) (waiter : σ → Option Waiter)
    (entries : σ → ℕ) : Prop extends T.Keeps Over I where
  out_frame : ∀ s p pending, waiter (T.handOut s p pending) = waiter s ∧
    entries (T.handOut s p pending) = entries s
  end_frame : ∀ s, waiter (T.handEnd s) = waiter s ∧ entries (T.handEnd s) = entries s

section Rules

variable {T : Source σ} {Over I : σ → Prop} {s : σ}

theorem takeBatchLoop_keeps (K : T.Keeps Over I) (h : I s) (cap budget count : ℕ) :
    I (T.takeBatchLoop cap budget count s).1 := by
  induction cap generalizing s budget count with
  | zero => exact h
  | succ cap ih =>
    simp only [takeBatchLoop]
    split
    · next p pending top =>
      by_cases hbudget : budget = 0
      · rw [if_pos hbudget]
        exact h
      · rw [if_neg hbudget]
        apply ih
        exact K.handOut s p pending h top
    · exact h

theorem le_takeBatchLoop_count (T : Source σ) (cap budget count : ℕ) (s : σ) :
    count ≤ (T.takeBatchLoop cap budget count s).2 := by
  induction cap generalizing s budget count with
  | zero => exact Nat.le_refl _
  | succ cap ih =>
    simp only [takeBatchLoop]
    split
    · by_cases hbudget : budget = 0
      · subst hbudget
        exact Nat.le_refl count
      · rw [if_neg hbudget]
        exact Nat.le_of_succ_le (ih _ _ _)
    · exact Nat.le_refl _

theorem takeBatchLoop_count_pos {cap budget : ℕ} (hcap : 0 < cap) (hbudget : 0 < budget)
    (hne : T.pending s ≠ []) : 0 < (T.takeBatchLoop cap budget 0 s).2 := by
  obtain ⟨cap, rfl⟩ := Nat.exists_eq_add_one_of_ne_zero (Nat.ne_of_gt hcap)
  obtain ⟨p, pending, top⟩ := List.exists_cons_of_ne_nil hne
  simp only [takeBatchLoop, top, if_neg (Nat.ne_of_gt hbudget)]
  exact le_takeBatchLoop_count _ _ _ _ _

theorem takeBatchLoop_of_empty (hempty : T.pending s = []) (cap budget count : ℕ) :
    T.takeBatchLoop cap budget count s = (s, count) := by
  cases cap with
  | zero => rfl
  | succ cap => simp only [takeBatchLoop, hempty]

/-- A call that asks for something is handed chunks while there are any, and then the end. -/
theorem awaitResume_keeps (K : T.Keeps Over I) (h : I s) (hr : T.pending s ≠ [] ∨ Over s)
    {w : Waiter} (hw : w.Asks) : I (T.awaitResume s w) := by
  by_cases hempty : T.pending s = []
  · have hend : I (T.handEnd s) := K.handEnd s h (hr.resolve_left fun hne => hne hempty) hempty
    cases w with
    | next => simpa only [awaitResume, take, hempty] using hend
    | nextBatch cap maxBytes =>
      simpa only [awaitResume, takeBatch, takeBatchLoop_of_empty hempty, if_true] using hend
  · cases w with
    | next =>
      obtain ⟨p, pending, top⟩ := List.exists_cons_of_ne_nil hempty
      simpa only [awaitResume, take, top] using K.handOut s p pending h top
    | nextBatch cap maxBytes =>
      have hpos := takeBatchLoop_count_pos hw.1 hw.2 hempty
      simp only [awaitResume, takeBatch, if_neg (Nat.ne_of_gt hpos)]
      exact takeBatchLoop_keeps K h cap maxBytes 0

theorem awaitResume_invariant
    (hout : ∀ s p pending, I s → T.pending s = p :: pending → I (T.handOut s p pending))
    (hend : ∀ s, I s → I (T.handEnd s)) (h : I s) (w : Waiter) : I (T.awaitResume s w) := by
  cases w with
  | next =>
    simp only [awaitResume, take]
    split
    · next p pending top => exact hout s p pending h top
    · exact hend s h
  | nextBatch cap maxBytes =>
    have K : T.Keeps (fun _ => True) I := ⟨hout, fun s hs _ _ => hend s hs⟩
    have hloop := takeBatchLoop_keeps K h cap maxBytes 0
    simp only [awaitResume, takeBatch]
    split
    · exact hend _ hloop
    · exact hloop

theorem KeepsReader.awaitResume {waiter : σ → Option Waiter} {entries : σ → ℕ}
    (K : T.KeepsReader Over I waiter entries) (h : I s) (hr : T.pending s ≠ [] ∨ Over s)
    {w : Waiter} (hw : w.Asks) : I (T.awaitResume s w) ∧
      waiter (T.awaitResume s w) = waiter s ∧ entries (T.awaitResume s w) = entries s := by
  refine ⟨awaitResume_keeps K.toKeeps h hr hw,
    awaitResume_invariant (I := fun u => waiter u = waiter s ∧ entries u = entries s)
      (fun u p pending hu _ => ?_) (fun u hu => ?_) ⟨rfl, rfl⟩ w⟩
  · obtain ⟨hwaiter, hentries⟩ := K.out_frame u p pending
    exact ⟨hwaiter.trans hu.1, hentries.trans hu.2⟩
  · obtain ⟨hwaiter, hentries⟩ := K.end_frame u
    exact ⟨hwaiter.trans hu.1, hentries.trans hu.2⟩

theorem takeBatchLoop_counts (handed : σ → ℕ)
    (hout : ∀ s p pending, handed (T.handOut s p pending) = handed s + 1)
    (cap budget count : ℕ) (s : σ) :
    handed (T.takeBatchLoop cap budget count s).1 + count =
      handed s + (T.takeBatchLoop cap budget count s).2 := by
  induction cap generalizing s budget count with
  | zero => rfl
  | succ cap ih =>
    simp only [takeBatchLoop]
    split
    · next p pending top =>
      by_cases hbudget : budget = 0
      · rw [if_pos hbudget]
      · rw [if_neg hbudget]
        have hrest := ih (budget - p.len) (count + 1) (T.handOut s p pending)
        rw [hout] at hrest
        omega
    · rfl

theorem awaitResume_hands (handed : σ → ℕ)
    (hout : ∀ s p pending, handed (T.handOut s p pending) = handed s + 1)
    (hend : ∀ s, handed (T.handEnd s) = handed s + 1) (s : σ) (w : Waiter) :
    handed s < handed (T.awaitResume s w) := by
  cases w with
  | next =>
    simp only [awaitResume, take]
    split
    · rw [hout]
      omega
    · rw [hend]
      omega
  | nextBatch cap maxBytes =>
    have hcount := takeBatchLoop_counts handed hout cap maxBytes 0 s
    simp only [awaitResume, takeBatch]
    split
    · rw [hend]
      omega
    · omega

end Rules

end Source

/-- The chunks handed out are the received ones in their order, and then reports of the end;
`waiting` has been received and not handed out. -/
structure InOrder (handed : List Chunk) (received waiting : List (List UInt8)) (lent : List Lent)
    (Ended : Chunk → Prop) (delivered : List (List UInt8)) (ends : List Chunk) : Prop where
  handed : handed = delivered.map (fun bytes => ⟨bytes, none⟩) ++ ends
  received : delivered ++ waiting = received
  lent : lent.map Lent.bytes <:+ delivered
  ends : ∀ c ∈ ends, Ended c

namespace InOrder

variable {handed : List Chunk} {received waiting : List (List UInt8)} {lent : List Lent}
  {Ended Ended' : Chunk → Prop} {delivered : List (List UInt8)} {ends : List Chunk}

theorem initial : InOrder [] [] [] [] Ended [] [] :=
  ⟨rfl, rfl, List.suffix_rfl, by rintro c ⟨⟩⟩

theorem no_ends (h : InOrder handed received waiting lent Ended delivered ends)
    (hopen : ∀ c, ¬ Ended c) : ends = [] := by
  by_contra hne
  obtain ⟨c, hc⟩ := List.exists_mem_of_ne_nil ends hne
  exact hopen c (h.ends c hc)

theorem mono (h : InOrder handed received waiting lent Ended delivered ends)
    (hsub : ∀ c, Ended c → Ended' c) :
    InOrder handed received waiting lent Ended' delivered ends :=
  ⟨h.handed, h.received, h.lent, fun c hc => hsub c (h.ends c hc)⟩

theorem receive (h : InOrder handed received waiting lent Ended delivered ends)
    (hopen : ∀ c, ¬ Ended c) (bytes : List UInt8) :
    InOrder handed (received ++ [bytes]) (waiting ++ [bytes]) lent Ended' delivered ends := by
  refine ⟨h.handed, ?_, h.lent, fun c hc => absurd (h.ends c hc) (hopen c)⟩
  rw [← List.append_assoc, h.received]

theorem handOut {bytes : List UInt8} {rest : List (List UInt8)}
    (h : InOrder handed received (bytes :: rest) lent Ended delivered ends)
    (hopen : ∀ c, ¬ Ended c) (p : Pending) :
    InOrder (handed ++ [⟨bytes, none⟩]) received rest (lent ++ [⟨p, bytes⟩]) Ended'
      (delivered ++ [bytes]) [] := by
  obtain ⟨earlier, hsuffix⟩ := h.lent
  refine ⟨?_, ?_, ⟨earlier, ?_⟩, by rintro c ⟨⟩⟩
  · simp [h.handed, h.no_ends hopen]
  · rw [← h.received, List.append_assoc, List.singleton_append]
  · simp [← hsuffix]

theorem handEnd (h : InOrder handed received waiting lent Ended delivered ends) {c : Chunk}
    (hc : Ended c) :
    InOrder (handed ++ [c]) received waiting lent Ended delivered (ends ++ [c]) := by
  refine ⟨?_, h.received, h.lent, fun c' hc' => ?_⟩
  · rw [h.handed, List.append_assoc]
  · rcases List.mem_append.mp hc' with hold | hnew
    · exact h.ends c' hold
    · exact List.mem_singleton.mp hnew ▸ hc

theorem mem_handed (h : InOrder handed received waiting lent Ended delivered ends)
    {c : Chunk} (hc : c ∈ handed) : c ∈ ends ∨ c.data ∈ delivered := by
  have hmem : c ∈ delivered.map (fun bytes => (⟨bytes, none⟩ : Chunk)) ++ ends := h.handed ▸ hc
  rcases List.mem_append.mp hmem with hdata | hend
  · obtain ⟨bytes, hbytes, rfl⟩ := List.mem_map.mp hdata
    exact Or.inr hbytes
  · exact Or.inl hend

theorem returned (h : InOrder handed received waiting lent Ended delivered ends) :
    InOrder handed received waiting [] Ended delivered ends :=
  ⟨h.handed, h.received, List.nil_suffix, h.ends⟩

end InOrder

end EasyioRecvStream
