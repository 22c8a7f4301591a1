import EasyBD.EasyioFramedReaderStreams
import EasyBD.EasyioSingleShotRecvStream
import EasyBD.EasyioNextBatch

/-! The three receive streams keep what `FramedReader` relies on, so it reads in order on each. -/
namespace EasyioFramedReaderBackends

open TransitionRuns EasyioQueue EasyioRecvStream EasyioFramedReader EasyioFramedReaderCalls
open EasyioFramedReaderStreams (Receiver Same Finished Hands Suspends Lawful Failure ReadsInOrder
  reads_in_order)

/-- Reports of the end carry no data, so what is in order accounts for every byte. -/
theorem flow_of_inOrder {handed : List Chunk} {received waiting delivered : List (List UInt8)}
    {lent : List Lent} {Ended : Chunk → Prop} {ends : List Chunk}
    (h : InOrder handed received waiting lent Ended delivered ends)
    (hends : ∀ c, Ended c → c.data = []) :
    handed.flatMap Chunk.data ++ waiting.flatten = received.flatten := by
  have hnone : ends.flatMap Chunk.data = [] :=
    List.flatMap_eq_nil_iff.mpr fun c hc => hends c (h.ends c hc)
  rw [h.handed, ← h.received, List.flatMap_append, hnone, List.flatMap_map, List.append_nil,
    List.flatten_append]
  simp

section Batches

open EasyioNextBatch

variable {σ ε : Type*} {R : Receiver σ ε} {T : EasyioNextBatch.Stream σ}

/-- The receiver and the stream it takes its chunks from. -/
structure Lends (R : Receiver σ ε) (T : EasyioNextBatch.Stream σ) : Prop where
  handed : ∀ s, R.handed s = T.handed s
  handOut : ∀ s p rest, R.lent (T.handOut s p rest) = R.lent s ++ [⟨p, T.read s p⟩]
  handEnd : ∀ s, R.lent (T.handEnd s) = R.lent s

theorem lent_takeAgain (L : Lends R T) {u : σ} (hnone : R.lent u = []) (cap maxBytes : ℕ) :
    (T.takeAgain maxBytes cap [] u).1 =
      (R.lent (T.takeAgain maxBytes cap [] u).2).map fun l => ⟨l.bytes, none⟩ := by
  apply EasyioNextBatch.Stream.takeAgain_keeps
    (I := fun out v => out = (R.lent v).map fun l => ⟨l.bytes, none⟩)
  · intro out v p rest hout _ _
    rw [L.handOut, List.map_append, ← hout]
    rfl
  · rw [hnone, List.map_nil]

theorem hands_takeBatch (L : Lends R T) {s u : σ} (hfilled : T.Filled u) (hnone : R.lent u = [])
    (hhanded : R.handed u = R.handed s) (hr : T.pending u ≠ [] ∨ T.Over u)
    (hfin : T.pending u = [] → Finished R (T.handEnd u)) {cap maxBytes : ℕ} (hcap : 0 < cap)
    (hmax : 0 < maxBytes) (hwaiter : R.waiter (T.takeBatch cap maxBytes u).2 = none) :
    Hands R maxBytes s (T.takeBatch cap maxBytes u).2 := by
  have hagrees := EasyioNextBatch.Stream.agrees hfilled hr hcap hmax
  have hmore := hagrees.handed
  rw [← L.handed, ← L.handed, hhanded] at hmore
  by_cases hempty : T.pending u = []
  · have hbatch := EasyioNextBatch.Stream.takeBatch_of_empty hempty cap maxBytes
    rw [hbatch] at hmore hwaiter ⊢
    exact .ended _ hwaiter ((L.handEnd u).trans hnone) hmore (hfin hempty)
  · have hbatch := EasyioNextBatch.Stream.takeBatch_of_pending hfilled hcap hmax hempty
    have hlent := lent_takeAgain L hnone cap maxBytes
    rw [← hbatch] at hlent
    refine .data hwaiter (fun hnil => ?_) (hlent ▸ hmore) (fun l hl hnil => ?_) ?_
    · rw [hnil, List.map_nil] at hlent
      exact hagrees.nonempty hlent
    · have hmem : (⟨l.bytes, none⟩ : Chunk) ∈ (T.takeBatch cap maxBytes u).1 :=
        hlent ▸ List.mem_map_of_mem hl
      exact hempty (hagrees.alone _ hmem (.inl hnil)).2.1
    · have hlimit := hagrees.limit
      rw [hlent, ← List.map_dropLast, EasyioNextBatch.size, List.flatMap_map] at hlimit
      exact hlimit

end Batches

section Libc

open EasyioLibcRecvStream EasyioNextBatch

def libcReceiver : Receiver EasyioLibcRecvStream.State EasyioLibcRecvStream.Event where
  machine := EasyioLibcRecvStream.machine
  nextBatch := .nextBatch
  Reads
    | .next | .nextBatch _ _ => True
    | .onReady _ | .cancel => False
  waiter := State.waiter
  read := State.read
  lent := State.lent
  pending := State.pending
  handed := State.handed
  received := State.received
  waiting s := s.pending.map s.read
  Over := State.Over

structure LibcKept (s : EasyioLibcRecvStream.State) : Prop where
  exact : Exact s
  suspended : Suspended s
  spans : Spans s.buf s.pending

variable {s : EasyioLibcRecvStream.State}

theorem libc_lends : Lends libcReceiver libc :=
  ⟨fun _ => rfl, fun _ _ _ => rfl, fun _ => rfl⟩

theorem receive_lent (results : List RecvResult) (s : EasyioLibcRecvStream.State) :
    (s.receive results).lent = s.lent := by
  induction results generalizing s with
  | nil => rfl
  | cons r results ih =>
    unfold State.receive
    split
    · cases r with
      | data bytes => exact ih (s.store bytes)
      | again | eof | failed _ => rfl
    · rfl

theorem receive_of_over (hover : s.Over) (results : List RecvResult) :
    s.receive results = s := by
  cases results with
  | nil => rfl
  | cons r results =>
    have hstops : ¬ (s.error = none ∧ s.eof = false ∧
        s.pending.length + s.checkedOutCount < s.entries) := by
      rintro ⟨herror, heof, -⟩
      rcases hover with h | h
      · simp [heof] at h
      · exact h herror
    simp only [State.receive, if_neg hstops]

theorem canceled_of_over (hover : s.Over) : canceled s = s := by
  have hstops : ¬ (s.error = none ∧ s.eof = false) := by
    rintro ⟨herror, heof⟩
    rcases hover with h | h
    · simp [heof] at h
    · exact h herror
  rw [canceled, if_neg hstops]

theorem libc_idle {e : EasyioLibcRecvStream.Event} (hreads : ¬ libcReceiver.Reads e)
    (hfree : s.waiter = none) : Same libcReceiver s (EasyioLibcRecvStream.next s e) := by
  cases e with
  | onReady results =>
    obtain ⟨hwaiter, -, -, hhanded, -⟩ := receive_frame results s
    have hsame : s.onReady results = s.receive results := by
      simp only [State.onReady, State.resume, hwaiter, hfree]
      split <;> rfl
    show Same libcReceiver s (s.onReady results)
    rw [hsame]
    exact ⟨hhanded, receive_lent results s, hwaiter⟩
  | cancel =>
    have hsame : s.cancel = canceled s := by
      show (canceled s).resume = canceled s
      have hwaiter : (canceled s).waiter = none := by
        unfold canceled
        split <;> exact hfree
      simp only [State.resume, hwaiter]
    show Same libcReceiver s s.cancel
    rw [hsame, canceled]
    split <;> exact ⟨rfl, rfl, rfl⟩
  | next | nextBatch => exact absurd trivial hreads

theorem libc_kept {e : EasyioLibcRecvStream.Event} (h : LibcKept s)
    (he : EasyioLibcRecvStream.Enabled s e) (hasks : AsksForData s e) :
    LibcKept (EasyioLibcRecvStream.next s e) := by
  obtain ⟨hexact, hsuspended, -⟩ := exact_step h.exact h.suspended he hasks
  exact ⟨hexact, hsuspended, libc_spans_step h.spans he⟩

theorem libc_no_lent (h : LibcKept s) (hwaits : s.waiter ≠ none) : s.lent = [] := by
  obtain ⟨w, hw⟩ := Option.ne_none_iff_exists'.mp hwaits
  have hcount := h.exact.windowed.count
  rw [(h.suspended w hw).2.2] at hcount
  exact List.length_eq_zero_iff.mp hcount.symm

theorem libc_hands {e : EasyioLibcRecvStream.Event} {u : EasyioLibcRecvStream.State}
    {cap maxBytes : ℕ} (h : LibcKept s) (he : EasyioLibcRecvStream.Enabled s e)
    (hu : LibcResumed s e (.nextBatch cap maxBytes) u) (hkept : Exact u) (hlent : u.lent = [])
    (hhanded : u.handed = s.handed) (hwaiter : u.waiter = none) (hcap : 0 < cap)
    (hmax : 0 < maxBytes) :
    Hands libcReceiver maxBytes s (EasyioLibcRecvStream.next s e) := by
  obtain ⟨hfilled, hr⟩ := libc_resumed h.spans he hu
  have hnext : EasyioLibcRecvStream.next s e = (libc.takeBatch cap maxBytes u).2 :=
    (libc_resumes hu).trans (libc.takeBatch_source u cap maxBytes)
  have hawait : (u.awaitResume (.nextBatch cap maxBytes)).waiter = u.waiter :=
    (exact_source.awaitResume (w := .nextBatch cap maxBytes) hkept hr ⟨hcap, hmax⟩).2.1
  rw [← libc_resumes hu] at hawait
  rw [hnext] at hawait ⊢
  refine hands_takeBatch libc_lends hfilled hlent hhanded hr (fun hempty => ?_) hcap hmax
    (hawait.trans hwaiter)
  refine ⟨hr.resolve_left fun hne => hne hempty, ?_⟩
  show u.pending.map _ = []
  rw [show u.pending = [] from hempty, List.map_nil]

theorem exact_canceled (h : Exact s) : Exact (canceled s) := by
  unfold canceled
  split
  · next hrunning =>
    exact exact_over h (by simp [State.Over, hrunning.1, hrunning.2]) _ _
  · exact h

theorem libc_wakes {e : EasyioLibcRecvStream.Event} {cap maxBytes : ℕ} (h : LibcKept s)
    (he : EasyioLibcRecvStream.Enabled s e) (hreads : ¬ libcReceiver.Reads e)
    (hwaits : s.waiter = some (.nextBatch cap maxBytes)) :
    Same libcReceiver s (EasyioLibcRecvStream.next s e) ∨
      Hands libcReceiver maxBytes s (EasyioLibcRecvStream.next s e) := by
  obtain ⟨⟨hcap, hmax⟩, -, -⟩ := h.suspended _ hwaits
  have hlent := libc_no_lent h (by simp [hwaits])
  cases e with
  | onReady results =>
    obtain ⟨hwaiter, -, -, hhanded, -⟩ := receive_frame results s
    have hsame := receive_lent results s
    by_cases hr : (s.receive results).Readable
    · have hfits : ∀ bytes, .data bytes ∈ results → bytes ≠ [] := fun bytes hmem => by
        have hdata : Fits s (.data bytes) := he _ hmem
        exact hdata.1
      right
      exact libc_hands h he (.received results _ hwaits hr)
        (exact_waiter (exact_receive h.exact hfits) none) (hsame.trans hlent) hhanded rfl hcap hmax
    · left
      show Same libcReceiver s (s.onReady results)
      simp only [State.onReady, if_neg hr]
      exact ⟨hhanded, hsame, hwaiter⟩
  | cancel =>
    right
    have hframe : (canceled s).lent = s.lent ∧ (canceled s).handed = s.handed := by
      unfold canceled
      split <;> exact ⟨rfl, rfl⟩
    exact libc_hands h he (.canceled _ hwaits) (exact_waiter (exact_canceled h.exact) none)
      (hframe.1.trans hlent) hframe.2 rfl hcap hmax
  | next | nextBatch => exact absurd trivial hreads

theorem libc_finished {e : EasyioLibcRecvStream.Event} (h : LibcKept s)
    (hreads : ¬ libcReceiver.Reads e) (hfin : Finished libcReceiver s) :
    Finished libcReceiver (EasyioLibcRecvStream.next s e) := by
  have hover : s.Over := hfin.1
  have hfree : s.waiter = none := by
    by_contra hne
    obtain ⟨w, hw⟩ := Option.ne_none_iff_exists'.mp hne
    exact (h.suspended w hw).2.1 (Or.inr hover)
  have hresume : s.resume = s := by simp only [State.resume, hfree]
  cases e with
  | onReady results =>
    show Finished libcReceiver (s.onReady results)
    simp only [State.onReady, receive_of_over hover, hresume, ite_self]
    exact hfin
  | cancel =>
    show Finished libcReceiver (canceled s).resume
    rw [canceled_of_over hover, hresume]
    exact hfin
  | next | nextBatch => exact absurd trivial hreads

theorem libc_call (h : LibcKept s) (hfree : s.waiter = none) {cap maxBytes : ℕ} (hcap : 0 < cap)
    (hmax : 0 < maxBytes) :
    Suspends libcReceiver cap maxBytes s (EasyioLibcRecvStream.next s (.nextBatch cap maxBytes)) ∨
      Hands libcReceiver maxBytes s (EasyioLibcRecvStream.next s (.nextBatch cap maxBytes)) := by
  by_cases hr : s.returnCheckedOut.Readable
  · right
    have hu : LibcResumed s (libcCall (.nextBatch cap maxBytes)) (.nextBatch cap maxBytes)
        s.returnCheckedOut := .ready _ hfree hr
    exact libc_hands h hfree hu (exact_returnCheckedOut h.exact) rfl rfl hfree hcap hmax
  · left
    show Suspends libcReceiver cap maxBytes s (s.await (.nextBatch cap maxBytes))
    simp only [State.await, if_neg hr]
    exact ⟨rfl, rfl, rfl⟩

theorem libc_lawful (entrySize entries : ℕ) (buf : ℕ → List UInt8) :
    Lawful libcReceiver (EasyioLibcRecvStream.initial entrySize entries buf) LibcKept where
  start := ⟨⟨exact_initial _ _ _, by rintro w ⟨⟩, by rintro p ⟨⟩⟩, rfl, rfl, rfl⟩
  keeps s e h he hreads := libc_kept h he <| by
    cases e with
    | onReady | cancel => trivial
    | next | nextBatch => exact absurd trivial hreads
  flow s h := by
    obtain ⟨delivered, ends, horder⟩ := h.exact.order
    exact flow_of_inOrder horder fun c hc => congrArg Chunk.data hc.1
  intact s h := h.exact.intact.lent
  empty s p hp := by
    show (s.buf p.idx).take p.len = []
    rw [hp, List.take_zero]
  starved s h hwaits := by
    obtain ⟨w, hw⟩ := Option.ne_none_iff_exists'.mp hwaits
    by_contra hne
    exact (h.suspended w hw).2.1 (Or.inl hne)
  finished s e h _ hreads hfin := libc_finished h hreads hfin
  idle s e _ _ hreads hfree := libc_idle hreads hfree
  wakes s e cap maxBytes h he hreads _ hwaits _ _ := libc_wakes h he hreads hwaits
  call s cap maxBytes h hfree hcap hmax :=
    ⟨hfree, libc_kept (e := .nextBatch cap maxBytes) h hfree ⟨hcap, hmax⟩,
      libc_call h hfree hcap hmax⟩

end Libc

section Uring

open EasyioUringRecvStream EasyioNextBatch

def uringReceiver : Receiver EasyioUringRecvStream.State EasyioUringRecvStream.Event where
  machine := EasyioUringRecvStream.machine
  nextBatch := .nextBatch
  Reads
    | .next | .nextBatch _ _ => True
    | .submit | .data _ _ _ | .eof _ | .failure _ | .dispatch => False
  waiter := State.waiter
  read := State.read
  lent := State.lent
  pending := State.pending
  handed := State.handed
  received := State.received
  waiting s := (s.pending ++ s.posted).map s.read
  Over := State.Over

instance (e : EasyioUringRecvStream.Event) : Decidable (uringReceiver.Reads e) :=
  match e with
  | .next | .nextBatch _ _ => isTrue trivial
  | .submit | .data _ _ _ | .eof _ | .failure _ | .dispatch => isFalse id

instance (s : EasyioUringRecvStream.State) (e : EasyioUringRecvStream.Event) :
    Decidable (uringReceiver.machine.Enabled s e) :=
  inferInstanceAs (Decidable (EasyioUringRecvStream.Enabled s e))

structure UringKept (s : EasyioUringRecvStream.State) : Prop where
  exact : Exact s
  suspended : Suspended s
  spans : Spans s.buf (spans s)

variable {s : EasyioUringRecvStream.State}

theorem uring_lends : Lends uringReceiver uring :=
  ⟨fun _ => rfl, fun _ _ _ => rfl, fun _ => rfl⟩

theorem maybeResubmit_kept (s : EasyioUringRecvStream.State) :
    s.maybeResubmit.lent = s.lent ∧ s.maybeResubmit.handed = s.handed ∧
      s.maybeResubmit.waiter = s.waiter ∧ (s.Over → s.maybeResubmit.Over) := by
  unfold State.maybeResubmit
  split <;> exact ⟨rfl, rfl, rfl, id⟩

theorem absorb_kept (s : EasyioUringRecvStream.State) (c : Cqe) :
    (s.absorb c).lent = s.lent ∧ (s.absorb c).handed = s.handed ∧
      (s.absorb c).waiter = s.waiter ∧ (s.Over → (s.absorb c).Over) := by
  have ha := absorb_cases s c
  generalize s.absorb c = s' at ha ⊢
  cases ha with
  | chunk p _ _ => exact ⟨rfl, rfl, rfl, id⟩
  | lastChunk p _ _ => exact maybeResubmit_kept _
  | noBuffers _ => exact maybeResubmit_kept _
  | error err _ _ => exact ⟨rfl, rfl, rfl, fun _ => Or.inr (by simp)⟩
  | eof len _ _ => exact ⟨rfl, rfl, rfl, fun _ => Or.inl rfl⟩

theorem handleCqe_of_free {c : Cqe} (hfree : s.waiter = none) :
    s.handleCqe c = s.absorb c := by
  have hwaiter := (absorb_kept s c).2.2.1.trans hfree
  simp only [State.handleCqe, State.resume, hwaiter, ite_self]

theorem uring_idle {e : EasyioUringRecvStream.Event} (he : EasyioUringRecvStream.Enabled s e)
    (hreads : ¬ uringReceiver.Reads e) (hfree : s.waiter = none) :
    Same uringReceiver s (EasyioUringRecvStream.next s e) := by
  cases e with
  | submit | data | eof | failure => exact ⟨rfl, rfl, rfl⟩
  | dispatch =>
    obtain ⟨c, cq, top⟩ := List.exists_cons_of_ne_nil he
    obtain ⟨hlent, hhanded, hwaiter, -⟩ := absorb_kept (s.popped c cq) c
    have hfree' : (s.popped c cq).waiter = none := hfree
    simp only [EasyioUringRecvStream.next, top, onCqe_eq, handleCqe_of_free hfree']
    exact ⟨hhanded, hlent, hwaiter⟩
  | next | nextBatch => exact absurd trivial hreads

theorem uring_kept {e : EasyioUringRecvStream.Event} (h : UringKept s)
    (he : EasyioUringRecvStream.Enabled s e) (hasks : AsksForData s e) :
    UringKept (EasyioUringRecvStream.next s e) := by
  obtain ⟨hexact, hsuspended, -⟩ := exact_step h.exact h.suspended he hasks
  exact ⟨hexact, hsuspended, uring_spans_step h.spans he⟩

theorem uring_no_lent (h : UringKept s) (hwaits : s.waiter ≠ none) : s.lent = [] := by
  have hlent := h.exact.stored.lent
  rw [h.suspended.returned hwaits] at hlent
  exact List.map_eq_nil_iff.mp hlent

theorem uring_hands {e : EasyioUringRecvStream.Event} {u : EasyioUringRecvStream.State}
    {cap maxBytes : ℕ} (h : UringKept s) (hu : UringResumed s e (.nextBatch cap maxBytes) u)
    (hkept : Exact u) (hlent : u.lent = []) (hhanded : u.handed = s.handed)
    (hwaiter : u.waiter = none) (hcap : 0 < cap) (hmax : 0 < maxBytes) :
    Hands uringReceiver maxBytes s (EasyioUringRecvStream.next s e) := by
  obtain ⟨hfilled, hr⟩ := uring_resumed h.spans hu
  have hnext : EasyioUringRecvStream.next s e = (uring.takeBatch cap maxBytes u).2 :=
    (uring_resumes hu).trans (uring.takeBatch_source u cap maxBytes)
  have hawait : (u.awaitResume (.nextBatch cap maxBytes)).waiter = u.waiter :=
    (exact_source.awaitResume (w := .nextBatch cap maxBytes) hkept hr ⟨hcap, hmax⟩).2.1
  rw [← uring_resumes hu] at hawait
  rw [hnext] at hawait ⊢
  refine hands_takeBatch uring_lends hfilled hlent hhanded hr (fun hempty => ?_) hcap hmax
    (hawait.trans hwaiter)
  have hover : u.Over := hr.resolve_left fun hne => hne hempty
  refine ⟨hover, ?_⟩
  show (u.pending ++ u.posted).map _ = []
  rw [show u.pending = [] from hempty, hkept.closing.quiet hover]
  rfl

theorem uring_wakes {e : EasyioUringRecvStream.Event} {cap maxBytes : ℕ} (h : UringKept s)
    (he : EasyioUringRecvStream.Enabled s e) (hreads : ¬ uringReceiver.Reads e)
    (hwaits : s.waiter = some (.nextBatch cap maxBytes)) :
    Same uringReceiver s (EasyioUringRecvStream.next s e) ∨
      Hands uringReceiver maxBytes s (EasyioUringRecvStream.next s e) := by
  obtain ⟨hcap, hmax⟩ := h.suspended.asks _ hwaits
  have hnone := uring_no_lent h (by simp [hwaits])
  cases e with
  | submit | data | eof | failure => exact Or.inl ⟨rfl, rfl, rfl⟩
  | dispatch =>
    obtain ⟨c, cq, top⟩ := List.exists_cons_of_ne_nil he
    obtain ⟨hlent, hhanded, hwaiter, -⟩ := absorb_kept (s.popped c cq) c
    by_cases hr : ((s.popped c cq).absorb c).Readable
    · right
      exact uring_hands h (.dispatched c cq _ top hwaits hr)
        (exact_waiter (exact_dispatch h.exact top) none) (hlent.trans hnone) hhanded rfl hcap hmax
    · left
      simp only [EasyioUringRecvStream.next, top, onCqe_eq, State.handleCqe, if_neg hr]
      exact ⟨hhanded, hlent, hwaiter⟩
  | next | nextBatch => exact absurd trivial hreads

theorem finished_iff : Finished uringReceiver s ↔ s.Over ∧ s.pending = [] ∧ s.posted = [] := by
  show s.Over ∧ (s.pending ++ s.posted).map s.read = [] ↔ _
  rw [List.map_eq_nil_iff, List.append_eq_nil_iff]

theorem uring_finished {e : EasyioUringRecvStream.Event} (h : UringKept s)
    (he : EasyioUringRecvStream.Enabled s e) (hreads : ¬ uringReceiver.Reads e)
    (hfin : Finished uringReceiver s) :
    Finished uringReceiver (EasyioUringRecvStream.next s e) := by
  obtain ⟨hover, hpending, hposted⟩ := finished_iff.mp hfin
  rw [finished_iff]
  cases e with
  | submit => exact ⟨hover, hpending, hposted⟩
  | data idx bytes more => exact absurd hover (open_of_running h.exact he.1 he.2.1).1
  | eof more =>
    have hpost := posted_post { s with closed := true } ⟨.ok 0, more, none⟩
    exact ⟨hover, hpending, hpost.trans ((List.append_nil s.posted).trans hposted)⟩
  | failure err =>
    have hpost := posted_post s ⟨.failed err, false, none⟩
    exact ⟨hover, hpending, hpost.trans ((List.append_nil s.posted).trans hposted)⟩
  | dispatch =>
    obtain ⟨c, cq, top⟩ := List.exists_cons_of_ne_nil he
    have hfree : (s.popped c cq).waiter = none := by
      by_contra hne
      exact h.suspended.empty hne (Or.inr hover)
    rw [posted_popped top, List.append_eq_nil_iff] at hposted
    obtain ⟨-, hrest, -, hmem⟩ := absorbed_spans (absorb_cases (s.popped c cq) c)
    simp only [EasyioUringRecvStream.next, top, onCqe_eq, handleCqe_of_free hfree]
    refine ⟨(absorb_kept _ c).2.2.2 hover, ?_, hrest.trans hposted.2⟩
    rw [hposted.1, show (s.popped c cq).pending = [] from hpending] at hmem
    exact List.eq_nil_iff_forall_not_mem.mpr fun p hp => List.not_mem_nil (hmem p hp)
  | next | nextBatch => exact absurd trivial hreads

theorem uring_call (h : UringKept s) (hfree : s.waiter = none) {cap maxBytes : ℕ} (hcap : 0 < cap)
    (hmax : 0 < maxBytes) :
    Suspends uringReceiver cap maxBytes s
        (EasyioUringRecvStream.next s (.nextBatch cap maxBytes)) ∨
      Hands uringReceiver maxBytes s (EasyioUringRecvStream.next s (.nextBatch cap maxBytes)) := by
  obtain ⟨hlent, hhanded, hwaiter, -⟩ :=
    maybeResubmit_kept { s with br := s.br ++ s.checkedOut, checkedOut := [], lent := [] }
  by_cases hr : s.returnCheckedOut.Readable
  · right
    have hu : UringResumed s (uringCall (.nextBatch cap maxBytes)) (.nextBatch cap maxBytes)
        s.returnCheckedOut := .ready _ hfree hr
    exact uring_hands h hu (exact_returnCheckedOut h.exact) hlent hhanded (hwaiter.trans hfree)
      hcap hmax
  · left
    show Suspends uringReceiver cap maxBytes s (s.await (.nextBatch cap maxBytes))
    simp only [State.await, if_neg hr]
    exact ⟨hhanded, hlent, rfl⟩

theorem uring_lawful (entrySize entries : ℕ) (buf : ℕ → List UInt8) :
    Lawful uringReceiver (EasyioUringRecvStream.initial entrySize entries buf) UringKept where
  start := ⟨⟨exact_initial _ _ _, suspended_of_none rfl, by rintro p ⟨⟩⟩, rfl, rfl, rfl⟩
  keeps s e h he hreads := uring_kept h he <| by
    cases e with
    | submit | data | eof | failure | dispatch => trivial
    | next | nextBatch => exact absurd trivial hreads
  flow s h := by
    obtain ⟨delivered, ends, horder⟩ := h.exact.stored.order
    exact flow_of_inOrder horder fun c hc => hc.data
  intact s h := h.exact.stored.intact
  empty s p hp := by
    show (s.buf p.idx).take p.len = []
    rw [hp, List.take_zero]
  starved s h hwaits := by
    by_contra hne
    exact h.suspended.empty hwaits (Or.inl hne)
  finished s e h he hreads hfin := uring_finished h he hreads hfin
  idle s e _ he hreads hfree := uring_idle he hreads hfree
  wakes s e cap maxBytes h he hreads _ hwaits _ _ := uring_wakes h he hreads hwaits
  call s cap maxBytes h hfree hcap hmax :=
    ⟨hfree, uring_kept (e := .nextBatch cap maxBytes) h hfree ⟨hcap, hmax⟩,
      uring_call h hfree hcap hmax⟩

end Uring

section SingleShot

open EasyioSingleShotRecvStream
open EasyioUringRecvStream (Res)

def singleShotReceiver :
    Receiver EasyioSingleShotRecvStream.State EasyioSingleShotRecvStream.Event where
  machine := EasyioSingleShotRecvStream.machine
  nextBatch := .nextBatch
  Reads
    | .next | .nextBatch _ _ => True
    | .submit | .data _ | .eof | .failure _ | .dispatch => False
  waiter := State.waiter
  read := State.read
  lent := State.lent
  pending s := if s.hasChunk = true then [⟨0, s.len⟩] else []
  handed := State.handed
  received := State.received
  waiting := State.waiting
  Over := State.Over

variable {s : EasyioSingleShotRecvStream.State}

theorem singleShot_over (h : Owned s) (hover : s.Over) :
    s.queued = 0 ∧ s.ops = 0 ∧ s.cq = [] ∧ s.hasChunk = false := by
  have howners := h.owners
  rw [if_pos hover, State.inFlight] at howners
  have hchunk : s.hasChunk.toNat = 0 := by omega
  exact ⟨by omega, by omega, List.length_eq_zero_iff.mp (by omega), by simpa using hchunk⟩

theorem singleShot_hands {u : EasyioSingleShotRecvStream.State} {cap maxBytes : ℕ}
    (howned : Owned u) (hstored : Stored u) (hr : u.Readable) (hlent : u.lent = [])
    (hhanded : u.handed = s.handed) (hwaiter : u.waiter = none) (hcap : 0 < cap)
    (hmax : 0 < maxBytes) :
    Hands singleShotReceiver maxBytes s (u.awaitResume (.nextBatch cap maxBytes)) := by
  simp only [State.awaitResume, if_neg (Nat.ne_of_gt hcap), State.take]
  by_cases hchunk : u.hasChunk = true
  · rw [if_pos hchunk]
    have hout : u.handOut.lent = [⟨⟨0, u.len⟩, u.read ⟨0, u.len⟩⟩] := by
      rw [State.handOut, hlent, List.nil_append]
    have hmem : u.read ⟨0, u.len⟩ ∈ u.received := by
      obtain ⟨delivered, ends, horder⟩ := hstored.order
      rw [← horder.received, State.waiting, if_pos hchunk]
      simp
    refine .data hwaiter (by simp [singleShotReceiver, hout]) ?_ ?_ ?_
    · show u.handed ++ [⟨u.read ⟨0, u.len⟩, none⟩] = s.handed ++ u.handOut.lent.map _
      rw [hout, hhanded]
      rfl
    · show ∀ l ∈ u.handOut.lent, l.bytes ≠ []
      rw [hout]
      intro l hl hnil
      rw [List.mem_singleton.mp hl] at hnil
      exact hstored.data (hnil ▸ hmem)
    · show (u.handOut.lent.dropLast.flatMap Lent.bytes).length < maxBytes
      rw [hout]
      exact hmax
  · rw [if_neg hchunk]
    have hover : u.Over := hr.resolve_left hchunk
    obtain ⟨-, -, hcq, hnone⟩ := singleShot_over howned hover
    refine .ended u.error hwaiter hlent ?_ ⟨hover, ?_⟩
    · show u.handed ++ [⟨[], u.error⟩] = s.handed ++ [⟨[], u.error⟩]
      rw [hhanded]
    · show u.handEnd.waiting = []
      simp [State.waiting, State.handEnd, hcq, hnone]

theorem singleShot_dispatch {r : Res} {cq : List Res} (top : s.cq = r :: cq) :
    EasyioSingleShotRecvStream.next s .dispatch =
      ({ s with cq, live := false }.record r).resume := by
  have hr := readable_record { s with cq, live := false } r
  simp only [EasyioSingleShotRecvStream.next, top, State.onCqe, State.handleCqe, if_pos hr]

theorem singleShot_idle {e : EasyioSingleShotRecvStream.Event}
    (he : EasyioSingleShotRecvStream.Enabled s e) (hreads : ¬ singleShotReceiver.Reads e)
    (hfree : s.waiter = none) :
    Same singleShotReceiver s (EasyioSingleShotRecvStream.next s e) := by
  cases e with
  | submit | data | eof | failure => exact ⟨rfl, rfl, rfl⟩
  | dispatch =>
    obtain ⟨r, cq, top⟩ := List.exists_cons_of_ne_nil he
    obtain ⟨-, -, hhanded, hlent, hwaiter⟩ := frame_record { s with cq, live := false } r
    have hnone := hwaiter.trans hfree
    simp only [singleShot_dispatch top, State.resume, hnone]
    exact ⟨hhanded, hlent, hwaiter⟩
  | next | nextBatch => exact absurd trivial hreads

theorem singleShot_wakes {e : EasyioSingleShotRecvStream.Event} {cap maxBytes : ℕ} (h : Exact s)
    (he : EasyioSingleShotRecvStream.Enabled s e) (hreads : ¬ singleShotReceiver.Reads e)
    (hlent : s.lent = []) (hwaits : s.waiter = some (.nextBatch cap maxBytes)) (hcap : 0 < cap)
    (hmax : 0 < maxBytes) :
    Same singleShotReceiver s (EasyioSingleShotRecvStream.next s e) ∨
      Hands singleShotReceiver maxBytes s (EasyioSingleShotRecvStream.next s e) := by
  cases e with
  | submit | data | eof | failure => exact Or.inl ⟨rfl, rfl, rfl⟩
  | dispatch =>
    right
    obtain ⟨r, cq, top⟩ := List.exists_cons_of_ne_nil he
    obtain ⟨-, -, hhanded, hlent', hwaiter⟩ := frame_record { s with cq, live := false } r
    have hstored := stored_record h.owned h.stored top
    have hsome := hwaiter.trans hwaits
    simp only [singleShot_dispatch top, State.resume, hsome]
    exact singleShot_hands (owned_waiter (owned_record h.owned top) none)
      ⟨hstored.intact, hstored.data, hstored.order⟩ (readable_record _ r)
      (hlent'.trans hlent) hhanded rfl hcap hmax
  | next | nextBatch => exact absurd trivial hreads

theorem reclaim_frame (h : Owned s) : s.reclaim.lent = [] ∧ s.reclaim.handed = s.handed := by
  have hlent := h.lent
  unfold State.reclaim
  by_cases hout : s.checkedOut = true
  · rw [if_pos hout]
    dsimp only
    split <;> exact ⟨rfl, rfl⟩
  · rw [if_neg hout]
    rw [Bool.not_eq_true] at hout
    rw [hout] at hlent
    exact ⟨List.length_eq_zero_iff.mp hlent, rfl⟩

theorem singleShot_call (h : Exact s) (hfree : s.waiter = none) {cap maxBytes : ℕ}
    (hcap : 0 < cap) (hmax : 0 < maxBytes) :
    Suspends singleShotReceiver cap maxBytes s
        (EasyioSingleShotRecvStream.next s (.nextBatch cap maxBytes)) ∨
      Hands singleShotReceiver maxBytes s
        (EasyioSingleShotRecvStream.next s (.nextBatch cap maxBytes)) := by
  obtain ⟨hlent, hhanded⟩ := reclaim_frame h.owned
  obtain ⟨hstored, -, hwaiter⟩ := stored_reclaim h.stored
  show Suspends singleShotReceiver cap maxBytes s (s.await (.nextBatch cap maxBytes)) ∨
    Hands singleShotReceiver maxBytes s (s.await (.nextBatch cap maxBytes))
  by_cases hr : s.reclaim.Readable
  · simp only [State.await, if_pos hr]
    exact Or.inr (singleShot_hands (owned_reclaim h.owned) hstored hr hlent hhanded
      (hwaiter.trans hfree) hcap hmax)
  · simp only [State.await, if_neg hr]
    exact Or.inl ⟨hhanded, hlent, rfl⟩

theorem singleShot_lawful (entrySize : ℕ) (buf : List UInt8) :
    Lawful singleShotReceiver (EasyioSingleShotRecvStream.initial entrySize buf) Exact where
  start := ⟨exact_initial _ _, rfl, rfl, rfl⟩
  keeps s e h he _ := exact_step h he
  flow s h := by
    obtain ⟨delivered, ends, horder⟩ := h.stored.order
    exact flow_of_inOrder horder fun c hc => congrArg Chunk.data hc.1
  intact s h := h.stored.intact
  empty s p hp := by
    show s.buf.take p.len = []
    rw [hp, List.take_zero]
  starved s h hwaits := by
    have hchunk : ¬ s.hasChunk = true := fun hchunk => h.suspended.empty hwaits (Or.inl hchunk)
    exact if_neg hchunk
  finished s e h he hreads hfin := by
    obtain ⟨hqueued, hops, hcq, -⟩ := singleShot_over h.owned hfin.1
    cases e with
    | submit => exact absurd hqueued (Nat.ne_of_gt he)
    | data bytes => exact absurd hops (Nat.ne_of_gt he.1)
    | eof | failure => exact absurd hops (Nat.ne_of_gt he)
    | dispatch => exact absurd hcq he
    | next | nextBatch => exact absurd trivial hreads
  idle s e _ he hreads hfree := singleShot_idle he hreads hfree
  wakes s e cap maxBytes h he hreads hlent hwaits hcap hmax :=
    singleShot_wakes h he hreads hlent hwaits hcap hmax
  call s cap maxBytes h hfree hcap hmax :=
    ⟨hfree, exact_await h hfree _, singleShot_call h hfree hcap hmax⟩

end SingleShot

/-- On each of the three streams, in any interleaving of the kernel, the queue and the reader. -/
theorem framed_reads_in_order (entrySize entries : ℕ) (buf : ℕ → List UInt8)
    (single : List UInt8) :
    (∀ s, Reachable libcReceiver.reading
        (.initial (EasyioLibcRecvStream.initial entrySize entries buf)) s →
      ReadsInOrder libcReceiver s) ∧
    (∀ s, Reachable uringReceiver.reading
        (.initial (EasyioUringRecvStream.initial entrySize entries buf)) s →
      ReadsInOrder uringReceiver s) ∧
    ∀ s, Reachable singleShotReceiver.reading
        (.initial (EasyioSingleShotRecvStream.initial entrySize single)) s →
      ReadsInOrder singleShotReceiver s :=
  ⟨fun _ h => reads_in_order (libc_lawful entrySize entries buf) h,
    fun _ h => reads_in_order (uring_lawful entrySize entries buf) h,
    fun _ h => reads_in_order (singleShot_lawful entrySize single) h⟩

/-- Two chunks and the end: the second one arrives while the first is copied, and the call that
wants three more bytes gets two. -/
def readsPastTheEnd : List (EasyioFramedReaderStreams.Event EasyioUringRecvStream.Event) :=
  [.call (.readExact 1), .run, .stream .submit, .stream (.data 0 [7, 8] true), .stream .dispatch,
    .stream (.data 1 [9] true), .run, .run, .call (.readExactInto 3), .run, .stream .dispatch, .run,
    .run, .stream (.eof false), .stream .dispatch, .run]

theorem framed_reads_in_order_past_the_end :
    let s := runTrace uringReceiver.reading
      (.initial (EasyioUringRecvStream.initial 2 2 fun _ => [])) readsPastTheEnd
    ReadsInOrder uringReceiver s ∧ s.results = [[7]] ∧
      s.failed.map Failure.stored = some [8, 9] := by
  intro s
  have hs : Reachable uringReceiver.reading
      (.initial (EasyioUringRecvStream.initial 2 2 fun _ => [])) s :=
    reachable_of_trace readsPastTheEnd (by decide +kernel)
  exact ⟨(framed_reads_in_order 2 2 (fun _ => []) []).2.1 s hs, by decide +kernel,
    by decide +kernel⟩

end EasyioFramedReaderBackends
