import EasyBD.EasybdClientTable

/-! `easybd_client_wait` when `Queue::step` throws: nothing between the poll and the return
code fails the entries of `_pending`, or the body that `reader_loop` waits for. -/
namespace EasybdClientWaitErrors

open TransitionRuns EntryLedger EasybdProtocol EasyioQueue EasyioFramedReader EasybdRequests
open EasybdClient EasybdClientTable

/-- What `client.h` says of a call that was entered in `s` and returned a negative errno in
`s'`. -/
structure EverythingFailed (s s' : State) : Prop where
  fired : ∀ cid p, s.pending.lookup cid = some p →
    ∃ res < 0, ∃ during, .fired p.request res during ∈ s'.trace
  drained : s'.pending = ∅
  silent : ∀ u, Reachable machine s' u → ∀ id, .accepted id ∈ s.trace → fires u id = fires s' id

structure Settled (ids : Set ℕ) (s : State) : Prop where
  opened : ∀ id ∈ openIds s, id ∉ ids
  body : ∀ cid res p, s.readerAt = .body cid res p → p.request ∉ ids
  issued : ∀ id ∈ ids, id < s.requests.length

section Settled

variable {ids : Set ℕ} {s s' : State} {e : Event}

theorem Settled.pending (h : Settled ids s) {cid : UInt64} {p : Pending}
    (known : s.pending.lookup cid = some p) : p.request ∉ ids := by
  apply h.opened
  apply List.mem_append_left
  exact List.mem_map.mpr ⟨p, mem_values_of_lookup known, rfl⟩

theorem mem_openIds_of_erase {cid : UInt64} {id : ℕ}
    (h : id ∈ (values (s.pending.erase cid)).map Pending.request ++ drained s) :
    id ∈ openIds s := by
  have hsub := (values_erase_sublist s.pending cid).map Pending.request
  exact (hsub.append_right (drained s)).subset h

theorem settled_step (h : Settled ids s) (step : Step s e s') : Settled ids s' where
  opened id hid := by
    cases ledger_step step with
    | keeps hopen => exact h.opened id (hopen.mem_iff.mp hid)
    | issues r fault he hopen =>
      rw [hopen, List.mem_cons] at hid
      rcases hid with rfl | hid
      · intro hmem
        exact absurd (h.issued _ hmem) (lt_irrefl _)
      · exact h.opened id (mem_openIds_of_erase hid)
    | closes id' hopen => exact h.opened id (hopen.mem_iff.mpr (List.mem_cons_of_mem _ hid))
    | copies cid res p stack he top at_ enough hopen =>
      rw [hopen] at hid
      exact h.opened id (mem_openIds_of_erase hid)
  body cid res p hat := by
    rcases body_step step hat with hold | ⟨known, -, -⟩
    · exact h.body cid res p hold
    · exact h.pending known
  issued id hid := by
    have hlt := h.issued id hid
    rcases requests_step step with hreq | ⟨r, -, hreq⟩
    · rwa [hreq]
    · rw [hreq, List.length_append]
      exact Nat.lt_add_right _ hlt

theorem fires_step (h : Settled ids s) (step : Step s e s') {id : ℕ} (hid : id ∈ ids) :
    fires s' id = fires s id := by
  have hother {id' : ℕ} (hne : id' ∉ ids) :
      (id' :: firedIds s.trace).count id = (firedIds s.trace).count id :=
    List.count_cons_of_ne (by rintro rfl; exact hne hid)
  unfold fires
  cases ledger_step step with
  | keeps hopen hfired => rw [hfired]
  | issues r fault he hopen hfired => rw [hfired]
  | closes id' hopen hfired =>
    rw [hfired]
    exact hother (h.opened id' (hopen.mem_iff.mpr List.mem_cons_self))
  | copies cid res p stack he top at_ enough hopen hfired =>
    rw [hfired]
    exact hother (h.body cid res p at_)

theorem fires_of_run (h : Settled ids s) {u : State} (run : Reachable machine s u) :
    Settled ids u ∧ ∀ id ∈ ids, fires u id = fires s id := by
  refine run.invariant (I := fun u => Settled ids u ∧ ∀ id ∈ ids, fires u id = fires s id)
    ⟨h, fun _ _ => rfl⟩ fun u e hu he _ => ?_
  have step := step_of_enabled he
  exact ⟨settled_step hu.1 step, fun id hid => (fires_step hu.1 step hid).trans (hu.2 id hid)⟩

end Settled

section Short

def Short (s : State) : Prop :=
  s.readerAt = .ended ∨ .reading ∈ s.stack ∨
    s.reader.consumed = 0 ∧ s.reader.buf.length < s.readerAt.needed

variable {s s' : State} {e : Event}

theorem Short.of_same (h : Short s) (hat : s'.readerAt = s.readerAt)
    (hreader : s'.reader = s.reader) (hstack : .reading ∈ s.stack → .reading ∈ s'.stack) :
    Short s' := by
  unfold Short at *
  rw [hat, hreader]
  exact h.imp_right (Or.imp_left hstack)

theorem Short.pop (h : Short s) {f : Frame} {stack : List Frame} (top : s.stack = f :: stack)
    (hf : f ≠ .reading) (hat : s'.readerAt = s.readerAt) (hreader : s'.reader = s.reader)
    (hstack : ∀ g ∈ stack, g ∈ s'.stack) : Short s' := by
  refine h.of_same hat hreader fun hmem => ?_
  rw [top, List.mem_cons] at hmem
  exact hstack _ (hmem.resolve_left hf.symm)

theorem short_step (h : Short s) (step : Step s e s') : Short s' := by
  cases step with
  | oversized | noEntry | noFrame | wait | pollFailed | poll | waitReturn | destroyUring
  | destroyEnded | destroyReturn | stillBlocked | completes => exact h.of_same rfl rfl id
  | sends | queues | reap | readyReturns =>
    exact h.of_same rfl rfl fun hmem => by simp [hmem]
  | cancel flat call => exact h.of_same rfl rfl fun hmem => by simp [flat] at hmem
  | requestReturn top => exact h.pop top (by simp) rfl rfl fun _ => id
  | callbackReturn top => exact h.pop top (by simp) rfl rfl fun _ => id
  | failedAll top => exact h.pop top (by simp) rfl rfl fun _ => id
  | callBlocks top => exact h.pop top (by simp) rfl rfl fun _ => id
  | frees top => exact h.pop top (by simp) rfl rfl fun _ => id
  | callReturns top | drain top | sendsOn top | sent top | sendThrowsLate top | handsOver top =>
    exact h.pop top (by simp) rfl rfl fun _ => List.mem_cons_of_mem _
  | sendThrows top | failsNext top =>
    exact h.pop top (by simp) rfl rfl fun _ hg =>
      List.mem_cons_of_mem _ (List.mem_cons_of_mem _ hg)
  | destroyReading => exact Or.inl rfl
  | receiveFailed => exact Or.inl rfl
  | unknownCid => exact Or.inl rfl
  | readsNothing top at_ => exact Or.inl at_
  | received => exact Or.inr (Or.inl (by simp))
  | awaitsBody => exact Or.inr (Or.inl (by simp))
  | answered => exact Or.inr (Or.inl (by simp))
  | copies => exact Or.inr (Or.inl (by simp))
  | readsOn top short => exact Or.inr (Or.inr ⟨rfl, short⟩)

theorem short_of_run {backend : Backend} {syncWrites : Bool} {s : State}
    (h : Reachable machine (initial backend syncWrites) s) : Short s :=
  h.invariant (I := Short) (Or.inr (Or.inr ⟨rfl, Nat.succ_pos _⟩)) fun _ _ hs he _ =>
    short_step hs (step_of_enabled he)

end Short

section Later

variable {s : State} {cid : UInt64} {res : Int64} {p : Pending}

/-- From outside of any call, the next `wait` may receive the rest of a body and fire the
callback of the entry that `reader_loop` copied. -/
theorem fires_later (hs : s.Idle) (hat : s.readerAt = .body cid res p)
    (start : s.reader.consumed = 0) (short : s.reader.buf.length < s.readerAt.needed) :
    ∃ u, Reachable machine s u ∧ fires u p.request = fires s p.request + 1 := by
  let missing := s.readerAt.needed - s.reader.buf.length
  let s₁ := next s .wait
  let s₂ := next s₁ .poll
  let s₃ := next s₂ (.received [List.replicate missing 0])
  have hreads : s.readerAt ≠ .ended := by simp [hat]
  have hbatch : IsBatch (s.readerAt.needed - s.reader.unread.length)
      [List.replicate missing 0] := by
    rw [FramedReader.unread, start, List.drop_zero]
    refine isBatch_single (Nat.sub_pos_of_lt short) fun hnil => ?_
    have hlen := congrArg List.length hnil
    rw [List.length_replicate, List.length_nil] at hlen
    omega
  have hreach₁ : Reachable machine s s₁ := Reachable.step (e := Event.wait) .refl hs
  have hreach₂ : Reachable machine s s₂ := hreach₁.step (e := Event.poll) ⟨hs.1, trivial⟩
  have hreach₃ : Reachable machine s s₃ :=
    hreach₂.step (e := Event.received [List.replicate missing 0]) ⟨⟨hs.1, trivial⟩, hreads, hbatch⟩
  have hrun : Enabled s₃ .run := trivial
  refine ⟨next s₃ .run, hreach₃.step (e := Event.run) hrun, ?_⟩
  have hunread : s₃.reader.unread = s.reader.buf ++ List.replicate missing 0 := by
    simp [s₃, s₂, s₁, next, FramedReader.unread, FramedReader.insertBatch, start]
  have henough : ¬ s₃.reader.unread.length < s₃.readerAt.needed := by
    rw [hunread, show s₃.readerAt = s.readerAt from rfl, List.length_append, List.length_replicate]
    omega
  have hfiring : firing s₃ .run = some p.request := by
    have htop : s₃.stack = .reading :: s.stack := rfl
    have hat' : s₃.readerAt = .body cid res p := hat
    rw [hat'] at henough
    simp only [firing, htop, hat', if_neg henough]
  have hsame : firedIds s₃.trace = firedIds s.trace := rfl
  rw [fires, firedIds_step (step_of_enabled hrun), hfiring, hsame]
  simp [fires]

end Later

/-- Exactly when nothing was in flight does a failing `wait` keep its promise. -/
theorem negative_wait_failed_everything_iff {backend : Backend} {syncWrites : Bool} {s : State}
    (h : Reachable machine (initial backend syncWrites) s) (hs : s.Polling) (err : Errno) :
    EverythingFailed s (next s (.pollFailed err)) ↔
      s.pending = ∅ ∧
        ∀ cid res p, s.readerAt = .body cid res p → .accepted p.request ∉ s.trace := by
  have htable : Table s := (consistent_of_run h).table
  constructor
  · intro hfailed
    refine ⟨hfailed.drained, fun cid res p hat haccepted => ?_⟩
    have hshort : s.reader.consumed = 0 ∧ s.reader.buf.length < s.readerAt.needed := by
      rcases short_of_run h with hended | hreading | hshort
      · simp [hat] at hended
      · simp [hs.1] at hreading
      · exact hshort
    obtain ⟨u, hu, hfires⟩ := fires_later (s := next s (.pollFailed err)) ⟨hs.1, rfl⟩ hat
      hshort.1 hshort.2
    have hsilent := hfailed.silent u hu p.request haccepted
    omega
  · rintro ⟨hempty, hbody⟩
    have hsettled : Settled {id | .accepted id ∈ s.trace} (next s (.pollFailed err)) :=
      ⟨fun id hid => by
        simp [openIds, pendingIds, drained, next, hempty, hs.1, values] at hid,
        hbody, fun id hid => htable.accepted id hid⟩
    refine ⟨fun cid p hlook => ?_, hempty, fun u hu id hid => (fires_of_run hsettled hu).2 id hid⟩
    rw [hempty] at hlook
    cases hlook

section Traces

def pollFails : List Event :=
  [.request shortRead none, .sendCall (.accepted 25), .run, .run, .requestReturn, .wait]

def answeredThenPolls : List Event :=
  [.request shortRead none, .sendCall (.accepted 25), .run, .run, .requestReturn, .wait, .poll,
    .received [ResponseHeader.bytes ⟨1, 2⟩ ++ [7, 8]], .run, .run, .callbackReturn, .run,
    .waitReturn, .wait]

theorem negative_wait_failed_everything_iff_answered :
    let s := runTrace machine (initial .libc false) answeredThenPolls
    .fired 0 2 .wait ∈ s.trace ∧ EverythingFailed s (next s (.pollFailed einval)) := by
  intro s
  have hs : Reachable machine (initial .libc false) s :=
    reachable_of_trace answeredThenPolls (by decide +kernel)
  refine ⟨by decide +kernel, ?_⟩
  refine (negative_wait_failed_everything_iff hs (by decide +kernel) einval).mpr ⟨rfl, ?_⟩
  intro cid res p hat
  cases hat

theorem negative_wait_leaves_pending : ∃ s, Reachable machine (initial .libc false) s ∧
    s.Polling ∧ (next s (.pollFailed einval)).trace.head? = some (.waited (-22)) ∧
      .accepted 0 ∈ s.trace ∧ fires (next s (.pollFailed einval)) 0 = 0 ∧
        ¬ EverythingFailed s (next s (.pollFailed einval)) := by
  let s := runTrace machine (initial .libc false) pollFails
  have hlook : (next s (.pollFailed einval)).pending.lookup 1 = some ⟨true, 0⟩ := by
    decide +kernel
  refine ⟨s, reachable_of_trace pollFails (by decide +kernel), by decide +kernel,
    by decide +kernel, by decide +kernel, by decide +kernel, fun h => ?_⟩
  rw [h.drained] at hlook
  cases hlook

end Traces

end EasybdClientWaitErrors
