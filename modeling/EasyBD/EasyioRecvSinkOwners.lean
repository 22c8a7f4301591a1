import EasyBD.EasyioUringRecvStream
import EasyBD.EasyioSingleShotRecvStream
import EasyBD.EasyioRecvSink

/-! `RecvStreamImpl` with its `RecvSink`, and `SingleShotRecvStreamImpl` with its
`SingleShotRecvSink`. The kernel may post any completion of a running recv, but a multishot one
ends with `ENOBUFS`. -/
namespace EasyioRecvSinkOwners

open TransitionRuns EasyioQueue EasyioRecvStream EasyioRecvSink

section Multishot

open EasyioUringRecvStream
open EasyioUringRecvStream (State)

/-- `RecvStreamImpl` and `RecvSink`. -/
def multishot : Driver State Cqe where
  recv s := ⟨s.live, s.queued, s.ops, s.cq.map Cqe.more⟩
  more := Cqe.more
  start s := EasyioUringRecvStream.next s .submit
  post := State.post
  front s := match s.cq with
    | c :: cq => some (c, { s with cq })
    | [] => none
  clear s := { s with live := false }
  handleCqe := State.handleCqe
  await := State.await
  waiter := State.waiter

/-- The multishot op terminates itself when the ring runs out of buffers. -/
def EndsWithNoBuffers (c : Cqe) : Prop := c.res = .failed enobufs → c.more = false

instance : DecidablePred EndsWithNoBuffers := fun c =>
  inferInstanceAs (Decidable (c.res = .failed enobufs → c.more = false))

structure Disciplined (s : State) : Prop where
  quiet : s.needsResubmit = true → s.live = false
  ended : ∀ c ∈ s.cq, EndsWithNoBuffers c

/-- What a stream that goes from `s` to `s'` does to its sink: it may submit a recv. -/
structure Submits (s : State) (resubmits : Bool) (s' : State) : Prop where
  cq : s'.cq = s.cq
  ops : s'.ops = s.ops
  queued : s'.queued = s.queued + resubmits.toNat
  live : s'.live = (s.live || resubmits)
  quiet : s'.needsResubmit = true → s'.live = false

variable {s s' : State} {resubmits : Bool}

theorem Submits.refl (h : s.needsResubmit = true → s.live = false) : Submits s false s :=
  ⟨rfl, rfl, rfl, (Bool.or_false _).symm, h⟩

theorem Submits.recv (h : Submits s resubmits s') : multishot.recv s' =
    if resubmits = true then (multishot.recv s).submitRecv else multishot.recv s := by
  have hqueued := h.queued
  have hlive := h.live
  cases resubmits with
  | false => simp_all [multishot, h.cq, h.ops]
  | true => simp_all [multishot, Recv.submitRecv, h.cq, h.ops]

theorem Submits.disciplined (h : Submits s resubmits s')
    (hended : ∀ c ∈ s.cq, EndsWithNoBuffers c) : Disciplined s' :=
  ⟨h.quiet, fun c hc => hended c (h.cq ▸ hc)⟩

theorem submits_maybeResubmit (h : s.needsResubmit = true → s.live = false) :
    ∃ resubmits, Submits s resubmits s.maybeResubmit ∧
      (resubmits = true → s.needsResubmit = true) := by
  unfold State.maybeResubmit
  split
  · next hneeds =>
    exact ⟨true, ⟨rfl, rfl, rfl, (Bool.or_true _).symm, by rintro ⟨⟩⟩, fun _ => hneeds.1⟩
  · exact ⟨false, .refl h, by rintro ⟨⟩⟩

theorem submits_awaitResume (h : Submits s resubmits s') (w : Waiter) :
    Submits s resubmits (s'.awaitResume w) :=
  Source.awaitResume_invariant (T := State.source)
    (I := Submits s resubmits) (fun _ _ _ hu _ => ⟨hu.1, hu.2, hu.3, hu.4, hu.5⟩)
    (fun _ hu => ⟨hu.1, hu.2, hu.3, hu.4, hu.5⟩) h w

theorem Submits.waiter (h : Submits s resubmits s') (waiter : Option Waiter) :
    Submits s resubmits { s' with waiter } := ⟨h.1, h.2, h.3, h.4, h.5⟩

theorem submits_resume (h : Submits s resubmits s') : Submits s resubmits s'.resume := by
  unfold State.resume
  split
  · next w _ => exact submits_awaitResume (h.waiter none) w
  · exact h

/-- `handle_cqe` submits a recv only at the last completion of the one before. -/
theorem submits_handleCqe {c : Cqe} (h : s.needsResubmit = true → s.live = false)
    (hdead : c.more = false → s.live = false) (hended : EndsWithNoBuffers c) :
    ∃ resubmits, Submits s resubmits (s.handleCqe c) ∧ (resubmits = true → c.more = false) := by
  have habsorb : ∃ resubmits, Submits s resubmits (s.absorb c) ∧
      (resubmits = true → c.more = false) := by
    have hcase := absorb_cases s c
    generalize s.absorb c = u at hcase ⊢
    have hlast (hmore : c.more = false) (pending : List Pending) : ∃ resubmits,
        Submits s resubmits { s with pending, needsResubmit := true }.maybeResubmit := by
      obtain ⟨resubmits, hr, -⟩ := submits_maybeResubmit
        (s := { s with pending, needsResubmit := true }) fun _ => hdead hmore
      exact ⟨resubmits, hr.1, hr.2, hr.3, hr.4, hr.5⟩
    cases hcase with
    | chunk p _ hmore => exact ⟨false, ⟨rfl, rfl, rfl, (Bool.or_false _).symm, h⟩, by rintro ⟨⟩⟩
    | lastChunk p _ hmore =>
      obtain ⟨resubmits, hr⟩ := hlast hmore _
      exact ⟨resubmits, hr, fun _ => hmore⟩
    | noBuffers hres =>
      obtain ⟨resubmits, hr⟩ := hlast (hended hres) _
      exact ⟨resubmits, hr, fun _ => hended hres⟩
    | error err => exact ⟨false, ⟨rfl, rfl, rfl, (Bool.or_false _).symm, h⟩, by rintro ⟨⟩⟩
    | eof len => exact ⟨false, ⟨rfl, rfl, rfl, (Bool.or_false _).symm, h⟩, by rintro ⟨⟩⟩
  obtain ⟨resubmits, hr, hlast⟩ := habsorb
  refine ⟨resubmits, ?_, hlast⟩
  simp only [State.handleCqe]
  split
  · exact submits_resume hr
  · exact hr

theorem submits_await (h : s.needsResubmit = true → s.live = false) (w : Waiter) :
    ∃ resubmits, Submits s resubmits (s.await w) ∧ (resubmits = true → s.live = false) := by
  obtain ⟨resubmits, hr, hneeds⟩ := submits_maybeResubmit
    (s := { s with br := s.br ++ s.checkedOut, checkedOut := [], lent := [] }) h
  have hreturned : Submits s resubmits s.returnCheckedOut := ⟨hr.1, hr.2, hr.3, hr.4, hr.5⟩
  refine ⟨resubmits, ?_, fun hyes => h (hneeds hyes)⟩
  simp only [State.await]
  split
  · exact submits_awaitResume hreturned w
  · exact hreturned.waiter (some w)

theorem front_multishot {c : Cqe} (hfront : multishot.front s = some (c, s')) :
    ∃ cq, s.cq = c :: cq ∧ s' = { s with cq } := by
  cases hcq : s.cq with
  | nil => simp [multishot, hcq] at hfront
  | cons c' cq =>
    simp only [multishot, hcq, Option.some.injEq, Prod.mk.injEq] at hfront
    obtain ⟨rfl, rfl⟩ := hfront
    exact ⟨cq, rfl, rfl⟩

theorem multishot_lawful : multishot.Lawful EndsWithNoBuffers Disciplined where
  start _ := rfl
  post s c := by
    simp [multishot, State.post, Recv.post]
    rfl
  front s c s' hfront := by
    obtain ⟨cq, hcq, rfl⟩ := front_multishot hfront
    simp [multishot, hcq]
  clear _ := rfl
  keeps_start s h _ := ⟨h.quiet, h.ended⟩
  keeps_post s c h _ hc := by
    refine ⟨h.quiet, fun c' hc' => ?_⟩
    rcases List.mem_append.mp hc' with hold | hnew
    · exact h.ended c' hold
    · rw [List.mem_singleton.mp hnew]
      exact hc
  dispatch s c s' h hfront := by
    obtain ⟨cq, hcq, rfl⟩ := front_multishot hfront
    have hended := h.ended c (hcq ▸ List.mem_cons_self)
    have htail : ∀ c ∈ cq, EndsWithNoBuffers c :=
      fun c hc => h.ended c (hcq ▸ List.mem_cons_of_mem _ hc)
    by_cases hmore : c.more = true
    · obtain ⟨resubmits, hr, hlast⟩ := submits_handleCqe (s := { s with cq }) h.quiet
        (fun hno => absurd (hmore.symm.trans hno) (by simp)) hended
      have hrecv := hr.recv
      refine ⟨resubmits, hlast, ?_⟩
      simp only [show multishot.more c = true from hmore, if_true, Recv.seen]
      exact ⟨hr.disciplined htail, hrecv⟩
    · rw [Bool.not_eq_true] at hmore
      obtain ⟨resubmits, hr, hlast⟩ := submits_handleCqe (s := { s with cq, live := false })
        (fun _ => rfl) (fun _ => rfl) hended
      have hrecv := hr.recv
      refine ⟨resubmits, hlast, ?_⟩
      have hmore' : multishot.more c = false := hmore
      simp only [hmore', Bool.false_eq_true, if_false, Recv.seen]
      exact ⟨hr.disciplined htail, hrecv⟩
  await s w h := by
    obtain ⟨resubmits, hr, hdead⟩ := submits_await h.quiet w
    exact ⟨resubmits, hdead, hr.disciplined h.ended, hr.recv⟩

end Multishot

section SingleShot

open EasyioUringRecvStream (Res)
open EasyioSingleShotRecvStream
open EasyioSingleShotRecvStream (State)

/-- `SingleShotRecvStreamImpl` and `SingleShotRecvSink`. -/
def singleShot : Driver State Res where
  recv s := ⟨s.live, s.queued, s.ops, s.cq.map fun _ => false⟩
  more _ := false
  start s := EasyioSingleShotRecvStream.next s .submit
  post := State.post
  front s := match s.cq with
    | r :: cq => some (r, { s with cq })
    | [] => none
  clear s := { s with live := false }
  handleCqe := State.handleCqe
  await := State.await
  waiter := State.waiter

variable {s : State}

theorem recv_awaitResume (s : State) (w : Waiter) :
    singleShot.recv (s.awaitResume w) = singleShot.recv s := by
  have htake : singleShot.recv s.take = singleShot.recv s := by
    unfold State.take
    split <;> rfl
  cases w with
  | next => exact htake
  | nextBatch cap maxBytes =>
    simp only [State.awaitResume]
    split
    · rfl
    · exact htake

theorem recv_handleCqe (s : State) (r : Res) :
    singleShot.recv (s.handleCqe r) = singleShot.recv s := by
  have hrecord : singleShot.recv (s.record r) = singleShot.recv s := by
    rcases r with err | _ | n <;> rfl
  simp only [State.handleCqe, State.resume]
  split
  · split
    · next w _ => exact (recv_awaitResume _ w).trans hrecord
    · exact hrecord
  · exact hrecord

/-- `next` and `next_batch` submit a recv where the reader had the chunk, and then none is live. -/
theorem recv_await (h : Owned s) (w : Waiter) : ∃ resubmits,
    (resubmits = true → (singleShot.recv s).live = false) ∧ singleShot.recv (s.await w) =
      if resubmits = true then (singleShot.recv s).submitRecv else singleShot.recv s := by
  have hreclaim : ∃ resubmits, (resubmits = true → s.live = false) ∧
      singleShot.recv s.reclaim =
        if resubmits = true then (singleShot.recv s).submitRecv else singleShot.recv s := by
    simp only [State.reclaim]
    split
    · next hout =>
      have hlive := h.live
      rw [(h.of_checkedOut hout).2.1] at hlive
      have hdead : s.live = false := by simpa using hlive.symm
      split
      · exact ⟨true, fun _ => hdead, rfl⟩
      · exact ⟨false, by simp, rfl⟩
    · exact ⟨false, by simp, rfl⟩
  obtain ⟨resubmits, hdead, hrecv⟩ := hreclaim
  refine ⟨resubmits, hdead, ?_⟩
  simp only [State.await]
  split
  · exact (recv_awaitResume _ w).trans hrecv
  · exact hrecv

theorem front_singleShot {r : Res} {s' : State} (hfront : singleShot.front s = some (r, s')) :
    ∃ cq, s.cq = r :: cq ∧ s' = { s with cq } := by
  cases hcq : s.cq with
  | nil => simp [singleShot, hcq] at hfront
  | cons r' cq =>
    simp only [singleShot, hcq, Option.some.injEq, Prod.mk.injEq] at hfront
    obtain ⟨rfl, rfl⟩ := hfront
    exact ⟨cq, rfl, rfl⟩

theorem singleShot_lawful : singleShot.Lawful (fun _ => True) Owned where
  start _ := rfl
  post s r := by simp [singleShot, State.post, Recv.post, List.replicate_succ']
  front s r s' hfront := by
    obtain ⟨cq, hcq, rfl⟩ := front_singleShot hfront
    simp [singleShot, hcq, List.replicate_succ]
  clear _ := rfl
  keeps_start _ h hqueued := owned_submit h hqueued
  keeps_post _ r h hops _ := owned_post h hops r
  dispatch s r s' h hfront := by
    obtain ⟨cq, hcq, rfl⟩ := front_singleShot hfront
    exact ⟨false, by simp, owned_handleCqe h hcq, recv_handleCqe _ r⟩
  await s w h := by
    obtain ⟨resubmits, hdead, hrecv⟩ := recv_await h w
    exact ⟨resubmits, hdead, owned_await h w, hrecv⟩

end SingleShot

/-- Whenever the streams are destroyed, and whether or not their recvs could be canceled. -/
theorem recv_sinks_freed_once {entrySize entries : ℕ} {buf : ℕ → List UInt8}
    {m : Driver.State EasyioUringRecvStream.State}
    (h : Reachable (multishot.machine EndsWithNoBuffers)
      (Driver.initial (EasyioUringRecvStream.initial entrySize entries buf)) m)
    {page : List UInt8} {t : Driver.State EasyioSingleShotRecvStream.State}
    (k : Reachable (singleShot.machine fun _ => True)
      (Driver.initial (EasyioSingleShotRecvStream.initial entrySize page)) t) :
    FreedOnce (multishot.sink m) ∧ FreedOnce (singleShot.sink t) := by
  have hquiet : Disciplined (EasyioUringRecvStream.initial entrySize entries buf) :=
    ⟨by rintro ⟨⟩, List.forall_mem_nil _⟩
  have howned : EasyioSingleShotRecvStream.Owned
      (EasyioSingleShotRecvStream.initial entrySize page) := ⟨rfl, rfl, rfl⟩
  exact ⟨multishot_lawful.freedOnce hquiet rfl h, singleShot_lawful.freedOnce howned rfl k⟩

section Traces

/-- The reader is woken by the first completion and destroys the stream there and then, while the
last one is still posted. -/
def destroyedInItsOwnCompletion : List (Driver.Event EasyioUringRecvStream.Cqe) :=
  [.call .next, .submit, .complete ⟨.ok 1, true, some 0⟩, .complete ⟨.ok 1, false, some 1⟩,
    .dispatch, .destroy true, .dispatch]

/-- The reader has resubmitted the recv when it destroys the stream, and no SQE is left for the
cancel. -/
def destroyedAfterResubmitting : List (Driver.Event EasyioUringRecvStream.Res) :=
  [.call .next, .submit, .complete (.ok 1), .dispatch, .call .next, .destroy false, .submit,
    .complete (.ok 0), .dispatch]

theorem recv_sinks_freed_once_when_destroyed :
    FreedOnce (multishot.sink (runTrace (multishot.machine EndsWithNoBuffers)
        (Driver.initial (EasyioUringRecvStream.initial 1 2 fun _ => []))
        destroyedInItsOwnCompletion)) ∧
      FreedOnce (singleShot.sink (runTrace (singleShot.machine fun _ => True)
        (Driver.initial (EasyioSingleShotRecvStream.initial 1 [])) destroyedAfterResubmitting)) :=
  recv_sinks_freed_once
    (reachable_of_trace destroyedInItsOwnCompletion (by decide +kernel))
    (reachable_of_trace destroyedAfterResubmitting (by decide +kernel))

end Traces

end EasyioRecvSinkOwners
