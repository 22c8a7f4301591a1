import Mathlib.Data.List.Nodup
import EasyBD.EasybdWorker

/-! `~Queue` of the libc backend, destroyed by `worker_main` after a shutdown or while an exception
leaves `step`. Its loops walk `_fds` and the deques themselves, while each `cancel()` runs the
coroutine it resumes. -/
namespace EasybdWorkerTeardown

open TransitionRuns EasyioQueue EasyioLibcQueue EasyioLibcStep EasybdWorker

/-- What the kernel answers meanwhile: to `accept4`, and to the sends on each descriptor. -/
structure Kernel where
  accepts : List Accepted
  outcomes : ℕ → List SendOutcome

/-- A `cancel()` call: the entry the loop is at, the operation, and the worker before and after. -/
structure Cancel where
  fd : ℕ
  op : Op
  before : Worker
  after : Worker

/-- `AcceptAwaiter::cancel` and `RecvStreamImpl::cancel`, with what they resume: the accept
throws, and so does a waiting `read_exact`, which ends the read loop. -/
def cancelRead (H : Host) (k : Kernel) (w : Worker) (fd : ℕ) : Worker :=
  if fd = H.listenFd then w.acceptThrew H k.accepts
  else
    match w.conns fd with
    | some c => if c.reading = true then w.settle fd { c with reading := false } else w
    | none => w

/-- `SendAwaiter::cancel`: the send throws, and the handler is done. -/
def cancelWrite (H : Host) (k : Kernel) (w : Worker) (fd : ℕ) : Worker :=
  match w.conns fd with
  | some c => w.resumeHandlers H fd c c.handlers.tail (k.outcomes fd)
  | none => w

def cancelWrites (H : Host) (k : Kernel) (fd : ℕ) : List Op → Worker → List Cancel × Worker
  | [], w => ([], w)
  | op :: ops, w =>
    let canceled := cancelWrite H k w fd
    let rest := cancelWrites H k fd ops canceled
    (⟨fd, op, w, canceled⟩ :: rest.1, rest.2)

def destroyEntry (H : Host) (k : Kernel) (w : Worker) (fd : ℕ) : List Cancel × Worker :=
  match w.queue.read fd with
  | some op =>
    let canceled := cancelRead H k w fd
    let rest := cancelWrites H k fd (canceled.queue.writes fd) canceled
    (⟨fd, op, w, canceled⟩ :: rest.1, rest.2)
  | none => cancelWrites H k fd (w.queue.writes fd) w

/-- `~Queue`, with the entries in the order of the map. A `cancel()` that disturbs what is being
iterated leaves the code's further behaviour undefined; the calls up to it are as here. -/
def destroy (H : Host) (k : Kernel) : List ℕ → Worker → List Cancel × Worker
  | [], w => ([], w)
  | fd :: fds, w =>
    let entry := destroyEntry H k w fd
    let rest := destroy H k fds entry.2
    (entry.1 ++ rest.1, rest.2)

structure Enumerates (q : Queue) (order : List ℕ) : Prop where
  nodup : order.Nodup
  mem : ∀ fd, fd ∈ order ↔ q.fds fd ≠ none

def registeredAt (q : Queue) (fd : ℕ) : List (ℕ × Op) :=
  ((q.read fd).toList ++ q.writes fd).map fun op => (fd, op)

/-- The call inserts and erases no entry, and leaves the deque of the entry as it is. -/
structure Undisturbed (c : Cancel) : Prop where
  entries : ∀ fd, (c.after.queue.fds fd).isSome = (c.before.queue.fds fd).isSome
  deque : c.after.queue.writes c.fd = c.before.queue.writes c.fd

def canceled (cancels : List Cancel) : List (ℕ × Op) := cancels.map fun c => (c.fd, c.op)

structure CancelsSafely (H : Host) (k : Kernel) (order : List ℕ) (w : Worker) : Prop where
  once : (canceled (destroy H k order w).1).Perm (order.flatMap (registeredAt w.queue))
  undisturbed : ∀ c ∈ (destroy H k order w).1, Undisturbed c
  complete : ∀ fd, ∀ p ∈ registeredAt (destroy H k order w).2.queue fd,
    p ∈ canceled (destroy H k order w).1

/-- A shutdown has been requested, every connection has a handler in its send, and the handlers
that get `send_mtx` from it send everything or fail. -/
structure NothingInTheWay (k : Kernel) (w : Worker) : Prop where
  shutdown : w.shutdown = true
  busy : ∀ fd c, w.conns fd = some c → c.handlers ≠ []
  sends : ∀ fd c, w.conns fd = some c → runHandlers c.handlers.tail (k.outcomes fd) = []

section Frames

variable {H : Host} {k : Kernel} {w w' : Worker} {fd fd' : ℕ}

structure SameAt (fd : ℕ) (w w' : Worker) : Prop where
  fds : w'.queue.fds fd = w.queue.fds fd
  conns : w'.conns fd = w.conns fd
  shutdown : w'.shutdown = w.shutdown
  registered : w.queue.registered ≤ w'.queue.registered

theorem SameAt.refl (fd : ℕ) (w : Worker) : SameAt fd w w := ⟨rfl, rfl, rfl, Nat.le_refl _⟩

theorem SameAt.trans {w'' : Worker} (h : SameAt fd w w') (j : SameAt fd w' w'') :
    SameAt fd w w'' :=
  ⟨j.fds.trans h.fds, j.conns.trans h.conns, j.shutdown.trans h.shutdown,
    Nat.le_trans h.registered j.registered⟩

theorem sameAt_of_touches (h : Touches fd w w') (hne : fd' ≠ fd) : SameAt fd' w w' :=
  ⟨h.queue fd' hne, h.conns fd' hne, h.shutdown, h.registered⟩

theorem SameAt.read (h : SameAt fd w w') : w'.queue.read fd = w.queue.read fd := by
  rw [Queue.read, h.fds, Queue.read]

theorem SameAt.registeredAt (h : SameAt fd w w') :
    registeredAt w'.queue fd = registeredAt w.queue fd := by
  rw [EasybdWorkerTeardown.registeredAt, h.read, Queue.writes, Queue.entry, h.fds]
  rfl

theorem sameAt_cancelRead (hne : fd' ≠ fd) (hlisten : fd = H.listenFd → w.shutdown = true) :
    SameAt fd' w (cancelRead H k w fd) := by
  by_cases hfd : fd = H.listenFd
  · simp only [cancelRead, if_pos hfd, Worker.acceptThrew, Worker.acceptLoop,
      if_pos (hlisten hfd)]
    exact ⟨rfl, rfl, rfl, Nat.le_refl _⟩
  · simp only [cancelRead, if_neg hfd]
    split
    · split
      · exact sameAt_of_touches (touches_settle w fd _) hne
      · exact .refl fd' w
    · exact .refl fd' w

theorem sameAt_cancelWrites (hne : fd' ≠ fd) (ops : List Op) (w : Worker) :
    SameAt fd' w (cancelWrites H k fd ops w).2 := by
  induction ops generalizing w with
  | nil => exact .refl fd' w
  | cons op ops ih =>
    have hcancel : SameAt fd' w (cancelWrite H k w fd) := by
      unfold cancelWrite
      split
      · exact sameAt_of_touches (touches_resumeHandlers w fd _ _ _) hne
      · exact .refl fd' w
    exact hcancel.trans (ih _)

/-- A turn of the loop changes nothing at other descriptors, unless it is the accept's without a
shutdown. -/
theorem sameAt_destroyEntry (hne : fd' ≠ fd) (hlisten : fd = H.listenFd → w.shutdown = true) :
    SameAt fd' w (destroyEntry H k w fd).2 := by
  unfold destroyEntry
  split
  · exact (sameAt_cancelRead hne hlisten).trans (sameAt_cancelWrites hne _ _)
  · exact sameAt_cancelWrites hne _ w

theorem sameAt_destroy (order : List ℕ) (hmem : fd' ∉ order)
    (hlisten : H.listenFd ∈ order → w.shutdown = true) :
    SameAt fd' w (destroy H k order w).2 := by
  induction order generalizing w with
  | nil => exact .refl fd' w
  | cons fd order ih =>
    rw [List.mem_cons, not_or] at hmem
    have hentry : SameAt fd' w (destroyEntry H k w fd).2 :=
      sameAt_destroyEntry hmem.1 fun heq => hlisten (heq ▸ List.mem_cons_self)
    refine hentry.trans (ih hmem.2 fun hlater => ?_)
    exact hentry.shutdown.trans (hlisten (List.mem_cons_of_mem _ hlater))

theorem fd_of_mem_cancelWrites {ops : List Op} {c : Cancel}
    (hc : c ∈ (cancelWrites H k fd ops w).1) : c.fd = fd := by
  induction ops generalizing w with
  | nil => cases hc
  | cons op ops ih =>
    rcases List.mem_cons.mp hc with rfl | hrest
    · rfl
    · exact ih hrest

theorem fd_of_mem_destroyEntry {c : Cancel} (hc : c ∈ (destroyEntry H k w fd).1) : c.fd = fd := by
  unfold destroyEntry at hc
  split at hc
  · rcases List.mem_cons.mp hc with rfl | hrest
    · rfl
    · exact fd_of_mem_cancelWrites hrest
  · exact fd_of_mem_cancelWrites hc

theorem fd_mem_of_mem_destroy {order : List ℕ} {c : Cancel} (hc : c ∈ (destroy H k order w).1) :
    c.fd ∈ order := by
  induction order generalizing w with
  | nil => cases hc
  | cons fd order ih =>
    rcases List.mem_append.mp hc with hentry | hrest
    · rw [fd_of_mem_destroyEntry hentry]
      exact List.mem_cons_self
    · exact List.mem_cons_of_mem _ (ih hrest)

theorem destroy_append (before later : List ℕ) (w : Worker) :
    destroy H k (before ++ later) w =
      ((destroy H k before w).1 ++ (destroy H k later (destroy H k before w).2).1,
        (destroy H k later (destroy H k before w).2).2) := by
  induction before generalizing w with
  | nil => rfl
  | cons fd before ih =>
    simp only [List.cons_append, destroy, ih, List.append_assoc]

end Frames

/-- An entry whose turn disturbs nothing. -/
inductive Ready (H : Host) (k : Kernel) (w : Worker) (fd : ℕ) : Prop where
  | accept (op : Op) (gen : UInt64) : fd = H.listenFd → w.shutdown = true →
      w.queue.fds fd = some ⟨some op, gen, []⟩ → Ready H k w fd
  | sending (c : Connection) (gen : UInt64) (op : Op) : fd ≠ H.listenFd → w.conns fd = some c →
      c.handlers ≠ [] → runHandlers c.handlers.tail (k.outcomes fd) = [] →
      w.queue.fds fd = some ⟨some c.stream, gen, [op]⟩ → Ready H k w fd

section Good

variable {H : Host} {k : Kernel} {w w' : Worker} {fd : ℕ}

theorem Ready.sameAt (h : Ready H k w fd) (hsame : SameAt fd w w') : Ready H k w' fd := by
  cases h with
  | accept op gen hfd hshutdown hentry =>
    exact .accept op gen hfd (hsame.shutdown.trans hshutdown) (hsame.fds.trans hentry)
  | sending c gen op hfd hconn hbusy hsends hentry =>
    exact .sending c gen op hfd (hsame.conns.trans hconn) hbusy hsends (hsame.fds.trans hentry)

theorem undisturbed_of_fds {op : Op} (h : w'.queue.fds = w.queue.fds) :
    Undisturbed ⟨fd, op, w, w'⟩ := by
  refine ⟨fun fd' => ?_, ?_⟩
  · rw [h]
  · simp only [Queue.writes, Queue.entry, h]

theorem cancelRead_busy {c : Connection} (hfd : fd ≠ H.listenFd) (hconn : w.conns fd = some c)
    (hbusy : c.handlers ≠ []) : (cancelRead H k w fd).queue = w.queue ∧
      (cancelRead H k w fd).conns fd = some { c with reading := false } := by
  by_cases hreading : c.reading = true
  · have hcancel : cancelRead H k w fd =
        { w with conns := Function.update w.conns fd (some { c with reading := false }) } := by
      simp only [cancelRead, if_neg hfd, hconn, if_pos hreading, Worker.settle, hbusy, and_false,
        if_false]
    rw [hcancel]
    exact ⟨rfl, Function.update_self _ _ _⟩
  · have hcancel : cancelRead H k w fd = w := by
      simp only [cancelRead, if_neg hfd, hconn, if_neg hreading]
    have hended : c = { c with reading := false } := by
      rw [Bool.not_eq_true] at hreading
      rw [← hreading]
    rw [hcancel]
    exact ⟨rfl, hended ▸ hconn⟩

/-- What a turn at a ready entry does: it cancels what is registered there, disturbs nothing and
leaves nothing else registered. -/
structure Drained (w : Worker) (fd : ℕ) (cancels : List Cancel) (w' : Worker) : Prop where
  once : canceled cancels = registeredAt w.queue fd
  undisturbed : ∀ c ∈ cancels, Undisturbed c
  complete : ∀ p ∈ registeredAt w'.queue fd, p ∈ canceled cancels

theorem registeredAt_of_entry {q : Queue} {read : Option Op} {gen : UInt64} {ops : List Op}
    (h : q.fds fd = some ⟨read, gen, ops⟩) :
    registeredAt q fd = (read.toList ++ ops).map fun op => (fd, op) := by
  rw [registeredAt, read_of_entry h, writes_of_entry h]

theorem drained_destroyEntry (h : Ready H k w fd) :
    Drained w fd (destroyEntry H k w fd).1 (destroyEntry H k w fd).2 := by
  cases h with
  | accept op gen hfd hshutdown hentry =>
    have hcancel : cancelRead H k w fd = { w with accepting := false } := by
      simp only [cancelRead, if_pos hfd, Worker.acceptThrew, Worker.acceptLoop, if_pos hshutdown]
    have hvisit : destroyEntry H k w fd =
        ([⟨fd, op, w, { w with accepting := false }⟩], { w with accepting := false }) := by
      simp only [destroyEntry, read_of_entry hentry, hcancel, writes_of_entry hentry, cancelWrites]
    rw [hvisit]
    refine ⟨?_, ?_, ?_⟩
    · rw [registeredAt_of_entry hentry]
      rfl
    · intro c hc
      rw [List.mem_singleton.mp hc]
      exact undisturbed_of_fds rfl
    · intro p hp
      rw [registeredAt_of_entry hentry] at hp
      exact hp
  | sending c gen op hfd hconn hbusy hsends hentry =>
    obtain ⟨u, hu⟩ : ∃ u, cancelRead H k w fd = u := ⟨_, rfl⟩
    obtain ⟨hqueue, hconn'⟩ := @cancelRead_busy H k w fd c hfd hconn hbusy
    rw [hu] at hqueue hconn'
    have hentry' : u.queue.fds fd = some ⟨some c.stream, gen, [op]⟩ := hqueue ▸ hentry
    obtain ⟨v, hv⟩ : ∃ v, cancelWrite H k u fd = v := ⟨_, rfl⟩
    have hvisit : destroyEntry H k w fd = ([⟨fd, c.stream, w, u⟩, ⟨fd, op, u, v⟩], v) := by
      simp only [destroyEntry, read_of_entry hentry, hu, writes_of_entry hentry', cancelWrites, hv]
    have hwrite : v = u.resumeHandlers H fd { c with reading := false } c.handlers.tail
        (k.outcomes fd) := by
      rw [← hv]
      simp only [cancelWrite, hconn']
    have hresumed := @resumeHandlers_cases H u fd { c with reading := false } gen op hentry'
      c.handlers.tail (k.outcomes fd)
    have htouches := @touches_resumeHandlers H u fd { c with reading := false } c.handlers.tail
      (k.outcomes fd)
    rw [← hwrite] at hresumed htouches
    rw [hsends] at hresumed
    rw [hvisit]
    cases hresumed with
    | reading hstill _ _ => cases hstill
    | returned _ _ hleft =>
      refine ⟨?_, ?_, ?_⟩
      · rw [registeredAt_of_entry hentry]
        rfl
      · intro cancel hcancel
        rcases List.mem_cons.mp hcancel with rfl | hlast
        · exact undisturbed_of_fds (congrArg Queue.fds hqueue)
        · rw [List.mem_singleton.mp hlast]
          refine ⟨fun fd' => ?_, ?_⟩
          · by_cases heq : fd' = fd
            · subst heq
              simp only [hleft, hentry', Option.isSome_some]
            · simp only [htouches.queue fd' heq]
          · exact (writes_of_entry hleft).trans (writes_of_entry hentry').symm
      · intro p hp
        rw [registeredAt_of_entry hleft] at hp
        simp only [Option.toList_none, List.nil_append, List.map_cons, List.map_nil,
          List.mem_singleton] at hp
        subst hp
        exact List.mem_cons_of_mem _ List.mem_cons_self

theorem canceled_append (xs ys : List Cancel) :
    canceled (xs ++ ys) = canceled xs ++ canceled ys := List.map_append

theorem drained_destroy {order : List ℕ} (hnodup : order.Nodup)
    (hready : ∀ fd ∈ order, Ready H k w fd) :
    canceled (destroy H k order w).1 = order.flatMap (registeredAt w.queue) ∧
      (∀ c ∈ (destroy H k order w).1, Undisturbed c) ∧
      ∀ fd ∈ order, ∀ p ∈ registeredAt (destroy H k order w).2.queue fd,
        p ∈ canceled (destroy H k order w).1 := by
  induction order generalizing w with
  | nil => exact ⟨rfl, by rintro c ⟨⟩, by rintro fd ⟨⟩⟩
  | cons fd order ih =>
    obtain ⟨hfresh, hnodup'⟩ := List.nodup_cons.mp hnodup
    have hfirst := hready fd List.mem_cons_self
    have hlisten : fd = H.listenFd → w.shutdown = true := by
      intro heq
      cases hfirst with
      | accept _ _ _ hshutdown _ => exact hshutdown
      | sending _ _ _ hne _ _ _ _ => exact absurd heq hne
    have hsame (fd' : ℕ) (hmem : fd' ∈ order) :
        SameAt fd' w (destroyEntry H k w fd).2 := by
      apply sameAt_destroyEntry _ hlisten
      rintro rfl
      exact hfresh hmem
    have hdrained := drained_destroyEntry hfirst
    obtain ⟨honce, hquiet, hcomplete⟩ := @ih (destroyEntry H k w fd).2 hnodup' fun fd' hmem =>
      (hready fd' (List.mem_cons_of_mem _ hmem)).sameAt (hsame fd' hmem)
    refine ⟨?_, fun c hc => ?_, fun fd' hmem p hp => ?_⟩
    · have hlater : order.flatMap (registeredAt (destroyEntry H k w fd).2.queue) =
          order.flatMap (registeredAt w.queue) :=
        List.flatMap_congr fun fd' hmem => (hsame fd' hmem).registeredAt
      simp only [destroy, canceled_append, honce, hdrained.once, List.flatMap_cons, hlater]
    · rcases List.mem_append.mp hc with hfirst' | hrest
      · exact hdrained.undisturbed c hfirst'
      · exact hquiet c hrest
    · simp only [destroy, canceled_append]
      rcases List.mem_cons.mp hmem with rfl | hlater
      · refine List.mem_append_left _ (hdrained.complete p ?_)
        have hrest : SameAt fd' (destroyEntry H k w fd').2
            (destroy H k order (destroyEntry H k w fd').2).2 := by
          apply sameAt_destroy order hfresh
          intro hlater
          cases hready H.listenFd (List.mem_cons_of_mem _ hlater) with
          | accept _ _ _ hshutdown _ => exact (hsame _ hlater).shutdown.trans hshutdown
          | sending _ _ _ hne _ _ _ _ => exact absurd rfl hne
        rw [← hrest.registeredAt]
        exact hp
      · exact List.mem_append_right _ (hcomplete fd' hlater p hp)

theorem ready_of_nothingInTheWay (hw : Consistent H w) (h : NothingInTheWay k w)
    (hentry : w.queue.fds fd ≠ none) : Ready H k w fd := by
  by_cases hfd : fd = H.listenFd
  · subst hfd
    cases haccepting : w.accepting with
    | true =>
      obtain ⟨op, gen, hfds, -⟩ := hw.listening haccepting
      exact .accept op gen rfl h.shutdown hfds
    | false => exact absurd (hw.stopped haccepting).1 hentry
  · cases hw.served fd hfd with
    | closed _ hnone => exact absurd hnone hentry
    | connected c hconn hc _ =>
      have hbusy := h.busy fd c hconn
      have hsends := h.sends fd c hconn
      cases hq : c.handlers with
      | nil => exact absurd hq hbusy
      | cons left waiting =>
        rw [hq] at hc
        cases hc with
        | sending gen op _ _ hfds => exact .sending c gen op hfd hconn hbusy hsends hfds

theorem cancelsSafely_of_nothingInTheWay (hw : Consistent H w) (h : NothingInTheWay k w)
    {order : List ℕ} (horder : Enumerates w.queue order) : CancelsSafely H k order w := by
  obtain ⟨honce, hquiet, hcomplete⟩ := drained_destroy horder.nodup fun fd hmem =>
    ready_of_nothingInTheWay hw h ((horder.mem fd).mp hmem)
  refine ⟨List.Perm.of_eq honce, hquiet, fun fd p hp => ?_⟩
  by_cases hmem : fd ∈ order
  · exact hcomplete fd hmem p hp
  · have hsame : SameAt fd w (destroy H k order w).2 :=
      sameAt_destroy order hmem fun _ => h.shutdown
    have hnone : w.queue.fds fd = none := by
      by_contra hne
      exact hmem ((horder.mem fd).mpr hne)
    rw [hsame.registeredAt, registeredAt, Queue.read, Queue.writes, Queue.entry, hnone] at hp
    cases hp

end Good

section Disturbed

variable {H : Host} {k : Kernel} {w : Worker} {order : List ℕ}

theorem turn_at {fd : ℕ} (horder : Enumerates w.queue order) (hentry : w.queue.fds fd ≠ none)
    (hlisten : fd ≠ H.listenFd → w.shutdown = true) :
    ∃ u later, SameAt fd w u ∧ fd ∉ later ∧
      (∀ c ∈ (destroyEntry H k u fd).1, c ∈ (destroy H k order w).1) ∧
      (∀ c ∈ (destroy H k order w).1, c.fd = fd → c ∈ (destroyEntry H k u fd).1) ∧
      (destroy H k order w).2 = (destroy H k later (destroyEntry H k u fd).2).2 := by
  obtain ⟨before, later, rfl⟩ := List.append_of_mem ((horder.mem fd).mpr hentry)
  have hsplit := List.nodup_middle.mp horder.nodup
  rw [List.nodup_cons, List.mem_append, not_or] at hsplit
  obtain ⟨⟨hbefore, hlater⟩, -⟩ := hsplit
  have hsame : SameAt fd w (destroy H k before w).2 := by
    apply sameAt_destroy before hbefore
    intro hmem
    apply hlisten
    rintro rfl
    exact hbefore hmem
  refine ⟨_, later, hsame, hlater, fun c hc => ?_, fun c hc hfd => ?_, ?_⟩
  · rw [destroy_append]
    exact List.mem_append_right _ (List.mem_append_left _ hc)
  · rw [destroy_append] at hc
    rcases List.mem_append.mp hc with hold | hnew
    · exact absurd (hfd ▸ fd_mem_of_mem_destroy hold) hbefore
    · rcases List.mem_append.mp hnew with hturn | hrest
      · exact hturn
      · exact absurd (hfd ▸ fd_mem_of_mem_destroy hrest) hlater
  · rw [destroy_append]
    rfl

/-- Without a shutdown `accept_loop` waits again, in an operation the loop has passed. -/
theorem shutdown_of_cancelsSafely (hw : Consistent H w) (horder : Enumerates w.queue order)
    (h : CancelsSafely H k order w) : w.shutdown = true := by
  by_contra hrunning
  have haccepting : w.accepting = true := by
    by_contra hstopped
    exact hrunning (hw.stopped (by simpa using hstopped)).2
  obtain ⟨op, gen, hfds, hold⟩ := hw.listening haccepting
  obtain ⟨u, later, hsame, hlater, -, honly, hlast⟩ := @turn_at H k w order H.listenFd horder
    (by rw [hfds]; simp) fun hne => absurd rfl hne
  have hfds' : u.queue.fds H.listenFd = some ⟨some op, gen, []⟩ := hsame.fds.trans hfds
  have hrunning' : u.shutdown ≠ true := fun hset => hrunning (hsame.shutdown.symm.trans hset)
  obtain ⟨hconns, -, hends⟩ := @acceptLoop_ends H k.accepts u
  generalize hv : Worker.acceptLoop H k.accepts u = v at hconns hends
  have hcancel : cancelRead H k u H.listenFd = v := by
    simp only [cancelRead, if_true, Worker.acceptThrew, Worker.acceptLoop, if_neg hrunning', hv]
  cases hends with
  | returned _ hset _ => exact hrunning' hset
  | waits again _ hnew _ hwaits =>
    rw [Queue.entry, hfds', Option.getD_some] at hwaits
    have hturn : destroyEntry H k u H.listenFd = ([⟨H.listenFd, op, u, v⟩], v) := by
      simp only [destroyEntry, read_of_entry hfds', hcancel, writes_of_entry hwaits, cancelWrites]
    rw [hturn] at honly hlast
    -- The new accept is still registered at the end.
    have hleft : SameAt H.listenFd v (destroy H k order w).2 := by
      rw [hlast]
      exact sameAt_destroy later hlater fun hmem => absurd hmem hlater
    have hregistered : (H.listenFd, again) ∈
        registeredAt (destroy H k order w).2.queue H.listenFd := by
      rw [hleft.registeredAt, registeredAt_of_entry hwaits]
      exact List.mem_singleton_self _
    obtain ⟨c, hc, hpair⟩ := List.mem_map.mp (h.complete _ _ hregistered)
    injection hpair with hfd hop
    rw [List.mem_singleton.mp (honly c hc hfd)] at hop
    rw [← hop] at hnew
    exact absurd (Nat.lt_of_lt_of_le hold hsame.registered) (Nat.not_lt.mpr hnew)

/-- The stream of an idle connection deregisters itself and erases the entry the loop is at. -/
theorem busy_of_cancelsSafely (hw : Consistent H w) (horder : Enumerates w.queue order)
    (hshutdown : w.shutdown = true) (h : CancelsSafely H k order w) {fd : ℕ} {c : Connection}
    (hconn : w.conns fd = some c) : c.handlers ≠ [] := by
  intro hidle
  obtain ⟨hne, hentry, hends⟩ := hw.connection hconn
  rw [hidle] at hentry
  cases hentry with
  | idle gen hfds =>
    obtain ⟨u, later, hsame, -, hmem, -, -⟩ := @turn_at H k w order fd horder
      (by rw [hfds]; simp) fun _ => hshutdown
    have hfds' : u.queue.fds fd = some ⟨some c.stream, gen, []⟩ := hsame.fds.trans hfds
    have hreading : c.reading = true := by
      by_contra hended
      exact hends (by simpa using hended) hidle
    have hcancel : (cancelRead H k u fd).queue.fds fd = none := by
      have hclear := fds_clearReadOp hfds'
      simp only [cancelRead, if_neg hne, hsame.conns.trans hconn, if_pos hreading, Worker.settle,
        hidle, and_self, if_true]
      exact hclear
    have hturn : ⟨fd, c.stream, u, cancelRead H k u fd⟩ ∈ (destroyEntry H k u fd).1 := by
      simp only [destroyEntry, read_of_entry hfds']
      exact List.mem_cons_self
    have hquiet := (h.undisturbed _ (hmem _ hturn)).entries fd
    rw [hcancel, hfds'] at hquiet
    cases hquiet

/-- A handler that gets the mutex and meets `EAGAIN` queues its send behind the canceled one. -/
theorem sends_of_cancelsSafely (hw : Consistent H w) (horder : Enumerates w.queue order)
    (hshutdown : w.shutdown = true) (h : CancelsSafely H k order w) {fd : ℕ} {c : Connection}
    (hconn : w.conns fd = some c) : runHandlers c.handlers.tail (k.outcomes fd) = [] := by
  have hbusy := busy_of_cancelsSafely hw horder hshutdown h hconn
  obtain ⟨hne, hentry, -⟩ := hw.connection hconn
  cases hq : c.handlers with
  | nil => exact absurd hq hbusy
  | cons left waiting =>
    rw [hq] at hentry
    cases hentry with
    | sending gen op _ _ hfds =>
      obtain ⟨u, later, hsame, -, hmem, -, -⟩ := @turn_at H k w order fd horder
        (by rw [hfds]; simp) fun _ => hshutdown
      have hfds' : u.queue.fds fd = some ⟨some c.stream, gen, [op]⟩ := hsame.fds.trans hfds
      obtain ⟨hqueue, hconn'⟩ := @cancelRead_busy H k u fd c hne (hsame.conns.trans hconn) hbusy
      obtain ⟨v, hv⟩ : ∃ v, cancelRead H k u fd = v := ⟨_, rfl⟩
      rw [hv] at hqueue hconn'
      have hentry' : v.queue.fds fd = some ⟨some c.stream, gen, [op]⟩ := hqueue ▸ hfds'
      have hturn : ⟨fd, op, v, cancelWrite H k v fd⟩ ∈ (destroyEntry H k u fd).1 := by
        simp only [destroyEntry, read_of_entry hfds', hv, writes_of_entry hentry', cancelWrites]
        exact List.mem_cons_of_mem _ List.mem_cons_self
      have hquiet := (h.undisturbed _ (hmem _ hturn)).deque
      have hresumed := @resumeHandlers_cases H v fd { c with reading := false } gen op hentry'
        c.handlers.tail (k.outcomes fd)
      have hcancel : cancelWrite H k v fd = v.resumeHandlers H fd { c with reading := false }
          c.handlers.tail (k.outcomes fd) := by
        simp only [cancelWrite, hconn']
      rw [← hcancel, hq, List.tail_cons] at hresumed
      rw [List.tail_cons]
      generalize runHandlers waiting (k.outcomes fd) = handlers at hresumed ⊢
      cases hresumed with
      | reading _ _ _ | returned _ _ _ => rfl
      | blocked left' waiting' send _ hblocked =>
        have htwo := (writes_of_entry hblocked).symm.trans
          (hquiet.trans (writes_of_entry hentry'))
        simp at htwo

end Disturbed

theorem queue_teardown_safe_iff {H : Host} {results : List Accepted} {w : Worker}
    (h : Reachable (machine H) (.start H results) w) (k : Kernel) {order : List ℕ}
    (horder : Enumerates w.queue order) :
    CancelsSafely H k order w ↔ NothingInTheWay k w := by
  have hw := consistent_of_reachable h
  constructor
  · intro hsafe
    have hshutdown := shutdown_of_cancelsSafely hw horder hsafe
    exact ⟨hshutdown, fun fd c => busy_of_cancelsSafely hw horder hshutdown hsafe,
      fun fd c => sends_of_cancelsSafely hw horder hshutdown hsafe⟩
  · intro hfree
    exact cancelsSafely_of_nothingInTheWay hw hfree horder

section Runs

def host : Host := ⟨3, id⟩

def serving (r : Worker.Received) : Worker :=
  next host (.start host [.connection 7 r]) .shutdown

theorem serving_reachable (r : Worker.Received) :
    Reachable (machine host) (.start host [.connection 7 r]) (serving r) :=
  Run.single (M := machine host) (e := .shutdown) trivial trivial

theorem conns_serving (r : Worker.Received) {fd : ℕ} (hfd : fd ≠ 7) :
    (serving r).conns fd = none :=
  (touches_connect (H := host) ⟨.create, fun _ => none, false, false⟩ 7 r).conns fd hfd

theorem fds_of_conns {w : Worker} (hw : Consistent host w) {fd : ℕ} {c : Connection}
    (hc : w.conns fd = some c) : w.queue.fds fd ≠ none := by
  obtain ⟨-, hentry, -⟩ := hw.connection hc
  generalize c.handlers = handlers at hentry
  cases hentry with
  | idle _ hfds | sending _ _ _ _ hfds => simp [hfds]

theorem enumerates_serving {r : Worker.Received} {c : Connection}
    (hc : (serving r).conns 7 = some c) : Enumerates (serving r).queue [7, 3] := by
  have hw := consistent_of_reachable (serving_reachable r)
  refine ⟨by decide, fun fd => ⟨fun hmem => ?_, fun hne => ?_⟩⟩
  · rcases List.mem_cons.mp hmem with rfl | hlisten
    · exact fds_of_conns hw hc
    · obtain ⟨op, gen, hfds, -⟩ := hw.listening rfl
      rw [List.mem_singleton.mp hlisten]
      exact fun hnone => absurd (hfds.symm.trans hnone) (by simp)
  · by_contra hnot
    rw [List.mem_cons, List.mem_singleton, not_or] at hnot
    cases hw.served fd hnot.2 with
    | closed _ hnone => exact hne hnone
    | connected c' hc' _ _ =>
      rw [conns_serving r hnot.1] at hc'
      cases hc'

def twoResponses : Worker.Received := ⟨[16, 24], [.suspended], false⟩

theorem queue_teardown_safe_while_sending :
    CancelsSafely host ⟨[], fun _ => [.accepted 24]⟩ [7, 3] (serving twoResponses) := by
  refine (queue_teardown_safe_iff (serving_reachable twoResponses) _
    (enumerates_serving rfl)).mpr ⟨rfl, fun fd c hc => ?_, fun fd c hc => ?_⟩
  all_goals
    by_cases hfd : fd = 7
    · subst hfd
      cases hc
      decide
    · rw [conns_serving twoResponses hfd] at hc
      cases hc

/-- One connection is idle in `recv`, after a requested shutdown. -/
theorem idle_connection_erased_in_teardown :
    let w := serving ⟨[], [], false⟩
    Reachable (machine host) (.start host [.connection 7 ⟨[], [], false⟩]) w ∧
      Enumerates w.queue [7, 3] ∧ w.shutdown = true ∧
      ¬ CancelsSafely host ⟨[], fun _ => []⟩ [7, 3] w := by
  intro w
  have hconn : w.conns 7 = some ⟨⟨0, 0⟩, true, []⟩ := rfl
  have horder : Enumerates w.queue [7, 3] := enumerates_serving hconn
  refine ⟨serving_reachable _, horder, rfl, fun h => ?_⟩
  have hw := consistent_of_reachable (serving_reachable ⟨[], [], false⟩)
  exact busy_of_cancelsSafely hw horder rfl h hconn rfl

end Runs

end EasybdWorkerTeardown
