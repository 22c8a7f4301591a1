import EasyBD.EasyioLibcStep
import EasyBD.EasyioQueue

/-! A server worker on the libc backend: `accept_loop`, its connections, and the table of their
registered operations. File operations do not suspend on this backend, so between two steps a
handler waits in its send or for `send_mtx`, and `handle_connection` in `recv` or in
`wg.wait()`. -/
namespace EasybdWorker

open TransitionRuns EasyioQueue EasyioLibcQueue EasyioLibcStep

/-- The listening socket, and where the allocator puts the operation of each registration. -/
structure Host where
  listenFd : ℕ
  alloc : ℕ → ℕ

/-- Its stream, whether `handle_connection` waits in `recv` (or in `wg.wait()`), and what is left
to send of each response: the first handler holds `send_mtx` and waits in its send, the others
wait for the mutex. -/
structure Connection where
  stream : Op
  reading : Bool
  handlers : List ℕ

/-- `shutdown` is `g_shutdown_requested`. -/
structure Worker where
  queue : Queue
  conns : ℕ → Option Connection
  accepting : Bool
  shutdown : Bool

inductive Sent where
  | done
  | blocked (left : ℕ)

/-- `send_all` of what is left: it is over when all is accepted or a send fails. A send without
an outcome meets `EAGAIN`. -/
def sendAll : ℕ → List SendOutcome → Sent × List SendOutcome
  | left, [] => (.blocked left, [])
  | left, .suspended :: outcomes => (.blocked left, outcomes)
  | _, .failed :: outcomes => (.done, outcomes)
  | left, .accepted n :: outcomes =>
    if left ≤ n then (.done, outcomes) else sendAll (left - n) outcomes

/-- The first handler goes on; each one that is done hands `send_mtx` to the next. -/
def runHandlers : List ℕ → List SendOutcome → List ℕ
  | [], _ => []
  | left :: waiting, outcomes =>
    match sendAll left outcomes with
    | (.done, outcomes) => runHandlers waiting outcomes
    | (.blocked left, _) => left :: waiting

namespace Worker

def pushSend (H : Host) (q : Queue) (fd : ℕ) : Queue := q.pushWriteOp fd (H.alloc q.registered)

/-- The handlers of parsed requests, each started at once with a response to send. -/
def spawnHandlers (H : Host) (fd : ℕ) :
    List ℕ → List SendOutcome → Queue → List ℕ → Queue × List ℕ
  | [], _, q, handlers => (q, handlers)
  | size :: sizes, outcomes, q, [] =>
    match sendAll size outcomes with
    | (.done, outcomes) => spawnHandlers H fd sizes outcomes q []
    | (.blocked left, outcomes) => spawnHandlers H fd sizes outcomes (pushSend H q fd) [left]
  | size :: sizes, outcomes, q, handlers => spawnHandlers H fd sizes outcomes q (handlers ++ [size])

/-- Once it reads no more and no handler is left, `handle_connection` returns: the stream
deregisters itself and `accept_one` closes the descriptor. -/
def settle (w : Worker) (fd : ℕ) (c : Connection) : Worker :=
  if c.reading = false ∧ c.handlers = [] then
    { w with
      queue := w.queue.clearReadOp fd c.stream.addr
      conns := Function.update w.conns fd none }
  else { w with conns := Function.update w.conns fd (some c) }

/-- What a connection receives: the response sizes of the requests in it, the outcomes of the
sends, and whether it is the end (EOF, an error, or a request that is refused). -/
structure Received where
  sizes : List ℕ
  outcomes : List SendOutcome
  ends : Bool

def receive (H : Host) (w : Worker) (fd : ℕ) (c : Connection) (r : Received) : Worker :=
  let spawned := spawnHandlers H fd r.sizes r.outcomes w.queue c.handlers
  { w with queue := spawned.1 }.settle fd ⟨c.stream, !r.ends, spawned.2⟩

def resumeHandlers (H : Host) (w : Worker) (fd : ℕ) (c : Connection) (handlers : List ℕ)
    (outcomes : List SendOutcome) : Worker :=
  let handlers := runHandlers handlers outcomes
  if handlers = [] then w.settle fd { c with handlers }
  else { w with queue := pushSend H w.queue fd }.settle fd { c with handlers }

def connect (H : Host) (w : Worker) (fd : ℕ) (r : Received) : Worker :=
  let stream := w.queue.newOp (H.alloc w.queue.registered)
  { w with queue := w.queue.setReadOp fd (H.alloc w.queue.registered) }.receive H fd
    ⟨stream, true, []⟩ r

end Worker

/-- A result of `accept4`, with what the connection receives at once. -/
inductive Accepted where
  | connection (fd : ℕ) (r : Worker.Received)
  | failed

namespace Worker

/-- `accept_loop` from a call of `accept4` on; after the results it answers `EAGAIN`. The kernel
returns no descriptor that is open. -/
def acceptLoop (H : Host) : List Accepted → Worker → Worker
  | [], w => { w with
      queue := w.queue.setReadOp H.listenFd (H.alloc w.queue.registered)
      accepting := true }
  | .failed :: results, w =>
    if w.shutdown = true then { w with accepting := false } else acceptLoop H results w
  | .connection fd r :: results, w =>
    if fd = H.listenFd ∨ w.conns fd ≠ none then acceptLoop H results w
    else acceptLoop H results (w.connect H fd r)

def acceptThrew (H : Host) (w : Worker) (results : List Accepted) : Worker :=
  acceptLoop H (.failed :: results) w

def start (H : Host) (results : List Accepted) : Worker :=
  acceptLoop H results ⟨.create, fun _ => none, false, false⟩

/-- `step` where the listening socket is readable; `accept4` does not answer `EAGAIN` first. -/
def acceptReady (H : Host) (w : Worker) (results : List Accepted) : Worker :=
  match w.queue.read H.listenFd with
  | some op =>
    let resumed := acceptLoop H results w
    let queue := deregisterRead resumed.queue H.listenFd op (w.queue.entry H.listenFd).readOpGen
    { resumed with queue := eraseEmpty queue H.listenFd }
  | none => w

/-- `step` where a connection is writable; the send does not meet `EAGAIN` first. -/
def sendReady (H : Host) (w : Worker) (fd : ℕ) (c : Connection)
    (outcomes : List SendOutcome) : Worker :=
  match w.queue.writes fd with
  | op :: _ =>
    let resumed := w.resumeHandlers H fd c c.handlers outcomes
    { resumed with queue := eraseEmpty (popWrite resumed.queue fd op) fd }
  | [] => w

end Worker

inductive Event where
  | accepts (results : List Accepted)
  | receives (fd : ℕ) (c : Connection) (r : Worker.Received)
  | sends (fd : ℕ) (c : Connection) (outcomes : List SendOutcome)
  | shutdown

/-- Only a reading connection is resumed by its stream, and only a waiting send by its socket. -/
def Enabled (w : Worker) : Event → Prop
  | .accepts results => w.accepting = true ∧ results ≠ []
  | .receives fd c _ => w.conns fd = some c ∧ c.reading = true
  | .sends fd c outcomes => w.conns fd = some c ∧ c.handlers ≠ [] ∧
      ∃ o ∈ outcomes.head?, o ≠ .suspended
  | .shutdown => True

def next (H : Host) (w : Worker) : Event → Worker
  | .accepts results => w.acceptReady H results
  | .receives fd c r => w.receive H fd c r
  | .sends fd c outcomes => w.sendReady H fd c outcomes
  | .shutdown => { w with shutdown := true }

def machine (H : Host) : System Worker Event := ⟨Enabled, next H⟩

inductive Entry (q : Queue) (fd : ℕ) (stream : Op) : List ℕ → Prop where
  | idle (gen : UInt64) : q.fds fd = some ⟨some stream, gen, []⟩ → Entry q fd stream []
  | sending (gen : UInt64) (op : Op) (left : ℕ) (waiting : List ℕ) :
      q.fds fd = some ⟨some stream, gen, [op]⟩ → Entry q fd stream (left :: waiting)

/-- A descriptor has neither connection nor entry, or both; a connection that no longer reads has
handlers to wait for. -/
inductive Served (w : Worker) (fd : ℕ) : Prop where
  | closed : w.conns fd = none → w.queue.fds fd = none → Served w fd
  | connected (c : Connection) : w.conns fd = some c → Entry w.queue fd c.stream c.handlers →
      (c.reading = false → c.handlers ≠ []) → Served w fd

structure Touches (fd : ℕ) (w w' : Worker) : Prop where
  queue : ∀ fd', fd' ≠ fd → w'.queue.fds fd' = w.queue.fds fd'
  conns : ∀ fd', fd' ≠ fd → w'.conns fd' = w.conns fd'
  accepting : w'.accepting = w.accepting
  shutdown : w'.shutdown = w.shutdown
  registered : w.queue.registered ≤ w'.queue.registered

def Listening (H : Host) (w : Worker) : Prop :=
  ∃ op gen, w.queue.fds H.listenFd = some ⟨some op, gen, []⟩ ∧ op.id < w.queue.registered

structure Consistent (H : Host) (w : Worker) : Prop where
  served : ∀ fd, fd ≠ H.listenFd → Served w fd
  listenFd : w.conns H.listenFd = none
  listening : w.accepting = true → Listening H w
  stopped : w.accepting = false → w.queue.fds H.listenFd = none ∧ w.shutdown = true

section Connections

variable {H : Host} {w w' w'' : Worker} {q : Queue} {fd : ℕ} {c : Connection}

theorem Touches.trans (h : Touches fd w w') (k : Touches fd w' w'') : Touches fd w w'' where
  queue := fun fd' hne => (k.queue fd' hne).trans (h.queue fd' hne)
  conns := fun fd' hne => (k.conns fd' hne).trans (h.conns fd' hne)
  accepting := k.accepting.trans h.accepting
  shutdown := k.shutdown.trans h.shutdown
  registered := Nat.le_trans h.registered k.registered

theorem Touches.refl (fd : ℕ) (w : Worker) : Touches fd w w :=
  ⟨fun _ _ => rfl, fun _ _ => rfl, rfl, rfl, Nat.le_refl _⟩

theorem touches_queue (hfds : ∀ fd', fd' ≠ fd → q.fds fd' = w.queue.fds fd')
    (hreg : w.queue.registered ≤ q.registered) : Touches fd w { w with queue := q } :=
  ⟨hfds, fun _ _ => rfl, rfl, rfl, hreg⟩

theorem touches_call (w : Worker) (call : Call) :
    Touches call.fd w { w with queue := w.queue.call call } :=
  touches_queue (fun _ hne => fds_call_of_ne hne) (registered_call w.queue call)

theorem touches_conns (w : Worker) (fd : ℕ) (conn : Option Connection) :
    Touches fd w { w with conns := Function.update w.conns fd conn } :=
  ⟨fun _ _ => rfl, fun _ hne => Function.update_of_ne hne _ _, rfl, rfl, Nat.le_refl _⟩

theorem touches_settle (w : Worker) (fd : ℕ) (c : Connection) :
    Touches fd w (w.settle fd c) := by
  by_cases hdone : c.reading = false ∧ c.handlers = []
  · simp only [Worker.settle, if_pos hdone]
    have hclear := touches_call w (.clearReadOp fd c.stream.addr)
    exact hclear.trans (touches_conns _ fd none)
  · simp only [Worker.settle, if_neg hdone]
    exact touches_conns w fd (some c)

theorem touches_spawnHandlers (sizes : List ℕ) (outcomes : List SendOutcome)
    (handlers : List ℕ) (w : Worker) : Touches fd w { w with
      queue := (Worker.spawnHandlers H fd sizes outcomes w.queue handlers).1 } := by
  induction sizes generalizing outcomes handlers w with
  | nil => exact .refl fd w
  | cons size sizes ih =>
    cases handlers with
    | nil =>
      simp only [Worker.spawnHandlers]
      split
      · exact ih _ _ w
      · next left outcomes' _ =>
        have hpush := touches_call w (.pushWriteOp fd (H.alloc w.queue.registered))
        exact hpush.trans (ih outcomes' [left] { w with queue := Worker.pushSend H w.queue fd })
    | cons left waiting => exact ih outcomes _ w

theorem touches_receive (w : Worker) (fd : ℕ) (c : Connection) (r : Worker.Received) :
    Touches fd w (w.receive H fd c r) :=
  (touches_spawnHandlers r.sizes r.outcomes c.handlers w).trans (touches_settle _ fd _)

theorem touches_connect (w : Worker) (fd : ℕ) (r : Worker.Received) :
    Touches fd w (w.connect H fd r) := by
  have hset := touches_call w (.setReadOp fd (H.alloc w.queue.registered))
  exact hset.trans (touches_receive _ fd _ r)

theorem touches_resumeHandlers (w : Worker) (fd : ℕ) (c : Connection) (handlers : List ℕ)
    (outcomes : List SendOutcome) : Touches fd w (w.resumeHandlers H fd c handlers outcomes) := by
  by_cases hnone : runHandlers handlers outcomes = []
  · simp only [Worker.resumeHandlers, if_pos hnone]
    exact touches_settle w fd _
  · simp only [Worker.resumeHandlers, if_neg hnone]
    have hpush := touches_call w (.pushWriteOp fd (H.alloc w.queue.registered))
    exact hpush.trans (touches_settle { w with queue := Worker.pushSend H w.queue fd } fd _)

theorem Served.congr (hs : Served w fd) (hconn : w'.conns fd = w.conns fd)
    (hfds : w'.queue.fds fd = w.queue.fds fd) : Served w' fd := by
  cases hs with
  | closed hnone hentry => exact .closed (hconn.trans hnone) (hfds.trans hentry)
  | connected c hsome hentry hends =>
    refine .connected c (hconn.trans hsome) ?_ hends
    generalize c.handlers = handlers at hentry
    cases hentry with
    | idle gen hst => exact .idle gen (hfds.trans hst)
    | sending gen op left waiting hst => exact .sending gen op left waiting (hfds.trans hst)

theorem Served.of_touches (h : Touches fd w w') {fd' : ℕ} (hne : fd' ≠ fd) (hs : Served w fd') :
    Served w' fd' := hs.congr (h.conns fd' hne) (h.queue fd' hne)

theorem entry_spawnHandlers (sizes : List ℕ) (outcomes : List SendOutcome) {stream : Op}
    {handlers : List ℕ} (h : Entry q fd stream handlers) :
    Entry (Worker.spawnHandlers H fd sizes outcomes q handlers).1 fd stream
      (Worker.spawnHandlers H fd sizes outcomes q handlers).2 := by
  induction sizes generalizing outcomes q handlers with
  | nil => exact h
  | cons size sizes ih =>
    cases h with
    | idle gen hfds =>
      simp only [Worker.spawnHandlers]
      split
      · exact ih _ (.idle gen hfds)
      · next left outcomes' _ =>
        have hpush := fds_pushWriteOp hfds (H.alloc q.registered)
        exact ih outcomes' (.sending gen (q.newOp (H.alloc q.registered)) left [] hpush)
    | sending gen op left waiting hfds =>
      exact ih outcomes (.sending gen op left (waiting ++ [size]) hfds)

theorem served_settle (h : Entry w.queue fd c.stream c.handlers) : Served (w.settle fd c) fd := by
  by_cases hdone : c.reading = false ∧ c.handlers = []
  · rw [hdone.2] at h
    cases h with
    | idle gen hfds =>
      have hclear := fds_clearReadOp hfds
      simp only [Worker.settle, if_pos hdone]
      exact .closed (Function.update_self _ _ _) hclear
  · simp only [Worker.settle, if_neg hdone]
    refine .connected c (Function.update_self _ _ _) h fun hreading hempty => ?_
    exact hdone ⟨hreading, hempty⟩

theorem served_receive (h : Entry w.queue fd c.stream c.handlers) (r : Worker.Received) :
    Served (w.receive H fd c r) fd := by
  apply served_settle
  exact entry_spawnHandlers r.sizes r.outcomes h

theorem served_connect (h : w.queue.fds fd = none) (r : Worker.Received) :
    Served (w.connect H fd r) fd := by
  have hset := fds_setReadOp w.queue fd (H.alloc w.queue.registered)
  rw [Queue.entry, h, Option.getD_none] at hset
  apply served_receive
  exact .idle _ hset

/-- What is left at a connection's descriptor when the handler that waited in the send `op` has
gone on, while `op` is still queued. -/
inductive Resumed (c : Connection) (fd : ℕ) (gen : UInt64) (op : Op) (w' : Worker) :
    List ℕ → Prop where
  | reading : c.reading = true → w'.conns fd = some { c with handlers := [] } →
      w'.queue.fds fd = some ⟨some c.stream, gen, [op]⟩ → Resumed c fd gen op w' []
  | returned : c.reading = false → w'.conns fd = none →
      w'.queue.fds fd = some ⟨none, gen, [op]⟩ → Resumed c fd gen op w' []
  | blocked (left : ℕ) (waiting : List ℕ) (send : Op) :
      w'.conns fd = some { c with handlers := left :: waiting } →
      w'.queue.fds fd = some ⟨some c.stream, gen, [op, send]⟩ →
      Resumed c fd gen op w' (left :: waiting)

theorem resumeHandlers_cases {gen : UInt64} {op : Op}
    (hfds : w.queue.fds fd = some ⟨some c.stream, gen, [op]⟩) (handlers : List ℕ)
    (outcomes : List SendOutcome) :
    Resumed c fd gen op (w.resumeHandlers H fd c handlers outcomes)
      (runHandlers handlers outcomes) := by
  cases hrun : runHandlers handlers outcomes with
  | nil =>
    simp only [Worker.resumeHandlers, hrun, if_true]
    cases hreading : c.reading with
    | true =>
      simp only [Worker.settle, Bool.true_eq_false, false_and, if_false]
      exact .reading hreading (by simp [hreading]) hfds
    | false =>
      simp only [Worker.settle, and_self, if_true]
      have hclear := fds_clearReadOp hfds
      rw [if_neg (by simp)] at hclear
      exact .returned hreading (Function.update_self _ _ _) hclear
  | cons left waiting =>
    have hpush := fds_pushWriteOp hfds (H.alloc w.queue.registered)
    simp only [Worker.resumeHandlers, hrun, Worker.settle, reduceCtorEq, and_false, if_false]
    exact .blocked left waiting _ (Function.update_self _ _ _) hpush

theorem fds_put_of_ne {fd' : ℕ} (hne : fd' ≠ fd) (st : Option FdState) :
    (q.put fd st).fds fd' = q.fds fd' := Function.update_of_ne hne _ _

theorem fds_eraseEmpty {st : FdState} (h : q.fds fd = some st) :
    (eraseEmpty q fd).fds fd = if st.Empty then none else some st := by
  by_cases hempty : st.Empty
  · simp [eraseEmpty, h, hempty, Queue.put]
  · simp [eraseEmpty, h, hempty]

theorem fds_eraseEmpty_of_ne {fd' : ℕ} (hne : fd' ≠ fd) :
    (eraseEmpty q fd).fds fd' = q.fds fd' := by
  unfold eraseEmpty
  split
  · split
    · exact fds_put_of_ne hne _
    · rfl
  · rfl

theorem popWrite_eraseEmpty {read : Option Op} {gen : UInt64} {op : Op} {ops : List Op}
    (h : q.fds fd = some ⟨read, gen, op :: ops⟩) :
    (eraseEmpty (popWrite q fd op) fd).fds fd =
        (if read = none ∧ ops = [] then none else some ⟨read, gen, ops⟩) ∧
      (∀ fd', fd' ≠ fd → (eraseEmpty (popWrite q fd op) fd).fds fd' = q.fds fd') ∧
      (eraseEmpty (popWrite q fd op) fd).registered = q.registered := by
  obtain ⟨st, hst, hpop⟩ := popWrite_front (writes_of_entry h)
  rw [h] at hst
  cases hst
  have hfds : (popWrite q fd op).fds fd = some ⟨read, gen, ops⟩ := by
    rw [hpop]
    exact Function.update_self _ _ _
  refine ⟨fds_eraseEmpty hfds, fun fd' hne => ?_, ?_⟩
  · rw [fds_eraseEmpty_of_ne hne, hpop]
    exact fds_put_of_ne hne _
  · rw [(eraseEmpty_spec _ fd).2.2, hpop]
    rfl

theorem sendReady_spec (h : Entry w.queue fd c.stream c.handlers) (hne : c.handlers ≠ [])
    (outcomes : List SendOutcome) :
    Served (w.sendReady H fd c outcomes) fd ∧ Touches fd w (w.sendReady H fd c outcomes) := by
  have htouches := @touches_resumeHandlers H w fd c c.handlers outcomes
  cases hq : c.handlers with
  | nil => exact absurd hq hne
  | cons left waiting =>
    rw [hq] at h
    cases h with
    | sending gen op _ _ hfds =>
      have hresumed := @resumeHandlers_cases H w fd c gen op hfds c.handlers outcomes
      have hready : w.sendReady H fd c outcomes =
          { w.resumeHandlers H fd c c.handlers outcomes with
            queue := eraseEmpty (popWrite
              (w.resumeHandlers H fd c c.handlers outcomes).queue fd op) fd } := by
        simp only [Worker.sendReady, writes_of_entry hfds]
      rw [hready]
      generalize w.resumeHandlers H fd c c.handlers outcomes = u at hresumed htouches ⊢
      generalize runHandlers c.handlers outcomes = handlers at hresumed
      cases hresumed with
      | reading hreading hconn hentry =>
        obtain ⟨hpop, hother, hreg⟩ := popWrite_eraseEmpty hentry
        refine ⟨.connected { c with handlers := [] } hconn (.idle gen (by simpa using hpop)) ?_,
          htouches.trans (touches_queue hother (Nat.le_of_eq hreg.symm))⟩
        intro hfalse
        exact absurd (hreading.symm.trans hfalse) (by simp)
      | returned hreading hconn hentry =>
        obtain ⟨hpop, hother, hreg⟩ := popWrite_eraseEmpty hentry
        exact ⟨.closed hconn (by simpa using hpop),
          htouches.trans (touches_queue hother (Nat.le_of_eq hreg.symm))⟩
      | blocked left' waiting' send hconn hentry =>
        obtain ⟨hpop, hother, hreg⟩ := popWrite_eraseEmpty hentry
        exact ⟨.connected { c with handlers := left' :: waiting' } hconn
            (.sending gen send left' waiting' (by simpa using hpop)) (fun _ => by simp),
          htouches.trans (touches_queue hother (Nat.le_of_eq hreg.symm))⟩

end Connections

section Accepting

variable {H : Host} {w : Worker}

/-- `accept_loop` waits again with a new operation, or it has returned after a shutdown. -/
inductive AcceptEnds (H : Host) (w w' : Worker) : Prop where
  | waits (op : Op) : w'.accepting = true → w.queue.registered ≤ op.id →
      op.id < w'.queue.registered →
      w'.queue.fds H.listenFd = some ⟨some op, (w.queue.entry H.listenFd).readOpGen + 1,
        (w.queue.entry H.listenFd).writeQueue⟩ → AcceptEnds H w w'
  | returned : w'.accepting = false → w.shutdown = true →
      w'.queue.fds H.listenFd = w.queue.fds H.listenFd → AcceptEnds H w w'

theorem acceptLoop_ends (results : List Accepted) (w : Worker) :
    let w' := Worker.acceptLoop H results w
    w'.conns H.listenFd = w.conns H.listenFd ∧ w'.shutdown = w.shutdown ∧ AcceptEnds H w w' := by
  induction results generalizing w with
  | nil =>
    have hfds := fds_setReadOp w.queue H.listenFd (H.alloc w.queue.registered)
    exact ⟨rfl, rfl, .waits _ rfl (Nat.le_refl _) (Nat.lt_succ_self _) hfds⟩
  | cons result results ih =>
    cases result with
    | failed =>
      by_cases hshutdown : w.shutdown = true
      · simp only [Worker.acceptLoop, if_pos hshutdown]
        exact ⟨trivial, trivial, .returned rfl hshutdown rfl⟩
      · simp only [Worker.acceptLoop, if_neg hshutdown]
        exact ih w
    | connection fd r =>
      by_cases hopen : fd = H.listenFd ∨ w.conns fd ≠ none
      · simp only [Worker.acceptLoop, if_pos hopen]
        exact ih w
      · simp only [Worker.acceptLoop, if_neg hopen]
        have hne : H.listenFd ≠ fd := fun heq => hopen (Or.inl heq.symm)
        have htouches := @touches_connect H w fd r
        obtain ⟨hconns, hshutdown, hends⟩ := ih (w.connect H fd r)
        refine ⟨hconns.trans (htouches.conns _ hne), hshutdown.trans htouches.shutdown, ?_⟩
        have hentry := htouches.queue _ hne
        cases hends with
        | waits op haccepting hold hnew hfds =>
          refine .waits op haccepting (Nat.le_trans htouches.registered hold) hnew ?_
          rw [hfds, Queue.entry, hentry, Queue.entry]
        | returned haccepting hshutdown' hfds =>
          exact .returned haccepting (htouches.shutdown.symm.trans hshutdown') (hfds.trans hentry)

theorem served_acceptLoop (results : List Accepted)
    (hserved : ∀ fd, fd ≠ H.listenFd → Served w fd) :
    ∀ fd, fd ≠ H.listenFd → Served (Worker.acceptLoop H results w) fd := by
  induction results generalizing w with
  | nil =>
    have hset := touches_call w (.setReadOp H.listenFd (H.alloc w.queue.registered))
    exact fun fd hne => (hserved fd hne).congr rfl (hset.queue fd hne)
  | cons result results ih =>
    cases result with
    | failed =>
      by_cases hshutdown : w.shutdown = true
      · simp only [Worker.acceptLoop, if_pos hshutdown]
        exact fun fd hne => (hserved fd hne).congr rfl rfl
      · simp only [Worker.acceptLoop, if_neg hshutdown]
        exact ih hserved
    | connection fd r =>
      by_cases hopen : fd = H.listenFd ∨ w.conns fd ≠ none
      · simp only [Worker.acceptLoop, if_pos hopen]
        exact ih hserved
      · simp only [Worker.acceptLoop, if_neg hopen]
        rw [not_or, not_not] at hopen
        have hnone : w.queue.fds fd = none := by
          cases hserved fd hopen.1 with
          | closed _ hentry => exact hentry
          | connected c hconn _ _ =>
            rw [hopen.2] at hconn
            cases hconn
        apply ih
        intro fd' hne
        by_cases heq : fd' = fd
        · rw [heq]
          exact served_connect hnone r
        · exact (hserved fd' hne).of_touches (touches_connect w fd r) heq

theorem consistent_start (results : List Accepted) : Consistent H (.start H results) := by
  have hnothing : ∀ fd, fd ≠ H.listenFd → Served ⟨.create, fun _ => none, false, false⟩ fd :=
    fun _ _ => .closed rfl rfl
  obtain ⟨hlisten, -, hends⟩ := @acceptLoop_ends H results ⟨.create, fun _ => none, false, false⟩
  cases hends with
  | waits op haccepting _ hnew hfds =>
    exact ⟨served_acceptLoop results hnothing, hlisten, fun _ => ⟨op, _, hfds, hnew⟩,
      fun hstopped => absurd (haccepting.symm.trans hstopped) (by simp)⟩
  | returned _ hshutdown _ => cases hshutdown

theorem fds_deregisterRead_of_ne {q : Queue} {fd fd' : ℕ} {op : Op} {gen : UInt64}
    (hne : fd' ≠ fd) : (deregisterRead q fd op gen).fds fd' = q.fds fd' := by
  have hcase := deregisterRead_cases q fd op gen
  generalize deregisterRead q fd op gen = q' at hcase ⊢
  cases hcase with
  | other _ => rfl
  | taken st left _ _ _ => exact Function.update_of_ne hne _ _

theorem succ_ne_self (gen : UInt64) : gen + 1 ≠ gen := by
  intro h
  simp at h

theorem consistent_acceptReady (h : Consistent H w) (haccepting : w.accepting = true)
    (results : List Accepted) : Consistent H (w.acceptReady H results) := by
  obtain ⟨op, gen, hfds, -⟩ := h.listening haccepting
  have hserved := served_acceptLoop results h.served
  obtain ⟨hlisten, hshutdown, hends⟩ := @acceptLoop_ends H results w
  rw [h.listenFd] at hlisten
  have hentry : w.queue.entry H.listenFd = ⟨some op, gen, []⟩ := by
    rw [Queue.entry, hfds, Option.getD_some]
  have hready : w.acceptReady H results = { Worker.acceptLoop H results w with
      queue := eraseEmpty (deregisterRead (Worker.acceptLoop H results w).queue H.listenFd op gen)
        H.listenFd } := by
    simp only [Worker.acceptReady, read_of_entry hfds, hentry]
  rw [hready]
  generalize Worker.acceptLoop H results w = u at hserved hlisten hshutdown hends ⊢
  have hother (fd : ℕ) (hne : fd ≠ H.listenFd) :
      (eraseEmpty (deregisterRead u.queue H.listenFd op gen) H.listenFd).fds fd =
        u.queue.fds fd := by
    rw [fds_eraseEmpty_of_ne hne, fds_deregisterRead_of_ne hne]
  cases hends with
  | waits op' haccepting' _ hnew hfds' =>
    -- The accept is registered again at the next generation, and stays.
    rw [hentry] at hfds'
    have hkept : deregisterRead u.queue H.listenFd op gen = u.queue := by
      simp only [deregisterRead, hfds', if_neg (succ_ne_self gen)]
    refine ⟨fun fd hne => (hserved fd hne).congr rfl (hother fd hne), hlisten, fun _ => ?_,
      fun hstopped => absurd (haccepting'.symm.trans hstopped) (by simp)⟩
    refine ⟨op', gen + 1, ?_, ?_⟩
    · simp only [hkept]
      rw [fds_eraseEmpty hfds', if_neg (by simp [FdState.Empty])]
    · simp only [hkept]
      rw [(eraseEmpty_spec _ _).2.2]
      exact hnew
  | returned haccepting' hshutdown' hfds' =>
    rw [hfds] at hfds'
    refine ⟨fun fd hne => (hserved fd hne).congr rfl (hother fd hne), hlisten, fun hwaits =>
      absurd (haccepting'.symm.trans hwaits) (by simp), fun _ => ⟨?_, hshutdown.trans hshutdown'⟩⟩
    have htaken : (deregisterRead u.queue H.listenFd op gen).fds H.listenFd =
        some ⟨none, gen, []⟩ := by
      simp only [deregisterRead, hfds', if_true, Queue.note, Queue.put, Function.update_self]
    rw [fds_eraseEmpty htaken, if_pos ⟨rfl, rfl⟩]

end Accepting

section Steps

variable {H : Host} {w w' : Worker}

theorem consistent_of_touches (h : Consistent H w) {fd : ℕ} (hne : fd ≠ H.listenFd)
    (hserved : Served w' fd) (ht : Touches fd w w') : Consistent H w' := by
  have hlisten : H.listenFd ≠ fd := Ne.symm hne
  refine ⟨fun fd' hne' => ?_, (ht.conns _ hlisten).trans h.listenFd, fun hwaits => ?_,
    fun hstopped => ?_⟩
  · by_cases heq : fd' = fd
    · exact heq ▸ hserved
    · exact (h.served fd' hne').of_touches ht heq
  · obtain ⟨op, gen, hfds, hold⟩ := h.listening (ht.accepting.symm.trans hwaits)
    exact ⟨op, gen, (ht.queue _ hlisten).trans hfds, Nat.lt_of_lt_of_le hold ht.registered⟩
  · obtain ⟨hnone, hshutdown⟩ := h.stopped (ht.accepting.symm.trans hstopped)
    exact ⟨(ht.queue _ hlisten).trans hnone, ht.shutdown.trans hshutdown⟩

theorem Consistent.connection (h : Consistent H w) {fd : ℕ} {c : Connection}
    (hc : w.conns fd = some c) : fd ≠ H.listenFd ∧ Entry w.queue fd c.stream c.handlers ∧
      (c.reading = false → c.handlers ≠ []) := by
  have hne : fd ≠ H.listenFd := by
    rintro rfl
    rw [h.listenFd] at hc
    cases hc
  cases h.served fd hne with
  | closed hconn _ =>
    rw [hconn] at hc
    cases hc
  | connected c' hconn hentry hends =>
    rw [hconn] at hc
    cases hc
    exact ⟨hne, hentry, hends⟩

theorem consistent_step {e : Event} (h : Consistent H w) (he : Enabled w e) :
    Consistent H (next H w e) := by
  cases e with
  | accepts results => exact consistent_acceptReady h he.1 results
  | receives fd c r =>
    obtain ⟨hne, hentry, -⟩ := h.connection he.1
    exact consistent_of_touches h hne (served_receive hentry r) (touches_receive w fd c r)
  | sends fd c outcomes =>
    obtain ⟨hne, hentry, -⟩ := h.connection he.1
    obtain ⟨hserved, htouches⟩ := sendReady_spec hentry he.2.1 outcomes
    exact consistent_of_touches h hne hserved htouches
  | shutdown =>
    exact ⟨fun fd hne => (h.served fd hne).congr rfl rfl, h.listenFd, h.listening, fun hstopped =>
      ⟨(h.stopped hstopped).1, rfl⟩⟩

theorem consistent_of_reachable {results : List Accepted}
    (h : Reachable (machine H) (.start H results) w) : Consistent H w :=
  h.invariant (I := Consistent H) (consistent_start results) fun _ _ hw he _ =>
    consistent_step hw he

end Steps

end EasybdWorker
