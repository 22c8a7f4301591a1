import EasyBD.TransitionRuns
import EasyBD.SerializedFrames
import EasyBD.EasyioMutex
import EasyBD.EasybdHandleConnection

/-! One accepted connection as a transition system: the read loop of `handle_connection` and
the handlers it has spawned. As in the client, the control state is a stack of activations. -/
namespace EasybdSession

open TransitionRuns SerializedFrames EasybdProtocol EasyioQueue EasyioSendAll EasyioMutex
open EasyioFramedReader EasybdHandlers EasybdHandleConnection

/-- A handler from `lock_guard` on; `send` is the loop in `send_all`. -/
structure Reply where
  id : ℕ
  response : Response
  send : SendAll
  deriving DecidableEq

/-- Where `handle_connection` is suspended. `payload` holds what `read_exact_into` has copied,
`draining` is `co_await wg.wait()`. -/
inductive Reader where
  | header
  | payload (req : RequestHeader) (got : List UInt8)
  | draining
  | returned
  deriving DecidableEq

/-- One activation. `allocating` is the write buffer in the loop, `spawning` the coroutine
frames of a handler that `wg.add()` has counted, `buffering` the buffer in `handle_read`,
`finishing` the `wg.done()` in `tracked`, `closing` the `close` in `accept_one`. -/
inductive Frame where
  | reading
  | allocating (req : RequestHeader)
  | spawning (h : Handler)
  | buffering (id : ℕ) (h : Handler)
  | performing (id : ℕ) (h : Handler)
  | calling (t : Reply)
  | returned (t : Reply) (count : Option ℕ)
  | release (t : Reply) (sent : Bool)
  | finishing
  | closing
  deriving DecidableEq

inductive Effect where
  | received (bytes : List UInt8)
  | channel (op : Op UInt8)
  /-- The result of a handler's file operation. -/
  | performed (id : ℕ) (r : FileResult)
  | replied (id : ℕ) (resp : Response)
  /-- The handler ended with its response sent, or without. -/
  | answered (id : ℕ) (resp : Response)
  | lost (id : ℕ)
  deriving DecidableEq

/-- `dispatched` lists the spawned handlers; a handler's identity is its position. `trace` is
newest first. -/
structure State where
  backend : Backend
  reader : FramedReader
  readerAt : Reader
  sendMtx : Mutex Reply
  remaining : ℕ
  /-- File operations the kernel has not completed, and sends as in the client. -/
  files : List (ℕ × Handler)
  io : List Reply
  cq : List (Reply × Option ℕ)
  stack : List Frame
  closed : Bool
  dispatched : List Handler
  trace : List Effect

def initial (backend : Backend) : State where
  backend := backend
  reader := .initial
  readerAt := .header
  sendMtx := .initial
  remaining := 0
  files := []
  io := []
  cq := []
  stack := []
  closed := false
  dispatched := []
  trace := []

/-- What `send_error` passes to `send_all`; `handle_write` and `handle_read` compute it from
the result of their file operation. -/
def errorResponse (cid : UInt64) (err : ℕ) : Response := ⟨cid, negErrno err, []⟩

/-- How the call of a file operation comes back; `threw` is an exception that the handler
does not catch, such as no memory for the operation's coroutine frame. -/
inductive FileOutcome where
  | suspended
  | result (r : FileResult)
  | threw
  deriving DecidableEq

/-- libc performs the operation at once; io_uring queues an SQE, or throws when it gets none. -/
def FileOutcome.AtCall (b : Backend) (h : Handler) : FileOutcome → Prop
  | .suspended => b = .ioUring
  | .result (.error _) => True
  | .result r => b = .libc ∧ h.Fits r
  | .threw => True

instance (b : Backend) (h : Handler) (o : FileOutcome) : Decidable (o.AtCall b h) := by
  unfold FileOutcome.AtCall
  split <;> infer_instance

namespace State

@[simp] def emit (s : State) (e : Effect) : State := { s with trace := e :: s.trace }

@[simp] def push (s : State) (f : Frame) : State := { s with stack := f :: s.stack }

/-- `co_await easyio::lock_guard(send_mtx)`, up to the first `send` or the suspension. -/
def reply (s : State) (t : Reply) : State :=
  if s.sendMtx.locked then
    { s with sendMtx := s.sendMtx.wait t, trace := .replied t.id t.response :: s.trace }
  else
    { s with
      sendMtx := s.sendMtx.take
      stack := .calling t :: s.stack
      trace := .channel (.acquire t.send.rest) :: .replied t.id t.response :: s.trace }

@[simp] def replyOf (id : ℕ) (h : Handler) (resp : Response) : Reply := ⟨id, resp, h.startSend resp⟩

def start (s : State) (id : ℕ) (h : Handler) : State :=
  match h with
  | .sendError cid err => s.reply (replyOf id h (errorResponse cid err))
  | .handleWrite _ _ _ _ => s.push (.performing id h)
  | .handleRead _ _ _ => s.push (.buffering id h)

/-- The rest of a file handler once its operation has returned or thrown a `system_error`. -/
def performed (s : State) (id : ℕ) (h : Handler) (r : FileResult) : State :=
  (s.emit (.performed id r)).reply (replyOf id h (h.respond r))

/-- `catch (...)` in `tracked`, before `wg.done()`. -/
@[simp] def lose (s : State) (id : ℕ) : State := (s.emit (.lost id)).push .finishing

def endLoop (s : State) : State :=
  if s.remaining = 0 then { s with readerAt := .returned, stack := .closing :: s.stack }
  else { s with readerAt := .draining }

/-- `wg.add()` and the start of `spawn(tracked(...))`. -/
@[simp] def spawn (s : State) (h : Handler) : State :=
  { s with remaining := s.remaining + 1, stack := .spawning h :: s.stack }

def dispatch (s : State) (h : Handler) : State :=
  ({ s with dispatched := s.dispatched ++ [h] }.push .reading).start s.dispatched.length h

def onRequest (s : State) (req : RequestHeader) : State :=
  match onHeader req with
  | .reject => s.endLoop
  | .payload => s.push (.allocating req)
  | .spawn h => s.spawn h

def missing (s : State) : ℕ :=
  match s.readerAt with
  | .header => requestHeaderSize - s.reader.unread.length
  | .payload req got => req.size.toNat - got.length
  | _ => 0

/-- The batch that `next_batch` returned goes where the read puts it. -/
def receive (s : State) (batch : List (List UInt8)) : State :=
  match s.readerAt with
  | .payload req got =>
    let p := FramedReader.copyBatch req.size.toNat got s.reader batch
    { s with readerAt := .payload req p.1, reader := p.2 }
  | _ => { s with reader := s.reader.insertBatch batch }

def resumeReader (s : State) : State :=
  match s.readerAt with
  | .header =>
    let r := s.reader.eraseConsumed
    if r.buf.length < requestHeaderSize then { s with reader := r }
    else
      let read := r.returnExact requestHeaderSize
      { s with reader := read.2 }.onRequest (.ofBytes read.1)
  | .payload req got =>
    if got.length < req.size.toNat then s
    else { s with readerAt := .header }.spawn (onPayload req got)
  | _ => s

def alloc (s : State) (ok : Bool) : State :=
  match s.stack with
  | .allocating req :: stack =>
    if ok then
      let p := s.reader.eraseConsumed.takeLeftover req.size.toNat
      { s with readerAt := .payload req p.1, reader := p.2, stack := .reading :: stack }
    else { s with stack }.endLoop
  | .spawning h :: stack => if ok then { s with stack }.dispatch h else { s with stack }.endLoop
  | .buffering id h :: stack =>
    if ok then { s with stack := .performing id h :: stack } else { s with stack }.lose id
  | _ => s

def resumed (t : Reply) (n : ℕ) : Reply := { t with send := (t.send.resume n).getD t.send }

/-- `send_all` after `co_await`; an exception leaves the handler. -/
def resumeSend (s : State) (t : Reply) : Option ℕ → State
  | some n =>
    if (resumed t n).send.Finished then s.push (.release t true)
    else s.push (.calling (resumed t n))
  | none => (s.emit (.channel .fail)).push (.release t false)

def outcome (t : Reply) (sent : Bool) : Effect :=
  if sent then .answered t.id t.response else .lost t.id

def unlock (s : State) (t : Reply) (sent : Bool) : State :=
  match s.sendMtx.unlock with
  | (some u, m) =>
    { s with
      sendMtx := m
      stack := .calling u :: .finishing :: s.stack
      trace := .channel (.acquire u.send.rest) :: .channel .release :: outcome t sent :: s.trace }
  | (none, m) =>
    { s with
      sendMtx := m
      stack := .finishing :: s.stack
      trace := .channel .release :: outcome t sent :: s.trace }

def done (s : State) : State :=
  let s := { s with remaining := s.remaining - 1 }
  if s.remaining = 0 ∧ s.readerAt = .draining then
    { s with readerAt := .returned, stack := .closing :: s.stack }
  else s

/-- The activation on top goes on, where nothing outside decides how. -/
def run (s : State) : State :=
  match s.stack with
  | .reading :: stack => { s with stack }.resumeReader
  | .returned t count :: stack => { s with stack }.resumeSend t count
  | .release t sent :: stack => { s with stack }.unlock t sent
  | .finishing :: stack => { s with stack }.done
  | _ => s

end State

/-- What an outcome of a `send` puts on the wire. -/
def taken (t : Reply) : SendOutcome → List Effect
  | .accepted n => [.channel (.accept (t.send.rest.take n))]
  | _ => []

inductive Event where
  | received (batch : List (List UInt8))
  /-- EOF, an error, or no memory for the bytes. -/
  | receiveFailed
  | alloc (ok : Bool)
  | perform (o : FileOutcome)
  /-- io_uring: the CQE of a file operation is dispatched. -/
  | fileReady (id : ℕ) (h : Handler) (r : FileResult)
  | sendCall (o : SendOutcome)
  | sendReady (t : Reply) (o : SendOutcome)
  | complete (t : Reply) (o : SendOutcome)
  | reap (t : Reply) (count : Option ℕ)
  | close (ok : Bool)
  | run

namespace State

def Loops (s : State) : Prop :=
  match s.readerAt with
  | .header | .payload _ _ => True
  | _ => False

/-- A zero-size buffer needs no memory. -/
def MayFail : Frame → Prop
  | .allocating req => 0 < req.size
  | .spawning _ => True
  | .buffering _ (.handleRead _ _ size) => 0 < size
  | _ => False

end State

def Enabled (s : State) : Event → Prop
  | .received batch => s.stack = [] ∧ s.Loops ∧ IsBatch s.missing batch
  | .receiveFailed => s.stack = [] ∧ s.Loops
  | .alloc ok =>
    match s.stack with
    | f :: _ =>
      match f with
      | .allocating _ | .spawning _ | .buffering _ _ => ok = false → State.MayFail f
      | _ => False
    | _ => False
  | .perform o =>
    match s.stack with
    | .performing _ h :: _ => o.AtCall s.backend h
    | _ => False
  | .fileReady id h r =>
    s.stack = [] ∧ (id, h) ∈ s.files ∧ h.Fits r
  | .sendCall o =>
    match s.stack with
    | .calling t :: _ => o.AtCall s.backend ∧ o.Within t.send.rest.length
    | _ => False
  | .sendReady t o =>
    s.stack = [] ∧ s.backend = .libc ∧ t ∈ s.io ∧ o.Within t.send.rest.length
  | .complete t o =>
    s.backend = .ioUring ∧ t ∈ s.io ∧ o ≠ .suspended ∧ o.Within t.send.rest.length
  | .reap t count => s.stack = [] ∧ (t, count) ∈ s.cq
  | .close _ => s.stack.head? = some .closing
  | .run =>
    match s.stack with
    | .reading :: _ | .returned _ _ :: _ | .release _ _ :: _ | .finishing :: _ => True
    | _ => False

def next (s : State) : Event → State
  | .received batch => (s.receive batch).emit (.received batch.flatten) |>.push .reading
  | .receiveFailed => s.endLoop
  | .alloc ok => s.alloc ok
  | .perform o =>
    match s.stack with
    | .performing id h :: stack =>
      match o with
      | .suspended => { s with stack, files := s.files ++ [(id, h)] }
      | .result r => { s with stack }.performed id h r
      | .threw => { s with stack }.lose id
    | _ => s
  | .fileReady id h r => { s with files := s.files.erase (id, h) }.performed id h r
  | .sendCall o =>
    match s.stack with
    | .calling t :: stack =>
      let s := { s with stack, trace := taken t o ++ s.trace }
      if o = .suspended then { s with io := s.io ++ [t] } else s.push (.returned t o.count)
    | _ => s
  | .sendReady t o =>
    let s := { s with trace := taken t o ++ s.trace }
    if o = .suspended then s
    else { s with io := s.io.erase t }.push (.returned t o.count)
  | .complete t o =>
    { s with io := s.io.erase t, cq := s.cq ++ [(t, o.count)], trace := taken t o ++ s.trace }
  | .reap t count => { s with cq := s.cq.erase (t, count) }.push (.returned t count)
  | .close ok => { s with closed := ok, stack := s.stack.tail }
  | .run => s.run

def machine : System State Event := ⟨Enabled, next⟩

section Decidability

variable (s : State)

instance : Decidable s.Loops := by unfold State.Loops; split <;> infer_instance

instance (f : Frame) : Decidable (State.MayFail f) := by
  unfold State.MayFail
  split <;> infer_instance

instance (e : Event) : Decidable (Enabled s e) := by
  cases e <;> simp only [Enabled]
  case alloc ok =>
    split
    · split <;> infer_instance
    · infer_instance
  all_goals first | infer_instance | (split <;> infer_instance)

instance (e : Event) : Decidable (machine.Enabled s e) := inferInstanceAs (Decidable (Enabled s e))

end Decidability

/-- What one step does, branch by branch. -/
inductive Step (s : State) : Event → State → Prop where
  | receivesHeader {batch} (flat : s.stack = []) (at_ : s.readerAt = .header)
      (isBatch : IsBatch (requestHeaderSize - s.reader.unread.length) batch) :
      Step s (.received batch) { s with
        reader := s.reader.insertBatch batch
        stack := [.reading]
        trace := .received batch.flatten :: s.trace }
  | receivesPayload {batch req got} (flat : s.stack = []) (at_ : s.readerAt = .payload req got)
      (isBatch : IsBatch (req.size.toNat - got.length) batch) :
      Step s (.received batch) { s with
        readerAt := .payload req (FramedReader.copyBatch req.size.toNat got s.reader batch).1
        reader := (FramedReader.copyBatch req.size.toNat got s.reader batch).2
        stack := [.reading]
        trace := .received batch.flatten :: s.trace }
  | receiveFailed (flat : s.stack = []) (loops : s.Loops) : Step s .receiveFailed s.endLoop
  | awaitsHeader {stack} (top : s.stack = .reading :: stack) (at_ : s.readerAt = .header)
      (short : s.reader.unread.length < requestHeaderSize) :
      Step s .run { s with stack, reader := s.reader.eraseConsumed }
  | rejects {stack} (top : s.stack = .reading :: stack) (at_ : s.readerAt = .header)
      (enough : requestHeaderSize ≤ s.reader.unread.length)
      (action : onHeader (.ofBytes (s.reader.unread.take requestHeaderSize)) = .reject) :
      Step s .run { s with
        stack
        reader := (s.reader.eraseConsumed.returnExact requestHeaderSize).2 }.endLoop
  | allocates {stack} (top : s.stack = .reading :: stack) (at_ : s.readerAt = .header)
      (enough : requestHeaderSize ≤ s.reader.unread.length) (req : RequestHeader)
      (bytes : RequestHeader.ofBytes (s.reader.unread.take requestHeaderSize) = req)
      (action : onHeader req = .payload) :
      Step s .run { s with
        stack := .allocating req :: stack
        reader := (s.reader.eraseConsumed.returnExact requestHeaderSize).2 }
  | spawns {stack} (top : s.stack = .reading :: stack) (at_ : s.readerAt = .header)
      (enough : requestHeaderSize ≤ s.reader.unread.length) (req : RequestHeader) (h : Handler)
      (bytes : RequestHeader.ofBytes (s.reader.unread.take requestHeaderSize) = req)
      (action : onHeader req = .spawn h) :
      Step s .run { s with
        stack := .spawning h :: stack
        remaining := s.remaining + 1
        reader := (s.reader.eraseConsumed.returnExact requestHeaderSize).2 }
  | awaitsPayload {stack req got} (top : s.stack = .reading :: stack)
      (at_ : s.readerAt = .payload req got) (short : got.length < req.size.toNat) :
      Step s .run { s with stack }
  | spawnsWrite {stack req got} (top : s.stack = .reading :: stack)
      (at_ : s.readerAt = .payload req got) (enough : ¬ got.length < req.size.toNat) :
      Step s .run { s with
        stack := .spawning (onPayload req got) :: stack
        remaining := s.remaining + 1
        readerAt := .header }
  | readsNothing {stack} (top : s.stack = .reading :: stack) (ended : ¬ s.Loops) :
      Step s .run { s with stack }
  | allocated {stack req} (top : s.stack = .allocating req :: stack) :
      Step s (.alloc true) { s with
        readerAt := .payload req (s.reader.eraseConsumed.takeLeftover req.size.toNat).1
        reader := (s.reader.eraseConsumed.takeLeftover req.size.toNat).2
        stack := .reading :: stack }
  | notAllocated {stack req} (top : s.stack = .allocating req :: stack) (size : 0 < req.size) :
      Step s (.alloc false) { s with stack }.endLoop
  | spawnsError {stack cid err} (top : s.stack = .spawning (.sendError cid err) :: stack) :
      Step s (.alloc true) ({ s with
        dispatched := s.dispatched ++ [Handler.sendError cid err]
        stack := .reading :: stack }.reply (State.replyOf s.dispatched.length (.sendError cid err)
          (errorResponse cid err)))
  | spawned {stack h} (top : s.stack = .spawning h :: stack)
      (file : ∀ cid err, h ≠ .sendError cid err)
      (f : Frame) (first : f = .performing s.dispatched.length h ∨
        f = .buffering s.dispatched.length h) :
      Step s (.alloc true) { s with
        dispatched := s.dispatched ++ [h]
        stack := f :: .reading :: stack }
  | notSpawned {stack h} (top : s.stack = .spawning h :: stack) :
      Step s (.alloc false) { s with stack }.endLoop
  | buffered {stack id h} (top : s.stack = .buffering id h :: stack) :
      Step s (.alloc true) { s with stack := .performing id h :: stack }
  | notBuffered {stack id h} (top : s.stack = .buffering id h :: stack) :
      Step s (.alloc false)
        { s with stack := .finishing :: stack, trace := .lost id :: s.trace }
  | performs {stack id h} (top : s.stack = .performing id h :: stack)
      (uring : s.backend = .ioUring) :
      Step s (.perform .suspended) { s with stack, files := s.files ++ [(id, h)] }
  | performed {stack id h r} (top : s.stack = .performing id h :: stack)
      (fits : h.Fits r ∨ ∃ err, r = .error err) :
      Step s (.perform (.result r)) ({ s with stack, trace := .performed id r :: s.trace }.reply
        (State.replyOf id h (h.respond r)))
  | performThrows {stack id h} (top : s.stack = .performing id h :: stack) :
      Step s (.perform .threw)
        { s with stack := .finishing :: stack, trace := .lost id :: s.trace }
  | fileReady {id h r} (flat : s.stack = []) (mem : (id, h) ∈ s.files) (fits : h.Fits r) :
      Step s (.fileReady id h r) ({ s with
        files := s.files.erase (id, h)
        trace := .performed id r :: s.trace }.reply (State.replyOf id h (h.respond r)))
  | callBlocks {t stack} (top : s.stack = .calling t :: stack) :
      Step s (.sendCall .suspended) { s with stack, io := s.io ++ [t] }
  | callReturns {t stack o} (top : s.stack = .calling t :: stack) (settled : o ≠ .suspended)
      (within : o.Within t.send.rest.length) :
      Step s (.sendCall o) { s with
        stack := .returned t o.count :: stack
        trace := taken t o ++ s.trace }
  | stillBlocked {t} (flat : s.stack = []) (mem : t ∈ s.io) : Step s (.sendReady t .suspended) s
  | readyReturns {t o} (flat : s.stack = []) (mem : t ∈ s.io) (settled : o ≠ .suspended)
      (within : o.Within t.send.rest.length) :
      Step s (.sendReady t o) { s with
        io := s.io.erase t
        stack := .returned t o.count :: s.stack
        trace := taken t o ++ s.trace }
  | completes {t o} (mem : t ∈ s.io) (settled : o ≠ .suspended)
      (within : o.Within t.send.rest.length) :
      Step s (.complete t o) { s with
        io := s.io.erase t, cq := s.cq ++ [(t, o.count)], trace := taken t o ++ s.trace }
  | reap {t count} (flat : s.stack = []) (mem : (t, count) ∈ s.cq) :
      Step s (.reap t count)
        { s with cq := s.cq.erase (t, count), stack := .returned t count :: s.stack }
  | sendsOn {t stack n} (top : s.stack = .returned t (some n) :: stack)
      (more : ¬ (State.resumed t n).send.Finished) :
      Step s .run { s with stack := .calling (State.resumed t n) :: stack }
  | sent {t stack n} (top : s.stack = .returned t (some n) :: stack)
      (finished : (State.resumed t n).send.Finished) :
      Step s .run { s with stack := .release t true :: stack }
  | sendThrows {t stack} (top : s.stack = .returned t none :: stack) :
      Step s .run { s with stack := .release t false :: stack, trace := .channel .fail :: s.trace }
  | handsOver {t sent u waiters stack} (top : s.stack = .release t sent :: stack)
      (waiting : s.sendMtx.waiters = u :: waiters) :
      Step s .run { s with
        sendMtx := { s.sendMtx with waiters }
        stack := .calling u :: .finishing :: stack
        trace := .channel (.acquire u.send.rest) :: .channel .release ::
          State.outcome t sent :: s.trace }
  | frees {t sent stack} (top : s.stack = .release t sent :: stack)
      (alone : s.sendMtx.waiters = []) :
      Step s .run { s with
        sendMtx := { s.sendMtx with locked := false }
        stack := .finishing :: stack
        trace := .channel .release :: State.outcome t sent :: s.trace }
  | finishes {stack} (top : s.stack = .finishing :: stack)
      (others : ¬ (s.remaining - 1 = 0 ∧ s.readerAt = .draining)) :
      Step s .run { s with stack, remaining := s.remaining - 1 }
  | finishesLast {stack} (top : s.stack = .finishing :: stack) (last : s.remaining - 1 = 0)
      (drains : s.readerAt = .draining) :
      Step s .run { s with
        stack := .closing :: stack, remaining := s.remaining - 1, readerAt := .returned }
  | closes {ok stack} (top : s.stack = .closing :: stack) :
      Step s (.close ok) { s with closed := ok, stack }

theorem State.loops_cases {s : State} (h : s.Loops) :
    s.readerAt = .header ∨ ∃ req got, s.readerAt = .payload req got := by
  cases at_ : s.readerAt <;> simp [Loops, at_] at h ⊢

theorem step_received {s : State} {batch : List (List UInt8)} (h : Enabled s (.received batch)) :
    Step s (.received batch) (next s (.received batch)) := by
  obtain ⟨flat, loops, isBatch⟩ := h
  rcases State.loops_cases loops with at_ | ⟨req, got, at_⟩
  · simp only [State.missing, at_] at isBatch
    simpa [next, State.receive, at_, flat] using Step.receivesHeader flat at_ isBatch
  · simp only [State.missing, at_] at isBatch
    simpa [next, State.receive, at_, flat] using Step.receivesPayload flat at_ isBatch

theorem step_reading {s : State} {stack : List Frame} (top : s.stack = .reading :: stack) :
    Step s .run { s with stack }.resumeReader := by
  cases at_ : s.readerAt with
  | header =>
    simp only [State.resumeReader]
    split
    · next short => exact at_ ▸ .awaitsHeader top at_ short
    · next enough =>
      have enough := Nat.le_of_not_lt enough
      simp only [State.onRequest]
      split
      · next action => exact at_ ▸ .rejects top at_ enough action
      · next action => exact at_ ▸ .allocates top at_ enough _ rfl action
      · next h action => exact at_ ▸ .spawns top at_ enough _ h rfl action
  | payload req got =>
    simp only [State.resumeReader]
    split
    · next short => exact at_ ▸ .awaitsPayload top at_ short
    · next enough => exact .spawnsWrite top at_ enough
  | draining =>
    simp only [State.resumeReader]
    exact at_ ▸ .readsNothing top (by simp [State.Loops, at_])
  | returned =>
    simp only [State.resumeReader]
    exact at_ ▸ .readsNothing top (by simp [State.Loops, at_])

theorem step_run {s : State} (h : Enabled s .run) : Step s .run s.run := by
  unfold Enabled at h
  cases top : s.stack with
  | nil => simp [top] at h
  | cons f stack =>
    cases f with
    | reading =>
      simp only [State.run, top]
      exact step_reading top
    | returned t count =>
      simp only [State.run, top]
      cases count with
      | some n =>
        simp only [State.resumeSend]
        split
        · next finished => exact .sent top finished
        · next more => exact .sendsOn top more
      | none => exact .sendThrows top
    | release t sent =>
      simp only [State.run, top]
      cases waiting : s.sendMtx.waiters with
      | nil => simpa [State.unlock, Mutex.unlock, waiting] using Step.frees top waiting
      | cons u waiters =>
        simpa [State.unlock, Mutex.unlock, waiting] using Step.handsOver top waiting
    | finishing =>
      simp only [State.run, top, State.done]
      split
      · next last => exact .finishesLast top last.1 last.2
      · next others => exact .finishes top others
    | _ => simp [top] at h

theorem step_alloc {s : State} {ok : Bool} (h : Enabled s (.alloc ok)) :
    Step s (.alloc ok) (s.alloc ok) := by
  unfold Enabled at h
  cases top : s.stack with
  | nil => simp [top] at h
  | cons f stack =>
    cases f with
    | allocating req =>
      simp only [State.alloc, top]
      cases ok with
      | true => exact .allocated top
      | false => exact .notAllocated top (by simpa [top, State.MayFail] using h)
    | spawning k =>
      simp only [State.alloc, top]
      cases ok with
      | true =>
        cases k with
        | sendError cid err => exact .spawnsError top
        | handleWrite cid offset payload durable => exact .spawned top nofun _ (Or.inl rfl)
        | handleRead cid offset size => exact .spawned top nofun _ (Or.inr rfl)
      | false => exact .notSpawned top
    | buffering id k =>
      simp only [State.alloc, top]
      cases ok with
      | true => exact .buffered top
      | false => exact .notBuffered top
    | _ => simp [top] at h

theorem step_perform {s : State} {o : FileOutcome} (h : Enabled s (.perform o)) :
    Step s (.perform o) (next s (.perform o)) := by
  unfold Enabled at h
  cases top : s.stack with
  | nil => simp [top] at h
  | cons f stack =>
    cases f with
    | performing id k =>
      simp only [top] at h
      simp only [next, top]
      cases o with
      | suspended => exact .performs top h
      | result r =>
        refine .performed top ?_
        cases r with
        | transferred n data => exact Or.inl h.2
        | error err => exact Or.inr ⟨err, rfl⟩
      | threw => exact .performThrows top
    | _ => simp [top] at h

theorem step_sendCall {s : State} {o : SendOutcome} (h : Enabled s (.sendCall o)) :
    Step s (.sendCall o) (next s (.sendCall o)) := by
  unfold Enabled at h
  cases top : s.stack with
  | nil => simp [top] at h
  | cons f stack =>
    cases f with
    | calling t =>
      simp only [top] at h
      simp only [next, top]
      split
      · next hsusp =>
        subst hsusp
        exact .callBlocks top
      · next settled => exact .callReturns top settled h.2
    | _ => simp [top] at h

/-- The inversion of a step; every invariant below is a case analysis of it. -/
theorem step_of_enabled {s : State} {e : Event} (h : Enabled s e) : Step s e (next s e) := by
  cases e with
  | received batch => exact step_received h
  | receiveFailed => exact .receiveFailed h.1 h.2
  | alloc ok => exact step_alloc h
  | perform o => exact step_perform h
  | fileReady id k r => exact .fileReady h.1 h.2.1 h.2.2
  | sendCall o => exact step_sendCall h
  | sendReady t o =>
    obtain ⟨flat, -, mem, within⟩ := h
    simp only [next]
    split
    · next hsusp =>
      subst hsusp
      exact .stillBlocked flat mem
    · next settled => exact .readyReturns flat mem settled within
  | complete t o => exact .completes h.2.1 h.2.2.1 h.2.2.2
  | reap t count => exact .reap h.1 h.2
  | close ok =>
    obtain ⟨stack, top⟩ := List.head?_eq_some_iff.mp h
    have hnext : next s (.close ok) = { s with closed := ok, stack } := by
      simp only [next, top, List.tail_cons]
    rw [hnext]
    exact .closes top
  | run => exact step_run h

end EasybdSession
