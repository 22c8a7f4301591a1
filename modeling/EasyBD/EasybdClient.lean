import EasyBD.TransitionRuns
import EasyBD.EntryLedger
import EasyBD.SerializedFrames
import EasyBD.EasyioMutex
import EasyBD.EasyioFramedReader
import EasyBD.EasybdRequests

/-! One connected `Client` as a transition system. Coroutines switch only at suspension
points, so the control state is a stack of activations: whatever `resume`, `spawn`, a guard's
destructor or a callback runs synchronously lies above what it returns to. A suspended
`send_request` is owned by the place that will resume it. -/
namespace EasybdClient

open TransitionRuns EntryLedger SerializedFrames EasybdProtocol EasyioQueue EasyioSendAll
open EasyioMutex EasyioFramedReader EasybdRequests

/-- `Client::Pending`; `request` stands for `buf`, `cb` and `user_data`. -/
structure Pending where
  isRead : Bool
  request : ℕ
  deriving DecidableEq

/-- A `send_request` coroutine that has not finished; `send` is the loop in `send_all`. -/
structure SendRequest where
  request : ℕ
  cid : UInt64
  payload : List UInt8
  send : SendAll
  deriving DecidableEq

/-- What `reader_loop` waits for. `body` holds its copies of the header and the entry. -/
inductive Reader where
  | header
  | body (cid : UInt64) (res : Int64) (pending : Pending)
  | ended
  deriving DecidableEq

/-- How many bytes the current `read_exact` is called with. -/
def Reader.needed : Reader → ℕ
  | .header => responseHeaderSize
  | .body _ res _ => res.toNatClampNeg
  | .ended => 0

/-- One activation; `returned` is a sender whose `send` came back with a count or threw. -/
inductive Frame where
  | request
  | callback (request : ℕ)
  | calling (t : SendRequest)
  | returned (t : SendRequest) (count : Option ℕ)
  | release (t : SendRequest)
  | reading
  | failAllPending
  | failing (pendings : List Pending)
  deriving DecidableEq

inductive Call where
  | idle
  | polling (before : UInt64)
  | dispatching (before : UInt64)
  | destroying (ops : List SendRequest)
  | destroyed
  deriving DecidableEq

inductive Context where
  | user
  | request
  | wait
  | destroy
  deriving DecidableEq

inductive Effect where
  | accepted (request : ℕ)
  | refused (err : ℕ)
  | channel (op : Op UInt8)
  /-- `sendmsg` was given the request's payload. -/
  | handed (request : ℕ)
  | received (bytes : List UInt8)
  | copied (request : ℕ) (body : List UInt8)
  | fired (request : ℕ) (res : Int64) (during : Context)
  | waitStarted
  | waited (count : ℤ)
  deriving DecidableEq

abbrev PendingMap := AList fun _ : UInt64 => Pending

/-- `requests` lists what was entered into `_pending`, with its cid; a request's identity is
its position. `trace` is newest first. -/
structure State where
  backend : Backend
  syncWrites : Bool
  nextCid : UInt64
  pending : PendingMap
  sendMtx : Mutex SendRequest
  totalDispatched : UInt64
  /-- Registered with the queue, and completed by the kernel but not dispatched. -/
  io : List SendRequest
  cq : List (SendRequest × Option ℕ)
  reader : FramedReader
  readerAt : Reader
  stack : List Frame
  call : Call
  requests : List (UInt64 × Request)
  trace : List Effect

def initial (backend : Backend) (syncWrites : Bool) : State where
  backend := backend
  syncWrites := syncWrites
  nextCid := 1
  pending := ∅
  sendMtx := .initial
  totalDispatched := 0
  io := []
  cq := []
  reader := .initial
  readerAt := .header
  stack := []
  call := .idle
  requests := []
  trace := []

namespace State

@[simp] def emit (s : State) (e : Effect) : State := { s with trace := e :: s.trace }

@[simp] def push (s : State) (f : Frame) : State := { s with stack := f :: s.stack }

def context (s : State) : Context :=
  if .request ∈ s.stack then .request
  else match s.call with
    | .idle => .user
    | .polling _ | .dispatching _ => .wait
    | .destroying _ | .destroyed => .destroy

/-- `++_total_dispatched; pending.cb(res, pending.user_data)`. -/
@[simp] def fire (s : State) (p : Pending) (res : Int64) : State :=
  { s with
    totalDispatched := s.totalDispatched + 1
    stack := .callback p.request :: s.stack
    trace := .fired p.request res s.context :: s.trace }

def lock (s : State) (t : SendRequest) : State :=
  if s.sendMtx.locked then { s with sendMtx := s.sendMtx.wait t }
  else
    { s with
      sendMtx := s.sendMtx.take
      stack := .calling t :: s.stack
      trace := .channel (.acquire t.send.rest) :: s.trace }

def unlock (s : State) : State :=
  match s.sendMtx.unlock with
  | (some t, m) =>
    { s with
      sendMtx := m
      stack := .calling t :: s.stack
      trace := .channel (.acquire t.send.rest) :: .channel .release :: s.trace }
  | (none, m) => { s with sendMtx := m, trace := .channel .release :: s.trace }

/-- `_pending[cid] = Pending{...}` under the next cid. -/
@[simp] def register (s : State) (r : Request) : State :=
  { s with
    nextCid := s.nextCid + 1
    pending := s.pending.insert s.nextCid ⟨r.isRead, s.requests.length⟩
    requests := s.requests ++ [(s.nextCid, r)] }

@[simp] def sendRequest (s : State) (r : Request) : SendRequest :=
  ⟨s.requests.length, s.nextCid, r.payload, r.startSend s.syncWrites s.nextCid⟩

end State

/-- Where accepting a request can throw: the map insertion, or a coroutine frame. -/
inductive Fault where
  | insert
  | spawn
  deriving DecidableEq

namespace State

def request (s : State) (r : Request) (fault : Option Fault) : State :=
  if easybdMaxPayloadSize < r.size then s.emit (.refused emsgsize)
  else match fault with
    | some .insert => { s with nextCid := s.nextCid + 1 }.emit (.refused enomem)
    | some .spawn => (s.register r).emit (.refused enomem)
    | none =>
      (((s.register r).emit (.accepted s.requests.length)).push .request).lock (s.sendRequest r)

def resumed (t : SendRequest) (n : ℕ) : SendRequest :=
  { t with send := (t.send.resume n).getD t.send }

/-- `send_all` after `co_await`, and the handler around it. -/
def resumeSend (s : State) (t : SendRequest) : Option ℕ → State
  | some n =>
    if (resumed t n).send.Finished then s.push (.release t) else s.push (.calling (resumed t n))
  | none =>
    let s := (s.emit (.channel .fail)).push (.release t)
    match s.pending.lookup t.cid with
    | none => s
    | some p => { s with pending := s.pending.erase t.cid }.fire p (negErrno econnreset)

/-- The end of an iteration of `reader_loop`. -/
@[simp] def finishResponse (s : State) (cid : UInt64) (res : Int64) (p : Pending) : State :=
  ({ s with pending := s.pending.erase cid, readerAt := .header }.push .reading).fire p res

/-- `catch (...)` in `reader_loop`. -/
@[simp] def endReader (s : State) : State :=
  { s with readerAt := .ended, stack := .failAllPending :: s.stack }

def onResponse (s : State) (resp : ResponseHeader) : State :=
  match s.pending.lookup resp.cid with
  | none => s.endReader
  | some p =>
    if p.isRead ∧ 0 < resp.res then
      { s with readerAt := .body resp.cid resp.res p }.push .reading
    else s.finishResponse resp.cid resp.res p

def onRead (s : State) (bytes : List UInt8) : State :=
  match s.readerAt with
  | .header => s.onResponse (.ofBytes bytes)
  | .body cid res p => (s.emit (.copied p.request bytes)).finishResponse cid res p
  | .ended => s

def resumeReader (s : State) : State :=
  let r := s.reader.eraseConsumed
  if r.buf.length < s.readerAt.needed then { s with reader := r }
  else
    let read := r.returnExact s.readerAt.needed
    { s with reader := read.2 }.onRead read.1

/-- The activation on top goes on, where nothing outside decides how. -/
def run (s : State) : State :=
  match s.stack with
  | .returned t count :: stack => { s with stack }.resumeSend t count
  | .release _ :: stack => { s with stack }.unlock
  | .reading :: stack => { s with stack }.resumeReader
  | .failing [] :: stack => { s with stack }
  | .failing (p :: ps) :: stack =>
    { s with stack := .failing ps :: stack }.fire p (negErrno econnreset)
  | _ => s

end State

/-- What a `send` call shows the kernel of the caller's memory; a call that got no SQE shows
nothing. -/
def shown (b : Backend) (t : SendRequest) (o : SendOutcome) : List Effect :=
  if t.payload = [] ∨ b = .ioUring ∧ o = .failed then [] else [.handed t.request]

/-- What its outcome puts on the wire. -/
def taken (t : SendRequest) : SendOutcome → List Effect
  | .accepted n => [.channel (.accept (t.send.rest.take n))]
  | _ => []

inductive Event where
  | request (r : Request) (fault : Option Fault)
  | requestReturn
  | wait
  | pollFailed (err : Errno)
  | poll
  | waitReturn
  | destroy
  | cancel
  | destroyReturn
  | callbackReturn
  | sendCall (o : SendOutcome)
  /-- libc: the socket is writable and the registered operation tries again. -/
  | sendReady (t : SendRequest) (o : SendOutcome)
  /-- io_uring: the kernel completes an operation, and later its CQE is dispatched. -/
  | complete (t : SendRequest) (o : SendOutcome)
  | reap (t : SendRequest) (count : Option ℕ)
  | received (batch : List (List UInt8))
  /-- EOF, an error, or no memory for the bytes. -/
  | receiveFailed
  /-- `fail_all_pending` copies the entries in the map's iteration order. -/
  | drain (order : List Pending)
  | run

namespace State

/-- User code may issue a request outside of any call, and inside a callback. -/
def MayRequest (s : State) : Prop :=
  match s.stack with
  | [] => s.call = .idle
  | .callback _ :: _ => True
  | _ => False

def Idle (s : State) : Prop := s.stack = [] ∧ s.call = .idle

def Polling (s : State) : Prop :=
  s.stack = [] ∧ match s.call with
    | .polling _ => True
    | _ => False

def Dispatching (s : State) : Prop :=
  s.stack = [] ∧ match s.call with
    | .dispatching _ => True
    | _ => False

def Destroying (s : State) : Prop :=
  s.stack = [] ∧ match s.call with
    | .destroying _ => True
    | _ => False

/-- The operations `cancel_fd` goes through. -/
def ops (s : State) : List SendRequest :=
  match s.call with
  | .destroying ops => ops
  | _ => []

end State

def Enabled (s : State) : Event → Prop
  | .request _ _ => s.MayRequest
  | .requestReturn => s.stack.head? = some .request
  | .wait => s.Idle
  | .pollFailed _ => s.Polling
  | .poll => s.Polling
  | .waitReturn => s.Dispatching
  | .destroy => s.Idle
  | .cancel => s.Destroying ∧ s.ops ≠ []
  | .destroyReturn => s.Destroying ∧ s.ops = []
  | .callbackReturn =>
    match s.stack with
    | .callback _ :: _ => True
    | _ => False
  | .sendCall o =>
    match s.stack with
    | .calling t :: _ => o.AtCall s.backend ∧ o.Within t.send.rest.length
    | _ => False
  | .sendReady t o =>
    s.Dispatching ∧ s.backend = .libc ∧ t ∈ s.io ∧ o.Within t.send.rest.length
  | .complete t o =>
    s.backend = .ioUring ∧ t ∈ s.io ∧ o ≠ .suspended ∧ o.Within t.send.rest.length
  | .reap t count => s.Dispatching ∧ (t, count) ∈ s.cq
  | .received batch =>
    s.Dispatching ∧ s.readerAt ≠ .ended ∧ IsBatch (s.readerAt.needed - s.reader.unread.length) batch
  | .receiveFailed => s.Dispatching ∧ s.readerAt ≠ .ended
  | .drain order => s.stack.head? = some .failAllPending ∧ order.Perm (values s.pending)
  | .run =>
    match s.stack with
    | .returned _ _ :: _ | .release _ :: _ | .reading :: _ | .failing _ :: _ => True
    | _ => False

def next (s : State) : Event → State
  | .request r fault => s.request r fault
  | .requestReturn => { s with stack := s.stack.tail }
  | .wait => { s with call := .polling s.totalDispatched }.emit .waitStarted
  | .pollFailed err => { s with call := .idle }.emit (.waited (-err.val))
  | .poll =>
    match s.call with
    | .polling before => { s with call := .dispatching before }
    | _ => s
  | .waitReturn =>
    match s.call with
    | .dispatching before =>
      let n := s.totalDispatched - before
      { s with call := .idle }.emit (.waited ((n.toNat : ℤ).bmod (2 ^ 32)))
    | _ => s
  | .destroy =>
    match s.backend with
    | .ioUring => { s with call := .destroying [] }
    | .libc =>
      let s' := { s with call := .destroying s.io, io := [] }
      if s.readerAt = .ended then s' else s'.endReader
  | .cancel =>
    match s.call with
    | .destroying (t :: ops) =>
      { s with call := .destroying ops, stack := .returned t none :: s.stack }
    | _ => s
  | .destroyReturn => { s with call := .destroyed }
  | .callbackReturn => { s with stack := s.stack.tail }
  | .sendCall o =>
    match s.stack with
    | .calling t :: stack =>
      let s := { s with stack, trace := taken t o ++ (shown s.backend t o ++ s.trace) }
      if o = .suspended then { s with io := s.io ++ [t] } else s.push (.returned t o.count)
    | _ => s
  | .sendReady t o =>
    let s := { s with trace := taken t o ++ (shown s.backend t o ++ s.trace) }
    if o = .suspended then s
    else { s with io := s.io.erase t }.push (.returned t o.count)
  | .complete t o =>
    { s with io := s.io.erase t, cq := s.cq ++ [(t, o.count)], trace := taken t o ++ s.trace }
  | .reap t count => { s with cq := s.cq.erase (t, count) }.push (.returned t count)
  | .received batch =>
    { s with reader := s.reader.insertBatch batch }.emit (.received batch.flatten)
      |>.push .reading
  | .receiveFailed => s.endReader
  | .drain order => { s with pending := ∅, stack := .failing order :: s.stack.tail }
  | .run => s.run

def machine : System State Event := ⟨Enabled, next⟩

section Decidability

variable (s : State)

instance : Decidable s.MayRequest := by unfold State.MayRequest; split <;> infer_instance
instance : Decidable s.Idle := inferInstanceAs (Decidable (_ ∧ _))
instance : Decidable s.Polling := by
  unfold State.Polling
  exact @instDecidableAnd _ _ _ (by split <;> infer_instance)
instance : Decidable s.Dispatching := by
  unfold State.Dispatching
  exact @instDecidableAnd _ _ _ (by split <;> infer_instance)
instance : Decidable s.Destroying := by
  unfold State.Destroying
  exact @instDecidableAnd _ _ _ (by split <;> infer_instance)

instance (e : Event) : Decidable (Enabled s e) := by
  cases e <;> simp only [Enabled] <;> first | infer_instance | (split <;> infer_instance)

instance (s : State) (e : Event) : Decidable (machine.Enabled s e) :=
  inferInstanceAs (Decidable (Enabled s e))

end Decidability

/-- What one step does, branch by branch. -/
inductive Step (s : State) : Event → State → Prop where
  | oversized (r : Request) (fault : Option Fault) (may : s.MayRequest)
      (size : easybdMaxPayloadSize < r.size) :
      Step s (.request r fault) (s.emit (.refused emsgsize))
  | noEntry (r : Request) (may : s.MayRequest) :
      Step s (.request r (some .insert))
        ({ s with nextCid := s.nextCid + 1 }.emit (.refused enomem))
  | noFrame (r : Request) (may : s.MayRequest) (size : ¬ easybdMaxPayloadSize < r.size) :
      Step s (.request r (some .spawn)) ((s.register r).emit (.refused enomem))
  | sends (r : Request) (may : s.MayRequest) (size : ¬ easybdMaxPayloadSize < r.size)
      (free : s.sendMtx.locked = false) :
      Step s (.request r none)
        { s.register r with
          sendMtx := s.sendMtx.take
          stack := .calling (s.sendRequest r) :: .request :: s.stack
          trace := .channel (.acquire (s.sendRequest r).send.rest) ::
            .accepted s.requests.length :: s.trace }
  | queues (r : Request) (may : s.MayRequest) (size : ¬ easybdMaxPayloadSize < r.size)
      (busy : s.sendMtx.locked = true) :
      Step s (.request r none)
        { s.register r with
          sendMtx := s.sendMtx.wait (s.sendRequest r)
          stack := .request :: s.stack
          trace := .accepted s.requests.length :: s.trace }
  | requestReturn {stack} (top : s.stack = .request :: stack) :
      Step s .requestReturn { s with stack }
  | callbackReturn {id stack} (top : s.stack = .callback id :: stack) :
      Step s .callbackReturn { s with stack }
  | wait (idle : s.Idle) :
      Step s .wait ({ s with call := .polling s.totalDispatched }.emit .waitStarted)
  | pollFailed {before} (err : Errno) (flat : s.stack = []) (call : s.call = .polling before) :
      Step s (.pollFailed err) ({ s with call := .idle }.emit (.waited (-err.val)))
  | poll {before} (flat : s.stack = []) (call : s.call = .polling before) :
      Step s .poll { s with call := .dispatching before }
  | waitReturn {before} (flat : s.stack = []) (call : s.call = .dispatching before) :
      Step s .waitReturn ({ s with call := .idle }.emit
        (.waited (((s.totalDispatched - before).toNat : ℤ).bmod (2 ^ 32))))
  | destroyUring (idle : s.Idle) (backend : s.backend = .ioUring) :
      Step s .destroy { s with call := .destroying [] }
  | destroyEnded (idle : s.Idle) (backend : s.backend = .libc) (ended : s.readerAt = .ended) :
      Step s .destroy { s with call := .destroying s.io, io := [] }
  | destroyReading (idle : s.Idle) (backend : s.backend = .libc) (reads : s.readerAt ≠ .ended) :
      Step s .destroy { s with call := .destroying s.io, io := [] }.endReader
  | cancel {t ops} (flat : s.stack = []) (call : s.call = .destroying (t :: ops)) :
      Step s .cancel { s with call := .destroying ops, stack := [.returned t none] }
  | destroyReturn (flat : s.stack = []) (call : s.call = .destroying []) :
      Step s .destroyReturn { s with call := .destroyed }
  | callBlocks {t stack} (top : s.stack = .calling t :: stack) :
      Step s (.sendCall .suspended) { s with
        stack, io := s.io ++ [t], trace := shown s.backend t .suspended ++ s.trace }
  | callReturns {t stack o} (top : s.stack = .calling t :: stack) (settled : o ≠ .suspended)
      (within : o.Within t.send.rest.length) :
      Step s (.sendCall o) { s with
        stack := .returned t o.count :: stack
        trace := taken t o ++ (shown s.backend t o ++ s.trace) }
  | stillBlocked {t} (dispatching : s.Dispatching) (mem : t ∈ s.io) :
      Step s (.sendReady t .suspended)
        { s with trace := shown s.backend t .suspended ++ s.trace }
  | readyReturns {t o} (dispatching : s.Dispatching) (mem : t ∈ s.io) (settled : o ≠ .suspended)
      (within : o.Within t.send.rest.length) :
      Step s (.sendReady t o) { s with
        io := s.io.erase t
        stack := .returned t o.count :: s.stack
        trace := taken t o ++ (shown s.backend t o ++ s.trace) }
  | completes {t o} (mem : t ∈ s.io) (settled : o ≠ .suspended)
      (within : o.Within t.send.rest.length) :
      Step s (.complete t o) { s with
        io := s.io.erase t, cq := s.cq ++ [(t, o.count)], trace := taken t o ++ s.trace }
  | reap {t count} (dispatching : s.Dispatching) (mem : (t, count) ∈ s.cq) :
      Step s (.reap t count) ({ s with cq := s.cq.erase (t, count) }.push (.returned t count))
  | received {batch} (dispatching : s.Dispatching) (reads : s.readerAt ≠ .ended)
      (isBatch : IsBatch (s.readerAt.needed - s.reader.unread.length) batch) :
      Step s (.received batch)
        (({ s with reader := s.reader.insertBatch batch }.emit (.received batch.flatten)).push
          .reading)
  | receiveFailed (dispatching : s.Dispatching) (reads : s.readerAt ≠ .ended) :
      Step s .receiveFailed s.endReader
  | drain {order stack} (top : s.stack = .failAllPending :: stack)
      (perm : order.Perm (values s.pending)) :
      Step s (.drain order) { s with pending := ∅, stack := .failing order :: stack }
  | sendsOn {t stack n} (top : s.stack = .returned t (some n) :: stack)
      (more : ¬ (State.resumed t n).send.Finished) :
      Step s .run { s with stack := .calling (State.resumed t n) :: stack }
  | sent {t stack n} (top : s.stack = .returned t (some n) :: stack)
      (finished : (State.resumed t n).send.Finished) :
      Step s .run { s with stack := .release t :: stack }
  | sendThrows {t stack p} (top : s.stack = .returned t none :: stack)
      (pending : s.pending.lookup t.cid = some p) :
      Step s .run ({ s with
        pending := s.pending.erase t.cid
        stack := .release t :: stack
        trace := .channel .fail :: s.trace }.fire p (negErrno econnreset))
  | sendThrowsLate {t stack} (top : s.stack = .returned t none :: stack)
      (gone : s.pending.lookup t.cid = none) :
      Step s .run { s with stack := .release t :: stack, trace := .channel .fail :: s.trace }
  | handsOver {c t stack waiters} (top : s.stack = .release c :: stack)
      (waiting : s.sendMtx.waiters = t :: waiters) :
      Step s .run { s with
        sendMtx := { s.sendMtx with waiters }
        stack := .calling t :: stack
        trace := .channel (.acquire t.send.rest) :: .channel .release :: s.trace }
  | frees {c stack} (top : s.stack = .release c :: stack) (alone : s.sendMtx.waiters = []) :
      Step s .run { s with
        sendMtx := { s.sendMtx with locked := false }
        stack
        trace := .channel .release :: s.trace }
  | readsOn {stack} (top : s.stack = .reading :: stack)
      (short : s.reader.unread.length < s.readerAt.needed) :
      Step s .run { s with stack, reader := s.reader.eraseConsumed }
  | unknownCid {stack} (top : s.stack = .reading :: stack) (at_ : s.readerAt = .header)
      (enough : s.readerAt.needed ≤ s.reader.unread.length)
      (unknown : s.pending.lookup (ResponseHeader.ofBytes
        (s.reader.unread.take responseHeaderSize)).cid = none) :
      Step s .run { s with
        stack, reader := (s.reader.eraseConsumed.returnExact responseHeaderSize).2 }.endReader
  | awaitsBody {stack p} (top : s.stack = .reading :: stack) (at_ : s.readerAt = .header)
      (enough : s.readerAt.needed ≤ s.reader.unread.length) (resp : ResponseHeader)
      (bytes : ResponseHeader.ofBytes (s.reader.unread.take responseHeaderSize) = resp)
      (known : s.pending.lookup resp.cid = some p) (read : p.isRead = true) (pos : 0 < resp.res) :
      Step s .run { s with
        stack := .reading :: stack
        reader := (s.reader.eraseConsumed.returnExact responseHeaderSize).2
        readerAt := .body resp.cid resp.res p }
  | answered {stack p} (top : s.stack = .reading :: stack) (at_ : s.readerAt = .header)
      (enough : s.readerAt.needed ≤ s.reader.unread.length) (resp : ResponseHeader)
      (bytes : ResponseHeader.ofBytes (s.reader.unread.take responseHeaderSize) = resp)
      (known : s.pending.lookup resp.cid = some p)
      (bodiless : ¬ (p.isRead = true ∧ 0 < resp.res)) :
      Step s .run ({ s with
        stack
        reader := (s.reader.eraseConsumed.returnExact responseHeaderSize).2 }.finishResponse
          resp.cid resp.res p)
  | copies {stack cid res p} (top : s.stack = .reading :: stack)
      (at_ : s.readerAt = .body cid res p)
      (enough : s.readerAt.needed ≤ s.reader.unread.length) :
      Step s .run (({ s with
        stack, reader := (s.reader.eraseConsumed.returnExact s.readerAt.needed).2 }.emit
          (.copied p.request (s.reader.unread.take s.readerAt.needed))).finishResponse cid res p)
  | readsNothing {stack} (top : s.stack = .reading :: stack) (at_ : s.readerAt = .ended) :
      Step s .run { s with stack, reader := (s.reader.eraseConsumed.returnExact 0).2 }
  | failsNext {stack p ps} (top : s.stack = .failing (p :: ps) :: stack) :
      Step s .run ({ s with stack := .failing ps :: stack }.fire p (negErrno econnreset))
  | failedAll {stack} (top : s.stack = .failing [] :: stack) : Step s .run { s with stack }

namespace State

variable {s : State}

theorem Polling.call (h : s.Polling) : ∃ before, s.call = .polling before := by
  obtain ⟨-, h⟩ := h
  split at h
  · exact ⟨_, ‹_›⟩
  · exact h.elim

theorem Dispatching.call (h : s.Dispatching) : ∃ before, s.call = .dispatching before := by
  obtain ⟨-, h⟩ := h
  split at h
  · exact ⟨_, ‹_›⟩
  · exact h.elim

theorem Destroying.call (h : s.Destroying) : s.call = .destroying s.ops := by
  obtain ⟨-, h⟩ := h
  split at h
  · simp only [ops, ‹s.call = _›]
  · exact h.elim

end State

theorem step_request {s : State} (r : Request) (fault : Option Fault) (may : s.MayRequest) :
    Step s (.request r fault) (s.request r fault) := by
  by_cases size : easybdMaxPayloadSize < r.size
  · simpa only [State.request, if_pos size] using Step.oversized r fault may size
  · cases fault with
    | none =>
      cases hl : s.sendMtx.locked with
      | false => simpa [State.request, size, State.lock, hl] using Step.sends r may size hl
      | true => simpa [State.request, size, State.lock, hl] using Step.queues r may size hl
    | some fault =>
      cases fault with
      | insert => simpa only [State.request, if_neg size] using Step.noEntry r may
      | spawn => simpa only [State.request, if_neg size] using Step.noFrame r may size

theorem step_reading {s : State} {stack : List Frame} (top : s.stack = .reading :: stack) :
    Step s .run { s with stack }.resumeReader := by
  by_cases short : s.reader.unread.length < s.readerAt.needed
  · have hrun : { s with stack }.resumeReader =
        { s with stack, reader := s.reader.eraseConsumed } := if_pos short
    rw [hrun]
    exact .readsOn top short
  · have enough := Nat.le_of_not_lt short
    have hrun : { s with stack }.resumeReader = { s with
        stack, reader := (s.reader.eraseConsumed.returnExact s.readerAt.needed).2 }.onRead
          (s.reader.unread.take s.readerAt.needed) := if_neg short
    rw [hrun]
    cases at_ : s.readerAt with
    | header =>
      rw [show Reader.header.needed = responseHeaderSize from rfl]
      simp only [State.onRead, State.onResponse]
      split
      · next known => exact .unknownCid top at_ enough known
      · next p known =>
        by_cases body : p.isRead = true ∧
            0 < (ResponseHeader.ofBytes (s.reader.unread.take responseHeaderSize)).res
        · rw [if_pos body]
          exact .awaitsBody top at_ enough _ rfl known body.1 body.2
        · rw [if_neg body]
          exact .answered top at_ enough _ rfl known body
    | body cid res p =>
      rw [← at_]
      simp only [State.onRead, at_]
      rw [← at_]
      exact .copies top at_ enough
    | ended =>
      simp only [State.onRead, Reader.needed]
      rw [← at_]
      exact .readsNothing top at_

theorem step_run {s : State} (h : Enabled s .run) : Step s .run s.run := by
  unfold Enabled at h
  cases top : s.stack with
  | nil => simp [top] at h
  | cons f stack =>
    cases f with
    | request => simp [top] at h
    | callback id => simp [top] at h
    | calling t => simp [top] at h
    | failAllPending => simp [top] at h
    | returned t count =>
      simp only [State.run, top]
      cases count with
      | some n =>
        simp only [State.resumeSend]
        split
        · next finished => exact .sent top finished
        · next more => exact .sendsOn top more
      | none =>
        cases pending : s.pending.lookup t.cid with
        | none => simpa [State.resumeSend, pending] using Step.sendThrowsLate top pending
        | some p =>
          have hstep := Step.sendThrows top pending
          simp only [State.resumeSend, State.emit, State.push, pending]
          exact hstep
    | release c =>
      simp only [State.run, top]
      cases waiting : s.sendMtx.waiters with
      | nil => simpa [State.unlock, Mutex.unlock, waiting] using Step.frees top waiting
      | cons t waiters =>
        simpa [State.unlock, Mutex.unlock, waiting] using Step.handsOver top waiting
    | reading =>
      simp only [State.run, top]
      exact step_reading top
    | failing ps =>
      simp only [State.run, top]
      cases ps with
      | nil => exact .failedAll top
      | cons p ps => exact .failsNext top

theorem step_destroy {s : State} (h : s.Idle) : Step s .destroy (next s .destroy) := by
  cases backend : s.backend with
  | ioUring => simpa only [next, backend] using Step.destroyUring h backend
  | libc =>
    by_cases ended : s.readerAt = .ended
    · simpa only [next, backend, if_pos ended] using Step.destroyEnded h backend ended
    · simpa only [next, backend, if_neg ended] using Step.destroyReading h backend ended

theorem step_sendCall {s : State} {o : SendOutcome} (h : Enabled s (.sendCall o)) :
    Step s (.sendCall o) (next s (.sendCall o)) := by
  unfold Enabled at h
  cases top : s.stack with
  | nil => simp [top] at h
  | cons f stack =>
    cases f with
    | calling t =>
      simp only [top] at h
      simp only [next, top]
      split
      · next hsusp =>
        subst hsusp
        exact .callBlocks top
      · next settled => exact .callReturns top settled h.2
    | request => simp [top] at h
    | callback id => simp [top] at h
    | returned t count => simp [top] at h
    | release c => simp [top] at h
    | reading => simp [top] at h
    | failAllPending => simp [top] at h
    | failing ps => simp [top] at h

theorem callback_of_enabled {s : State} (h : Enabled s .callbackReturn) :
    ∃ id stack, s.stack = .callback id :: stack := by
  cases top : s.stack with
  | nil => simp [Enabled, top] at h
  | cons f stack =>
    cases f with
    | callback id => exact ⟨id, stack, rfl⟩
    | _ => simp [Enabled, top] at h

/-- The inversion of a step; every invariant below is a case analysis of it. -/
theorem step_of_enabled {s : State} {e : Event} (h : Enabled s e) : Step s e (next s e) := by
  cases e with
  | request r fault => exact step_request r fault h
  | requestReturn =>
    obtain ⟨stack, top⟩ := List.head?_eq_some_iff.mp h
    have hnext : next s .requestReturn = { s with stack } := by
      simp only [next, top, List.tail_cons]
    rw [hnext]
    exact .requestReturn top
  | callbackReturn =>
    obtain ⟨id, stack, top⟩ := callback_of_enabled h
    have hnext : next s .callbackReturn = { s with stack } := by
      simp only [next, top, List.tail_cons]
    rw [hnext]
    exact .callbackReturn top
  | wait => exact .wait h
  | pollFailed err =>
    obtain ⟨before, call⟩ := h.call
    exact .pollFailed err h.1 call
  | poll =>
    obtain ⟨before, call⟩ := State.Polling.call h
    simpa only [next, call] using Step.poll h.1 call
  | waitReturn =>
    obtain ⟨before, call⟩ := State.Dispatching.call h
    simpa only [next, call] using Step.waitReturn h.1 call
  | destroy => exact step_destroy h
  | cancel =>
    have call := h.1.call
    cases hops : s.ops with
    | nil => exact absurd hops h.2
    | cons t ops =>
      rw [hops] at call
      have hstep := Step.cancel h.1.1 call
      simpa only [next, call, h.1.1] using hstep
  | destroyReturn =>
    have call := h.1.call
    rw [h.2] at call
    exact .destroyReturn h.1.1 call
  | sendCall o => exact step_sendCall h
  | sendReady t o =>
    obtain ⟨dispatching, -, mem, within⟩ := h
    simp only [next]
    split
    · next hsusp =>
      subst hsusp
      exact .stillBlocked dispatching mem
    · next settled => exact .readyReturns dispatching mem settled within
  | complete t o => exact .completes h.2.1 h.2.2.1 h.2.2.2
  | reap t count => exact .reap h.1 h.2
  | received batch => exact .received h.1 h.2.1 h.2.2
  | receiveFailed => exact .receiveFailed h.1 h.2
  | drain order =>
    obtain ⟨stack, top⟩ := List.head?_eq_some_iff.mp h.1
    have hnext : next s (.drain order) =
        { s with pending := ∅, stack := .failing order :: stack } := by
      simp only [next, top, List.tail_cons]
    rw [hnext]
    exact .drain top h.2
  | run => exact step_run h

end EasybdClient
