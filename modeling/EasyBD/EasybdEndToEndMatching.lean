import EasyBD.EasybdEndToEndWork

/-! What the callbacks see: pipelined requests are answered in any order, and none gets the
result or the bytes of another. -/
namespace EasybdEndToEndMatching

open TransitionRuns EntryLedger EasybdProtocol EasyioQueue EasybdHandlers EasybdRequests
open EasybdEndToEnd EasybdEndToEndProgress EasybdEndToEndWork
open EasybdClientReliable (results copied)
open EasybdClientTable (Issued firedIds)
open EasybdSessionTasks (marks performedIds)

/-- What a file operation returned, as a callback is to see it. -/
def returnValue : FileResult → ℤ
  | .transferred count _ => count
  | .error err => -(err.val : ℤ)

def bytesRead : FileResult → List UInt8
  | .transferred _ data => data
  | .error _ => []

def operations (trace : List EasybdSession.Effect) : List (ℕ × FileResult) :=
  (marks trace).filterMap fun
    | .performed id r => some (id, r)
    | _ => none

def callbacks (s : State) (id : ℕ) : List Int64 := under id (results s.client.trace)

/-- The caller's memory once `reader_loop` has copied these bodies to its start. -/
def bufferAfter (buf : List UInt8) : List (List UInt8) → List UInt8
  | [] => buf
  | body :: bodies => bufferAfter (body ++ buf.drop body.length) bodies

def buffer (s : State) (id : ℕ) (q : Request) : List UInt8 :=
  bufferAfter q.buf (under id (copied s.client.trace))

/-- No callback yet, and the buffer as the caller passed it. -/
structure Waiting (s : State) (id : ℕ) (q : Request) : Prop where
  callbacks : callbacks s id = []
  buffer : buffer s id q = q.buf

/-- The handler of the request has performed one file operation, which returned `r`; the
callback was invoked once, with that result, and the bytes it read are in the buffer. -/
structure Answered (syncWrites : Bool) (s : State) (cid : UInt64) (id : ℕ) (q : Request)
    (r : FileResult) : Prop where
  handler : s.session.dispatched[id]? = some (q.handler syncWrites cid)
  operation : under id (operations s.session.trace) = [r]
  fits : (q.handler syncWrites cid).Fits r
  callbacks : ∃ res, callbacks s id = [res] ∧ res.toInt = returnValue r
  buffer : buffer s id q = bytesRead r ++ q.buf.drop (bytesRead r).length

def AllAnswered (syncWrites : Bool) (requests : List (UInt64 × Request)) (s : State) : Prop :=
  ∀ cid id q, requests[id]? = some (cid, q) → ∃ r, Answered syncWrites s cid id q r

/-- Each request waits or has its own answer; `reader_loop` reads on, and the response in front
of it is for a pending request. -/
structure Matched (syncWrites : Bool) (s : State) : Prop where
  requests : ∀ cid id q, Issued s.client cid id q →
    Waiting s id q ∨ ∃ r, Answered syncWrites s cid id q r
  known : ∀ resp, EasybdClientBuffers.decoding s.client = some resp →
    ∃ p, s.client.pending.lookup resp.cid = some p
  reads : s.client.readerAt ≠ .ended

variable {clientBackend serverBackend : Backend} {syncWrites : Bool} {s : State}

theorem operations_ids (trace : List EasybdSession.Effect) :
    (operations trace).map Prod.fst = performedIds trace := by
  rw [operations, performedIds, List.map_filterMap]
  congr 1
  funext x
  cases x <;> rfl

theorem value_respond {h : Handler} {r : FileResult} (fits : h.Fits r) (size : h.PassesSizeCheck) :
    (h.respond r).res.toInt = returnValue r := by
  cases r with
  | transferred count data => exact Handler.res_transferred fits size
  | error err =>
    cases h with
    | sendError cid err => exact fits.elim
    | handleWrite | handleRead => exact errno_res err

theorem data_respond {h : Handler} {r : FileResult} (fits : h.Fits r) :
    (h.respond r).body = bytesRead r := by
  cases r with
  | error err => cases h <;> rfl
  | transferred count data =>
    cases h with
    | sendError cid err => exact fits.elim
    | handleRead => rfl
    | handleWrite => exact fits.2.symm

theorem buffer_eq {done rest : List (ℕ × Response)} (hr : Reading s done rest) (id : ℕ)
    (q : Request) :
    buffer s id q = bufferAfter q.buf (((under id done).filter fun a => a.body ≠ []).map
      Response.body) := by
  rw [buffer, hr.copied]
  have hmap := under_map Response.body id (done.filter fun a => a.2.body ≠ [])
  have hfilter := under_filter (fun a : Response => decide (a.body ≠ [])) id done
  rw [hmap, hfilter]

theorem callbacks_eq {done rest : List (ℕ × Response)} (hr : Reading s done rest) (id : ℕ) :
    callbacks s id = (under id done).map Response.res := by
  rw [callbacks, hr.results]
  exact under_map Response.res id done

theorem waiting_of_notMem {done rest : List (ℕ × Response)} (hr : Reading s done rest) {id : ℕ}
    (hid : id ∉ done.map Prod.fst) (q : Request) : Waiting s id q := by
  have hnone := under_of_notMem hid
  constructor
  · rw [callbacks_eq hr, hnone]
    rfl
  · rw [buffer_eq hr, hnone]
    rfl

theorem dispatched_of_replied (h : Joint syncWrites s) {id : ℕ} {resp : Response}
    (hreplied : (id, resp) ∈ EasybdSessionResponses.replied s.session.trace) {cid : UInt64}
    {q : Request} (hq : Issued s.client cid id q) :
    s.session.dispatched[id]? = some (q.handler syncWrites cid) := by
  obtain ⟨k, hk, -⟩ := h.ends.session.answers _ hreplied
  obtain ⟨cid', q', hq', rfl⟩ := issued_of_dispatched h.ends h.serves hk
  obtain ⟨rfl, rfl⟩ := Prod.mk.inj (Option.some.inj (hq'.symm.trans hq))
  exact hk

theorem answered_of_mem (h : Joint syncWrites s) {done rest : List (ℕ × Response)}
    (hr : Reading s done rest) {id : ℕ} {resp : Response} (hdone : (id, resp) ∈ done)
    {cid : UInt64} {q : Request} (hq : Issued s.client cid id q) :
    ∃ r, Answered syncWrites s cid id q r := by
  have hreplied : (id, resp) ∈ EasybdSessionResponses.replied s.session.trace := by
    rw [hr.replies]
    exact List.mem_append_left _ hdone
  obtain ⟨q', hexpected⟩ := expected_of_replied h.ends h.serves hreplied
  obtain ⟨r, hperformed, fits, hresp⟩ := hexpected.answer
  obtain ⟨rfl, rfl⟩ := Prod.mk.inj (Option.some.inj (hexpected.issued.symm.trans hq))
  have hone : under id done = [resp] := by
    have honce := replied_once h.ends h.serves
    rw [hr.replies, List.map_append] at honce
    exact under_of_mem honce.of_append_left hdone
  have hbody : resp.body = bytesRead r := by
    rw [hresp]
    exact data_respond fits
  refine ⟨r, dispatched_of_replied h hreplied hq, ?_, fits, ⟨resp.res, ?_, ?_⟩, ?_⟩
  · refine under_of_mem ?_ (List.mem_filterMap.mpr ⟨_, hperformed, rfl⟩)
    rw [operations_ids]
    exact h.ends.accounted.once
  · rw [callbacks_eq hr, hone]
    rfl
  · have hsize := h.ends.consistent.table.sizes _ _ _ hq
    have hvalue := value_respond fits (passesSizeCheck_handler hsize resp.cid)
    rwa [← hresp] at hvalue
  · rw [buffer_eq hr, hone, ← hbody]
    by_cases hnil : resp.body = []
    · simp [hnil, bufferAfter]
    · simp [hnil, bufferAfter]

theorem matched_of_joint (h : Joint syncWrites s) : Matched syncWrites s := by
  obtain ⟨done, rest, hr⟩ := h.reading
  refine ⟨fun cid id q hq => ?_, fun resp hresp => ?_, hr.reads.runs⟩
  · by_cases hid : id ∈ done.map Prod.fst
    · obtain ⟨⟨_, resp⟩, hdone, rfl⟩ := List.mem_map.mp hid
      exact Or.inr (answered_of_mem h hr hdone hq)
    · exact Or.inl (waiting_of_notMem hr hid q)
  · exact (hr.expects h.ends h.serves).known (hr.unread h.ends h.serves.wires) hresp

theorem Matched.answered (h : Matched syncWrites s) {cid : UInt64} {id : ℕ} {q : Request}
    (hq : Issued s.client cid id q) (fired : id ∈ firedIds s.client.trace) :
    ∃ r, Answered syncWrites s cid id q r := by
  rcases h.requests cid id q hq with hwaits | hanswered
  · rw [← List.mem_reverse, ← EasybdClientReliable.results_ids] at fired
    obtain ⟨⟨_, res⟩, hres, rfl⟩ := List.mem_map.mp fired
    have hnone := hwaits.callbacks
    rw [callbacks, under, List.map_eq_nil_iff, List.filter_eq_nil_iff] at hnone
    exact absurd (decide_eq_true rfl) (hnone _ hres)
  · exact hanswered

/-- From a state in `wait` everything comes to be answered, whichever steps are taken. -/
theorem inevitably_answered
    (h : Run machine NothingFails (initial clientBackend serverBackend syncWrites) s)
    (few : s.client.requests.length < UInt64.size)
    (waits : EasybdClientWait.IsDispatching s.client.call) :
    Inevitable machine (fun u e => NothingFails u e ∧ Moves e)
      (AllAnswered syncWrites s.client.requests) s := by
  refine Inevitable.of_work
    (I := fun u => Run machine NothingFails (initial clientBackend serverBackend syncWrites) u ∧
      EasybdClientWait.IsDispatching u.client.call ∧ u.client.requests = s.client.requests)
    (work syncWrites) ?_ ?_ ?_ ⟨h, waits, rfl⟩
  · rintro u e ⟨hu, hwaits, hrequests⟩ he ⟨g, moves⟩
    refine ⟨hu.tail he g, ?_⟩
    cases e with
    | client e =>
      obtain ⟨hwaits', hsame⟩ := client_waits hwaits g moves (EasybdClient.step_of_enabled he.1)
      exact ⟨hwaits', hsame.trans hrequests⟩
    | session e => exact ⟨hwaits, hrequests⟩
  · rintro u ⟨hu, hwaits, hrequests⟩ hnot
    have joint := joint_of_run hu (by rwa [hrequests])
    obtain ⟨done, rest, hr⟩ := joint.reading
    by_contra hstuck
    have stuck : ¬ CanMove u := fun ⟨e, he, g, moves⟩ => hstuck ⟨e, he, g, moves⟩
    have hcalled := stuck_called stuck joint.ends joint.serves hr
      ⟨client_flat stuck, hwaits⟩
      (EasybdClientWaitErrors.short_of_run (client_run Unrestricted hu fun _ _ _ => trivial))
    refine hnot fun cid id q hq => ?_
    rw [← hrequests] at hq
    exact (matched_of_joint joint).answered hq
      (hcalled id (List.getElem?_eq_some_iff.mp hq).1)
  · rintro u e ⟨hu, hwaits, hrequests⟩ he ⟨g, moves⟩
    refine work_step (joint_of_run hu (by rwa [hrequests])) (joint_of_run (hu.tail he g) ?_) hwaits
      he g moves
    cases e with
    | client e =>
      have hsame := (client_waits hwaits g moves (EasybdClient.step_of_enabled he.1)).2
      exact (congrArg List.length (hsame.trans hrequests)).trans_lt few
    | session e => exact (congrArg List.length hrequests).trans_lt few

/-- Whatever order the handlers end in and however the bytes are cut, each callback gets the
result of its own request's file operation, and from `wait` on each does get it. -/
theorem pipelined_requests_matched
    (h : Run machine NothingFails (initial clientBackend serverBackend syncWrites) s)
    (few : s.client.requests.length < UInt64.size) :
    Matched syncWrites s ∧
      (EasybdClientWait.IsDispatching s.client.call →
        Inevitable machine (fun u e => NothingFails u e ∧ Moves e)
          (AllAnswered syncWrites s.client.requests) s) :=
  ⟨matched_of_joint (joint_of_run h few), inevitably_answered h few⟩

section Traces

open EasybdClientBuffers (shortWrite)

def partialWrite : EasybdClient.SendRequest :=
  EasybdClient.State.resumed (EasybdClient.State.sendRequest
    { EasybdClient.initial .libc false with nextCid := 2, requests := [(1, shortRead)] }
    shortWrite) 10

def writeReply : EasybdSession.Reply :=
  EasybdSession.State.replyOf 1 (shortWrite.handler false 2) ⟨2, 2, []⟩

/-- A read and a write are pipelined; the write's frame is sent in two pieces, arrives in two
others, and is answered while the read's file operation is still running. -/
def answeredOutOfOrder : List Event :=
  let frame := shortWrite.encode false 2
  [.client (.request shortRead none), .client (.sendCall (.accepted 25)), .client .run,
    .client .run, .client .requestReturn, .client (.request shortWrite none),
    .client (.sendCall (.accepted 10)), .client .run, .client (.sendCall .suspended),
    .client .requestReturn, .client .wait, .client .poll,
    .session (.received [shortRead.encode false 1]), .session .run, .session (.alloc true),
    .session (.alloc true), .session (.perform .suspended), .session .run,
    .client (.sendReady partialWrite (.accepted 17)), .client .run, .client .run,
    .session (.received [frame.take 24]), .session .run, .session (.received [frame.drop 24]),
    .session .run, .session (.alloc true), .session .run, .session (.alloc true),
    .session (.perform .suspended), .session .run,
    .session (.fileReady 1 (shortWrite.handler false 2) (.transferred 2 [])),
    .session (.sendCall .suspended), .session (.complete writeReply (.accepted 16)),
    .session (.reap writeReply (some 16)), .session .run, .session .run, .session .run,
    .client (.received [ResponseHeader.bytes ⟨2, 2⟩]), .client .run]

theorem pipelined_requests_matched_out_of_order :
    let s := runTrace machine (initial .libc .ioUring false) answeredOutOfOrder
    callbacks s 1 = [2] ∧ callbacks s 0 = [] ∧ Matched false s ∧
      Inevitable machine (fun u e => NothingFails u e ∧ Moves e)
        (AllAnswered false s.client.requests) s := by
  have hmatched := pipelined_requests_matched
    (run_of_trace (G := NothingFails) (s := initial .libc .ioUring false) answeredOutOfOrder
      (by decide +kernel) (by decide +kernel)) (by decide +kernel)
  exact ⟨by decide +kernel, by decide +kernel, hmatched.1, hmatched.2 (by decide +kernel)⟩

end Traces

end EasybdEndToEndMatching
