import EasyBD.EasybdEndToEndFallible

/-! What becomes of each request whatever fails: it waits, or it is told that it has failed, or
it has the answer to its own file operation; and no file operation is performed twice. -/
namespace EasybdEndToEndOutcomes

open TransitionRuns EntryLedger EasybdProtocol EasyioQueue EasybdHandlers EasybdRequests
open EasybdEndToEndMatching (Waiting callbacks buffer operations returnValue bytesRead bufferAfter
  operations_ids value_respond data_respond)
open EasybdEndToEnd (State Event machine initial handlers cid_handler passesSizeCheck_handler)
open EasybdEndToEndFallible
open EasybdClientReliable (results copied)
open EasybdClientTable (Issued firedIds)
open EasybdClientFallible (numbered)
open EasybdSessionFallible (responses)
open EasybdSessionTasks (marks)

structure Failed (s : State) (id : ℕ) (q : Request) : Prop where
  callbacks : callbacks s id = [negErrno econnreset]
  buffer : buffer s id q = q.buf

/-- The handler of the request, the server's `number`-th, has performed one file operation,
which returned `r`; the callback was invoked once, with that result, and the bytes it read are
in the buffer. -/
structure Answered (syncWrites : Bool) (s : State) (cid : UInt64) (id : ℕ) (q : Request)
    (number : ℕ) (r : FileResult) : Prop where
  handler : s.session.dispatched[number]? = some (q.handler syncWrites cid)
  operation : under number (operations s.session.trace) = [r]
  fits : (q.handler syncWrites cid).Fits r
  callbacks : ∃ res, callbacks s id = [res] ∧ res.toInt = returnValue r
  buffer : buffer s id q = bytesRead r ++ q.buf.drop (bytesRead r).length

/-- The server starts a handler for some of the requests, in the order they were issued in, for
none of them twice and for none whose send has failed, and a handler performs one file operation
at most. Each request waits, has failed or has its own answer. While `reader_loop` runs, the
response in front of it is for a pending request. -/
structure Settled (syncWrites : Bool) (s : State) : Prop where
  dispatched : s.session.dispatched.Sublist (handlers syncWrites s)
  cids : (s.session.dispatched.map Handler.cid).Nodup
  sent : ∀ h ∈ s.session.dispatched, h.cid ∉ droppedCids s.client
  operations : ((operations s.session.trace).map Prod.fst).Nodup
  requests : ∀ cid id q, Issued s.client cid id q →
    Waiting s id q ∨ Failed s id q ∨ ∃ number r, Answered syncWrites s cid id q number r
  known : ∀ resp, EasybdClientBuffers.decoding s.client = some resp →
    ∃ p, s.client.pending.lookup resp.cid = some p

variable {clientBackend serverBackend : Backend} {syncWrites : Bool} {s : State}
  {done : List (ℕ × Response)} {failed : List ℕ}

section Callbacks

theorem told_once (h : Told s done failed) : (done.map Prod.fst ++ failed).Nodup := by
  have hresults : ((results s.client.trace).map Prod.fst).Nodup := by
    rw [EasybdClientReliable.results_ids, List.nodup_reverse]
    exact (h.ledger.nodup_iff.mpr List.nodup_range).of_append_right
  have hperm := h.results.map Prod.fst
  rw [List.map_append, List.map_map, List.map_map] at hperm
  simpa [Function.comp_def] using hperm.nodup_iff.mp hresults

theorem callbacks_of_told (h : Told s done failed) {id : ℕ} {res : Int64}
    (told : (id, res) ∈ (done.map fun a => (a.1, a.2.res)) ++
      failed.map fun id => (id, negErrno econnreset)) : callbacks s id = [res] := by
  refine under_of_mem ?_ (h.results.mem_iff.mpr told)
  rw [EasybdClientReliable.results_ids, List.nodup_reverse]
  exact (h.ledger.nodup_iff.mpr List.nodup_range).of_append_right

theorem callbacks_of_untold (h : Told s done failed) {id : ℕ} (hdone : id ∉ done.map Prod.fst)
    (hfailed : id ∉ failed) : callbacks s id = [] := by
  refine under_of_notMem fun hmem => ?_
  have hperm := (h.results.map Prod.fst).mem_iff.mp hmem
  rw [List.map_append, List.map_map, List.map_map, List.mem_append] at hperm
  rcases hperm with hperm | hperm
  · exact hdone hperm
  · simp [hfailed] at hperm

theorem buffer_of_told (h : Told s done failed) (id : ℕ) (q : Request) :
    buffer s id q = bufferAfter q.buf (((under id done).filter fun a => a.body ≠ []).map
      Response.body) := by
  rw [buffer, h.copied]
  have hmap := under_map Response.body id (done.filter fun a => a.2.body ≠ [])
  have hfilter := under_filter (fun a : Response => decide (a.body ≠ [])) id done
  rw [hmap, hfilter]

theorem buffer_of_unanswered (h : Told s done failed) {id : ℕ} (hid : id ∉ done.map Prod.fst)
    (q : Request) : buffer s id q = q.buf := by
  rw [buffer_of_told h, under_of_notMem hid]
  rfl

end Callbacks

theorem answered_of_mem (h : Both syncWrites s) (ht : Told s done failed) {id : ℕ}
    {resp : Response} (hdone : (id, resp) ∈ done) {cid : UInt64} {q : Request}
    (hq : Issued s.client cid id q) : ∃ number r, Answered syncWrites s cid id q number r := by
  obtain ⟨q', hq'⟩ := ht.issued _ hdone
  obtain ⟨rfl, rfl⟩ := Prod.mk.inj (Option.some.inj (hq'.symm.trans hq))
  obtain ⟨number, id', q', hexpected, -⟩ := expected_of_response h.ends
    (ht.sent.mem (List.mem_map_of_mem hdone))
  obtain ⟨rfl, rfl⟩ := h.ends.client.cids.issued_unique h.few hexpected.issued hq
  obtain ⟨r, hperformed, fits, hresp⟩ := hexpected.answer
  have hbody : resp.body = bytesRead r :=
    (congrArg Response.body hresp).trans (data_respond fits)
  have hone : under id' done = [resp] :=
    under_of_mem (told_once ht).of_append_left hdone
  refine ⟨number, r, hexpected.handler, ?_, fits, ⟨resp.res, ?_, ?_⟩, ?_⟩
  · refine under_of_mem ?_ (List.mem_filterMap.mpr ⟨_, hperformed, rfl⟩)
    rw [operations_ids]
    exact h.ends.accounted.once
  · exact callbacks_of_told ht (List.mem_append_left _ (List.mem_map.mpr ⟨_, hdone, rfl⟩))
  · have hsize := h.ends.consistent.table.sizes _ _ _ hq
    have hvalue := value_respond fits (passesSizeCheck_handler hsize resp.cid)
    rwa [← hresp] at hvalue
  · rw [buffer_of_told ht, hone, ← hbody]
    by_cases hnil : resp.body = []
    · simp [hnil, bufferAfter]
    · simp [hnil, bufferAfter]

theorem request_settled (h : Both syncWrites s) (ht : Told s done failed) {cid : UInt64} {id : ℕ}
    {q : Request} (hq : Issued s.client cid id q) :
    Waiting s id q ∨ Failed s id q ∨ ∃ number r, Answered syncWrites s cid id q number r := by
  by_cases hdone : id ∈ done.map Prod.fst
  · obtain ⟨⟨_, resp⟩, hmem, rfl⟩ := List.mem_map.mp hdone
    exact Or.inr (Or.inr (answered_of_mem h ht hmem hq))
  · have hbuffer := buffer_of_unanswered ht hdone q
    by_cases hfailed : id ∈ failed
    · have htold := callbacks_of_told ht
        (List.mem_append_right _ (List.mem_map.mpr ⟨id, hfailed, rfl⟩))
      exact Or.inr (Or.inl ⟨htold, hbuffer⟩)
    · exact Or.inl ⟨callbacks_of_untold ht hdone hfailed, hbuffer⟩

theorem sent_of_dispatched (h : Both syncWrites s) {k : Handler}
    (hk : k ∈ s.session.dispatched) : k.cid ∉ droppedCids s.client := by
  obtain ⟨cid, id, q, -, rfl, hsent⟩ := parsed_issued h.ends (List.mem_append_left _ hk)
  rw [cid_handler]
  exact EasybdClientFallible.not_dropped h.ends.client h.ends.clientChannel h.few hsent

theorem settled_of_joint (h : Joint syncWrites s) : Settled syncWrites s := by
  obtain ⟨done, failed, ht, hr⟩ := h.goes
  refine ⟨dispatched_handlers h.both.ends, cids_handlers h.both.ends h.both.few,
    fun k hk => sent_of_dispatched h.both hk, ?_,
    fun cid id q hq => request_settled h.both ht hq, fun resp hresp => ?_⟩
  · rw [operations_ids]
    exact h.both.ends.accounted.once
  · have at_ := (EasybdClientReading.at_of_decoding hresp).1
    obtain ⟨rest, hr⟩ := hr (by simp [at_])
    exact (hr.expects h.both).known (hr.unread h.both.ends) hresp

/-- Sends, receives, file operations and allocations fail at any time and either end goes away
at any time; only, a socket that has failed in the middle of a frame takes nothing more. -/
theorem requests_settled_whatever_fails
    (h : Run machine Permanent (initial clientBackend serverBackend syncWrites) s)
    (few : numbered s.client.trace < UInt64.size) : Settled syncWrites s :=
  settled_of_joint (joint_of_run h few)

section Traces

open EasybdClientBuffers (shortWrite)

def firstReply : EasybdSession.Reply :=
  EasybdSession.State.replyOf 0 (shortRead.handler false 2) ⟨2, 2, [7, 8]⟩

/-- A write that cannot be sent at all, two reads, and a write whose frame is torn; the server
answers the first read, then the other and 10 bytes of the torn frame arrive. -/
def tornBehindReads : List Event :=
  [.client (.request shortWrite none), .client (.sendCall .failed), .client .run,
    .client .callbackReturn, .client .run, .client .requestReturn,
    .client (.request shortRead none), .client (.sendCall (.accepted 25)), .client .run,
    .client .run, .client .requestReturn, .client (.request shortRead none),
    .client (.sendCall (.accepted 25)), .client .run, .client .run, .client .requestReturn,
    .client (.request shortWrite none), .client (.sendCall (.accepted 10)), .client .run,
    .client (.sendCall .failed), .client .run, .client .callbackReturn, .client .run,
    .client .requestReturn, .client .wait, .client .poll,
    .session (.received [shortRead.encode false 2]), .session .run, .session (.alloc true),
    .session (.alloc true), .session (.perform .suspended), .session .run,
    .session (.fileReady 0 (shortRead.handler false 2) (.transferred 2 [7, 8])),
    .session (.sendCall .suspended), .session (.complete firstReply (.accepted 18)),
    .session (.reap firstReply (some 18)), .session .run, .session .run, .session .run,
    .session (.received [shortRead.encode false 3]), .session .run, .session (.alloc true),
    .session (.alloc true), .session (.perform .suspended), .session .run,
    .session (.received [(shortWrite.encode false 4).take 10]), .session .run,
    .client (.received [firstReply.response.encode]), .client .run, .client .run]

theorem requests_settled_whatever_fails_torn_frame :
    let s := runTrace machine (initial .libc .ioUring false) tornBehindReads
    callbacks s 0 = [negErrno econnreset] ∧ callbacks s 1 = [2] ∧ callbacks s 2 = [] ∧
      callbacks s 3 = [negErrno econnreset] ∧ s.session.dispatched.length = 2 ∧
      Settled false s :=
  ⟨by decide +kernel, by decide +kernel, by decide +kernel, by decide +kernel, by decide +kernel,
    requests_settled_whatever_fails
      (run_of_trace (G := Permanent) (s := initial .libc .ioUring false) tornBehindReads
        (by decide +kernel) (by decide +kernel)) (by decide +kernel)⟩

end Traces

end EasybdEndToEndOutcomes
