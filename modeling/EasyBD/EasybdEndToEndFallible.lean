import EasyBD.EasybdClientFallible
import EasyBD.EasybdSessionFallible
import EasyBD.EasybdEndToEndMatching

/-! A `Client` and the `handle_connection` at the other end where sends, receives, file
operations and allocations may fail and the client may be destroyed at any time; only, a socket
that has failed in the middle of a frame takes nothing more. -/
namespace EasybdEndToEndFallible

open TransitionRuns EntryLedger SerializedFrames CarriedFrames EasybdProtocol EasyioQueue
open EasyioSenders EasyioFallibleSenders EasyioFramedReader EasybdHandlers EasybdRequests
open EasybdHandleConnection EasybdEndToEnd
open EasybdClientTable (Issued)
open EasybdClientFallible (numbered frameCid)
open EasybdSessionFallible (responses)

def Permanent (s : State) : Event → Prop
  | .client e => EasybdClientChannel.Permanent s.client e
  | .session e => EasybdSessionChannel.Permanent s.session e

instance (s : State) : (e : Event) → Decidable (Permanent s e)
  | .client e => inferInstanceAs (Decidable (EasybdClientChannel.Permanent s.client e))
  | .session e => inferInstanceAs (Decidable (EasybdSessionChannel.Permanent s.session e))

variable {clientBackend serverBackend : Backend} {syncWrites : Bool} {s : State}

structure Ends (syncWrites : Bool) (s : State) : Prop where
  wires : Wires s
  consistent : EasybdClientTable.Consistent s.client
  clientChannel : (EasybdClientChannel.channel s.client).Ok EasybdClientChannel.sender
  client : EasybdClientFallible.Fallible syncWrites s.client
  follows : EasybdSessionParsing.Follows s.session
  accounted : EasybdSessionTasks.Accounted s.session
  sessionChannel : (EasybdSessionChannel.channel s.session).Ok EasybdSessionChannel.sender
  delivers : EasybdSessionResponses.Delivers s.session
  session : EasybdSessionFallible.Fallible s.session

theorem ends_of_run
    (h : Run machine Permanent (initial clientBackend serverBackend syncWrites) s) :
    Ends syncWrites s := by
  have hclient := client_run EasybdClientChannel.Permanent h fun _ _ => id
  have hsession := session_run EasybdSessionChannel.Permanent h fun _ _ => id
  have hwires : Wires s := h.invariant (I := Wires) ⟨List.prefix_rfl, List.prefix_rfl⟩
    fun _ _ hw he _ => wires_step hw he
  exact ⟨hwires, EasybdClientTable.consistent_of_run hclient,
    EasybdClientChannel.channel_ok hclient, EasybdClientFallible.fallible_of_run hclient,
    (EasybdSessionParsing.follows_of_run hsession).2,
    EasybdSessionTasks.accounted_of_run hsession, EasybdSessionChannel.channel_ok hsession,
    EasybdSessionResponses.delivers_of_run hsession,
    EasybdSessionFallible.fallible_of_run hsession⟩

section Requests

theorem onHeader_header {q : Request} (hq : q.size ≤ easybdMaxPayloadSize) (cid : UInt64) :
    onHeader (q.header syncWrites cid) =
      if q.isRead then .spawn (q.handler syncWrites cid) else .payload := by
  have hsize : ¬ easybdMaxPayloadSize < q.size := UInt64.not_lt.mpr hq
  cases hr : q.isRead with
  | true =>
    have hread : isWriteOp easybdOpRead = false := rfl
    simp [onHeader, Request.header, Request.op, Request.handler, hr, hsize, hread]
  | false =>
    have hwrite := q.isWriteOp_op syncWrites
    rw [hr] at hwrite
    simp [onHeader, Request.header, hwrite, hsize]

theorem referenceParse_part {q : Request} (hq : q.size ≤ easybdMaxPayloadSize) {cid : UInt64}
    {bytes : List UInt8} (hpre : bytes.IsPrefix (q.encode syncWrites cid))
    (hlt : bytes.length < (q.encode syncWrites cid).length) : referenceParse bytes = [] := by
  by_cases hshort : bytes.length < requestHeaderSize
  · exact referenceParse_short hshort
  · have enough := Nat.le_of_not_lt hshort
    have hfront : bytes.take requestHeaderSize = (q.header syncWrites cid).bytes := by
      rw [List.prefix_iff_eq_take.mp hpre, List.take_take, Nat.min_eq_left enough,
        Request.encode]
      exact List.take_left' (RequestHeader.bytes_length _)
    have hheader := RequestHeader.ofBytes_bytes (q.header syncWrites cid) []
    rw [List.append_nil] at hheader
    rw [Request.encode, List.length_append, RequestHeader.bytes_length] at hlt
    rw [referenceParse_step enough, hfront, hheader, onHeader_header hq]
    cases hr : q.isRead with
    | true =>
      simp only [Request.payload, hr, if_true, List.length_nil] at hlt
      omega
    | false =>
      simp only [Request.payload, hr, Bool.false_eq_true, if_false] at hlt ⊢
      have hsize : q.buf.length = (q.header syncWrites cid).size.toNat := q.length_eq
      rw [if_neg (by rw [List.length_drop]; omega)]

theorem referenceParse_prefix {qs : List (UInt64 × Request)}
    (hqs : ∀ q ∈ qs, q.2.size ≤ easybdMaxPayloadSize) {rest bytes : List UInt8}
    (hrest : rest = [] ∨ ∃ (cid : UInt64) (q : Request), q.size ≤ easybdMaxPayloadSize ∧
      rest.IsPrefix (q.encode syncWrites cid) ∧ rest.length < (q.encode syncWrites cid).length)
    (hpre : bytes.IsPrefix ((qs.map fun q => q.2.encode syncWrites q.1).flatten ++ rest)) :
    (referenceParse bytes).IsPrefix (qs.map fun q => q.2.handler syncWrites q.1) := by
  induction qs generalizing bytes with
  | nil =>
    rw [List.map_nil, List.flatten_nil, List.nil_append] at hpre
    have hnone : referenceParse bytes = [] := by
      rcases hrest with rfl | ⟨cid, q, hq, hpart, hlt⟩
      · rw [List.prefix_nil.mp hpre]
        exact referenceParse_short (Nat.zero_lt_succ _)
      · exact referenceParse_part hq (hpre.trans hpart) (hpre.length_le.trans_lt hlt)
    rw [hnone]
    exact List.nil_prefix
  | cons q qs ih =>
    rw [List.map_cons, List.flatten_cons, List.append_assoc] at hpre
    have hq := hqs q List.mem_cons_self
    by_cases hlen : (q.2.encode syncWrites q.1).length ≤ bytes.length
    · obtain ⟨more, rfl⟩ := List.prefix_of_prefix_length_le (List.prefix_append _ _) hpre hlen
      rw [List.prefix_append_right_inj] at hpre
      rw [referenceParse_encode syncWrites q.1 q.2 hq, List.map_cons, List.prefix_cons_inj]
      exact ih (fun p hp => hqs p (List.mem_cons_of_mem _ hp)) hpre
    · have hlt := Nat.lt_of_not_le hlen
      have hpart := List.prefix_of_prefix_length_le hpre (List.prefix_append _ _) hlt.le
      rw [referenceParse_part hq hpart hlt]
      exact List.nil_prefix

theorem parsed_requests (h : Ends syncWrites s) :
    ∃ sent : List (UInt64 × Request), sent.Sublist s.client.requests ∧
      whole (EasybdClientChannel.channelLog s.client.trace) =
        sent.map (fun q => q.2.encode syncWrites q.1) ∧
      (EasybdSessionParsing.parsed s.session).IsPrefix
        (sent.map fun q => q.2.handler syncWrites q.1) := by
  have hsize (q : UInt64 × Request) (hq : q ∈ s.client.requests) :
      q.2.size ≤ easybdMaxPayloadSize := by
    obtain ⟨id, hid⟩ := List.getElem?_of_mem hq
    exact h.consistent.table.sizes q.1 id q.2 hid
  obtain ⟨sent, hsent, hwhole, rest, hwire, hrest⟩ :=
    EasybdClientFallible.wire_requests h.client h.clientChannel
  refine ⟨sent, hsent, hwhole, h.follows.within.trans ?_⟩
  refine referenceParse_prefix (fun q hq => hsize q (hsent.mem hq)) (hrest.imp_right ?_)
    (hwire ▸ h.wires.requests)
  rintro ⟨q, hq, hpart⟩
  exact ⟨q.1, q.2, hsize q hq, hpart⟩

/-- What the server starts: the handlers of issued requests, each once and in their order. -/
theorem dispatched_handlers (h : Ends syncWrites s) :
    s.session.dispatched.Sublist (handlers syncWrites s) := by
  obtain ⟨sent, hsent, -, hparsed⟩ := parsed_requests h
  exact ((List.prefix_append _ _).trans hparsed).sublist.trans (hsent.map _)

theorem parsed_issued (h : Ends syncWrites s) {k : Handler}
    (hk : k ∈ EasybdSessionParsing.parsed s.session) :
    ∃ cid id q, Issued s.client cid id q ∧ k = q.handler syncWrites cid ∧
      q.encode syncWrites cid ∈ whole (EasybdClientChannel.channelLog s.client.trace) := by
  obtain ⟨sent, hsent, hwhole, hparsed⟩ := parsed_requests h
  obtain ⟨⟨cid, q⟩, hq, rfl⟩ := List.mem_map.mp (hparsed.mem hk)
  obtain ⟨id, hid⟩ := List.getElem?_of_mem (hsent.mem hq)
  exact ⟨cid, id, q, hid, rfl, hwhole ▸ List.mem_map.mpr ⟨(cid, q), hq, rfl⟩⟩

theorem cids_handlers (h : Ends syncWrites s) (few : numbered s.client.trace < UInt64.size) :
    (s.session.dispatched.map Handler.cid).Nodup := by
  have hmap := (dispatched_handlers h).map Handler.cid
  have hcids : (handlers syncWrites s).map Handler.cid = s.client.requests.map Prod.fst := by
    rw [handlers, List.map_map]
    exact List.map_congr_left fun a _ => cid_handler _ _
  rw [hcids] at hmap
  exact (h.client.cids.nodup few).sublist hmap

end Requests

section Responses

open EasybdSessionResponses (replied)

theorem performed_step (h : EasybdSessionReliable.RepliesPerformed s.session)
    (ends : Ends syncWrites s) {e : EasybdSession.Event} (he : EasybdSession.Enabled s.session e) :
    EasybdSessionReliable.RepliesPerformed (EasybdSession.next s.session e) := by
  refine EasybdSessionReliable.repliesPerformed_step h (EasybdSession.step_of_enabled he)
    fun c err hmem => ?_
  have hparsed : .sendError c err ∈ EasybdSessionParsing.parsed s.session :=
    List.mem_append_right _ (List.mem_flatMap.mpr ⟨_, hmem, by simp⟩)
  obtain ⟨cid, id, q, -, hk, -⟩ := parsed_issued ends hparsed
  exact handler_ne_sendError cid q c err hk.symm

theorem expected_of_replied (h : Ends syncWrites s) {number : ℕ} {resp : Response}
    (hreplied : (number, resp) ∈ replied s.session.trace) :
    ∃ id q, Expected syncWrites s number id resp q ∧
      q.encode syncWrites resp.cid ∈ whole (EasybdClientChannel.channelLog s.client.trace) := by
  have hanswer := h.session.answers _ hreplied
  have ⟨k, hk, _⟩ := hanswer
  obtain ⟨cid, id, q, hissued, rfl, hsent⟩ :=
    parsed_issued h (List.mem_append_left _ (List.mem_of_getElem? hk))
  obtain ⟨rfl, hq⟩ := expected_of_answer hanswer hk hissued
  exact ⟨id, q, hq, hsent⟩

theorem expected_of_response (h : Ends syncWrites s) {resp : Response}
    (hresp : resp ∈ responses s.session) : ∃ number id q, Expected syncWrites s number id resp q ∧
      q.encode syncWrites resp.cid ∈ whole (EasybdClientChannel.channelLog s.client.trace) := by
  obtain ⟨sent, hsent, hresponses, -⟩ :=
    EasybdSessionFallible.sent_responses h.session h.sessionChannel h.delivers
  rw [hresponses] at hresp
  obtain ⟨⟨number, _⟩, hmem, rfl⟩ := List.mem_map.mp hresp
  exact ⟨number, expected_of_replied h (hsent.mem hmem)⟩

theorem responses_once (h : Ends syncWrites s) (few : numbered s.client.trace < UInt64.size)
    (performed : EasybdSessionReliable.RepliesPerformed s.session) :
    ((responses s.session).map Response.cid).Nodup := by
  obtain ⟨sent, hsent, hresponses, -⟩ :=
    EasybdSessionFallible.sent_responses h.session h.sessionChannel h.delivers
  have hnumbers : (sent.map Prod.fst).Nodup := by
    refine List.Nodup.sublist (hsent.map _) ?_
    rw [performed, List.nodup_reverse]
    exact h.accounted.once
  have hcids := cids_handlers h few
  rw [hresponses, List.map_map]
  refine List.Nodup.map_on (fun a ha b hb heq => ?_) hnumbers.of_map
  have hcid (c : ℕ × Response) (hc : c ∈ sent) :
      (s.session.dispatched.map Handler.cid)[c.1]? = some c.2.cid := by
    rw [List.getElem?_map]
    exact (h.session.answers c (hsent.mem hc)).cid_eq
  have hnumber : a.1 = b.1 := by
    have hlt := (List.getElem?_eq_some_iff.mp (hcid a ha)).1
    refine (List.getElem?_inj hlt hcids).mp ?_
    rw [hcid a ha, hcid b hb]
    exact congrArg some heq
  exact List.inj_on_of_nodup_map hnumbers ha hb hnumber

end Responses

section Map

variable {c c' : EasybdClient.State} {done done' : List (ℕ × Response)}

def doneCids (done : List (ℕ × Response)) : List UInt64 := done.map fun a => a.2.cid

def droppedCids (c : EasybdClient.State) : List UInt64 :=
  (dropped (EasybdClientChannel.channelLog c.trace)).map frameCid

/-- While `reader_loop` runs, only a response or the request's own sender takes an entry out of
the map. -/
def Kept (c : EasybdClient.State) (done : List (ℕ × Response)) : Prop :=
  ∀ cid id q, Issued c cid id q →
    c.pending.lookup cid = some ⟨q.isRead, id⟩ ∨ cid ∈ doneCids done ∨ cid ∈ droppedCids c

theorem droppedCids_step {e : EasybdClient.Event} (step : EasybdClient.Step c e c') :
    droppedCids c ⊆ droppedCids c' :=
  ((dropped_step (EasybdClientChannel.channel_step step)).map frameCid).subset

theorem Kept.same (h : Kept c done) (pending : c'.pending = c.pending)
    (requests : c'.requests = c.requests) (grows : droppedCids c ⊆ droppedCids c') :
    Kept c' done := by
  intro cid id q hq
  rw [Issued, requests] at hq
  rw [pending]
  exact (h cid id q hq).imp_right (Or.imp_right fun hd => grows hd)

theorem Kept.erase (h : Kept c done) {gone : UInt64} (pending : c'.pending = c.pending.erase gone)
    (requests : c'.requests = c.requests) (grows : droppedCids c ⊆ droppedCids c')
    (more : doneCids done ⊆ doneCids done') (why : gone ∈ doneCids done' ∨ gone ∈ droppedCids c') :
    Kept c' done' := by
  intro cid id q hq
  rw [Issued, requests] at hq
  by_cases hcid : cid = gone
  · exact Or.inr (hcid ▸ why)
  · rw [pending, AList.lookup_erase_ne hcid]
    exact (h cid id q hq).imp_right (Or.imp (fun hd => more hd) fun hd => grows hd)

theorem Kept.insert (h : Kept c done) {r : Request} (unused : c.nextCid ∉ c.requests.map Prod.fst)
    (pending : c'.pending = c.pending.insert c.nextCid ⟨r.isRead, c.requests.length⟩)
    (requests : c'.requests = c.requests ++ [(c.nextCid, r)])
    (grows : droppedCids c ⊆ droppedCids c') : Kept c' done := by
  intro cid id q hq
  rw [Issued, requests] at hq
  rcases Nat.lt_or_ge id c.requests.length with hlt | hge
  · rw [List.getElem?_append_left hlt] at hq
    have hcid : cid ≠ c.nextCid := by
      rintro rfl
      exact unused (EasybdClientFallible.mem_cids hq)
    rw [pending, AList.lookup_insert_ne hcid]
    exact (h cid id q hq).imp_right (Or.imp_right fun hd => grows hd)
  · have hid : id = c.requests.length := by
      have hlt := (List.getElem?_eq_some_iff.mp hq).1
      rw [List.length_append, List.length_singleton] at hlt
      omega
    subst hid
    rw [List.getElem?_concat_length] at hq
    obtain ⟨rfl, rfl⟩ := Prod.mk.inj (Option.some.inj hq)
    exact Or.inl (by rw [pending, AList.lookup_insert])

end Map

section Reading

open EasybdClientReliable (results copied Held)
open EasybdClientReading (Reads Expects)

/-- What the callbacks have been told: the responses `done`, each to its own request, and that
the requests `failed` have failed. -/
structure Told (s : State) (done : List (ℕ × Response)) (failed : List ℕ) : Prop where
  sent : (done.map Prod.snd).IsPrefix (responses s.session)
  issued : ∀ a ∈ done, ∃ q, Issued s.client a.2.cid a.1 q
  results : (results s.client.trace).Perm
    ((done.map fun a => (a.1, a.2.res)) ++ failed.map fun id => (id, negErrno econnreset))
  copied : copied s.client.trace =
    (done.filter fun a => a.2.body ≠ []).map fun a => (a.1, a.2.body)
  ledger : EasybdClientCallbacks.Ledger s.client

structure Reading (s : State) (done : List (ℕ × Response)) (rest : List Response) : Prop where
  replies : responses s.session = done.map Prod.snd ++ rest
  reads : Reads s.client (done.map Prod.snd) rest
  kept : Kept s.client done

variable {done : List (ℕ × Response)} {rest : List Response} {failed : List ℕ}

theorem Reading.unread (hr : Reading s done rest) (h : Ends syncWrites s) :
    (EasybdClientReading.front s.client.readerAt ++ s.client.reader.unread).IsPrefix
      (rest.map Response.encode).flatten := by
  refine hr.reads.unread ?_
  rw [← hr.replies]
  exact h.wires.responses.trans
    (EasybdSessionFallible.wire_responses h.session h.sessionChannel h.delivers)

structure Both (syncWrites : Bool) (s : State) : Prop where
  ends : Ends syncWrites s
  performed : EasybdSessionReliable.RepliesPerformed s.session
  few : numbered s.client.trace < UInt64.size

theorem Reading.expected (hr : Reading s done rest) (h : Both syncWrites s) {resp : Response}
    {later : List Response} (hrest : rest = resp :: later) :
    ∃ number id q, Expected syncWrites s number id resp q ∧
      s.client.pending.lookup resp.cid = some ⟨q.isRead, id⟩ := by
  have hmem : resp ∈ responses s.session := by simp [hr.replies, hrest]
  obtain ⟨number, id, q, hq, hsent⟩ := expected_of_response h.ends hmem
  refine ⟨number, id, q, hq, ?_⟩
  rcases hr.kept _ _ _ hq.issued with hpending | hdone | hdropped
  · exact hpending
  · have honce := responses_once h.ends h.few h.performed
    rw [hr.replies, hrest, List.map_append, List.map_map] at honce
    exact absurd (List.mem_map_of_mem List.mem_cons_self)
      (List.disjoint_of_nodup_append honce hdone)
  · exact absurd hdropped
      (EasybdClientFallible.not_dropped h.ends.client h.ends.clientChannel h.few hsent)

theorem Reading.expects (hr : Reading s done rest) (h : Both syncWrites s) :
    Expects s.client rest where
  next resp later hrest := by
    obtain ⟨number, id, q, hq, hpending⟩ := hr.expected h hrest
    exact ⟨_, hpending, hq.body_length h.ends.consistent.table⟩
  body cid res p hat := by
    obtain ⟨resp, later, hrest, rfl, -⟩ := hr.reads.body cid res p hat
    obtain ⟨number, id, q, hq, hpending⟩ := hr.expected h hrest
    obtain ⟨⟨q', hq', hread⟩, hisRead, hpos⟩ := h.ends.consistent.table.body _ _ p hat
    obtain ⟨rfl, rfl⟩ := h.ends.client.cids.issued_unique h.few hq.issued hq'
    exact ⟨by rw [hpending, hread], hisRead, hpos⟩

theorem Reading.held (hr : s.client.readerAt ≠ .ended → ∃ rest, Reading s done rest)
    (h : Both syncWrites s) : Held s.client := by
  intro cid res p hat
  obtain ⟨rest, hreading⟩ := hr (by simp [hat])
  exact ((hreading.expects h).body cid res p hat).1

end Reading

section Steps

open EasybdClientReliable (Adds)

variable {done : List (ℕ × Response)} {rest : List Response} {failed : List ℕ}
  {c : EasybdClient.State} {bytes : List UInt8}

theorem issued_step {e : EasybdClient.Event} (h : Told s done failed)
    (step : EasybdClient.Step s.client e c) : ∀ a ∈ done, ∃ q, Issued c a.2.cid a.1 q := by
  intro a ha
  obtain ⟨q, hq⟩ := h.issued a ha
  exact ⟨q, hq.step step⟩

theorem Told.loses {e : EasybdClient.Event} (h : Told s done failed)
    (step : EasybdClient.Step s.client e c) (ledger : EasybdClientCallbacks.Ledger c)
    (lost : List ℕ)
    (adds : Adds s.client c bytes (lost.map fun id => (id, negErrno econnreset)) []) :
    Told { s with client := c } done (failed ++ lost) where
  sent := h.sent
  issued := issued_step h step
  results := by
    rw [adds.results, List.map_append, ← List.append_assoc]
    exact h.results.append_right _
  copied := by rw [adds.copied, h.copied, List.append_nil]
  ledger := ledger

theorem Told.quiet {e : EasybdClient.Event} (h : Told s done failed)
    (step : EasybdClient.Step s.client e c) (ledger : EasybdClientCallbacks.Ledger c)
    (adds : Adds s.client c bytes [] []) : Told { s with client := c } done failed := by
  have hnone := h.loses step ledger [] adds
  rwa [List.append_nil] at hnone

theorem Told.hands {e : EasybdClient.Event} (h : Told s done failed)
    (step : EasybdClient.Step s.client e c) (ledger : EasybdClientCallbacks.Ledger c)
    {id : ℕ} {resp : Response} {later : List Response}
    (replies : responses s.session = done.map Prod.snd ++ resp :: later)
    (hq : ∃ q, Issued c resp.cid id q)
    (adds : Adds s.client c bytes [(id, resp.res)]
      (if resp.body = [] then [] else [(id, resp.body)])) :
    Told { s with client := c } (done ++ [(id, resp)]) failed where
  sent := by
    rw [replies, List.map_append, List.prefix_append_right_inj]
    exact ⟨later, rfl⟩
  issued a ha := by
    rcases List.mem_append.mp ha with ha | ha
    · exact issued_step h step a ha
    · obtain rfl := List.mem_singleton.mp ha
      exact hq
  results := by
    rw [adds.results, List.map_append, List.append_assoc]
    refine (h.results.append_right _).trans ?_
    rw [List.append_assoc]
    exact List.perm_append_comm.append_left _
  copied := by
    rw [adds.copied, h.copied, List.filter_append, List.map_append]
    by_cases hbody : resp.body = [] <;> simp [hbody]
  ledger := ledger

/-- What a step of the client leaves: `reader_loop` has ended, or is where it was or further on
in the responses. -/
def Goes (s : State) : Prop := ∃ done failed, Told s done failed ∧
  (s.client.readerAt ≠ .ended → ∃ rest, Reading s done rest)

theorem Goes.ended {e : EasybdClient.Event} (ht : Told s done failed)
    (step : EasybdClient.Step s.client e c) (ledger : EasybdClientCallbacks.Ledger c)
    (ended : s.client.readerAt = .ended) : Goes { s with client := c } := by
  obtain ⟨lost, adds⟩ := EasybdClientReading.ended_adds ended step
  exact ⟨done, _, ht.loses step ledger lost adds,
    fun hreads => absurd (EasybdClientTeardown.ended_step step ended) hreads⟩

theorem Goes.reads {e : EasybdClient.Event} (h : Both syncWrites s) (ht : Told s done failed)
    (hr : Reading s done rest) (step : EasybdClient.Step s.client e c)
    (ledger : EasybdClientCallbacks.Ledger c) : Goes { s with client := c } := by
  have grows := droppedCids_step step
  cases hr.reads.step (hr.expects h) (hr.unread h.ends) h.ends.consistent.ends h.ends.client.within
      step with
  | stays bytes adds reads pending requests =>
    exact ⟨done, failed, ht.quiet step ledger adds,
      fun _ => ⟨rest, hr.replies, reads, hr.kept.same pending requests grows⟩⟩
  | issues r adds reads pending requests =>
    have hkept := hr.kept.insert (h.ends.client.cids.unused h.few) pending requests grows
    exact ⟨done, failed, ht.quiet step ledger adds, fun _ => ⟨rest, hr.replies, reads, hkept⟩⟩
  | hands p resp later hrest known adds reads pending requests =>
    obtain ⟨number, id, q, hq, hpending⟩ := hr.expected h hrest
    obtain rfl := Option.some.inj (hpending.symm.trans known)
    have hreplies := hr.replies
    rw [hrest] at hreplies
    refine ⟨done ++ [(id, resp)], failed,
      ht.hands step ledger hreplies ⟨q, hq.issued.step step⟩ adds, fun _ => ⟨later, ?_, ?_, ?_⟩⟩
    · rw [hreplies, List.map_append, List.append_assoc]
      rfl
    · rwa [List.map_append]
    · exact hr.kept.erase pending requests grows (by simp [doneCids])
        (Or.inl (by simp [doneCids]))
  | fails t p stack top log adds reads pending requests =>
    refine ⟨done, _, ht.loses step ledger [p.request] adds, fun _ => ⟨rest, hr.replies, reads,
      hr.kept.erase pending requests grows (List.Subset.refl _) (Or.inr ?_)⟩⟩
    rw [droppedCids, log]
    exact EasybdClientFallible.dropped_of_throws h.ends.client.labelled h.ends.client.early top
  | ends cause adds at_ requests =>
    exact ⟨done, failed, ht.quiet step ledger adds, fun hreads => absurd at_ hreads⟩

theorem Goes.session {e : EasybdSession.Event} (h : Goes s)
    (step : EasybdSession.Step s.session e (EasybdSession.next s.session e)) :
    Goes { s with session := EasybdSession.next s.session e } := by
  obtain ⟨done, failed, ht, hr⟩ := h
  have grows := EasybdSessionFallible.responses_step step
  refine ⟨done, failed, ⟨ht.sent.trans grows, ht.issued, ht.results, ht.copied, ht.ledger⟩,
    fun hreads => ?_⟩
  obtain ⟨rest, hr⟩ := hr hreads
  obtain ⟨later, hlater⟩ := grows
  refine ⟨rest ++ later, ?_, hr.reads.append _, hr.kept⟩
  rw [← hlater, hr.replies, List.append_assoc]

theorem Goes.client {e : EasybdClient.Event} (h : Both syncWrites s) (hg : Goes s)
    (step : EasybdClient.Step s.client e (EasybdClient.next s.client e)) :
    Goes { s with client := EasybdClient.next s.client e } := by
  obtain ⟨done, failed, ht, hr⟩ := hg
  have ledger := EasybdClientCallbacks.ledger_kept ht.ledger
    (EasybdClientReliable.stillPending_of_held (Reading.held hr h)
      (h.ends.client.cids.not_pending h.ends.consistent.table h.few)) step
  by_cases ended : s.client.readerAt = .ended
  · exact .ended ht step ledger ended
  · obtain ⟨rest, hr⟩ := hr ended
    exact .reads h ht hr step ledger

theorem goes_initial : Goes (initial clientBackend serverBackend syncWrites) :=
  ⟨[], [], ⟨List.nil_prefix, nofun, List.Perm.refl _, rfl, List.Perm.refl _⟩,
    fun _ => ⟨[], rfl, ⟨rfl, nofun, nofun⟩, nofun⟩⟩

end Steps

structure Joint (syncWrites : Bool) (s : State) : Prop where
  both : Both syncWrites s
  goes : Goes s

theorem numbered_next {e : Event} (he : Enabled s e) :
    numbered s.client.trace ≤ numbered (next s e).client.trace := by
  cases e with
  | client e => exact EasybdClientFallible.numbered_mono (EasybdClient.step_of_enabled he.1)
  | session e => exact Nat.le_refl _

theorem joint_of_run
    (h : Run machine Permanent (initial clientBackend serverBackend syncWrites) s)
    (few : numbered s.client.trace < UInt64.size) : Joint syncWrites s := by
  suffices hboth : EasybdSessionReliable.RepliesPerformed s.session ∧ Goes s from
    ⟨⟨ends_of_run h, hboth.1, few⟩, hboth.2⟩
  refine h.invariant_under (I := Ends syncWrites)
    (J := fun u => numbered u.client.trace < UInt64.size →
      EasybdSessionReliable.RepliesPerformed u.session ∧ Goes u)
    (fun u hu => ends_of_run hu) (fun _ => ⟨rfl, goes_initial⟩) ?_ few
  intro u e ends ih he g few'
  have few := Nat.lt_of_le_of_lt (numbered_next he) few'
  obtain ⟨performed, goes⟩ := ih few
  cases e with
  | client e =>
    exact ⟨performed, .client ⟨ends, performed, few⟩ goes (EasybdClient.step_of_enabled he.1)⟩
  | session e =>
    exact ⟨performed_step performed ends he.1, goes.session (EasybdSession.step_of_enabled he.1)⟩

end EasybdEndToEndFallible
