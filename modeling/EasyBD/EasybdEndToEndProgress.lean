import EasyBD.EasybdEndToEnd
import EasyBD.EasybdClientWaitErrors

/-! While the user is in `wait`, the two ends cannot stop before every request is answered, and
cannot go on forever. -/
namespace EasybdEndToEndProgress

open TransitionRuns EntryLedger SerializedFrames EasybdProtocol EasyioQueue EasyioSenders
open EasyioSendAll EasyioFramedReader EasybdHandlers EasybdRequests EasybdHandleConnection
open EasybdEndToEnd

/-- The user neither issues another request nor leaves `wait`, and no socket becomes writable
in vain. -/
def Moves : Event → Prop
  | .client (.request _ _) | .client .waitReturn => False
  | .client (.sendReady _ o) | .session (.sendReady _ o) => o ≠ .suspended
  | _ => True

def CanMove (s : State) : Prop := ∃ e, Enabled s e ∧ NothingFails s e ∧ Moves e

variable {syncWrites : Bool} {s : State}

section Stuck

theorem accepted_settled (n : ℕ) :
    SendOutcome.accepted n ≠ .suspended ∧ SendOutcome.accepted n ≠ .failed := by
  simp

theorem client_canMove {e : EasybdClient.Event} (he : EasybdClient.Enabled s.client e)
    (succeeds : EasybdClientReliable.Succeeds e) (moves : Moves (.client e))
    (quiet : arriving e = []) : CanMove s :=
  ⟨.client e, ⟨he, fun harrives => absurd quiet harrives⟩, succeeds, moves⟩

theorem session_canMove {e : EasybdSession.Event} (he : EasybdSession.Enabled s.session e)
    (succeeds : EasybdSessionReliable.Succeeds e) (moves : Moves (.session e))
    (quiet : arriving e = []) : CanMove s :=
  ⟨.session e, ⟨he, fun harrives => absurd quiet harrives⟩, succeeds, moves⟩

theorem client_flat (stuck : ¬ CanMove s) : s.client.stack = [] := by
  by_contra hne
  apply stuck
  obtain ⟨f, stack, top⟩ := List.exists_cons_of_ne_nil hne
  cases f with
  | request =>
    exact client_canMove (e := .requestReturn) (by simp [EasybdClient.Enabled, top]) trivial trivial
      rfl
  | callback id =>
    exact client_canMove (e := .callbackReturn) (by simp [EasybdClient.Enabled, top]) trivial
      trivial rfl
  | calling t =>
    exact client_canMove (e := .sendCall .suspended)
      (by simp [EasybdClient.Enabled, top, SendOutcome.AtCall, SendOutcome.Within])
      (by decide) trivial rfl
  | failAllPending =>
    exact client_canMove (e := .drain (values s.client.pending))
      ⟨by rw [top]; rfl, List.Perm.refl _⟩ trivial trivial rfl
  | returned | release | reading | failing =>
    exact client_canMove (e := .run) (by simp [EasybdClient.Enabled, top]) trivial trivial rfl

theorem session_flat (stuck : ¬ CanMove s) : s.session.stack = [] := by
  by_contra hne
  apply stuck
  obtain ⟨f, stack, top⟩ := List.exists_cons_of_ne_nil hne
  cases f with
  | allocating | spawning | buffering =>
    exact session_canMove (e := .alloc true) (by simp [EasybdSession.Enabled, top]) rfl trivial rfl
  | performing id k =>
    exact session_canMove (e := .perform (.result (.error einval)))
      (by simp [EasybdSession.Enabled, top, EasybdSession.FileOutcome.AtCall]) (by decide)
      trivial rfl
  | calling t =>
    exact session_canMove (e := .sendCall .suspended)
      (by simp [EasybdSession.Enabled, top, SendOutcome.AtCall, SendOutcome.Within])
      (by decide) trivial rfl
  | closing =>
    exact session_canMove (e := .close true) (by simp [EasybdSession.Enabled, top]) trivial trivial
      rfl
  | returned | release | reading | finishing =>
    exact session_canMove (e := .run) (by simp [EasybdSession.Enabled, top]) trivial trivial rfl

theorem unsent_pos {κ : Type*} {S : Sender κ} {ch : Channel κ} {c : κ} (h : ch.Ok S)
    (hc : .sending c ∈ ch.holders) : 0 < (S.send c).rest.length :=
  List.length_pos_of_ne_nil (h.fits _ hc).1.rest

theorem client_quiet (stuck : ¬ CanMove s) (ends : Ends syncWrites s)
    (waits : s.client.Dispatching) : s.client.io = [] ∧ s.client.cq = [] := by
  constructor
  · by_contra hne
    apply stuck
    obtain ⟨t, ht⟩ := List.exists_mem_of_ne_nil _ hne
    have hpos : 0 < t.send.rest.length := unsent_pos ends.clientChannel
      (c := t) (by simp [EasybdClientChannel.channel, places, ht])
    cases backend : s.client.backend with
    | libc =>
      exact client_canMove (e := .sendReady t (.accepted 1))
        ⟨waits, backend, ht, Nat.one_pos, hpos⟩ (accepted_settled 1).2
        (accepted_settled 1).1 rfl
    | ioUring =>
      exact client_canMove (e := .complete t (.accepted 1))
        ⟨backend, ht, (accepted_settled 1).1, Nat.one_pos, hpos⟩ (accepted_settled 1).2 trivial rfl
  · by_contra hne
    apply stuck
    obtain ⟨⟨t, c⟩, ht⟩ := List.exists_mem_of_ne_nil _ hne
    exact client_canMove (e := .reap t c) ⟨waits, ht⟩ trivial trivial rfl

theorem session_quiet (stuck : ¬ CanMove s) (ends : Ends syncWrites s) :
    s.session.io = [] ∧ s.session.cq = [] ∧ s.session.files = [] := by
  have flat := session_flat stuck
  refine ⟨?_, ?_, ?_⟩
  · by_contra hne
    apply stuck
    obtain ⟨t, ht⟩ := List.exists_mem_of_ne_nil _ hne
    have hpos : 0 < t.send.rest.length := unsent_pos ends.sessionChannel
      (c := t) (by simp [EasybdSessionChannel.channel, places, ht])
    cases backend : s.session.backend with
    | libc =>
      exact session_canMove (e := .sendReady t (.accepted 1))
        ⟨flat, backend, ht, Nat.one_pos, hpos⟩ (accepted_settled 1).2
        (accepted_settled 1).1 rfl
    | ioUring =>
      exact session_canMove (e := .complete t (.accepted 1))
        ⟨backend, ht, (accepted_settled 1).1, Nat.one_pos, hpos⟩ (accepted_settled 1).2 trivial rfl
  · by_contra hne
    apply stuck
    obtain ⟨⟨t, c⟩, ht⟩ := List.exists_mem_of_ne_nil _ hne
    exact session_canMove (e := .reap t c) ⟨flat, ht⟩ trivial trivial rfl
  · by_contra hne
    apply stuck
    obtain ⟨⟨id, k⟩, hk⟩ := List.exists_mem_of_ne_nil _ hne
    have hjob : .job id k ∈ EasybdSessionTasks.tasks s.session := by
      simp [EasybdSessionTasks.tasks, EasybdSessionTasks.running, hk]
    have hfits : k.Fits (.error einval) := by
      obtain ⟨-, hfile⟩ := ends.accounted.tasks _ hjob
      cases k with
      | sendError cid err => exact absurd rfl (hfile cid err)
      | handleWrite | handleRead => trivial
    exact session_canMove (e := .fileReady id k (.error einval)) ⟨flat, hk, hfits⟩ trivial trivial
      rfl

theorem next_byte {sent received : List UInt8} (h : received.IsPrefix sent)
    (hne : received ≠ sent) : ∃ b, (received ++ [b]).IsPrefix sent := by
  obtain ⟨rest, rfl⟩ := h
  cases rest with
  | nil => simp at hne
  | cons b rest => exact ⟨b, rest, by simp⟩

theorem session_missing (stuck : ¬ CanMove s) (ends : Ends syncWrites s) (hs : Serves s) :
    0 < s.session.missing := by
  rcases ends.session.short hs.loops with ⟨f, hf, -⟩ | hpos
  · rw [session_flat stuck] at hf
    cases hf
  · exact hpos

theorem requests_received (stuck : ¬ CanMove s) (ends : Ends syncWrites s) (hs : Serves s) :
    EasybdSessionParsing.received s.session.trace = requestBytes s := by
  by_contra hne
  apply stuck
  obtain ⟨b, hb⟩ := next_byte hs.wires.requests hne
  have hbatch := isBatch_single (session_missing stuck ends hs) (List.cons_ne_nil b [])
  exact ⟨.session (.received [[b]]), ⟨⟨session_flat stuck, hs.loops, hbatch⟩, fun _ => hb⟩, trivial,
    trivial⟩

theorem client_short (stuck : ¬ CanMove s) (short : EasybdClientWaitErrors.Short s.client)
    (reads : s.client.readerAt ≠ .ended) :
    s.client.reader.unread.length < s.client.readerAt.needed := by
  rcases short with hended | hreading | ⟨hconsumed, hlen⟩
  · exact absurd hended reads
  · rw [client_flat stuck] at hreading
    cases hreading
  · rwa [FramedReader.unread, hconsumed, List.drop_zero]

theorem responses_received (stuck : ¬ CanMove s) (hs : Serves s) (waits : s.client.Dispatching)
    (short : EasybdClientWaitErrors.Short s.client) (reads : s.client.readerAt ≠ .ended) :
    EasybdClientReliable.received s.client.trace = responseBytes s := by
  by_contra hne
  apply stuck
  obtain ⟨b, hb⟩ := next_byte hs.wires.responses hne
  have hmissing := Nat.sub_pos_of_lt (client_short stuck short reads)
  have hbatch := isBatch_single hmissing (List.cons_ne_nil b [])
  exact ⟨.client (.received [[b]]), ⟨⟨waits, reads, hbatch⟩, fun _ => hb⟩, trivial, trivial⟩

theorem referenceParse_incomplete {req : RequestHeader} {got : List UInt8}
    (action : onHeader req = .payload) (short : got.length < req.size.toNat) :
    referenceParse (req.bytes ++ got) = [] := by
  have hreq : RequestHeader.ofBytes req.bytes = req := by
    simpa only [List.append_nil] using RequestHeader.ofBytes_bytes req []
  rw [referenceParse_step (by simp), List.take_left' req.bytes_length,
    List.drop_left' req.bytes_length, hreq, action]
  simp only [if_neg (Nat.not_le.mpr short)]

theorem nothing_parsed (ends : Ends syncWrites s) (hs : Serves s) (stuck : ¬ CanMove s) :
    referenceParse (EasybdSessionParsing.unparsed s.session) = [] := by
  have flat := session_flat stuck
  have hmissing := session_missing stuck ends hs
  have hunparsed : EasybdSessionParsing.unparsed s.session =
      EasybdSessionParsing.Reader.unparsed s.session.readerAt ++ s.session.reader.unread := by
    rw [EasybdSessionParsing.unparsed, flat]
    rfl
  rw [hunparsed]
  rcases EasybdSession.State.loops_cases hs.loops with at_ | ⟨req, got, at_⟩
  · simp only [EasybdSession.State.missing, at_] at hmissing
    rw [at_]
    exact referenceParse_short (by simpa [EasybdSessionParsing.Reader.unparsed] using hmissing)
  · simp only [EasybdSession.State.missing, at_] at hmissing
    obtain ⟨action, hcopy⟩ := ends.place.payload req got at_
    rw [at_, hcopy.drained (by omega), List.append_nil]
    exact referenceParse_incomplete action (by omega)

theorem all_dispatched (stuck : ¬ CanMove s) (ends : Ends syncWrites s) (hs : Serves s)
    (waits : s.client.Dispatching) : s.session.dispatched = handlers syncWrites s := by
  have hholders : (EasybdClientChannel.channel s.client).holders = 0 := by
    obtain ⟨hio, hcq⟩ := client_quiet stuck ends waits
    obtain ⟨before, call⟩ := waits.call
    simp [EasybdClientChannel.channel, places, EasybdClient.State.ops, hio,
      hcq, call, client_flat stuck]
  have hsent : requestBytes s =
      (s.client.requests.map fun q => q.2.encode syncWrites q.1).flatten := by
    rw [← ends.client.numbered.order]
    exact ends.clientChannel.wire_eq_order ends.client.sound.log hholders
  have hreads := ends.follows.reads hs.loops []
  rw [List.append_nil, List.append_nil, requests_received stuck ends hs, hsent,
    referenceParse_requests syncWrites (sizes ends), nothing_parsed ends hs stuck,
    List.append_nil] at hreads
  rw [handlers, hreads, EasybdSessionParsing.parsed, session_flat stuck]
  simp

theorem session_unheld (stuck : ¬ CanMove s) (ends : Ends syncWrites s) :
    (EasybdSessionChannel.channel s.session).holders = 0 := by
  obtain ⟨hio, hcq, -⟩ := session_quiet stuck ends
  simp [EasybdSessionChannel.channel, places, hio, hcq, session_flat stuck]

/-- No handler is left, so each has queued its response. -/
theorem all_replied (stuck : ¬ CanMove s) (ends : Ends syncWrites s) (hs : Serves s) {id : ℕ}
    (hid : id < s.session.dispatched.length) :
    id ∈ (EasybdSessionResponses.replied s.session.trace).map Prod.fst := by
  have htasks : EasybdSessionTasks.tasks s.session = 0 := by
    obtain ⟨hio, hcq, hfiles⟩ := session_quiet stuck ends
    have hwaiters : s.session.sendMtx.waiters = [] :=
      ends.sessionChannel.waiters_of_no_holder (session_unheld stuck ends)
    simp [EasybdSessionTasks.tasks, EasybdSessionTasks.running, hwaiters, hio, hcq, hfiles,
      session_flat stuck]
  have hclosed : id ∈ EasybdSessionTasks.closedIds s.session.trace := by
    have hledger := ends.accounted.ledger
    rw [htasks, Multiset.map_zero, zero_add] at hledger
    have hrange := Multiset.mem_range.mpr hid
    rw [← hledger] at hrange
    exact hrange
  obtain ⟨x, hx, hmark⟩ := List.mem_filterMap.mp hclosed
  have hperformed : id ∈ EasybdSessionTasks.performedIds s.session.trace := by
    cases x with
    | answered i resp =>
      obtain rfl := Option.some.inj hmark
      obtain ⟨k, hk, hresp⟩ := ends.accounted.answered i resp hx
      rcases hresp with ⟨c, err, rfl, -⟩ | ⟨r, hr, -, -⟩
      · obtain ⟨cid, q, -, hq⟩ := file_handler ends hs.wires hs.loops
          (List.mem_append_left _ (List.mem_of_getElem? hk))
        exact absurd hq.symm (handler_ne_sendError cid q c err)
      · exact List.mem_filterMap.mpr ⟨_, hr, rfl⟩
    | lost i => exact absurd (List.mem_of_mem_filter hx) (ends.session.sound.lost i)
    | received | channel | performed | replied => cases hmark
  rw [hs.performed, List.mem_reverse]
  exact hperformed

theorem all_read (stuck : ¬ CanMove s) (ends : Ends syncWrites s) (hs : Serves s)
    {done rest : List (ℕ × Response)} (hr : Reading s done rest) (waits : s.client.Dispatching)
    (short : EasybdClientWaitErrors.Short s.client) : rest = [] := by
  have hreceived := responses_received stuck hs waits short hr.reads.runs
  have hsent := ends.sessionChannel.wire_eq_order ends.session.sound.log (session_unheld stuck ends)
  rw [ends.delivers.order, hr.replies, List.map_append, List.flatten_append] at hsent
  rw [hr.reads.received, List.map_map, show responseBytes s = _ from hsent,
    Function.comp_def, List.append_cancel_left_eq] at hreceived
  have hshort := client_short stuck short hr.reads.runs
  cases rest with
  | nil => rfl
  | cons a later =>
    rw [List.map_cons, List.flatten_cons] at hreceived
    cases at_ : s.client.readerAt with
    | header =>
      rw [at_] at hreceived hshort
      have hlen := congrArg List.length hreceived
      simp only [EasybdClientReading.front, List.nil_append, Response.encode, List.length_append,
        ResponseHeader.bytes_length] at hlen
      simp only [EasybdClient.Reader.needed] at hshort
      omega
    | body cid res p =>
      obtain ⟨resp, _, hrest, hcid, hres, hbody, -⟩ :=
        hr.reads.awaited (hr.expects ends hs) at_
      obtain ⟨rfl, rfl⟩ := List.cons.inj hrest
      rw [at_] at hreceived hshort
      simp only [EasybdClientReading.front, Response.encode, hcid, hres, List.append_assoc,
        List.append_cancel_left_eq] at hreceived
      rw [hreceived, List.length_append, hbody] at hshort
      simp only [EasybdClient.Reader.needed] at hshort
      omega
    | ended => exact absurd at_ hr.reads.runs

theorem stuck_called (stuck : ¬ CanMove s) (ends : Ends syncWrites s) (hs : Serves s)
    {done rest : List (ℕ × Response)} (hr : Reading s done rest)
    (waits : s.client.Dispatching) (short : EasybdClientWaitErrors.Short s.client) :
    ∀ id < s.client.requests.length, id ∈ EasybdClientTable.firedIds s.client.trace := by
  intro id hid
  have hdispatched : id < s.session.dispatched.length := by
    rw [all_dispatched stuck ends hs waits, handlers, List.length_map]
    exact hid
  have hreplied := all_replied stuck ends hs hdispatched
  rw [hr.replies, all_read stuck ends hs hr waits short, List.append_nil] at hreplied
  rw [← List.mem_reverse, ← EasybdClientReliable.results_ids, hr.results, List.map_map]
  exact hreplied

end Stuck

end EasybdEndToEndProgress
