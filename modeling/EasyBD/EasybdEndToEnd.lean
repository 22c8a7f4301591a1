import EasyBD.EasybdClientReading
import EasyBD.EasybdSessionReliable

/-! A `Client` and the `handle_connection` at the other end of its connection: a reliable byte
stream in each direction, cut into chunks anywhere, and nothing that fails. -/
namespace EasybdEndToEnd

open TransitionRuns EntryLedger SerializedFrames EasybdProtocol EasyioQueue EasyioSenders
open EasyioFramedReader EasybdHandlers EasybdRequests EasybdHandleConnection

structure State where
  client : EasybdClient.State
  session : EasybdSession.State

inductive Event where
  | client (e : EasybdClient.Event)
  | session (e : EasybdSession.Event)

def initial (clientBackend serverBackend : Backend) (syncWrites : Bool) : State :=
  ⟨EasybdClient.initial clientBackend syncWrites, EasybdSession.initial serverBackend⟩

def requestBytes (s : State) : List UInt8 := wire (EasybdClientChannel.channelLog s.client.trace)

def responseBytes (s : State) : List UInt8 :=
  wire (EasybdSessionChannel.channelLog s.session.trace)

/-- What arrives is what the other end has sent, in order. -/
def Arrives (sent received arriving : List UInt8) : Prop :=
  arriving ≠ [] → (received ++ arriving).IsPrefix sent

def Enabled (s : State) : Event → Prop
  | .client e => EasybdClient.Enabled s.client e ∧
      Arrives (responseBytes s) (EasybdClientReliable.received s.client.trace)
        (arriving e)
  | .session e => EasybdSession.Enabled s.session e ∧
      Arrives (requestBytes s) (EasybdSessionParsing.received s.session.trace)
        (arriving e)

def next (s : State) : Event → State
  | .client e => { s with client := EasybdClient.next s.client e }
  | .session e => { s with session := EasybdSession.next s.session e }

def machine : System State Event := ⟨Enabled, next⟩

def NothingFails (_ : State) : Event → Prop
  | .client e => EasybdClientReliable.Succeeds e
  | .session e => EasybdSessionReliable.Succeeds e

section Decidability

instance (sent received arriving : List UInt8) : Decidable (Arrives sent received arriving) :=
  inferInstanceAs (Decidable (_ → _))

instance (s : State) : (e : Event) → Decidable (Enabled s e)
  | .client e => inferInstanceAs (Decidable (EasybdClient.Enabled s.client e ∧ _))
  | .session e => inferInstanceAs (Decidable (EasybdSession.Enabled s.session e ∧ _))

instance (s : State) (e : Event) : Decidable (machine.Enabled s e) :=
  inferInstanceAs (Decidable (Enabled s e))

instance (s : State) : (e : Event) → Decidable (NothingFails s e)
  | .client e => inferInstanceAs (Decidable (EasybdClientReliable.Succeeds e))
  | .session e => inferInstanceAs (Decidable (EasybdSessionReliable.Succeeds e))

end Decidability

variable {clientBackend serverBackend : Backend} {syncWrites : Bool} {s : State}

/-- Each end takes part in a run of its own. -/
theorem client_run {G : State → Event → Prop} (H : EasybdClient.State → EasybdClient.Event → Prop)
    {s₀ : State} (h : Run machine G s₀ s) (guard : ∀ u e, G u (.client e) → H u.client e) :
    Run EasybdClient.machine H s₀.client s.client := by
  refine h.simulate (f := State.client) fun u e _ he hg => ?_
  cases e with
  | client e => exact .single he.1 (guard u e hg)
  | session e => exact .refl

theorem session_run {G : State → Event → Prop}
    (H : EasybdSession.State → EasybdSession.Event → Prop) {s₀ : State} (h : Run machine G s₀ s)
    (guard : ∀ u e, G u (.session e) → H u.session e) :
    Run EasybdSession.machine H s₀.session s.session := by
  refine h.simulate (f := State.session) fun u e _ he hg => ?_
  cases e with
  | client e => exact .refl
  | session e => exact .single he.1 (guard u e hg)

structure Wires (s : State) : Prop where
  requests : (EasybdSessionParsing.received s.session.trace).IsPrefix (requestBytes s)
  responses : (EasybdClientReliable.received s.client.trace).IsPrefix (responseBytes s)

theorem Arrives.follows {sent received arriving : List UInt8} (h : Arrives sent received arriving)
    (before : received.IsPrefix sent) : (received ++ arriving).IsPrefix sent := by
  by_cases hnil : arriving = []
  · rwa [hnil, List.append_nil]
  · exact h hnil

theorem wires_step {e : Event} (h : Wires s) (he : Enabled s e) : Wires (next s e) := by
  cases e with
  | client e =>
    have step := EasybdClient.step_of_enabled he.1
    refine ⟨h.requests.trans (EasybdClientChannel.channel_step step).wire_grows, ?_⟩
    have hreceived := EasybdClientReliable.received_step step
    simp only [next, responseBytes, hreceived]
    exact he.2.follows h.responses
  | session e =>
    have step := EasybdSession.step_of_enabled he.1
    refine ⟨?_, h.responses.trans (EasybdSessionChannel.channel_step step).wire_grows⟩
    have hreceived := EasybdSessionReliable.received_step step
    simp only [next, requestBytes, hreceived]
    exact he.2.follows h.requests

structure Ends (syncWrites : Bool) (s : State) : Prop where
  consistent : EasybdClientTable.Consistent s.client
  clientChannel : (EasybdClientChannel.channel s.client).Ok EasybdClientChannel.sender
  client : EasybdClientReliable.Reliable syncWrites s.client
  place : EasybdSessionParsing.AtOnePlace s.session
  follows : EasybdSessionParsing.Follows s.session
  accounted : EasybdSessionTasks.Accounted s.session
  sessionChannel : (EasybdSessionChannel.channel s.session).Ok EasybdSessionChannel.sender
  delivers : EasybdSessionResponses.Delivers s.session
  session : EasybdSessionReliable.Reliable s.session

theorem ends_of_run
    (h : Run machine NothingFails (initial clientBackend serverBackend syncWrites) s)
    (few : s.client.requests.length < UInt64.size) : Ends syncWrites s := by
  have hclient := client_run (fun _ e => EasybdClientReliable.Succeeds e) h fun _ _ => id
  have hsession := session_run (fun _ e => EasybdSessionReliable.Succeeds e) h fun _ _ => id
  obtain ⟨hplace, hfollows⟩ := EasybdSessionParsing.follows_of_run hsession
  exact ⟨EasybdClientTable.consistent_of_run hclient, EasybdClientChannel.channel_ok hclient,
    EasybdClientReliable.reliable_of_run hclient few, hplace, hfollows,
    EasybdSessionTasks.accounted_of_run hsession, EasybdSessionChannel.channel_ok hsession,
    EasybdSessionResponses.delivers_of_run hsession, EasybdSessionReliable.reliable_of_run hsession⟩

section Requests

def handlers (syncWrites : Bool) (s : State) : List Handler :=
  s.client.requests.map fun q => q.2.handler syncWrites q.1

theorem sizes (h : Ends syncWrites s) :
    ∀ q ∈ s.client.requests, q.2.size ≤ easybdMaxPayloadSize := by
  rintro ⟨cid, q⟩ hq
  obtain ⟨id, hid⟩ := List.getElem?_of_mem hq
  exact h.consistent.table.sizes cid id q hid

theorem received_requests (h : Ends syncWrites s) (hw : Wires s) :
    (EasybdSessionParsing.received s.session.trace).IsPrefix
      (s.client.requests.map fun q => q.2.encode syncWrites q.1).flatten := by
  have hwire := h.clientChannel.wire_prefix_order h.client.sound.log
  rw [h.client.numbered.order] at hwire
  exact hw.requests.trans hwire

/-- What the server has read, in terms of any requests that begin with those it has received. -/
theorem parsed_eq (h : Ends syncWrites s) (hw : Wires s) (loops : s.session.Loops) :
    ∃ tail, ∀ more : List (UInt64 × Request), (∀ q ∈ more, q.2.size ≤ easybdMaxPayloadSize) →
      handlers syncWrites s ++ more.map (fun q => q.2.handler syncWrites q.1) =
        EasybdSessionParsing.parsed s.session ++
          referenceParse (EasybdSessionParsing.unparsed s.session ++
            (tail ++ (more.map fun q => q.2.encode syncWrites q.1).flatten)) := by
  obtain ⟨tail, htail⟩ := received_requests h hw
  refine ⟨tail, fun more hmore => ?_⟩
  have hsizes : ∀ q ∈ s.client.requests ++ more, q.2.size ≤ easybdMaxPayloadSize := by
    intro q hq
    rcases List.mem_append.mp hq with hq | hq
    · exact sizes h q hq
    · exact hmore q hq
  rw [← h.follows.reads loops, ← List.append_assoc, htail, ← List.flatten_append,
    ← List.map_append, referenceParse_requests syncWrites hsizes, List.map_append, handlers]

theorem parsed_handlers (h : Ends syncWrites s) (hw : Wires s) (loops : s.session.Loops) :
    (EasybdSessionParsing.parsed s.session).IsPrefix (handlers syncWrites s) := by
  obtain ⟨tail, hparsed⟩ := parsed_eq h hw loops
  have heq := hparsed [] (List.forall_mem_nil _)
  rw [List.map_nil, List.append_nil] at heq
  rw [heq]
  exact List.prefix_append _ _

theorem dispatched_handlers (h : Ends syncWrites s) (hw : Wires s) (loops : s.session.Loops) :
    s.session.dispatched.IsPrefix (handlers syncWrites s) :=
  (List.prefix_append _ _).trans (parsed_handlers h hw loops)

/-- The frame of a request is never rejected: otherwise one more request would not be read. -/
theorem header_accepted (h : Ends syncWrites s) (hw : Wires s) (loops : s.session.Loops)
    {stack : List EasybdSession.Frame} (top : s.session.stack = .reading :: stack)
    (at_ : s.session.readerAt = .header)
    (enough : requestHeaderSize ≤ s.session.reader.unread.length) :
    onHeader (.ofBytes (s.session.reader.unread.take requestHeaderSize)) ≠ .reject := by
  intro action
  obtain ⟨tail, hparsed⟩ := parsed_eq h hw loops
  have hunparsed : EasybdSessionParsing.unparsed s.session = s.session.reader.unread := by
    have below := h.place.below top rfl
    simp [EasybdSessionParsing.unparsed, EasybdSessionParsing.Reader.unparsed, top, at_,
      EasybdSessionParsing.flatMap_unparsed below]
  have hnothing (bytes : List UInt8) :
      referenceParse (EasybdSessionParsing.unparsed s.session ++ bytes) = [] := by
    rw [hunparsed, referenceParse_step (by rw [List.length_append]; omega),
      List.take_append_of_le_length enough, action]
  have hnone := congrArg List.length (hparsed [] (List.forall_mem_nil _))
  have hone := congrArg List.length (hparsed [(0, shortRead)] (by decide))
  simp only [hnothing, List.length_append, List.length_map, List.length_nil,
    List.length_singleton] at hnone hone
  omega

theorem file_handler (h : Ends syncWrites s) (hw : Wires s) (loops : s.session.Loops)
    {k : Handler} (hk : k ∈ EasybdSessionParsing.parsed s.session) :
    ∃ cid q, (cid, q) ∈ s.client.requests ∧ k = q.handler syncWrites cid := by
  obtain ⟨⟨cid, q⟩, hq, rfl⟩ := List.mem_map.mp ((parsed_handlers h hw loops).mem hk)
  exact ⟨cid, q, hq, rfl⟩

theorem handler_ne_sendError (cid : UInt64) (q : Request) (c : UInt64) (err : ℕ) :
    q.handler syncWrites cid ≠ .sendError c err := by
  unfold Request.handler
  split <;> exact nofun

end Requests

/-- The server reads on, and every response is that of a file operation. -/
structure Serves (s : State) : Prop where
  wires : Wires s
  loops : s.session.Loops
  performed : EasybdSessionReliable.RepliesPerformed s.session

theorem serves_step {e : Event} (h : Serves s) (ends : Ends syncWrites s) (he : Enabled s e)
    (g : NothingFails s e) : Serves (next s e) := by
  refine ⟨wires_step h.wires he, ?_, ?_⟩
  · cases e with
    | client e => exact h.loops
    | session e =>
      exact EasybdSessionReliable.loops_step h.loops g (EasybdSession.step_of_enabled he.1)
        fun stack top at_ enough => header_accepted ends h.wires h.loops top at_ enough
  · cases e with
    | client e => exact h.performed
    | session e =>
      refine EasybdSessionReliable.repliesPerformed_step h.performed
        (EasybdSession.step_of_enabled he.1) fun c err hmem => ?_
      have hparsed : .sendError c err ∈ EasybdSessionParsing.parsed s.session :=
        List.mem_append_right _ (List.mem_flatMap.mpr ⟨_, hmem, by simp⟩)
      obtain ⟨cid, q, -, hk⟩ := file_handler ends h.wires h.loops hparsed
      exact handler_ne_sendError cid q c err hk.symm

section Responses

open EasybdClientReliable (received results copied)
open EasybdClientReading (Reads Expects)
open EasybdSessionResponses (replied)

/-- Where `reader_loop` is in the responses, and what it has done with those it handed over. -/
structure Reading (s : State) (done rest : List (ℕ × Response)) : Prop where
  replies : replied s.session.trace = done ++ rest
  results : results s.client.trace = done.map fun a => (a.1, a.2.res)
  copied : copied s.client.trace =
    (done.filter fun a => a.2.body ≠ []).map fun a => (a.1, a.2.body)
  reads : Reads s.client (done.map Prod.snd) (rest.map Prod.snd)

variable {done rest : List (ℕ × Response)}

theorem received_responses (h : Ends syncWrites s) (hw : Wires s) :
    (received s.client.trace).IsPrefix
      ((replied s.session.trace).map fun a => a.2.encode).flatten := by
  have hwire := h.sessionChannel.wire_prefix_order h.session.sound.log
  rw [h.delivers.order] at hwire
  exact hw.responses.trans hwire

theorem Reading.unread (hr : Reading s done rest) (h : Ends syncWrites s) (hw : Wires s) :
    (EasybdClientReading.front s.client.readerAt ++ s.client.reader.unread).IsPrefix
      ((rest.map Prod.snd).map Response.encode).flatten := by
  refine hr.reads.unread ?_
  have hprefix := received_responses h hw
  rwa [hr.replies, ← Function.comp_def, ← List.map_map, List.map_append] at hprefix

theorem replied_once (h : Ends syncWrites s) (hs : Serves s) :
    ((replied s.session.trace).map Prod.fst).Nodup := by
  rw [hs.performed, List.nodup_reverse]
  exact h.accounted.once

/-- What a response of the handler `number` answers: the request `id`, with the result of the
one file operation that its handler has performed. -/
structure Expected (syncWrites : Bool) (s : State) (number id : ℕ) (resp : Response)
    (q : Request) : Prop where
  issued : EasybdClientTable.Issued s.client resp.cid id q
  handler : s.session.dispatched[number]? = some (q.handler syncWrites resp.cid)
  answer : ∃ r, .performed number r ∈ EasybdSessionTasks.marks s.session.trace ∧
    (q.handler syncWrites resp.cid).Fits r ∧ resp = (q.handler syncWrites resp.cid).respond r

theorem isRead_handler (q : Request) (cid : UInt64) :
    (q.handler syncWrites cid).isRead = q.isRead := by
  unfold Request.handler
  cases hr : q.isRead <;> simp [Handler.isRead]

theorem cid_handler (q : Request) (cid : UInt64) : (q.handler syncWrites cid).cid = cid := by
  unfold Request.handler
  cases q.isRead <;> simp [Handler.cid]

theorem issued_of_dispatched (h : Ends syncWrites s) (hs : Serves s) {id : ℕ} {k : Handler}
    (hk : s.session.dispatched[id]? = some k) :
    ∃ cid q, EasybdClientTable.Issued s.client cid id q ∧ k = q.handler syncWrites cid := by
  obtain ⟨later, hlater⟩ := dispatched_handlers h hs.wires hs.loops
  have hget : (handlers syncWrites s)[id]? = some k := by
    rw [← hlater, List.getElem?_append_left (List.getElem?_eq_some_iff.mp hk).1]
    exact hk
  rw [handlers, List.getElem?_map, Option.map_eq_some_iff] at hget
  obtain ⟨⟨cid, q⟩, hissued, rfl⟩ := hget
  exact ⟨cid, q, hissued, rfl⟩

theorem expected_of_answer {number id : ℕ} {resp : Response} {cid : UInt64} {q : Request}
    (h : EasybdSessionTasks.Answer s.session number resp)
    (hk : s.session.dispatched[number]? = some (q.handler syncWrites cid))
    (hissued : EasybdClientTable.Issued s.client cid id q) :
    resp.cid = cid ∧ Expected syncWrites s number id resp q := by
  obtain ⟨k, hk', hresp⟩ := h
  obtain rfl := Option.some.inj (hk'.symm.trans hk)
  rcases hresp with ⟨c, err, hk, -⟩ | ⟨r, hperformed, fits, hresp⟩
  · exact absurd hk (handler_ne_sendError cid q c err)
  · have hcid : resp.cid = cid := by
      rw [show resp = (q.handler syncWrites cid).respond r from hresp]
      exact cid_handler q cid
    have hfits : (q.handler syncWrites cid).Fits r := by
      rcases fits with fits | ⟨err, rfl⟩
      · exact fits
      · unfold Request.handler
        split <;> trivial
    subst hcid
    exact ⟨rfl, hissued, hk, r, hperformed, hfits, hresp⟩

theorem expected_of_replied (h : Ends syncWrites s) (hs : Serves s) {id : ℕ} {resp : Response}
    (hreplied : (id, resp) ∈ replied s.session.trace) :
    ∃ q, Expected syncWrites s id id resp q := by
  have hanswer := h.session.answers _ hreplied
  have ⟨k, hk, _⟩ := hanswer
  obtain ⟨cid, q, hissued, rfl⟩ := issued_of_dispatched h hs hk
  exact ⟨q, (expected_of_answer hanswer hk hissued).2⟩

theorem passesSizeCheck_handler {q : Request} (hsize : q.size ≤ easybdMaxPayloadSize)
    (cid : UInt64) : (q.handler syncWrites cid).PassesSizeCheck := by
  unfold Request.handler
  split
  · exact hsize
  · rw [Handler.PassesSizeCheck, q.length_eq]
    exact UInt64.le_iff_toNat_le.mp hsize

/-- Client and server agree on whether a body follows, and on its length. -/
theorem Expected.body_length {number id : ℕ} {resp : Response} {q : Request}
    (h : Expected syncWrites s number id resp q) (htable : EasybdClientTable.Table s.client) :
    resp.body.length =
      if q.isRead = true ∧ 0 < resp.res then resp.res.toNatClampNeg else 0 := by
  obtain ⟨r, -, fits, hresp⟩ := h.answer
  have hsize := htable.sizes _ _ _ h.issued
  have hlen := Handler.body_respond (Or.inl fits) (passesSizeCheck_handler hsize resp.cid)
  rw [isRead_handler, ← hresp] at hlen
  exact hlen

theorem Expected.pending {id : ℕ} {resp : Response} {q : Request}
    (h : Expected syncWrites s id id resp q) (ends : Ends syncWrites s) (hs : Serves s)
    (hr : Reading s done rest) (hrest : (id, resp) ∈ rest) :
    s.client.pending.lookup resp.cid = some ⟨q.isRead, id⟩ := by
  have hlt : id < s.client.requests.length := (List.getElem?_eq_some_iff.mp h.issued).1
  have hunfired : id ∉ EasybdClientTable.firedIds s.client.trace := by
    have honce := replied_once ends hs
    rw [hr.replies, List.map_append] at honce
    have hdone : done.map Prod.fst = (EasybdClientTable.firedIds s.client.trace).reverse := by
      rw [← EasybdClientReliable.results_ids, hr.results, List.map_map]
      rfl
    intro hfired
    refine (List.disjoint_of_nodup_append honce) ?_ (List.mem_map.mpr ⟨_, hrest, rfl⟩)
    rw [hdone, List.mem_reverse]
    exact hfired
  have hopen : id ∈ EasybdClientTable.openIds s.client := by
    have hmem := ends.client.ledger.mem_iff.mpr (List.mem_range.mpr hlt)
    exact (List.mem_append.mp hmem).resolve_right hunfired
  rw [EasybdClientTable.openIds,
    EasybdClientTable.drained_eq_nil ends.consistent.ends hr.reads.runs, List.append_nil] at hopen
  obtain ⟨⟨isRead, request⟩, hp, rfl⟩ := List.mem_map.mp hopen
  obtain ⟨cid, hlook⟩ := lookup_of_mem_values hp
  obtain ⟨q', hq', hread⟩ := ends.consistent.table.entries _ _ hlook
  obtain ⟨rfl, rfl⟩ := Prod.mk.inj (Option.some.inj (h.issued.symm.trans hq'))
  rw [hlook]
  exact congrArg some (congrArg (EasybdClient.Pending.mk · request) hread.symm)

theorem Reading.expected (hr : Reading s done rest) (ends : Ends syncWrites s) (hs : Serves s)
    {a : ℕ × Response} (ha : a ∈ rest) : ∃ q, Expected syncWrites s a.1 a.1 a.2 q ∧
      s.client.pending.lookup a.2.cid = some ⟨q.isRead, a.1⟩ := by
  have hreplied : (a.1, a.2) ∈ replied s.session.trace := by
    rw [hr.replies]
    exact List.mem_append_right _ ha
  obtain ⟨q, hq⟩ := expected_of_replied ends hs hreplied
  exact ⟨q, hq, hq.pending ends hs hr ha⟩

theorem Reading.expects (hr : Reading s done rest) (ends : Ends syncWrites s) (hs : Serves s) :
    Expects s.client (rest.map Prod.snd) where
  next resp later hrest := by
    obtain ⟨a, ha, rfl⟩ := List.mem_map.mp (hrest ▸ List.mem_cons_self : resp ∈ rest.map Prod.snd)
    obtain ⟨q, hq, hpending⟩ := hr.expected ends hs ha
    exact ⟨_, hpending, hq.body_length ends.consistent.table⟩
  body cid res p hat := by
    obtain ⟨-, hread, hpos⟩ := ends.consistent.table.body cid res p hat
    exact ⟨ends.client.held cid res p hat, hread, hpos⟩

theorem reading_initial : Reading (initial clientBackend serverBackend syncWrites) [] [] :=
  ⟨rfl, rfl, rfl, rfl, nofun, nofun⟩

theorem reading_session {e : EasybdSession.Event} (hr : Reading s done rest)
    (he : EasybdSession.Enabled s.session e) :
    ∃ later, Reading { s with session := EasybdSession.next s.session e } done (rest ++ later) := by
  have hreplied := EasybdSessionResponses.replied_step (EasybdSession.step_of_enabled he)
  refine ⟨((EasybdSessionChannel.entering s.session e).map fun t => (t.id, t.response)).toList,
    ?_, hr.results, hr.copied, ?_⟩
  · rw [hreplied, hr.replies, List.append_assoc]
  · rw [List.map_append]
    exact hr.reads.append _

/-- A step of the client hands over at most one response, and never an unexpected one. -/
theorem reading_client {e : EasybdClient.Event} (hr : Reading s done rest)
    (ends : Ends syncWrites s) (hs : Serves s) (g : EasybdClientReliable.Succeeds e)
    (he : EasybdClient.Enabled s.client e) :
    ∃ done' rest', Reading { s with client := EasybdClient.next s.client e } done' rest' := by
  cases hr.reads.step (hr.expects ends hs) (hr.unread ends hs.wires) ends.consistent.ends
      ends.client.within (EasybdClient.step_of_enabled he) with
  | stays bytes adds reads | issues r adds reads =>
    exact ⟨done, rest, hr.replies, by rw [adds.results, hr.results, List.append_nil],
      by rw [adds.copied, hr.copied, List.append_nil], reads⟩
  | hands p resp later hrest known adds reads =>
    obtain ⟨a, later, rfl, rfl, rfl⟩ := List.map_eq_cons_iff.mp hrest
    obtain ⟨q, -, hpending⟩ := hr.expected ends hs List.mem_cons_self
    obtain rfl := Option.some.inj (hpending.symm.trans known)
    refine ⟨done ++ [a], later, ?_, ?_, ?_, ?_⟩
    · rw [hr.replies, List.append_assoc, List.singleton_append]
    · rw [adds.results, hr.results, List.map_append]
      rfl
    · rw [adds.copied, hr.copied]
      by_cases hbody : a.2.body = [] <;> simp [hbody]
    · rwa [List.map_append]
  | fails t p stack top =>
    exact (ends.client.sound.returned _ (by rw [top]; exact List.mem_cons_self)).elim
  | ends cause => rcases cause with rfl | rfl <;> exact g.elim

end Responses

theorem serves_initial : Serves (initial clientBackend serverBackend syncWrites) :=
  ⟨⟨List.prefix_rfl, List.prefix_rfl⟩, trivial, rfl⟩

theorem requests_next {e : Event} (he : Enabled s e) :
    s.client.requests.length ≤ (next s e).client.requests.length := by
  cases e with
  | client e => exact EasybdClientReliable.requests_length_step (EasybdClient.step_of_enabled he.1)
  | session e => exact Nat.le_refl _

structure Joint (syncWrites : Bool) (s : State) : Prop where
  ends : Ends syncWrites s
  serves : Serves s
  reading : ∃ done rest, Reading s done rest

theorem joint_of_run
    (h : Run machine NothingFails (initial clientBackend serverBackend syncWrites) s)
    (few : s.client.requests.length < UInt64.size) : Joint syncWrites s := by
  suffices hboth : Serves s ∧ ∃ done rest, Reading s done rest from
    ⟨ends_of_run h few, hboth.1, hboth.2⟩
  refine h.invariant_under
    (I := fun u => u.client.requests.length < UInt64.size → Ends syncWrites u)
    (J := fun u => u.client.requests.length < UInt64.size →
      Serves u ∧ ∃ done rest, Reading u done rest)
    (fun u hu few => ends_of_run hu few)
    (fun _ => ⟨serves_initial, [], [], reading_initial⟩) ?_ few
  intro u e hends ih he g few'
  have few := Nat.lt_of_le_of_lt (requests_next he) few'
  obtain ⟨hserves, done, rest, hreading⟩ := ih few
  refine ⟨serves_step hserves (hends few) he g, ?_⟩
  cases e with
  | client e => exact reading_client hreading (hends few) hserves g he.1
  | session e =>
    obtain ⟨later, hlater⟩ := reading_session hreading he.1
    exact ⟨done, _, hlater⟩

end EasybdEndToEnd
