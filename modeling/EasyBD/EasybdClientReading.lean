import EasyBD.EasybdClientReliable

/-! How `reader_loop` goes through a stream of responses, whatever else the client does: it is in
front of a response or inside of it, and hands each over to the request in the map under its
cid. -/
namespace EasybdClientReading

open EntryLedger SerializedFrames EasybdProtocol EasyioQueue EasyioFramedReader EasybdHandlers
open EasybdRequests EasybdClient EasybdClientTable EasybdClientChannel EasybdClientBuffers
open EasybdClientReliable (Adds received results copied)

variable {s s' : State} {e : Event}

section Steps

/-- One step seen from the callbacks and the map, while `reader_loop` runs: `fails` is a sender
that throws while its request is pending, `ends` an error or EOF. -/
inductive ReaderStep (s : State) (e : Event) (s' : State) : Prop where
  | same (adds : Adds s s' [] [] []) (at_ : s'.readerAt = s.readerAt)
      (unread : s'.reader.unread = s.reader.unread) (pending : s'.pending = s.pending)
      (requests : s'.requests = s.requests)
  | issues (r : Request) (adds : Adds s s' [] [] []) (at_ : s'.readerAt = s.readerAt)
      (unread : s'.reader.unread = s.reader.unread)
      (pending : s'.pending = s.pending.insert s.nextCid ⟨r.isRead, s.requests.length⟩)
      (requests : s'.requests = s.requests ++ [(s.nextCid, r)])
  | receives (batch : List (List UInt8)) (he : e = .received batch)
      (adds : Adds s s' batch.flatten [] []) (at_ : s'.readerAt = s.readerAt)
      (unread : s'.reader.unread = s.reader.unread ++ batch.flatten)
      (pending : s'.pending = s.pending) (requests : s'.requests = s.requests)
  | header (p : Pending) (decodes : decoding s = some (incoming s))
      (known : s.pending.lookup (incoming s).cid = some p)
      (body : p.isRead = true ∧ 0 < (incoming s).res) (adds : Adds s s' [] [] [])
      (at_ : s'.readerAt = .body (incoming s).cid (incoming s).res p)
      (unread : s'.reader.unread = s.reader.unread.drop responseHeaderSize)
      (pending : s'.pending = s.pending) (requests : s'.requests = s.requests)
  | answers (p : Pending) (decodes : decoding s = some (incoming s))
      (known : s.pending.lookup (incoming s).cid = some p)
      (bodiless : ¬ (p.isRead = true ∧ 0 < (incoming s).res))
      (adds : Adds s s' [] [(p.request, (incoming s).res)] []) (at_ : s'.readerAt = .header)
      (unread : s'.reader.unread = s.reader.unread.drop responseHeaderSize)
      (pending : s'.pending = s.pending.erase (incoming s).cid)
      (requests : s'.requests = s.requests)
  | copies (cid : UInt64) (res : Int64) (p : Pending) (before : s.readerAt = .body cid res p)
      (enough : res.toNatClampNeg ≤ s.reader.unread.length)
      (adds : Adds s s' [] [(p.request, res)]
        [(p.request, s.reader.unread.take res.toNatClampNeg)])
      (at_ : s'.readerAt = .header)
      (unread : s'.reader.unread = s.reader.unread.drop res.toNatClampNeg)
      (pending : s'.pending = s.pending.erase cid) (requests : s'.requests = s.requests)
  | fails (t : SendRequest) (p : Pending) (stack : List Frame)
      (top : s.stack = .returned t none :: stack) (known : s.pending.lookup t.cid = some p)
      (log : channelLog s'.trace = .fail :: channelLog s.trace)
      (adds : Adds s s' [] [(p.request, negErrno econnreset)] [])
      (at_ : s'.readerAt = s.readerAt) (unread : s'.reader.unread = s.reader.unread)
      (pending : s'.pending = s.pending.erase t.cid) (requests : s'.requests = s.requests)
  | unknown (decodes : decoding s = some (incoming s))
      (missing : s.pending.lookup (incoming s).cid = none)
  | ends (he : e = .destroy ∨ e = .receiveFailed) (adds : Adds s s' [] [] [])
      (at_ : s'.readerAt = .ended) (requests : s'.requests = s.requests)

theorem decoding_of_header {stack : List Frame} (top : s.stack = .reading :: stack)
    (at_ : s.readerAt = .header) (enough : s.readerAt.needed ≤ s.reader.unread.length) :
    decoding s = some (incoming s) := by
  rw [at_] at enough
  have enough : responseHeaderSize ≤ s.reader.unread.length := enough
  simp only [decoding, top, at_, if_pos enough]

theorem reader_step (he : Ends s) (hr : Within s.reader) (reads : s.readerAt ≠ .ended)
    (step : Step s e s') : ReaderStep s e s' := by
  cases step with
  | noFrame r | sends r | queues r =>
    exact .issues r (.nothing (by simp [received]) (by simp [results]) (by simp [copied])) rfl rfl
      rfl rfl
  | received dispatching reads isBatch =>
    exact .receives _ rfl ⟨rfl, by simp [results], by simp [copied]⟩ rfl
      (unread_insertBatch hr _) rfl rfl
  | readsOn => exact .same (.nothing rfl rfl rfl) rfl rfl rfl rfl
  | unknownCid top at_ enough missing => exact .unknown (decoding_of_header top at_ enough) missing
  | awaitsBody top at_ enough resp bytes known read pos =>
    subst bytes
    exact .header _ (decoding_of_header top at_ enough) known ⟨read, pos⟩ (.nothing rfl rfl rfl)
      rfl rfl rfl rfl
  | answered top at_ enough resp bytes known bodiless =>
    subst bytes
    exact .answers _ (decoding_of_header top at_ enough) known bodiless
      ⟨by simp [received], rfl, by simp [copied]⟩ rfl rfl rfl rfl
  | copies top at_ enough =>
    rw [at_] at enough
    exact .copies _ _ _ at_ enough ⟨by simp [received], by simp [results],
      by simp [copied, at_, Reader.needed]⟩ rfl (by rw [at_]; rfl) rfl rfl
  | @sendThrows t stack p top known =>
    exact .fails t p stack top known (by simp) ⟨by simp [received], rfl, by simp [copied]⟩ rfl rfl
      rfl rfl
  | destroyReading => exact .ends (Or.inl rfl) (.nothing rfl rfl rfl) rfl rfl
  | receiveFailed => exact .ends (Or.inr rfl) (.nothing rfl rfl rfl) rfl rfl
  | readsNothing top at_ => exact absurd at_ reads
  | drain top => exact absurd (he .failAllPending (by simp [top]) (Or.inl rfl)) reads
  | failsNext top =>
    exact absurd (he _ (by rw [top]; exact List.mem_cons_self)
      (Or.inr (by simp [Frame.drained]))) reads
  | _ =>
    exact .same (.nothing (by simp [received]) (by simp [results]) (by simp [copied])) rfl rfl rfl
      rfl

/-- Once `reader_loop` has ended, callbacks are only told that the connection is gone. -/
theorem ended_adds (ended : s.readerAt = .ended) (step : Step s e s') :
    ∃ failed : List ℕ, Adds s s' [] (failed.map fun id => (id, negErrno econnreset)) [] := by
  cases step with
  | @sendThrows t stack p => exact ⟨[p.request], by simp [received], rfl, by simp [copied]⟩
  | @failsNext stack p ps => exact ⟨[p.request], by simp [received], rfl, by simp [copied]⟩
  | received dispatching reads => exact absurd ended reads
  | unknownCid top at_ | awaitsBody top at_ | answered top at_ | copies top at_ =>
    cases ended.symm.trans at_
  | _ => exact ⟨[], .nothing (by simp [received]) (by simp [results]) (by simp [copied])⟩

end Steps

section Responses

variable {done rest : List Response} {resp : Response}

def front : Reader → List UInt8
  | .body cid res _ => ResponseHeader.bytes ⟨cid, res⟩
  | _ => []

/-- `reader_loop` has handed over `done`, and is in front of or inside of the first of `rest`. -/
structure Reads (s : State) (done rest : List Response) : Prop where
  received : received s.trace =
    (done.map Response.encode).flatten ++ (front s.readerAt ++ s.reader.unread)
  body : ∀ cid res p, s.readerAt = .body cid res p →
    ∃ resp later, rest = resp :: later ∧ resp.cid = cid ∧ resp.res = res
  runs : s.readerAt ≠ .ended

/-- The next response is for an entry of the map, and has the body that the entry calls for; the
entry that `reader_loop` has copied is still there. -/
structure Expects (s : State) (rest : List Response) : Prop where
  next : ∀ resp later, rest = resp :: later → ∃ p, s.pending.lookup resp.cid = some p ∧
    resp.body.length = if p.isRead = true ∧ 0 < resp.res then resp.res.toNatClampNeg else 0
  body : ∀ cid res p, s.readerAt = .body cid res p →
    s.pending.lookup cid = some p ∧ p.isRead = true ∧ 0 < res

theorem Reads.append (hr : Reads s done rest) (more : List Response) :
    Reads s done (rest ++ more) := by
  refine ⟨hr.received, fun cid res p hat => ?_, hr.runs⟩
  obtain ⟨resp, later, rfl, hcid, hres⟩ := hr.body cid res p hat
  exact ⟨resp, _, List.cons_append, hcid, hres⟩

theorem Reads.unread (hr : Reads s done rest)
    (sent : (EasybdClientReliable.received s.trace).IsPrefix
      ((done ++ rest).map Response.encode).flatten) :
    (front s.readerAt ++ s.reader.unread).IsPrefix (rest.map Response.encode).flatten := by
  rw [hr.received, List.map_append, List.flatten_append, List.prefix_append_right_inj] at sent
  exact sent

theorem at_of_decoding {head : ResponseHeader} (decodes : decoding s = some head) :
    s.readerAt = .header ∧ responseHeaderSize ≤ s.reader.unread.length ∧ head = incoming s := by
  unfold decoding at decodes
  split at decodes
  · next _ _ top at_ =>
    split at decodes
    · next enough => exact ⟨at_, enough, (Option.some.inj decodes).symm⟩
    · cases decodes
  · cases decodes

/-- The header in front of `reader_loop` is that of the first response it has not read. -/
theorem next_response
    (unread : (front s.readerAt ++ s.reader.unread).IsPrefix (rest.map Response.encode).flatten)
    (decodes : decoding s = some (incoming s)) :
    ∃ resp later, rest = resp :: later ∧ incoming s = ⟨resp.cid, resp.res⟩ ∧
      s.reader.unread.take responseHeaderSize = ResponseHeader.bytes ⟨resp.cid, resp.res⟩ := by
  obtain ⟨at_, enough, -⟩ := at_of_decoding decodes
  rw [at_, show front .header = [] from rfl, List.nil_append] at unread
  cases rest with
  | nil =>
    have hlen := unread.length_le
    simp only [List.map_nil, List.flatten_nil, List.length_nil] at hlen
    exact absurd (enough.trans hlen) (by decide)
  | cons resp later =>
    have htake : s.reader.unread.take responseHeaderSize =
        ResponseHeader.bytes ⟨resp.cid, resp.res⟩ := by
      rw [List.prefix_iff_eq_take.mp unread, List.take_take, Nat.min_eq_left enough,
        List.map_cons, List.flatten_cons, Response.encode, List.append_assoc]
      exact List.take_left' (ResponseHeader.bytes_length _)
    refine ⟨resp, later, rfl, ?_, htake⟩
    rw [incoming, htake]
    simpa only [List.append_nil] using ResponseHeader.ofBytes_bytes ⟨resp.cid, resp.res⟩ []

theorem Expects.known (hx : Expects s rest)
    (unread : (front s.readerAt ++ s.reader.unread).IsPrefix (rest.map Response.encode).flatten)
    {head : ResponseHeader} (decodes : decoding s = some head) :
    ∃ p, s.pending.lookup head.cid = some p := by
  obtain ⟨-, -, rfl⟩ := at_of_decoding decodes
  obtain ⟨resp, later, hrest, heq, -⟩ := next_response unread decodes
  obtain ⟨p, hp, -⟩ := hx.next resp later hrest
  exact ⟨p, heq ▸ hp⟩

theorem Reads.awaited (hr : Reads s done rest) (hx : Expects s rest) {cid : UInt64} {res : Int64}
    {p : Pending} (at_ : s.readerAt = .body cid res p) :
    ∃ resp later, rest = resp :: later ∧ resp.cid = cid ∧ resp.res = res ∧
      resp.body.length = res.toNatClampNeg ∧ resp.body ≠ [] := by
  obtain ⟨resp, later, hrest, rfl, rfl⟩ := hr.body cid res p at_
  obtain ⟨hlook, hread, hpos⟩ := hx.body _ _ p at_
  obtain ⟨p', hp', hlen⟩ := hx.next resp later hrest
  obtain rfl := Option.some.inj (hlook.symm.trans hp')
  rw [if_pos ⟨hread, hpos⟩] at hlen
  refine ⟨resp, later, hrest, rfl, rfl, hlen, fun hnil => ?_⟩
  have hnat := Int64.lt_iff_toInt_lt.mp hpos
  rw [hnil, List.length_nil, Int64.toNatClampNeg] at hlen
  rw [Int64.toInt_zero] at hnat
  omega

/-- Where a step leaves `reader_loop`: in the same response, behind it, or ended. -/
inductive ReadsStep (s : State) (e : Event) (s' : State) (done rest : List Response) : Prop where
  | stays (bytes : List UInt8) (adds : Adds s s' bytes [] []) (reads : Reads s' done rest)
      (pending : s'.pending = s.pending) (requests : s'.requests = s.requests)
  | issues (r : Request) (adds : Adds s s' [] [] []) (reads : Reads s' done rest)
      (pending : s'.pending = s.pending.insert s.nextCid ⟨r.isRead, s.requests.length⟩)
      (requests : s'.requests = s.requests ++ [(s.nextCid, r)])
  | hands (p : Pending) (resp : Response) (later : List Response) (hrest : rest = resp :: later)
      (known : s.pending.lookup resp.cid = some p)
      (adds : Adds s s' [] [(p.request, resp.res)]
        (if resp.body = [] then [] else [(p.request, resp.body)]))
      (reads : Reads s' (done ++ [resp]) later) (pending : s'.pending = s.pending.erase resp.cid)
      (requests : s'.requests = s.requests)
  | fails (t : SendRequest) (p : Pending) (stack : List Frame)
      (top : s.stack = .returned t none :: stack)
      (log : channelLog s'.trace = .fail :: channelLog s.trace)
      (adds : Adds s s' [] [(p.request, negErrno econnreset)] []) (reads : Reads s' done rest)
      (pending : s'.pending = s.pending.erase t.cid) (requests : s'.requests = s.requests)
  | ends (he : e = .destroy ∨ e = .receiveFailed) (adds : Adds s s' [] [] [])
      (at_ : s'.readerAt = .ended) (requests : s'.requests = s.requests)

theorem Reads.same (hr : Reads s done rest) {bytes : List UInt8}
    (adds : EasybdClientReliable.received s'.trace =
      EasybdClientReliable.received s.trace ++ bytes)
    (at_ : s'.readerAt = s.readerAt) (unread : s'.reader.unread = s.reader.unread ++ bytes) :
    Reads s' done rest := by
  refine ⟨?_, ?_, ?_⟩
  · rw [adds, hr.received, at_, unread]
    simp only [List.append_assoc]
  · rw [at_]
    exact hr.body
  · rw [at_]
    exact hr.runs

theorem Reads.handed (hr : Reads s done rest) {later : List Response}
    (adds : EasybdClientReliable.received s'.trace = EasybdClientReliable.received s.trace)
    (taken : front s.readerAt ++ s.reader.unread = resp.encode ++ s'.reader.unread)
    (at_ : s'.readerAt = .header) : Reads s' (done ++ [resp]) later := by
  refine ⟨?_, by simp [at_], by simp [at_]⟩
  rw [adds, hr.received, taken, at_]
  simp [front]

theorem Reads.step (hr : Reads s done rest) (hx : Expects s rest)
    (unread : (front s.readerAt ++ s.reader.unread).IsPrefix (rest.map Response.encode).flatten)
    (hends : Ends s) (hwithin : Within s.reader) (step : Step s e s') :
    ReadsStep s e s' done rest := by
  cases reader_step hends hwithin hr.runs step with
  | same adds at_ same pending requests =>
    exact .stays [] adds (hr.same adds.received at_ (by rw [same, List.append_nil])) pending
      requests
  | issues r adds at_ same pending requests =>
    exact .issues r adds (hr.same adds.received at_ (by rw [same, List.append_nil])) pending
      requests
  | receives batch he adds at_ more pending requests =>
    exact .stays _ adds (hr.same adds.received at_ more) pending requests
  | header p decodes known body adds at_ drop pending requests =>
    obtain ⟨resp, later, hrest, hincoming, hbytes⟩ := next_response unread decodes
    have before := (at_of_decoding decodes).1
    rw [hincoming] at at_
    refine .stays [] adds ⟨?_, fun cid res p hat => ?_, by simp [at_]⟩ pending requests
    · rw [adds.received, hr.received, before, at_, drop, List.append_nil]
      simp only [front, ← hbytes, List.take_append_drop, List.nil_append]
    · obtain ⟨rfl, rfl, rfl⟩ := Reader.body.inj (at_.symm.trans hat)
      exact ⟨resp, later, hrest, rfl, rfl⟩
  | answers p decodes known bodiless adds at_ drop pending requests =>
    obtain ⟨resp, later, hrest, hincoming, hbytes⟩ := next_response unread decodes
    obtain ⟨p', hp', hlen⟩ := hx.next resp later hrest
    have before := (at_of_decoding decodes).1
    rw [hincoming] at known bodiless adds pending
    obtain rfl := Option.some.inj (hp'.symm.trans known)
    rw [if_neg bodiless] at hlen
    have hbody : resp.body = [] := List.length_eq_zero_iff.mp hlen
    refine .hands p' resp later hrest known (by simpa [hbody] using adds)
      (hr.handed (adds.received.trans (List.append_nil _)) ?_ at_) pending requests
    simp [before, drop, front, Response.encode, hbody, ← hbytes]
  | copies cid res p before enough adds at_ drop pending requests =>
    obtain ⟨resp, later, hrest, rfl, rfl, hlen, hdata⟩ := hr.awaited hx before
    have hbody : s.reader.unread.take resp.res.toNatClampNeg = resp.body := by
      rw [before, hrest, List.map_cons, List.flatten_cons, Response.encode,
        show front (.body resp.cid resp.res p) = ResponseHeader.bytes ⟨resp.cid, resp.res⟩ from rfl,
        List.append_assoc, List.prefix_append_right_inj] at unread
      rw [List.prefix_iff_eq_take.mp unread, List.take_take, Nat.min_eq_left enough,
        List.take_left' hlen]
    rw [hbody] at adds
    refine .hands p resp later hrest (hx.body _ _ p before).1 (by simpa [hdata] using adds)
      (hr.handed (adds.received.trans (List.append_nil _)) ?_ at_) pending requests
    simp only [before, drop, front, Response.encode, ← hbody, List.append_assoc,
      List.take_append_drop]
  | fails t p stack top known log adds at_ same pending requests =>
    exact .fails t p stack top log adds (hr.same adds.received at_ (by rw [same, List.append_nil]))
      pending requests
  | unknown decodes missing =>
    obtain ⟨p, hp⟩ := hx.known unread decodes
    cases hp.symm.trans missing
  | ends he adds at_ requests => exact .ends he adds at_ requests

end Responses

end EasybdClientReading
