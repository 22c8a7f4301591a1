import EasyBD.EasyioFramedReader
import EasyBD.EasybdRequests

/-! The read loop of `handle_connection` over a chunked stream, and the wire grammar it is
measured against. The handlers it spawns run concurrently and do not feed back into it. -/
namespace EasybdHandleConnection

open EasybdProtocol EasyioFramedReader EasybdHandlers EasybdRequests

/-- What the loop does with a header: `reject` throws, `payload` reads `req.size` bytes. -/
inductive HeaderAction where
  | reject
  | payload
  | spawn (h : Handler)
  deriving DecidableEq

def onHeader (req : RequestHeader) : HeaderAction :=
  if isWriteOp req.op then
    if easybdMaxPayloadSize < req.size then .reject else .payload
  else if req.op = easybdOpRead then
    if easybdMaxPayloadSize < req.size then .spawn (.sendError req.cid emsgsize)
    else .spawn (.handleRead req.cid req.offset req.size)
  else .reject

def onPayload (req : RequestHeader) (payload : List UInt8) : Handler :=
  .handleWrite req.cid req.offset payload (req.op == easybdOpWriteSync)

inductive Stop where
  | readFailed (e : ReadError)
  | rejected
  | outOfFuel
  deriving DecidableEq

def spawning (h : Handler) (r : List Handler × Stop) : List Handler × Stop := (h :: r.1, r.2)

def readLoop : ℕ → FramedReader → Stream → List Handler × Stop
  | 0, _, _ => ([], .outOfFuel)
  | fuel + 1, r, s =>
    match readExact requestHeaderSize r s with
    | .error e => ([], .readFailed e)
    | .ok (bytes, r, s) =>
      let req := RequestHeader.ofBytes bytes
      match onHeader req with
      | .reject => ([], .rejected)
      | .spawn h => spawning h (readLoop fuel r s)
      | .payload =>
        match readExactInto req.size.toNat r s with
        | .error e => ([], .readFailed e)
        | .ok (payload, r, s) => spawning (onPayload req payload) (readLoop fuel r s)

/-- Every iteration consumes a header, so the stream's length is enough fuel. -/
def handleConnection (s : Stream) : List Handler × Stop :=
  readLoop (s.chunks.flatten.length + 1) .initial s

/-- The wire grammar, read off one whole byte string. -/
def referenceParse (bytes : List UInt8) : List Handler :=
  if bytes.length < requestHeaderSize then []
  else
    let req := RequestHeader.ofBytes (bytes.take requestHeaderSize)
    let rest := bytes.drop requestHeaderSize
    let size := req.size.toNat
    if req.op = easybdOpWrite ∨ req.op = easybdOpWriteSync then
      if size ≤ easybdMaxPayloadSize.toNat ∧ size ≤ rest.length then
        .handleWrite req.cid req.offset (rest.take size) (req.op == easybdOpWriteSync) ::
          referenceParse (rest.drop size)
      else []
    else if req.op = easybdOpRead then
      if size ≤ easybdMaxPayloadSize.toNat then
        .handleRead req.cid req.offset req.size :: referenceParse rest
      else .sendError req.cid emsgsize :: referenceParse rest
    else []
termination_by bytes.length
decreasing_by
  all_goals simp only [requestHeaderSize, List.length_drop] at *; omega

theorem isWriteOp_iff (op : UInt8) :
    isWriteOp op = true ↔ op = easybdOpWrite ∨ op = easybdOpWriteSync := by
  simp [isWriteOp]

theorem lt_iff_toNat (size : UInt64) :
    easybdMaxPayloadSize < size ↔ ¬ size.toNat ≤ easybdMaxPayloadSize.toNat := by
  rw [UInt64.lt_iff_toNat_lt, Nat.not_le]

section Grammar

variable {bytes : List UInt8}

theorem referenceParse_short (h : bytes.length < requestHeaderSize) :
    referenceParse bytes = [] := by
  rw [referenceParse, if_pos h]

theorem referenceParse_step (h : requestHeaderSize ≤ bytes.length) :
    referenceParse bytes =
      match onHeader (RequestHeader.ofBytes (bytes.take requestHeaderSize)) with
      | .reject => []
      | .spawn k => k :: referenceParse (bytes.drop requestHeaderSize)
      | .payload =>
        let req := RequestHeader.ofBytes (bytes.take requestHeaderSize)
        let rest := bytes.drop requestHeaderSize
        if req.size.toNat ≤ rest.length then
          onPayload req (rest.take req.size.toNat) :: referenceParse (rest.drop req.size.toNat)
        else [] := by
  rw [referenceParse, if_neg (Nat.not_lt.mpr h)]
  generalize RequestHeader.ofBytes (bytes.take requestHeaderSize) = req
  by_cases hw : isWriteOp req.op = true
  · have hop := (isWriteOp_iff _).mp hw
    by_cases hsize : easybdMaxPayloadSize < req.size
    · have hnat := (lt_iff_toNat _).mp hsize
      simp only [onHeader, hw, hop, hsize, hnat, if_true, false_and, if_false]
    · have hnat := not_not.mp (mt (lt_iff_toNat _).mpr hsize)
      simp only [onHeader, hw, hop, hsize, hnat, if_true, true_and, if_false, onPayload]
  · have hop := mt (isWriteOp_iff _).mpr hw
    by_cases hr : req.op = easybdOpRead
    · by_cases hsize : easybdMaxPayloadSize < req.size
      · have hnat := (lt_iff_toNat _).mp hsize
        simp only [onHeader, if_neg hw, if_neg hop, if_pos hr, if_pos hsize, if_neg hnat]
      · have hnat := not_not.mp (mt (lt_iff_toNat _).mpr hsize)
        simp only [onHeader, if_neg hw, if_neg hop, if_pos hr, if_neg hsize, if_pos hnat]
    · simp only [onHeader, if_neg hw, if_neg hop, if_neg hr]

end Grammar

/-- The loop from any point: what is left of the stream decides what it spawns. -/
theorem readLoop_eq_referenceParse (fuel : ℕ) {r : FramedReader} {s : Stream} (hs : s.WellFormed)
    (hf : (remaining r s).length < fuel) :
    (readLoop fuel r s).1 = referenceParse (remaining r s) ∧
      ((readLoop fuel r s).2 = .readFailed s.ending.thrown ∨
        (readLoop fuel r s).2 = .rejected) := by
  induction fuel generalizing r s with
  | zero => exact absurd hf (Nat.not_lt_zero _)
  | succ fuel ih =>
    have hread := readExact_spec requestHeaderSize r hs
    by_cases hlen : requestHeaderSize ≤ (remaining r s).length
    · rw [if_pos hlen] at hread
      obtain ⟨r₁, s₁, hrun, hs₁, hend₁, hrem₁⟩ := hread
      have hlen₁ : (remaining r₁ s₁).length < fuel := by
        rw [hrem₁, List.length_drop]
        simp only [requestHeaderSize] at *
        omega
      rw [referenceParse_step hlen]
      simp only [readLoop, hrun]
      generalize RequestHeader.ofBytes ((remaining r s).take requestHeaderSize) = req
      cases hact : onHeader req with
      | reject => exact ⟨rfl, Or.inr rfl⟩
      | spawn k =>
        have hnext := ih hs₁ hlen₁
        rw [hend₁] at hnext
        exact ⟨by simp only [spawning, hnext.1, hrem₁], hnext.2⟩
      | payload =>
        have hinto := readExactInto_spec req.size.toNat r₁ hs₁
        rw [hrem₁] at hinto
        by_cases hsize : req.size.toNat ≤ ((remaining r s).drop requestHeaderSize).length
        · rw [if_pos hsize] at hinto ⊢
          obtain ⟨r₂, s₂, hrun₂, hs₂, hend₂, hrem₂⟩ := hinto
          have hlen₂ : (remaining r₂ s₂).length < fuel := by
            rw [hrem₂, ← hrem₁, List.length_drop]
            omega
          have hnext := ih hs₂ hlen₂
          rw [hend₂, hend₁] at hnext
          simp only [hrun₂]
          exact ⟨by simp only [spawning, hnext.1, hrem₂], hnext.2⟩
        · rw [if_neg hsize] at hinto ⊢
          simp [hinto, hend₁]
    · rw [if_neg hlen] at hread
      rw [referenceParse_short (Nat.lt_of_not_le hlen)]
      simp [readLoop, hread]

theorem referenceParse_encode (syncWrites : Bool) (cid : UInt64) (q : Request)
    (hq : q.size ≤ easybdMaxPayloadSize) (bytes : List UInt8) :
    referenceParse (q.encode syncWrites cid ++ bytes) =
      q.handler syncWrites cid :: referenceParse bytes := by
  have hfront : ((q.header syncWrites cid).bytes ++ (q.payload ++ bytes)).take requestHeaderSize =
      (q.header syncWrites cid).bytes := List.take_left' (RequestHeader.bytes_length _)
  have hback : ((q.header syncWrites cid).bytes ++ (q.payload ++ bytes)).drop requestHeaderSize =
      q.payload ++ bytes := List.drop_left' (RequestHeader.bytes_length _)
  have hheader : RequestHeader.ofBytes (q.header syncWrites cid).bytes =
      q.header syncWrites cid := by
    simpa only [List.append_nil] using RequestHeader.ofBytes_bytes (q.header syncWrites cid) []
  have hsize : ¬ easybdMaxPayloadSize < q.size := UInt64.not_lt.mpr hq
  rw [Request.encode, List.append_assoc, referenceParse_step (by simp), hfront, hback, hheader]
  cases hr : q.isRead with
  | true =>
    have hact : onHeader (q.header syncWrites cid) = .spawn (.handleRead cid q.offset q.size) := by
      simp [onHeader, Request.header, Request.op, hr, hsize, isWriteOp, easybdOpRead,
        easybdOpWrite, easybdOpWriteSync]
    simp [hact, Request.handler, Request.payload, hr]
  | false =>
    have hact : onHeader (q.header syncWrites cid) = .payload := by
      have hw := Request.isWriteOp_op syncWrites q
      rw [hr] at hw
      simp only [onHeader, Request.header, hw, Bool.not_false, if_true]
      exact if_neg hsize
    have hsync : ((q.header syncWrites cid).op == easybdOpWriteSync) = syncWrites := by
      simp only [Request.header, Request.op, hr]
      cases syncWrites <;> rfl
    have hlen : q.buf.length = (q.header syncWrites cid).size.toNat := q.length_eq
    simp only [hact, Request.payload, hr, Bool.false_eq_true, if_false]
    rw [if_pos (by rw [List.length_append]; omega), List.take_left' hlen, List.drop_left' hlen]
    simp only [onPayload, hsync, Request.handler, hr, Bool.false_eq_true, if_false]
    rfl

theorem referenceParse_requests (syncWrites : Bool) {qs : List (UInt64 × Request)}
    (hqs : ∀ q ∈ qs, q.2.size ≤ easybdMaxPayloadSize) :
    referenceParse (qs.map fun q => q.2.encode syncWrites q.1).flatten =
      qs.map fun q => q.2.handler syncWrites q.1 := by
  induction qs with
  | nil => exact referenceParse_short (Nat.zero_lt_succ _)
  | cons q qs ih =>
    rw [List.map_cons, List.map_cons, List.flatten_cons,
      referenceParse_encode syncWrites q.1 q.2 (hqs q List.mem_cons_self),
      ih fun p hp => hqs p (List.mem_cons_of_mem _ hp)]

/-- Whatever the chunking, `handle_connection` spawns the handlers of the wire grammar, stops
where the grammar or the stream ends, and serves a pipelined batch request by request. -/
theorem parses_wire_grammar (s : Stream) (hs : s.WellFormed) :
    (handleConnection s).1 = referenceParse s.chunks.flatten ∧
      ((handleConnection s).2 = .readFailed s.ending.thrown ∨
        (handleConnection s).2 = .rejected) ∧
      ∀ (syncWrites : Bool) (qs : List (UInt64 × Request)),
        (∀ q ∈ qs, q.2.size ≤ easybdMaxPayloadSize) →
        s.chunks.flatten = (qs.map fun q => q.2.encode syncWrites q.1).flatten →
        (handleConnection s).1 = qs.map fun q => q.2.handler syncWrites q.1 := by
  have hrem : remaining .initial s = s.chunks.flatten := rfl
  obtain ⟨hspawned, hstop⟩ := readLoop_eq_referenceParse (s.chunks.flatten.length + 1)
    (r := .initial) hs (by rw [hrem]; exact Nat.lt_succ_self _)
  refine ⟨hspawned, hstop, fun syncWrites qs hqs hbytes => ?_⟩
  rw [handleConnection, hspawned, hrem, hbytes, referenceParse_requests syncWrites hqs]

def writeThenRead : List (UInt64 × Request) :=
  [(7, ⟨false, 2, 4096, [1, 2], rfl⟩), (8, shortRead)]

def cutInPayload : Stream :=
  let bytes := (writeThenRead.map fun q => q.2.encode false q.1).flatten
  ⟨[bytes.take 26, bytes.drop 26], .eof, []⟩

theorem parses_wire_grammar_cut_in_payload :
    cutInPayload.WellFormed ∧ (handleConnection cutInPayload).1 =
      [.handleWrite 7 4096 [1, 2] false, .handleRead 8 0 2] :=
  have hs : cutInPayload.WellFormed := by decide
  ⟨hs, (parses_wire_grammar cutInPayload hs).2.2 false writeThenRead (by decide) (by decide)⟩

end EasybdHandleConnection
