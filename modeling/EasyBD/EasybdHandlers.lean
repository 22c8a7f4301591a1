import EasyBD.EasybdProtocol
import EasyBD.EasyioSendAll
import EasyBD.EasyioFileOps

/-! The handler coroutines `handle_connection` spawns: what each asks of the file and the
response it sends. -/
namespace EasybdHandlers

open EasybdProtocol EasyioQueue EasyioSendAll EasyioFileOps

inductive Handler where
  | sendError (cid : UInt64) (err : ℕ)
  | handleWrite (cid offset : UInt64) (payload : List UInt8) (durable : Bool)
  | handleRead (cid offset size : UInt64)
  deriving DecidableEq, Repr

/-- How the awaited file operation returned; a read leaves `data` in its buffer. -/
inductive FileResult where
  | transferred (count : ℕ) (data : List UInt8)
  | error (err : Errno)
  deriving DecidableEq

structure Response where
  cid : UInt64
  res : Int64
  body : List UInt8
  deriving DecidableEq

def Response.encode (resp : Response) : List UInt8 :=
  ResponseHeader.bytes ⟨resp.cid, resp.res⟩ ++ resp.body

namespace Handler

def cid : Handler → UInt64
  | .sendError cid _ => cid
  | .handleWrite cid _ _ _ => cid
  | .handleRead cid _ _ => cid

def isRead : Handler → Bool
  | .handleRead _ _ _ => true
  | _ => false

def res : Handler → FileResult → Int64
  | .sendError _ err, _ => negErrno err
  | .handleWrite _ _ _ _, .transferred count _ => Int64.ofNat count
  | .handleRead _ _ _, .transferred count _ => Int64.ofNat count
  | _, .error err => negErrno err.val

def body : Handler → FileResult → List UInt8
  | .handleRead _ _ _, .transferred _ data => data
  | _, _ => []

def respond (h : Handler) (r : FileResult) : Response := ⟨h.cid, h.res r, h.body r⟩

/-- Only `handle_read` sends a body, and only when `res > 0`. -/
def startSend (h : Handler) (resp : Response) : SendAll :=
  let header := ResponseHeader.bytes ⟨resp.cid, resp.res⟩
  match h with
  | .handleRead _ _ _ =>
    if 0 < resp.res then sendAllGathered header (resp.body.take resp.res.toNatClampNeg)
    else sendAll header
  | _ => sendAll header

def Fits : Handler → FileResult → Prop
  | .handleRead _ _ size, .transferred count data => count = data.length ∧ count ≤ size.toNat
  | .handleWrite _ _ payload _, .transferred count data => count ≤ payload.length ∧ data = []
  | .sendError _ _, .transferred _ _ => False
  | .sendError _ _, .error _ => False
  | _, .error _ => True

instance (h : Handler) (r : FileResult) : Decidable (h.Fits r) := by
  cases h <;> cases r <;> simp only [Fits] <;> infer_instance

/-- The size check the read loop makes before it spawns a file handler. -/
def PassesSizeCheck : Handler → Prop
  | .handleRead _ _ size => size ≤ easybdMaxPayloadSize
  | .handleWrite _ _ payload _ => payload.length ≤ easybdMaxPayloadSize.toNat
  | .sendError _ _ => True

instance (h : Handler) : Decidable h.PassesSizeCheck := by
  cases h <;> simp only [PassesSizeCheck] <;> infer_instance

def readResult : ReadResult → FileResult
  | .ok data => .transferred data.length data
  | .error err => .error err

def writeResult : WriteResult → FileResult
  | .ok count => .transferred count []
  | .error err => .error err

/-- The file operation a handler awaits on a queue of backend `b`; `send_error` has none. -/
def perform (b : Backend) (m : Medium) (f : File) : Handler → Option (FileResult × File)
  | .handleRead _ offset size =>
    let r := pread b m f size.toNat offset
    some (readResult r.1, r.2)
  | .handleWrite _ offset payload durable =>
    let r := if durable then pwriteDsync b m f payload offset else pwrite b m f payload offset
    some (writeResult r.1, r.2)
  | .sendError _ _ => none

end Handler

theorem count_res {n : ℕ} (h : n ≤ easybdMaxPayloadSize.toNat) :
    (Int64.ofNat n).toInt = n :=
  Int64.toInt_ofNat_of_lt (by rw [easybdMaxPayloadSize_toNat] at h; omega)

theorem errno_res (err : Errno) : (negErrno err.val).toInt = -(err.val : ℤ) := by
  have := err.lt
  exact Int64.toInt_ofInt_of_le (by omega) (by omega)

theorem errno_res_neg (err : Errno) : negErrno err.val < 0 := by
  have := err.pos
  rw [Int64.lt_iff_toInt_lt, errno_res, Int64.toInt_zero]
  omega

theorem Response.encode_ne_nil (resp : Response) : resp.encode ≠ [] := by
  intro h
  rw [encode, List.append_eq_nil_iff] at h
  exact absurd (congrArg List.length h.1) (by simp [responseHeaderSize])

namespace Handler

theorem wellFormed_startSend (h : Handler) (resp : Response) : (h.startSend resp).WellFormed := by
  unfold startSend
  split
  · split
    · exact SendAll.wellFormed_sendAllGathered _ _
    · exact SendAll.wellFormed_sendAll _
  · exact SendAll.wellFormed_sendAll _

theorem rest_startSend_ne_nil (h : Handler) (resp : Response) : (h.startSend resp).rest ≠ [] := by
  have header_ne_nil : ResponseHeader.bytes ⟨resp.cid, resp.res⟩ ≠ [] := fun hnil =>
    absurd (congrArg List.length hnil) (by simp [responseHeaderSize])
  unfold startSend
  split
  · split
    · simp [header_ne_nil]
    · simpa using header_ne_nil
  · simpa using header_ne_nil

theorem res_transferred {h : Handler} {count : ℕ} {data : List UInt8}
    (fits : h.Fits (.transferred count data)) (size : h.PassesSizeCheck) :
    (h.res (.transferred count data)).toInt = count := by
  cases h with
  | sendError cid err => exact fits.elim
  | handleWrite cid offset payload durable => exact count_res (fits.1.trans size)
  | handleRead cid offset bytes =>
    exact count_res (fits.2.trans (UInt64.le_iff_toNat_le.mp size))

/-- A body goes out exactly with a read that transferred something, and has `res` bytes. -/
theorem body_respond {h : Handler} {r : FileResult} (fits : h.Fits r ∨ ∃ err, r = .error err)
    (size : h.PassesSizeCheck) :
    (h.respond r).body.length =
      if h.isRead ∧ 0 < (h.respond r).res then (h.respond r).res.toNatClampNeg else 0 := by
  cases h with
  | sendError cid err => rfl
  | handleWrite cid offset payload durable => rfl
  | handleRead cid offset bytes =>
    cases r with
    | error err =>
      have hneg : ¬ 0 < negErrno err.val := by
        have := errno_res_neg err
        rw [Int64.lt_iff_toInt_lt] at this ⊢
        omega
      simp [respond, res, body, isRead, hneg]
    | transferred count data =>
      have hfits : Handler.Fits (.handleRead cid offset bytes) (.transferred count data) := by
        rcases fits with fits | ⟨err, herr⟩
        · exact fits
        · cases herr
      have hres := res_transferred hfits size
      simp only [respond, body, isRead, true_and, Int64.lt_iff_toInt_lt, hres, Int64.toInt_zero,
        Int64.toNatClampNeg]
      have hcount := hfits.1
      split <;> omega

theorem rest_startSend {h : Handler} {r : FileResult} (fits : h.Fits r ∨ ∃ err, r = .error err)
    (size : h.PassesSizeCheck) : (h.startSend (h.respond r)).rest = (h.respond r).encode := by
  have hlen := body_respond fits size
  cases h with
  | sendError cid err => simp [startSend, Response.encode, respond, body]
  | handleWrite cid offset payload durable => simp [startSend, Response.encode, respond, body]
  | handleRead cid offset bytes =>
    simp only [isRead, true_and] at hlen
    simp only [startSend, Response.encode]
    split
    · next hpos =>
      rw [if_pos hpos] at hlen
      rw [SendAll.rest_sendAllGathered, ← hlen, List.take_length]
    · next hnonpos =>
      rw [if_neg hnonpos] at hlen
      rw [SendAll.rest_sendAll, List.length_eq_zero_iff.mp hlen, List.append_nil]

end Handler

end EasybdHandlers
