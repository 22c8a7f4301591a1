import EasyBD.EasybdHandlers

/-! A request as its caller passes it to `easybd_client_pread`/`easybd_client_pwrite`, and
the frame `send_request` sends for it. -/
namespace EasybdRequests

open EasybdProtocol EasyioSendAll EasybdHandlers

/-- `buf` is the caller's memory: what a write sends, where a read's body goes. -/
structure Request where
  isRead : Bool
  size : UInt64
  offset : UInt64
  buf : List UInt8
  length_eq : buf.length = size.toNat
  deriving DecidableEq

namespace Request

def op (syncWrites : Bool) (r : Request) : UInt8 :=
  if r.isRead then easybdOpRead
  else if syncWrites then easybdOpWriteSync else easybdOpWrite

/-- `nullptr` for a read. -/
def payload (r : Request) : List UInt8 := if r.isRead then [] else r.buf

def header (syncWrites : Bool) (cid : UInt64) (r : Request) : RequestHeader :=
  ⟨cid, r.offset, r.size, r.op syncWrites⟩

def startSend (syncWrites : Bool) (cid : UInt64) (r : Request) : SendAll :=
  if isWriteOp (r.op syncWrites) then
    sendAllGathered (r.header syncWrites cid).bytes r.payload
  else sendAll (r.header syncWrites cid).bytes

def encode (syncWrites : Bool) (cid : UInt64) (r : Request) : List UInt8 :=
  (r.header syncWrites cid).bytes ++ r.payload

def handler (syncWrites : Bool) (cid : UInt64) (r : Request) : Handler :=
  if r.isRead then .handleRead cid r.offset r.size
  else .handleWrite cid r.offset r.buf syncWrites

theorem isWriteOp_op (syncWrites : Bool) (r : Request) :
    isWriteOp (r.op syncWrites) = !r.isRead := by
  unfold op
  cases r.isRead <;> cases syncWrites <;> rfl

theorem wellFormed_startSend (syncWrites : Bool) (cid : UInt64) (r : Request) :
    (r.startSend syncWrites cid).WellFormed := by
  unfold startSend
  split
  · exact SendAll.wellFormed_sendAllGathered _ _
  · exact SendAll.wellFormed_sendAll _

theorem rest_startSend (syncWrites : Bool) (cid : UInt64) (r : Request) :
    (r.startSend syncWrites cid).rest = r.encode syncWrites cid := by
  unfold startSend encode
  rw [isWriteOp_op]
  cases hr : r.isRead with
  | false => simp
  | true => simp [payload, hr]

theorem encode_ne_nil (syncWrites : Bool) (cid : UInt64) (r : Request) :
    r.encode syncWrites cid ≠ [] := by
  have hl := (r.header syncWrites cid).bytes_length
  intro h
  rw [encode, List.append_eq_nil_iff] at h
  rw [h.1] at hl
  exact absurd hl (by decide)

end Request

def shortRead : Request := ⟨true, 2, 0, [0, 0], rfl⟩

end EasybdRequests
