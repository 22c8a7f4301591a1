import EasyBD.LittleEndian

/-! The wire format of `protocol.h`: packed headers in native (little-endian) byte order,
a payload only after a write request, a body only after a successful read response. -/
namespace EasybdProtocol

def easybdOpRead : UInt8 := 0
def easybdOpWrite : UInt8 := 1
def easybdOpWriteSync : UInt8 := 2

def easybdMaxPayloadSize : UInt64 := 4 * 1024 * 1024

/-- The errno values the programs themselves produce. -/
def enomem : ℕ := 12
def einval : ℕ := 22
def emsgsize : ℕ := 90
def econnreset : ℕ := 104

structure RequestHeader where
  cid : UInt64
  offset : UInt64
  size : UInt64
  op : UInt8
  deriving DecidableEq, Repr

structure ResponseHeader where
  cid : UInt64
  res : Int64
  deriving DecidableEq, Repr

def requestHeaderSize : ℕ := 25
def responseHeaderSize : ℕ := 16

def word (n : UInt64) : List UInt8 := LittleEndian.encode 8 n.toNat
def readWord (bs : List UInt8) : UInt64 := UInt64.ofNat (LittleEndian.decode (bs.take 8))

/-- The object representation that `memcpy` copies out of a packed header. -/
def RequestHeader.bytes (h : RequestHeader) : List UInt8 :=
  word h.cid ++ word h.offset ++ word h.size ++ [h.op]

def RequestHeader.ofBytes (bs : List UInt8) : RequestHeader where
  cid := readWord bs
  offset := readWord (bs.drop 8)
  size := readWord (bs.drop 16)
  op := bs.getD 24 0

def ResponseHeader.bytes (h : ResponseHeader) : List UInt8 :=
  word h.cid ++ word h.res.toUInt64

def ResponseHeader.ofBytes (bs : List UInt8) : ResponseHeader where
  cid := readWord bs
  res := (readWord (bs.drop 8)).toInt64

/-- `-static_cast<int64_t>(err)`. -/
def negErrno (err : ℕ) : Int64 := Int64.ofInt (-(err : ℤ))

def isWriteOp (op : UInt8) : Bool := op == easybdOpWrite || op == easybdOpWriteSync

@[simp] theorem word_length (n : UInt64) : (word n).length = 8 := by simp [word]

@[simp] theorem RequestHeader.bytes_length (h : RequestHeader) :
    h.bytes.length = requestHeaderSize := by simp [bytes, requestHeaderSize]

@[simp] theorem ResponseHeader.bytes_length (h : ResponseHeader) :
    h.bytes.length = responseHeaderSize := by simp [bytes, responseHeaderSize]

theorem readWord_word (n : UInt64) (bs : List UInt8) : readWord (word n ++ bs) = n := by
  have hlt : n.toNat < 256 ^ 8 := n.toNat_lt
  rw [readWord, List.take_left' (word_length n), word, LittleEndian.decode_encode hlt]
  exact UInt64.ofNat_toNat

theorem word_readWord {bs : List UInt8} (h : 8 ≤ bs.length) :
    word (readWord bs) = bs.take 8 := by
  have hl : (bs.take 8).length = 8 := by simp [h]
  have hlt : LittleEndian.decode (bs.take 8) < 2 ^ 64 := by
    simpa [hl] using LittleEndian.decode_lt (bs.take 8)
  rw [word, readWord, UInt64.toNat_ofNat', Nat.mod_eq_of_lt hlt]
  simpa only [hl] using LittleEndian.encode_decode (bs.take 8)

theorem RequestHeader.ofBytes_bytes (h : RequestHeader) (bs : List UInt8) :
    RequestHeader.ofBytes (h.bytes ++ bs) = h := by
  have drop8 (a : UInt64) (l : List UInt8) : (word a ++ l).drop 8 = l :=
    List.drop_left' (word_length a)
  have hbytes : h.bytes ++ bs = word h.cid ++ (word h.offset ++ (word h.size ++ h.op :: bs)) := by
    simp [bytes]
  have h8 : (h.bytes ++ bs).drop 8 = word h.offset ++ (word h.size ++ h.op :: bs) := by
    rw [hbytes, drop8]
  have h16 : (h.bytes ++ bs).drop 16 = word h.size ++ h.op :: bs := by
    rw [show 16 = 8 + 8 from rfl, ← List.drop_drop, h8, drop8]
  have h24 : (h.bytes ++ bs).getD 24 0 = h.op := by
    have : (h.bytes ++ bs).drop 24 = h.op :: bs := by
      rw [show 24 = 16 + 8 from rfl, ← List.drop_drop, h16, drop8]
    have hget : (h.bytes ++ bs)[24]? = some h.op := by
      rw [← Nat.add_zero 24, ← List.getElem?_drop, this, List.getElem?_cons_zero]
    rw [List.getD_eq_getElem?_getD, hget, Option.getD_some]
  simp only [ofBytes, h8, h16, h24]
  rw [hbytes, readWord_word, readWord_word, readWord_word]

theorem RequestHeader.bytes_ofBytes {bs : List UInt8} (h : bs.length = requestHeaderSize) :
    (RequestHeader.ofBytes bs).bytes = bs := by
  have hl : bs.length = 25 := h
  have h24 : bs.drop 24 = [bs.getD 24 0] := by
    rw [List.drop_eq_getElem_cons (by omega), List.drop_of_length_le (by omega),
      List.getD_eq_getElem?_getD, List.getElem?_eq_getElem (by omega), Option.getD_some]
  have h8 (k : ℕ) (hk : k + 8 ≤ 25) : bs.drop k = (bs.drop k).take 8 ++ bs.drop (k + 8) := by
    rw [← List.drop_drop, List.take_append_drop]
  simp only [bytes, ofBytes]
  rw [word_readWord (by omega), word_readWord (by simp [hl]), word_readWord (by simp [hl]),
    ← h24]
  have h0 := h8 0 (by omega)
  rw [List.drop_zero] at h0
  conv_rhs => rw [h0, h8 8 (by omega), h8 16 (by omega)]
  simp

theorem ResponseHeader.ofBytes_bytes (h : ResponseHeader) (bs : List UInt8) :
    ResponseHeader.ofBytes (h.bytes ++ bs) = h := by
  have hbytes : h.bytes ++ bs = word h.cid ++ (word h.res.toUInt64 ++ bs) := by simp [bytes]
  have h8 : (h.bytes ++ bs).drop 8 = word h.res.toUInt64 ++ bs := by
    rw [hbytes, List.drop_left' (word_length _)]
  simp only [ofBytes, h8]
  rw [hbytes, readWord_word, readWord_word, Int64.toInt64_toUInt64]

theorem ResponseHeader.bytes_ofBytes {bs : List UInt8} (h : bs.length = responseHeaderSize) :
    (ResponseHeader.ofBytes bs).bytes = bs := by
  have hl : bs.length = 16 := h
  simp only [bytes, ofBytes]
  rw [UInt64.toUInt64_toInt64, word_readWord (by omega), word_readWord (by simp [hl])]
  rw [List.take_of_length_le (l := bs.drop 8) (by simp [hl]), List.take_append_drop]

theorem easybdMaxPayloadSize_toNat : easybdMaxPayloadSize.toNat = 4194304 := by decide

end EasybdProtocol
