import EasyBD.EasyioQueue

/-! The six file operations of the two queues over the kernel interfaces they call. The
kernel's rules for the offset are its documented ones: `pread`/`pwrite` reject a negative
`off_t`, `pwritev2` and io_uring take `-1` as the current file position. -/
namespace EasyioFileOps

open EasyioQueue

structure File where
  content : List UInt8
  position : ℕ
  deriving DecidableEq

inductive Transfer where
  | error (err : Errno)
  | limit (n : ℕ)

/-- How the medium answers a transfer at a given offset and size: an error such as a
misaligned direct access, or a cap on the count. -/
structure Medium where
  read : ℕ → ℕ → Transfer
  write : ℕ → ℕ → Transfer

abbrev ReadResult := Except Errno (List UInt8)
abbrev WriteResult := Except Errno ℕ

/-- Writing past the end fills the gap with zeros; writing nothing changes nothing. -/
def overwrite (content : List UInt8) (offset : ℕ) (data : List UInt8) : List UInt8 :=
  if data = [] then content
  else content.take offset ++ List.replicate (offset - content.length) 0 ++ data ++
    content.drop (offset + data.length)

def readAt (m : Medium) (f : File) (offset size : ℕ) : ReadResult :=
  match m.read offset size with
  | .error err => .error err
  | .limit n => .ok ((f.content.drop offset).take (min n size))

def writeAt (m : Medium) (f : File) (offset : ℕ) (data : List UInt8) : WriteResult × File :=
  match m.write offset data.length with
  | .error err => (.error err, f)
  | .limit n =>
    (.ok (min n data.length),
      { f with content := overwrite f.content offset (data.take (min n data.length)) })

def readAtPosition (m : Medium) (f : File) (size : ℕ) : ReadResult × File :=
  match readAt m f f.position size with
  | .error err => (.error err, f)
  | .ok data => (.ok data, { f with position := f.position + data.length })

def writeAtPosition (m : Medium) (f : File) (data : List UInt8) : WriteResult × File :=
  match writeAt m f f.position data with
  | (.error err, f) => (.error err, f)
  | (.ok n, f) => (.ok n, { f with position := f.position + n })

def sysPread (m : Medium) (f : File) (size : ℕ) (offset : Int64) : ReadResult × File :=
  if offset < 0 then (.error einval, f) else (readAt m f offset.toNatClampNeg size, f)

def sysPwrite (m : Medium) (f : File) (data : List UInt8) (offset : Int64) : WriteResult × File :=
  if offset < 0 then (.error einval, f) else writeAt m f offset.toNatClampNeg data

/-- `pwritev2(2)` with one iovec; `RWF_DSYNC` adds durability, not another effect. -/
def sysPwritev2 (m : Medium) (f : File) (data : List UInt8) (offset : Int64) :
    WriteResult × File :=
  if offset = -1 then writeAtPosition m f data else sysPwrite m f data offset

/-- `IORING_OP_READ`; the SQE's offset is unsigned. -/
def uringRead (m : Medium) (f : File) (size : ℕ) (offset : UInt64) : ReadResult × File :=
  if offset = -1 then readAtPosition m f size else sysPread m f size offset.toInt64

/-- `IORING_OP_WRITE`, with or without `RWF_DSYNC` in `rw_flags`. -/
def uringWrite (m : Medium) (f : File) (data : List UInt8) (offset : UInt64) :
    WriteResult × File :=
  if offset = -1 then writeAtPosition m f data else sysPwrite m f data offset.toInt64

def pread (b : Backend) (m : Medium) (f : File) (size : ℕ) (offset : UInt64) :
    ReadResult × File :=
  match b with
  | .libc => sysPread m f size offset.toInt64
  | .ioUring => uringRead m f size offset

def pwrite (b : Backend) (m : Medium) (f : File) (data : List UInt8) (offset : UInt64) :
    WriteResult × File :=
  match b with
  | .libc => sysPwrite m f data offset.toInt64
  | .ioUring => uringWrite m f data offset

def pwriteDsync (b : Backend) (m : Medium) (f : File) (data : List UInt8) (offset : UInt64) :
    WriteResult × File :=
  match b with
  | .libc => sysPwritev2 m f data offset.toInt64
  | .ioUring => uringWrite m f data offset

/-- The wire offset that the position-relative interfaces read as "current position". -/
def currentPosition : UInt64 := 18446744073709551615

theorem toInt64_eq_neg_one {offset : UInt64} : offset.toInt64 = -1 ↔ offset = -1 := by
  constructor
  · intro h
    have he : offset.toInt64.toUInt64 = (-1 : Int64).toUInt64 := congrArg Int64.toUInt64 h
    rw [UInt64.toUInt64_toInt64] at he
    exact he.trans (by decide)
  · rintro rfl; rfl

theorem pread_of_ne {offset : UInt64} (h : offset ≠ currentPosition) (b : Backend) (m : Medium)
    (f : File) (size : ℕ) : pread b m f size offset = sysPread m f size offset.toInt64 := by
  cases b with
  | libc => rfl
  | ioUring => exact if_neg h

theorem pwrite_of_ne {offset : UInt64} (h : offset ≠ currentPosition) (b : Backend) (m : Medium)
    (f : File) (data : List UInt8) :
    pwrite b m f data offset = sysPwrite m f data offset.toInt64 := by
  cases b with
  | libc => rfl
  | ioUring => exact if_neg h

theorem pwriteDsync_of_ne {offset : UInt64} (h : offset ≠ currentPosition) (b : Backend)
    (m : Medium) (f : File) (data : List UInt8) :
    pwriteDsync b m f data offset = sysPwrite m f data offset.toInt64 := by
  cases b with
  | libc => exact if_neg fun he => h (toInt64_eq_neg_one.mp he)
  | ioUring => exact if_neg h

/-- Bytes beyond the end count as zero. -/
theorem overwrite_outside (content : List UInt8) (offset : ℕ) (data : List UInt8) {i : ℕ}
    (h : i < offset ∨ offset + data.length ≤ i) :
    (overwrite content offset data).getD i 0 = content.getD i 0 := by
  by_cases hd : data = []
  · simp [overwrite, hd]
  · have hfront : (content.take offset ++ List.replicate (offset - content.length) 0).length =
        offset := by
      simp only [List.length_append, List.length_take, List.length_replicate]; omega
    rw [overwrite, if_neg hd]
    simp only [List.getD_eq_getElem?_getD]
    rcases h with h | h
    · rw [List.append_assoc, List.getElem?_append_left (by omega)]
      by_cases hi : i < content.length
      · rw [List.getElem?_append_left (by rw [List.length_take]; omega),
          List.getElem?_take_of_lt h]
      · rw [List.getElem?_append_right (by rw [List.length_take]; omega),
          List.getElem?_replicate, List.getElem?_eq_none (by omega)]
        split <;> rfl
    · have hlen : (content.take offset ++ List.replicate (offset - content.length) 0 ++
          data).length = offset + data.length := by rw [List.length_append, hfront]
      rw [List.getElem?_append_right (by omega), hlen, List.getElem?_drop]
      congr 2
      omega

theorem writeAt_outside (m : Medium) (f : File) (offset : ℕ) (data : List UInt8) {n : ℕ}
    (h : (writeAt m f offset data).1 = .ok n) {i : ℕ} (hi : i < offset ∨ offset + n ≤ i) :
    (writeAt m f offset data).2.content.getD i 0 = f.content.getD i 0 := by
  unfold writeAt at h ⊢
  cases hm : m.write offset data.length with
  | error err => simp [hm] at h
  | limit k =>
    simp only [hm, Except.ok.injEq] at h ⊢
    apply overwrite_outside
    rw [List.length_take]
    omega

theorem writeAt_count (m : Medium) (f : File) (offset : ℕ) (data : List UInt8) {n : ℕ}
    (h : (writeAt m f offset data).1 = .ok n) : n ≤ data.length := by
  unfold writeAt at h
  cases hm : m.write offset data.length with
  | error err => simp [hm] at h
  | limit k =>
    simp only [hm, Except.ok.injEq] at h
    omega

theorem writeAt_position (m : Medium) (f : File) (offset : ℕ) (data : List UInt8) :
    (writeAt m f offset data).2.position = f.position := by
  unfold writeAt
  cases m.write offset data.length <;> rfl

theorem writeAt_error (m : Medium) (f : File) (offset : ℕ) (data : List UInt8) {err : Errno}
    (h : (writeAt m f offset data).1 = .error err) : (writeAt m f offset data).2 = f := by
  unfold writeAt at h ⊢
  cases hm : m.write offset data.length with
  | error err => rfl
  | limit k => simp [hm] at h

end EasyioFileOps
