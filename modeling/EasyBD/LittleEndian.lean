import Mathlib.Data.List.Basic
import Mathlib.Tactic.Ring

/-! Fixed-width little-endian byte strings of naturals, least significant byte first. -/
namespace LittleEndian

def encode : ℕ → ℕ → List UInt8
  | 0, _ => []
  | w + 1, n => UInt8.ofNat n :: encode w (n / 256)

def decode (bs : List UInt8) : ℕ := bs.foldr (fun b n => b.toNat + 256 * n) 0

@[simp] theorem decode_nil : decode [] = 0 := rfl

@[simp] theorem decode_cons (b : UInt8) (bs : List UInt8) :
    decode (b :: bs) = b.toNat + 256 * decode bs := rfl

@[simp] theorem encode_length (w n : ℕ) : (encode w n).length = w := by
  induction w generalizing n with
  | zero => rfl
  | succ w ih => simp [encode, ih]

theorem decode_encode {w n : ℕ} (h : n < 256 ^ w) : decode (encode w n) = n := by
  induction w generalizing n with
  | zero => simp only [pow_zero] at h; simp only [encode, decode_nil]; omega
  | succ w ih =>
    have hq : n / 256 < 256 ^ w := by
      rw [pow_succ] at h
      omega
    have hb : (UInt8.ofNat n).toNat = n % 256 := by simp
    rw [encode, decode_cons, ih hq, hb]
    omega

theorem decode_lt (bs : List UInt8) : decode bs < 256 ^ bs.length := by
  induction bs with
  | nil => simp
  | cons b bs ih =>
    have hb := b.toNat_lt
    rw [decode_cons, List.length_cons, pow_succ]
    omega

theorem encode_decode (bs : List UInt8) : encode bs.length (decode bs) = bs := by
  induction bs with
  | nil => rfl
  | cons b bs ih =>
    have hb := b.toNat_lt
    have hlow : UInt8.ofNat (b.toNat + 256 * decode bs) = b := by
      apply UInt8.toNat_inj.mp
      rw [UInt8.toNat_ofNat']
      omega
    have hhigh : (b.toNat + 256 * decode bs) / 256 = decode bs := by omega
    rw [List.length_cons, decode_cons, encode, hlow, hhigh, ih]

end LittleEndian
