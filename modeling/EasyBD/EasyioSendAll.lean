import Mathlib.Data.List.Basic

/-! The two `send_all` overloads as resumable loops. A value is the loop's state in front
of its next `send`/`sendmsg` call; `resume n` is the rest of the iteration once that call
has returned `n`. -/
namespace EasyioSendAll

inductive SendAll where
  | plain (buf : List UInt8) (off : ℕ)
  /-- `iov` lists the entries from index `first` on: no entry below it is read again. -/
  | gathered (iov : List (List UInt8)) (first sent total : ℕ)
  deriving DecidableEq, Repr

def sendAll (buf : List UInt8) : SendAll := .plain buf 0

def sendAllGathered (buf1 buf2 : List UInt8) : SendAll :=
  .gathered [buf1, buf2] 0 0 (buf1.length + buf2.length)

/-- The `while (n > 0)` loop. The result pairs the number of entries stepped over with the
entries left; `none` is a read of `iov[2]`. -/
def consume : List (List UInt8) → ℕ → Option (ℕ × List (List UInt8))
  | iov, 0 => some (0, iov)
  | [], _ + 1 => none
  | b :: iov, n + 1 =>
    if n + 1 < b.length then some (0, b.drop (n + 1) :: iov)
    else (consume iov (n + 1 - b.length)).map fun r => (r.1 + 1, r.2)

namespace SendAll

def Finished : SendAll → Prop
  | .plain buf off => buf.length ≤ off
  | .gathered _ _ sent total => total ≤ sent

instance (a : SendAll) : Decidable a.Finished := by
  cases a <;> simp only [Finished] <;> infer_instance

/-- The buffers the next call passes to the kernel. -/
def buffers : SendAll → List (List UInt8)
  | .plain buf off => [buf.drop off]
  | .gathered iov _ _ _ => iov

def rest (a : SendAll) : List UInt8 := a.buffers.flatten

def resume : SendAll → ℕ → Option SendAll
  | .plain buf off, n => some (.plain buf (off + n))
  | .gathered iov first sent total, n =>
    (consume iov n).map fun r => .gathered r.2 (first + r.1) (sent + n) total

/-- `sent` counts what the entries left no longer describe. -/
structure WellFormed (a : SendAll) : Prop where
  plain : ∀ buf off, a = .plain buf off → off ≤ buf.length
  entries : ∀ iov first sent total, a = .gathered iov first sent total → iov.length + first = 2
  counted : ∀ iov first sent total, a = .gathered iov first sent total →
    sent + iov.flatten.length = total

end SendAll

theorem consume_spec {iov : List (List UInt8)} {n : ℕ} (h : n ≤ iov.flatten.length) :
    ∃ k left, consume iov n = some (k, left) ∧ left.flatten = iov.flatten.drop n ∧
      left.length + k = iov.length := by
  induction iov generalizing n with
  | nil =>
    have h0 : n = 0 := by simpa using h
    subst h0
    exact ⟨0, [], by simp [consume], rfl, rfl⟩
  | cons b iov ih =>
    cases n with
    | zero => exact ⟨0, b :: iov, by simp [consume], rfl, rfl⟩
    | succ n =>
      by_cases hlt : n + 1 < b.length
      · refine ⟨0, b.drop (n + 1) :: iov, by simp [consume, hlt], ?_, rfl⟩
        rw [List.flatten_cons, List.flatten_cons, List.drop_append_of_le_length (by omega)]
      · have hrest : n + 1 - b.length ≤ iov.flatten.length := by
          rw [List.flatten_cons, List.length_append] at h
          omega
        obtain ⟨k, left, hr, hflat, hlen⟩ := ih hrest
        refine ⟨k + 1, left, by simp [consume, hlt, hr], ?_, ?_⟩
        · rw [hflat, List.flatten_cons, List.drop_append,
            List.drop_of_length_le (l := b) (by omega), List.nil_append]
        · rw [List.length_cons]
          omega

namespace SendAll

theorem wellFormed_sendAll (buf : List UInt8) : (sendAll buf).WellFormed where
  plain := by rintro _ _ ⟨⟩; exact Nat.zero_le _
  entries := by rintro _ _ _ _ ⟨⟩
  counted := by rintro _ _ _ _ ⟨⟩

theorem wellFormed_sendAllGathered (buf1 buf2 : List UInt8) :
    (sendAllGathered buf1 buf2).WellFormed where
  plain := by rintro _ _ ⟨⟩
  entries := by rintro _ _ _ _ ⟨⟩; rfl
  counted := by rintro _ _ _ _ ⟨⟩; simp

@[simp] theorem rest_sendAll (buf : List UInt8) : (sendAll buf).rest = buf := by
  simp [sendAll, rest, buffers]

@[simp] theorem rest_sendAllGathered (buf1 buf2 : List UInt8) :
    (sendAllGathered buf1 buf2).rest = buf1 ++ buf2 := by
  simp [sendAllGathered, rest, buffers]

theorem WellFormed.finished_iff {a : SendAll} (h : a.WellFormed) : a.Finished ↔ a.rest = [] := by
  cases a with
  | plain buf off =>
    have := h.plain _ _ rfl
    simp only [Finished, rest, buffers, List.flatten_cons, List.flatten_nil, List.append_nil,
      List.drop_eq_nil_iff]
  | gathered iov first sent total =>
    have := h.counted _ _ _ _ rfl
    rw [Finished, rest, buffers, ← List.length_eq_zero_iff]
    omega

/-- What one iteration does: the bytes the kernel took leave the front of the rest. -/
theorem WellFormed.resume {a : SendAll} (h : a.WellFormed) {n : ℕ} (hn : n ≤ a.rest.length) :
    ∃ b, a.resume n = some b ∧ b.WellFormed ∧ b.rest = a.rest.drop n := by
  cases a with
  | plain buf off =>
    have hoff := h.plain _ _ rfl
    simp only [rest, buffers, List.flatten_cons, List.flatten_nil, List.append_nil,
      List.length_drop] at hn
    refine ⟨.plain buf (off + n), rfl, ⟨?_, ?_, ?_⟩, ?_⟩
    · rintro _ _ ⟨⟩; omega
    · rintro _ _ _ _ ⟨⟩
    · rintro _ _ _ _ ⟨⟩
    · simp [rest, buffers]
  | gathered iov first sent total =>
    change n ≤ iov.flatten.length at hn
    obtain ⟨k, left, hr, hflat, hlen⟩ := consume_spec hn
    have hentries := h.entries _ _ _ _ rfl
    have hcounted := h.counted _ _ _ _ rfl
    refine ⟨.gathered left (first + k) (sent + n) total, by simp [SendAll.resume, hr],
      ⟨?_, ?_, ?_⟩, hflat⟩
    · rintro _ _ ⟨⟩
    · rintro _ _ _ _ ⟨⟩; omega
    · rintro _ _ _ _ ⟨⟩
      have hl : left.flatten.length = iov.flatten.length - n := by rw [hflat, List.length_drop]
      omega

end SendAll

end EasyioSendAll
