import EasyBD.EasybdHandlers

/-! Which byte offset a request acts at. The reference is a plain positional transfer at
the offset the request names, and `EINVAL` when that is no file offset. -/
namespace EasybdOffsets

open EasybdProtocol EasyioQueue EasyioFileOps EasybdHandlers

def ValidOffset (offset : UInt64) : Prop := offset.toNat < 2 ^ 63

instance (offset : UInt64) : Decidable (ValidOffset offset) :=
  inferInstanceAs (Decidable (_ < _))

inductive FileRequest where
  | read (cid offset size : UInt64)
  | write (cid offset : UInt64) (payload : List UInt8)
  | writeSync (cid offset : UInt64) (payload : List UInt8)

namespace FileRequest

def offset : FileRequest → UInt64
  | .read _ offset _ => offset
  | .write _ offset _ => offset
  | .writeSync _ offset _ => offset

def handler : FileRequest → Handler
  | .read cid offset size => .handleRead cid offset size
  | .write cid offset payload => .handleWrite cid offset payload false
  | .writeSync cid offset payload => .handleWrite cid offset payload true

/-- What the server answers and leaves behind. -/
def serve (b : Backend) (m : Medium) (f : File) (q : FileRequest) : Response × File :=
  match q.handler.perform b m f with
  | some (r, f) => (q.handler.respond r, f)
  | none => (q.handler.respond (.error einval), f)

/-- The reference: a positional transfer at exactly `q.offset`. -/
def transferAt (m : Medium) (f : File) (q : FileRequest) : FileResult × File :=
  if ValidOffset q.offset then
    match q with
    | .read _ offset size => (Handler.readResult (readAt m f offset.toNat size.toNat), f)
    | .write _ offset payload | .writeSync _ offset payload =>
      let r := writeAt m f offset.toNat payload
      (Handler.writeResult r.1, r.2)
  else (.error einval, f)

def flipSync : FileRequest → FileRequest
  | .read cid offset size => .read cid offset size
  | .write cid offset payload => .writeSync cid offset payload
  | .writeSync cid offset payload => .write cid offset payload

end FileRequest

open FileRequest

/-- On one backend, for every medium, file content and current position. -/
structure ActsAtOffset (b : Backend) (q : FileRequest) : Prop where
  result : ∀ m f, (q.serve b m f).1 = q.handler.respond (q.transferAt m f).1
  effect : ∀ m f, (q.serve b m f).2 = (q.transferAt m f).2
  confined : ∀ m f i,
    i < q.offset.toNat ∨ q.offset.toNat + (q.serve b m f).1.res.toNatClampNeg ≤ i →
    (q.serve b m f).2.content.getD i 0 = f.content.getD i 0
  rejected : ¬ ValidOffset q.offset → ∀ m f, (q.serve b m f).1.res < 0 ∧ (q.serve b m f).2 = f
  position : ∀ m f, (q.serve b m f).2.position = f.position

structure OffsetLaw (q : FileRequest) : Prop where
  acts : ∀ b, ActsAtOffset b q
  backends_agree : ∀ m f, q.serve .libc m f = q.serve .ioUring m f
  same_effect : ∀ b m f, (q.serve b m f).2.content = (q.flipSync.serve b m f).2.content

theorem toInt64_neg_iff (offset : UInt64) : offset.toInt64 < 0 ↔ ¬ ValidOffset offset := by
  have hlt := offset.toNat_lt
  have hint : offset.toInt64.toInt = (offset.toNat : ℤ).bmod (2 ^ 64) := by
    rw [← UInt64.ofNat_toNat (x := offset), UInt64.toInt64_ofNat', Int64.toInt_ofNat']
    simp
  rw [Int64.lt_iff_toInt_lt, hint, Int64.toInt_zero, ValidOffset, Int.bmod_def]
  omega

theorem toNat_of_valid {offset : UInt64} (h : ValidOffset offset) :
    offset.toInt64.toNatClampNeg = offset.toNat := by
  have hnn : 0 ≤ offset.toInt64 := by
    have := mt (toInt64_neg_iff offset).mp (not_not.mpr h)
    exact Int64.not_lt.mp this
  rw [← Int64.toNat_toUInt64_of_le hnn, UInt64.toUInt64_toInt64]

theorem sysPread_eq (m : Medium) (f : File) (size : ℕ) (offset : UInt64) :
    sysPread m f size offset.toInt64 =
      if ValidOffset offset then (readAt m f offset.toNat size, f) else (.error einval, f) := by
  by_cases h : ValidOffset offset
  · have hn : ¬ offset.toInt64 < 0 := fun hlt => (toInt64_neg_iff offset).mp hlt h
    rw [sysPread, if_neg hn, toNat_of_valid h, if_pos h]
  · rw [sysPread, if_pos ((toInt64_neg_iff offset).mpr h), if_neg h]

theorem sysPwrite_eq (m : Medium) (f : File) (data : List UInt8) (offset : UInt64) :
    sysPwrite m f data offset.toInt64 =
      if ValidOffset offset then writeAt m f offset.toNat data else (.error einval, f) := by
  by_cases h : ValidOffset offset
  · have hn : ¬ offset.toInt64 < 0 := fun hlt => (toInt64_neg_iff offset).mp hlt h
    rw [sysPwrite, if_neg hn, toNat_of_valid h, if_pos h]
  · rw [sysPwrite, if_pos ((toInt64_neg_iff offset).mpr h), if_neg h]

theorem transferAt_invalid {q : FileRequest} (h : ¬ ValidOffset q.offset) (m : Medium)
    (f : File) : q.transferAt m f = (.error einval, f) := if_neg h

theorem serve_read {q : FileRequest} {cid offset size : UInt64}
    (hq : q.handler = .handleRead cid offset size) (h : offset ≠ currentPosition) (b : Backend)
    (m : Medium) (f : File) :
    q.serve b m f =
      if ValidOffset offset then
        (q.handler.respond (Handler.readResult (readAt m f offset.toNat size.toNat)), f)
      else (q.handler.respond (.error einval), f) := by
  simp only [serve, hq, Handler.perform, pread_of_ne h, sysPread_eq]
  split <;> rfl

theorem serve_write {q : FileRequest} {cid offset : UInt64} {payload : List UInt8} {sync : Bool}
    (hq : q.handler = .handleWrite cid offset payload sync) (h : offset ≠ currentPosition)
    (b : Backend) (m : Medium) (f : File) :
    q.serve b m f =
      if ValidOffset offset then
        (q.handler.respond (Handler.writeResult (writeAt m f offset.toNat payload).1),
          (writeAt m f offset.toNat payload).2)
      else (q.handler.respond (.error einval), f) := by
  have hop : (if sync then pwriteDsync b m f payload offset else pwrite b m f payload offset) =
      sysPwrite m f payload offset.toInt64 := by
    cases sync with
    | false => exact pwrite_of_ne h b m f payload
    | true => exact pwriteDsync_of_ne h b m f payload
  simp only [serve, hq, Handler.perform, hop, sysPwrite_eq]
  split <;> rfl

theorem serve_of_ne {q : FileRequest} (h : q.offset ≠ currentPosition) (b : Backend) (m : Medium)
    (f : File) :
    q.serve b m f = (q.handler.respond (q.transferAt m f).1, (q.transferAt m f).2) := by
  by_cases hv : ValidOffset q.offset
  · cases q with
    | read cid offset size =>
      have ht : transferAt m f (.read cid offset size) =
          (Handler.readResult (readAt m f offset.toNat size.toNat), f) := if_pos hv
      rw [ht]
      exact (serve_read rfl h b m f).trans (if_pos hv)
    | write cid offset payload =>
      have ht : transferAt m f (.write cid offset payload) =
          (Handler.writeResult (writeAt m f offset.toNat payload).1,
            (writeAt m f offset.toNat payload).2) := if_pos hv
      rw [ht]
      exact (serve_write rfl h b m f).trans (if_pos hv)
    | writeSync cid offset payload =>
      have ht : transferAt m f (.writeSync cid offset payload) =
          (Handler.writeResult (writeAt m f offset.toNat payload).1,
            (writeAt m f offset.toNat payload).2) := if_pos hv
      rw [ht]
      exact (serve_write rfl h b m f).trans (if_pos hv)
  · rw [transferAt_invalid hv]
    cases q with
    | read cid offset size => exact (serve_read rfl h b m f).trans (if_neg hv)
    | write cid offset payload => exact (serve_write rfl h b m f).trans (if_neg hv)
    | writeSync cid offset payload => exact (serve_write rfl h b m f).trans (if_neg hv)

theorem transferAt_position (q : FileRequest) (m : Medium) (f : File) :
    (q.transferAt m f).2.position = f.position := by
  unfold transferAt
  split
  · cases q with
    | read => rfl
    | write => exact writeAt_position _ _ _ _
    | writeSync => exact writeAt_position _ _ _ _
  · rfl

theorem transferAt_flipSync (q : FileRequest) (m : Medium) (f : File) :
    q.flipSync.transferAt m f = q.transferAt m f := by
  cases q <;> rfl

theorem flipSync_offset (q : FileRequest) : q.flipSync.offset = q.offset := by
  cases q <;> rfl

theorem transferAt_confined {q : FileRequest} (hsize : q.handler.PassesSizeCheck) (m : Medium)
    (f : File) {i : ℕ} (hi : i < q.offset.toNat ∨
      q.offset.toNat + (q.handler.respond (q.transferAt m f).1).res.toNatClampNeg ≤ i) :
    (q.transferAt m f).2.content.getD i 0 = f.content.getD i 0 := by
  by_cases hv : ValidOffset q.offset
  · have written : ∀ offset payload, payload.length ≤ easybdMaxPayloadSize.toNat →
        (∀ n, (writeAt m f offset payload).1 = .ok n →
          i < offset ∨ offset + (Int64.ofNat n).toNatClampNeg ≤ i) →
        (writeAt m f offset payload).2.content.getD i 0 = f.content.getD i 0 := by
      intro offset payload hp hrange
      cases hw : (writeAt m f offset payload).1 with
      | error err => rw [writeAt_error m f offset payload hw]
      | ok n =>
        have hn : n ≤ payload.length := writeAt_count m f offset payload hw
        have hres : (Int64.ofNat n).toNatClampNeg = n := by
          rw [← Int64.toNat_toInt, count_res (hn.trans hp)]; rfl
        have := hrange n hw
        rw [hres] at this
        exact writeAt_outside m f offset payload hw this
    cases q with
    | read => simp only [transferAt, if_pos hv]
    | write cid offset payload =>
      simp only [transferAt, if_pos hv] at hi ⊢
      refine written _ _ hsize fun n hn => ?_
      rw [hn] at hi
      exact hi
    | writeSync cid offset payload =>
      simp only [transferAt, if_pos hv] at hi ⊢
      refine written _ _ hsize fun n hn => ?_
      rw [hn] at hi
      exact hi
  · rw [transferAt_invalid hv]

theorem acts_of_ne {q : FileRequest} (hsize : q.handler.PassesSizeCheck)
    (h : q.offset ≠ currentPosition) (b : Backend) : ActsAtOffset b q where
  result m f := by rw [serve_of_ne h]
  effect m f := by rw [serve_of_ne h]
  confined m f i hi := by
    rw [serve_of_ne h] at hi ⊢
    exact transferAt_confined hsize m f hi
  rejected hv m f := by
    rw [serve_of_ne h, transferAt_invalid hv]
    refine ⟨?_, rfl⟩
    cases q <;> exact errno_res_neg einval
  position m f := by
    rw [serve_of_ne h]
    exact transferAt_position q m f

def willing : Medium := ⟨fun _ size => .limit size, fun _ size => .limit size⟩

/-- At offset `-1` io_uring transfers at the current position instead of failing. -/
theorem uring_at_current_position (q : FileRequest) (hq : q.offset = currentPosition) :
    ∃ n, (q.serve .ioUring willing ⟨[], 0⟩).1.res = Int64.ofNat n ∧
      (q.handler.PassesSizeCheck → n ≤ easybdMaxPayloadSize.toNat) := by
  cases q with
  | read cid offset size =>
    change offset = currentPosition at hq
    subst hq
    refine ⟨((([] : List UInt8).drop 0).take (min size.toNat size.toNat)).length, rfl, ?_⟩
    simp
  | write cid offset payload =>
    change offset = currentPosition at hq
    subst hq
    exact ⟨min payload.length payload.length, rfl, fun h => (min_le_left _ _).trans h⟩
  | writeSync cid offset payload =>
    change offset = currentPosition at hq
    subst hq
    exact ⟨min payload.length payload.length, rfl, fun h => (min_le_left _ _).trans h⟩

/-- The offset law holds of a request exactly when it does not name offset `2^64 - 1`. -/
theorem offset_law_iff (q : FileRequest) (hsize : q.handler.PassesSizeCheck) :
    OffsetLaw q ↔ q.offset ≠ currentPosition := by
  constructor
  · intro law hq
    have hv : ¬ ValidOffset q.offset := by rw [hq]; decide
    obtain ⟨hneg, -⟩ := (law.acts .ioUring).rejected hv willing ⟨[], 0⟩
    obtain ⟨n, hn, hle⟩ := uring_at_current_position q hq
    rw [hn, Int64.lt_iff_toInt_lt, count_res (hle hsize), Int64.toInt_zero] at hneg
    omega
  · intro h
    refine ⟨acts_of_ne hsize h, fun m f => ?_, fun b m f => ?_⟩
    · rw [serve_of_ne h, serve_of_ne h]
    · have hflip : q.flipSync.offset ≠ currentPosition := by rwa [flipSync_offset]
      rw [serve_of_ne h, serve_of_ne hflip, transferAt_flipSync]

theorem offset_law_iff_first_block :
    (FileRequest.write 1 4096 [7, 7]).handler.PassesSizeCheck ∧
      OffsetLaw (.write 1 4096 [7, 7]) :=
  ⟨by decide, (offset_law_iff (.write 1 4096 [7, 7]) (by decide)).mpr (by decide)⟩

/-- A `WRITE` at offset `2^64 - 1` on an io_uring queue overwrites the bytes at the file
position, where the libc queue answers `EINVAL`. -/
theorem offset_law_fails_at_current_position :
    ¬ OffsetLaw (.write 1 currentPosition [7]) ∧
      (FileRequest.write 1 currentPosition [7]).serve .ioUring willing ⟨[0, 0], 1⟩ =
        (⟨1, 1, []⟩, ⟨[0, 7], 2⟩) ∧
      (FileRequest.write 1 currentPosition [7]).serve .libc willing ⟨[0, 0], 1⟩ =
        (⟨1, -22, []⟩, ⟨[0, 0], 1⟩) := by
  refine ⟨fun law => ?_, rfl, rfl⟩
  have := law.backends_agree willing ⟨[0, 0], 1⟩
  exact absurd this (by decide)

end EasybdOffsets
