import EasyBD.BlockDevice
import EasyBD.EasybdOffsets
import EasyBD.EasybdEndToEndOutcomes

/-! All connections of a server over its one backing file. The kernel carries out a file
operation at one moment between its submission and its return; what a client has called and
what its callbacks were given is recorded in `marks`, newest first. An operation is named by its
connection and the cid of its request. -/
namespace EasybdBlockService

open TransitionRuns Linearizability BlockDevice EasybdProtocol EasyioQueue EasyioFileOps
open EasybdHandlers EasybdRequests EasybdOffsets EasybdEndToEndMatching

/-- Offset 2^64-1 names no place: the kernel takes it for the file's current position, and so it
is the device that chooses where such a request reads or writes. -/
def named (offset : UInt64) : Option ℕ :=
  if offset = currentPosition then none else some offset.toNat

def operation (q : Request) : Op :=
  if q.isRead then .read (named q.offset) q.size.toNat else .write (named q.offset) q.buf

def handlerOperation : Handler → Option Op
  | .handleRead _ offset size => some (.read (named offset) size.toNat)
  | .handleWrite _ offset payload _ => some (.write (named offset) payload)
  | .sendError _ _ => none

def isDurable : Handler → Bool
  | .handleWrite _ _ _ durable => durable
  | _ => false

def handlerOffset : Handler → UInt64
  | .handleWrite _ offset _ _ | .handleRead _ offset _ => offset
  | .sendError _ _ => 0

def outcome (r : FileResult) : Result := ⟨returnValue r, bytesRead r⟩

def device (content : List UInt8) : Device := ⟨content.length, fun i => content.getD i 0⟩

/-- A file operation that the kernel has carried out; `start` is where in the file. -/
structure Transfer (ι : Type*) where
  conn : ι
  id : ℕ
  handler : Handler
  result : FileResult
  start : ℕ
  deriving DecidableEq

structure Config (ι : Type*) where
  serverBackend : Backend
  clientBackend : ι → Backend
  syncWrites : ι → Bool
  file : File

/-- `disk` is what a power loss leaves; `synced` lists the operations that `RWF_DSYNC` has
brought there. -/
structure State (ι : Type*) where
  conns : ι → EasybdEndToEnd.State
  file : File
  disk : ℕ → UInt8
  transfers : List (Transfer ι)
  synced : List (ι × UInt64)
  marks : List (Mark (ι × UInt64) Op Result)

/-- `late` is the failure of a flush after the bytes have been written. -/
inductive Event (ι : Type*) where
  | conn (i : ι) (e : EasybdEndToEnd.Event)
  | transfer (i : ι) (id : ℕ) (h : Handler) (m : Medium) (late : Option Errno)
  | sync (t : Transfer ι)
  | writeBack (pos : ℕ)

variable {ι : Type*} [DecidableEq ι]

def initial (c : Config ι) : State ι where
  conns i := EasybdEndToEnd.initial (c.clientBackend i) c.serverBackend (c.syncWrites i)
  file := c.file
  disk := (device c.file.content).byte
  transfers := []
  synced := []
  marks := []

section Transfers

def Submitted (s : EasybdSession.State) (id : ℕ) (h : Handler) : Prop :=
  match s.backend with
  | .libc => s.stack.head? = some (.performing id h)
  | .ioUring => (id, h) ∈ s.files

def failsLate (late : Option Errno) (h : Handler) (r : FileResult) : FileResult :=
  match late with
  | some err => if isDurable h then .error err else r
  | none => r

def startOf (f : File) (h : Handler) : ℕ :=
  if handlerOffset h = currentPosition then f.position else (handlerOffset h).toNat

def succeeded : FileResult → Bool
  | .transferred _ _ => true
  | .error _ => false

def Settled (s : State ι) (i : ι) (id : ℕ) (h : Handler) (r : FileResult) : Prop :=
  (∃ t ∈ s.transfers, t.conn = i ∧ t.id = id ∧ t.handler = h ∧ t.result = r) ∧
    (isDurable h = true → succeeded r = true → (i, h.cid) ∈ s.synced)

/-- With io_uring the call itself can fail, for want of an SQE; nothing is carried out then. -/
def Allowed (s : State ι) (i : ι) : EasybdEndToEnd.Event → Prop
  | .session (.perform (.result r)) =>
    match (s.conns i).session.stack with
    | .performing id h :: _ =>
      (s.conns i).session.backend = .libc → Settled s i id h r
    | _ => False
  | .session (.fileReady id h r) => Settled s i id h r
  | _ => True

end Transfers

section Marks

def calls (i : ι) (before after : EasybdEndToEnd.State) : List (Mark (ι × UInt64) Op Result) :=
  ((after.client.requests.drop before.client.requests.length).map fun q =>
    .call (i, q.1) (operation q.2)).reverse

/-- What the callback of request `id` is given: `res`, and what is in the caller's buffer. -/
def seen (s : EasybdEndToEnd.State) (id : ℕ) (q : Request) (res : Int64) : Result :=
  ⟨res.toInt, if q.isRead then (buffer s id q).take res.toNatClampNeg else []⟩

/-- A callback that is told that the connection is gone is not told whether the operation was
carried out: its operation does not return. -/
def returnOf (i : ι) (s : EasybdEndToEnd.State) (a : ℕ × Int64) :
    Option (Mark (ι × UInt64) Op Result) :=
  if a.2 = negErrno econnreset then none
  else s.client.requests[a.1]?.map fun q => .ret (i, q.1) (seen s a.1 q.2 a.2)

def returns (i : ι) (before after : EasybdEndToEnd.State) : List (Mark (ι × UInt64) Op Result) :=
  (((EasybdClientReliable.results after.client.trace).drop
    (EasybdClientReliable.results before.client.trace).length).filterMap (returnOf i after)).reverse

/-- A call that io_uring has turned down counts as a transfer that failed. -/
def refusals (s : EasybdEndToEnd.State) (i : ι) :
    EasybdEndToEnd.Event → List (Mark (ι × UInt64) Op Result)
  | .session (.perform (.result r)) =>
    match s.session.stack with
    | .performing _ h :: _ =>
      if s.session.backend = .ioUring then
        ((handlerOperation h).map fun op => .effect (i, h.cid) op (outcome r)).toList
      else []
    | _ => []
  | _ => []

end Marks

def Enabled (s : State ι) : Event ι → Prop
  | .conn i e => EasybdEndToEnd.Enabled (s.conns i) e ∧ Allowed s i e
  | .transfer i id h _ _ =>
    Submitted (s.conns i).session id h ∧ ∀ t ∈ s.transfers, ¬ (t.conn = i ∧ t.id = id)
  | .sync t => t ∈ s.transfers
  | .writeBack _ => True

def next (s : State ι) : Event ι → State ι
  | .conn i e =>
    { s with
      conns := Function.update s.conns i (EasybdEndToEnd.next (s.conns i) e)
      marks := returns i (s.conns i) (EasybdEndToEnd.next (s.conns i) e) ++
        calls i (s.conns i) (EasybdEndToEnd.next (s.conns i) e) ++
        refusals (s.conns i) i e ++ s.marks }
  | .transfer i id h m late =>
    match h.perform (s.conns i).session.backend m s.file, handlerOperation h with
    | some (r, file), some op =>
      { s with
        file
        transfers := ⟨i, id, h, failsLate late h r, startOf s.file h⟩ :: s.transfers
        marks := .effect (i, h.cid) op (outcome (failsLate late h r)) :: s.marks }
    | _, _ => s
  | .sync t =>
    { s with
      synced := (t.conn, t.handler.cid) :: s.synced
      disk := fun k =>
        if t.start ≤ k ∧ (k : ℤ) < t.start + returnValue t.result then
          (device s.file.content).byte k
        else s.disk k }
  | .writeBack pos =>
    { s with disk := Function.update s.disk pos ((device s.file.content).byte pos) }

def machine : System (State ι) (Event ι) := ⟨Enabled, next⟩

def Permanent (s : State ι) : Event ι → Prop
  | .conn i e => EasybdEndToEndFallible.Permanent (s.conns i) e
  | _ => True

section Decidability

variable (s : State ι)

instance (u : EasybdSession.State) (id : ℕ) (h : Handler) : Decidable (Submitted u id h) := by
  unfold Submitted
  split
  · infer_instance
  · exact decidable_of_iff (∃ f ∈ u.files, f = (id, h)) exists_eq_right

instance (i : ι) (id : ℕ) (h : Handler) (r : FileResult) : Decidable (Settled s i id h r) :=
  inferInstanceAs (Decidable (_ ∧ _))

instance (i : ι) (e : EasybdEndToEnd.Event) : Decidable (Allowed s i e) := by
  unfold Allowed
  split
  · split <;> infer_instance
  · infer_instance
  · infer_instance

instance (e : Event ι) : Decidable (machine.Enabled s e) :=
  match e with
  | .conn i e => inferInstanceAs (Decidable (EasybdEndToEnd.Enabled (s.conns i) e ∧ _))
  | .transfer i id h _ _ => inferInstanceAs (Decidable (Submitted (s.conns i).session id h ∧ _))
  | .sync t => inferInstanceAs (Decidable (t ∈ s.transfers))
  | .writeBack _ => inferInstanceAs (Decidable True)

instance (e : Event ι) : Decidable (Permanent s e) :=
  match e with
  | .conn i e => inferInstanceAs (Decidable (EasybdEndToEndFallible.Permanent (s.conns i) e))
  | .transfer _ _ _ _ _ | .sync _ | .writeBack _ => inferInstanceAs (Decidable True)

end Decidability

section Device

variable {m : Medium} {f : File} {start : ℕ} {offset : Option ℕ}

theorem device_overwrite (content : List UInt8) (start : ℕ) (data : List UInt8) :
    device (overwrite content start data) = (device content).store start data := by
  by_cases hnil : data = []
  · subst hnil
    simp only [overwrite, device, Device.store, if_true, List.length_nil, Nat.add_zero]
    congr 1
    funext i
    rw [if_neg (by omega)]
  · have hsize : (overwrite content start data).length =
        max content.length (start + data.length) := by
      simp only [overwrite, if_neg hnil, List.length_append, List.length_take,
        List.length_replicate, List.length_drop]
      omega
    have hbyte : ∀ i, (overwrite content start data).getD i 0 =
        if start ≤ i ∧ i < start + data.length then data.getD (i - start) 0
        else content.getD i 0 := by
      intro i
      split
      · next inside =>
        have hfront : (content.take start ++ List.replicate (start - content.length) 0).length =
            start := by
          simp only [List.length_append, List.length_take, List.length_replicate]
          omega
        rw [overwrite, if_neg hnil, List.append_assoc _ data, List.getD_eq_getElem?_getD,
          List.getElem?_append_right (by omega), hfront, List.getElem?_append_left (by omega),
          ← List.getD_eq_getElem?_getD]
      · next outside => exact overwrite_outside content start data (by omega)
    simp only [device, Device.store, hsize, if_neg hnil, hbyte]

theorem readAt_step (place : Places (2 ^ 63) offset start) (size : ℕ) :
    Step (2 ^ 63) (device f.content) (.read offset size)
      (outcome (Handler.readResult (readAt m f start size))) (device f.content) := by
  unfold readAt
  cases m.read start size with
  | error err => exact .fails err.pos
  | limit n =>
    refine .reads place ?_ (fun hne => ?_) fun k b hk => ?_
    · rw [List.length_take]
      omega
    · have hpos := List.length_pos_iff.mpr hne
      simp only [List.length_take, List.length_drop] at hpos ⊢
      simp only [device]
      omega
    · obtain ⟨hlt, rfl⟩ := List.getElem?_eq_some_iff.mp hk
      simp only [List.length_take, List.length_drop] at hlt
      simp only [device, List.getElem_take, List.getElem_drop]
      rw [List.getD_eq_getElem?_getD, List.getElem?_eq_getElem (by omega), Option.getD_some]

theorem failed_step {d : Device} (op : Op) (late : Option Errno) (h : Handler) (err : Errno) :
    Step (2 ^ 63) d op (outcome (failsLate late h (.error err))) d := by
  cases late with
  | none => exact .fails err.pos
  | some err' =>
    simp only [failsLate]
    split
    · exact .fails err'.pos
    · exact .fails err.pos

theorem writeAt_step (place : Places (2 ^ 63) offset start) (data : List UInt8)
    (late : Option Errno) (h : Handler) :
    Step (2 ^ 63) (device f.content) (.write offset data)
      (outcome (failsLate late h (Handler.writeResult (writeAt m f start data).1)))
      (device (writeAt m f start data).2.content) := by
  unfold writeAt
  cases m.write start data.length with
  | error err => exact failed_step _ late h err
  | limit n =>
    have hwrites : Step (2 ^ 63) (device f.content) (.write offset data)
        ⟨(min n data.length : ℕ), []⟩
        ((device f.content).store start (data.take (min n data.length))) :=
      .writes place (Nat.min_le_right _ _)
    simp only [device_overwrite]
    cases late with
    | none => exact hwrites
    | some err =>
      simp only [failsLate]
      split
      · exact .failsLate place err.pos
      · exact hwrites

theorem places_named {wire : UInt64} (hne : wire ≠ currentPosition) (valid : ValidOffset wire) :
    Places (2 ^ 63) (named wire) wire.toNat := by
  intro o ho
  rw [named, if_neg hne] at ho
  obtain rfl := Option.some.inj ho
  exact ⟨rfl, valid⟩

theorem places_current (start : ℕ) : Places (2 ^ 63) (named currentPosition) start := by
  intro o ho
  cases ho

theorem read_step (b : Backend) (size : ℕ) (wire : UInt64) :
    Step (2 ^ 63) (device f.content) (.read (named wire) size)
      (outcome (Handler.readResult (pread b m f size wire).1))
      (device (pread b m f size wire).2.content) := by
  by_cases hne : wire = currentPosition
  · subst hne
    cases b with
    | libc => exact .fails einval.pos
    | ioUring =>
      have hstep := readAt_step (m := m) (f := f) (places_current f.position) size
      simp only [pread, uringRead, if_pos (show currentPosition = -1 from rfl), readAtPosition]
      cases hr : readAt m f f.position size with
      | error err => rwa [hr] at hstep
      | ok data => rwa [hr] at hstep
  · rw [pread_of_ne hne, sysPread_eq]
    split
    · next valid => exact readAt_step (places_named hne valid) size
    · exact .fails einval.pos

theorem writeAtPosition_step (data : List UInt8) (late : Option Errno) (h : Handler) :
    Step (2 ^ 63) (device f.content) (.write (named currentPosition) data)
      (outcome (failsLate late h (Handler.writeResult (writeAtPosition m f data).1)))
      (device (writeAtPosition m f data).2.content) := by
  have hstep := writeAt_step (m := m) (f := f) (places_current f.position) data late h
  unfold writeAtPosition
  cases hw : writeAt m f f.position data with
  | mk r file =>
    rw [hw] at hstep
    cases r with
    | error err => exact hstep
    | ok n => exact hstep

theorem sysPwrite_step (data : List UInt8) (wire : UInt64) (late : Option Errno) (h : Handler) :
    Step (2 ^ 63) (device f.content) (.write (named wire) data)
      (outcome (failsLate late h (Handler.writeResult (sysPwrite m f data wire.toInt64).1)))
      (device (sysPwrite m f data wire.toInt64).2.content) := by
  rw [sysPwrite_eq]
  split
  · next valid =>
    have hne : wire ≠ currentPosition := by
      rintro rfl
      exact absurd valid (by decide)
    exact writeAt_step (places_named hne valid) data late h
  · exact failed_step _ late h einval

theorem write_step (b : Backend) (data : List UInt8) (wire : UInt64) (durable : Bool)
    (late : Option Errno) (h : Handler) :
    Step (2 ^ 63) (device f.content) (.write (named wire) data)
      (outcome (failsLate late h (Handler.writeResult
        (if durable then pwriteDsync b m f data wire else pwrite b m f data wire).1)))
      (device (if durable then pwriteDsync b m f data wire
        else pwrite b m f data wire).2.content) := by
  by_cases hne : wire = currentPosition
  · subst hne
    cases b with
    | libc =>
      cases durable with
      | true => exact writeAtPosition_step data late h
      | false => exact sysPwrite_step (m := m) data currentPosition late h
    | ioUring => cases durable <;> exact writeAtPosition_step data late h
  · cases durable with
    | true =>
      simp only [if_true, pwriteDsync_of_ne hne]
      exact sysPwrite_step data wire late h
    | false =>
      simp only [Bool.false_eq_true, if_false, pwrite_of_ne hne]
      exact sysPwrite_step data wire late h

theorem transfer_step {b : Backend} {h : Handler} {r : FileResult} {file : File} {op : Op}
    (hperform : h.perform b m f = some (r, file)) (hop : handlerOperation h = some op)
    (late : Option Errno) :
    Step (2 ^ 63) (device f.content) op (outcome (failsLate late h r)) (device file.content) := by
  cases h with
  | sendError => cases hop
  | handleRead cid wire size =>
    obtain rfl := Option.some.inj hop
    obtain ⟨rfl, rfl⟩ := Prod.mk.inj (Option.some.inj hperform)
    have hlate : ∀ r, failsLate late (.handleRead cid wire size) r = r := by
      intro r
      cases late <;> rfl
    rw [hlate]
    exact read_step b size.toNat wire
  | handleWrite cid wire payload durable =>
    obtain rfl := Option.some.inj hop
    obtain ⟨rfl, rfl⟩ := Prod.mk.inj (Option.some.inj hperform)
    exact write_step b payload wire durable late _

end Device

end EasybdBlockService
