import Mathlib.Algebra.Order.Group.Multiset
import Mathlib.Tactic.Abel
import EasyBD.EntryLedger
import EasyBD.SerializedFrames
import EasyBD.EasyioQueue
import EasyBD.EasyioMutex
import EasyBD.EasyioSendAll

/-! Coroutines that run `auto guard = co_await lock_guard(mtx); co_await send_all(...)` on one
fd, whatever they are. Only the holder of the lock matters to the channel; it may be at a
`send`, back from one, or about to destroy its guard. -/
namespace EasyioSenders

open SerializedFrames EasyioQueue EasyioMutex EasyioSendAll

variable {κ : Type*}

inductive Holder (κ : Type*) where
  | sending (c : κ)
  | back (c : κ) (count : Option ℕ)
  | leaving (c : κ)
  deriving DecidableEq

/-- `log` is newest first. -/
structure Channel (κ : Type*) where
  mutex : Mutex κ
  holders : Multiset (Holder κ)
  log : List (Op UInt8)

def Channel.initial : Channel κ := ⟨.initial, 0, []⟩

/-- How a kind of coroutine keeps its `send_all`. -/
structure Sender (κ : Type*) where
  send : κ → SendAll
  resumed : κ → ℕ → κ
  send_resumed : ∀ c n, send (resumed c n) = ((send c).resume n).getD (send c)

variable (S : Sender κ)

/-- One step on the channel; `entering` is the coroutine that has just called `lock_guard`. -/
inductive ChannelStep (ch : Channel κ) : Option κ → Channel κ → Prop where
  | same : ChannelStep ch none ch
  | enters (c : κ) (free : ch.mutex.locked = false) : ChannelStep ch (some c)
      ⟨ch.mutex.take, .sending c ::ₘ ch.holders, .acquire (S.send c).rest :: ch.log⟩
  | queues (c : κ) (busy : ch.mutex.locked = true) : ChannelStep ch (some c)
      ⟨ch.mutex.wait c, ch.holders, ch.log⟩
  | accepts (c : κ) (n : ℕ) (others : Multiset (Holder κ))
      (holders : ch.holders = .sending c ::ₘ others) (pos : 0 < n)
      (le : n ≤ (S.send c).rest.length) :
      ChannelStep ch none
        ⟨ch.mutex, .back c (some n) ::ₘ others, .accept ((S.send c).rest.take n) :: ch.log⟩
  | refuses (c : κ) (others : Multiset (Holder κ)) (holders : ch.holders = .sending c ::ₘ others) :
      ChannelStep ch none ⟨ch.mutex, .back c none ::ₘ others, ch.log⟩
  | sendsOn (c : κ) (n : ℕ) (others : Multiset (Holder κ))
      (holders : ch.holders = .back c (some n) ::ₘ others)
      (more : ¬ (S.send (S.resumed c n)).Finished) :
      ChannelStep ch none ⟨ch.mutex, .sending (S.resumed c n) ::ₘ others, ch.log⟩
  | sent (c : κ) (n : ℕ) (others : Multiset (Holder κ))
      (holders : ch.holders = .back c (some n) ::ₘ others)
      (finished : (S.send (S.resumed c n)).Finished) :
      ChannelStep ch none ⟨ch.mutex, .leaving c ::ₘ others, ch.log⟩
  | throws (c : κ) (others : Multiset (Holder κ)) (holders : ch.holders = .back c none ::ₘ others) :
      ChannelStep ch none ⟨ch.mutex, .leaving c ::ₘ others, .fail :: ch.log⟩
  | handsOver (c d : κ) (waiters : List κ) (others : Multiset (Holder κ))
      (holders : ch.holders = .leaving c ::ₘ others) (waiting : ch.mutex.waiters = d :: waiters) :
      ChannelStep ch none ⟨{ ch.mutex with waiters }, .sending d ::ₘ others,
        .acquire (S.send d).rest :: .release :: ch.log⟩
  | frees (c : κ) (others : Multiset (Holder κ)) (holders : ch.holders = .leaving c ::ₘ others)
      (alone : ch.mutex.waiters = []) :
      ChannelStep ch none ⟨{ ch.mutex with locked := false }, others, .release :: ch.log⟩

theorem ChannelStep.of_same {S : Sender κ} {ch ch' : Channel κ}
    (hmutex : ch'.mutex = ch.mutex) (hholders : ch'.holders = ch.holders)
    (hlog : ch'.log = ch.log) : ChannelStep S ch none ch' := by
  have heq : ch' = ch := by
    cases ch
    cases ch'
    simp_all
  rw [heq]
  exact .same

section Places

variable {φ : Type*} {frame : φ → Multiset (Holder κ)} {io : List κ} {cq : List (κ × Option ℕ)}
  {stack : List φ} {c : κ} {count : Option ℕ}

/-- The holders of the lock: suspended in a `send`, with its completion posted, or running. -/
def places (frame : φ → Multiset (Holder κ)) (io : List κ) (cq : List (κ × Option ℕ))
    (stack : List φ) : Multiset (Holder κ) :=
  io.map Holder.sending + (cq.map fun c => Holder.back c.1 c.2 : List (Holder κ)) +
    (stack.map frame).sum

@[simp] theorem places_nil : places frame [] [] [] = 0 := rfl

@[simp] theorem places_frame (f : φ) :
    places frame io cq (f :: stack) = frame f + places frame io cq stack := by
  simp only [places, List.map_cons, List.sum_cons]
  abel

@[simp] theorem places_io :
    places frame (io ++ [c]) cq stack = .sending c ::ₘ places frame io cq stack := by
  simp only [places, List.map_append, List.map_cons, List.map_nil, ← Multiset.coe_add,
    Multiset.coe_singleton, ← Multiset.singleton_add]
  abel

@[simp] theorem places_cq :
    places frame io (cq ++ [(c, count)]) stack = .back c count ::ₘ places frame io cq stack := by
  simp only [places, List.map_append, List.map_cons, List.map_nil, ← Multiset.coe_add,
    Multiset.coe_singleton, ← Multiset.singleton_add]
  abel

variable [DecidableEq κ]

theorem places_io_erase (h : c ∈ io) :
    places frame io cq stack = .sending c ::ₘ places frame (io.erase c) cq stack := by
  simp only [places, EntryLedger.coe_map_erase h, ← Multiset.singleton_add]
  abel

theorem places_cq_erase (h : (c, count) ∈ cq) :
    places frame io cq stack = .back c count ::ₘ places frame io (cq.erase (c, count)) stack := by
  simp only [places, EntryLedger.coe_map_erase h, ← Multiset.singleton_add]
  abel

end Places

section Outcomes

def takenOps (a : SendAll) : SendOutcome → List (Op UInt8)
  | .accepted n => [.accept (a.rest.take n)]
  | _ => []

variable {a : SendAll} {o : SendOutcome} {log : List (Op UInt8)}

theorem fail_mem_takenOps : .fail ∈ takenOps a o ++ log ↔ .fail ∈ log := by
  cases o <;> simp [takenOps]

theorem sticky_takenOps (h : Sticky log) (ht : ∀ n, o = .accepted n → ¬ Torn log) :
    Sticky (takenOps a o ++ log) := by
  cases o with
  | accepted n => exact ⟨ht n rfl, h⟩
  | suspended => exact h
  | failed => exact h

theorem ChannelStep.comesBack {S : Sender κ} {ch ch' : Channel κ} (c : κ)
    (others : Multiset (Holder κ)) (hmutex : ch'.mutex = ch.mutex)
    (before : ch.holders = .sending c ::ₘ others) (after : ch'.holders = .back c o.count ::ₘ others)
    (hlog : ch'.log = takenOps (S.send c) o ++ ch.log) (settled : o ≠ .suspended)
    (within : o.Within (S.send c).rest.length) : ChannelStep S ch none ch' := by
  obtain ⟨mutex, holders, log⟩ := ch'
  obtain ⟨rfl, rfl, rfl⟩ : mutex = ch.mutex ∧ _ ∧ _ := ⟨hmutex, after, hlog⟩
  cases o with
  | suspended => contradiction
  | accepted n => exact .accepts c n others before within.1 within.2
  | failed => exact .refuses c others before

end Outcomes

structure Unsent (a : SendAll) : Prop where
  wellFormed : a.WellFormed
  rest : a.rest ≠ []

/-- What the channel has had of the holder's frame. -/
def Holder.Fits (p : Phase UInt8) : Holder κ → Prop
  | .sending c => Unsent (S.send c) ∧
      ∃ frame k, p = .sending frame k ∧ (S.send c).rest = frame.drop k
  | .back c (some n) => (S.send c).WellFormed ∧ 0 < n ∧ n ≤ (S.send c).rest.length ∧
      ∃ frame k, p = .sending frame (k + n) ∧ (S.send c).rest = frame.drop k
  | .back _ none => ∃ frame k, p = .sending frame k
  | .leaving _ => (∃ frame, p = .sending frame frame.length) ∨ ∃ frame k, p = .failed frame k

structure Channel.Ok (ch : Channel κ) : Prop where
  exclusive : ch.mutex.Exclusive ch.holders.card
  serial : Serial ch.log
  idle : ch.holders = 0 → phase ch.log = .idle
  fits : ∀ h ∈ ch.holders, h.Fits S (phase ch.log)
  fresh : ∀ c ∈ ch.mutex.waiters, Unsent (S.send c)

theorem Channel.Ok.initial : (Channel.initial : Channel κ).Ok S where
  exclusive := .initial
  serial := trivial
  idle _ := rfl
  fits h hm := absurd hm (Multiset.notMem_zero h)
  fresh := by rintro c ⟨⟩

variable {S}

theorem Channel.Ok.alone {ch : Channel κ} (h : ch.Ok S) {a : Holder κ}
    {others : Multiset (Holder κ)} (hh : ch.holders = a ::ₘ others) :
    others = 0 ∧ ch.mutex.Exclusive 1 ∧ a.Fits S (phase ch.log) := by
  have hle := h.exclusive.le_one
  rw [hh, Multiset.card_cons] at hle
  have hzero : others = 0 := Multiset.card_eq_zero.mp (by omega)
  have hex := h.exclusive
  rw [hh, hzero, Multiset.cons_zero, Multiset.card_singleton] at hex
  exact ⟨hzero, hex, h.fits a (by rw [hh]; exact Multiset.mem_cons_self _ _)⟩

/-- How an invariant with one holder is rebuilt. -/
theorem Channel.Ok.single {mutex : Mutex κ} {a : Holder κ} {log : List (Op UInt8)}
    (exclusive : mutex.Exclusive 1) (serial : Serial log) (fits : a.Fits S (phase log))
    (fresh : ∀ c ∈ mutex.waiters, Unsent (S.send c)) :
    (⟨mutex, a ::ₘ 0, log⟩ : Channel κ).Ok S where
  exclusive := by simpa using exclusive
  serial := serial
  idle (h : a ::ₘ 0 = 0) := (Multiset.cons_ne_zero h).elim
  fits h hm := by
    rw [Multiset.cons_zero, Multiset.mem_singleton] at hm
    exact hm ▸ fits
  fresh := fresh

theorem Channel.Ok.step {ch ch' : Channel κ} {entering : Option κ} (h : ch.Ok S)
    (hfresh : ∀ c ∈ entering, Unsent (S.send c)) (step : ChannelStep S ch entering ch') :
    ch'.Ok S := by
  cases step with
  | same => exact h
  | enters c free =>
    have hzero : ch.holders = 0 := by
      have hheld := h.exclusive.held
      rw [free] at hheld
      exact Multiset.card_eq_zero.mp hheld
    have hex := h.exclusive.take free
    rw [hzero, Multiset.card_zero, Nat.zero_add] at hex
    rw [hzero]
    exact .single hex ⟨h.idle hzero, h.serial⟩
      ⟨hfresh c rfl, _, 0, rfl, List.drop_zero.symm⟩ h.fresh
  | queues c busy =>
    refine ⟨h.exclusive.wait busy c, h.serial, h.idle, h.fits, fun d hd => ?_⟩
    rcases List.mem_append.mp hd with hd | hd
    · exact h.fresh d hd
    · exact hfresh d (by rw [List.mem_singleton.mp hd]; rfl)
  | accepts c n others hh pos le =>
    obtain ⟨rfl, hex, hunsent, frame, k, hp, hrest⟩ := h.alone hh
    have hlen : ((S.send c).rest.take n).length = n := by simp [le]
    have hne : (S.send c).rest.take n ≠ [] := by
      intro hnil
      rw [hnil] at hlen
      exact pos.ne hlen
    refine .single hex ⟨⟨hne, frame, k, hp, ?_⟩, h.serial⟩
      ⟨hunsent.wellFormed, pos, le, frame, k, ?_, hrest⟩ h.fresh
    · rw [← hrest]
      exact List.take_prefix _ _
    · rw [phase_cons, hp, Phase.after, hlen]
  | refuses c others hh =>
    obtain ⟨rfl, hex, -, frame, k, hp, -⟩ := h.alone hh
    exact .single hex h.serial ⟨frame, k, hp⟩ h.fresh
  | sendsOn c n others hh more =>
    obtain ⟨rfl, hex, hwf, pos, le, frame, k, hp, hrest⟩ := h.alone hh
    obtain ⟨b, hb, hbwf, hbrest⟩ := hwf.resume le
    have hsend : S.send (S.resumed c n) = b := by rw [S.send_resumed, hb, Option.getD_some]
    rw [hsend] at more
    refine .single hex h.serial ⟨?_, frame, k + n, hp, ?_⟩ h.fresh
    · rw [hsend]
      exact ⟨hbwf, fun hnil => more (hbwf.finished_iff.mpr hnil)⟩
    · rw [hsend, hbrest, hrest, List.drop_drop]
  | sent c n others hh finished =>
    obtain ⟨rfl, hex, hwf, pos, le, frame, k, hp, hrest⟩ := h.alone hh
    obtain ⟨b, hb, hbwf, hbrest⟩ := hwf.resume le
    rw [S.send_resumed, hb, Option.getD_some, hbwf.finished_iff, hbrest,
      List.drop_eq_nil_iff] at finished
    refine .single hex h.serial (Or.inl ⟨frame, ?_⟩) h.fresh
    rw [hrest, List.length_drop] at finished le
    rw [hp, show k + n = frame.length by omega]
  | throws c others hh =>
    obtain ⟨rfl, hex, frame, k, hp⟩ := h.alone hh
    exact .single hex ⟨⟨frame, k, hp⟩, h.serial⟩
      (Or.inr ⟨frame, k, by rw [phase_cons, hp]; rfl⟩) h.fresh
  | handsOver c d waiters others hh waiting =>
    obtain ⟨rfl, hex, hp⟩ := h.alone hh
    have hunlock := hex.unlock
    simp only [Mutex.unlock, waiting, Option.isSome_some, if_true] at hunlock
    exact .single hunlock ⟨rfl, hp, h.serial⟩
      ⟨h.fresh d (by rw [waiting]; exact List.mem_cons_self), _, 0, rfl, List.drop_zero.symm⟩
      fun x hx => h.fresh x (by rw [waiting]; exact List.mem_cons_of_mem _ hx)
  | frees c others hh alone =>
    obtain ⟨rfl, hex, hp⟩ := h.alone hh
    have hunlock := hex.unlock
    simp only [Mutex.unlock, alone, Option.isSome_none, Bool.false_eq_true, if_false] at hunlock
    exact ⟨by simpa [alone] using hunlock, ⟨hp, h.serial⟩, fun _ => rfl,
      fun a ha => absurd ha (Multiset.notMem_zero a), fun d hd => h.fresh d hd⟩

theorem Channel.Ok.leaving_step {ch ch' : Channel κ} {entering : Option κ} {c : κ} (h : ch.Ok S)
    (step : ChannelStep S ch entering ch') (before : .leaving c ∈ ch.holders)
    (after : .leaving c ∈ ch'.holders) : ch'.log = ch.log := by
  have other {a : Holder κ} {others : Multiset (Holder κ)} (hh : ch.holders = a ::ₘ others) :
      a = .leaving c := by
    rw [hh, (h.alone hh).1, Multiset.cons_zero, Multiset.mem_singleton] at before
    exact before.symm
  cases step with
  | same | queues => rfl
  | enters d free =>
    have hheld := h.exclusive.held
    rw [free] at hheld
    rw [Multiset.card_eq_zero.mp hheld] at before
    exact absurd before (Multiset.notMem_zero _)
  | accepts d n others hh => cases other hh
  | refuses d others hh => rfl
  | sendsOn d n others hh => rfl
  | sent d n others hh => rfl
  | throws d others hh => cases other hh
  | handsOver d e waiters others hh =>
    rw [(h.alone hh).1, Multiset.cons_zero, Multiset.mem_singleton] at after
    cases after
  | frees d others hh =>
    rw [(h.alone hh).1] at after
    exact absurd after (Multiset.notMem_zero _)

/-- The frames in the order in which `lock_guard` was called for them. -/
def Channel.order (S : Sender κ) (ch : Channel κ) : List (List UInt8) :=
  acquired ch.log ++ ch.mutex.waiters.map fun c => (S.send c).rest

theorem Channel.Ok.order_step {ch ch' : Channel κ} {entering : Option κ} (h : ch.Ok S)
    (step : ChannelStep S ch entering ch') :
    ch'.order S = ch.order S ++ (entering.map fun c => (S.send c).rest).toList := by
  cases step with
  | enters c free =>
    have hnil : ch.mutex.waiters = [] := by
      by_contra hne
      exact absurd (h.exclusive.waiting hne) (by simp [free])
    simp [order, acquired, Mutex.take, hnil]
  | queues c busy => simp [order, Mutex.wait]
  | handsOver c d waiters others hh waiting => simp [order, acquired, waiting]
  | frees c others hh alone => simp [order, acquired, alone]
  | _ => simp [order, acquired]

theorem ChannelStep.wire_grows {ch ch' : Channel κ} {entering : Option κ}
    (step : ChannelStep S ch entering ch') : (wire ch.log).IsPrefix (wire ch'.log) := by
  cases step with
  | accepts c n others holders pos le => exact List.prefix_append _ _
  | _ => exact List.prefix_rfl

theorem Channel.Ok.waiters_of_no_holder {ch : Channel κ} (h : ch.Ok S) (hzero : ch.holders = 0) :
    ch.mutex.waiters = [] := by
  have hheld := h.exclusive.held
  rw [hzero, Multiset.card_zero] at hheld
  by_contra hne
  rw [h.exclusive.waiting hne] at hheld
  simp at hheld

/-- On a channel on which nothing has failed: what it has taken of the frames queued for it. -/
theorem Channel.Ok.wire_prefix_order {ch : Channel κ} (h : ch.Ok S) (hf : Op.fail ∉ ch.log) :
    (wire ch.log).IsPrefix (ch.order S).flatten := by
  refine (wire_prefix_acquired h.serial hf).trans ?_
  rw [order, List.flatten_append]
  exact List.prefix_append _ _

theorem Channel.Ok.wire_eq_order {ch : Channel κ} (h : ch.Ok S) (hf : Op.fail ∉ ch.log)
    (hzero : ch.holders = 0) : wire ch.log = (ch.order S).flatten := by
  rw [wire_eq_acquired h.serial hf (h.idle hzero), order, h.waiters_of_no_holder hzero]
  simp

section Frames

def Holder.coroutine : Holder κ → κ
  | .sending c | .back c _ | .leaving c => c

variable {β : Type*} {label : List UInt8 → β} {key : κ → β} {frame : κ → List UInt8}

structure Channel.Labelled (S : Sender κ) (label : List UInt8 → β) (key : κ → β)
    (ch : Channel κ) : Prop where
  holders : ∀ h ∈ ch.holders, (phase ch.log).frame.map label = some (key h.coroutine)
  waiters : ∀ c ∈ ch.mutex.waiters, label (S.send c).rest = key c

theorem Channel.Labelled.initial : (Channel.initial : Channel κ).Labelled S label key where
  holders h hm := absurd hm (Multiset.notMem_zero h)
  waiters := by rintro c ⟨⟩

theorem Channel.Labelled.single {mutex : Mutex κ} {a : Holder κ} {log : List (Op UInt8)}
    (holder : (phase log).frame.map label = some (key a.coroutine))
    (waiters : ∀ c ∈ mutex.waiters, label (S.send c).rest = key c) :
    (⟨mutex, a ::ₘ 0, log⟩ : Channel κ).Labelled S label key where
  holders h hm := by
    rw [Multiset.cons_zero, Multiset.mem_singleton] at hm
    exact hm ▸ holder
  waiters := waiters

theorem Channel.Labelled.step {ch ch' : Channel κ} {entering : Option κ}
    (h : ch.Labelled S label key) (hok : ch.Ok S) (hresumed : ∀ c n, key (S.resumed c n) = key c)
    (hentering : ∀ c ∈ entering, label (S.send c).rest = key c)
    (step : ChannelStep S ch entering ch') : ch'.Labelled S label key := by
  have holder {a : Holder κ} {others : Multiset (Holder κ)} (hh : ch.holders = a ::ₘ others) :
      others = 0 ∧ (phase ch.log).frame.map label = some (key a.coroutine) :=
    ⟨(hok.alone hh).1, h.holders a (by rw [hh]; exact Multiset.mem_cons_self _ _)⟩
  cases step with
  | same => exact h
  | enters c free =>
    have hzero : ch.holders = 0 := by
      have hheld := hok.exclusive.held
      rw [free] at hheld
      exact Multiset.card_eq_zero.mp hheld
    rw [hzero]
    exact .single (congrArg some (hentering c rfl)) h.waiters
  | queues c busy =>
    refine ⟨h.holders, fun d hd => ?_⟩
    rcases List.mem_append.mp hd with hd | hd
    · exact h.waiters d hd
    · exact hentering d (by rw [List.mem_singleton.mp hd]; rfl)
  | accepts c n others hh pos le =>
    obtain ⟨rfl, hframe⟩ := holder hh
    exact .single (by rw [phase_cons, Phase.frame_accept, hframe]; rfl) h.waiters
  | refuses c others hh =>
    obtain ⟨rfl, hframe⟩ := holder hh
    exact .single hframe h.waiters
  | sendsOn c n others hh more =>
    obtain ⟨rfl, hframe⟩ := holder hh
    exact .single (hframe.trans (congrArg some (hresumed c n).symm)) h.waiters
  | sent c n others hh finished =>
    obtain ⟨rfl, hframe⟩ := holder hh
    exact .single hframe h.waiters
  | throws c others hh =>
    obtain ⟨rfl, hframe⟩ := holder hh
    exact .single (by rw [phase_cons, Phase.frame_fail, hframe]; rfl) h.waiters
  | handsOver c d waiters others hh waiting =>
    obtain ⟨rfl, -⟩ := holder hh
    exact .single (congrArg some (h.waiters d (by rw [waiting]; exact List.mem_cons_self)))
      fun x hx => h.waiters x (by rw [waiting]; exact List.mem_cons_of_mem _ hx)
  | frees c others hh alone =>
    obtain ⟨rfl, -⟩ := holder hh
    exact ⟨fun a ha => absurd ha (Multiset.notMem_zero a), fun d hd => h.waiters d hd⟩

structure Channel.Framed (S : Sender κ) (frame : κ → List UInt8) (ch : Channel κ) : Prop where
  holders : ∀ h ∈ ch.holders, (phase ch.log).frame = some (frame h.coroutine)
  waiters : ∀ c ∈ ch.mutex.waiters, (S.send c).rest = frame c

theorem Channel.framed_iff {ch : Channel κ} : ch.Framed S frame ↔ ch.Labelled S id frame := by
  constructor
  · exact fun h => ⟨fun a ha => by rw [Option.map_id_fun, h.holders a ha]; rfl, h.waiters⟩
  · exact fun h => ⟨fun a ha => by rw [← h.holders a ha, Option.map_id_fun]; rfl, h.waiters⟩

theorem Channel.Framed.initial : (Channel.initial : Channel κ).Framed S frame :=
  Channel.framed_iff.mpr .initial

theorem Channel.Framed.step {ch ch' : Channel κ} {entering : Option κ} (h : ch.Framed S frame)
    (hok : ch.Ok S) (hresumed : ∀ c n, frame (S.resumed c n) = frame c)
    (hentering : ∀ c ∈ entering, (S.send c).rest = frame c)
    (step : ChannelStep S ch entering ch') : ch'.Framed S frame :=
  Channel.framed_iff.mpr ((Channel.framed_iff.mp h).step hok hresumed hentering step)

end Frames

end EasyioSenders
