import EasyBD.CarriedFrames
import EasyBD.EasyioSenders

/-! Coroutines that send frames on a socket that may break under them: one that throws has not
got to the end of its frame. -/
namespace EasyioFallibleSenders

open SerializedFrames CarriedFrames EasyioMutex EasyioSenders

variable {κ : Type*} {S : Sender κ} {ch ch' : Channel κ} {entering : Option κ}

structure ThrowsEarly (ch : Channel κ) : Prop where
  log : Premature ch.log
  back : ∀ c, .back c none ∈ ch.holders →
    ∃ frame n, phase ch.log = .sending frame n ∧ n < frame.length

theorem ThrowsEarly.initial : ThrowsEarly (Channel.initial : Channel κ) :=
  ⟨trivial, fun _ hc => absurd hc (Multiset.notMem_zero _)⟩

theorem ThrowsEarly.single {mutex : Mutex κ} {a : Holder κ} {log : List (Op UInt8)}
    (hlog : Premature log) (ha : ∀ c, a ≠ .back c none) :
    ThrowsEarly (⟨mutex, a ::ₘ 0, log⟩ : Channel κ) where
  log := hlog
  back c hc := by
    rw [Multiset.cons_zero, Multiset.mem_singleton] at hc
    exact absurd hc.symm (ha c)

theorem throwsEarly_step (h : ThrowsEarly ch) (hok : ch.Ok S)
    (step : ChannelStep S ch entering ch') : ThrowsEarly ch' := by
  cases step with
  | same => exact h
  | enters c free =>
    have hzero : ch.holders = 0 := by
      have hheld := hok.exclusive.held
      rw [free] at hheld
      exact Multiset.card_eq_zero.mp hheld
    rw [hzero]
    exact .single h.log (by simp)
  | queues c busy => exact ⟨h.log, h.back⟩
  | refuses c others hh =>
    obtain ⟨rfl, -, hunsent, frame, k, hp, hrest⟩ := hok.alone hh
    refine ⟨h.log, fun _ _ => ⟨frame, k, hp, ?_⟩⟩
    by_contra hle
    exact hunsent.rest (by rw [hrest, List.drop_eq_nil_iff]; omega)
  | throws c others hh =>
    obtain ⟨rfl, -⟩ := hok.alone hh
    obtain ⟨frame, n, hp, hlt⟩ := h.back c (by rw [hh]; exact Multiset.mem_cons_self _ _)
    refine .single ⟨fun frame' n' hp' => ?_, h.log⟩ (by simp)
    obtain ⟨rfl, rfl⟩ := Phase.sending.inj (hp.symm.trans hp')
    exact hlt
  | frees c others hh alone =>
    obtain ⟨rfl, -⟩ := hok.alone hh
    exact ⟨h.log, fun _ hc => absurd hc (Multiset.notMem_zero _)⟩
  | accepts c n others hh | sendsOn c n others hh | sent c n others hh
  | handsOver c d waiters others hh =>
    obtain ⟨rfl, -⟩ := hok.alone hh
    exact .single h.log (by simp)

theorem carried_step (step : ChannelStep S ch entering ch') :
    (carried ch.log).IsPrefix (carried ch'.log) := by
  cases step with
  | handsOver => exact (carried_grows _ _).trans (carried_grows _ _)
  | enters | accepts | throws | frees => exact carried_grows _ _
  | same | queues | refuses | sendsOn | sent => exact List.prefix_rfl

theorem dropped_step (step : ChannelStep S ch entering ch') :
    (dropped ch.log).IsPrefix (dropped ch'.log) := by
  cases step with
  | handsOver => exact (dropped_grows _ _).trans (dropped_grows _ _)
  | enters | accepts | throws | frees => exact dropped_grows _ _
  | same | queues | refuses | sendsOn | sent => exact List.prefix_rfl

structure Carries (S : Sender κ) (ch : Channel κ) : Prop where
  cut : Cut ch.log
  order : (carried ch.log).Sublist (ch.order S)

theorem carries (hok : ch.Ok S) (h : ThrowsEarly ch) (hs : Sticky ch.log) : Carries S ch :=
  ⟨cut hok.serial hs h.log,
    (carried_sublist hok.serial).1.trans (List.prefix_append _ _).sublist⟩

theorem Carries.whole (h : Carries S ch) : (whole ch.log).Sublist (ch.order S) :=
  h.cut.whole_prefix.sublist.trans h.order

end EasyioFallibleSenders
