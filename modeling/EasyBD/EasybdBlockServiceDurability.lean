import EasyBD.EasybdBlockServiceHistory

/-! What a power loss leaves. The kernel writes bytes back when it likes; a write request of a
client with `sync_writes` is told that it is done only when its bytes are on the disk. -/
namespace EasybdBlockServiceDurability

open TransitionRuns Linearizability BlockDevice EasybdProtocol EasyioQueue EasyioFileOps
open EasybdHandlers EasybdRequests EasybdBlockService EasybdBlockServiceHistory
open EasybdEndToEndMatching (operations returnValue)
open EasybdEndToEndFallible (Joint joint_of_run)
open EasybdClientTable (Issued firedIds)
open EasybdSessionTasks (marks performedIds tasks)

variable {ι : Type*} {c : Config ι} {s : State ι}

/-- On the disk is what the first operations `S` have left at `pos`, and no operation after them
that has been flushed has stored anything there. -/
def OnDisk (c : Config ι) (s : State ι) (pos : ℕ) : Prop :=
  ∃ S T d, effects s.marks = S ++ T ∧ Legal (Step (2 ^ 63)) (device c.file.content) S d ∧
    s.disk pos = d.byte pos ∧
    ∀ a ∈ T, a.key ∈ s.synced → ∀ u, ¬ Stored a.op a.res pos u

structure Flushes (c : Config ι) (s : State ι) : Prop where
  disk : ∀ pos, OnDisk c s pos
  synced : ∀ k ∈ s.synced, ∃ t ∈ s.transfers, k = (t.conn, t.handler.cid)
  range : ∀ t ∈ s.transfers, ∀ op r, .effect (t.conn, t.handler.cid) op r ∈ s.marks →
    ∀ pos u, Stored op r pos u → t.start ≤ pos ∧ (pos : ℤ) < t.start + returnValue t.result
  answered : ∀ i id r k, (id, r) ∈ operations (s.conns i).session.trace →
    (s.conns i).session.dispatched[id]? = some k → isDurable k = true → succeeded r = true →
    (i, k.cid) ∈ s.synced

theorem OnDisk.more {s' : State ι} {pos : ℕ} (h : OnDisk c s pos)
    (T' : List (Completed (ι × UInt64) Op Result))
    (heffects : effects s'.marks = effects s.marks ++ T')
    (hdisk : s'.disk pos = s.disk pos) (hsynced : s'.synced = s.synced)
    (hnew : ∀ a ∈ T', a.key ∈ s.synced → ∀ u, ¬ Stored a.op a.res pos u) : OnDisk c s' pos := by
  obtain ⟨S, T, d, hsplit, hlegal, hbyte, hkept⟩ := h
  refine ⟨S, T ++ T', d, ?_, hlegal, hdisk.trans hbyte, fun a ha hk u => ?_⟩
  · rw [heffects, hsplit, List.append_assoc]
  · rw [hsynced] at hk
    rcases List.mem_append.mp ha with ha | ha
    · exact hkept a ha hk u
    · exact hnew a ha hk u

theorem onDisk_now {s' : State ι} {pos : ℕ} (h : Consistent c s)
    (heffects : effects s'.marks = effects s.marks)
    (hdisk : s'.disk pos = (device s.file.content).byte pos) : OnDisk c s' pos :=
  ⟨effects s.marks, [], device s.file.content, by rw [heffects, List.append_nil], h.legal, hdisk,
    List.forall_mem_nil _⟩

theorem flushes_initial : Flushes c (initial c) where
  disk _ := ⟨[], [], _, rfl, .nil _, rfl, List.forall_mem_nil _⟩
  synced := nofun
  range := nofun
  answered := nofun

variable [DecidableEq ι]

theorem flushes_writeBack {pos : ℕ} (h : Flushes c s) (hs : Consistent c s) :
    Flushes c (next s (.writeBack pos)) := by
  refine ⟨fun p => ?_, h.synced, h.range, h.answered⟩
  by_cases hp : p = pos
  · subst hp
    exact onDisk_now hs rfl (Function.update_self p _ _)
  · exact (h.disk p).more [] (List.append_nil _).symm (Function.update_of_ne hp _ _) rfl
      (List.forall_mem_nil _)

theorem flushes_sync {t : Transfer ι} (h : Flushes c s) (hs : Consistent c s)
    (ht : t ∈ s.transfers) : Flushes c (next s (.sync t)) := by
  refine ⟨fun p => ?_, ?_, h.range, ?_⟩
  · by_cases hp : t.start ≤ p ∧ (p : ℤ) < t.start + returnValue t.result
    · exact onDisk_now hs rfl (if_pos hp)
    · obtain ⟨S, T, d, hsplit, hlegal, hbyte, hkept⟩ := h.disk p
      refine ⟨S, T, d, hsplit, hlegal, (if_neg hp).trans hbyte, fun a ha hk u hu => ?_⟩
      rcases List.mem_cons.mp hk with hkey | hk
      · have hmem : a ∈ effects s.marks := by
          rw [hsplit]
          exact List.mem_append_right _ ha
        obtain ⟨key, op, r⟩ := a
        obtain rfl : key = (t.conn, t.handler.cid) := hkey
        exact hp (h.range t ht op r (mem_effects.mp hmem) p u hu)
      · exact hkept a ha hk u hu
  · intro k hk
    rcases List.mem_cons.mp hk with rfl | hk
    · exact ⟨t, ht, rfl⟩
    · exact h.synced k hk
  · intro i id r k hr hk hd hok
    exact List.mem_cons_of_mem _ (h.answered i id r k hr hk hd hok)

theorem stored_range {f : File} {k : Handler} {op : Op} {r : FileResult} {pos : ℕ} {u : UInt8}
    (hop : handlerOperation k = some op) (hstored : Stored op (outcome r) pos u) :
    startOf f k ≤ pos ∧ (pos : ℤ) < startOf f k + returnValue r := by
  cases k with
  | sendError => cases hop
  | handleRead =>
    obtain rfl := Option.some.inj hop
    exact hstored.elim
  | handleWrite cid wire payload durable =>
    obtain rfl := Option.some.inj hop
    by_cases hne : wire = currentPosition
    · rw [named, if_pos hne] at hstored
      exact hstored.elim
    · rw [named, if_neg hne] at hstored
      obtain ⟨j, -, hlt, rfl⟩ := hstored
      have hstart : startOf f (.handleWrite cid wire payload durable) = wire.toNat := if_neg hne
      have hlt : (j : ℤ) < returnValue r := hlt
      rw [hstart]
      omega

theorem flushes_transfer {i : ι} {id : ℕ} {k : Handler} {m : Medium} {late : Option Errno}
    (h : Flushes c s) (hs : Consistent c s) (hs' : Consistent c (next s (.transfer i id k m late)))
    (joint : Joint (c.syncWrites i) (s.conns i)) (he : Enabled s (.transfer i id k m late)) :
    Flushes c (next s (.transfer i id k m late)) := by
  obtain ⟨submitted, untouched⟩ := he
  have hk := (joint.both.ends.accounted.tasks _ (job_of_submitted submitted)).1
  have hother : ∀ t ∈ s.transfers, (t.conn, t.handler.cid) ≠ (i, k.cid) := by
    intro t ht hkey
    obtain ⟨hconn, hcid⟩ := Prod.mk.inj hkey
    have hhandler := (hs.tied i).handlers t ht hconn
    have hnumber : ((s.conns i).session.dispatched[t.id]?).map Handler.cid = some k.cid := by
      rw [hhandler, Option.map_some, hcid]
    exact untouched t ht ⟨hconn, number_unique joint hnumber (by rw [hk]; rfl)⟩
  have hunsynced : (i, k.cid) ∉ s.synced := by
    intro hmem
    obtain ⟨t, ht, hkey⟩ := h.synced _ hmem
    exact hother t ht hkey.symm
  simp only [next] at hs' ⊢
  split at hs'
  · next r file op hperform hop =>
    refine ⟨fun p => ?_, ?_, ?_, h.answered⟩
    · refine (h.disk p).more [⟨(i, k.cid), op, outcome (failsLate late k r)⟩] effects_effect rfl
        rfl ?_
      intro a ha hk
      rw [List.mem_singleton.mp ha] at hk
      exact absurd hk hunsynced
    · intro key hk
      obtain ⟨t, ht, hkey⟩ := h.synced key hk
      exact ⟨t, List.mem_cons_of_mem _ ht, hkey⟩
    · intro t ht op' r' heffect pos u hstored
      rcases List.mem_cons.mp ht with rfl | ht
      · obtain ⟨rfl, rfl⟩ := hs'.timed.one_effect heffect List.mem_cons_self
        exact stored_range hop hstored
      · refine h.range t ht op' r' ?_ pos u hstored
        refine (List.mem_cons.mp heffect).resolve_left fun heq => ?_
        exact hother t ht (Mark.effect.inj heq).1
  · exact h

theorem not_stored_of_error {op : Op} {err : Errno} {pos : ℕ} {u : UInt8} :
    ¬ Stored op (outcome (.error err)) pos u :=
  not_stored_of_failed

omit [DecidableEq ι] in
theorem refusals_store_nothing {i : ι} {e : EasybdEndToEnd.Event}
    (he : EasybdEndToEnd.Enabled (s.conns i) e) {k : ι × UInt64} {op : Op} {r : Result}
    (hmem : .effect k op r ∈ refusals (s.conns i) i e) {pos : ℕ} {u : UInt8} :
    ¬ Stored op r pos u := by
  unfold refusals at hmem
  split at hmem
  · next r' =>
    split at hmem
    · next id h stack top =>
      split at hmem
      · next uring =>
        obtain ⟨id', h', stack', top', atCall⟩ := performing_of_enabled he.1
        obtain ⟨op', -, heq⟩ := Option.map_eq_some_iff.mp (Option.mem_toList.mp hmem)
        obtain ⟨-, rfl, rfl⟩ := Mark.effect.inj heq
        cases r' with
        | error err => exact not_stored_of_error
        | transferred count data => exact absurd (atCall.1.symm.trans uring) (by decide)
      · cases hmem
    · cases hmem
  · cases hmem

/-- What a connection does by itself puts no effect into the history but those refusals. -/
theorem effects_conn {i : ι} {e : EasybdEndToEnd.Event} :
    effects (next s (.conn i e)).marks =
      effects s.marks ++ effects (refusals (s.conns i) i e) := by
  simp only [next, effects_append, effects_calls, effects_returns, List.append_nil]

omit [DecidableEq ι] in
theorem answered_session {i : ι} {e : EasybdSession.Event} (h : Flushes c s)
    (joint : Joint (c.syncWrites i) (s.conns i))
    (he : EasybdSession.Enabled (s.conns i).session e) (allowed : Allowed s i (.session e))
    {id : ℕ} {r : FileResult} {k : Handler}
    (hr : (id, r) ∈ operations (EasybdSession.next (s.conns i).session e).trace)
    (hk : (EasybdSession.next (s.conns i).session e).dispatched[id]? = some k)
    (hd : isDurable k = true) (hok : succeeded r = true) : (i, k.cid) ∈ s.synced := by
  have step := EasybdSession.step_of_enabled he
  have hsame : ∀ {j : ℕ} {k' : Handler},
      (EasybdSession.next (s.conns i).session e).dispatched[j]? = some k →
      (s.conns i).session.dispatched[j]? = some k' → k' = k := by
    intro j k' hk hk'
    exact Option.some.inj (((EasybdSessionReliable.grows_step step).1 j k' hk').symm.trans hk)
  have hold : (id, r) ∈ operations (s.conns i).session.trace → (i, k.cid) ∈ s.synced := by
    intro hr
    have hlt := joint.both.ends.accounted.performed id ((performed_ids _).mpr ⟨r, hr⟩)
    have hk' := List.getElem?_eq_getElem hlt
    obtain rfl := hsame hk hk'
    exact h.answered i id r _ hr hk' hd hok
  cases operation_step step with
  | same heq => exact hold (heq ▸ hr)
  | returns id' h' r' how heq =>
    rw [heq] at hr
    rcases List.mem_cons.mp hr with hnew | hr
    · obtain ⟨rfl, rfl⟩ := Prod.mk.inj hnew
      have settled : .job id h' ∈ tasks (s.conns i).session → Settled s i id h' r →
          (i, k.cid) ∈ s.synced := by
        intro job settled
        obtain rfl := hsame hk (joint.both.ends.accounted.tasks _ job).1
        exact settled.2 hd hok
      rcases how with rfl | ⟨rfl, stack, top⟩
      · exact settled (job_of_queued he.2.1) allowed
      · simp only [Allowed, top] at allowed
        cases hb : (s.conns i).session.backend with
        | libc => exact settled (job_of_performing top) (allowed hb)
        | ioUring =>
          obtain ⟨_, _, _, _, atCall⟩ := performing_of_enabled he
          cases r with
          | error err => cases hok
          | transferred count data => exact absurd (atCall.1.symm.trans hb) (by decide)
    · exact hold hr

theorem flushes_conn {i : ι} {e : EasybdEndToEnd.Event} (h : Flushes c s)
    (joint : Joint (c.syncWrites i) (s.conns i)) (he : Enabled s (.conn i e)) :
    Flushes c (next s (.conn i e)) := by
  refine ⟨fun p => ?_, h.synced, ?_, ?_⟩
  · refine (h.disk p).more _ effects_conn rfl rfl fun a ha _ u => ?_
    obtain ⟨key, op, r⟩ := a
    exact refusals_store_nothing he.1 (mem_effects.mp ha)
  · intro t ht op r heffect pos u hstored
    have hmem : ⟨(t.conn, t.handler.cid), op, r⟩ ∈ effects (next s (.conn i e)).marks :=
      mem_effects.mpr heffect
    rw [effects_conn, List.mem_append] at hmem
    rcases hmem with hold | hnew
    · exact h.range t ht op r (mem_effects.mp hold) pos u hstored
    · exact absurd hstored (refusals_store_nothing he.1 (mem_effects.mp hnew))
  · intro j id r k hr hk hd hok
    by_cases hj : j = i
    · subst hj
      rw [conns_self] at hr hk
      cases e with
      | client e => exact h.answered j id r k hr hk hd hok
      | session e => exact answered_session h joint he.1.1 he.2 hr hk hd hok
    · rw [conns_of_ne hj] at hr hk
      exact h.answered j id r k hr hk hd hok

theorem flushes_of_run (h : Run machine Permanent (initial c) s) (few : Few s) :
    Flushes c s := by
  induction h with
  | refl => exact flushes_initial
  | @tail u e hu he g ih =>
    have few' := few_next he few
    have hflushes := ih few'
    have hconsistent := consistent_of_run hu few'
    cases e with
    | conn i e => exact flushes_conn hflushes (joint_of_run (conns_run hu i) (few' i)) he
    | transfer i id k m late =>
      exact flushes_transfer hflushes hconsistent (consistent_of_run (hu.tail he g) few)
        (joint_of_run (conns_run hu i) (few' i)) he
    | sync t => exact flushes_sync hflushes hconsistent he
    | writeBack pos => exact flushes_writeBack hflushes hconsistent

def Acknowledged (c : Config ι) (s : State ι) (pos : ℕ) (w : ι × UInt64) : Prop :=
  c.syncWrites w.1 = true ∧
    ∃ op r u, .call w op ∈ history s.marks ∧ .ret w r ∈ history s.marks ∧ Stored op r pos u

theorem synced_of_acknowledged (h : Run machine Permanent (initial c) s) (few : Few s)
    {pos : ℕ} {w : ι × UInt64} (hw : Acknowledged c s pos w) :
    w ∈ s.synced ∧ ∃ a ∈ effects s.marks, a.key = w ∧ ∃ u, Stored a.op a.res pos u := by
  obtain ⟨i, cid⟩ := w
  obtain ⟨hsync, op, r, u, hcall, hret, hstored⟩ := hw
  have hs := consistent_of_run h few
  have joint := joint_of_run (conns_run h i) (few i)
  have hret := ret_mem_history.mp hret
  obtain ⟨id, q, hq, rfl⟩ := ((hs.tied i).calls cid op).mp (call_mem_history.mp hcall)
  obtain ⟨number, fr, hcid, hfr, rfl⟩ := ((hs.tied i).returned cid r hret).operation
  obtain ⟨k, hk, rfl⟩ := Option.map_eq_some_iff.mp hcid
  -- What the callback was given is the outcome of the operation.
  obtain ⟨op', heffect⟩ := hs.timed.took_effect hret
  obtain rfl := hs.timed.one_call (hs.timed.called heffect) (call_mem_history.mp hcall)
  refine ⟨?_, ⟨(i, k.cid), operation q, outcome fr⟩, mem_effects.mpr heffect, rfl, u, hstored⟩
  have hwrite : q.isRead = false := by
    cases hread : q.isRead with
    | false => rfl
    | true =>
      rw [operation, hread] at hstored
      exact hstored.elim
  obtain ⟨id', q', hq', hhandler⟩ := issued_of_dispatched joint hk
  obtain ⟨-, rfl⟩ := joint.both.ends.client.cids.issued_unique joint.both.few hq hq'
  refine (flushes_of_run h few).answered i number fr k hfr hk ?_ ?_
  · rw [hhandler, Request.handler, hwrite, hsync]
    rfl
  · cases fr with
    | transferred count data => rfl
    | error err => exact absurd hstored not_stored_of_error

/-- After a power loss a byte is the initial one, and no synchronous write that names its place has
been acknowledged; or it is what a write, perhaps one at offset 2^64-1, stored that had not returned
before any of the acknowledged ones was called. -/
theorem power_loss_keeps_synced_writes (h : Run machine Permanent (initial c) s)
    (few : Few s) (pos : ℕ) :
    (s.disk pos = (device c.file.content).byte pos ∧ ∀ w, ¬ Acknowledged c s pos w) ∨
      ∃ k op, .call k op ∈ history s.marks ∧ MayStore op pos (s.disk pos) ∧
        ∀ w, Acknowledged c s pos w → ¬ Precedes (history s.marks) k w := by
  have hs := consistent_of_run h few
  have hlinear := linearizes_effects hs.timed hs.legal
  obtain ⟨S, T, d, hsplit, hlegal, hbyte, hkept⟩ := (flushes_of_run h few).disk pos
  rw [hbyte]
  have hacked : ∀ w, Acknowledged c s pos w →
      ∃ a ∈ S, a.key = w ∧ ∃ u, Stored a.op a.res pos u := by
    intro w hw
    obtain ⟨hsynced, a, ha, rfl, u, hu⟩ := synced_of_acknowledged h few hw
    rw [hsplit] at ha
    rcases List.mem_append.mp ha with ha | ha
    · exact ⟨a, ha, rfl, u, hu⟩
    · exact absurd hu (hkept a ha hsynced u)
  rcases legal_source (i := pos) hlegal with ⟨hsame, hnone⟩ | ⟨A, a, B, rfl, hmay, hB⟩
  · refine Or.inl ⟨hsame, fun w hw => ?_⟩
    obtain ⟨a, ha, -, u, hu⟩ := hacked w hw
    exact hnone a ha u hu
  · have ha : a ∈ effects s.marks := by simp [hsplit]
    refine Or.inr ⟨a.key, a.op, hlinear.called a ha, hmay, fun w hw => ?_⟩
    obtain ⟨b, hb, rfl, u, hu⟩ := hacked w hw
    rcases List.mem_append.mp hb with hA | hb
    · have hsub : [b, a].Sublist (A ++ a :: B) :=
        (List.singleton_sublist.mpr hA).append (List.singleton_sublist.mpr List.mem_cons_self)
      refine hlinear.not_precedes (hsub.trans ?_)
      rw [hsplit]
      exact List.sublist_append_left _ _
    · rcases List.mem_cons.mp hb with rfl | hb
      · exact hlinear.not_precedes_self ha
      · exact absurd hu (hB b hb u)

/-- The second client has lost its connection. -/
def readerLost : List (Event Bool) :=
  onClient false [.receiveFailed, .drain [⟨true, 0⟩], .run, .callbackReturn]

/-- The synchronous write of the first client has been acknowledged. -/
theorem power_loss_keeps_synced_writes_acknowledged :
    let s := runTrace machine (initial shared)
      (submitted ++ transferred ++ readerLost ++ writeReturned)
    s.disk 0 = 7 ∧ ((s.disk 0 = 0 ∧ ∀ w, ¬ Acknowledged shared s 0 w) ∨
      ∃ k op, .call k op ∈ history s.marks ∧ MayStore op 0 (s.disk 0) ∧
        ∀ w, Acknowledged shared s 0 w → ¬ Precedes (history s.marks) k w) :=
  ⟨by decide +kernel, power_loss_keeps_synced_writes (run_of_trace _ (by decide +kernel)
    (by decide +kernel)) (by decide +kernel) 0⟩

end EasybdBlockServiceDurability
