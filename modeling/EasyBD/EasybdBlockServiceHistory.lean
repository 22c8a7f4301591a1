import Mathlib.Data.Fintype.Basic
import EasyBD.EasybdBlockService

/-! The connections together are one block device: whatever the interleaving and whatever fails,
what the clients see is what the requests, done one at a time in an order that respects real time,
would give. -/
namespace EasybdBlockServiceHistory

open TransitionRuns Linearizability BlockDevice EasybdProtocol EasyioQueue EasyioFileOps
open EasybdHandlers EasybdRequests EasybdBlockService
open EasybdEndToEndMatching (operations operations_ids callbacks buffer bytesRead returnValue)
open EasybdEndToEndFallible (Joint joint_of_run parsed_issued cids_handlers)
open EasybdEndToEndOutcomes (Answered settled_of_joint)
open EasybdClientTable (Issued firedIds)
open EasybdClientFallible (numbered)
open EasybdSessionTasks (marks performedIds tasks)
open EasybdClientReliable (results)

section Session

variable {s s' : EasybdSession.State} {e : EasybdSession.Event}

theorem operations_reply (t : EasybdSession.Reply) :
    operations (s.reply t).trace = operations s.trace := by
  unfold operations
  rw [EasybdSessionTasks.marks_reply]

theorem operations_taken (t : EasybdSession.Reply) (o : SendOutcome)
    (trace : List EasybdSession.Effect) :
    operations (EasybdSession.taken t o ++ trace) = operations trace := by
  unfold operations
  rw [EasybdSessionTasks.marks_taken]

inductive OperationStep (s : EasybdSession.State) (e : EasybdSession.Event)
    (s' : EasybdSession.State) : Prop where
  | same (operations : operations s'.trace = operations s.trace)
  | returns (id : ℕ) (h : Handler) (r : FileResult)
      (how : e = .fileReady id h r ∨
        e = .perform (.result r) ∧ ∃ stack, s.stack = .performing id h :: stack)
      (operations : operations s'.trace = (id, r) :: operations s.trace)

theorem operation_step (step : EasybdSession.Step s e s') : OperationStep s e s' := by
  cases step with
  | @performed stack id h r top =>
    refine .returns id h r (Or.inr ⟨rfl, stack, top⟩) ?_
    rw [operations_reply]
    rfl
  | @fileReady id h r =>
    refine .returns id h r (Or.inl rfl) ?_
    rw [operations_reply]
    rfl
  | spawnsError =>
    refine .same ?_
    rw [operations_reply]
  | receiveFailed | rejects | notAllocated | notSpawned =>
    refine .same ?_
    rw [EasybdSessionTasks.trace_endLoop]
  | @handsOver t sent | @frees t sent =>
    cases sent <;> exact .same rfl
  | callReturns | readyReturns | completes => exact .same (operations_taken _ _ _)
  | _ => exact .same rfl

theorem performed_ids (s : EasybdSession.State) {id : ℕ} :
    id ∈ performedIds s.trace ↔ ∃ r, (id, r) ∈ operations s.trace := by
  rw [← operations_ids, List.mem_map]
  constructor
  · rintro ⟨⟨_, r⟩, hr, rfl⟩
    exact ⟨r, hr⟩
  · rintro ⟨r, hr⟩
    exact ⟨_, hr, rfl⟩

theorem operations_grow (step : EasybdSession.Step s e s') :
    operations s.trace ⊆ operations s'.trace := by
  cases operation_step step with
  | same heq => rw [heq]; exact List.Subset.refl _
  | returns id h r how heq => rw [heq]; exact List.subset_cons_self _ _

theorem performed_grow (step : EasybdSession.Step s e s') {id : ℕ}
    (h : id ∈ performedIds s.trace) : id ∈ performedIds s'.trace := by
  obtain ⟨r, hr⟩ := (performed_ids s).mp h
  exact (performed_ids s').mpr ⟨r, operations_grow step hr⟩

theorem backend_reply (t : EasybdSession.Reply) : (s.reply t).backend = s.backend := by
  unfold EasybdSession.State.reply
  split <;> rfl

theorem files_reply (t : EasybdSession.Reply) : (s.reply t).files = s.files := by
  unfold EasybdSession.State.reply
  split <;> rfl

theorem backend_endLoop : s.endLoop.backend = s.backend := by
  unfold EasybdSession.State.endLoop
  split <;> rfl

theorem files_endLoop : s.endLoop.files = s.files := by
  unfold EasybdSession.State.endLoop
  split <;> rfl

theorem backend_step (step : EasybdSession.Step s e s') : s'.backend = s.backend := by
  cases step with
  | performed | fileReady | spawnsError => exact backend_reply _
  | receiveFailed | rejects | notAllocated | notSpawned => exact backend_endLoop
  | _ => rfl

theorem queued_step (step : EasybdSession.Step s e s') {id : ℕ} {h : Handler}
    (queued : (id, h) ∈ s.files) : (id, h) ∈ s'.files ∨ id ∈ performedIds s'.trace := by
  cases step with
  | @fileReady id' h' r =>
    by_cases heq : (id, h) = (id', h')
    · obtain ⟨rfl, rfl⟩ := Prod.mk.inj heq
      refine Or.inr ((performed_ids _).mpr ⟨r, ?_⟩)
      rw [operations_reply]
      exact List.mem_cons_self
    · refine Or.inl ?_
      rw [files_reply]
      exact (List.mem_erase_of_ne heq).mpr queued
  | performs => exact Or.inl (List.mem_append_left _ queued)
  | performed | spawnsError =>
    refine Or.inl ?_
    rw [files_reply]
    exact queued
  | receiveFailed | rejects | notAllocated | notSpawned =>
    refine Or.inl ?_
    rw [files_endLoop]
    exact queued
  | _ => exact Or.inl queued

theorem job_of_performing {id : ℕ} {h : Handler} {stack : List EasybdSession.Frame}
    (top : s.stack = .performing id h :: stack) : .job id h ∈ tasks s := by
  rw [tasks, top, EasybdSessionTasks.running_frame]
  simp

theorem job_of_queued {id : ℕ} {h : Handler} (queued : (id, h) ∈ s.files) :
    .job id h ∈ tasks s := by
  unfold tasks EasybdSessionTasks.running
  simp only [Multiset.mem_add, Multiset.mem_coe, List.mem_map]
  exact Or.inl (Or.inl (Or.inl (Or.inr ⟨(id, h), queued, rfl⟩)))

theorem job_of_submitted {id : ℕ} {h : Handler} (submitted : Submitted s id h) :
    .job id h ∈ tasks s := by
  unfold Submitted at submitted
  cases hb : s.backend with
  | libc =>
    rw [hb] at submitted
    obtain ⟨stack, top⟩ := List.head?_eq_some_iff.mp submitted
    exact job_of_performing top
  | ioUring =>
    rw [hb] at submitted
    exact job_of_queued submitted

theorem not_queued (ha : EasybdSessionTasks.Accounted s) {id : ℕ} {h h' : Handler}
    {stack : List EasybdSession.Frame} (top : s.stack = .performing id h :: stack) :
    (id, h') ∉ s.files := by
  intro queued
  have hnodup := ha.nodup
  rw [tasks, top, EasybdSessionTasks.running_frame,
    EasybdSessionTasks.running_file_erase queued] at hnodup
  simp [EasybdSessionTasks.Task.id] at hnodup

end Session

section Client

variable {s s' : EasybdClient.State} {e : EasybdClient.Event}

theorem results_step (step : EasybdClient.Step s e s') :
    results s'.trace = results s.trace ∨
      ∃ id res, results s'.trace = results s.trace ++ [(id, res)] := by
  cases step with
  | answered | copies | failsNext | sendThrows => exact Or.inr ⟨_, _, rfl⟩
  | _ => exact Or.inl (by simp [results])

theorem requests_step (step : EasybdClient.Step s e s') :
    s'.requests = s.requests ∨ ∃ cid q, s'.requests = s.requests ++ [(cid, q)] := by
  cases EasybdClientFallible.numbering_step step with
  | same hcid hcount hreq | wasted hcid hcount hreq => exact Or.inl hreq
  | issued q hcid hcount hreq => exact Or.inr ⟨_, q, hreq⟩

theorem issued_lt {cid : UInt64} {id : ℕ} {q : Request} (hq : Issued s cid id q) :
    id < s.requests.length := (List.getElem?_eq_some_iff.mp hq).1

theorem fired_step (step : EasybdClient.Step s e s') :
    firedIds s.trace ⊆ firedIds s'.trace := by
  intro id hid
  rw [← List.mem_reverse, ← EasybdClientReliable.results_ids] at hid ⊢
  rcases results_step step with hsame | ⟨id', res, hmore⟩
  · rwa [hsame]
  · rw [hmore, List.map_append]
    exact List.mem_append_left _ hid

end Client

section Marks

variable {ι : Type*} {i : ι} {u u' : EasybdEndToEnd.State}

theorem calls_same (h : u'.client.requests = u.client.requests) : calls i u u' = [] := by
  simp [calls, h]

theorem calls_one {cid : UInt64} {q : Request}
    (h : u'.client.requests = u.client.requests ++ [(cid, q)]) :
    calls i u u' = [.call (i, cid) (operation q)] := by
  simp [calls, h]

theorem returns_same (h : results u'.client.trace = results u.client.trace) :
    returns i u u' = [] := by
  simp [returns, h]

theorem returns_one {id : ℕ} {res : Int64}
    (h : results u'.client.trace = results u.client.trace ++ [(id, res)]) :
    returns i u u' = (returnOf i u' (id, res)).toList := by
  rw [returns, h, List.drop_left, List.filterMap_cons]
  cases returnOf i u' (id, res) <;> rfl

theorem mem_calls {m : Mark (ι × UInt64) Op Result} (hm : m ∈ calls i u u') :
    ∃ cid op, m = .call (i, cid) op := by
  obtain ⟨q, -, rfl⟩ := List.mem_map.mp (List.mem_reverse.mp hm)
  exact ⟨_, _, rfl⟩

theorem mem_returns {m : Mark (ι × UInt64) Op Result} (hm : m ∈ returns i u u') :
    ∃ cid r, m = .ret (i, cid) r := by
  obtain ⟨a, -, ha⟩ := List.mem_filterMap.mp (List.mem_reverse.mp hm)
  unfold returnOf at ha
  split at ha
  · cases ha
  · obtain ⟨q, -, rfl⟩ := Option.map_eq_some_iff.mp ha
    exact ⟨_, _, rfl⟩

theorem calls_keys : ∀ m ∈ calls i u u', m.key.1 = i := by
  intro m hm
  obtain ⟨cid, op, rfl⟩ := mem_calls hm
  rfl

theorem returns_keys : ∀ m ∈ returns i u u', m.key.1 = i := by
  intro m hm
  obtain ⟨cid, r, rfl⟩ := mem_returns hm
  rfl

theorem effects_calls : effects (calls i u u') = [] := by
  rw [effects, List.reverse_eq_nil_iff, List.filterMap_eq_nil_iff]
  intro m hm
  obtain ⟨cid, op, rfl⟩ := mem_calls hm
  rfl

theorem effects_returns : effects (returns i u u') = [] := by
  rw [effects, List.reverse_eq_nil_iff, List.filterMap_eq_nil_iff]
  intro m hm
  obtain ⟨cid, r, rfl⟩ := mem_returns hm
  rfl

end Marks

/-- What a client sees of its request is the outcome of the file operation. -/
theorem seen_eq {syncWrites : Bool} {u : EasybdEndToEnd.State} {cid : UInt64} {id number : ℕ}
    {q : Request} {r : FileResult} (h : Answered syncWrites u cid id q number r) {res : Int64}
    (hres : callbacks u id = [res]) : seen u id q res = outcome r := by
  obtain ⟨res', hres', hvalue⟩ := h.callbacks
  obtain rfl := List.singleton_inj.mp (hres.symm.trans hres')
  simp only [seen, outcome, hvalue]
  congr 1
  have fits := h.fits
  unfold Request.handler at fits
  cases hread : q.isRead with
  | false =>
    rw [if_neg Bool.false_ne_true]
    rw [hread, if_neg Bool.false_ne_true] at fits
    cases r with
    | error err => rfl
    | transferred count data => exact fits.2.symm
  | true =>
    rw [if_pos rfl, h.buffer]
    rw [hread, if_pos rfl] at fits
    refine List.take_left' ?_
    rw [Int64.toNatClampNeg, hvalue]
    cases r with
    | error err => simp [bytesRead, returnValue]
    | transferred count data =>
      simp only [bytesRead, returnValue, Int.toNat_natCast]
      exact fits.1.symm

variable {ι : Type*} {c : Config ι} {s : State ι}

structure Taken (i : ι) (u : EasybdEndToEnd.State) (transfers : List (Transfer ι)) (cid : UInt64)
    (number : ℕ) : Prop where
  handler : (u.session.dispatched[number]?).map Handler.cid = some cid
  taken : (∃ t ∈ transfers, t.conn = i ∧ t.id = number) ∨ number ∈ performedIds u.session.trace

structure Returned (u : EasybdEndToEnd.State) (cid : UInt64) (r : Result) : Prop where
  fired : ∃ id q, Issued u.client cid id q ∧ id ∈ firedIds u.client.trace
  operation : ∃ number fr, (u.session.dispatched[number]?).map Handler.cid = some cid ∧
    (number, fr) ∈ operations u.session.trace ∧ r = outcome fr

structure Tied (i : ι) (u : EasybdEndToEnd.State) (transfers : List (Transfer ι))
    (marks : List (Mark (ι × UInt64) Op Result)) : Prop where
  calls : ∀ cid op, .call (i, cid) op ∈ marks ↔
    ∃ id q, Issued u.client cid id q ∧ op = operation q
  handlers : ∀ t ∈ transfers, t.conn = i → u.session.dispatched[t.id]? = some t.handler
  effects : ∀ cid op r, .effect (i, cid) op r ∈ marks → ∃ number, Taken i u transfers cid number
  queued : ∀ t ∈ transfers, t.conn = i → u.session.backend = .ioUring →
    (t.id, t.handler) ∈ u.session.files ∨ t.id ∈ performedIds u.session.trace
  performed : ∀ number r, (number, r) ∈ operations u.session.trace →
    ∃ k op, u.session.dispatched[number]? = some k ∧ .effect (i, k.cid) op (outcome r) ∈ marks
  returned : ∀ cid r, .ret (i, cid) r ∈ marks → Returned u cid r

structure Consistent (c : Config ι) (s : State ι) : Prop where
  timed : WellTimed s.marks
  legal : Legal (Step (2 ^ 63)) (device c.file.content) (effects s.marks) (device s.file.content)
  transfers : ∀ t ∈ s.transfers,
    ∃ op, .effect (t.conn, t.handler.cid) op (outcome t.result) ∈ s.marks
  tied : ∀ i, Tied i (s.conns i) s.transfers s.marks

theorem Tied.frame {i : ι} {u : EasybdEndToEnd.State} {transfers transfers' : List (Transfer ι)}
    {marks marks' : List (Mark (ι × UInt64) Op Result)} (h : Tied i u transfers marks)
    (htransfers : ∀ t, t.conn = i → (t ∈ transfers' ↔ t ∈ transfers))
    (hmarks : ∀ m, m.key.1 = i → (m ∈ marks' ↔ m ∈ marks)) : Tied i u transfers' marks' := by
  constructor
  · intro cid op
    rw [hmarks (.call (i, cid) op) rfl]
    exact h.calls cid op
  · intro t ht hconn
    exact h.handlers t ((htransfers t hconn).mp ht) hconn
  · intro cid op r he
    rw [hmarks (.effect (i, cid) op r) rfl] at he
    obtain ⟨number, hhandler, htaken⟩ := h.effects cid op r he
    refine ⟨number, hhandler, htaken.imp_left ?_⟩
    rintro ⟨t, ht, hconn, hid⟩
    exact ⟨t, (htransfers t hconn).mpr ht, hconn, hid⟩
  · intro t ht hconn
    exact h.queued t ((htransfers t hconn).mp ht) hconn
  · intro number r hr
    obtain ⟨k, op, hk, hop⟩ := h.performed number r hr
    exact ⟨k, op, hk, (hmarks (.effect (i, k.cid) op (outcome r)) rfl).mpr hop⟩
  · intro cid r hr
    exact h.returned cid r ((hmarks (.ret (i, cid) r) rfl).mp hr)

variable [DecidableEq ι]

theorem conns_self {i : ι} {e : EasybdEndToEnd.Event} :
    (next s (.conn i e)).conns i = EasybdEndToEnd.next (s.conns i) e :=
  Function.update_self i _ _

theorem conns_of_ne {i j : ι} {e : EasybdEndToEnd.Event} (hj : i ≠ j) :
    (next s (.conn j e)).conns i = s.conns i :=
  Function.update_of_ne hj _ _

theorem conns_transfer {i : ι} {id : ℕ} {k : Handler} {m : Medium} {late : Option Errno} :
    (next s (.transfer i id k m late)).conns = s.conns := by
  simp only [next]
  split <;> rfl

theorem conns_run (h : Run machine Permanent (initial c) s) (i : ι) :
    Run EasybdEndToEnd.machine EasybdEndToEndFallible.Permanent
      (EasybdEndToEnd.initial (c.clientBackend i) c.serverBackend (c.syncWrites i))
      (s.conns i) := by
  refine h.simulate (f := fun u => u.conns i) fun u e _ he hg => ?_
  cases e with
  | conn j e =>
    by_cases hj : i = j
    · subst hj
      rw [machine, conns_self]
      exact .single he.1 hg
    · rw [machine, conns_of_ne hj]
      exact .refl
  | transfer j id k m late =>
    rw [machine, conns_transfer]
    exact .refl
  | sync t => exact .refl
  | writeBack pos => exact .refl

section Steps

omit [DecidableEq ι]

variable {i : ι} {u : EasybdEndToEnd.State} {transfers : List (Transfer ι)}
  {marks : List (Mark (ι × UInt64) Op Result)}

theorem tied_of_ne {j : ι} (hj : j ≠ i) {added : List (Mark (ι × UInt64) Op Result)}
    (h : Tied j u transfers marks) (hadded : ∀ m ∈ added, m.key.1 = i) :
    Tied j u transfers (added ++ marks) := by
  refine h.frame (fun t _ => Iff.rfl) fun m hm => ?_
  rw [List.mem_append, or_iff_right]
  intro hmem
  exact hj (hm.symm.trans (hadded m hmem))

theorem tied_calls {client : EasybdClient.State} (h : Tied i u transfers marks)
    (timed : WellTimed marks)
    (hrequests : client.requests = u.client.requests ∨
      ∃ cid q, client.requests = u.client.requests ++ [(cid, q)])
    (once : (client.requests.map Prod.fst).Nodup)
    (hfired : firedIds u.client.trace ⊆ firedIds client.trace) :
    WellTimed (calls i u { u with client } ++ marks) ∧
      Tied i { u with client } transfers (calls i u { u with client } ++ marks) := by
  have hissued : ∀ {cid id q}, Issued u.client cid id q → Issued client cid id q := by
    intro cid id q hq
    rcases hrequests with hsame | ⟨cid', q', hmore⟩
    · rwa [Issued, hsame]
    · rw [Issued, hmore, List.getElem?_append_left (issued_lt hq)]
      exact hq
  have hreturned : ∀ cid r, .ret (i, cid) r ∈ marks → Returned { u with client } cid r := by
    intro cid r hr
    obtain ⟨⟨id, q, hq, hid⟩, hoperation⟩ := h.returned cid r hr
    exact ⟨⟨id, q, hissued hq, hfired hid⟩, hoperation⟩
  have hold : ∀ m ∈ calls i u { u with client }, ∃ cid op, m = .call (i, cid) op :=
    fun m hm => mem_calls hm
  have hcalled : WellTimed (calls i u { u with client } ++ marks) ∧
      ∀ cid op, .call (i, cid) op ∈ calls i u { u with client } ++ marks ↔
        ∃ id q, Issued client cid id q ∧ op = operation q := by
    rcases hrequests with hsame | ⟨cid, q, hmore⟩
    · rw [show calls i u { u with client } = [] from calls_same hsame, List.nil_append]
      refine ⟨timed, fun cid op => ?_⟩
      simp only [Issued, hsame]
      exact h.calls cid op
    · rw [show calls i u { u with client } = [.call (i, cid) (operation q)] from calls_one hmore,
        List.singleton_append]
      constructor
      · refine .call timed fun op' hop => ?_
        obtain ⟨id, q', hq', -⟩ := (h.calls _ _).mp hop
        rw [hmore, List.map_append] at once
        exact List.disjoint_of_nodup_append once (EasybdClientFallible.mem_cids hq')
          (List.mem_singleton_self cid)
      · intro cid' op'
        simp only [Issued, hmore, List.mem_cons, Mark.call.injEq, Prod.mk.injEq, true_and, h.calls]
        constructor
        · rintro (⟨rfl, rfl⟩ | ⟨id, q', hq', rfl⟩)
          · exact ⟨_, q, List.getElem?_concat_length, rfl⟩
          · exact ⟨id, q', (List.getElem?_append_left (issued_lt hq')).trans hq', rfl⟩
        · rintro ⟨id, q', hq', rfl⟩
          by_cases hlt : id < u.client.requests.length
          · rw [List.getElem?_append_left hlt] at hq'
            exact Or.inr ⟨id, q', hq', rfl⟩
          · have hle := (List.getElem?_eq_some_iff.mp hq').1
            rw [List.length_append, List.length_singleton] at hle
            obtain rfl : id = u.client.requests.length := by omega
            rw [List.getElem?_concat_length] at hq'
            obtain ⟨rfl, rfl⟩ := Prod.mk.inj (Option.some.inj hq')
            exact Or.inl ⟨rfl, rfl⟩
  refine ⟨hcalled.1, hcalled.2, h.handlers, ?_, h.queued, ?_, ?_⟩
  · intro cid op r he
    have he := (List.mem_append.mp he).resolve_left fun hm => by
      obtain ⟨_, _, heq⟩ := hold _ hm
      cases heq
    obtain ⟨number, hhandler, htaken⟩ := h.effects cid op r he
    exact ⟨number, hhandler, htaken⟩
  · intro number r hr
    obtain ⟨k, op, hk, hop⟩ := h.performed number r hr
    exact ⟨k, op, hk, List.mem_append_right _ hop⟩
  · intro cid r hr
    refine hreturned cid r ((List.mem_append.mp hr).resolve_left fun hm => ?_)
    obtain ⟨_, _, heq⟩ := hold _ hm
    cases heq

theorem tied_return (h : Tied i u transfers marks) (timed : WellTimed marks) {cid : UInt64}
    {op : Op} {r : Result} (returned : Returned u cid r) (fresh : ∀ r', .ret (i, cid) r' ∉ marks)
    (heffect : .effect (i, cid) op r ∈ marks) :
    WellTimed (.ret (i, cid) r :: marks) ∧ Tied i u transfers (.ret (i, cid) r :: marks) := by
  refine ⟨.ret timed heffect fresh, ?_, h.handlers, ?_, h.queued, ?_, ?_⟩
  · intro cid' op'
    rw [← h.calls cid' op', List.mem_cons, or_iff_right nofun]
  · intro cid' op' r' he
    exact h.effects cid' op' r' ((List.mem_cons.mp he).resolve_left nofun)
  · intro number r' hr
    obtain ⟨k, op', hk, hop⟩ := h.performed number r' hr
    exact ⟨k, op', hk, List.mem_cons_of_mem _ hop⟩
  · intro cid' r' hr
    rcases List.mem_cons.mp hr with heq | hr
    · obtain ⟨hkey, rfl⟩ := Mark.ret.inj heq
      obtain ⟨-, rfl⟩ := Prod.mk.inj hkey
      exact returned
    · exact h.returned cid' r' hr

structure Advances (u : EasybdEndToEnd.State) (session : EasybdSession.State) : Prop where
  dispatched : ∀ (number : ℕ) (k : Handler), u.session.dispatched[number]? = some k →
    session.dispatched[number]? = some k
  performed : performedIds u.session.trace ⊆ performedIds session.trace
  operations : operations u.session.trace ⊆ operations session.trace

theorem Advances.refl : Advances u u.session :=
  ⟨fun _ _ hk => hk, List.Subset.refl _, List.Subset.refl _⟩

theorem advances_step {e : EasybdSession.Event} {session : EasybdSession.State}
    (step : EasybdSession.Step u.session e session) : Advances u session :=
  ⟨(EasybdSessionReliable.grows_step step).1, fun _ => performed_grow step, operations_grow step⟩

theorem Advances.cid {session : EasybdSession.State} (h : Advances u session) {number : ℕ}
    {cid : UInt64} (hcid : (u.session.dispatched[number]?).map Handler.cid = some cid) :
    (session.dispatched[number]?).map Handler.cid = some cid := by
  obtain ⟨k, hk, rfl⟩ := Option.map_eq_some_iff.mp hcid
  rw [h.dispatched number k hk]
  rfl

theorem Returned.advances {session : EasybdSession.State} (h : Advances u session) {cid : UInt64}
    {r : Result} (hr : Returned u cid r) : Returned { u with session } cid r := by
  obtain ⟨number, fr, hcid, hfr, heq⟩ := hr.operation
  exact ⟨hr.fired, number, fr, h.cid hcid, h.operations hfr, heq⟩

theorem tied_session {session : EasybdSession.State} (h : Tied i u transfers marks)
    (advances : Advances u session)
    (queued : ∀ t ∈ transfers, t.conn = i → session.backend = .ioUring →
      (t.id, t.handler) ∈ session.files ∨ t.id ∈ performedIds session.trace)
    (performed : ∀ number r, (number, r) ∈ operations session.trace →
      (number, r) ∈ operations u.session.trace ∨
        ∃ k op, session.dispatched[number]? = some k ∧
          .effect (i, k.cid) op (outcome r) ∈ marks) :
    Tied i { u with session } transfers marks where
  calls := h.calls
  handlers t ht hconn := advances.dispatched _ _ (h.handlers t ht hconn)
  effects cid op r he := by
    obtain ⟨number, hhandler, htaken⟩ := h.effects cid op r he
    exact ⟨number, advances.cid hhandler, htaken.imp_right fun hperf => advances.performed hperf⟩
  queued := queued
  performed number r hr := by
    rcases performed number r hr with hold | hnew
    · obtain ⟨k, op, hk, hop⟩ := h.performed number r hold
      exact ⟨k, op, advances.dispatched _ _ hk, hop⟩
    · exact hnew
  returned cid r hr := (h.returned cid r hr).advances advances

/-- An operation takes effect: a transfer, or a call that io_uring has turned down. -/
theorem tied_effect (session : EasybdSession.State) (transfers' : List (Transfer ι))
    (h : Tied i u transfers marks) (timed : WellTimed marks) {number : ℕ} {k : Handler} {op : Op}
    {r : Result} (advances : Advances u session) (hk : u.session.dispatched[number]? = some k)
    (hcall : .call (i, k.cid) op ∈ marks) (fresh : ∀ op' r', .effect (i, k.cid) op' r' ∉ marks)
    (taken : (∃ t ∈ transfers', t.conn = i ∧ t.id = number) ∨
      number ∈ performedIds session.trace)
    (hsub : transfers ⊆ transfers')
    (hnew : ∀ t ∈ transfers', t.conn = i → t ∈ transfers ∨ t.id = number ∧ t.handler = k)
    (queued : ∀ t ∈ transfers', t.conn = i → session.backend = .ioUring →
      (t.id, t.handler) ∈ session.files ∨ t.id ∈ performedIds session.trace)
    (performed : ∀ number' r', (number', r') ∈ operations session.trace →
      (number', r') ∈ operations u.session.trace ∨ (number' = number ∧ outcome r' = r)) :
    WellTimed (.effect (i, k.cid) op r :: marks) ∧
      Tied i { u with session } transfers' (.effect (i, k.cid) op r :: marks) := by
  refine ⟨.effect timed hcall fresh, ?_, ?_, ?_, queued, ?_, ?_⟩
  · intro cid' op'
    rw [← h.calls cid' op', List.mem_cons, or_iff_right nofun]
  · intro t ht hconn
    rcases hnew t ht hconn with hold | ⟨hid, hhandler⟩
    · exact advances.dispatched _ _ (h.handlers t hold hconn)
    · rw [hid, hhandler]
      exact advances.dispatched _ _ hk
  · intro cid' op' r' he
    rcases List.mem_cons.mp he with heq | he
    · obtain ⟨hkey, -, -⟩ := Mark.effect.inj heq
      obtain ⟨-, rfl⟩ := Prod.mk.inj hkey
      exact ⟨number, advances.cid (by rw [hk]; rfl), taken⟩
    · obtain ⟨number', hhandler, htaken⟩ := h.effects cid' op' r' he
      refine ⟨number', advances.cid hhandler, htaken.imp ?_ fun hperf => advances.performed hperf⟩
      rintro ⟨t, ht, hkey⟩
      exact ⟨t, hsub ht, hkey⟩
  · intro number' r' hr
    rcases performed number' r' hr with hold | ⟨rfl, rfl⟩
    · obtain ⟨k', op', hk', hop⟩ := h.performed number' r' hold
      exact ⟨k', op', advances.dispatched _ _ hk', List.mem_cons_of_mem _ hop⟩
    · exact ⟨k, op, advances.dispatched _ _ hk, List.mem_cons_self⟩
  · intro cid' r' hr
    exact (h.returned cid' r' ((List.mem_cons.mp hr).resolve_left nofun)).advances advances

end Steps

section Joint

variable {syncWrites : Bool} {u : EasybdEndToEnd.State}

theorem handlerOperation_handler (q : Request) (cid : UInt64) :
    handlerOperation (q.handler syncWrites cid) = some (operation q) := by
  unfold Request.handler operation
  cases q.isRead <;> rfl

theorem issued_of_dispatched (joint : Joint syncWrites u) {number : ℕ} {k : Handler}
    (hk : u.session.dispatched[number]? = some k) :
    ∃ id q, Issued u.client k.cid id q ∧ k = q.handler syncWrites k.cid := by
  obtain ⟨cid, id, q, hq, rfl, -⟩ :=
    parsed_issued joint.both.ends (List.mem_append_left _ (List.mem_of_getElem? hk))
  rw [EasybdEndToEnd.cid_handler]
  exact ⟨id, q, hq, rfl⟩

theorem operation_of_dispatched (joint : Joint syncWrites u) {number : ℕ} {k : Handler}
    (hk : u.session.dispatched[number]? = some k) :
    ∃ id q, Issued u.client k.cid id q ∧ handlerOperation k = some (operation q) := by
  obtain ⟨id, q, hq, hhandler⟩ := issued_of_dispatched joint hk
  refine ⟨id, q, hq, ?_⟩
  rw [hhandler]
  exact handlerOperation_handler q _

theorem number_unique (joint : Joint syncWrites u) {number number' : ℕ} {cid : UInt64}
    (h : (u.session.dispatched[number]?).map Handler.cid = some cid)
    (h' : (u.session.dispatched[number']?).map Handler.cid = some cid) : number = number' := by
  have honce := cids_handlers joint.both.ends joint.both.few
  rw [← List.getElem?_map] at h h'
  have hlt := (List.getElem?_eq_some_iff.mp h).1
  exact (List.getElem?_inj hlt honce).mp (h.trans h'.symm)

theorem mem_of_under {id : ℕ} {r : FileResult} {l : List (ℕ × FileResult)}
    (h : EntryLedger.under id l = [r]) : (id, r) ∈ l := by
  have hmem : r ∈ EntryLedger.under id l := by
    rw [h]
    exact List.mem_singleton_self r
  obtain ⟨⟨id', r'⟩, hp, rfl⟩ := List.mem_map.mp hmem
  obtain ⟨hp, hkey⟩ := List.mem_filter.mp hp
  have hid : id' = id := of_decide_eq_true hkey
  rwa [hid] at hp

theorem fired_once (joint : Joint syncWrites u) : (firedIds u.client.trace).Nodup := by
  obtain ⟨done, failed, told, -⟩ := joint.goes
  exact (told.ledger.nodup_iff.mpr List.nodup_range).of_append_right

omit [DecidableEq ι] in
/-- A callback that is not told of a failure is told the outcome of the request's operation. -/
theorem returnOf_eq (joint : Joint syncWrites u) {i : ι} {id : ℕ} {res : Int64}
    (hres : (id, res) ∈ results u.client.trace) :
    returnOf i u (id, res) = none ∨
      ∃ cid q r, Issued u.client cid id q ∧ returnOf i u (id, res) = some (.ret (i, cid) r) ∧
        Returned u cid r := by
  by_cases gone : res = negErrno econnreset
  · exact Or.inl (if_pos gone)
  · have fired : id ∈ firedIds u.client.trace := by
      rw [← List.mem_reverse, ← EasybdClientReliable.results_ids]
      exact List.mem_map.mpr ⟨_, hres, rfl⟩
    obtain ⟨done, failed, told, -⟩ := joint.goes
    have hlt : id < u.client.requests.length :=
      List.mem_range.mp (told.ledger.mem_iff.mp (List.mem_append_right _ fired))
    have hq : Issued u.client (u.client.requests[id]).1 id (u.client.requests[id]).2 :=
      List.getElem?_eq_getElem hlt
    have hmem : res ∈ callbacks u id :=
      List.mem_map.mpr ⟨_, List.mem_filter.mpr ⟨hres, decide_eq_true rfl⟩, rfl⟩
    rcases (settled_of_joint joint).requests _ _ _ hq with hwaits | hfailed | ⟨number, r, answered⟩
    · rw [hwaits.callbacks] at hmem
      cases hmem
    · rw [hfailed.callbacks] at hmem
      exact absurd (List.mem_singleton.mp hmem) gone
    · have hcallbacks : callbacks u id = [res] := by
        obtain ⟨res', hres', -⟩ := answered.callbacks
        rw [hres'] at hmem ⊢
        rw [List.mem_singleton.mp hmem]
      refine Or.inr ⟨_, _, outcome r, hq, ?_, ⟨_, _, hq, fired⟩, number, r, ?_,
        mem_of_under answered.operation, rfl⟩
      · rw [returnOf, if_neg gone, List.getElem?_eq_getElem hlt, ← seen_eq answered hcallbacks]
        rfl
      · rw [answered.handler]
        exact congrArg some (EasybdEndToEnd.cid_handler _ _)

end Joint

omit [DecidableEq ι] in
theorem tied_returns {syncWrites : Bool} {i : ι} {u u' : EasybdEndToEnd.State}
    {transfers : List (Transfer ι)} {marks : List (Mark (ι × UInt64) Op Result)}
    (h : Tied i u' transfers marks) (timed : WellTimed marks) (joint : Joint syncWrites u')
    (hresults : results u'.client.trace = results u.client.trace ∨
      ∃ id res, results u'.client.trace = results u.client.trace ++ [(id, res)])
    (fired : ∀ cid r, .ret (i, cid) r ∈ marks →
      ∃ id q, Issued u'.client cid id q ∧ id ∈ firedIds u.client.trace) :
    WellTimed (returns i u u' ++ marks) ∧ Tied i u' transfers (returns i u u' ++ marks) := by
  rcases hresults with hsame | ⟨id, res, hmore⟩
  · rw [returns_same hsame, List.nil_append]
    exact ⟨timed, h⟩
  · rw [returns_one hmore]
    rcases returnOf_eq joint (i := i) (show (id, res) ∈ _ by simp [hmore]) with
      hnone | ⟨cid, q, r, hq, hsome, returned⟩
    · rw [hnone]
      exact ⟨timed, h⟩
    · rw [hsome, Option.toList_some, List.singleton_append]
      obtain ⟨number, fr, hcid, hfr, rfl⟩ := returned.operation
      obtain ⟨k, op, hk, hop⟩ := h.performed number fr hfr
      have honce := fired_once joint
      have hids : firedIds u'.client.trace = id :: firedIds u.client.trace := by
        rw [← List.reverse_inj, ← EasybdClientReliable.results_ids, hmore, List.map_append,
          EasybdClientReliable.results_ids, List.reverse_cons]
        rfl
      rw [hids, List.nodup_cons] at honce
      rw [hk, Option.map_some] at hcid
      obtain rfl := Option.some.inj hcid
      refine tied_return h timed returned (fun r' hr' => ?_) hop
      obtain ⟨id', q', hq', hfired⟩ := fired _ r' hr'
      obtain ⟨rfl, -⟩ := joint.both.ends.client.cids.issued_unique joint.both.few hq hq'
      exact honce.1 hfired

theorem tied_update {i : ι} {u' : EasybdEndToEnd.State} {conns : ι → EasybdEndToEnd.State}
    {transfers : List (Transfer ι)} {marks added : List (Mark (ι × UInt64) Op Result)}
    (h : ∀ j, Tied j (conns j) transfers marks) (hadded : ∀ m ∈ added, m.key.1 = i)
    (hi : Tied i u' transfers (added ++ marks)) (j : ι) :
    Tied j (Function.update conns i u' j) transfers (added ++ marks) := by
  by_cases hj : j = i
  · subst hj
    rwa [Function.update_self]
  · rw [Function.update_of_ne hj]
    exact tied_of_ne hj (h j) hadded

def Few (s : State ι) : Prop := ∀ i, numbered (s.conns i).client.trace < UInt64.size

instance [Fintype ι] (s : State ι) : Decidable (Few s) :=
  inferInstanceAs (Decidable (∀ i, numbered (s.conns i).client.trace < UInt64.size))

theorem consistent_client {i : ι} {e : EasybdClient.Event} (h : Consistent c s)
    (he : EasybdEndToEnd.Enabled (s.conns i) (.client e))
    (joint : Joint (c.syncWrites i) (EasybdEndToEnd.next (s.conns i) (.client e))) :
    Consistent c (next s (.conn i (.client e))) := by
  have step := EasybdClient.step_of_enabled he.1
  generalize hu' : EasybdEndToEnd.next (s.conns i) (.client e) = u' at joint
  have hclient : u' = { s.conns i with client := EasybdClient.next (s.conns i).client e } :=
    hu'.symm
  have hmarks : (next s (.conn i (.client e))).marks =
      returns i (s.conns i) u' ++ (calls i (s.conns i) u' ++ s.marks) := by
    simp [next, hu', refusals]
  have once := joint.both.ends.client.cids.nodup joint.both.few
  obtain ⟨timed, tied⟩ : WellTimed (calls i (s.conns i) u' ++ s.marks) ∧
      Tied i u' s.transfers (calls i (s.conns i) u' ++ s.marks) := by
    rw [hclient] at once ⊢
    exact tied_calls (h.tied i) h.timed (requests_step step) once (fired_step step)
  obtain ⟨timed, tied⟩ := tied_returns (u := s.conns i) tied timed joint
    (by rw [hclient]; exact results_step step) fun cid r hr => by
      rcases List.mem_append.mp hr with hnew | hold
      · obtain ⟨_, _, heq⟩ := mem_calls hnew
        cases heq
      · obtain ⟨id, q, hq, hid⟩ := ((h.tied i).returned cid r hold).fired
        rw [hclient]
        exact ⟨id, q, hq.step step, hid⟩
  constructor
  · rw [hmarks]
    exact timed
  · rw [hmarks, effects_append, effects_append, effects_calls, effects_returns, List.append_nil,
      List.append_nil]
    exact h.legal
  · intro t ht
    obtain ⟨op, hop⟩ := h.transfers t ht
    rw [hmarks]
    exact ⟨op, List.mem_append_right _ (List.mem_append_right _ hop)⟩
  · rw [hmarks, ← List.append_assoc]
    rw [← List.append_assoc] at tied
    have hkeys : ∀ m ∈ returns i (s.conns i) u' ++ calls i (s.conns i) u', m.key.1 = i := by
      intro m hm
      exact (List.mem_append.mp hm).elim (returns_keys m) (calls_keys m)
    simp only [next, hu']
    exact tied_update h.tied hkeys tied

theorem next_session {i : ι} {e : EasybdSession.Event} :
    next s (.conn i (.session e)) =
      { s with
        conns := Function.update s.conns i
          { s.conns i with session := EasybdSession.next (s.conns i).session e }
        marks := refusals (s.conns i) i (.session e) ++ s.marks } := by
  have hcalls : calls i (s.conns i) (EasybdEndToEnd.next (s.conns i) (.session e)) = [] :=
    calls_same rfl
  have hreturns : returns i (s.conns i) (EasybdEndToEnd.next (s.conns i) (.session e)) = [] :=
    returns_same rfl
  simp only [next, hcalls, hreturns, List.nil_append]
  rfl

omit [DecidableEq ι] in
theorem queued_next {i : ι} {e : EasybdSession.Event} (h : Consistent c s)
    (step : EasybdSession.Step (s.conns i).session e (EasybdSession.next (s.conns i).session e))
    (t : Transfer ι) (ht : t ∈ s.transfers) (hconn : t.conn = i)
    (uring : (EasybdSession.next (s.conns i).session e).backend = .ioUring) :
    (t.id, t.handler) ∈ (EasybdSession.next (s.conns i).session e).files ∨
      t.id ∈ performedIds (EasybdSession.next (s.conns i).session e).trace := by
  rw [backend_step step] at uring
  rcases (h.tied i).queued t ht hconn uring with hfiles | hperf
  · exact queued_step step hfiles
  · exact Or.inr (performed_grow step hperf)

theorem consistent_quiet {i : ι} {e : EasybdSession.Event} (h : Consistent c s)
    (step : EasybdSession.Step (s.conns i).session e (EasybdSession.next (s.conns i).session e))
    (hrefusals : refusals (s.conns i) i (.session e) = [])
    (performed : ∀ id r, (id, r) ∈ operations (EasybdSession.next (s.conns i).session e).trace →
      (id, r) ∈ operations (s.conns i).session.trace ∨
        ∃ k op, (EasybdSession.next (s.conns i).session e).dispatched[id]? = some k ∧
          .effect (i, k.cid) op (outcome r) ∈ s.marks) :
    Consistent c (next s (.conn i (.session e))) := by
  rw [next_session, hrefusals]
  refine ⟨h.timed, h.legal, h.transfers, ?_⟩
  have htied := tied_session (h.tied i) (advances_step step) (queued_next h step) performed
  exact tied_update h.tied (List.forall_mem_nil _) htied

/-- A file operation returns what the kernel's transfer has decided. -/
theorem consistent_settled {i : ι} {e : EasybdSession.Event} {id : ℕ} {k : Handler}
    {r : FileResult} (h : Consistent c s)
    (step : EasybdSession.Step (s.conns i).session e (EasybdSession.next (s.conns i).session e))
    (hrefusals : refusals (s.conns i) i (.session e) = []) (settled : Settled s i id k r)
    (hoperations : operations (EasybdSession.next (s.conns i).session e).trace =
      (id, r) :: operations (s.conns i).session.trace) :
    Consistent c (next s (.conn i (.session e))) := by
  refine consistent_quiet h step hrefusals fun id' r' hr' => ?_
  rw [hoperations] at hr'
  rcases List.mem_cons.mp hr' with heq | hold
  · obtain ⟨rfl, rfl⟩ := Prod.mk.inj heq
    obtain ⟨⟨t, ht, rfl, rfl, -, rfl⟩, -⟩ := settled
    obtain ⟨op, hop⟩ := h.transfers t ht
    have hk := (h.tied t.conn).handlers t ht rfl
    exact Or.inr ⟨t.handler, op, (advances_step step).dispatched _ _ hk, hop⟩
  · exact Or.inl hold

theorem performing_of_enabled {s : EasybdSession.State} {o : EasybdSession.FileOutcome}
    (he : EasybdSession.Enabled s (.perform o)) :
    ∃ id k stack, s.stack = .performing id k :: stack ∧ o.AtCall s.backend k := by
  simp only [EasybdSession.Enabled] at he
  split at he
  · next id k stack top => exact ⟨id, k, stack, top, he⟩
  · exact he.elim

theorem operations_perform {s s' : EasybdSession.State} {id : ℕ} {k : Handler} {r : FileResult}
    {stack : List EasybdSession.Frame} (top : s.stack = .performing id k :: stack)
    (step : EasybdSession.Step s (.perform (.result r)) s') :
    operations s'.trace = (id, r) :: operations s.trace := by
  cases step with
  | performed top' =>
    obtain ⟨hframe, -⟩ := List.cons.inj (top.symm.trans top')
    obtain ⟨rfl, rfl⟩ := EasybdSession.Frame.performing.inj hframe
    rw [operations_reply]
    rfl

/-- A call that io_uring turns down is a failed operation that changes nothing. -/
theorem consistent_refusal {i : ι} {id : ℕ} {k : Handler} {err : Errno}
    {stack : List EasybdSession.Frame} (h : Consistent c s)
    (joint : Joint (c.syncWrites i) (s.conns i))
    (step : EasybdSession.Step (s.conns i).session (.perform (.result (.error err)))
      (EasybdSession.next (s.conns i).session (.perform (.result (.error err)))))
    (top : (s.conns i).session.stack = .performing id k :: stack)
    (uring : (s.conns i).session.backend = .ioUring) :
    Consistent c (next s (.conn i (.session (.perform (.result (.error err)))))) := by
  have job := job_of_performing top
  have unperformed := joint.both.ends.accounted.jobs id k job
  have hk := (joint.both.ends.accounted.tasks _ job).1
  obtain ⟨id', q, hq, hop⟩ := operation_of_dispatched joint hk
  have hrefusals : refusals (s.conns i) i (.session (.perform (.result (.error err)))) =
      [.effect (i, k.cid) (operation q) (outcome (.error err))] := by
    simp [refusals, top, uring, hop]
  have hoperations := operations_perform top step
  have fresh : ∀ op r, .effect (i, k.cid) op r ∉ s.marks := by
    intro op r heffect
    obtain ⟨number, hcid, taken⟩ := (h.tied i).effects k.cid op r heffect
    obtain rfl := number_unique joint hcid (by rw [hk]; rfl)
    rcases taken with ⟨t, ht, hconn, rfl⟩ | hperf
    · rcases (h.tied i).queued t ht hconn uring with hfiles | hperf
      · exact not_queued joint.both.ends.accounted top hfiles
      · exact unperformed hperf
    · exact unperformed hperf
  have hperformed : id ∈ performedIds
      (EasybdSession.next (s.conns i).session (.perform (.result (.error err)))).trace := by
    refine (performed_ids _).mpr ⟨.error err, ?_⟩
    rw [hoperations]
    exact List.mem_cons_self
  obtain ⟨timed, tied⟩ := tied_effect (r := outcome (.error err)) _ _ (h.tied i) h.timed
    (advances_step step) hk (((h.tied i).calls k.cid (operation q)).mpr ⟨id', q, hq, rfl⟩) fresh
    (Or.inr hperformed) (List.Subset.refl _) (fun t ht _ => Or.inl ht) (queued_next h step) (by
      intro id' r' hr'
      rw [hoperations] at hr'
      refine (List.mem_cons.mp hr').symm.imp_right fun heq => ?_
      obtain ⟨rfl, rfl⟩ := Prod.mk.inj heq
      exact ⟨rfl, rfl⟩)
  rw [next_session, hrefusals]
  refine ⟨timed, ?_, ?_, ?_⟩
  · rw [List.singleton_append, effects_effect]
    exact h.legal.snoc (.fails err.pos)
  · intro t ht
    obtain ⟨op, hop⟩ := h.transfers t ht
    exact ⟨op, List.mem_cons_of_mem _ hop⟩
  · refine tied_update h.tied (fun m hm => ?_) tied
    rw [List.mem_singleton.mp hm]
    rfl

theorem consistent_session {i : ι} {e : EasybdSession.Event} (h : Consistent c s)
    (joint : Joint (c.syncWrites i) (s.conns i))
    (he : EasybdSession.Enabled (s.conns i).session e) (allowed : Allowed s i (.session e)) :
    Consistent c (next s (.conn i (.session e))) := by
  have step := EasybdSession.step_of_enabled he
  by_cases hperform : ∃ r, e = .perform (.result r)
  · obtain ⟨r, rfl⟩ := hperform
    obtain ⟨id, k, stack, top, atCall⟩ := performing_of_enabled he
    simp only [Allowed, top] at allowed
    cases hb : (s.conns i).session.backend with
    | libc =>
      refine consistent_settled h step ?_ (allowed hb) (operations_perform top step)
      simp [refusals, top, hb]
    | ioUring =>
      cases r with
      | transferred count data => exact absurd (atCall.1.symm.trans hb) (by decide)
      | error err => exact consistent_refusal h joint step top hb
  · have hrefusals : refusals (s.conns i) i (.session e) = [] := by
      unfold refusals
      split
      · next r heq => exact absurd ⟨r, EasybdEndToEnd.Event.session.inj heq⟩ hperform
      · rfl
    cases operation_step step with
    | same hsame =>
      refine consistent_quiet h step hrefusals fun id r hr => ?_
      rw [hsame] at hr
      exact Or.inl hr
    | returns id k r how hoperations =>
      rcases how with rfl | ⟨rfl, -⟩
      · exact consistent_settled h step hrefusals allowed hoperations
      · exact absurd ⟨r, rfl⟩ hperform

theorem consistent_transfer {i : ι} {id : ℕ} {k : Handler} {m : Medium} {late : Option Errno}
    (h : Consistent c s) (joint : Joint (c.syncWrites i) (s.conns i))
    (he : Enabled s (.transfer i id k m late)) :
    Consistent c (next s (.transfer i id k m late)) := by
  obtain ⟨submitted, untouched⟩ := he
  have job := job_of_submitted submitted
  have unperformed := joint.both.ends.accounted.jobs id k job
  have hk := (joint.both.ends.accounted.tasks _ job).1
  obtain ⟨id', q, hq, hop⟩ := operation_of_dispatched joint hk
  simp only [next]
  split
  · next r file op hperform hop' =>
    obtain rfl := Option.some.inj (hop.symm.trans hop')
    have fresh : ∀ op r, .effect (i, k.cid) op r ∉ s.marks := by
      intro op r heffect
      obtain ⟨number, hcid, taken⟩ := (h.tied i).effects k.cid op r heffect
      obtain rfl := number_unique joint hcid (by rw [hk]; rfl)
      rcases taken with ⟨t, ht, hkey⟩ | hperf
      · exact untouched t ht hkey
      · exact unperformed hperf
    obtain ⟨timed, tied⟩ := tied_effect (r := outcome (failsLate late k r)) (s.conns i).session
      (⟨i, id, k, failsLate late k r, startOf s.file k⟩ :: s.transfers) (h.tied i) h.timed .refl hk
      (((h.tied i).calls k.cid (operation q)).mpr ⟨id', q, hq, rfl⟩) fresh
      (Or.inl ⟨_, List.mem_cons_self, rfl, rfl⟩) (List.subset_cons_self _ _)
      (fun t ht _ => (List.mem_cons.mp ht).symm.imp_right fun heq => by rw [heq]; exact ⟨rfl, rfl⟩)
      (by
        intro t ht hconn uring
        rcases List.mem_cons.mp ht with rfl | ht
        · rw [Submitted, uring] at submitted
          exact Or.inl submitted
        · exact (h.tied i).queued t ht hconn uring) (fun _ _ hr => Or.inl hr)
    refine ⟨timed, ?_, ?_, fun j => ?_⟩
    · rw [effects_effect]
      exact h.legal.snoc (transfer_step hperform hop late)
    · intro t ht
      rcases List.mem_cons.mp ht with rfl | ht
      · exact ⟨_, List.mem_cons_self⟩
      · obtain ⟨op, hop⟩ := h.transfers t ht
        exact ⟨op, List.mem_cons_of_mem _ hop⟩
    · by_cases hj : j = i
      · subst hj
        exact tied
      · refine (h.tied j).frame (fun t hconn => ?_) fun m hm => ?_
        · refine List.mem_cons.trans (or_iff_right ?_)
          rintro rfl
          exact hj hconn.symm
        · refine List.mem_cons.trans (or_iff_right ?_)
          rintro rfl
          exact hj hm.symm
  · exact h

omit [DecidableEq ι] in
theorem consistent_initial : Consistent c (initial c) where
  timed := .nil
  legal := .nil _
  transfers := nofun
  tied _ := ⟨fun _ _ => ⟨nofun, fun ⟨_, _, hq, _⟩ => absurd hq nofun⟩, nofun, nofun, nofun, nofun,
    nofun⟩

theorem few_next {e : Event ι} (he : Enabled s e) (few : Few (next s e)) : Few s := by
  intro i
  have hnext := few i
  cases e with
  | conn j e =>
    by_cases hj : i = j
    · subst hj
      rw [conns_self] at hnext
      exact Nat.lt_of_le_of_lt (EasybdEndToEndFallible.numbered_next he.1) hnext
    · rwa [conns_of_ne hj] at hnext
  | transfer j id k m late => rwa [conns_transfer] at hnext
  | sync | writeBack => exact hnext

theorem consistent_of_run (h : Run machine Permanent (initial c) s) (few : Few s) :
    Consistent c s := by
  refine h.invariant_under
    (I := fun u => ∀ i, Run EasybdEndToEnd.machine EasybdEndToEndFallible.Permanent
      (EasybdEndToEnd.initial (c.clientBackend i) c.serverBackend (c.syncWrites i)) (u.conns i))
    (J := fun u => Few u → Consistent c u) (fun u hu => conns_run hu)
    (fun _ => consistent_initial) ?_ few
  intro u e hruns ih he g few'
  have few := few_next he few'
  have hu := ih few
  cases e with
  | conn i e =>
    cases e with
    | client e =>
      have hcan : EasybdEndToEnd.machine.Enabled (u.conns i) (.client e) := he.1
      refine consistent_client hu he.1 (joint_of_run ((hruns i).tail hcan g) ?_)
      have hlt := few' i
      rwa [machine, conns_self] at hlt
    | session e =>
      exact consistent_session hu (joint_of_run (hruns i) (few i)) he.1.1 he.2
  | transfer i id k m late =>
    exact consistent_transfer hu (joint_of_run (hruns i) (few i)) he
  | sync t => exact ⟨hu.timed, hu.legal, hu.transfers, hu.tied⟩
  | writeBack pos => exact ⟨hu.timed, hu.legal, hu.transfers, hu.tied⟩

/-- The clients of a server share one block device, whatever fails: a request that is told of a
failure may have been carried out, may still be carried out later, or never. Where a request at
offset 2^64-1 reads or writes, the device may choose. -/
theorem connections_linearizable (h : Run machine Permanent (initial c) s) (few : Few s) :
    Linearizable (Step (2 ^ 63)) (device c.file.content) (history s.marks) := by
  have hs := consistent_of_run h few
  exact ⟨_, linearizes_effects hs.timed hs.legal⟩

/-- A byte that a client reads is the initial one, and no write of it had returned before the
read was called; or it is what a write stored that had not returned before such a write was
called, nor was called after the read had returned. The read and the writes of that byte name its
place; the source may also be a write at offset 2^64-1. -/
theorem reads_not_stale (h : Run machine Permanent (initial c) s) (few : Few s)
    {q : ι × UInt64} {op : Op} {r : Result} (hcall : .call q op ∈ history s.marks)
    (hret : .ret q r ∈ history s.marks) {pos : ℕ} {v : UInt8} (found : Found op r pos v) :
    (v = (device c.file.content).byte pos ∧ ∀ w, ¬ WroteBefore (history s.marks) pos w q) ∨
      ∃ k opk, .call k opk ∈ history s.marks ∧ MayStore opk pos v ∧
        ¬ Precedes (history s.marks) q k ∧
        ∀ w, WroteBefore (history s.marks) pos w q → ¬ Precedes (history s.marks) k w := by
  have hs := consistent_of_run h few
  exact found_source (linearizes_effects hs.timed hs.legal) hs.timed.calledOnce hcall hret found

section Traces

open EasybdClientBuffers (shortWrite)
open EasybdOffsets (willing)

/-- Two clients on a file of three zeros; only the first of them asks for synchronous writes. -/
def shared : Config Bool where
  serverBackend := .ioUring
  clientBackend _ := .libc
  syncWrites first := first
  file := ⟨[0, 0, 0], 0⟩

def onClient (i : Bool) (es : List EasybdClient.Event) : List (Event Bool) :=
  es.map fun e => .conn i (.client e)

def onSession (i : Bool) (es : List EasybdSession.Event) : List (Event Bool) :=
  es.map fun e => .conn i (.session e)

def firstWrite : Handler := shortWrite.handler true 1

def secondRead : Handler := shortRead.handler false 1

def writeReply : EasybdSession.Reply := EasybdSession.State.replyOf 0 firstWrite ⟨1, 2, []⟩

def readReply : EasybdSession.Reply := EasybdSession.State.replyOf 0 secondRead ⟨1, 2, [7, 8]⟩

def submitted : List (Event Bool) :=
  onClient true [.request shortWrite none, .sendCall (.accepted 27), .run, .run,
    .requestReturn] ++
  onSession true [.received [shortWrite.encode true 1], .run, .alloc true, .run, .alloc true,
    .perform .suspended, .run] ++
  onClient false [.request shortRead none, .sendCall (.accepted 25), .run, .run, .requestReturn,
    .wait, .poll] ++
  onSession false [.received [shortRead.encode false 1], .run, .alloc true, .alloc true,
    .perform .suspended, .run]

def transferred : List (Event Bool) :=
  [.transfer true 0 firstWrite willing none, .transfer false 0 secondRead willing none]

/-- The writer's connection breaks before its write is answered. -/
def writerLost : List (Event Bool) :=
  onClient true [.wait, .poll, .receiveFailed, .drain [⟨false, 0⟩], .run, .callbackReturn, .run,
    .waitReturn]

def readReturned : List (Event Bool) :=
  onSession false [.fileReady 0 secondRead (.transferred 2 [7, 8]), .sendCall .suspended,
    .complete readReply (.accepted 18), .reap readReply (some 18), .run, .run, .run] ++
  onClient false [.received [Response.encode ⟨1, 2, [7, 8]⟩], .run, .run]

def writeReturned : List (Event Bool) :=
  [.sync ⟨true, 0, firstWrite, .transferred 2 [], 0⟩] ++
  onSession true [.fileReady 0 firstWrite (.transferred 2 []), .sendCall .suspended,
    .complete writeReply (.accepted 16), .reap writeReply (some 16), .run, .run, .run] ++
  onClient true [.wait, .poll, .received [ResponseHeader.bytes ⟨1, 2⟩], .run]

/-- The write is carried out after its callback has been told that the connection is gone. -/
def writtenAfterLoss : List (Event Bool) :=
  submitted ++ writerLost ++ transferred ++ readReturned

theorem writtenAfterLoss_run : Run machine Permanent (initial shared)
    (runTrace machine (initial shared) writtenAfterLoss) :=
  run_of_trace _ (by decide +kernel) (by decide +kernel)

theorem connections_linearizable_written_after_loss :
    let s := runTrace machine (initial shared) writtenAfterLoss
    callbacks (s.conns true) 0 = [negErrno econnreset] ∧
      s.marks.head? = some (.ret (false, 1) ⟨2, [7, 8]⟩) ∧
      Linearizable (Step (2 ^ 63)) (device [0, 0, 0]) (history s.marks) :=
  ⟨by decide +kernel, by decide +kernel,
    connections_linearizable writtenAfterLoss_run (by decide +kernel)⟩

/-- The read has found the bytes of a write that will never return. -/
theorem reads_not_stale_written_after_loss :
    let s := runTrace machine (initial shared) writtenAfterLoss
    (7 = (device [0, 0, 0]).byte 0 ∧ ∀ w, ¬ WroteBefore (history s.marks) 0 w (false, 1)) ∨
      ∃ k op, .call k op ∈ history s.marks ∧ MayStore op 0 7 ∧
        ¬ Precedes (history s.marks) (false, 1) k ∧
        ∀ w, WroteBefore (history s.marks) 0 w (false, 1) → ¬ Precedes (history s.marks) k w := by
  intro s
  have hcall : .call (false, 1) (.read (some 0) 2) ∈ s.marks := by decide +kernel
  have hret : .ret (false, 1) ⟨2, [7, 8]⟩ ∈ s.marks := by decide +kernel
  exact reads_not_stale writtenAfterLoss_run (by decide +kernel) (call_mem_history.mpr hcall)
    (ret_mem_history.mpr hret) ⟨0, rfl, rfl⟩

end Traces

end EasybdBlockServiceHistory
