import Mathlib.Algebra.Order.Group.Multiset
import Mathlib.Tactic.Abel
import EasyBD.EasybdClient

/-! What `_pending` and the live `send_request` coroutines refer to, in every run: an entry
belongs to the request that was issued under its cid, and so does a sender. -/
namespace EasybdClientTable

open TransitionRuns EntryLedger EasybdProtocol EasyioQueue EasyioMutex EasybdRequests EasybdClient

/-- What stays the same of a `send_request` coroutine from one `send` to the next. -/
structure Task where
  request : ℕ
  cid : UInt64
  payload : List UInt8
  deriving DecidableEq

def task (t : SendRequest) : Task := ⟨t.request, t.cid, t.payload⟩

def Frame.senders : Frame → Multiset SendRequest
  | .calling t => {t}
  | .returned t _ => {t}
  | _ => 0

def stackSenders (stack : List Frame) : Multiset SendRequest := (stack.map Frame.senders).sum

@[simp] theorem stackSenders_cons (f : Frame) (stack : List Frame) :
    stackSenders (f :: stack) = Frame.senders f + stackSenders stack := rfl

/-- The coroutines that have not left `send_all`, wherever they are. -/
def senders (s : State) : Multiset SendRequest :=
  s.sendMtx.waiters + s.io + (s.cq.map Prod.fst : List SendRequest) + s.ops + stackSenders s.stack

def tasks (s : State) : Multiset Task := (senders s).map task

def Leaves (s : State) (e : Event) (t : SendRequest) : Prop :=
  e = .run ∧ ∃ c stack, s.stack = .returned t c :: stack ∧
    ∀ n, c = some n → (State.resumed t n).send.Finished

@[simp] theorem task_resumed (t : SendRequest) (n : ℕ) : task (State.resumed t n) = task t := rfl

inductive SendersStep (s : State) (e : Event) (s' : State) : Prop where
  | same (h : tasks s' = tasks s)
  | starts (r : Request) (he : e = .request r none)
      (hreq : s'.requests = s.requests ++ [(s.nextCid, r)])
      (h : tasks s' = task (s.sendRequest r) ::ₘ tasks s)
  | leaves (t : SendRequest) (ht : Leaves s e t) (h : tasks s = task t ::ₘ tasks s')

theorem SendersStep.of_same {s s' : State} {e : Event} (h : senders s' = senders s) :
    SendersStep s e s' := .same (congrArg (Multiset.map task) h)

theorem SendersStep.of_starts {s s' : State} {r : Request}
    (hreq : s'.requests = s.requests ++ [(s.nextCid, r)])
    (h : senders s' = {s.sendRequest r} + senders s) :
    SendersStep s (.request r none) s' :=
  .starts r rfl hreq (by rw [tasks, h, Multiset.singleton_add, Multiset.map_cons]; rfl)

theorem SendersStep.of_leaves {s s' : State} {t : SendRequest} {c : Option ℕ}
    {stack : List Frame} (top : s.stack = .returned t c :: stack)
    (finished : ∀ n, c = some n → (State.resumed t n).send.Finished)
    (h : senders s = {t} + senders s') : SendersStep s .run s' :=
  .leaves t ⟨rfl, c, stack, top, finished⟩
    (by rw [tasks, h, Multiset.singleton_add, Multiset.map_cons]; rfl)

section Steps

variable {s s' : State}

theorem senders_request {r : Request} {fault : Option Fault} (step : Step s (.request r fault) s') :
    SendersStep s (.request r fault) s' := by
  cases step with
  | oversized | noEntry | noFrame => exact .of_same rfl
  | sends =>
    refine .of_starts rfl ?_
    simp only [senders, Mutex.take, State.ops, State.register, stackSenders_cons, Frame.senders]
    abel
  | queues =>
    refine .of_starts rfl ?_
    simp only [senders, Mutex.wait, State.ops, State.register, stackSenders_cons, Frame.senders,
      ← Multiset.coe_add, Multiset.coe_singleton]
    abel

/-- `destroy` and the calls in it only move the operations it cancels. -/
theorem senders_destroy (step : Step s .destroy s') : senders s' = senders s := by
  cases step with
  | destroyUring idle => simp only [senders, State.ops, idle.2]
  | destroyEnded idle =>
    simp only [senders, State.ops, idle.2, Multiset.coe_nil]
    abel
  | destroyReading idle =>
    simp only [senders, State.ops, State.endReader, idle.2, stackSenders_cons, Frame.senders,
      Multiset.coe_nil]
    abel

theorem senders_cancel (step : Step s .cancel s') : senders s' = senders s := by
  cases step with
  | cancel flat call =>
    simp only [senders, State.ops, flat, call, stackSenders_cons, Frame.senders,
      ← Multiset.cons_coe, ← Multiset.singleton_add]
    abel

variable {t : SendRequest} {o : SendOutcome} {count : Option ℕ}

theorem senders_sendCall (step : Step s (.sendCall o) s') : senders s' = senders s := by
  cases step with
  | callBlocks top =>
    simp only [senders, State.ops, top, stackSenders_cons, Frame.senders, ← Multiset.coe_add,
      Multiset.coe_singleton]
    abel
  | callReturns top => simp only [senders, State.ops, top, stackSenders_cons, Frame.senders]

theorem senders_sendReady (step : Step s (.sendReady t o) s') : senders s' = senders s := by
  cases step with
  | stillBlocked => rfl
  | readyReturns dispatching mem =>
    have hio : (s.io : Multiset SendRequest) = {t} + (s.io.erase t : List SendRequest) := by
      simpa using coe_map_erase mem id
    simp only [senders, State.ops, stackSenders_cons, Frame.senders, hio]
    abel

theorem senders_complete (step : Step s (.complete t o) s') : senders s' = senders s := by
  cases step with
  | completes mem =>
    have hio : (s.io : Multiset SendRequest) = {t} + (s.io.erase t : List SendRequest) := by
      simpa using coe_map_erase mem id
    simp only [senders, State.ops, hio, List.map_append, List.map_cons, List.map_nil,
      ← Multiset.coe_add, Multiset.coe_singleton]
    abel

theorem senders_reap (step : Step s (.reap t count) s') : senders s' = senders s := by
  cases step with
  | reap dispatching mem =>
    simp only [senders, State.ops, State.push, stackSenders_cons, Frame.senders, coe_map_erase mem]
    abel

theorem senders_run (step : Step s .run s') : SendersStep s .run s' := by
  cases step with
  | sendsOn top more =>
    refine .same ?_
    simp only [tasks, senders, State.ops, top, stackSenders_cons, Frame.senders,
      Multiset.map_add, Multiset.map_singleton, task_resumed]
  | sent top finished =>
    refine .of_leaves top (by rintro _ ⟨⟩; exact finished) ?_
    simp only [senders, State.ops, top, stackSenders_cons, Frame.senders]
    abel
  | sendThrows top | sendThrowsLate top =>
    refine .of_leaves top (by rintro _ ⟨⟩) ?_
    simp only [senders, State.ops, State.fire, top, stackSenders_cons, Frame.senders]
    abel
  | handsOver top waiting =>
    refine .of_same ?_
    simp only [senders, State.ops, top, waiting, stackSenders_cons, Frame.senders,
      ← Multiset.cons_coe, ← Multiset.singleton_add]
    abel
  | frees top | readsOn top | unknownCid top | awaitsBody top | answered top | copies top
  | readsNothing top | failsNext top | failedAll top =>
    exact .of_same (by simp [senders, State.ops, State.endReader, State.finishResponse, State.fire,
      State.push, State.emit, top, Frame.senders])

theorem senders_step {e : Event} (step : Step s e s') : SendersStep s e s' := by
  have hstep := step
  cases step with
  | oversized | noEntry | noFrame | sends | queues => exact senders_request hstep
  | requestReturn top | callbackReturn top | drain top =>
    exact .of_same (by simp [senders, State.ops, top, Frame.senders])
  | wait idle => exact .of_same (by simp only [senders, State.ops, State.emit, idle.2])
  | pollFailed _ flat call | poll flat call | waitReturn flat call | destroyReturn flat call =>
    exact .of_same (by simp only [senders, State.ops, State.emit, call])
  | destroyUring | destroyEnded | destroyReading => exact .of_same (senders_destroy hstep)
  | cancel => exact .of_same (senders_cancel hstep)
  | callBlocks | callReturns => exact .of_same (senders_sendCall hstep)
  | stillBlocked | readyReturns => exact .of_same (senders_sendReady hstep)
  | completes => exact .of_same (senders_complete hstep)
  | reap => exact .of_same (senders_reap hstep)
  | received | receiveFailed =>
    exact .of_same (by simp [senders, State.ops, State.push, State.emit, State.endReader,
      Frame.senders])
  | _ => exact senders_run hstep

end Steps

def Issued (s : State) (cid : UInt64) (id : ℕ) (r : Request) : Prop :=
  s.requests[id]? = some (cid, r)

/-- `_pending`, the reader's copy of an entry and the senders name issued requests, and no
issued request is over the size limit. -/
structure Table (s : State) : Prop where
  entries : ∀ cid p, s.pending.lookup cid = some p →
    ∃ r, Issued s cid p.request r ∧ r.isRead = p.isRead
  body : ∀ cid res p, s.readerAt = .body cid res p →
    (∃ r, Issued s cid p.request r ∧ r.isRead = p.isRead) ∧ p.isRead = true ∧ 0 < res
  tasks : ∀ k ∈ tasks s, ∃ r, Issued s k.cid k.request r ∧ k.payload = r.payload
  sizes : ∀ cid id r, Issued s cid id r → r.size ≤ easybdMaxPayloadSize
  accepted : ∀ id, .accepted id ∈ s.trace → id < s.requests.length

theorem table_initial (backend : Backend) (syncWrites : Bool) :
    Table (initial backend syncWrites) where
  entries := by rintro cid p ⟨⟩
  body := by rintro cid res p ⟨⟩
  tasks := by rintro k hk; exact absurd hk (Multiset.notMem_zero k)
  sizes := by rintro cid id r ⟨⟩
  accepted := by rintro id ⟨⟩

theorem requests_step {s s' : State} {e : Event} (step : Step s e s') :
    s'.requests = s.requests ∨
      ∃ r, ¬ easybdMaxPayloadSize < r.size ∧ s'.requests = s.requests ++ [(s.nextCid, r)] := by
  cases step with
  | noFrame r may size => exact Or.inr ⟨r, size, rfl⟩
  | sends r may size => exact Or.inr ⟨r, size, rfl⟩
  | queues r may size => exact Or.inr ⟨r, size, rfl⟩
  | _ => exact Or.inl rfl

theorem Issued.step {s s' : State} {e : Event} (step : Step s e s') {cid : UInt64} {id : ℕ}
    {r : Request} (h : Issued s cid id r) : Issued s' cid id r := by
  rcases requests_step step with hreq | ⟨q, -, hreq⟩
  · rwa [Issued, hreq]
  · rw [Issued, hreq, List.getElem?_append_left (List.getElem?_eq_some_iff.mp h).1]
    exact h

theorem entries_step {s s' : State} {e : Event} (step : Step s e s') {cid : UInt64} {p : Pending}
    (h : s'.pending.lookup cid = some p) :
    s.pending.lookup cid = some p ∨ ∃ r, cid = s.nextCid ∧ p = ⟨r.isRead, s.requests.length⟩ ∧
      s'.requests = s.requests ++ [(cid, r)] ∧
      (e = .request r (some .spawn) ∨ task (s.sendRequest r) ∈ tasks s') := by
  have inserted : ∀ r : Request,
      (s.pending.insert s.nextCid ⟨r.isRead, s.requests.length⟩).lookup cid = some p →
      s.pending.lookup cid = some p ∨ cid = s.nextCid ∧ p = ⟨r.isRead, s.requests.length⟩ := by
    intro r hlook
    by_cases hc : cid = s.nextCid
    · subst hc
      rw [AList.lookup_insert] at hlook
      exact Or.inr ⟨rfl, (Option.some.inj hlook).symm⟩
    · rw [AList.lookup_insert_ne hc] at hlook
      exact Or.inl hlook
  cases step with
  | noFrame r =>
    rcases inserted r h with hold | ⟨rfl, rfl⟩
    · exact Or.inl hold
    · exact Or.inr ⟨r, rfl, rfl, rfl, Or.inl rfl⟩
  | sends r =>
    rcases inserted r h with hold | ⟨rfl, rfl⟩
    · exact Or.inl hold
    · exact Or.inr ⟨r, rfl, rfl, rfl, Or.inr (by simp [tasks, senders, Frame.senders])⟩
  | queues r =>
    rcases inserted r h with hold | ⟨rfl, rfl⟩
    · exact Or.inl hold
    · exact Or.inr ⟨r, rfl, rfl, rfl, Or.inr (by simp [tasks, senders, Mutex.wait])⟩
  | drain => cases h
  | sendThrows => exact Or.inl (lookup_of_lookup_erase h)
  | answered => exact Or.inl (lookup_of_lookup_erase h)
  | copies => exact Or.inl (lookup_of_lookup_erase h)
  | _ => exact Or.inl h

/-- The reader starts to wait for a body only with an entry it has just found. -/
theorem body_step {s s' : State} {e : Event} (step : Step s e s') {cid : UInt64} {res : Int64}
    {p : Pending} (h : s'.readerAt = .body cid res p) :
    s.readerAt = .body cid res p ∨
      s.pending.lookup cid = some p ∧ p.isRead = true ∧ 0 < res := by
  cases step with
  | awaitsBody top at_ enough resp bytes known read pos =>
    obtain ⟨rfl, rfl, rfl⟩ := Reader.body.inj h
    exact Or.inr ⟨known, read, pos⟩
  | destroyReading => cases h
  | receiveFailed => cases h
  | unknownCid => cases h
  | answered => cases h
  | copies => cases h
  | _ => exact Or.inl h

theorem accepted_step {s s' : State} {e : Event} (step : Step s e s') {id : ℕ}
    (h : .accepted id ∈ s'.trace) :
    .accepted id ∈ s.trace ∨ id < s'.requests.length := by
  have hshown : ∀ b t o, Effect.accepted id ∉ shown b t o := by
    intro b t o
    unfold shown
    split <;> simp
  have htaken : ∀ t o, Effect.accepted id ∉ taken t o := by
    rintro t (_ | _ | _) <;> simp [taken]
  cases step with
  | sends =>
    have hnew : id = s.requests.length ∨ .accepted id ∈ s.trace := by simpa using h
    exact hnew.symm.imp_right fun hid => by simp [hid]
  | queues =>
    have hnew : id = s.requests.length ∨ .accepted id ∈ s.trace := by simpa using h
    exact hnew.symm.imp_right fun hid => by simp [hid]
  | callBlocks => exact Or.inl (by simpa [hshown] using h)
  | callReturns => exact Or.inl (by simpa [hshown, htaken] using h)
  | stillBlocked => exact Or.inl (by simpa [hshown] using h)
  | readyReturns => exact Or.inl (by simpa [hshown, htaken] using h)
  | completes => exact Or.inl (by simpa [htaken] using h)
  | _ => exact Or.inl (by simpa using h)

theorem table_step {s s' : State} {e : Event} (h : Table s) (step : Step s e s') : Table s' where
  entries cid p hlook := by
    rcases entries_step step hlook with hold | ⟨r, rfl, rfl, hreq, -⟩
    · obtain ⟨r, hr, hread⟩ := h.entries cid p hold
      exact ⟨r, hr.step step, hread⟩
    · refine ⟨r, ?_, rfl⟩
      rw [Issued, hreq]
      exact List.getElem?_concat_length
  body cid res p hat := by
    rcases body_step step hat with hold | ⟨known, read, pos⟩
    · obtain ⟨⟨r, hr, hread⟩, hrest⟩ := h.body cid res p hold
      exact ⟨⟨r, hr.step step, hread⟩, hrest⟩
    · obtain ⟨r, hr, hread⟩ := h.entries cid p known
      exact ⟨⟨r, hr.step step, hread⟩, read, pos⟩
  tasks k hk := by
    have keep : k ∈ EasybdClientTable.tasks s →
        ∃ r, Issued s' k.cid k.request r ∧ k.payload = r.payload := by
      intro hold
      obtain ⟨r, hr, hp⟩ := h.tasks k hold
      exact ⟨r, hr.step step, hp⟩
    cases senders_step step with
    | same hsame => exact keep (hsame ▸ hk)
    | starts r he hreq hstarts =>
      rw [hstarts, Multiset.mem_cons] at hk
      rcases hk with rfl | hk
      · refine ⟨r, ?_, rfl⟩
        rw [Issued, hreq]
        exact List.getElem?_concat_length
      · exact keep hk
    | leaves t ht hleaves => exact keep (hleaves ▸ Multiset.mem_cons_of_mem hk)
  sizes cid id r hr := by
    rcases requests_step step with hreq | ⟨q, hsize, hreq⟩
    · exact h.sizes cid id r (by rwa [Issued, hreq] at hr)
    · rw [Issued, hreq] at hr
      rcases List.mem_append.mp (List.mem_of_getElem? hr) with hm | hm
      · obtain ⟨i, hi⟩ := List.getElem?_of_mem hm
        exact h.sizes cid i r hi
      · obtain ⟨-, rfl⟩ := Prod.mk.inj (List.mem_singleton.mp hm)
        exact UInt64.not_lt.mp hsize
  accepted id hid := by
    rcases accepted_step step hid with hold | hlt
    · have hlt := h.accepted id hold
      rcases requests_step step with hreq | ⟨q, -, hreq⟩
      · rwa [hreq]
      · rw [hreq, List.length_append]
        exact Nat.lt_add_right _ hlt
    · exact hlt

def incoming (s : State) : ResponseHeader := .ofBytes (s.reader.unread.take responseHeaderSize)

section Fired

/-- The requests a running `fail_all_pending` has taken out of the map and not yet failed. -/
def Frame.drained : Frame → List ℕ
  | .failing ps => ps.map Pending.request
  | _ => []

def drained (s : State) : List ℕ := s.stack.flatMap Frame.drained

def pendingIds (s : State) : List ℕ := (values s.pending).map Pending.request

@[simp] def Effect.firedId : Effect → Option ℕ
  | .fired id _ _ => some id
  | _ => none

def firedIds (trace : List Effect) : List ℕ := trace.filterMap Effect.firedId

def fires (s : State) (id : ℕ) : ℕ := (firedIds s.trace).count id

@[simp] theorem firedIds_shown (b : Backend) (t : SendRequest) (o : SendOutcome)
    (trace : List Effect) : firedIds (shown b t o ++ trace) = firedIds trace := by
  unfold shown
  split <;> rfl

@[simp] theorem firedIds_taken (t : SendRequest) (o : SendOutcome) (trace : List Effect) :
    firedIds (taken t o ++ trace) = firedIds trace := by
  cases o <;> rfl

@[simp] theorem firedIds_cons (e : Effect) (trace : List Effect) :
    firedIds (e :: trace) = (Effect.firedId e).toList ++ firedIds trace := by
  cases e <;> rfl

/-- The requests whose callback is still to come. -/
def openIds (s : State) : List ℕ := pendingIds s ++ drained s

/-- How the open and the fired requests change. Only an overwritten cid, and a body that
arrives for an entry no longer in the map, keep this from being a ledger. -/
inductive LedgerStep (s : State) (e : Event) (s' : State) : Prop where
  | keeps (hopen : (openIds s').Perm (openIds s)) (hfired : firedIds s'.trace = firedIds s.trace)
      (hcount : s'.requests.length = s.requests.length)
  | issues (r : Request) (fault : Option Fault) (he : e = .request r fault)
      (hopen : openIds s' = s.requests.length ::
        ((values (s.pending.erase s.nextCid)).map Pending.request ++ drained s))
      (hfired : firedIds s'.trace = firedIds s.trace)
      (hcount : s'.requests.length = s.requests.length + 1)
  | closes (id : ℕ) (hopen : (openIds s).Perm (id :: openIds s'))
      (hfired : firedIds s'.trace = id :: firedIds s.trace)
      (hcount : s'.requests.length = s.requests.length)
  | copies (cid : UInt64) (res : Int64) (p : Pending) (stack : List Frame) (he : e = .run)
      (top : s.stack = .reading :: stack) (at_ : s.readerAt = .body cid res p)
      (enough : s.readerAt.needed ≤ s.reader.unread.length)
      (hopen : openIds s' = (values (s.pending.erase cid)).map Pending.request ++ drained s)
      (hfired : firedIds s'.trace = p.request :: firedIds s.trace)
      (hcount : s'.requests.length = s.requests.length)

theorem LedgerStep.of_same {s s' : State} {e : Event} (hopen : openIds s' = openIds s)
    (hfired : firedIds s'.trace = firedIds s.trace) (hreq : s'.requests = s.requests) :
    LedgerStep s e s' := .keeps (by rw [hopen]) hfired (by rw [hreq])

theorem openIds_erase {s : State} {cid : UInt64} {p : Pending}
    (known : s.pending.lookup cid = some p) : (openIds s).Perm
      (p.request :: ((values (s.pending.erase cid)).map Pending.request ++ drained s)) :=
  ((values_erase known).map Pending.request).append_right (drained s)

theorem ledger_step {s s' : State} {e : Event} (step : Step s e s') : LedgerStep s e s' := by
  cases step with
  | oversized | noEntry | wait | pollFailed | poll | waitReturn | destroyUring | destroyEnded
  | destroyReading | destroyReturn | reap | received | receiveFailed =>
    exact .of_same rfl rfl rfl
  | noFrame r | sends r | queues r =>
    refine .issues r _ rfl ?_ rfl (by simp)
    simp [openIds, pendingIds, drained, values_insert, Frame.drained]
  | cancel flat =>
    exact .of_same (by simp [openIds, pendingIds, drained, flat, Frame.drained]) rfl rfl
  | callBlocks top | callReturns top =>
    exact .of_same (by simp [openIds, pendingIds, drained, top, Frame.drained]) (by simp) rfl
  | stillBlocked | readyReturns | completes => exact .of_same rfl (by simp) rfl
  | requestReturn top | callbackReturn top | sendsOn top | sent top | sendThrowsLate top
  | handsOver top | frees top | readsOn top | unknownCid top | awaitsBody top | readsNothing top
  | failedAll top =>
    exact .of_same (by simp [openIds, pendingIds, drained, top, Frame.drained]) rfl rfl
  | @drain order stack top perm =>
    refine .keeps ?_ rfl rfl
    have hsame : (order.map Pending.request).Perm (pendingIds s) := perm.map _
    simpa [openIds, pendingIds, drained, top, Frame.drained, values] using
      hsame.append_right (stack.flatMap Frame.drained)
  | sendThrows top known =>
    refine .closes _ ?_ rfl rfl
    simpa [openIds, pendingIds, drained, top, Frame.drained] using openIds_erase known
  | answered top at_ enough resp bytes known =>
    refine .closes _ ?_ rfl rfl
    simpa [openIds, pendingIds, drained, top, Frame.drained] using openIds_erase known
  | copies top at_ enough =>
    refine .copies _ _ _ _ rfl top at_ enough ?_ rfl rfl
    simp [openIds, pendingIds, drained, top, Frame.drained]
  | failsNext top =>
    refine .closes _ ?_ rfl rfl
    simp only [openIds, pendingIds, drained, top, State.fire, List.flatMap_cons, Frame.drained,
      List.map_cons, List.cons_append, List.nil_append]
    exact List.perm_middle

/-- No request is open twice or both open and fired, and only the end of the reader drains. -/
structure Unfired (s : State) : Prop where
  nodup : (openIds s).Nodup
  unfired : ∀ id ∈ openIds s, id ∉ firedIds s.trace
  bounded : ∀ id ∈ openIds s ++ firedIds s.trace, id < s.requests.length

def firing (s : State) : Event → Option ℕ
  | .run =>
    match s.stack with
    | .returned t none :: _ => (s.pending.lookup t.cid).map Pending.request
    | .reading :: _ =>
      if s.reader.unread.length < s.readerAt.needed then none
      else match s.readerAt with
        | .header =>
          match s.pending.lookup (incoming s).cid with
          | some p => if p.isRead = true ∧ 0 < (incoming s).res then none else some p.request
          | none => none
        | .body _ _ p => some p.request
        | .ended => none
    | .failing (p :: _) :: _ => some p.request
    | _ => none
  | _ => none

theorem firedIds_step {s s' : State} {e : Event} (step : Step s e s') :
    firedIds s'.trace = (firing s e).toList ++ firedIds s.trace := by
  cases step with
  | callBlocks top => simp [firing]
  | callReturns top => simp [firing]
  | stillBlocked => simp [firing]
  | readyReturns => simp [firing]
  | completes => simp [firing]
  | sendsOn top => simp [firing, top]
  | sent top => simp [firing, top]
  | sendThrows top known => simp [firing, top, known]
  | sendThrowsLate top gone => simp [firing, top, gone]
  | handsOver top => simp [firing, top]
  | frees top => simp [firing, top]
  | readsOn top short => simp [firing, top, short]
  | unknownCid top at_ enough unknown =>
    rw [at_] at enough
    simp [firing, top, at_, Nat.not_lt.mpr enough, incoming, unknown]
  | awaitsBody top at_ enough resp bytes known read pos =>
    subst bytes
    rw [at_] at enough
    simp [firing, top, at_, Nat.not_lt.mpr enough, incoming, known, read, pos]
  | answered top at_ enough resp bytes known bodiless =>
    subst bytes
    rw [at_] at enough
    simp [firing, top, at_, Nat.not_lt.mpr enough, incoming, known, bodiless]
  | copies top at_ enough =>
    rw [at_] at enough
    simp [firing, top, at_, Nat.not_lt.mpr enough]
  | readsNothing top at_ => simp [firing, top, at_]
  | failsNext top => simp [firing, top]
  | failedAll top => simp [firing, top]
  | _ => rfl

def Ends (s : State) : Prop :=
  ∀ f ∈ s.stack, f = .failAllPending ∨ Frame.drained f ≠ [] → s.readerAt = .ended

theorem Ends.of_frames {s s' : State} (h : Ends s)
    (hstack : ∀ f ∈ s'.stack, f ∈ s.stack ∨ f ≠ .failAllPending ∧ Frame.drained f = [])
    (hat : s.readerAt = .ended → s'.readerAt = .ended) : Ends s' := by
  intro f hf hd
  rcases hstack f hf with hold | ⟨hne, hnil⟩
  · exact hat (h f hold hd)
  · exact absurd hd (by simp [hne, hnil])

theorem ends_step {s s' : State} {e : Event} (h : Ends s) (step : Step s e s') : Ends s' := by
  cases step with
  | destroyReading => exact fun _ _ _ => rfl
  | receiveFailed => exact fun _ _ _ => rfl
  | unknownCid => exact fun _ _ _ => rfl
  | drain top =>
    have hat : s.readerAt = .ended := h .failAllPending (by simp [top]) (Or.inl rfl)
    exact fun _ _ _ => hat
  | @failsNext stack p ps top =>
    have hat : s.readerAt = .ended :=
      h (.failing (p :: ps)) (by simp [top]) (Or.inr (by simp [Frame.drained]))
    exact fun _ _ _ => hat
  | awaitsBody top at_ =>
    exact h.of_frames (by simp +contextual [top, Frame.drained]) (by simp [at_])
  | answered top at_ =>
    exact h.of_frames (by simp +contextual [top, Frame.drained]) (by simp [at_])
  | copies top at_ =>
    exact h.of_frames (by simp +contextual [top, Frame.drained]) (by simp [at_])
  | _ => exact h.of_frames (by simp_all [Frame.drained]) id

theorem drained_eq_nil {s : State} (h : Ends s) (hat : s.readerAt ≠ .ended) : drained s = [] := by
  rw [drained, List.flatMap_eq_nil_iff]
  intro f hf
  by_contra hne
  exact hat (h f hf (Or.inr hne))

theorem not_mem_openIds_erase {s : State} (ht : Table s) (he : Ends s) {cid : UInt64} {res : Int64}
    {p : Pending} (hat : s.readerAt = .body cid res p) :
    p.request ∉ (values (s.pending.erase cid)).map Pending.request ++ drained s := by
  rw [drained_eq_nil he (by rw [hat]; exact Reader.noConfusion), List.append_nil, List.mem_map]
  rintro ⟨q, hq, hid⟩
  obtain ⟨k, hlook⟩ := lookup_of_mem_values hq
  obtain ⟨⟨r, hr, -⟩, -⟩ := ht.body cid res p hat
  obtain ⟨r', hr', -⟩ := ht.entries k q (lookup_of_lookup_erase hlook)
  rw [hid] at hr'
  have hk : cid = k := congrArg Prod.fst (Option.some.inj (hr.symm.trans hr'))
  rw [← hk, AList.lookup_erase] at hlook
  cases hlook

theorem unfired_step {s s' : State} {e : Event} (h : Unfired s) (ht : Table s) (he : Ends s)
    (step : Step s e s') : Unfired s' := by
  have bounded : ∀ id ∈ openIds s, id < s.requests.length :=
    fun id hid => h.bounded id (List.mem_append_left _ hid)
  cases ledger_step step with
  | keeps hopen hfired hcount =>
    refine ⟨hopen.nodup_iff.mpr h.nodup, fun id hid => ?_, fun id hid => ?_⟩
    · rw [hfired]
      exact h.unfired id (hopen.mem_iff.mp hid)
    · rw [hcount]
      rw [hfired] at hid
      exact h.bounded id ((hopen.append_right _).mem_iff.mp hid)
  | issues r fault _ hopen hfired hcount =>
    have hsub : ((values (s.pending.erase s.nextCid)).map Pending.request ++ drained s).Sublist
        (openIds s) := ((values_erase_sublist _ _).map _).append (List.Sublist.refl _)
    refine ⟨?_, fun id hid => ?_, fun id hid => ?_⟩
    · rw [hopen, List.nodup_cons]
      exact ⟨fun hm => (bounded _ (hsub.mem hm)).ne rfl, h.nodup.sublist hsub⟩
    · rw [hopen, List.mem_cons] at hid
      rw [hfired]
      rcases hid with rfl | hid
      · exact fun hm => (h.bounded _ (List.mem_append_right _ hm)).ne rfl
      · exact h.unfired id (hsub.mem hid)
    · rw [hcount]
      rw [hopen, hfired, List.cons_append, List.mem_cons] at hid
      rcases hid with rfl | hid
      · exact Nat.lt_succ_self _
      · exact Nat.lt_succ_of_lt (h.bounded id ((hsub.append (List.Sublist.refl _)).mem hid))
  | closes i hopen hfired hcount =>
    have hnodup := hopen.nodup_iff.mp h.nodup
    rw [List.nodup_cons] at hnodup
    refine ⟨hnodup.2, fun id hid => ?_, fun id hid => ?_⟩
    · rw [hfired, List.mem_cons, not_or]
      refine ⟨fun heq => hnodup.1 (heq ▸ hid), h.unfired id ?_⟩
      exact hopen.mem_iff.mpr (List.mem_cons_of_mem _ hid)
    · rw [hcount]
      refine h.bounded id (((hopen.append_right _).mem_iff).mpr ?_)
      rw [hfired] at hid
      exact List.perm_middle.mem_iff.mp hid
  | copies cid res p stack _ top at_ enough hopen hfired hcount =>
    have hsub : (openIds s').Sublist (openIds s) := by
      rw [hopen]
      exact ((values_erase_sublist _ _).map _).append (List.Sublist.refl _)
    refine ⟨h.nodup.sublist hsub, fun id hid => ?_, fun id hid => ?_⟩
    · rw [hfired, List.mem_cons, not_or]
      refine ⟨fun heq => ?_, h.unfired id (hsub.mem hid)⟩
      rw [heq, hopen] at hid
      exact not_mem_openIds_erase ht he at_ hid
    · rw [hcount]
      rw [hfired] at hid
      rcases List.mem_append.mp hid with hid | hid
      · exact bounded id (hsub.mem hid)
      · rcases List.mem_cons.mp hid with rfl | hid
        · obtain ⟨⟨r, hr, -⟩, -⟩ := ht.body _ _ _ at_
          exact (List.getElem?_eq_some_iff.mp hr).1
        · exact h.bounded id (List.mem_append_right _ hid)

end Fired

/-- What holds of the map and its requests in every run, whatever is assumed of its steps. -/
structure Consistent (s : State) : Prop where
  table : Table s
  ends : Ends s
  unfired : Unfired s

theorem consistent_of_run {G : State → Event → Prop} {backend : Backend} {syncWrites : Bool}
    {s : State} (h : Run machine G (initial backend syncWrites) s) : Consistent s := by
  refine h.invariant ⟨table_initial backend syncWrites, ?_, ?_⟩ fun u e hu he _ => ?_
  · rintro f ⟨⟩
  · exact ⟨List.nodup_nil, by rintro id ⟨⟩, by rintro id ⟨⟩⟩
  · have step := step_of_enabled he
    exact ⟨table_step hu.table step, ends_step hu.ends step,
      unfired_step hu.unfired hu.table hu.ends step⟩

end EasybdClientTable
