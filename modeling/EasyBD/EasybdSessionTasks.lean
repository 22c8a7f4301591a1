import Mathlib.Algebra.Order.Group.Multiset
import Mathlib.Tactic.Abel
import EasyBD.EntryLedger
import EasyBD.EasybdSession

/-! The handlers of a connection and what becomes of each: every dispatched handler is either
running, or has sent its response, or has lost it. -/
namespace EasybdSessionTasks

open TransitionRuns EntryLedger EasybdProtocol EasyioQueue EasyioMutex EasybdHandlers
open EasybdHandleConnection EasybdSession

/-- A running handler: before its file operation has returned, or with its response. -/
inductive Task where
  | job (id : ℕ) (h : Handler)
  | reply (id : ℕ) (resp : Response)
  deriving DecidableEq

def Task.id : Task → ℕ
  | .job id _ | .reply id _ => id

def task (t : Reply) : Task := .reply t.id t.response

@[simp] theorem task_resumed (t : Reply) (n : ℕ) : task (State.resumed t n) = task t := rfl

@[simp] def Frame.tasks : Frame → Multiset Task
  | .buffering id h | .performing id h => {.job id h}
  | .calling t | .returned t _ | .release t _ => {task t}
  | _ => 0

def running (waiters : List Reply) (files : List (ℕ × Handler)) (io : List Reply)
    (cq : List (Reply × Option ℕ)) (stack : List Frame) : Multiset Task :=
  waiters.map task + (files.map fun j => Task.job j.1 j.2 : List Task) + io.map task +
    (cq.map fun c => task c.1 : List Task) + (stack.map Frame.tasks).sum

def tasks (s : State) : Multiset Task := running s.sendMtx.waiters s.files s.io s.cq s.stack

section Running

variable {waiters : List Reply} {files : List (ℕ × Handler)} {io : List Reply}
  {cq : List (Reply × Option ℕ)} {stack : List Frame} {t : Reply}

@[simp] theorem running_frame (f : Frame) : running waiters files io cq (f :: stack) =
    Frame.tasks f + running waiters files io cq stack := by
  simp only [running, List.map_cons, List.sum_cons]
  abel

theorem running_wait : running (waiters ++ [t]) files io cq stack =
    {task t} + running waiters files io cq stack := by
  simp only [running, List.map_append, List.map_cons, List.map_nil, ← Multiset.coe_add,
    Multiset.coe_singleton]
  abel

theorem running_resume : running (t :: waiters) files io cq stack =
    {task t} + running waiters files io cq stack := by
  simp only [running, List.map_cons, ← Multiset.cons_coe, ← Multiset.singleton_add]
  abel

theorem running_file (id : ℕ) (h : Handler) : running waiters (files ++ [(id, h)]) io cq stack =
    {.job id h} + running waiters files io cq stack := by
  simp only [running, List.map_append, List.map_cons, List.map_nil, ← Multiset.coe_add,
    Multiset.coe_singleton]
  abel

theorem running_file_erase {id : ℕ} {h : Handler} (mem : (id, h) ∈ files) :
    running waiters files io cq stack =
      {.job id h} + running waiters (files.erase (id, h)) io cq stack := by
  simp only [running, coe_map_erase mem]
  abel

theorem running_io : running waiters files (io ++ [t]) cq stack =
    {task t} + running waiters files io cq stack := by
  simp only [running, List.map_append, List.map_cons, List.map_nil, ← Multiset.coe_add,
    Multiset.coe_singleton]
  abel

theorem running_io_erase (mem : t ∈ io) : running waiters files io cq stack =
    {task t} + running waiters files (io.erase t) cq stack := by
  simp only [running, coe_map_erase mem]
  abel

theorem running_cq {count : Option ℕ} : running waiters files io (cq ++ [(t, count)]) stack =
    {task t} + running waiters files io cq stack := by
  simp only [running, List.map_append, List.map_cons, List.map_nil, ← Multiset.coe_add,
    Multiset.coe_singleton]
  abel

theorem running_cq_erase {count : Option ℕ} (mem : (t, count) ∈ cq) :
    running waiters files io cq stack =
      {task t} + running waiters files io (cq.erase (t, count)) stack := by
  simp only [running, coe_map_erase mem]
  abel

end Running

def marks (trace : List Effect) : List Effect :=
  trace.filter fun
    | .performed _ _ | .answered _ _ | .lost _ => true
    | _ => false

@[simp] theorem marks_taken (t : Reply) (o : SendOutcome) (trace : List Effect) :
    marks (taken t o ++ trace) = marks trace := by
  cases o <;> rfl

section Updates

variable {s : State} {t : Reply}

@[simp] theorem tasks_reply : tasks (s.reply t) = {task t} + tasks s := by
  unfold State.reply
  split
  · exact running_wait
  · exact running_frame _

@[simp] theorem marks_reply : marks (s.reply t).trace = marks s.trace := by
  unfold State.reply
  split <;> rfl

@[simp] theorem dispatched_reply : (s.reply t).dispatched = s.dispatched := by
  unfold State.reply
  split <;> rfl

@[simp] theorem tasks_endLoop : tasks s.endLoop = tasks s := by
  unfold State.endLoop
  split
  · simp [tasks]
  · rfl

@[simp] theorem trace_endLoop : s.endLoop.trace = s.trace := by
  unfold State.endLoop
  split <;> rfl

@[simp] theorem dispatched_endLoop : s.endLoop.dispatched = s.dispatched := by
  unfold State.endLoop
  split <;> rfl

end Updates

inductive TasksStep (s : State) (e : Event) (s' : State) : Prop where
  | same (htasks : tasks s' = tasks s) (hmarks : marks s'.trace = marks s.trace)
      (hdispatched : s'.dispatched = s.dispatched)
  | starts (h : Handler) (k : Task) (stack : List Frame) (he : e = .alloc true)
      (top : s.stack = .spawning h :: stack)
      (hk : k = .job s.dispatched.length h ∧ (∀ cid err, h ≠ .sendError cid err) ∨
        ∃ cid err, h = .sendError cid err ∧
          k = .reply s.dispatched.length (errorResponse cid err))
      (htasks : tasks s' = {k} + tasks s) (hmarks : marks s'.trace = marks s.trace)
      (hdispatched : s'.dispatched = s.dispatched ++ [h])
  | performs (id : ℕ) (h : Handler) (r : FileResult) (others : Multiset Task)
      (fits : h.Fits r ∨ ∃ err, r = .error err) (hbefore : tasks s = {.job id h} + others)
      (htasks : tasks s' = {.reply id (h.respond r)} + others)
      (hmarks : marks s'.trace = .performed id r :: marks s.trace)
      (hdispatched : s'.dispatched = s.dispatched)
  | answers (id : ℕ) (resp : Response) (htasks : tasks s = {.reply id resp} + tasks s')
      (hmarks : marks s'.trace = .answered id resp :: marks s.trace)
      (hdispatched : s'.dispatched = s.dispatched)
  | loses (k : Task) (htasks : tasks s = {k} + tasks s')
      (hmarks : marks s'.trace = .lost k.id :: marks s.trace)
      (hdispatched : s'.dispatched = s.dispatched)

theorem tasks_step {s s' : State} {e : Event} (step : Step s e s') : TasksStep s e s' := by
  cases step with
  | receivesHeader flat | receivesPayload flat => exact .same (by simp [tasks, flat]) rfl rfl
  | receiveFailed => exact .same (by simp) (by simp) (by simp)
  | rejects top | notAllocated top | notSpawned top =>
    exact .same (tasks_endLoop.trans (by simp [tasks, top])) (by simp) (by simp)
  | @spawnsError stack cid err top =>
    refine .starts (.sendError cid err) _ stack rfl top (Or.inr ⟨cid, err, rfl, rfl⟩) ?_
      (by simp) (by simp)
    rw [tasks_reply]
    simp [tasks, top, task]
  | @spawned stack h top file f first =>
    refine .starts h (.job s.dispatched.length h) stack rfl top (Or.inl ⟨rfl, file⟩) ?_ rfl rfl
    rcases first with rfl | rfl <;> simp [tasks, top]
  | @notBuffered stack id h top | @performThrows stack id h top =>
    exact .loses (.job id h) (by simp [tasks, top]) rfl rfl
  | performs top => exact .same (by simp [tasks, top, running_file]) rfl rfl
  | @performed stack id h r top fits =>
    exact .performs id h r (running s.sendMtx.waiters s.files s.io s.cq stack) fits
      (by simp [tasks, top]) tasks_reply marks_reply dispatched_reply
  | @fileReady id h r flat mem fits =>
    exact .performs id h r (running s.sendMtx.waiters (s.files.erase (id, h)) s.io s.cq s.stack)
      (Or.inl fits) (running_file_erase mem) tasks_reply marks_reply dispatched_reply
  | callBlocks top => exact .same (by simp [tasks, top, running_io]) rfl rfl
  | callReturns top => exact .same (by simp [tasks, top]) (by simp) rfl
  | stillBlocked => exact .same rfl rfl rfl
  | readyReturns flat mem => exact .same (by simp [tasks, running_io_erase mem]) (by simp) rfl
  | completes mem => exact .same (by simp [tasks, running_io_erase mem, running_cq]) (by simp) rfl
  | reap flat mem => exact .same (by simp [tasks, running_cq_erase mem]) rfl rfl
  | @handsOver t sent u waiters stack top waiting =>
    have htasks : tasks s = {task t} + ({task u} + running waiters s.files s.io s.cq stack) := by
      simp [tasks, top, waiting, running_resume]
    cases sent with
    | true => exact .answers t.id t.response (htasks.trans (by simp [tasks, task])) rfl rfl
    | false => exact .loses (task t) (htasks.trans (by simp [tasks])) rfl rfl
  | @frees t sent stack top alone =>
    have htasks : tasks s = {task t} + running s.sendMtx.waiters s.files s.io s.cq stack := by
      simp [tasks, top]
    cases sent with
    | true => exact .answers t.id t.response (htasks.trans (by simp [tasks, task])) rfl rfl
    | false => exact .loses (task t) (htasks.trans (by simp [tasks])) rfl rfl
  | awaitsHeader top | allocates top | spawns top | awaitsPayload top | spawnsWrite top
  | readsNothing top | allocated top | buffered top | sendsOn top | sent top | sendThrows top
  | finishes top | finishesLast top | closes top => exact .same (by simp [tasks, top]) rfl rfl

def Answer (s : State) (id : ℕ) (resp : Response) : Prop :=
  ∃ h, s.dispatched[id]? = some h ∧
    ((∃ cid err, h = .sendError cid err ∧ resp = errorResponse cid err) ∨
      ∃ r, .performed id r ∈ marks s.trace ∧ (h.Fits r ∨ ∃ err, r = .error err) ∧
        resp = h.respond r)

def Belongs (s : State) : Task → Prop
  | .job id h => s.dispatched[id]? = some h ∧ ∀ cid err, h ≠ .sendError cid err
  | .reply id resp => Answer s id resp

theorem Answer.cid_eq {s : State} {id : ℕ} {resp : Response} (h : Answer s id resp) :
    s.dispatched[id]?.map Handler.cid = some resp.cid := by
  obtain ⟨k, hk, hresp⟩ := h
  rw [hk, Option.map_some]
  rcases hresp with ⟨cid, err, rfl, rfl⟩ | ⟨r, -, -, rfl⟩ <;> rfl

def closedIds (trace : List Effect) : List ℕ := (marks trace).filterMap fun
  | .answered id _ | .lost id => some id
  | _ => none

def performedIds (trace : List Effect) : List ℕ := (marks trace).filterMap fun
  | .performed id _ => some id
  | _ => none

/-- Every dispatched handler is accounted for, and performs its file operation at most once. -/
structure Accounted (s : State) : Prop where
  tasks : ∀ k ∈ tasks s, Belongs s k
  answered : ∀ id resp, .answered id resp ∈ marks s.trace → Answer s id resp
  ledger : (EasybdSessionTasks.tasks s).map Task.id + closedIds s.trace =
    Multiset.range s.dispatched.length
  performed : ∀ id ∈ performedIds s.trace, id < s.dispatched.length
  once : (performedIds s.trace).Nodup
  jobs : ∀ id h, .job id h ∈ EasybdSessionTasks.tasks s → id ∉ performedIds s.trace

theorem accounted_initial (backend : Backend) : Accounted (initial backend) where
  tasks k hk := absurd hk (Multiset.notMem_zero k)
  answered := by rintro id resp ⟨⟩
  ledger := rfl
  performed := by rintro id ⟨⟩
  once := List.nodup_nil
  jobs id h hk := absurd hk (Multiset.notMem_zero _)

section Steps

variable {s s' : State}

theorem Answer.mono {id : ℕ} {resp : Response} (h : Answer s id resp)
    (hdispatched : ∀ k, s.dispatched[id]? = some k → s'.dispatched[id]? = some k)
    (hmarks : ∀ r, .performed id r ∈ marks s.trace → .performed id r ∈ marks s'.trace) :
    Answer s' id resp := by
  obtain ⟨k, hk, hresp⟩ := h
  exact ⟨k, hdispatched k hk, hresp.imp_right fun ⟨r, hr, hrest⟩ => ⟨r, hmarks r hr, hrest⟩⟩

theorem Belongs.mono {k : Task} (h : Belongs s k)
    (hdispatched : ∀ (i : ℕ) x, s.dispatched[i]? = some x → s'.dispatched[i]? = some x)
    (hmarks : ∀ i r, .performed i r ∈ marks s.trace → .performed i r ∈ marks s'.trace) :
    Belongs s' k := by
  cases k with
  | job id x => exact ⟨hdispatched _ _ h.1, h.2⟩
  | reply id resp => exact Answer.mono h (hdispatched id) (hmarks id)

theorem Accounted.nodup (h : Accounted s) :
    ((EasybdSessionTasks.tasks s).map Task.id).Nodup := by
  have hle : (EasybdSessionTasks.tasks s).map Task.id ≤ Multiset.range s.dispatched.length := by
    rw [← h.ledger]
    exact Multiset.le_add_right _ _
  exact Multiset.nodup_of_le hle (Multiset.nodup_range _)

theorem Accounted.same (h : Accounted s)
    (htasks : EasybdSessionTasks.tasks s' = EasybdSessionTasks.tasks s)
    (hmarks : marks s'.trace = marks s.trace) (hdispatched : s'.dispatched = s.dispatched) :
    Accounted s' := by
  have hclosed : closedIds s'.trace = closedIds s.trace := by rw [closedIds, hmarks]; rfl
  have hperf : performedIds s'.trace = performedIds s.trace := by rw [performedIds, hmarks]; rfl
  refine ⟨fun k hk => ?_, fun id resp hm => ?_, ?_, ?_, hperf ▸ h.once, ?_⟩
  · exact (h.tasks k (htasks ▸ hk)).mono (by simp [hdispatched]) (by simp [hmarks])
  · exact (h.answered id resp (hmarks ▸ hm)).mono (by simp [hdispatched]) (by simp [hmarks])
  · rw [htasks, hclosed, hdispatched]
    exact h.ledger
  · rw [hperf, hdispatched]
    exact h.performed
  · rw [hperf, htasks]
    exact h.jobs

theorem Accounted.starts (h : Accounted s) {k : Handler} {t : Task}
    (hk : t = .job s.dispatched.length k ∧ (∀ cid err, k ≠ .sendError cid err) ∨
      ∃ cid err, k = .sendError cid err ∧ t = .reply s.dispatched.length (errorResponse cid err))
    (htasks : EasybdSessionTasks.tasks s' = {t} + EasybdSessionTasks.tasks s)
    (hmarks : marks s'.trace = marks s.trace) (hdispatched : s'.dispatched = s.dispatched ++ [k]) :
    Accounted s' := by
  have hclosed : closedIds s'.trace = closedIds s.trace := by rw [closedIds, hmarks]; rfl
  have hperf : performedIds s'.trace = performedIds s.trace := by rw [performedIds, hmarks]; rfl
  have hgrows (i : ℕ) (x : Handler) (hx : s.dispatched[i]? = some x) :
      s'.dispatched[i]? = some x := by
    rw [hdispatched, List.getElem?_append_left (List.getElem?_eq_some_iff.mp hx).1]
    exact hx
  have hnew : s'.dispatched[s.dispatched.length]? = some k := by
    rw [hdispatched]
    exact List.getElem?_concat_length
  have hlen : s'.dispatched.length = s.dispatched.length + 1 := by simp [hdispatched]
  have hid : t.id = s.dispatched.length := by
    rcases hk with ⟨rfl, -⟩ | ⟨cid, err, -, rfl⟩ <;> rfl
  refine ⟨fun j hj => ?_, fun id resp hm => ?_, ?_, fun id hid => ?_, hperf ▸ h.once, ?_⟩
  · rw [htasks, Multiset.mem_add, Multiset.mem_singleton] at hj
    rcases hj with rfl | hj
    · rcases hk with ⟨rfl, hfile⟩ | ⟨cid, err, rfl, rfl⟩
      · exact ⟨hnew, hfile⟩
      · exact ⟨_, hnew, Or.inl ⟨cid, err, rfl, rfl⟩⟩
    · exact (h.tasks j hj).mono hgrows (by simp [hmarks])
  · exact (h.answered id resp (hmarks ▸ hm)).mono (hgrows id) (by simp [hmarks])
  · rw [htasks, hclosed, hlen, Multiset.map_add, Multiset.map_singleton, hid,
      Multiset.range_succ, ← h.ledger, add_assoc, Multiset.singleton_add]
  · rw [hlen]
    exact Nat.lt_succ_of_lt (h.performed id (hperf ▸ hid))
  · intro i x hj
    rw [htasks, Multiset.mem_add, Multiset.mem_singleton] at hj
    rw [hperf]
    rcases hj with rfl | hj
    · intro hm
      exact (h.performed _ hm).ne hid
    · exact h.jobs i x hj

/-- A job becomes the response of its handler, under the same number. -/
theorem Accounted.performs (h : Accounted s) {id : ℕ} {k : Handler} {r : FileResult}
    {others : Multiset Task} (fits : k.Fits r ∨ ∃ err, r = .error err)
    (hbefore : EasybdSessionTasks.tasks s = {.job id k} + others)
    (htasks : EasybdSessionTasks.tasks s' = {.reply id (k.respond r)} + others)
    (hmarks : marks s'.trace = .performed id r :: marks s.trace)
    (hdispatched : s'.dispatched = s.dispatched) : Accounted s' := by
  have hclosed : closedIds s'.trace = closedIds s.trace := by rw [closedIds, hmarks]; rfl
  have hperf : performedIds s'.trace = id :: performedIds s.trace := by
    rw [performedIds, hmarks]; rfl
  have hmem : .job id k ∈ EasybdSessionTasks.tasks s := by rw [hbefore]; simp
  obtain ⟨hk, hfile⟩ := h.tasks _ hmem
  have hgrows (i : ℕ) (x : Handler) (hx : s.dispatched[i]? = some x) :
      s'.dispatched[i]? = some x := hdispatched ▸ hx
  have hkeeps (i : ℕ) (q : FileResult) (hq : .performed i q ∈ marks s.trace) :
      .performed i q ∈ marks s'.trace := by
    rw [hmarks]
    exact List.mem_cons_of_mem _ hq
  have hnodup := h.nodup
  rw [hbefore, Multiset.map_add, Multiset.map_singleton, Multiset.singleton_add,
    Multiset.nodup_cons] at hnodup
  refine ⟨fun j hj => ?_, fun i resp hm => ?_, ?_, fun i hi => ?_, ?_, ?_⟩
  · rw [htasks, Multiset.mem_add, Multiset.mem_singleton] at hj
    rcases hj with rfl | hj
    · exact ⟨k, hgrows id k hk, Or.inr ⟨r, by rw [hmarks]; simp, fits, rfl⟩⟩
    · exact (h.tasks j (by rw [hbefore]; simp [hj])).mono hgrows hkeeps
  · have hold : .answered i resp ∈ marks s.trace := by simpa [hmarks] using hm
    exact (h.answered i resp hold).mono (hgrows i) (hkeeps i)
  · have hledger := h.ledger
    rw [hbefore] at hledger
    rw [htasks, hclosed, hdispatched, ← hledger]
    simp [Task.id]
  · rw [hperf, List.mem_cons] at hi
    rw [hdispatched]
    rcases hi with rfl | hi
    · exact (List.getElem?_eq_some_iff.mp hk).1
    · exact h.performed i hi
  · rw [hperf, List.nodup_cons]
    exact ⟨h.jobs id k hmem, h.once⟩
  · intro i x hj
    rw [htasks, Multiset.mem_add, Multiset.mem_singleton] at hj
    rcases hj with hj | hj
    · cases hj
    · rw [hperf, List.mem_cons, not_or]
      refine ⟨fun heq => hnodup.1 ?_, h.jobs i x (by rw [hbefore]; simp [hj])⟩
      exact Multiset.mem_map.mpr ⟨_, hj, heq⟩

theorem Accounted.ends (h : Accounted s) {k : Task} {x : Effect}
    (hx : x = .lost k.id ∨ ∃ id resp, k = .reply id resp ∧ x = .answered id resp)
    (htasks : EasybdSessionTasks.tasks s = {k} + EasybdSessionTasks.tasks s')
    (hmarks : marks s'.trace = x :: marks s.trace) (hdispatched : s'.dispatched = s.dispatched) :
    Accounted s' := by
  have hclosed : closedIds s'.trace = k.id :: closedIds s.trace := by
    rw [closedIds, hmarks]
    rcases hx with rfl | ⟨id, resp, rfl, rfl⟩ <;> rfl
  have hperf : performedIds s'.trace = performedIds s.trace := by
    rw [performedIds, hmarks]
    rcases hx with rfl | ⟨id, resp, rfl, rfl⟩ <;> rfl
  have hmem (j : Task) (hj : j ∈ EasybdSessionTasks.tasks s') :
      j ∈ EasybdSessionTasks.tasks s := by rw [htasks]; simp [hj]
  refine ⟨fun j hj => ?_, fun i q hm => ?_, ?_, ?_, hperf ▸ h.once, ?_⟩
  · exact (h.tasks j (hmem j hj)).mono (by simp [hdispatched]) (by simp +contextual [hmarks])
  · have hold : Answer s i q := by
      rw [hmarks, List.mem_cons] at hm
      rcases hm with rfl | hm
      · rcases hx with hx | ⟨id, resp, rfl, hx⟩
        · cases hx
        · obtain ⟨rfl, rfl⟩ := Effect.answered.inj hx
          exact h.tasks (.reply i q) (by rw [htasks]; simp)
      · exact h.answered i q hm
    exact hold.mono (by simp [hdispatched]) (by simp +contextual [hmarks])
  · rw [hclosed, hdispatched, ← h.ledger, htasks, Multiset.map_add, Multiset.map_singleton,
      ← Multiset.cons_coe, ← Multiset.singleton_add]
    abel
  · rw [hperf, hdispatched]
    exact h.performed
  · intro i y hj
    rw [hperf]
    exact h.jobs i y (hmem _ hj)

theorem accounted_step {e : Event} (h : Accounted s) (step : Step s e s') : Accounted s' := by
  cases tasks_step step with
  | same htasks hmarks hdispatched => exact h.same htasks hmarks hdispatched
  | starts k t stack he top hk htasks hmarks hdispatched =>
    exact h.starts hk htasks hmarks hdispatched
  | performs id k r others fits hbefore htasks hmarks hdispatched =>
    exact h.performs fits hbefore htasks hmarks hdispatched
  | answers id resp htasks hmarks hdispatched =>
    exact h.ends (Or.inr ⟨id, resp, rfl, rfl⟩) htasks hmarks hdispatched
  | loses k htasks hmarks hdispatched => exact h.ends (Or.inl rfl) htasks hmarks hdispatched

theorem accounted_of_run {G : State → Event → Prop} {backend : Backend}
    (h : Run machine G (initial backend) s) : Accounted s :=
  h.invariant (accounted_initial backend) fun _ _ ha he _ => accounted_step ha (step_of_enabled he)

end Steps

end EasybdSessionTasks
