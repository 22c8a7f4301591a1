import Mathlib.Data.List.Perm.Basic
import Mathlib.Data.List.Range
import EasyBD.TransitionRuns
import EasyBD.EasyioUringRecvStream

/-! `uring::Queue`: the submission ring that `_get_sqe` flushes when it is full, and the loop of
`_dispatch` over the completion ring. The coroutine that an entry resumes runs inside the loop
and may prepare further entries; the kernel completes what it has accepted in any order. -/
namespace EasyioUringQueue

open TransitionRuns EasyioQueue
open EasyioUringRecvStream (enobufs)

/-- The user data of an entry. A one-shot awaiter (`SqeAwaiter`, `SendMsgAwaiter`) is named by
its number, a receive sink by its stream; a cancellation carries `nullptr`. -/
inductive UserData where
  | awaiter (id : ℕ)
  | sink (stream : ℕ)
  | null
  deriving DecidableEq

structure Cqe where
  data : UserData
  res : ℤ
  deriving DecidableEq

/-- What runs on the thread, innermost first: the code of a resumed coroutine, or `_dispatch`
with its `head` and `nr`. -/
inductive Frame where
  | coroutine
  | dispatch (head nr : ℕ)
  deriving DecidableEq

/-- `sq` holds prepared entries, `kernel` accepted ones; `posted` lists all completions there
have been, of which the ring holds those from `khead` on. `prepared` and `accepted` are the
entries so far, `delivered` the positions in `posted` that the loop has passed on, newest
first. -/
structure State where
  entries : ℕ
  sq : List UserData
  kernel : List UserData
  posted : List Cqe
  khead : ℕ
  stack : List Frame
  awaiters : ℕ
  alive : Bool
  prepared : List UserData
  accepted : List UserData
  delivered : List ℕ

def initial (entries : ℕ) : State where
  entries := entries
  sq := []
  kernel := []
  posted := []
  khead := 0
  stack := []
  awaiters := 0
  alive := true
  prepared := []
  accepted := []
  delivered := []

inductive Purpose where
  | await
  | receive (stream : ℕ)
  | cancel

/-- How `io_uring_submit_and_wait` or its variant with a timeout returns. -/
inductive Waited where
  | ready
  | timedOut
  | interrupted
  | failed (err : Errno)

namespace State

def submit (s : State) (n : ℕ) : State :=
  { s with
    sq := s.sq.drop n
    kernel := s.kernel ++ s.sq.take n
    accepted := s.accepted ++ s.sq.take n }

/-- `_get_sqe`; `ret` is what `io_uring_submit` returns if it comes to that. -/
def getSqe (s : State) (ret : Except Errno ℕ) : Except Errno Unit × State :=
  if s.sq.length < s.entries then (.ok (), s)
  else
    match ret with
    | .error err => (.error err, s)
    | .ok n =>
      if (s.submit n).sq.length < s.entries then (.ok (), s.submit n)
      else (.error enobufs, s.submit n)

def userData (s : State) : Purpose → UserData
  | .await => .awaiter s.awaiters
  | .receive stream => .sink stream
  | .cancel => .null

/-- The entry is filled in; an awaiter now waits for its completion. -/
def prepare (s : State) (p : Purpose) : State :=
  { s with
    sq := s.sq ++ [s.userData p]
    prepared := s.prepared ++ [s.userData p]
    awaiters :=
      match p with
      | .await => s.awaiters + 1
      | _ => s.awaiters }

/-- The constructor of an awaiter, `submit_recv` or `cancel_fd`; it throws with `_get_sqe`. -/
def request (s : State) (p : Purpose) (ret : Except Errno ℕ) : State :=
  match s.getSqe ret with
  | (.ok (), s) => s.prepare p
  | (.error _, s) => s

/-- One turn of `io_uring_for_each_cqe`, or `io_uring_cq_advance` behind it. -/
def turn (s : State) : State :=
  match s.stack with
  | .dispatch head nr :: stack =>
    match s.posted[head]? with
    | some cqe =>
      { s with
        stack :=
          if cqe.data = .null then .dispatch (head + 1) (nr + 1) :: stack
          else .coroutine :: .dispatch (head + 1) (nr + 1) :: stack
        delivered := head :: s.delivered }
    | none => { s with khead := s.khead + nr, stack }
  | _ => s

end State

inductive Event where
  | request (p : Purpose) (ret : Except Errno ℕ)
  /-- The running coroutine suspends or ends. -/
  | suspend
  | step (submitted : ℕ) (ret : Waited)
  | turn
  /-- The kernel posts a completion of the `i`-th accepted entry; a multishot receive may stay. -/
  | post (i : ℕ) (res : ℤ) (more : Bool)
  | destroy (submitted : ℕ)

def isSink : UserData → Bool
  | .sink _ => true
  | _ => false

/-- Code of the program runs: outside `step`, or in a coroutine that an entry has resumed. -/
def Runs (s : State) : Prop :=
  match s.stack with
  | .dispatch _ _ :: _ => False
  | _ => s.alive = true

def Enabled (s : State) : Event → Prop
  | .request _ ret => Runs s ∧ ∀ n, ret = .ok n → n ≤ s.sq.length
  | .suspend => s.stack.head? = some .coroutine
  | .step submitted _ => Runs s ∧ submitted ≤ s.sq.length
  | .turn =>
    match s.stack with
    | .dispatch _ _ :: _ => True
    | _ => False
  | .post i _ more =>
    match s.kernel[i]? with
    | some data => s.alive = true ∧ (more = true → isSink data = true)
    | none => False
  | .destroy submitted => s.stack = [] ∧ s.alive = true ∧ submitted ≤ s.sq.length

def next (s : State) : Event → State
  | .request p ret => s.request p ret
  | .suspend => { s with stack := s.stack.tail }
  | .step submitted ret =>
    match ret with
    | .ready | .timedOut =>
      { s.submit submitted with stack := .dispatch s.khead 0 :: s.stack }
    | .interrupted | .failed _ => s.submit submitted
  | .turn => s.turn
  | .post i res more =>
    match s.kernel[i]? with
    | some data =>
      { s with
        kernel := if more then s.kernel else s.kernel.eraseIdx i
        posted := s.posted ++ [⟨data, res⟩] }
    | none => s
  | .destroy submitted =>
    { s.submit submitted with khead := s.posted.length, alive := false }

def machine : System State Event := ⟨Enabled, next⟩

/-- No coroutine that an entry has resumed calls `step`. -/
def NotNested (s : State) : Event → Prop
  | .step _ _ => s.stack = []
  | _ => True

section Decidability

variable (s : State)

instance : Decidable (Runs s) := by
  unfold Runs
  split <;> infer_instance

instance (e : Event) : Decidable (machine.Enabled s e) :=
  match e with
  | .request _ (.ok n) =>
    decidable_of_iff (Runs s ∧ n ≤ s.sq.length)
      (and_congr_right fun _ => ⟨fun h _ heq => Except.ok.inj heq ▸ h, fun h => h n rfl⟩)
  | .request _ (.error _) => decidable_of_iff (Runs s) ⟨fun h => ⟨h, nofun⟩, And.left⟩
  | .suspend => inferInstanceAs (Decidable (_ = _))
  | .step submitted _ => inferInstanceAs (Decidable (Runs s ∧ submitted ≤ s.sq.length))
  | .turn =>
    match hstack : s.stack with
    | [] | .coroutine :: _ => isFalse (by simp [machine, Enabled, hstack])
    | .dispatch _ _ :: _ => isTrue (by simp [machine, Enabled, hstack])
  | .post i _ more =>
    match hi : s.kernel[i]? with
    | some data => decidable_of_iff (s.alive = true ∧ (more = true → isSink data = true))
        (by simp [machine, Enabled, hi])
    | none => isFalse (by simp [machine, Enabled, hi])
  | .destroy submitted => inferInstanceAs (Decidable (_ ∧ _ ∧ submitted ≤ s.sq.length))

instance (e : Event) : Decidable (NotNested s e) :=
  match e with
  | .step _ _ => inferInstanceAs (Decidable (s.stack = []))
  | .request _ _ | .suspend | .turn | .post _ _ _ | .destroy _ => inferInstanceAs (Decidable True)

end Decidability

def awaiterOf : UserData → Option ℕ
  | .awaiter id => some id
  | _ => none

def completion (cqe : Cqe) : Option (ℕ × ℤ) := (awaiterOf cqe.data).map fun id => (id, cqe.res)

def resumed (s : State) : List (ℕ × ℤ) :=
  s.delivered.reverse.filterMap fun i => s.posted[i]?.bind completion

/-- The awaiters whose entry is in the submission ring, with the kernel or in the completion
ring. -/
def waiting (s : State) : List ℕ :=
  (s.sq ++ s.kernel ++ (s.posted.drop s.delivered.length).map Cqe.data).filterMap awaiterOf

/-- Where the loop of `_dispatch` is, or would begin. -/
def position (khead : ℕ) : List Frame → ℕ
  | [] => khead
  | .dispatch head _ :: _ => head
  | .coroutine :: stack => position khead stack

/-- The activations there can be while no `step` is nested. -/
inductive Shape (khead : ℕ) : List Frame → Prop where
  | outside : Shape khead []
  | between (nr : ℕ) : Shape khead [.dispatch (khead + nr) nr]
  | inside (nr : ℕ) : Shape khead [.coroutine, .dispatch (khead + (nr + 1)) (nr + 1)]

/-- Everything that was prepared is in one place, and the completions are passed on in order. -/
structure Served (s : State) : Prop where
  room : s.sq.length ≤ s.entries
  order : s.accepted ++ s.sq = s.prepared
  ledger : ((s.sq ++ s.kernel ++ s.posted.map Cqe.data).filterMap awaiterOf).Perm
    (List.range s.awaiters)
  shape : Shape s.khead s.stack
  running : s.stack ≠ [] → s.alive = true
  passed : s.delivered.reverse = List.range s.delivered.length
  reached : s.delivered.length ≤ s.posted.length
  position : s.alive = true → position s.khead s.stack = s.delivered.length

section Steps

variable {s : State}

theorem served_initial (entries : ℕ) : Served (initial entries) :=
  ⟨Nat.zero_le _, rfl, List.Perm.refl _, .outside, fun h => absurd rfl h, rfl, Nat.le_refl _,
    fun _ => rfl⟩

theorem served_submit (h : Served s) (n : ℕ) : Served (s.submit n) := by
  refine ⟨?_, ?_, ?_, h.shape, h.running, h.passed, h.reached, h.position⟩
  · simp only [State.submit, List.length_drop]
    exact (Nat.sub_le _ _).trans h.room
  · simp only [State.submit, List.append_assoc, List.take_append_drop]
    exact h.order
  · refine List.Perm.trans (List.Perm.filterMap _ ?_) h.ledger
    simp only [State.submit]
    refine List.Perm.append_right _ ?_
    have hjoin : (s.kernel ++ s.sq.take n) ++ s.sq.drop n = s.kernel ++ s.sq := by
      rw [List.append_assoc, List.take_append_drop]
    have hfront : (s.sq.drop n ++ (s.kernel ++ s.sq.take n)).Perm _ := List.perm_append_comm
    rw [hjoin] at hfront
    exact hfront.trans List.perm_append_comm

theorem getSqe_room {ret : Except Errno ℕ} {s' : State} (h : s.getSqe ret = (.ok (), s')) :
    s'.sq.length < s'.entries := by
  unfold State.getSqe at h
  split at h
  · next room =>
    obtain ⟨-, rfl⟩ := Prod.mk.inj h
    exact room
  · split at h
    · cases h
    · split at h
      · next room =>
        obtain ⟨-, rfl⟩ := Prod.mk.inj h
        exact room
      · cases h

theorem getSqe_cases (s : State) (ret : Except Errno ℕ) :
    (s.getSqe ret).2 = s ∨ ∃ n, (s.getSqe ret).2 = s.submit n := by
  unfold State.getSqe
  split
  · exact Or.inl rfl
  · split
    · exact Or.inl rfl
    · next n =>
      split <;> exact Or.inr ⟨n, rfl⟩

theorem served_getSqe (h : Served s) (ret : Except Errno ℕ) : Served (s.getSqe ret).2 := by
  rcases getSqe_cases s ret with heq | ⟨n, heq⟩
  · rwa [heq]
  · rw [heq]
    exact served_submit h n

theorem served_prepare (h : Served s) (room : s.sq.length < s.entries) (p : Purpose) :
    Served (s.prepare p) := by
  refine ⟨?_, ?_, ?_, h.shape, h.running, h.passed, h.reached, h.position⟩
  · simp only [State.prepare, List.length_append, List.length_singleton]
    exact room
  · simp only [State.prepare, ← List.append_assoc, h.order]
  · have hmove : ((s.sq ++ [s.userData p]) ++ s.kernel ++ s.posted.map Cqe.data).Perm
        ((s.sq ++ s.kernel ++ s.posted.map Cqe.data) ++ [s.userData p]) := by
      rw [List.append_assoc, List.append_assoc, List.append_assoc, List.append_assoc,
        ← List.append_assoc s.kernel]
      exact List.Perm.append_left _ List.perm_append_comm
    refine (hmove.filterMap awaiterOf).trans ?_
    rw [List.filterMap_append]
    cases p with
    | await =>
      have hlast : [s.userData .await].filterMap awaiterOf = [s.awaiters] := rfl
      simp only [State.prepare, hlast, List.range_succ]
      exact h.ledger.append_right _
    | receive stream =>
      have hlast : [s.userData (.receive stream)].filterMap awaiterOf = [] := rfl
      rw [hlast, List.append_nil]
      exact h.ledger
    | cancel =>
      have hlast : [s.userData .cancel].filterMap awaiterOf = [] := rfl
      rw [hlast, List.append_nil]
      exact h.ledger

theorem served_request (h : Served s) (p : Purpose) (ret : Except Errno ℕ) :
    Served (s.request p ret) := by
  have hsqe := served_getSqe h ret
  unfold State.request
  split
  · next s' heq =>
    rw [heq] at hsqe
    exact served_prepare hsqe (getSqe_room heq) p
  · next heq =>
    rw [heq] at hsqe
    exact hsqe

theorem served_turn (h : Served s) : Served s.turn := by
  obtain ⟨hroom, horder, hledger, hshape, hrunning, hpassed, hreached, hposition⟩ := id h
  unfold State.turn
  split
  · next head nr stack top =>
    have halive : s.alive = true := hrunning (by simp [top])
    have hhead : head = s.delivered.length := by
      have hat := hposition halive
      rwa [top] at hat
    rw [top] at hshape
    cases hshape
    split
    · next cqe hcqe =>
      have hlt := (List.getElem?_eq_some_iff.mp hcqe).1
      refine ⟨hroom, horder, hledger, ?_, fun _ => halive, ?_, ?_, fun _ => ?_⟩
      · dsimp only
        split
        · exact .between (nr + 1)
        · exact .inside nr
      · rw [List.reverse_cons, hpassed, List.length_cons, List.range_succ, hhead]
      · rw [List.length_cons, ← hhead]
        exact hlt
      · rw [List.length_cons, ← hhead]
        dsimp only
        split <;> rfl
    · refine ⟨hroom, horder, hledger, .outside, fun hne => absurd rfl hne, hpassed, hreached,
        fun _ => hhead⟩
  · exact h

theorem served_suspend (h : Served s) (top : s.stack.head? = some .coroutine) :
    Served { s with stack := s.stack.tail } := by
  obtain ⟨stack, heq⟩ := List.head?_eq_some_iff.mp top
  have halive : s.alive = true := h.running (by simp [heq])
  have hshape := h.shape
  have hposition := h.position
  rw [heq] at hshape hposition
  rw [heq]
  cases hshape with
  | inside nr =>
    exact ⟨h.room, h.order, h.ledger, .between (nr + 1), fun _ => halive, h.passed, h.reached,
      hposition⟩

theorem served_post (h : Served s) {i : ℕ} {data : UserData} (res : ℤ) {more : Bool}
    (hi : s.kernel[i]? = some data) (hmore : more = true → isSink data = true) :
    Served { s with
      kernel := if more then s.kernel else s.kernel.eraseIdx i
      posted := s.posted ++ [⟨data, res⟩] } := by
  refine ⟨h.room, h.order, ?_, h.shape, h.running, h.passed, ?_, h.position⟩
  · refine List.Perm.trans ?_ h.ledger
    rw [List.map_append, List.map_singleton, ← List.append_assoc, List.filterMap_append]
    cases more with
    | true =>
      have hsink : [data].filterMap awaiterOf = [] := by
        cases data with
        | sink stream => rfl
        | awaiter | null => exact absurd (hmore rfl) Bool.false_ne_true
      rw [if_pos rfl, hsink, List.append_nil]
    | false =>
      rw [if_neg Bool.false_ne_true, ← List.filterMap_append]
      refine List.Perm.filterMap _ ?_
      rw [List.append_assoc, List.append_assoc, List.append_assoc]
      refine List.Perm.append_left _ ?_
      have hkernel := List.getElem?_eq_some_iff.mp hi
      obtain ⟨hlt, rfl⟩ := hkernel
      have hperm := List.getElem_cons_eraseIdx_perm hlt
      refine List.Perm.trans ?_ (hperm.append_right _)
      rw [← List.append_assoc]
      exact List.perm_append_singleton _ _
  · rw [List.length_append]
    exact h.reached.trans (Nat.le_add_right _ _)

theorem served_step {e : Event} (h : Served s) (he : Enabled s e) (g : NotNested s e) :
    Served (next s e) := by
  cases e with
  | request p ret => exact served_request h p ret
  | suspend => exact served_suspend h he
  | turn => exact served_turn h
  | post i res more =>
    simp only [Enabled] at he
    simp only [next]
    split at he
    · next data hi => exact served_post h res hi he.2
    · exact he.elim
  | step submitted ret =>
    have flat : s.stack = [] := g
    have hsubmit := served_submit h submitted
    have halive : s.alive = true := by
      have hruns := he.1
      rwa [Runs, flat] at hruns
    have hposition := h.position halive
    rw [flat] at hposition
    have hdispatch : Served { s.submit submitted with stack := [.dispatch s.khead 0] } :=
      ⟨hsubmit.room, hsubmit.order, hsubmit.ledger, .between 0, fun _ => halive, h.passed,
        h.reached, fun _ => hposition⟩
    rw [← flat] at hdispatch
    cases ret with
    | ready | timedOut =>
      simp only [next, flat]
      rwa [flat] at hdispatch
    | interrupted | failed => exact hsubmit
  | destroy submitted =>
    have hsubmit := served_submit h submitted
    have flat : s.stack = [] := he.1
    refine ⟨hsubmit.room, hsubmit.order, hsubmit.ledger, ?_, fun hne => absurd flat hne, h.passed,
      h.reached, fun halive => absurd halive Bool.false_ne_true⟩
    have hstack : (next s (.destroy submitted)).stack = [] := flat
    rw [hstack]
    exact .outside

theorem served_of_run {entries : ℕ} (h : Run machine NotNested (initial entries) s) : Served s :=
  h.invariant (served_initial entries) fun _ _ hs he g => served_step hs he g

end Steps

section Delivery

variable {s : State} {entries : ℕ}

theorem range_filterMap_take {α β : Type*} (l : List α) (f : α → Option β) {n : ℕ}
    (h : n ≤ l.length) :
    ((List.range n).filterMap fun i => l[i]?.bind f) = (l.take n).filterMap f := by
  induction n with
  | zero => rfl
  | succ n ih =>
    have hget : l[n]? = some l[n] := List.getElem?_eq_getElem h
    rw [List.range_succ, List.filterMap_append, ih (Nat.le_of_succ_le h), List.take_add_one,
      List.filterMap_append]
    congr 1
    simp only [List.filterMap_cons, List.filterMap_nil, hget, Option.bind_some,
      Option.toList_some]

theorem resumed_eq (h : Served s) :
    resumed s = (s.posted.take s.delivered.length).filterMap completion := by
  rw [resumed, h.passed]
  exact range_filterMap_take _ _ h.reached

theorem completion_ids (posted : List Cqe) :
    (posted.filterMap completion).map Prod.fst = (posted.map Cqe.data).filterMap awaiterOf := by
  rw [List.map_filterMap, List.filterMap_map]
  congr 1
  funext cqe
  simp [completion, Function.comp_def]

/-- What `_dispatch` owes to the awaiters. -/
structure Delivers (s : State) : Prop where
  room : s.sq.length ≤ s.entries
  order : s.accepted ++ s.sq = s.prepared
  results : resumed s = (s.posted.take s.delivered.length).filterMap completion
  once : ((resumed s).map Prod.fst ++ waiting s).Perm (List.range s.awaiters)

theorem delivers_of_served (h : Served s) : Delivers s := by
  have hresults := resumed_eq h
  refine ⟨h.room, h.order, hresults, List.Perm.trans ?_ h.ledger⟩
  have hsplit : s.posted.map Cqe.data = (s.posted.take s.delivered.length).map Cqe.data ++
      (s.posted.drop s.delivered.length).map Cqe.data := by
    rw [← List.map_append, List.take_append_drop]
  rw [hresults, completion_ids, waiting, ← List.filterMap_append, hsplit]
  refine List.Perm.filterMap _ ?_
  have hmove := List.perm_append_comm_assoc
    ((s.posted.take s.delivered.length).map Cqe.data) (s.sq ++ s.kernel)
    ((s.posted.drop s.delivered.length).map Cqe.data)
  exact hmove

/-- Every awaiter is resumed once or still waits in one of the three places, the completions are
passed on in their order, and the ring's entries reach the kernel in theirs. -/
theorem awaiters_resumed_once (h : Run machine NotNested (initial entries) s) : Delivers s :=
  delivers_of_served (served_of_run h)

/-- A coroutine that `_dispatch` has resumed calls `step`: the loop inside begins with the batch
that the outer one has not yet given back, and resumes its first awaiter a second time. -/
theorem nested_step_resumes_twice (h : Run machine NotNested (initial entries) s)
    (inside : s.stack.head? = some .coroutine) {id : ℕ} {res : ℤ}
    (first : s.posted[s.khead]? = some ⟨.awaiter id, res⟩) {submitted : ℕ}
    (within : submitted ≤ s.sq.length) {ret : Waited} (settled : ret = .ready ∨ ret = .timedOut) :
    machine.Enabled s (.step submitted ret) ∧
      machine.Enabled (next s (.step submitted ret)) .turn ∧
      ((resumed (next (next s (.step submitted ret)) .turn)).map Prod.fst).count id = 2 := by
  have hs := served_of_run h
  obtain ⟨stack, top⟩ := List.head?_eq_some_iff.mp inside
  have halive : s.alive = true := hs.running (by simp [top])
  have hlt : s.khead < s.delivered.length := by
    have hposition := hs.position halive
    have hshape := hs.shape
    rw [top] at hshape hposition
    cases hshape with
    | inside nr =>
      have hposition : s.khead + (nr + 1) = s.delivered.length := hposition
      omega
  have hnext : next s (.step submitted ret) =
      { s.submit submitted with stack := .dispatch s.khead 0 :: s.stack } := by
    rcases settled with rfl | rfl <;> rfl
  rw [hnext]
  refine ⟨⟨?_, within⟩, trivial, ?_⟩
  · rw [Runs, top]
    exact halive
  · have hagain : resumed (next { s.submit submitted with
        stack := .dispatch s.khead 0 :: s.stack } .turn) = resumed s ++ [(id, res)] := by
      simp [next, State.turn, State.submit, resumed, first, completion, awaiterOf]
    have hone : ((resumed s).map Prod.fst).count id = 1 := by
      have honce := (awaiters_resumed_once h).once
      have hnodup := (List.nodup_append.mp (honce.nodup_iff.mpr List.nodup_range)).1
      rw [List.Nodup.count hnodup, if_pos]
      refine List.mem_map.mpr ⟨(id, res), ?_, rfl⟩
      rw [resumed_eq hs]
      refine List.mem_filterMap.mpr ⟨⟨.awaiter id, res⟩, ?_, rfl⟩
      have htake : (s.posted.take s.delivered.length)[s.khead]? = some ⟨.awaiter id, res⟩ := by
        rw [List.getElem?_take_of_lt hlt, first]
      exact List.mem_of_getElem? htake
    rw [hagain, List.map_append, List.count_append, hone]
    simp

/-- In a ring of one entry the second request flushes the first; its completion is posted first,
and the coroutine it resumes makes a third. -/
def outOfOrder : List Event :=
  [.request .await (.ok 0), .request .await (.ok 1), .step 1 .ready, .post 1 7 false, .turn,
    .request .await (.ok 0)]

theorem awaiters_resumed_once_out_of_order :
    let s := runTrace machine (initial 1) outOfOrder
    resumed s = [(1, 7)] ∧ waiting s = [2, 0] ∧ Delivers s :=
  ⟨by decide, by decide, awaiters_resumed_once (run_of_trace _ (by decide) (by decide))⟩

theorem nested_step_resumes_twice_first :
    let s := runTrace machine (initial 1) outOfOrder
    machine.Enabled s (.step 1 .ready) ∧ machine.Enabled (next s (.step 1 .ready)) .turn ∧
      ((resumed (next (next s (.step 1 .ready)) .turn)).map Prod.fst).count 1 = 2 := by
  intro s
  have first : s.posted[s.khead]? = some ⟨.awaiter 1, 7⟩ := by decide
  have hrun : Run machine NotNested (initial 1) s := run_of_trace _ (by decide) (by decide)
  exact nested_step_resumes_twice hrun (by decide) first (by decide) (.inl rfl)

end Delivery

end EasyioUringQueue
