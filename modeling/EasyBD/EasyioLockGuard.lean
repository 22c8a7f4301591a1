import Mathlib.Data.List.Range
import EasyBD.TransitionRuns
import EasyBD.EasyioMutex
import EasyBD.EasyioSendAll

/-! Coroutines that lock one mutex through `lock_guard` and send under it, on one thread. The call
stack is explicit: `unlock` resumes the next holder inside the guard's destructor, and what that
holder does, its own release included, happens on top of the releasing coroutine. Requests are
numbered in their order; a coroutine that locks again makes a new one. -/
namespace EasyioLockGuard

open TransitionRuns EasyioMutex EasyioSendAll

/-- What a suspended section waits for: something else than a send, a send, or to be resumed after
its send was accepted or failed. -/
inductive Doing where
  | elsewhere
  | sending (a : SendAll)
  | sent (a : SendAll) (n : ℕ)
  | refused (a : SendAll)
  deriving DecidableEq

structure Section where
  id : ℕ
  doing : Doing
  deriving DecidableEq

/-- A coroutine that runs, innermost first: inside its section, or past its guard's destructor or
still in it, where it has resumed the coroutine above it. -/
inductive Frame where
  | inside (id : ℕ)
  | released (id : ℕ)
  deriving DecidableEq

/-- `requested` counts the lock requests. `acquired`, `waited` and `resumed` list the requests that
got the lock, had to wait for it, and were resumed by an unlock, each oldest first; `sends` lists
the `send_all` calls made under the lock, and `failed` is set once one has thrown. -/
structure State where
  mutex : Mutex ℕ
  stack : List Frame
  suspended : List Section
  requested : ℕ
  acquired : List ℕ
  waited : List ℕ
  resumed : List ℕ
  unlocks : ℕ
  sends : List (ℕ × List UInt8)
  wire : List UInt8
  failed : Bool
  deriving DecidableEq

def initial : State where
  mutex := .initial
  stack := []
  suspended := []
  requested := 0
  acquired := []
  waited := []
  resumed := []
  unlocks := 0
  sends := []
  wire := []
  failed := false

namespace State

/-- `co_await lock_guard(mutex)`; a coroutine that waits returns to its caller. -/
def lock (s : State) : State :=
  if s.mutex.locked = false then
    { s with
      mutex := s.mutex.take
      stack := .inside s.requested :: s.stack
      requested := s.requested + 1
      acquired := s.acquired ++ [s.requested] }
  else
    { s with
      mutex := s.mutex.wait s.requested
      requested := s.requested + 1
      waited := s.waited ++ [s.requested] }

/-- The destructor of the guard; `stack` is below the releasing coroutine. -/
def unlock (s : State) (id : ℕ) (stack : List Frame) : State :=
  match s.mutex.unlock with
  | (some w, mutex) =>
    { s with
      mutex
      stack := .inside w :: .released id :: stack
      acquired := s.acquired ++ [w]
      resumed := s.resumed ++ [w]
      unlocks := s.unlocks + 1 }
  | (none, mutex) => { s with mutex, stack := .released id :: stack, unlocks := s.unlocks + 1 }

def suspend (s : State) (id : ℕ) (doing : Doing) (stack : List Frame) : State :=
  { s with stack, suspended := ⟨id, doing⟩ :: s.suspended }

/-- A call of either `send_all`, up to its first `send`. -/
def send (s : State) (a : SendAll) : State :=
  match s.stack with
  | .inside id :: stack =>
    if a.Finished then { s with sends := s.sends ++ [(id, a.rest)] }
    else { s with sends := s.sends ++ [(id, a.rest)] }.suspend id (.sending a) stack
  | _ => s

def enter (s : State) (x : Section) : State :=
  { s with stack := .inside x.id :: s.stack, suspended := s.suspended.erase x }

def turn (s : State) (x : Section) (doing : Doing) : State :=
  { s with suspended := ⟨x.id, doing⟩ :: s.suspended.erase x }

def resume (s : State) (x : Section) : State :=
  match x.doing with
  | .elsewhere => s.enter x
  | .sending _ => s
  | .sent a n =>
    if ((a.resume n).getD a).Finished then s.enter x
    else s.turn x (.sending ((a.resume n).getD a))
  | .refused _ => { s.enter x with failed := true }

end State

inductive Event where
  | lock
  | sendAll (buf : List UInt8)
  | sendAllGathered (buf1 buf2 : List UInt8)
  /-- The running section suspends in something else than a send. -/
  | pause
  | accepts (x : Section) (n : ℕ)
  | refuses (x : Section)
  | resume (x : Section)
  /-- The end of the guard's scope, reached normally or by an exception. -/
  | release
  | leave
  deriving DecidableEq

def Inside (s : State) : Prop := ∃ id stack, s.stack = .inside id :: stack

def Outside (s : State) : Prop := ∃ id stack, s.stack = .released id :: stack

instance (s : State) : Decidable (Inside s) :=
  match hs : s.stack with
  | .inside id :: stack => isTrue ⟨id, stack, hs⟩
  | .released id :: stack => isFalse (by
      rintro ⟨_, _, top⟩
      rw [hs] at top
      cases top)
  | [] => isFalse (by
      rintro ⟨_, _, top⟩
      rw [hs] at top
      cases top)

instance (s : State) : Decidable (Outside s) :=
  match hs : s.stack with
  | .released id :: stack => isTrue ⟨id, stack, hs⟩
  | .inside id :: stack => isFalse (by
      rintro ⟨_, _, top⟩
      rw [hs] at top
      cases top)
  | [] => isFalse (by
      rintro ⟨_, _, top⟩
      rw [hs] at top
      cases top)

def Doing.call : Doing → Option SendAll
  | .sending a => some a
  | .elsewhere | .sent _ _ | .refused _ => none

theorem Doing.call_eq_some {d : Doing} {a : SendAll} : d.call = some a ↔ d = .sending a := by
  cases d <;> simp [Doing.call]

theorem Doing.sending_of_call {d : Doing} (h : d.call ≠ none) : ∃ a, d = .sending a := by
  obtain ⟨a, hcall⟩ := Option.ne_none_iff_exists'.mp h
  exact ⟨a, call_eq_some.mp hcall⟩

/-- Anyone may lock at any time. -/
def Enabled (s : State) : Event → Prop
  | .lock => True
  | .sendAll _ | .sendAllGathered _ _ | .pause | .release => Inside s
  | .accepts x n => x ∈ s.suspended ∧ ∃ a ∈ x.doing.call, 1 ≤ n ∧ n ≤ a.rest.length
  | .refuses x => x ∈ s.suspended ∧ x.doing.call ≠ none
  | .resume x => x ∈ s.suspended ∧ x.doing.call = none
  | .leave => Outside s

instance (s : State) : (e : Event) → Decidable (Enabled s e)
  | .lock => isTrue trivial
  | .sendAll _ | .sendAllGathered _ _ | .pause | .release => inferInstanceAs (Decidable (Inside s))
  | .accepts x n => inferInstanceAs
      (Decidable (x ∈ s.suspended ∧ ∃ a ∈ x.doing.call, 1 ≤ n ∧ n ≤ a.rest.length))
  | .refuses x => inferInstanceAs (Decidable (x ∈ s.suspended ∧ x.doing.call ≠ none))
  | .resume x => inferInstanceAs (Decidable (x ∈ s.suspended ∧ x.doing.call = none))
  | .leave => inferInstanceAs (Decidable (Outside s))

def next (s : State) : Event → State
  | .lock => s.lock
  | .sendAll buf => s.send (sendAll buf)
  | .sendAllGathered buf1 buf2 => s.send (sendAllGathered buf1 buf2)
  | .pause =>
    match s.stack with
    | .inside id :: stack => s.suspend id .elsewhere stack
    | _ => s
  | .accepts x n =>
    match x.doing with
    | .sending a => { s with wire := s.wire ++ a.rest.take n }.turn x (.sent a n)
    | _ => s
  | .refuses x =>
    match x.doing with
    | .sending a => s.turn x (.refused a)
    | _ => s
  | .resume x => s.resume x
  | .release =>
    match s.stack with
    | .inside id :: stack => s.unlock id stack
    | _ => s
  | .leave => { s with stack := s.stack.tail }

def machine : System State Event := ⟨Enabled, next⟩

instance (s : State) (e : Event) : Decidable (machine.Enabled s e) :=
  inferInstanceAs (Decidable (Enabled s e))

def Frame.holder : Frame → Option ℕ
  | .inside id => some id
  | .released _ => none

/-- What a section's `send_all` has still to get accepted. -/
def Doing.unsent : Doing → List UInt8
  | .elsewhere => []
  | .sending a | .refused a => a.rest
  | .sent a n => a.rest.drop n

@[simp] theorem holders_inside (id : ℕ) (stack : List Frame) :
    (Frame.inside id :: stack).filterMap Frame.holder = id :: stack.filterMap Frame.holder := rfl

@[simp] theorem holders_released (id : ℕ) (stack : List Frame) :
    (Frame.released id :: stack).filterMap Frame.holder = stack.filterMap Frame.holder := rfl

namespace State

/-- The requests that are inside their sections, running or suspended. -/
def holders (s : State) : List ℕ :=
  s.stack.filterMap Frame.holder ++ s.suspended.map Section.id

def unsent (s : State) : List UInt8 := (s.suspended.map fun x => x.doing.unsent).flatten

def message (s : State) (id : ℕ) : List UInt8 :=
  ((s.sends.filter fun c => c.1 = id).map Prod.snd).flatten

end State

/-- Requests get the lock in their order, and those that wait for it are resumed in theirs. -/
structure LockInv (s : State) : Prop where
  exclusive : s.mutex.Exclusive s.holders.length
  order : s.acquired ++ s.mutex.waiters = List.range s.requested
  woken : s.resumed ++ s.mutex.waiters = s.waited
  waited : s.waited.Sublist (List.range s.requested)
  last : ∃ before, s.acquired = before ++ s.holders

structure SameLock (s s' : State) : Prop where
  mutex : s'.mutex = s.mutex
  holders : s'.holders = s.holders
  requested : s'.requested = s.requested
  acquired : s'.acquired = s.acquired
  waited : s'.waited = s.waited
  resumed : s'.resumed = s.resumed
  unlocks : s'.unlocks = s.unlocks

section Lock

variable {s s' : State}

theorem lockInv_initial : LockInv initial :=
  ⟨.initial, rfl, rfl, List.Sublist.refl _, [], rfl⟩

theorem LockInv.same (h : LockInv s) (k : SameLock s s') : LockInv s' := by
  refine ⟨?_, ?_, ?_, ?_, ?_⟩
  · rw [k.mutex, k.holders]
    exact h.exclusive
  · rw [k.acquired, k.mutex, k.requested]
    exact h.order
  · rw [k.resumed, k.mutex, k.waited]
    exact h.woken
  · rw [k.waited, k.requested]
    exact h.waited
  · rw [k.acquired, k.holders]
    exact h.last

theorem LockInv.alone (h : LockInv s) {id : ℕ} {stack : List Frame}
    (top : s.stack = .inside id :: stack) :
    stack.filterMap Frame.holder = [] ∧ s.suspended = [] ∧ s.holders = [id] := by
  have hone := h.exclusive.le_one
  have hholders : s.holders =
      id :: (stack.filterMap Frame.holder ++ s.suspended.map Section.id) := by
    rw [State.holders, top, holders_inside, List.cons_append]
  rw [hholders, List.length_cons, List.length_append, List.length_map] at hone
  have hstack := List.length_eq_zero_iff.mp
    (show (stack.filterMap Frame.holder).length = 0 by omega)
  have hsuspended := List.length_eq_zero_iff.mp (show s.suspended.length = 0 by omega)
  refine ⟨hstack, hsuspended, ?_⟩
  rw [hholders, hstack, hsuspended]
  rfl

theorem LockInv.alone_suspended (h : LockInv s) {x : Section} (hx : x ∈ s.suspended) :
    s.stack.filterMap Frame.holder = [] ∧ s.suspended = [x] ∧ s.holders = [x.id] := by
  have hone := h.exclusive.le_one
  have hpos := List.length_pos_of_mem hx
  rw [State.holders, List.length_append, List.length_map] at hone
  have hstack := List.length_eq_zero_iff.mp
    (show (s.stack.filterMap Frame.holder).length = 0 by omega)
  obtain ⟨y, hy⟩ := List.length_eq_one_iff.mp (show s.suspended.length = 1 by omega)
  rw [hy, List.mem_singleton] at hx
  subst hx
  refine ⟨hstack, hy, ?_⟩
  rw [State.holders, hstack, hy]
  rfl

theorem LockInv.free (h : LockInv s) (hfree : s.mutex.locked = false) :
    s.holders = [] ∧ s.mutex.waiters = [] := by
  have hheld := h.exclusive.held
  have hwaiting := h.exclusive.waiting
  rw [hfree] at hheld hwaiting
  refine ⟨List.length_eq_zero_iff.mp hheld, ?_⟩
  by_contra hne
  cases hwaiting hne

/-- The locker goes in where the lock was free, and the first waiter where there is one. -/
theorem LockInv.holders_lock (h : LockInv s) (hfree : s.mutex.locked = false) :
    s.lock.holders = [s.requested] := by
  rw [State.holders, State.lock, if_pos hfree, holders_inside, List.cons_append]
  exact congrArg (s.requested :: ·) (h.free hfree).1

theorem LockInv.holders_unlock_nil (h : LockInv s) {id : ℕ} {stack : List Frame}
    (top : s.stack = .inside id :: stack) (hwaiters : s.mutex.waiters = []) :
    (s.unlock id stack).holders = [] := by
  obtain ⟨hstack, hsuspended, -⟩ := h.alone top
  simp [State.unlock, Mutex.unlock_nil hwaiters, State.holders, hstack, hsuspended]

theorem LockInv.holders_unlock_cons (h : LockInv s) {id w : ℕ} {stack : List Frame}
    {waiters : List ℕ} (top : s.stack = .inside id :: stack)
    (hwaiters : s.mutex.waiters = w :: waiters) : (s.unlock id stack).holders = [w] := by
  obtain ⟨hstack, hsuspended, -⟩ := h.alone top
  simp [State.unlock, Mutex.unlock_cons hwaiters, State.holders, hstack, hsuspended]

theorem lockInv_lock (h : LockInv s) : LockInv s.lock := by
  unfold State.lock
  by_cases hfree : s.mutex.locked = false
  · obtain ⟨hholders, hwaiters⟩ := h.free hfree
    have hexclusive := h.exclusive.take hfree
    have horder := h.order
    rw [hholders] at hexclusive
    rw [hwaiters, List.append_nil] at horder
    have hheld := h.holders_lock hfree
    rw [State.lock, if_pos hfree] at hheld
    rw [if_pos hfree]
    refine ⟨?_, ?_, h.woken, ?_, s.acquired, ?_⟩
    · rw [hheld]
      exact hexclusive
    · change s.acquired ++ [s.requested] ++ s.mutex.waiters = List.range (s.requested + 1)
      rw [hwaiters, List.append_nil, horder, List.range_succ]
    · change s.waited.Sublist (List.range (s.requested + 1))
      rw [List.range_succ]
      exact h.waited.trans (List.sublist_append_left _ _)
    · rw [hheld]
  · rw [if_neg hfree]
    have hlocked : s.mutex.locked = true := by simpa using hfree
    refine ⟨h.exclusive.wait hlocked _, ?_, ?_, ?_, h.last⟩
    · change s.acquired ++ (s.mutex.waiters ++ [s.requested]) = List.range (s.requested + 1)
      rw [← List.append_assoc, h.order, List.range_succ]
    · change s.resumed ++ (s.mutex.waiters ++ [s.requested]) = s.waited ++ [s.requested]
      rw [← List.append_assoc, h.woken]
    · change (s.waited ++ [s.requested]).Sublist (List.range (s.requested + 1))
      rw [List.range_succ]
      exact h.waited.append (List.Sublist.refl _)

theorem lockInv_unlock (h : LockInv s) {id : ℕ} {stack : List Frame}
    (top : s.stack = .inside id :: stack) : LockInv (s.unlock id stack) := by
  obtain ⟨-, -, hholders⟩ := h.alone top
  have hexclusive := h.exclusive
  have horder := h.order
  have hwoken := h.woken
  rw [hholders] at hexclusive
  have hunlock := hexclusive.unlock
  cases hwaiters : s.mutex.waiters with
  | nil =>
    have hheld := h.holders_unlock_nil top hwaiters
    rw [Mutex.unlock_nil hwaiters] at hunlock
    rw [hwaiters] at horder hwoken
    simp only [State.unlock, Mutex.unlock_nil hwaiters] at hheld ⊢
    refine ⟨?_, ?_, ?_, h.waited, s.acquired, ?_⟩
    · rw [hheld]
      exact hunlock
    · exact (congrArg (s.acquired ++ ·) hwaiters).trans horder
    · exact (congrArg (s.resumed ++ ·) hwaiters).trans hwoken
    · rw [hheld, List.append_nil]
  | cons w waiters =>
    have hheld := h.holders_unlock_cons top hwaiters
    rw [Mutex.unlock_cons hwaiters] at hunlock
    rw [hwaiters] at horder hwoken
    simp only [State.unlock, Mutex.unlock_cons hwaiters] at hheld ⊢
    refine ⟨?_, ?_, ?_, h.waited, s.acquired, ?_⟩
    · rw [hheld]
      exact hunlock
    · rw [← horder]
      exact List.append_assoc _ [w] waiters
    · rw [← hwoken]
      exact List.append_assoc _ [w] waiters
    · rw [hheld]

theorem same_suspend (h : LockInv s) {id : ℕ} {stack : List Frame}
    (top : s.stack = .inside id :: stack) (doing : Doing) :
    SameLock s (s.suspend id doing stack) := by
  obtain ⟨hstack, hsuspended, hholders⟩ := h.alone top
  refine ⟨rfl, ?_, rfl, rfl, rfl, rfl, rfl⟩
  rw [hholders]
  simp [State.suspend, State.holders, hstack, hsuspended]

theorem same_enter (h : LockInv s) {x : Section} (hx : x ∈ s.suspended) :
    SameLock s (s.enter x) := by
  obtain ⟨hstack, hsuspended, hholders⟩ := h.alone_suspended hx
  refine ⟨rfl, ?_, rfl, rfl, rfl, rfl, rfl⟩
  rw [hholders]
  simp [State.enter, State.holders, hstack, hsuspended]

theorem same_turn (h : LockInv s) {x : Section} (hx : x ∈ s.suspended) (doing : Doing) :
    SameLock s (s.turn x doing) := by
  obtain ⟨hstack, hsuspended, hholders⟩ := h.alone_suspended hx
  refine ⟨rfl, ?_, rfl, rfl, rfl, rfl, rfl⟩
  rw [hholders]
  simp [State.turn, State.holders, hstack, hsuspended]

theorem send_of_inside {id : ℕ} {stack : List Frame} (top : s.stack = .inside id :: stack)
    (a : SendAll) : s.send a =
      if a.Finished then { s with sends := s.sends ++ [(id, a.rest)] }
      else { s with sends := s.sends ++ [(id, a.rest)] }.suspend id (.sending a) stack := by
  unfold State.send
  split
  · next id' stack' top' =>
    obtain ⟨hid, rfl⟩ := List.cons.inj (top.symm.trans top')
    rw [Frame.inside.inj hid]
  · next hne => exact absurd top (hne id stack)

theorem same_send (h : LockInv s) (inside : Inside s) (a : SendAll) : SameLock s (s.send a) := by
  obtain ⟨id, stack, top⟩ := inside
  rw [send_of_inside top]
  split
  · exact ⟨rfl, rfl, rfl, rfl, rfl, rfl, rfl⟩
  · have hsends : LockInv { s with sends := s.sends ++ [(id, a.rest)] } :=
      h.same ⟨rfl, rfl, rfl, rfl, rfl, rfl, rfl⟩
    have hsame := same_suspend hsends top (.sending a)
    exact ⟨hsame.mutex, hsame.holders, hsame.requested, hsame.acquired, hsame.waited,
      hsame.resumed, hsame.unlocks⟩

theorem same_resume (h : LockInv s) {x : Section} (hx : x ∈ s.suspended) :
    SameLock s (s.resume x) := by
  have henter := same_enter h hx
  unfold State.resume
  split
  · exact henter
  · exact ⟨rfl, rfl, rfl, rfl, rfl, rfl, rfl⟩
  · split
    · exact henter
    · exact same_turn h hx _
  · exact ⟨henter.mutex, henter.holders, henter.requested, henter.acquired, henter.waited,
      henter.resumed, henter.unlocks⟩

theorem same_step (h : LockInv s) {e : Event} (he : Enabled s e) :
    SameLock s (next s e) ∨ e = .lock ∨ e = .release := by
  cases e with
  | lock => exact Or.inr (Or.inl rfl)
  | sendAll buf => exact Or.inl (same_send h he _)
  | sendAllGathered buf1 buf2 => exact Or.inl (same_send h he _)
  | pause =>
    obtain ⟨id, stack, top⟩ := he
    simp only [next, top]
    exact Or.inl (same_suspend h top _)
  | accepts x n =>
    obtain ⟨hx, a, hcall, -⟩ := he
    have ha := Doing.call_eq_some.mp hcall
    have hwire : LockInv { s with wire := s.wire ++ a.rest.take n } :=
      h.same ⟨rfl, rfl, rfl, rfl, rfl, rfl, rfl⟩
    have hsame := same_turn hwire hx (.sent a n)
    simp only [next, ha]
    exact Or.inl ⟨hsame.mutex, hsame.holders, hsame.requested, hsame.acquired, hsame.waited,
      hsame.resumed, hsame.unlocks⟩
  | refuses x =>
    obtain ⟨hx, hcall⟩ := he
    obtain ⟨a, ha⟩ := Doing.sending_of_call hcall
    simp only [next, ha]
    exact Or.inl (same_turn h hx _)
  | resume x => exact Or.inl (same_resume h he.1)
  | release => exact Or.inr (Or.inr rfl)
  | leave =>
    obtain ⟨id, stack, top⟩ := he
    refine Or.inl ⟨rfl, ?_, rfl, rfl, rfl, rfl, rfl⟩
    simp [next, State.holders, top]

theorem lockInv_step (h : LockInv s) {e : Event} (he : Enabled s e) : LockInv (next s e) := by
  rcases same_step h he with hsame | rfl | rfl
  · exact h.same hsame
  · exact lockInv_lock h
  · obtain ⟨id, stack, top⟩ := he
    simp only [next, top]
    exact lockInv_unlock h top

end Lock

def Doing.Sound : Doing → Prop
  | .elsewhere | .refused _ => True
  | .sending a => a.WellFormed ∧ a.rest ≠ []
  | .sent a n => a.WellFormed ∧ n ≤ a.rest.length

/-- The messages are on the wire in the order in which the lock was acquired, the last one up to
what its section has still to get accepted. -/
def OnWire (s : State) : Prop :=
  ∃ before sent, s.acquired = before ++ s.holders ∧
    s.wire = (before.map s.message).flatten ++ sent ∧
    (s.holders.map s.message).flatten = sent ++ s.unsent

structure WireInv (s : State) : Prop where
  called : ∀ c ∈ s.sends, c.1 ∈ s.acquired
  sound : ∀ x ∈ s.suspended, x.doing.Sound
  wire : s.failed = false → OnWire s

section Wire

variable {s s' : State}

theorem wireInv_initial : WireInv initial :=
  ⟨List.forall_mem_nil _, List.forall_mem_nil _, fun _ => ⟨[], [], rfl, rfl, rfl⟩⟩

theorem OnWire.same (h : OnWire s) (hacquired : s'.acquired = s.acquired)
    (hholders : s'.holders = s.holders) (hsends : s'.sends = s.sends) (hwire : s'.wire = s.wire)
    (hunsent : s'.unsent = s.unsent) : OnWire s' := by
  obtain ⟨before, sent, hsplit, hfront, hrest⟩ := h
  have hmessage : s'.message = s.message := by
    funext id
    rw [State.message, State.message, hsends]
  refine ⟨before, sent, ?_, ?_, ?_⟩
  · rw [hacquired, hholders, hsplit]
  · rw [hwire, hmessage, hfront]
  · rw [hholders, hmessage, hunsent, hrest]

theorem message_of_not_called {id : ℕ} (h : ∀ c ∈ s.sends, c.1 ≠ id) : s.message id = [] := by
  have hnone : s.sends.filter (fun c => c.1 = id) = [] :=
    List.filter_eq_nil_iff.mpr fun c hc => by simpa using h c hc
  rw [State.message, hnone]
  rfl

theorem message_of_next (hw : WireInv s) {id : ℕ} {rest : List ℕ} {n : ℕ}
    (horder : s.acquired ++ id :: rest = List.range n) : s.message id = [] := by
  refine message_of_not_called fun c hc heq => ?_
  have hnodup : (s.acquired ++ id :: rest).Nodup := horder ▸ List.nodup_range
  have hmem : id ∈ s.acquired := heq ▸ hw.called c hc
  exact (List.nodup_append.mp hnodup).2.2 id hmem id List.mem_cons_self rfl

theorem unsent_nil (h : s.suspended = []) : s.unsent = [] := by
  rw [State.unsent, h]
  rfl

theorem unsent_singleton {x : Section} (h : s.suspended = [x]) : s.unsent = x.doing.unsent := by
  rw [State.unsent, h]
  exact List.append_nil _

theorem OnWire.acquires (h : OnWire s) (hunsent : s.unsent = [])
    (hmessage : ∀ w ∈ s'.holders, s.message w = [])
    (hacquired : s'.acquired = s.acquired ++ s'.holders) (hsends : s'.sends = s.sends)
    (hwire : s'.wire = s.wire) (hunsent' : s'.unsent = []) : OnWire s' := by
  obtain ⟨before, sent, hsplit, hfront, hrest⟩ := h
  have hmessage' : s'.message = s.message := by
    funext id
    rw [State.message, State.message, hsends]
  rw [hunsent, List.append_nil] at hrest
  refine ⟨s.acquired, [], hacquired, ?_, ?_⟩
  · rw [hwire, hmessage', hsplit, List.map_append, List.flatten_append, hrest, hfront,
      List.append_nil]
  · rw [hmessage', hunsent', List.append_nil, List.flatten_eq_nil_iff]
    intro bytes hbytes
    obtain ⟨w, hw, rfl⟩ := List.mem_map.mp hbytes
    exact hmessage w hw

theorem suspended_of_holders (h : s.holders = []) : s.suspended = [] :=
  List.map_eq_nil_iff.mp (List.append_eq_nil_iff.mp h).2

theorem wireInv_lock (h : LockInv s) (hw : WireInv s) : WireInv s.lock := by
  by_cases hfree : s.mutex.locked = false
  · obtain ⟨hholders, hwaiters⟩ := h.free hfree
    have hsuspended := suspended_of_holders hholders
    have horder := h.order
    rw [hwaiters, List.append_nil] at horder
    have hheld := h.holders_lock hfree
    have hnext : s.acquired ++ [s.requested] = List.range (s.requested + 1) := by
      rw [horder, List.range_succ]
    rw [State.lock, if_pos hfree] at hheld ⊢
    refine ⟨fun c hc => List.mem_append_left _ (hw.called c hc), hw.sound, fun hfine => ?_⟩
    refine (hw.wire hfine).acquires (unsent_nil hsuspended) ?_ ?_ rfl rfl (unsent_nil hsuspended)
    · rw [hheld]
      intro w hmem
      rw [List.mem_singleton.mp hmem]
      exact message_of_next hw hnext
    · rw [hheld]
  · rw [State.lock, if_neg hfree]
    exact ⟨hw.called, hw.sound, fun hfine => (hw.wire hfine).same rfl rfl rfl rfl rfl⟩

theorem wireInv_unlock (h : LockInv s) (hw : WireInv s) {id : ℕ} {stack : List Frame}
    (top : s.stack = .inside id :: stack) : WireInv (s.unlock id stack) := by
  obtain ⟨-, hsuspended, -⟩ := h.alone top
  have horder := h.order
  cases hwaiters : s.mutex.waiters with
  | nil =>
    have hheld := h.holders_unlock_nil top hwaiters
    simp only [State.unlock, Mutex.unlock_nil hwaiters] at hheld ⊢
    refine ⟨hw.called, hw.sound, fun hfine => ?_⟩
    refine (hw.wire hfine).acquires (unsent_nil hsuspended) ?_ ?_ rfl rfl (unsent_nil hsuspended)
    · rw [hheld]
      exact List.forall_mem_nil _
    · rw [hheld, List.append_nil]
  | cons w waiters =>
    have hheld := h.holders_unlock_cons top hwaiters
    rw [hwaiters] at horder
    simp only [State.unlock, Mutex.unlock_cons hwaiters] at hheld ⊢
    refine ⟨fun c hc => List.mem_append_left _ (hw.called c hc), hw.sound, fun hfine => ?_⟩
    refine (hw.wire hfine).acquires (unsent_nil hsuspended) ?_ ?_ rfl rfl (unsent_nil hsuspended)
    · rw [hheld]
      intro w' hmem
      rw [List.mem_singleton.mp hmem]
      exact message_of_next hw horder
    · rw [hheld]

/-- A call adds its bytes to the message of the section that makes it. -/
theorem message_send {id : ℕ} {bytes : List UInt8} (hsends : s'.sends = s.sends ++ [(id, bytes)])
    (id' : ℕ) : s'.message id' = s.message id' ++ if id' = id then bytes else [] := by
  rw [State.message, hsends, List.filter_append, List.map_append, List.flatten_append]
  by_cases heq : id' = id
  · subst heq
    simp [State.message]
  · have hne : ¬ id = id' := fun h => heq h.symm
    simp [State.message, heq, hne]

theorem OnWire.sends (h : OnWire s) {id : ℕ} {bytes : List UInt8} (hlock : LockInv s)
    (hholders : s.holders = [id]) (hunsent : s.unsent = [])
    (hsends : s'.sends = s.sends ++ [(id, bytes)]) (hacquired : s'.acquired = s.acquired)
    (hholders' : s'.holders = s.holders) (hwire : s'.wire = s.wire)
    (hunsent' : s'.unsent = bytes) : OnWire s' := by
  obtain ⟨before, sent, hsplit, hfront, hrest⟩ := h
  have hmessage := message_send hsends
  have hbefore : before.map s'.message = before.map s.message := by
    refine List.map_congr_left fun id' hid' => ?_
    have hne : id' ≠ id := by
      rintro rfl
      have hnodup : (s.acquired ++ s.mutex.waiters).Nodup := hlock.order ▸ List.nodup_range
      rw [hsplit, hholders, List.append_assoc] at hnodup
      exact (List.nodup_append.mp hnodup).2.2 id' hid' id' List.mem_cons_self rfl
    rw [hmessage, if_neg hne, List.append_nil]
  rw [hunsent, List.append_nil] at hrest
  refine ⟨before, sent, ?_, ?_, ?_⟩
  · rw [hacquired, hholders', hsplit]
  · rw [hwire, hbefore, hfront]
  · rw [hholders] at hrest
    rw [hholders', hholders, hunsent', ← hrest]
    simp [hmessage]

theorem wireInv_send (h : LockInv s) (hw : WireInv s) (inside : Inside s) {a : SendAll}
    (ha : a.WellFormed) : WireInv (s.send a) := by
  have hsame := same_send h inside a
  obtain ⟨id, stack, top⟩ := inside
  obtain ⟨-, hsuspended, hholders⟩ := h.alone top
  have hid : id ∈ s.acquired := by
    obtain ⟨before, hsplit⟩ := h.last
    rw [hsplit, hholders]
    exact List.mem_append_right _ List.mem_cons_self
  have hcalled : ∀ c ∈ s.sends ++ [(id, a.rest)], c.1 ∈ s.acquired := by
    intro c hc
    rcases List.mem_append.mp hc with hold | hnew
    · exact hw.called c hold
    · rw [List.mem_singleton.mp hnew]
      exact hid
  rw [send_of_inside top] at hsame ⊢
  by_cases hfinished : a.Finished
  · rw [if_pos hfinished] at hsame ⊢
    refine ⟨hcalled, hw.sound, fun hfine => ?_⟩
    refine (hw.wire hfine).sends h hholders (unsent_nil hsuspended) rfl rfl hsame.holders rfl ?_
    rw [ha.finished_iff.mp hfinished]
    exact unsent_nil hsuspended
  · rw [if_neg hfinished] at hsame ⊢
    refine ⟨hcalled, fun x hx => ?_, fun hfine => ?_⟩
    · rcases List.mem_cons.mp hx with rfl | hold
      · exact ⟨ha, fun hrest => hfinished (ha.finished_iff.mpr hrest)⟩
      · exact hw.sound x hold
    · refine (hw.wire hfine).sends h hholders (unsent_nil hsuspended) rfl rfl hsame.holders rfl ?_
      refine unsent_singleton (x := ⟨id, .sending a⟩) ?_
      exact congrArg (_ :: ·) hsuspended

theorem wireInv_pause (h : LockInv s) (hw : WireInv s) {id : ℕ} {stack : List Frame}
    (top : s.stack = .inside id :: stack) : WireInv (s.suspend id .elsewhere stack) := by
  have hsame := same_suspend h top .elsewhere
  obtain ⟨-, hsuspended, -⟩ := h.alone top
  refine ⟨hw.called, fun x hx => ?_, fun hfine => ?_⟩
  · rcases List.mem_cons.mp hx with rfl | hold
    · trivial
    · exact hw.sound x hold
  · refine (hw.wire hfine).same rfl hsame.holders rfl rfl ?_
    rw [unsent_nil hsuspended]
    exact unsent_singleton (x := ⟨id, .elsewhere⟩) (congrArg (_ :: ·) hsuspended)

theorem wireInv_turn (h : LockInv s) (hw : WireInv s) {x : Section} (hx : x ∈ s.suspended)
    (doing : Doing) (hsound : doing.Sound) (accepted : List UInt8)
    (hunsent : x.doing.unsent = accepted ++ doing.unsent) :
    WireInv ({ s with wire := s.wire ++ accepted }.turn x doing) := by
  have hsame := same_turn h hx doing
  obtain ⟨-, hsuspended, -⟩ := h.alone_suspended hx
  have hrest : s.suspended.erase x = [] := by rw [hsuspended, List.erase_cons_head]
  refine ⟨hw.called, fun y hy => ?_, fun hfine => ?_⟩
  · rcases List.mem_cons.mp hy with rfl | hold
    · exact hsound
    · rw [hrest] at hold
      cases hold
  · obtain ⟨before, sent, hsplit, hfront, hmessage⟩ := hw.wire hfine
    have hturned : State.unsent ({ s with wire := s.wire ++ accepted }.turn x doing) =
        doing.unsent := unsent_singleton (x := ⟨x.id, doing⟩) (congrArg (_ :: ·) hrest)
    refine ⟨before, sent ++ accepted, ?_, ?_, ?_⟩
    · exact hsplit.trans (congrArg (before ++ ·) hsame.holders.symm)
    · exact (congrArg (· ++ accepted) hfront).trans (List.append_assoc _ _ _)
    · rw [hturned, List.append_assoc, ← hunsent, ← unsent_singleton hsuspended, ← hmessage]
      exact congrArg (fun holders => (holders.map s.message).flatten) hsame.holders

theorem wireInv_enter (h : LockInv s) (hw : WireInv s) {x : Section} (hx : x ∈ s.suspended)
    (hunsent : x.doing.unsent = []) : WireInv (s.enter x) := by
  have hsame := same_enter h hx
  obtain ⟨-, hsuspended, -⟩ := h.alone_suspended hx
  have hrest : s.suspended.erase x = [] := by rw [hsuspended, List.erase_cons_head]
  refine ⟨hw.called, fun y hy => hw.sound y (List.mem_of_mem_erase hy), fun hfine => ?_⟩
  refine (hw.wire hfine).same rfl hsame.holders rfl rfl ?_
  rw [unsent_singleton hsuspended, hunsent]
  exact unsent_nil hrest

theorem wireInv_resume (h : LockInv s) (hw : WireInv s) {x : Section} (hx : x ∈ s.suspended) :
    WireInv (s.resume x) := by
  have hsound := hw.sound x hx
  unfold State.resume
  split
  · next hdoing =>
    apply wireInv_enter h hw hx
    rw [hdoing]
    rfl
  · exact hw
  · next a n hdoing =>
    rw [hdoing] at hsound
    obtain ⟨b, hresume, hb, hrest⟩ := hsound.1.resume hsound.2
    rw [hresume, Option.getD_some]
    by_cases hfinished : b.Finished
    · rw [if_pos hfinished]
      apply wireInv_enter h hw hx
      rw [hdoing, Doing.unsent, ← hrest]
      exact hb.finished_iff.mp hfinished
    · rw [if_neg hfinished]
      have hunfinished : b.rest ≠ [] := fun hnil => hfinished (hb.finished_iff.mpr hnil)
      have hunsent : x.doing.unsent = [] ++ (Doing.sending b).unsent := by
        rw [hdoing]
        exact hrest.symm
      have hturn := wireInv_turn h hw hx (.sending b) ⟨hb, hunfinished⟩ [] hunsent
      rwa [List.append_nil] at hturn
  · exact ⟨hw.called, fun y hy => hw.sound y (List.mem_of_mem_erase hy), by rintro ⟨⟩⟩

theorem wireInv_step (h : LockInv s) (hw : WireInv s) {e : Event} (he : Enabled s e) :
    WireInv (next s e) := by
  cases e with
  | lock => exact wireInv_lock h hw
  | sendAll buf => exact wireInv_send h hw he (SendAll.wellFormed_sendAll buf)
  | sendAllGathered buf1 buf2 =>
    exact wireInv_send h hw he (SendAll.wellFormed_sendAllGathered buf1 buf2)
  | pause =>
    obtain ⟨id, stack, top⟩ := he
    simp only [next, top]
    exact wireInv_pause h hw top
  | accepts x n =>
    obtain ⟨hx, a, hcall, -, hn⟩ := he
    have ha := Doing.call_eq_some.mp hcall
    have hsound := hw.sound x hx
    rw [ha] at hsound
    simp only [next, ha]
    refine wireInv_turn h hw hx (.sent a n) ⟨hsound.1, hn⟩ (a.rest.take n) ?_
    rw [ha]
    exact (List.take_append_drop n a.rest).symm
  | refuses x =>
    obtain ⟨hx, hcall⟩ := he
    obtain ⟨a, ha⟩ := Doing.sending_of_call hcall
    simp only [next, ha]
    have hunsent : x.doing.unsent = [] ++ (Doing.refused a).unsent := by
      rw [ha]
      rfl
    have hturn := wireInv_turn h hw hx (.refused a) trivial [] hunsent
    rwa [List.append_nil] at hturn
  | resume x => exact wireInv_resume h hw he.1
  | release =>
    obtain ⟨id, stack, top⟩ := he
    simp only [next, top]
    exact wireInv_unlock h hw top
  | leave =>
    have hsame : SameLock s (next s .leave) := by
      rcases same_step h he with hsame | hlock | hrelease
      · exact hsame
      · cases hlock
      · cases hrelease
    exact ⟨hw.called, hw.sound, fun hfine =>
      (hw.wire hfine).same rfl hsame.holders rfl rfl rfl⟩

end Wire

section Progress

variable {s t : State}

/-- Each unlock since `s` has resumed the next of those that waited then, while there were any. -/
structure Served (s t : State) : Prop where
  queue : s.resumed ++ s.mutex.waiters <+: t.resumed ++ t.mutex.waiters
  count : s.resumed.length + (t.unlocks - s.unlocks) ≤ t.resumed.length ∨
    s.resumed.length + s.mutex.waiters.length ≤ t.resumed.length
  since : s.unlocks ≤ t.unlocks

theorem served_step (ht : LockInv t) (h : Served s t) {e : Event} (he : Enabled t e) :
    Served s (next t e) := by
  rcases same_step ht he with hsame | rfl | rfl
  · refine ⟨?_, ?_, ?_⟩
    · rw [hsame.resumed, hsame.mutex]
      exact h.queue
    · rw [hsame.resumed, hsame.unlocks]
      exact h.count
    · rw [hsame.unlocks]
      exact h.since
  · simp only [next, State.lock]
    split
    · exact ⟨h.queue, h.count, h.since⟩
    · refine ⟨?_, h.count, h.since⟩
      change _ <+: t.resumed ++ (t.mutex.waiters ++ [t.requested])
      rw [← List.append_assoc]
      exact h.queue.trans (List.prefix_append _ _)
  · obtain ⟨id, stack, top⟩ := he
    have hqueue := h.queue
    have hcount := h.count
    have hsince := h.since
    simp only [next, top]
    cases hwaiters : t.mutex.waiters with
    | nil =>
      have hlength := h.queue.length_le
      rw [hwaiters, List.append_nil, List.length_append] at hlength
      simp only [State.unlock, Mutex.unlock_nil hwaiters]
      exact ⟨hqueue, Or.inr hlength, Nat.le_succ_of_le hsince⟩
    | cons w waiters =>
      simp only [State.unlock, Mutex.unlock_cons hwaiters]
      rw [hwaiters] at hqueue
      refine ⟨?_, ?_, Nat.le_succ_of_le hsince⟩
      · change _ <+: t.resumed ++ [w] ++ waiters
        rw [List.append_assoc]
        exact hqueue
      · change _ ≤ (t.resumed ++ [w]).length ∨ _ ≤ (t.resumed ++ [w]).length
        rw [List.length_append, List.length_singleton]
        change _ + (t.unlocks + 1 - s.unlocks) ≤ _ ∨ _
        omega

end Progress

/-- One section at a time, in the order of the requests, with every waiter resumed once: the
waiter behind `k` others by the `k + 1`-th unlock from now on. As long as no `send_all` has
thrown, the messages are on the wire whole and in that order. -/
structure Serialized (s : State) : Prop where
  exclusive : s.holders.length ≤ 1
  order : s.acquired ++ s.mutex.waiters = List.range s.requested
  free : s.mutex.locked = false → s.holders = [] ∧ s.mutex.waiters = []
  held : s.mutex.waiters ≠ [] → s.holders.length = 1
  once : s.resumed ++ s.mutex.waiters = s.waited ∧ s.waited.Nodup
  resumed : ∀ k w t, s.mutex.waiters[k]? = some w → Reachable machine s t →
    s.unlocks + k < t.unlocks → w ∈ t.resumed
  wire : s.failed = false → OnWire s

theorem mutex_serializes_sections {s : State} (h : Reachable machine initial s) :
    Serialized s := by
  have hinv : LockInv s ∧ WireInv s :=
    h.invariant (I := fun s => LockInv s ∧ WireInv s) ⟨lockInv_initial, wireInv_initial⟩
      fun _ _ hboth he _ => ⟨lockInv_step hboth.1 he, wireInv_step hboth.1 hboth.2 he⟩
  obtain ⟨hlock, hwire⟩ := hinv
  refine ⟨hlock.exclusive.le_one, hlock.order, hlock.free, fun hne => ?_,
    ⟨hlock.woken, hlock.waited.nodup List.nodup_range⟩, fun k w t hk hrun hunlocks => ?_,
    hwire.wire⟩
  · rw [hlock.exclusive.held, if_pos (hlock.exclusive.waiting hne)]
  · have hboth : LockInv t ∧ Served s t :=
      hrun.invariant (I := fun t => LockInv t ∧ Served s t)
        ⟨hlock, List.prefix_rfl, Or.inl (by omega), Nat.le_refl _⟩
        fun _ _ hb he _ => ⟨lockInv_step hb.1 he, served_step hb.1 hb.2 he⟩
    obtain ⟨-, hserved⟩ := hboth
    have hlt := (List.getElem?_eq_some_iff.mp hk).1
    have hfar : s.resumed.length + k < t.resumed.length := by
      have hcount := hserved.count
      omega
    -- The waiter's place in the queue of `s` is its place among those resumed in `t`.
    have hplace : (s.resumed ++ s.mutex.waiters)[s.resumed.length + k]? = some w := by
      rw [List.getElem?_append_right (by omega), Nat.add_sub_cancel_left, hk]
    obtain ⟨later, hlater⟩ := hserved.queue
    have hin : (t.resumed ++ t.mutex.waiters)[s.resumed.length + k]? = some w := by
      rw [← hlater, List.getElem?_append_left (by rw [List.length_append]; omega), hplace]
    rw [List.getElem?_append_left hfar] at hin
    exact List.mem_of_getElem? hin

section Traces

/-- The first section's send is cut short once while two others come to wait; its release runs the
second section to its end, inside of which the third begins. -/
def handsOverTwice : List Event :=
  [.lock, .sendAll [1, 2, 3], .lock, .accepts ⟨0, .sending (sendAll [1, 2, 3])⟩ 2,
    .resume ⟨0, .sent (sendAll [1, 2, 3]) 2⟩, .accepts ⟨0, .sending (.plain [1, 2, 3] 2)⟩ 1, .lock,
    .resume ⟨0, .sent (.plain [1, 2, 3] 2) 1⟩, .release, .release, .sendAll [4], .leave, .leave,
    .accepts ⟨2, .sending (sendAll [4])⟩ 1]

theorem mutex_serializes_sections_handed_over :
    Serialized (runTrace machine initial handsOverTwice) :=
  mutex_serializes_sections (reachable_of_trace handsOverTwice (by decide +kernel))

end Traces

end EasyioLockGuard
