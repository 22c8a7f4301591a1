import Mathlib.Data.List.Perm.Basic
import Mathlib.Algebra.Ring.Nat
import EasyBD.TransitionRuns
import EasyBD.EasyioQueue

/-! `run_server` and its worker threads: what each thread does next is one step, and the threads
interleave. `g_shutdown_requested` is polled, never waited for; the first exception that leaves a
worker's loop is kept in `g_worker_exception` and thrown again once all threads have ended. One
that may not leave where it is thrown ends the process. -/
namespace EasybdServer

open TransitionRuns EasyioQueue

structure Config where
  filePath : String
  bindHost : String
  threads : ℕ

/-- What `run_server` throws; `ε` are the exceptions of the workers. -/
inductive Error (ε : Type*) where
  | system (what : String) (err : Errno)
  | invalidArgument (text : String)
  | noMemory
  | worker (e : ε)

/-- Where `run_server` is: the call it makes next, or how it has ended. The process is terminated
when a joinable thread is destroyed, or by the code of worker `i`. -/
inductive Main (ε : Type*) where
  | openFile
  | statFile
  | openSocket
  | parseHost
  | bind
  | listen
  | getFlags
  | setFlags
  | setSignals
  | reserve
  | spawning
  | sleeping
  | joining (i : ℕ)
  | closeListener
  | closeFile
  | report
  | returned
  | threw (e : Error ε)
  | terminated (i : Option ℕ)

/-- Where `worker_main` is. `creating` goes up to its first test of the flag; `catching` waits for
the mutex, `signalling` is about to set the flag. -/
inductive Worker (ε : Type*) where
  | creating
  | checking
  | stepping
  | catching (e : ε)
  | holding (e : ε)
  | signalling
  | exited
  deriving DecidableEq

inductive Descriptor where
  | unopened
  | opened
  | closed
  deriving DecidableEq

/-- `shutdown` is `g_shutdown_requested`, `mutex` the holder of `g_worker_exception_mutex`.
`failures` are the exceptions that workers have caught and `stashed` those that have been behind
the mutex, newest first. -/
structure State (ε : Type*) where
  config : Config
  main : Main ε
  file : Descriptor
  listener : Descriptor
  handlers : Bool
  workers : List (Worker ε)
  shutdown : Bool
  mutex : Option ℕ
  exception : Option ε
  failures : List ε
  stashed : List ε

variable {ε : Type*}

def initial (c : Config) : State ε where
  config := c
  main := .openFile
  file := .unopened
  listener := .unopened
  handlers := false
  workers := []
  shutdown := false
  mutex := none
  exception := none
  failures := []
  stashed := []

inductive Event (ε : Type*) where
  /-- The main thread goes on; the call it makes may fail. -/
  | main (failure : Option Errno)
  | worker (i : ℕ) (failure : Option ε)
  /-- An exception leaves a detached coroutine of worker `i`, or a `noexcept` function. -/
  | abort (i : ℕ)
  | signal

namespace State

def openFiles (s : State ε) : Option Errno → State ε
  | none =>
    match s.main with
    | .openFile => { s with file := .opened, main := .statFile }
    | .statFile => { s with main := .openSocket }
    | .openSocket => { s with listener := .opened, main := .parseHost }
    | .parseHost => { s with main := .bind }
    | .bind => { s with main := .listen }
    | .listen => { s with main := .getFlags }
    | .getFlags => { s with main := .setFlags }
    | .setFlags => { s with main := .setSignals }
    | _ => s
  | some err =>
    match s.main with
    | .openFile =>
      { s with main := .threw (.system ("open backing file '" ++ s.config.filePath ++ "'") err) }
    | .statFile =>
      { s with file := .closed, main := .threw (.system "fstat backing file" err) }
    | .openSocket => { s with main := .threw (.system "socket" err) }
    | .parseHost =>
      { s with main := .threw (.invalidArgument
          ("easybd: invalid bind address '" ++ s.config.bindHost ++ "'")) }
    | .bind => { s with listener := .closed, main := .threw (.system "bind" err) }
    | .listen => { s with listener := .closed, main := .threw (.system "listen" err) }
    | .getFlags => { s with main := .threw (.system "fcntl(F_GETFL)" err) }
    | .setFlags => { s with main := .threw (.system "fcntl(F_SETFL)" err) }
    | _ => s

/-- The body of `run_server` from `std::signal` on. -/
def serve (s : State ε) : Option Errno → State ε
  | none =>
    match s.main with
    | .setSignals => { s with handlers := true, main := .reserve }
    | .reserve => { s with main := .spawning }
    | .spawning =>
      if s.workers.length < s.config.threads then { s with workers := s.workers ++ [.creating] }
      else { s with main := .sleeping }
    | .sleeping => if s.shutdown then { s with main := .joining 0 } else s
    | .joining i =>
      if i < s.workers.length then { s with main := .joining (i + 1) }
      else { s with main := .closeListener }
    | .closeListener => { s with listener := .closed, main := .closeFile }
    | .closeFile => { s with file := .closed, main := .report }
    | .report =>
      match s.exception with
      | some e => { s with main := .threw (.worker e) }
      | none => { s with main := .returned }
    | _ => s
  | some err =>
    match s.main with
    | .reserve => { s with main := .threw .noMemory }
    | .spawning =>
      { s with main := if s.workers = [] then .threw (.system "" err) else .terminated none }
    | _ => s

def setWorker (s : State ε) (i : ℕ) (w : Worker ε) : State ε :=
  { s with workers := s.workers.set i w }

def catches (s : State ε) (i : ℕ) (e : ε) : State ε :=
  { s.setWorker i (.catching e) with failures := e :: s.failures }

def work (s : State ε) (i : ℕ) (failure : Option ε) : State ε :=
  match s.workers[i]?, failure with
  | some .creating, some e | some .stepping, some e => s.catches i e
  | some .creating, none | some .stepping, none => s.setWorker i .checking
  | some .checking, _ => s.setWorker i (if s.shutdown then .exited else .stepping)
  | some (.catching e), _ => { s.setWorker i (.holding e) with mutex := some i }
  | some (.holding e), _ =>
    { s.setWorker i .signalling with
      mutex := none
      exception := s.exception.or (some e)
      stashed := e :: s.stashed }
  | some .signalling, _ => { s.setWorker i .exited with shutdown := true }
  | _, _ => s

end State

def Main.Fallible (s : State ε) : Prop :=
  match s.main with
  | .openFile | .statFile | .openSocket | .parseHost | .bind | .listen | .getFlags | .setFlags
  | .reserve => True
  | .spawning => s.workers.length < s.config.threads
  | _ => False

def Main.Ended : Main ε → Prop
  | .returned | .threw _ | .terminated _ => True
  | _ => False

def Main.Terminated : Main ε → Prop
  | .terminated _ => True
  | _ => False

/-- The worker is in its `try` block, where it makes, uses and destroys its queue. -/
def Worker.HasQueue : Worker ε → Prop
  | .creating | .checking | .stepping => True
  | _ => False

def Main.Joins (s : State ε) : Prop :=
  match s.main with
  | .joining i => s.workers[i]? = none ∨ s.workers[i]? = some .exited
  | _ => True

def Enabled (s : State ε) : Event ε → Prop
  | .main failure => ¬ s.main.Ended ∧ (failure = none ∨ Main.Fallible s) ∧ Main.Joins s
  | .worker i failure =>
    ¬ s.main.Terminated ∧
      match s.workers[i]? with
      | some .creating | some .stepping => True
      | some (.catching _) => s.mutex = none ∧ failure = none
      | some .checking | some (.holding _) | some .signalling => failure = none
      | _ => False
  | .abort i => ¬ s.main.Terminated ∧ ∃ w ∈ s.workers[i]?, w.HasQueue
  | .signal => s.handlers = true ∧ ¬ s.main.Ended

def next (s : State ε) : Event ε → State ε
  | .main failure =>
    match s.main with
    | .openFile | .statFile | .openSocket | .parseHost | .bind | .listen | .getFlags
    | .setFlags => s.openFiles failure
    | _ => s.serve failure
  | .worker i failure => s.work i failure
  | .abort i => { s with main := .terminated (some i) }
  | .signal => { s with shutdown := true }

def machine : System (State ε) (Event ε) := ⟨Enabled, next⟩

instance (s : State ε) : Decidable (Main.Fallible s) := by
  unfold Main.Fallible
  split <;> infer_instance

instance (m : Main ε) : Decidable m.Ended := by
  unfold Main.Ended
  split <;> infer_instance

instance (m : Main ε) : Decidable m.Terminated := by
  unfold Main.Terminated
  split <;> infer_instance

instance (w : Worker ε) : Decidable w.HasQueue := by
  unfold Worker.HasQueue
  split <;> infer_instance

instance [DecidableEq ε] (s : State ε) : Decidable (Main.Joins s) := by
  unfold Main.Joins
  split <;> infer_instance

instance [DecidableEq ε] (s : State ε) : ∀ e, Decidable (machine.Enabled s e)
  | .main failure =>
    inferInstanceAs (Decidable (¬ s.main.Ended ∧ (failure = none ∨ Main.Fallible s) ∧
      Main.Joins s))
  | .worker i failure => by
    show Decidable (_ ∧ _)
    refine @instDecidableAnd _ _ inferInstance ?_
    split <;> infer_instance
  | .abort i =>
    inferInstanceAs (Decidable (¬ s.main.Terminated ∧ ∃ w ∈ s.workers[i]?, w.HasQueue))
  | .signal => inferInstanceAs (Decidable (s.handlers = true ∧ ¬ s.main.Ended))

inductive Works (s : State ε) (i : ℕ) : State ε → Prop where
  | passes : s.workers[i]? = some .creating ∨ s.workers[i]? = some .stepping →
      Works s i (s.setWorker i .checking)
  | fails (e : ε) : s.workers[i]? = some .creating ∨ s.workers[i]? = some .stepping →
      Works s i (s.catches i e)
  | stops : s.workers[i]? = some .checking → s.shutdown = true →
      Works s i (s.setWorker i .exited)
  | goesOn : s.workers[i]? = some .checking → s.shutdown = false →
      Works s i (s.setWorker i .stepping)
  | locks (e : ε) : s.workers[i]? = some (.catching e) → s.mutex = none →
      Works s i { s.setWorker i (.holding e) with mutex := some i }
  | stashes (e : ε) : s.workers[i]? = some (.holding e) →
      Works s i { s.setWorker i .signalling with
        mutex := none, exception := s.exception.or (some e), stashed := e :: s.stashed }
  | signals : s.workers[i]? = some .signalling →
      Works s i { s.setWorker i .exited with shutdown := true }

theorem work_cases {s : State ε} {i : ℕ} {failure : Option ε}
    (he : Enabled s (.worker i failure)) : Works s i (s.work i failure) := by
  have hw := he.2
  cases hi : s.workers[i]? with
  | none => simp [hi] at hw
  | some w =>
    rw [hi] at hw
    cases w with
    | creating =>
      cases failure with
      | none => simpa [State.work, hi] using Works.passes (.inl hi)
      | some e => simpa [State.work, hi] using Works.fails e (.inl hi)
    | checking =>
      cases hs : s.shutdown with
      | true => simpa [State.work, hi, hs] using Works.stops hi hs
      | false => simpa [State.work, hi, hs] using Works.goesOn hi hs
    | stepping =>
      cases failure with
      | none => simpa [State.work, hi] using Works.passes (.inr hi)
      | some e => simpa [State.work, hi] using Works.fails e (.inr hi)
    | catching e => simpa [State.work, hi] using Works.locks e hi hw.1
    | holding e => simpa [State.work, hi] using Works.stashes e hi
    | signalling => simpa [State.work, hi] using Works.signals hi
    | exited => exact hw.elim

/-- The descriptors that a failed start leaves open: the file's and the listening socket's. -/
def Error.leaks : Error ε → Descriptor × Descriptor
  | .system what _ =>
    if what = "fstat backing file" then (.closed, .unopened)
    else if what = "socket" then (.opened, .unopened)
    else if what = "bind" ∨ what = "listen" then (.opened, .closed)
    else if what = "fcntl(F_GETFL)" ∨ what = "fcntl(F_SETFL)" ∨ what = "" then
      (.opened, .opened)
    else (.unopened, .unopened)
  | .invalidArgument _ | .noMemory => (.opened, .opened)
  | .worker _ => (.closed, .closed)

def AllExited (s : State ε) : Prop := ∀ w ∈ s.workers, w = .exited

/-- What holds where the main thread is: which descriptors are open, and which workers run. -/
def Phase (s : State ε) : Prop :=
  match s.main with
  | .openFile => s.file = .unopened ∧ s.listener = .unopened ∧ s.workers = []
  | .statFile | .openSocket => s.file = .opened ∧ s.listener = .unopened ∧ s.workers = []
  | .parseHost | .bind | .listen | .getFlags | .setFlags | .setSignals | .reserve =>
    s.file = .opened ∧ s.listener = .opened ∧ s.workers = []
  | .spawning =>
    s.file = .opened ∧ s.listener = .opened ∧ s.workers.length ≤ s.config.threads
  | .sleeping =>
    s.file = .opened ∧ s.listener = .opened ∧ s.workers.length = s.config.threads
  | .joining i =>
    s.file = .opened ∧ s.listener = .opened ∧ s.workers.length = s.config.threads ∧
      i ≤ s.config.threads ∧ ∀ j < i, s.workers[j]? = some .exited
  | .closeListener =>
    s.file = .opened ∧ s.listener = .opened ∧ s.workers.length = s.config.threads ∧ AllExited s
  | .closeFile =>
    s.file = .opened ∧ s.listener = .closed ∧ s.workers.length = s.config.threads ∧ AllExited s
  | .report | .returned | .threw (.worker _) =>
    s.file = .closed ∧ s.listener = .closed ∧ s.workers.length = s.config.threads ∧ AllExited s
  | .threw e => (s.file, s.listener) = e.leaks ∧ s.workers = []
  | .terminated none =>
    s.file = .opened ∧ s.listener = .opened ∧
      0 < s.workers.length ∧ s.workers.length < s.config.threads
  | .terminated (some i) =>
    s.file = .opened ∧ s.listener = .opened ∧ s.workers.length ≤ s.config.threads ∧
      ∃ w ∈ s.workers[i]?, w.HasQueue

theorem Works.frame {s u : State ε} {i : ℕ} (h : Works s i u) :
    u.config = s.config ∧ u.main = s.main ∧ u.file = s.file ∧ u.listener = s.listener ∧
      u.handlers = s.handlers ∧
      ∃ w w', s.workers[i]? = some w ∧ w ≠ .exited ∧ u.workers = s.workers.set i w' := by
  cases h with
  | passes hi =>
    rcases hi with hi | hi <;> exact ⟨rfl, rfl, rfl, rfl, rfl, _, _, hi, by simp, rfl⟩
  | fails e hi =>
    rcases hi with hi | hi <;> exact ⟨rfl, rfl, rfl, rfl, rfl, _, _, hi, by simp, rfl⟩
  | stops hi => exact ⟨rfl, rfl, rfl, rfl, rfl, _, _, hi, by simp, rfl⟩
  | goesOn hi => exact ⟨rfl, rfl, rfl, rfl, rfl, _, _, hi, by simp, rfl⟩
  | locks e hi => exact ⟨rfl, rfl, rfl, rfl, rfl, _, _, hi, by simp, rfl⟩
  | stashes e hi => exact ⟨rfl, rfl, rfl, rfl, rfl, _, _, hi, by simp, rfl⟩
  | signals hi => exact ⟨rfl, rfl, rfl, rfl, rfl, _, _, hi, by simp, rfl⟩

theorem not_allExited {s : State ε} {i : ℕ} {w : Worker ε} (hi : s.workers[i]? = some w)
    (hw : w ≠ .exited) : ¬ AllExited s :=
  fun h => hw (h w (List.mem_of_getElem? hi))

/-- While a worker runs, the server is between its first thread and its last `join`, or the process
is gone. -/
theorem Phase.running {s : State ε} {i : ℕ} {w : Worker ε} (h : Phase s)
    (hi : s.workers[i]? = some w) (hw : w ≠ .exited) :
    s.file = .opened ∧ s.listener = .opened ∧ s.workers.length ≤ s.config.threads := by
  have hnot := not_allExited hi hw
  have hsome : s.workers ≠ [] := fun h0 => by simp [h0] at hi
  unfold Phase at h
  cases hm : s.main with
  | spawning => simpa [hm] using h
  | sleeping =>
    simp only [hm] at h
    exact ⟨h.1, h.2.1, Nat.le_of_eq h.2.2⟩
  | joining k =>
    simp only [hm] at h
    exact ⟨h.1, h.2.1, Nat.le_of_eq h.2.2.1⟩
  | terminated cause =>
    cases cause with
    | none =>
      simp only [hm] at h
      exact ⟨h.1, h.2.1, Nat.le_of_lt h.2.2.2⟩
    | some j =>
      simp only [hm] at h
      exact ⟨h.1, h.2.1, h.2.2.1⟩
  | threw e => cases e <;> simp_all
  | _ => simp_all

theorem phase_work {s u : State ε} {i : ℕ} (h : Phase s) (hgoes : ¬ s.main.Terminated)
    (hu : Works s i u) : Phase u := by
  obtain ⟨hconfig, hmain, hfile, hlistener, -, w, w', hi, hw, hset⟩ := hu.frame
  have hne : s.workers ≠ [] := fun h0 => by simp [h0] at hi
  have hnot := not_allExited hi hw
  unfold Phase at h ⊢
  rw [hmain, hconfig, hfile, hlistener, hset, List.length_set]
  cases hm : s.main with
  | spawning => simpa [hm] using h
  | sleeping => simpa [hm] using h
  | terminated => exact absurd (by simp [hm, Main.Terminated]) hgoes
  | joining k =>
    simp only [hm] at h
    refine ⟨h.1, h.2.1, h.2.2.1, h.2.2.2.1, fun j hj => ?_⟩
    have hj' := h.2.2.2.2 j hj
    have hij : i ≠ j := fun hij => hw (by rw [hij, hj'] at hi; exact (Option.some.inj hi).symm)
    rw [List.getElem?_set_ne hij, hj']
  | threw e =>
    cases e with
    | worker e => simp only [hm] at h; exact absurd h.2.2.2 hnot
    | _ => simp only [hm] at h; exact absurd h.2 hne
  | closeListener => simp only [hm] at h; exact absurd h.2.2.2 hnot
  | closeFile => simp only [hm] at h; exact absurd h.2.2.2 hnot
  | report => simp only [hm] at h; exact absurd h.2.2.2 hnot
  | returned => simp only [hm] at h; exact absurd h.2.2.2 hnot
  | _ => simp only [hm] at h; exact absurd h.2.2 hne

theorem opening_leaks (path : String) (err : Errno) :
    Error.leaks (.system ("open backing file '" ++ path ++ "'") err : Error ε) =
      (.unopened, .unopened) := by
  have hne : ∀ what : String, what.toList.head? ≠ some 'o' →
      "open backing file '" ++ path ++ "'" ≠ what := by
    rintro what hhead rfl
    simp at hhead
  simp only [Error.leaks]
  rw [if_neg (hne _ (by simp)), if_neg (hne _ (by simp)), if_neg, if_neg]
  · simp [hne "fcntl(F_GETFL)" (by simp), hne "fcntl(F_SETFL)" (by simp), hne "" (by simp)]
  · simp [hne "bind" (by simp), hne "listen" (by simp)]

theorem phase_main {s : State ε} {failure : Option Errno} (h : Phase s)
    (he : Enabled s (.main failure)) : Phase (next s (.main failure)) := by
  obtain ⟨hgoes, hfail, hjoin⟩ := he
  cases failure with
  | none =>
    cases hm : s.main with
    | spawning =>
      simp only [Phase, hm] at h
      simp only [next, hm, State.serve]
      split
      next hlt => simpa [Phase, hm, h.1, h.2.1] using Nat.succ_le_of_lt hlt
      next hlt => exact ⟨h.1, h.2.1, Nat.le_antisymm h.2.2 (Nat.le_of_not_lt hlt)⟩
    | sleeping =>
      simp only [next, hm, State.serve]
      split
      · simpa [Phase, hm] using h
      · exact h
    | joining i =>
      simp only [Phase, hm] at h
      obtain ⟨hfile, hlistener, hlen, hi, hexited⟩ := h
      simp only [next, hm, State.serve]
      split
      next hlt =>
        have hnext : i + 1 ≤ s.config.threads := by omega
        refine ⟨hfile, hlistener, hlen, hnext, fun j hj => ?_⟩
        by_cases hji : j = i
        · subst j
          have hget := List.getElem?_eq_getElem hlt
          simp only [Main.Joins, hm, hget] at hjoin
          rw [hget, hjoin.resolve_left (by simp)]
        · exact hexited j (by omega)
      next hlt =>
        refine ⟨hfile, hlistener, hlen, fun w hw => ?_⟩
        obtain ⟨j, hj⟩ := List.getElem?_of_mem hw
        have hjlt := Nat.lt_of_lt_of_le (List.getElem?_eq_some_iff.mp hj).1 (Nat.le_of_not_lt hlt)
        exact (Option.some.inj ((hexited j hjlt).symm.trans hj)).symm
    | report =>
      simp only [Phase, hm] at h
      simp only [next, hm, State.serve]
      cases s.exception <;> exact h
    | closeListener =>
      simp only [Phase, hm] at h
      simp only [next, hm, State.serve]
      exact ⟨h.1, rfl, h.2.2⟩
    | closeFile =>
      simp only [Phase, hm] at h
      simp only [next, hm, State.serve]
      exact ⟨rfl, h.2⟩
    | returned => exact absurd (by simp [hm, Main.Ended]) hgoes
    | threw e => exact absurd (by simp [hm, Main.Ended]) hgoes
    | terminated => exact absurd (by simp [hm, Main.Ended]) hgoes
    | _ => simp_all [Phase, next, State.openFiles, State.serve]
  | some err =>
    have hfail := hfail.resolve_left (by simp)
    cases hm : s.main with
    | spawning =>
      simp only [Phase, hm] at h
      simp only [next, hm, State.serve]
      by_cases hnone : s.workers = []
      · simp [Phase, hnone, h.1, h.2.1, Error.leaks]
      · have hpos := List.length_pos_iff.mpr hnone
        simp only [Main.Fallible, hm] at hfail
        simpa [Phase, hnone, h.1, h.2.1] using ⟨hpos, hfail⟩
    | openFile => simp_all [Phase, next, State.openFiles, opening_leaks]
    | _ => simp_all [Phase, next, State.openFiles, State.serve, Error.leaks, Main.Fallible]

theorem Worker.HasQueue.ne_exited {w : Worker ε} (h : w.HasQueue) : w ≠ .exited := by
  rintro rfl
  exact h

theorem phase_abort {s : State ε} {i : ℕ} (h : Phase s) (he : Enabled s (.abort i)) :
    Phase (next s (.abort i)) := by
  obtain ⟨-, w, hi, hw⟩ := he
  obtain ⟨hfile, hlistener, hlen⟩ := h.running hi hw.ne_exited
  exact ⟨hfile, hlistener, hlen, w, hi, hw⟩

theorem phase {c : Config} {s : State ε} (hs : Reachable machine (initial c) s) : Phase s := by
  refine hs.invariant ⟨rfl, rfl, rfl⟩ fun u e hu he _ => ?_
  cases e with
  | main failure => exact phase_main hu he
  | worker i failure => exact phase_work hu he.1 (work_cases he)
  | abort i => exact phase_abort hu he
  | signal => exact hu

theorem main_frame (s : State ε) (failure : Option Errno) :
    (next s (.main failure)).config = s.config ∧
      (next s (.main failure)).shutdown = s.shutdown ∧
      (next s (.main failure)).mutex = s.mutex ∧
      (next s (.main failure)).exception = s.exception ∧
      (next s (.main failure)).failures = s.failures ∧
      (next s (.main failure)).stashed = s.stashed ∧
      ((next s (.main failure)).workers = s.workers ∨
        (next s (.main failure)).workers = s.workers ++ [.creating]) := by
  cases failure with
  | none =>
    cases hm : s.main with
    | spawning => simp only [next, hm, State.serve]; split <;> simp
    | sleeping => simp only [next, hm, State.serve]; split <;> simp
    | joining i => simp only [next, hm, State.serve]; split <;> simp
    | report => simp only [next, hm, State.serve]; split <;> simp
    | _ => simp [next, hm, State.openFiles, State.serve]
  | some err => cases hm : s.main <;> simp [next, hm, State.openFiles, State.serve]

theorem config_kept {c : Config} {s : State ε} (hs : Reachable machine (initial c) s) :
    s.config = c := by
  refine hs.invariant (I := fun u => u.config = c) rfl fun u e hu he _ => ?_
  cases e with
  | main failure => exact (main_frame u failure).1.trans hu
  | worker i failure => exact (work_cases he).frame.1.trans hu
  | abort i => exact hu
  | signal => exact hu

/-- Until a worker has ended, both descriptors are open. Once `run_server` ends after its start,
every thread has been joined and both are closed; a failed start leaves open what it leaves open.
The process is terminated when a thread cannot be created after another one was, or from inside
the `try` block of a worker. -/
theorem descriptors_outlive_workers {c : Config} {s : State ε}
    (hs : Reachable machine (initial c) s) :
    (∀ (i : ℕ) (w : Worker ε), s.workers[i]? = some w → w ≠ .exited →
      s.file = .opened ∧ s.listener = .opened) ∧
    ((s.main = .returned ∨ ∃ e, s.main = .threw (.worker e)) →
      s.file = .closed ∧ s.listener = .closed ∧ s.workers.length = c.threads ∧ AllExited s) ∧
    (∀ e, s.main = .threw e → (∀ e', e ≠ .worker e') →
      (s.file, s.listener) = e.leaks ∧ s.workers = []) ∧
    (s.main = .terminated none → 0 < s.workers.length ∧ s.workers.length < c.threads) ∧
    ∀ i, s.main = .terminated (some i) → ∃ w, s.workers[i]? = some w ∧ w.HasQueue := by
  have hp := phase hs
  have hconfig := config_kept hs
  subst c
  refine ⟨fun i w hi hw => ?_, fun hended => ?_, fun e hm hne => ?_, fun hm => ?_, fun i hm => ?_⟩
  · obtain ⟨hfile, hlistener, -⟩ := hp.running hi hw
    exact ⟨hfile, hlistener⟩
  · rcases hended with hm | ⟨e, hm⟩ <;> simpa [Phase, hm] using hp
  · cases e with
    | worker e => exact absurd rfl (hne e)
    | _ => simpa [Phase, hm] using hp
  · simp only [Phase, hm] at hp
    exact hp.2.2
  · simp only [Phase, hm] at hp
    exact hp.2.2.2

def twoFail : List (Event ℕ) :=
  List.replicate 13 (.main none) ++
    [.worker 0 (some 7), .worker 1 none, .worker 1 none, .worker 1 (some 8), .worker 1 none,
      .worker 1 none, .worker 0 none, .worker 0 none, .worker 1 none, .worker 0 none] ++
    List.replicate 7 (.main none)

def twoFailed : State ℕ := runTrace machine (initial ⟨"disk", "0.0.0.0", 2⟩) twoFail

theorem twoFailed_reachable : Reachable machine (initial ⟨"disk", "0.0.0.0", 2⟩) twoFailed :=
  reachable_of_trace twoFail (by decide)

theorem descriptors_outlive_workers_rethrown :
    twoFailed.main = .threw (.worker 8) ∧ twoFailed.file = .closed ∧
      twoFailed.workers.length = 2 ∧ AllExited twoFailed :=
  have h := (descriptors_outlive_workers twoFailed_reachable).2.1 (.inr ⟨8, rfl⟩)
  ⟨rfl, h.1, h.2.2⟩

/-- The exception a worker has caught and not yet taken behind the mutex. -/
def Worker.pending : Worker ε → Option ε
  | .catching e | .holding e => some e
  | _ => none

/-- Past `sleeping` the flag is set, for good. -/
def Main.Stopping : Main ε → Prop
  | .joining _ | .closeListener | .closeFile | .report | .returned | .threw (.worker _) => True
  | _ => False

structure Accounted (s : State ε) : Prop where
  first : s.exception = s.stashed.getLast?
  caught : s.failures.Perm (s.stashed ++ s.workers.filterMap Worker.pending)
  holder : ∀ i, s.mutex = some i ↔ ∃ e, s.workers[i]? = some (.holding e)
  announced : s.stashed ≠ [] → s.shutdown = true ∨ ∃ i : ℕ, s.workers[i]? = some .signalling
  stopping : s.main.Stopping → s.shutdown = true
  reported : (s.main = .returned → s.exception = none) ∧
    ∀ e, s.main = .threw (.worker e) → s.exception = some e

theorem perm_of_get {α : Type*} {l : List α} {i : ℕ} {a : α} (hi : l[i]? = some a) :
    l.Perm (a :: l.eraseIdx i) := by
  obtain ⟨hlt, rfl⟩ := List.getElem?_eq_some_iff.mp hi
  exact (List.getElem_cons_eraseIdx_perm hlt).symm

theorem set_perm {α : Type*} {l : List α} {i : ℕ} {a : α} (hi : l[i]? = some a) (b : α) :
    (l.set i b).Perm (b :: l.eraseIdx i) :=
  List.set_perm_cons_eraseIdx (List.getElem?_eq_some_iff.mp hi).1 b

theorem pending_set {l : List (Worker ε)} {i : ℕ} {w : Worker ε} (hi : l[i]? = some w)
    (w' : Worker ε) : (w.pending.toList ++ (l.set i w').filterMap Worker.pending).Perm
      (w'.pending.toList ++ l.filterMap Worker.pending) := by
  have hcons : ∀ v : Worker ε, (v :: l.eraseIdx i).filterMap Worker.pending =
      v.pending.toList ++ (l.eraseIdx i).filterMap Worker.pending := fun v => by
    cases hv : v.pending <;> simp [hv]
  have hset := (set_perm hi w').filterMap Worker.pending
  have hget := (perm_of_get hi).filterMap Worker.pending
  rw [hcons] at hset hget
  refine (hset.append_left _).trans (.trans ?_ (hget.append_left _).symm)
  rw [← List.append_assoc, ← List.append_assoc]
  exact List.perm_append_comm.append_right _

theorem pending_same {l : List (Worker ε)} {i : ℕ} {w : Worker ε} (hi : l[i]? = some w)
    (w' : Worker ε) (hsame : w'.pending = w.pending) :
    ((l.set i w').filterMap Worker.pending).Perm (l.filterMap Worker.pending) := by
  have h := pending_set hi w'
  rw [hsame] at h
  exact (List.perm_append_left_iff _).mp h

theorem getElem?_set_of_get {α : Type*} {l : List α} {i : ℕ} {a : α} (hi : l[i]? = some a)
    (b : α) (j : ℕ) : (l.set i b)[j]? = if i = j then some b else l[j]? := by
  have hlt := (List.getElem?_eq_some_iff.mp hi).1
  rw [List.getElem?_set]
  split
  · subst j; simp
  · rfl

theorem holding_set {l : List (Worker ε)} {i : ℕ} {w w' : Worker ε} (hi : l[i]? = some w)
    (hw : ∀ e, w ≠ .holding e) (hw' : ∀ e, w' ≠ .holding e) (j : ℕ) :
    (∃ e, (l.set i w')[j]? = some (.holding e)) ↔ ∃ e, l[j]? = some (.holding e) := by
  rw [getElem?_set_of_get hi]
  split
  · subst j; simp [hi, hw, hw']
  · rfl

theorem signalling_set {l : List (Worker ε)} {i : ℕ} {w : Worker ε} (hi : l[i]? = some w)
    (hw : w ≠ .signalling) (w' : Worker ε) (h : ∃ k : ℕ, l[k]? = some .signalling) :
    ∃ k : ℕ, (l.set i w')[k]? = some .signalling := by
  obtain ⟨k, hk⟩ := h
  have hik : i ≠ k := fun hik => hw (by rw [hik, hk] at hi; exact (Option.some.inj hi).symm)
  exact ⟨k, by rw [List.getElem?_set_ne hik, hk]⟩

theorem not_reported {s : State ε} {i : ℕ} {w : Worker ε} (h : Phase s)
    (hi : s.workers[i]? = some w) (hw : w ≠ .exited) :
    s.main ≠ .returned ∧ ∀ e, s.main ≠ .threw (.worker e) := by
  have hnot := not_allExited hi hw
  unfold Phase at h
  exact ⟨fun hm => by simp_all, fun e hm => by simp_all⟩

theorem Accounted.set {s : State ε} (h : Accounted s) {i : ℕ} {w w' : Worker ε}
    (hi : s.workers[i]? = some w) (hw : w.pending = none ∧ w ≠ .signalling)
    (hw' : w'.pending = none) : Accounted (s.setWorker i w') where
  first := h.first
  caught := h.caught.trans ((pending_same hi w' (hw'.trans hw.1.symm)).symm.append_left _)
  holder j := by
    refine (h.holder j).trans (holding_set hi ?_ ?_ j).symm
    · rintro e rfl; simp [Worker.pending] at hw
    · rintro e rfl; simp [Worker.pending] at hw'
  announced hne := (h.announced hne).imp_right (signalling_set hi hw.2 w')
  stopping := h.stopping
  reported := h.reported

theorem Accounted.catches {s : State ε} (h : Accounted s) {i : ℕ} {w : Worker ε}
    (hi : s.workers[i]? = some w) (hw : w.pending = none ∧ w ≠ .signalling) (e : ε) :
    Accounted (s.catches i e) where
  first := h.first
  caught := by
    have hset := pending_set hi (.catching e)
    rw [hw.1] at hset
    refine (h.caught.cons e).trans (List.perm_middle.symm.trans ?_)
    exact hset.symm.append_left _
  holder j := by
    refine (h.holder j).trans (holding_set hi ?_ (by simp) j).symm
    rintro e rfl
    simp [Worker.pending] at hw
  announced hne := (h.announced hne).imp_right (signalling_set hi hw.2 _)
  stopping := h.stopping
  reported := h.reported

theorem Accounted.locks {s : State ε} (h : Accounted s) {i : ℕ} {e : ε}
    (hi : s.workers[i]? = some (.catching e)) (hfree : s.mutex = none) :
    Accounted { s.setWorker i (.holding e) with mutex := some i } where
  first := h.first
  caught := h.caught.trans ((pending_same hi (.holding e) rfl).symm.append_left _)
  holder j := by
    have hnone : ¬ ∃ e', s.workers[j]? = some (.holding e') := fun hj => by
      simpa [hfree] using (h.holder j).mpr hj
    show some i = some j ↔ ∃ e', (s.workers.set i (.holding e))[j]? = some (.holding e')
    rw [getElem?_set_of_get hi]
    split <;> simp [*]
  announced hne := (h.announced hne).imp_right (signalling_set hi (by simp) _)
  stopping := h.stopping
  reported := h.reported

theorem Accounted.stashes {s : State ε} (h : Accounted s) (hp : Phase s) {i : ℕ} {e : ε}
    (hi : s.workers[i]? = some (.holding e)) :
    Accounted { s.setWorker i .signalling with
      mutex := none, exception := s.exception.or (some e), stashed := e :: s.stashed } where
  first := by
    show s.exception.or (some e) = (e :: s.stashed).getLast?
    rw [h.first]
    cases s.stashed <;> simp [List.getLast?_cons]
  caught := by
    have hset := pending_set hi .signalling
    refine h.caught.trans (.trans (hset.symm.append_left _) ?_)
    exact List.perm_middle
  holder j := by
    show none = some j ↔ ∃ e', (s.workers.set i .signalling)[j]? = some (.holding e')
    rw [getElem?_set_of_get hi]
    have hmutex := (h.holder i).mpr ⟨e, hi⟩
    split
    · simp
    next hij =>
      have hnone : ¬ ∃ e', s.workers[j]? = some (.holding e') := fun hj =>
        hij (Option.some.inj (hmutex.symm.trans ((h.holder j).mpr hj)))
      simpa using hnone
  announced _ := .inr ⟨i, by simp [State.setWorker, getElem?_set_of_get hi]⟩
  stopping := h.stopping
  reported :=
    have hnot := not_reported hp hi (by simp)
    ⟨fun hm => absurd hm hnot.1, fun e hm => absurd hm (hnot.2 e)⟩

theorem Accounted.signals {s : State ε} (h : Accounted s) {i : ℕ}
    (hi : s.workers[i]? = some .signalling) :
    Accounted { s.setWorker i .exited with shutdown := true } where
  first := h.first
  caught := h.caught.trans ((pending_same hi .exited rfl).symm.append_left _)
  holder j := (h.holder j).trans (holding_set hi (by simp) (by simp) j).symm
  announced _ := .inl rfl
  stopping _ := rfl
  reported := h.reported

theorem Accounted.work {s u : State ε} {i : ℕ} (h : Accounted s) (hp : Phase s)
    (hu : Works s i u) : Accounted u := by
  cases hu with
  | passes hi => rcases hi with hi | hi <;> exact h.set hi ⟨rfl, by simp⟩ rfl
  | stops hi => exact h.set hi ⟨rfl, by simp⟩ rfl
  | goesOn hi => exact h.set hi ⟨rfl, by simp⟩ rfl
  | fails e hi => rcases hi with hi | hi <;> exact h.catches hi ⟨rfl, by simp⟩ e
  | locks e hi hfree => exact h.locks hi hfree
  | stashes e hi => exact h.stashes hp hi
  | signals hi => exact h.signals hi

theorem main_stops {s : State ε} (h : Accounted s) {failure : Option Errno}
    (he : Enabled s (.main failure)) :
    (next s (.main failure)).main.Stopping → s.shutdown = true := by
  obtain ⟨hgoes, hfail, -⟩ := he
  have hstop := h.stopping
  cases failure with
  | none =>
    cases hm : s.main with
    | sleeping => cases hs : s.shutdown <;> simp [next, hm, State.serve, hs, Main.Stopping]
    | spawning => simp only [next, hm, State.serve]; split <;> simp [Main.Stopping]
    | joining i => exact fun _ => hstop (by simp [hm, Main.Stopping])
    | closeListener => exact fun _ => hstop (by simp [hm, Main.Stopping])
    | closeFile => exact fun _ => hstop (by simp [hm, Main.Stopping])
    | report => exact fun _ => hstop (by simp [hm, Main.Stopping])
    | _ => simp_all [next, State.openFiles, State.serve, Main.Stopping, Main.Ended]
  | some err =>
    cases hm : s.main with
    | spawning => simp only [next, hm, State.serve]; split <;> simp [Main.Stopping]
    | _ => simp_all [next, State.openFiles, State.serve, Main.Stopping, Main.Fallible]

theorem main_reports {s : State ε} {failure : Option Errno} (he : Enabled s (.main failure)) :
    ((next s (.main failure)).main = .returned → s.exception = none) ∧
      ∀ e, (next s (.main failure)).main = .threw (.worker e) → s.exception = some e := by
  obtain ⟨hgoes, hfail, -⟩ := he
  cases failure with
  | none =>
    cases hm : s.main with
    | sleeping => simp only [next, hm, State.serve]; split <;> simp [hm]
    | joining i => simp only [next, hm, State.serve]; split <;> simp
    | report => simp only [next, hm, State.serve]; cases s.exception <;> simp
    | spawning => simp only [next, hm, State.serve]; split <;> simp
    | _ => simp_all [next, State.openFiles, State.serve, Main.Ended]
  | some err =>
    cases hm : s.main with
    | spawning => simp only [next, hm, State.serve]; split <;> simp
    | _ => simp_all [next, State.openFiles, State.serve, Main.Fallible]

theorem Accounted.main {s : State ε} (h : Accounted s) {failure : Option Errno}
    (he : Enabled s (.main failure)) : Accounted (next s (.main failure)) := by
  obtain ⟨-, hshutdown, hmutex, hexception, hfailures, hstashed, hworkers⟩ :=
    main_frame s failure
  have hpending : ((next s (.main failure)).workers.filterMap Worker.pending) =
      s.workers.filterMap Worker.pending := by
    rcases hworkers with hw | hw <;> simp [hw, Worker.pending]
  have hget : ∀ (w : Worker ε) (i : ℕ), w ≠ .creating →
      ((next s (.main failure)).workers[i]? = some w ↔ s.workers[i]? = some w) := by
    intro w i hw
    rcases hworkers with hn | hn <;> rw [hn]
    rw [List.getElem?_append]
    split
    · rfl
    next hlt =>
      rw [List.getElem?_eq_none (Nat.le_of_not_lt hlt)]
      simp [List.getElem?_singleton, hw.symm]
  refine ⟨?_, ?_, fun i => ?_, fun hne => ?_, ?_, ?_⟩
  · rw [hexception, hstashed, h.first]
  · rw [hfailures, hstashed, hpending]
    exact h.caught
  · rw [hmutex, h.holder i]
    simp [hget _ i]
  · rw [hstashed] at hne
    rw [hshutdown]
    exact (h.announced hne).imp_right fun ⟨i, hi⟩ => ⟨i, (hget _ i (by simp)).mpr hi⟩
  · rw [hshutdown]
    exact main_stops h he
  · rw [hexception]
    exact main_reports he

theorem accounted {c : Config} {s : State ε} (hs : Reachable machine (initial c) s) :
    Accounted s := by
  refine hs.invariant_under (I := Phase) (J := Accounted) (fun u hu => phase hu) ?_
    fun u e hp hu he _ => ?_
  · constructor <;> simp [initial, Main.Stopping]
  · cases e with
    | main failure => exact hu.main he
    | worker i failure => exact hu.work hp (work_cases he)
    | abort i =>
      refine ⟨hu.first, hu.caught, hu.holder, hu.announced, ?_, ?_⟩ <;>
        simp [machine, next, Main.Stopping]
    | signal => exact ⟨hu.first, hu.caught, hu.holder, fun _ => .inl rfl, fun _ => rfl, hu.reported⟩

def NoSignal (_ : State ε) : Event ε → Prop
  | .signal => False
  | _ => True

/-- Where no signal comes, the flag is the work of a worker that has failed. -/
structure FailureOnly (s : State ε) : Prop where
  flag : s.shutdown = true → s.stashed ≠ []
  signalling : ∀ i : ℕ, s.workers[i]? = some .signalling → s.stashed ≠ []

theorem FailureOnly.work {s u : State ε} {i : ℕ} (h : FailureOnly s) (hu : Works s i u) :
    FailureOnly u := by
  have hset : ∀ w : Worker ε, w ≠ .signalling → ∀ j : ℕ,
      (s.workers.set i w)[j]? = some .signalling → s.stashed ≠ [] := fun w hw j hj => by
    rw [List.getElem?_set] at hj
    split at hj
    · split at hj
      · exact absurd (Option.some.inj hj) hw
      · cases hj
    · exact h.signalling j hj
  cases hu with
  | passes _ => exact ⟨h.flag, hset _ (by simp)⟩
  | fails e _ => exact ⟨h.flag, hset _ (by simp)⟩
  | stops _ _ => exact ⟨h.flag, hset _ (by simp)⟩
  | goesOn _ _ => exact ⟨h.flag, hset _ (by simp)⟩
  | locks e _ _ => exact ⟨h.flag, hset _ (by simp)⟩
  | stashes e _ => exact ⟨fun _ => by simp, fun _ _ => by simp⟩
  | signals hi => exact ⟨fun _ => h.signalling i hi, hset _ (by simp)⟩

theorem FailureOnly.main {s : State ε} (h : FailureOnly s) (failure : Option Errno) :
    FailureOnly (next s (.main failure)) := by
  obtain ⟨-, hshutdown, -, -, -, hstashed, hworkers⟩ := main_frame s failure
  refine ⟨by rw [hshutdown, hstashed]; exact h.flag, fun i hi => ?_⟩
  rw [hstashed]
  rcases hworkers with hw | hw
  · exact h.signalling i (hw ▸ hi)
  · rw [hw, List.getElem?_append] at hi
    split at hi
    · exact h.signalling i hi
    · simp [List.getElem?_singleton] at hi

theorem failureOnly {c : Config} {s : State ε} (hs : Run machine NoSignal (initial c) s) :
    FailureOnly s := by
  refine hs.invariant ⟨by simp [initial], by simp [initial]⟩ fun u e hu he hg => ?_
  cases e with
  | main failure => exact hu.main failure
  | worker i failure => exact hu.work (work_cases he)
  | abort i => exact ⟨hu.flag, hu.signalling⟩
  | signal => exact hg.elim

/-- The first exception to get behind the mutex is the one that `run_server` throws again; then
every failed worker has been there. It returns only if no worker has failed, so never without a
signal. A stored exception is followed by the flag, which the same worker sets next. -/
theorem first_failure_rethrown {c : Config} {s : State ε}
    (hs : Reachable machine (initial c) s) :
    (∀ e, s.main = .threw (.worker e) →
      s.stashed.getLast? = some e ∧ s.failures.Perm s.stashed) ∧
    (s.main = .returned → s.failures = [] ∧ ¬ Run machine NoSignal (initial c) s) ∧
    (s.stashed ≠ [] → s.shutdown = true ∨ ∃ i : ℕ, s.workers[i]? = some .signalling) ∧
    ∀ (i j : ℕ) (e e' : ε), s.workers[i]? = some (.holding e) →
      s.workers[j]? = some (.holding e') → i = j := by
  have hp := phase hs
  have ha := accounted hs
  have hall : AllExited s → s.failures.Perm s.stashed := fun hexited => by
    have hnone : s.workers.filterMap Worker.pending = [] :=
      List.filterMap_eq_nil_iff.mpr fun w hw => by rw [hexited w hw]; rfl
    simpa [hnone] using ha.caught
  refine ⟨fun e hm => ?_, fun hm => ?_, ha.announced, fun i j e e' hi hj => ?_⟩
  · simp only [Phase, hm] at hp
    exact ⟨ha.first ▸ ha.reported.2 e hm, hall hp.2.2.2⟩
  · simp only [Phase, hm] at hp
    have hnone : s.stashed = [] :=
      List.getLast?_eq_none_iff.mp (ha.first ▸ ha.reported.1 hm)
    have hfailures := hall hp.2.2.2
    rw [hnone] at hfailures
    have hflag : s.shutdown = true := ha.stopping (by simp [hm, Main.Stopping])
    exact ⟨hfailures.eq_nil, fun hrun => (failureOnly hrun).flag hflag hnone⟩
  · have hi' := (ha.holder i).mpr ⟨e, hi⟩
    have hj' := (ha.holder j).mpr ⟨e', hj⟩
    exact Option.some.inj (hi'.symm.trans hj')

theorem first_failure_rethrown_of_two :
    twoFailed.main = .threw (.worker 8) ∧ twoFailed.stashed.getLast? = some 8 ∧
      twoFailed.failures.Perm twoFailed.stashed :=
  ⟨rfl, (first_failure_rethrown twoFailed_reachable).1 8 rfl⟩

def Worker.left : Worker ε → ℕ
  | .creating | .stepping => 4
  | .catching _ => 3
  | .holding _ => 2
  | .checking | .signalling => 1
  | .exited => 0

/-- Those of the main thread, with those of the workers it has yet to start. -/
def Main.left (s : State ε) : ℕ :=
  match s.main with
  | .openFile => 6 * s.config.threads + 20
  | .statFile => 6 * s.config.threads + 19
  | .openSocket => 6 * s.config.threads + 18
  | .parseHost => 6 * s.config.threads + 17
  | .bind => 6 * s.config.threads + 16
  | .listen => 6 * s.config.threads + 15
  | .getFlags => 6 * s.config.threads + 14
  | .setFlags => 6 * s.config.threads + 13
  | .setSignals => 6 * s.config.threads + 12
  | .reserve => 6 * s.config.threads + 11
  | .spawning => 5 * (s.config.threads - s.workers.length) + s.config.threads + 10
  | .sleeping => s.config.threads + 9
  | .joining i => s.config.threads - i + 8
  | .closeListener => 7
  | .closeFile => 6
  | .report => 5
  | .returned | .threw _ | .terminated _ => 0

def stepsLeft (s : State ε) : ℕ := Main.left s + (s.workers.map Worker.left).sum

theorem left_set {l : List (Worker ε)} {i : ℕ} {w : Worker ε} (hi : l[i]? = some w)
    (w' : Worker ε) (hlt : w'.left < w.left) :
    ((l.set i w').map Worker.left).sum < (l.map Worker.left).sum := by
  have hset := ((set_perm hi w').map Worker.left).sum_nat
  have hget := ((perm_of_get hi).map Worker.left).sum_nat
  rw [List.map_cons, List.sum_cons] at hset hget
  omega

theorem left_work {s u : State ε} {i : ℕ} (hshutdown : s.shutdown = true) (hu : Works s i u) :
    stepsLeft u < stepsLeft s := by
  have hset : ∀ w w' : Worker ε, s.workers[i]? = some w → w'.left < w.left →
      u.workers = s.workers.set i w' → stepsLeft u < stepsLeft s := by
    intro w w' hi hlt hworkers
    obtain ⟨hconfig, hmain, -, -, -, -⟩ := hu.frame
    have hleft : Main.left u = Main.left s := by
      simp only [Main.left, hconfig, hmain, hworkers, List.length_set]
    unfold stepsLeft
    rw [hleft, hworkers]
    exact Nat.add_lt_add_left (left_set hi w' hlt) _
  cases hu with
  | passes hi => rcases hi with hi | hi <;> exact hset _ _ hi (by simp [Worker.left]) rfl
  | fails e hi => rcases hi with hi | hi <;> exact hset _ _ hi (by simp [Worker.left]) rfl
  | stops hi _ => exact hset _ _ hi (by simp [Worker.left]) rfl
  | goesOn _ hgoes => simp [hshutdown] at hgoes
  | locks e hi _ => exact hset _ _ hi (by simp [Worker.left]) rfl
  | stashes e hi => exact hset _ _ hi (by simp [Worker.left]) rfl
  | signals hi => exact hset _ _ hi (by simp [Worker.left]) rfl

theorem left_main {s : State ε} (hshutdown : s.shutdown = true) (hp : Phase s)
    {failure : Option Errno} (he : Enabled s (.main failure)) :
    stepsLeft (next s (.main failure)) < stepsLeft s := by
  obtain ⟨hgoes, hfail, -⟩ := he
  unfold Phase at hp
  cases failure with
  | none =>
    cases hm : s.main with
    | spawning =>
      simp only [hm] at hp
      simp only [next, hm, State.serve]
      split
      · simp only [stepsLeft, Main.left, hm, List.map_append, List.sum_append,
          List.length_append, List.length_singleton, List.map_singleton, List.sum_singleton,
          Worker.left]
        omega
      · simp only [stepsLeft, Main.left, hm]
        omega
    | sleeping => simp [next, hm, State.serve, hshutdown, stepsLeft, Main.left]
    | joining i =>
      simp only [hm] at hp
      simp only [next, hm, State.serve]
      split
      · simp only [stepsLeft, Main.left, hm]
        omega
      · simp [stepsLeft, Main.left, hm]
    | report =>
      simp only [next, hm, State.serve]
      cases s.exception <;> simp [stepsLeft, Main.left, hm]
    | reserve => simp_all [next, State.serve, stepsLeft, Main.left]; omega
    | _ => simp_all [next, State.openFiles, State.serve, stepsLeft, Main.left, Main.Ended]
  | some err =>
    cases hm : s.main with
    | spawning =>
      simp only [next, hm, State.serve]
      split <;> simp [stepsLeft, Main.left, hm]
    | _ => simp_all [next, State.openFiles, State.serve, stepsLeft, Main.left, Main.Fallible]

theorem left_abort {s : State ε} {i : ℕ} (hp : Phase s) (he : Enabled s (.abort i)) :
    stepsLeft (next s (.abort i)) < stepsLeft s := by
  obtain ⟨hgoes, w, hi, hw⟩ := he
  have hnot := not_allExited hi hw.ne_exited
  have hsome : s.workers ≠ [] := fun h0 => by simp [h0] at hi
  refine Nat.add_lt_add_right ?_ _
  rw [show Main.left (next s (.abort i)) = 0 from rfl]
  unfold Phase at hp
  cases hm : s.main with
  | returned | terminated => simp_all [Main.Terminated]
  | threw e => cases e <;> simp_all
  | _ => simp [Main.left, hm]

theorem Works.flag {s u : State ε} {i : ℕ} (hu : Works s i u) (h : s.shutdown = true) :
    u.shutdown = true := by
  cases hu <;> first | exact h | rfl

theorem flag_kept {u : State ε} {e : Event ε} (h : u.shutdown = true)
    (he : machine.Enabled u e) : (machine.next u e).shutdown = true := by
  cases e with
  | main failure => exact (main_frame u failure).2.1.trans h
  | worker i failure => exact (work_cases he).flag h
  | abort i => exact h
  | signal => rfl

/-- Whoever holds the mutex, or else the worker that `join` waits for, can go on. -/
theorem can_move {s : State ε} (ha : Accounted s) (hgoes : ¬ s.main.Ended) :
    ∃ e, machine.Enabled s e ∧ NoSignal s e := by
  by_cases hj : Main.Joins s
  · exact ⟨.main none, ⟨hgoes, .inl rfl, hj⟩, trivial⟩
  have hrun : ¬ s.main.Terminated := by
    intro hm
    unfold Main.Terminated at hm
    split at hm
    · next cause hcause => exact hgoes (by simp [hcause, Main.Ended])
    · exact hm
  obtain ⟨i, w, hi, hw⟩ : ∃ (i : ℕ) (w : Worker ε), s.workers[i]? = some w ∧ w ≠ .exited := by
    unfold Main.Joins at hj
    split at hj
    next i _ =>
      rw [not_or] at hj
      obtain ⟨w, hi⟩ := Option.ne_none_iff_exists'.mp hj.1
      exact ⟨i, w, hi, fun hw => hj.2 (hw ▸ hi)⟩
    · exact absurd trivial hj
  cases w with
  | exited => exact absurd rfl hw
  | catching e =>
    cases hm : s.mutex with
    | none => exact ⟨.worker i none, ⟨hrun, by simp [hi, hm]⟩, trivial⟩
    | some j =>
      obtain ⟨e', hj⟩ := (ha.holder j).mp hm
      exact ⟨.worker j none, ⟨hrun, by simp [hj]⟩, trivial⟩
  | _ => exact ⟨.worker i none, ⟨hrun, by simp [hi]⟩, trivial⟩

def oneFails : List (Event ℕ) :=
  List.replicate 13 (.main none) ++
    [.worker 1 (some 8), .worker 1 none, .worker 1 none, .worker 1 none]

def oneFailed : State ℕ := runTrace machine (initial ⟨"disk", "0.0.0.0", 2⟩) oneFails

end EasybdServer
