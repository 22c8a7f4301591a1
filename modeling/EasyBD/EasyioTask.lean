import Mathlib.Logic.Function.Basic
import Mathlib.Data.List.Forall2
import Mathlib.Data.List.Perm.Basic
import Mathlib.Algebra.Ring.Nat
import EasyBD.CallStacks

/-! `Task` and `spawn`: coroutine frames in memory, linked by the continuations in their promises,
and a stack of resumptions. A frame that awaits a task hands control over to it and is not on that
stack. A task that has ended is destroyed with the expression that awaited it, or with the frame
whose variable it is in. The allocator may give back any address that is free. -/
namespace EasyioTask

open TransitionRuns CallStacks

variable {α β ν ξ ω : Type*}

/-- Where a frame stands: at the next step of its body, in `co_await` of a task, in an awaiter that
has its handle, or after its final suspension. -/
inductive Point (α β ν ξ ω : Type*) where
  | at (b : β)
  | awaiting (task : α) (keeps : Bool) (k : ν ⊕ ξ → β)
  | suspended (op : ω) (k : ν → β)
  | finished (r : ν ⊕ ξ)

/-- The frame of a `spawn`, which awaits its task from the start, or of a `Task`. `held` are the
tasks in its variables that have ended, and those that they hold. -/
inductive Frame (α β ν ξ ω : Type*) where
  | detached (task : α)
  | task (continuation : Option α) (held : List α) (point : Point α β ν ξ ω)

/-- `handles` are those that awaiters have stored; `broken` tells that a frame was used that is not
there, or not where its user takes it to be. -/
structure State (α β ν ξ ω : Type*) where
  heap : α → Option (Frame α β ν ξ ω)
  stack : List α
  handles : List (ω × α)
  terminated : Bool
  broken : Bool

def initial : State α β ν ξ ω := ⟨fun _ => none, [], [], false, false⟩

/-- Each event comes with the addresses that the allocator would return. -/
inductive Event (α β ν ω : Type*) where
  | run (a a' : α)
  | spawn (task : β) (a a' : α)
  | resume (op : ω) (v : ν)

section Machine

variable [DecidableEq α] [DecidableEq ω]

namespace State

def store (s : State α β ν ξ ω) (a : α) (f : Frame α β ν ξ ω) : State α β ν ξ ω :=
  { s with heap := Function.update s.heap a (some f) }

def destroy (s : State α β ν ξ ω) (l : List α) : State α β ν ξ ω :=
  if l.Nodup ∧ ∀ a ∈ l, (s.heap a).isSome then
    { s with heap := fun a => if a ∈ l then none else s.heap a }
  else { s with broken := true }

/-- `coroutine_handle::resume` on a handle that an awaiter has stored. -/
def resume (s : State α β ν ξ ω) (op : ω) (v : ν) : State α β ν ξ ω :=
  match s.handles.find? fun h => h.1 = op with
  | some (_, a) =>
    match s.heap a with
    | some (.task c held (.suspended _ k)) =>
      { s.store a (.task c held (.at (k v))) with
        stack := a :: s.stack
        handles := s.handles.eraseP fun h => h.1 = op }
    | _ => { s with broken := true }
  | none => { s with broken := true }

/-- `return_value` or `unhandled_exception`, and then `FinalAwaiter`: the continuation takes the
result, and `spawn`'s frame destroys its task and itself. -/
def finish (s : State α β ν ξ ω) (a : α) (held : List α) (continuation : Option α)
    (rest : List α) (r : ν ⊕ ξ) : State α β ν ξ ω :=
  match continuation with
  | none => { s.store a (.task none held (.finished r)) with stack := rest }
  | some c =>
    match s.heap c with
    | some (.task continuation held' (.awaiting _ keeps k)) =>
      if keeps then
        { (s.store c (.task continuation (a :: held ++ held') (.at (k r)))).store a
            (.task (some c) held (.finished r)) with stack := c :: rest }
      else
        { (s.store c (.task continuation held' (.at (k r)))).destroy (a :: held) with
          stack := c :: rest }
    | some (.detached _) =>
      match r with
      | .inl _ => { s.destroy (a :: held ++ [c]) with stack := rest }
      | .inr _ => { s with terminated := true }
    | _ => { s with broken := true }

/-- `spawn`: its frame starts at once, awaits the task and so starts it. -/
def spawn (s : State α β ν ξ ω) (task : β) (a a' : α) : State α β ν ξ ω :=
  { (s.store a (.detached a')).store a' (.task (some a) [] (.at task)) with
    stack := a' :: s.stack }

/-- What the frame on top of the stack does next; a task that it awaits may be in a variable of
its own. -/
def run (s : State α β ν ξ ω) (t : α) (rest : List α) (continuation : Option α) (held : List α)
    (keeps : Bool) (a a' : α) : Action β ν ξ ω → State α β ν ξ ω
  | .goesOn b => s.store t (.task continuation held (.at b))
  | .returns v => s.finish t held continuation rest (.inl v)
  | .throws e => s.finish t held continuation rest (.inr e)
  | .calls callee k =>
    { (s.store t (.task continuation held (.awaiting a keeps k))).store a
        (.task (some t) [] (.at callee)) with stack := a :: rest }
  | .suspends op k =>
    { s.store t (.task continuation held (.suspended op k)) with
      stack := rest
      handles := (op, t) :: s.handles }
  | .spawns task k => (s.store t (.task continuation held (.at k))).spawn task a a'
  | .resumes op v k => (s.store t (.task continuation held (.at k))).resume op v
  | .aborts => { s with terminated := true }

end State

def Free (s : State α β ν ξ ω) (a a' : α) : Prop := s.heap a = none ∧ s.heap a' = none ∧ a ≠ a'

def Waits (s : State α β ν ξ ω) (op : ω) : Prop := op ∈ s.handles.map Prod.fst

def CanRun (step : β → Action β ν ξ ω) (s : State α β ν ξ ω) : Prop :=
  match s.stack with
  | [] => False
  | t :: _ =>
    match s.heap t with
    | some (.task _ _ (.at b)) =>
      match step b with
      | .resumes op _ _ => Waits s op
      | _ => True
    | _ => True

def Enabled (step : β → Action β ν ξ ω) (s : State α β ν ξ ω) : Event α β ν ω → Prop
  | .run a a' => s.terminated = false ∧ CanRun step s ∧ Free s a a'
  | .spawn _ a a' => s.terminated = false ∧ s.stack = [] ∧ Free s a a'
  | .resume op _ => s.terminated = false ∧ s.stack = [] ∧ Waits s op

def next (step : β → Action β ν ξ ω) (keeps : β → Bool) (s : State α β ν ξ ω) :
    Event α β ν ω → State α β ν ξ ω
  | .run a a' =>
    match s.stack with
    | t :: rest =>
      match s.heap t with
      | some (.task c held (.at b)) => s.run t rest c held (keeps b) a a' (step b)
      | _ => { s with broken := true }
    | [] => s
  | .spawn task a a' => s.spawn task a a'
  | .resume op v => s.resume op v

/-- `keeps` tells where a body awaits a task in one of its variables. -/
def machine (step : β → Action β ν ξ ω) (keeps : β → Bool) :
    System (State α β ν ξ ω) (Event α β ν ω) := ⟨Enabled step, next step keeps⟩

instance (s : State α β ν ξ ω) (a a' : α) : Decidable (Free s a a') :=
  inferInstanceAs (Decidable (s.heap a = none ∧ s.heap a' = none ∧ a ≠ a'))

instance (s : State α β ν ξ ω) (op : ω) : Decidable (Waits s op) :=
  inferInstanceAs (Decidable (op ∈ s.handles.map Prod.fst))

instance (step : β → Action β ν ξ ω) (s : State α β ν ξ ω) : Decidable (CanRun step s) := by
  unfold CanRun
  split
  · infer_instance
  · split
    · split <;> infer_instance
    · infer_instance

instance (step : β → Action β ν ξ ω) (keeps : β → Bool) (s : State α β ν ξ ω) :
    ∀ e, Decidable ((machine step keeps).Enabled s e)
  | .run a a' =>
    inferInstanceAs (Decidable (s.terminated = false ∧ CanRun step s ∧ Free s a a'))
  | .spawn _ a a' =>
    inferInstanceAs (Decidable (s.terminated = false ∧ s.stack = [] ∧ Free s a a'))
  | .resume op _ =>
    inferInstanceAs (Decidable (s.terminated = false ∧ s.stack = [] ∧ Waits s op))

end Machine

section Chains

variable {heap heap' : α → Option (Frame α β ν ξ ω)} {a : α} {live : List α}
  {l : List (α × List α)} {callers : List (ν ⊕ ξ → β)} {point : Point α β ν ξ ω}

structure Live (heap : α → Option (Frame α β ν ξ ω)) (live : List α) : Prop where
  nodup : live.Nodup
  iff : ∀ a, heap a ≠ none ↔ a ∈ live

theorem Live.perm (h : Live heap live) {live' : List α} (hperm : live.Perm live') :
    Live heap live' :=
  ⟨hperm.nodup_iff.mp h.nodup, fun a => (h.iff a).trans hperm.mem_iff⟩

theorem Live.notMem (h : Live heap live) (hfree : heap a = none) : a ∉ live :=
  fun hmem => (h.iff a).mpr hmem hfree

theorem Live.store [DecidableEq α] (h : Live heap live) (hmem : a ∈ live)
    (f : Frame α β ν ξ ω) : Live (Function.update heap a (some f)) live := by
  refine ⟨h.nodup, fun x => ?_⟩
  by_cases hx : x = a
  · simp [hx, hmem]
  · rw [Function.update_of_ne hx, h.iff]

theorem Live.alloc [DecidableEq α] (h : Live heap live) (hfree : heap a = none)
    (f : Frame α β ν ξ ω) : Live (Function.update heap a (some f)) (a :: live) := by
  refine ⟨List.nodup_cons.mpr ⟨h.notMem hfree, h.nodup⟩, fun x => ?_⟩
  by_cases hx : x = a
  · simp [hx]
  · rw [Function.update_of_ne hx, h.iff, List.mem_cons]
    exact ⟨Or.inr, fun hmem => hmem.resolve_left hx⟩

theorem destroy_eq [DecidableEq α] {s : State α β ν ξ ω} {l : List α}
    (h : Live s.heap (l ++ live)) :
    s.destroy l = { s with heap := fun a => if a ∈ l then none else s.heap a } := by
  refine if_pos ⟨(List.nodup_append.mp h.nodup).1, fun a ha => ?_⟩
  exact Option.isSome_iff_ne_none.mpr ((h.iff a).mpr (List.mem_append_left live ha))

theorem Live.destroy [DecidableEq α] {l : List α} (h : Live heap (l ++ live)) :
    Live (fun a => if a ∈ l then none else heap a) live := by
  obtain ⟨-, hnodup, happart⟩ := List.nodup_append.mp h.nodup
  refine ⟨hnodup, fun x => ?_⟩
  by_cases hx : x ∈ l
  · simp only [if_pos hx, ne_eq, not_true_eq_false, false_iff]
    exact fun hmem => happart x hx x hmem rfl
  · simp only [if_neg hx, h.iff, List.mem_append]
    exact ⟨fun hmem => hmem.resolve_left hx, Or.inr⟩

/-- The frames of one thread, each with what it holds: the one that runs or waits, and then its
callers' up to the frame of the `spawn`. -/
abbrev Chain (α : Type*) := (α × List α) × List (α × List α)

def below (l : List (α × List α)) : List α := l.flatMap fun f => f.1 :: f.2

def Chain.frames (c : Chain α) : List α := c.1.1 :: (c.1.2 ++ below c.2)

def Chain.continuation (c : Chain α) : Option α := c.2.head?.map Prod.fst

theorem mem_below {f : α × List α} (hf : f ∈ l) : f.1 ∈ below l :=
  List.mem_flatMap.mpr ⟨f, hf, List.mem_cons_self⟩

theorem mem_below_of_held {f : α × List α} (hf : f ∈ l) (ha : a ∈ f.2) : a ∈ below l :=
  List.mem_flatMap.mpr ⟨f, hf, List.mem_cons_of_mem f.1 ha⟩

/-- `l` are the frames of the callers of `a`, which are to do `callers` with the result. -/
def Links (heap : α → Option (Frame α β ν ξ ω)) :
    α → List (α × List α) → List (ν ⊕ ξ → β) → Prop
  | a, [d], [] => heap d.1 = some (.detached a) ∧ d.2 = []
  | a, c :: c' :: l, k :: callers =>
    (∃ keeps, heap c.1 = some (.task (some c'.1) c.2 (.awaiting a keeps k))) ∧
      Links heap c.1 (c' :: l) callers
  | _, _, _ => False

def Ended (heap : α → Option (Frame α β ν ξ ω)) (a : α) : Prop :=
  ∃ c held r, heap a = some (.task c held (.finished r))

theorem Ended.congr (h : Ended heap a) (hsame : heap' a = heap a) : Ended heap' a := by
  obtain ⟨continuation, held, r, ha⟩ := h
  exact ⟨continuation, held, r, hsame.trans ha⟩

/-- What lies below the first frame of a thread, and what that one holds. -/
structure Callers (heap : α → Option (Frame α β ν ξ ω)) (c : Chain α)
    (callers : List (ν ⊕ ξ → β)) : Prop where
  links : Links heap c.1.1 c.2 callers
  ended : ∀ f ∈ c.1 :: c.2, ∀ x ∈ f.2, Ended heap x

/-- The chain is a thread whose first frame stands at `point`. -/
structure Holds (heap : α → Option (Frame α β ν ξ ω)) (c : Chain α) (point : Point α β ν ξ ω)
    (callers : List (ν ⊕ ξ → β)) : Prop where
  top : heap c.1.1 = some (.task c.continuation c.1.2 point)
  callers : Callers heap c callers

variable {c : Chain α}

theorem Links.congr (h : Links heap a l callers) (hsame : ∀ x ∈ below l, heap' x = heap x) :
    Links heap' a l callers := by
  fun_induction Links heap a l callers with
  | case1 a d => exact ⟨(hsame d.1 (mem_below List.mem_cons_self)).trans h.1, h.2⟩
  | case2 a c c' l k callers ih =>
    obtain ⟨⟨keeps, hc⟩, hrest⟩ := h
    refine ⟨⟨keeps, (hsame c.1 (mem_below List.mem_cons_self)).trans hc⟩, ih hrest fun x hx => ?_⟩
    exact hsame x (List.mem_append_right (c.1 :: c.2) hx)
  | case3 => exact h.elim

theorem Links.ne_nil (h : Links heap a l callers) : l ≠ [] := by
  rintro rfl
  simp [Links] at h

theorem Links.length (h : Links heap a l callers) : l.length = callers.length + 1 := by
  fun_induction Links heap a l callers with
  | case1 a d => rfl
  | case2 a c c' l k callers ih =>
    have hrest := ih h.2
    simpa using hrest
  | case3 => exact h.elim

theorem Callers.congr (h : Callers heap c callers)
    (hsame : ∀ x ∈ c.1.2 ++ below c.2, heap' x = heap x) : Callers heap' c callers := by
  refine ⟨h.links.congr fun x hx => hsame x (List.mem_append_right _ hx), fun f hf x hx => ?_⟩
  refine (h.ended f hf x hx).congr (hsame x ?_)
  rcases List.mem_cons.mp hf with rfl | hf
  · exact List.mem_append_left _ hx
  · exact List.mem_append_right _ (mem_below_of_held hf hx)

theorem Holds.congr (h : Holds heap c point callers)
    (hsame : ∀ x ∈ c.frames, heap' x = heap x) : Holds heap' c point callers :=
  ⟨(hsame c.1.1 List.mem_cons_self).trans h.top,
    h.callers.congr fun x hx => hsame x (List.mem_cons_of_mem _ hx)⟩

/-- The frames of a running thread, and of one that waits. -/
def Runs (heap : α → Option (Frame α β ν ξ ω)) (c : Chain α) (t : Thread β ν ξ) : Prop :=
  Holds heap c (.at t.body) t.callers

def WaitsIn (heap : α → Option (Frame α β ν ξ ω)) (w : ω × Chain α) (t : Waiting β ν ξ ω) :
    Prop := w.1 = t.op ∧ Holds heap w.2 (.suspended t.op t.resume) t.callers

theorem forall₂_imp_of_mem {γ δ : Type*} {R R' : γ → δ → Prop} {l : List γ} {u : List δ}
    (h : List.Forall₂ R l u) (himp : ∀ x ∈ l, ∀ y, R x y → R' x y) : List.Forall₂ R' l u := by
  induction h with
  | nil => exact .nil
  | cons hxy _ ih =>
    exact .cons (himp _ List.mem_cons_self _ hxy)
      (ih fun x hx => himp x (List.mem_cons_of_mem _ hx))

/-- The threads that a step leaves alone, and all their frames. -/
structure Rest (heap : α → Option (Frame α β ν ξ ω)) (running : List (Chain α))
    (waiting : List (ω × Chain α)) (rest : List (Thread β ν ξ)) (ws : List (Waiting β ν ξ ω)) :
    Prop where
  runs : List.Forall₂ (Runs heap) running rest
  waits : List.Forall₂ (WaitsIn heap) waiting ws

def frames (running : List (Chain α)) (waiting : List (ω × Chain α)) : List α :=
  (running ++ waiting.map Prod.snd).flatMap Chain.frames

/-- A step that changes only the frames `old` and free addresses. -/
theorem Rest.congr {running : List (Chain α)} {waiting : List (ω × Chain α)}
    {rest : List (Thread β ν ξ)} {ws : List (Waiting β ν ξ ω)}
    (h : Rest heap running waiting rest ws) (old : List α)
    (hlive : Live heap (old ++ frames running waiting))
    (hsame : ∀ x, heap x ≠ none → x ∉ old → heap' x = heap x) :
    Rest heap' running waiting rest ws := by
  have happart := (List.nodup_append.mp hlive.nodup).2.2
  have hkeeps : ∀ c ∈ running ++ waiting.map Prod.snd, ∀ x ∈ c.frames, heap' x = heap x := by
    intro c hc x hx
    have hmem : x ∈ frames running waiting := List.mem_flatMap.mpr ⟨c, hc, hx⟩
    exact hsame x ((hlive.iff x).mpr (List.mem_append_right _ hmem))
      fun hold => happart x hold x hmem rfl
  refine ⟨forall₂_imp_of_mem h.runs fun c hc t ht => ?_,
    forall₂_imp_of_mem h.waits fun w hw t ht => ?_⟩
  · exact Holds.congr ht (hkeeps c (List.mem_append_left _ hc))
  · exact ⟨ht.1, ht.2.congr (hkeeps w.2 (List.mem_append_right _ (List.mem_map_of_mem hw)))⟩

/-- `running` and `waiting` are the chains behind the stack and the stored handles. -/
structure Drawn (s : State α β ν ξ ω) (t : CallStacks.State β ν ξ ω) (running : List (Chain α))
    (waiting : List (ω × Chain α)) : Prop where
  terminated : s.terminated = t.terminated
  sound : s.broken = false
  stack : s.stack = running.map fun c => c.1.1
  handles : s.handles = waiting.map fun w => (w.1, w.2.1.1)
  threads : Rest s.heap running waiting t.running t.waiting
  live : Live s.heap (frames running waiting)

end Chains

section Simulation

variable {s : State α β ν ξ ω} {t : CallStacks.State β ν ξ ω}
  {c : Chain α} {running : List (Chain α)} {waiting : List (ω × Chain α)} {th : Thread β ν ξ}
  {rest : List (Thread β ν ξ)}

/-- The thread on top of the stack, and the others. -/
structure Top (s : State α β ν ξ ω) (t : CallStacks.State β ν ξ ω) (c : Chain α)
    (running : List (Chain α)) (waiting : List (ω × Chain α)) (th : Thread β ν ξ)
    (rest : List (Thread β ν ξ)) : Prop where
  drawn : Drawn s t (c :: running) waiting
  threads : t.running = th :: rest
  runs : Runs s.heap c th
  others : Rest s.heap running waiting rest t.waiting
  nodup : c.frames.Nodup
  live : Live s.heap (c.frames ++ frames running waiting)

theorem Drawn.top {chains : List (Chain α)} (h : Drawn s t chains waiting)
    (ht : t.running = th :: rest) :
    ∃ c running, chains = c :: running ∧ Top s t c running waiting th rest := by
  have hruns := h.threads.runs
  rw [ht] at hruns
  obtain ⟨c, running, hc, hothers, rfl⟩ := List.forall₂_cons_right_iff.mp hruns
  exact ⟨c, running, rfl, h, ht, hc, ⟨hothers, h.threads.waits⟩,
    (List.nodup_append.mp h.live.nodup).1, h.live⟩

theorem Top.stack (h : Top s t c running waiting th rest) :
    s.stack = c.1.1 :: running.map fun c => c.1.1 := h.drawn.stack

theorem Top.notMem (h : Top s t c running waiting th rest) {a : α} (hfree : s.heap a = none) :
    a ∉ c.frames := fun hmem => h.live.notMem hfree (List.mem_append_left _ hmem)

theorem drawn_terminated (h : Drawn s t running waiting) :
    Drawn { s with terminated := true } { t with terminated := true } running waiting :=
  ⟨rfl, h.sound, h.stack, h.handles, h.threads, h.live⟩

variable [DecidableEq α]

theorem Top.moves (h : Top s t c running waiting th rest) (point : Point α β ν ξ ω) :
    Holds (s.store c.1.1 (.task c.continuation c.1.2 point)).heap c point th.callers ∧
      Rest (s.store c.1.1 (.task c.continuation c.1.2 point)).heap running waiting rest
        t.waiting ∧
      Live (s.store c.1.1 (.task c.continuation c.1.2 point)).heap
        (c.frames ++ frames running waiting) := by
  refine ⟨⟨Function.update_self .., h.runs.callers.congr fun x hx => ?_⟩,
    h.others.congr _ h.live fun x _ hx => ?_,
    h.live.store (List.mem_append_left _ List.mem_cons_self) _⟩
  · refine Function.update_of_ne ?_ ..
    rintro rfl
    exact (List.nodup_cons.mp h.nodup).1 hx
  · refine Function.update_of_ne ?_ ..
    rintro rfl
    exact hx List.mem_cons_self

theorem drawn_goesOn (h : Top s t c running waiting th rest) (b : β) :
    Drawn (s.store c.1.1 (.task c.continuation c.1.2 (.at b)))
      { t with running := ⟨b, th.callers⟩ :: rest } (c :: running) waiting := by
  obtain ⟨hholds, hothers, hlive⟩ := h.moves (.at b)
  exact ⟨h.drawn.terminated, h.drawn.sound, h.drawn.stack, h.drawn.handles,
    ⟨.cons hholds hothers.runs, hothers.waits⟩, hlive⟩

theorem drawn_suspends (h : Top s t c running waiting th rest) (op : ω) (k : ν → β) :
    Drawn { s.store c.1.1 (.task c.continuation c.1.2 (.suspended op k)) with
        stack := running.map fun c => c.1.1, handles := (op, c.1.1) :: s.handles }
      { t with running := rest, waiting := ⟨op, k, th.callers⟩ :: t.waiting }
      running ((op, c) :: waiting) := by
  obtain ⟨hholds, hothers, hlive⟩ := h.moves (.suspended op k)
  refine ⟨h.drawn.terminated, h.drawn.sound, rfl, ?_,
    ⟨hothers.runs, .cons ⟨rfl, hholds⟩ hothers.waits⟩, hlive.perm ?_⟩
  · exact congrArg ((op, c.1.1) :: ·) h.drawn.handles
  · have hperm : (c :: (running ++ waiting.map Prod.snd)).Perm
        (running ++ c :: waiting.map Prod.snd) := List.perm_middle.symm
    exact hperm.flatMap_right Chain.frames

theorem drawn_calls (h : Top s t c running waiting th rest) {a : α} (hfree : s.heap a = none)
    (callee : β) (keeps : Bool) (k : ν ⊕ ξ → β) :
    Drawn { (s.store c.1.1 (.task c.continuation c.1.2 (.awaiting a keeps k))).store a
          (.task (some c.1.1) [] (.at callee)) with stack := a :: running.map fun c => c.1.1 }
      { t with running := ⟨callee, k :: th.callers⟩ :: rest }
      (((a, []), c.1 :: c.2) :: running) waiting := by
  obtain ⟨hholds, hothers, hlive⟩ := h.moves (.awaiting a keeps k)
  have hnew := h.notMem hfree
  have hfree' : (s.store c.1.1 (.task c.continuation c.1.2 (.awaiting a keeps k))).heap a =
      none := by
    refine (Function.update_of_ne ?_ ..).trans hfree
    rintro rfl
    exact hnew List.mem_cons_self
  have hothers' : Rest ((s.store c.1.1 (.task c.continuation c.1.2 (.awaiting a keeps k))).store a
      (.task (some c.1.1) [] (.at callee))).heap running waiting rest t.waiting := by
    refine hothers.congr _ hlive fun x hx _ => ?_
    refine Function.update_of_ne ?_ ..
    rintro rfl
    exact hx hfree'
  have hcaller : Holds ((s.store c.1.1 (.task c.continuation c.1.2 (.awaiting a keeps k))).store a
      (.task (some c.1.1) [] (.at callee))).heap c (.awaiting a keeps k) th.callers := by
    refine hholds.congr fun x hx => Function.update_of_ne ?_ ..
    rintro rfl
    exact hnew hx
  refine ⟨h.drawn.terminated, h.drawn.sound, rfl, h.drawn.handles,
    ⟨.cons ⟨Function.update_self .., ?_, ?_⟩ hothers'.runs, hothers'.waits⟩, hlive.alloc hfree' _⟩
  · obtain ⟨c, _ | ⟨p, l⟩⟩ := c
    · exact absurd rfl hcaller.callers.links.ne_nil
    · exact ⟨⟨keeps, hcaller.top⟩, hcaller.callers.links⟩
  · intro f hf x hx
    rcases List.mem_cons.mp hf with rfl | hf
    · exact absurd hx List.not_mem_nil
    · exact hcaller.callers.ended f hf x hx

theorem free_store {a b : α} (hfree : s.heap b = none) (hlive : s.heap a ≠ none)
    (f : Frame α β ν ξ ω) : (s.store a f).heap b = none := by
  refine (Function.update_of_ne ?_ ..).trans hfree
  rintro rfl
  exact hlive hfree

theorem drawn_spawn (h : Drawn s t running waiting) {a a' : α} (hfree : Free s a a') (task : β) :
    Drawn (s.spawn task a a') { t with running := ⟨task, []⟩ :: t.running }
      (((a', []), [(a, [])]) :: running) waiting := by
  obtain ⟨ha, ha', hne⟩ := hfree
  have hlive := h.live.alloc ha (.detached a')
  have hfree' : (s.store a (.detached a')).heap a' = none :=
    (Function.update_of_ne hne.symm ..).trans ha'
  have hothers : Rest (s.spawn task a a').heap running waiting t.running t.waiting := by
    refine h.threads.congr [] h.live fun x hx _ => ?_
    have hxa : x ≠ a := fun heq => hx (heq ▸ ha)
    have hxa' : x ≠ a' := fun heq => hx (heq ▸ ha')
    exact (Function.update_of_ne hxa' ..).trans (Function.update_of_ne hxa ..)
  refine ⟨h.terminated, h.sound, congrArg (a' :: ·) h.stack, h.handles,
    ⟨.cons ⟨Function.update_self .., ⟨?_, rfl⟩, ?_⟩ hothers.runs, hothers.waits⟩,
    hlive.alloc hfree' _⟩
  · exact (Function.update_of_ne hne ..).trans (Function.update_self ..)
  · simp

theorem holds_kept {heap : α → Option (Frame α β ν ξ ω)} {a p : α} {held heldp : List α}
    {p' : α × List α} {l : List (α × List α)} {r : ν ⊕ ξ} {b : β}
    {callers : List (ν ⊕ ξ → β)} (hrest : Links heap p (p' :: l) callers)
    (hended : ∀ f ∈ (a, held) :: (p, heldp) :: p' :: l, ∀ x ∈ f.2, Ended heap x)
    (hnodup : (a :: (held ++ p :: (heldp ++ below (p' :: l)))).Nodup) :
    Holds (Function.update (Function.update heap p
        (some (.task (some p'.1) (a :: held ++ heldp) (.at b)))) a
        (some (.task (some p) held (.finished r))))
      ((p, a :: held ++ heldp), p' :: l) (.at b) callers := by
  obtain ⟨ha, htail⟩ := List.nodup_cons.mp hnodup
  have hp := (List.nodup_cons.mp (List.perm_middle.nodup_iff.mp htail)).1
  have hap : p ≠ a := fun heq => ha (heq ▸ List.mem_append_right _ List.mem_cons_self)
  have hkept : ∀ x ∈ held ++ (heldp ++ below (p' :: l)), Function.update (Function.update heap p
      (some (.task (some p'.1) (a :: held ++ heldp) (.at b)))) a
      (some (.task (some p) held (.finished r))) x = heap x := by
    intro x hx
    have hxp : x ≠ p := fun heq => hp (heq ▸ hx)
    have hxa : x ≠ a := by
      rintro rfl
      exact ha ((List.sublist_cons_self p _).append_left held |>.subset hx)
    exact (Function.update_of_ne hxa ..).trans (Function.update_of_ne hxp ..)
  refine ⟨(Function.update_of_ne hap ..).trans (Function.update_self ..),
    hrest.congr fun x hx => hkept x (by simp [hx]), fun f hf x hx => ?_⟩
  by_cases hxa : x = a
  · subst hxa
    exact ⟨_, _, _, Function.update_self ..⟩
  rcases List.mem_cons.mp hf with rfl | hf
  · have hx : x ∈ held ∨ x ∈ heldp := by simpa [hxa] using hx
    rcases hx with hx | hx
    · exact (hended (a, held) (by simp) x hx).congr (hkept x (by simp [hx]))
    · exact (hended (p, heldp) (by simp) x hx).congr (hkept x (by simp [hx]))
  · exact (hended f (by simp [hf]) x hx).congr (hkept x (by simp [mem_below_of_held hf hx]))

theorem holds_destroyed {heap : α → Option (Frame α β ν ξ ω)} {a p : α} {held heldp : List α}
    {p' : α × List α} {l : List (α × List α)} {b : β}
    {callers : List (ν ⊕ ξ → β)} (hrest : Links heap p (p' :: l) callers)
    (hended : ∀ f ∈ (a, held) :: (p, heldp) :: p' :: l, ∀ x ∈ f.2, Ended heap x)
    (hnodup : (a :: (held ++ p :: (heldp ++ below (p' :: l)))).Nodup) :
    Holds (fun x => if x ∈ a :: held then none
        else Function.update heap p (some (.task (some p'.1) heldp (.at b))) x)
      ((p, heldp), p' :: l) (.at b) callers := by
  obtain ⟨-, hbelow, happart⟩ :=
    List.nodup_append.mp (show ((a :: held) ++ p :: (heldp ++ below (p' :: l))).Nodup from hnodup)
  have hnot : ∀ x ∈ p :: (heldp ++ below (p' :: l)), x ∉ a :: held :=
    fun x hx hmem => happart x hmem x hx rfl
  have hkept : ∀ x ∈ heldp ++ below (p' :: l), (if x ∈ a :: held then none
      else Function.update heap p (some (.task (some p'.1) heldp (.at b))) x) = heap x := by
    intro x hx
    have hxp : x ≠ p := fun heq => (List.nodup_cons.mp hbelow).1 (heq ▸ hx)
    rw [if_neg (hnot x (List.mem_cons_of_mem p hx)), Function.update_of_ne hxp]
  refine ⟨(if_neg (hnot p List.mem_cons_self)).trans (Function.update_self ..),
    hrest.congr fun x hx => hkept x (List.mem_append_right _ hx), fun f hf x hx => ?_⟩
  have hmem : x ∈ heldp ++ below (p' :: l) := by
    rcases List.mem_cons.mp hf with rfl | hf
    · exact List.mem_append_left _ hx
    · exact List.mem_append_right _ (mem_below_of_held hf hx)
  exact (hended f (List.mem_cons_of_mem _ hf) x hx).congr (hkept x hmem)

/-- The result of a call goes to the frame that awaits it, which destroys the task or keeps it. -/
theorem drawn_finish (h : Top s t c running waiting th rest) {r : ν ⊕ ξ}
    {k : ν ⊕ ξ → β} {callers : List (ν ⊕ ξ → β)} (hcallers : th.callers = k :: callers) :
    ∃ running', Drawn
      (s.finish c.1.1 c.1.2 c.continuation (running.map fun c => c.1.1) r)
      { t with running := ⟨k r, callers⟩ :: rest } running' waiting := by
  obtain ⟨⟨a, held⟩, l⟩ := c
  have hlinks := h.runs.callers.links
  have hended := h.runs.callers.ended
  rw [hcallers] at hlinks
  obtain _ | ⟨⟨p, heldp⟩, _ | ⟨p', l⟩⟩ := l
  · exact absurd rfl hlinks.ne_nil
  · exact hlinks.elim
  obtain ⟨⟨keeps, hp⟩, hrest⟩ := hlinks
  have hmem : p ∈ Chain.frames ((a, held), (p, heldp) :: p' :: l) ++ frames running waiting := by
    simp [Chain.frames, below]
  have hothers {heap' : α → Option (Frame α β ν ξ ω)} (hsame : ∀ x, x ≠ a → x ∉ held → x ≠ p →
      heap' x = s.heap x) : Rest heap' running waiting rest t.waiting := by
    refine h.others.congr _ h.live fun x _ hx => ?_
    simp only [Chain.frames, below, List.flatMap_cons, List.mem_cons, List.mem_append,
      not_or] at hx
    exact hsame x hx.1 hx.2.1 hx.2.2.1.1
  cases keeps with
  | true =>
    refine ⟨((p, a :: held ++ heldp), p' :: l) :: running, ?_⟩
    have hfinish : s.finish a held (some p) (running.map fun c => c.1.1) r =
        { (s.store p (.task (some p'.1) (a :: held ++ heldp) (.at (k r)))).store a
            (.task (some p) held (.finished r)) with
          stack := p :: running.map fun c => c.1.1 } := by
      simp only [State.finish, hp, if_true]
    have hperm : (Chain.frames ((a, held), (p, heldp) :: p' :: l)).Perm
        (Chain.frames ((p, a :: held ++ heldp), p' :: l)) := by
      have hmiddle : ((a :: held) ++ p :: (heldp ++ below (p' :: l))).Perm
          (p :: ((a :: held) ++ (heldp ++ below (p' :: l)))) := List.perm_middle
      simpa [Chain.frames, below] using hmiddle
    show Drawn (s.finish a held (some p) (running.map fun c => c.1.1) r) _ _ _
    rw [hfinish]
    have hlive := ((h.live.store hmem (.task (some p'.1) (a :: held ++ heldp) (.at (k r)))).store
      List.mem_cons_self (.task (some p) held (.finished r))).perm (hperm.append_right _)
    have hrest' : Rest ((s.store p (.task (some p'.1) (a :: held ++ heldp) (.at (k r)))).store a
        (.task (some p) held (.finished r))).heap running waiting rest t.waiting :=
      hothers fun x hxa _ hxp =>
        (Function.update_of_ne hxa ..).trans (Function.update_of_ne hxp ..)
    exact ⟨h.drawn.terminated, h.drawn.sound, rfl, h.drawn.handles,
      ⟨.cons (holds_kept hrest hended h.nodup) hrest'.runs, hrest'.waits⟩, hlive⟩
  | false =>
    refine ⟨((p, heldp), p' :: l) :: running, ?_⟩
    have hlive : Live (s.store p (.task (some p'.1) heldp (.at (k r)))).heap
        ((a :: held) ++ (Chain.frames ((p, heldp), p' :: l) ++ frames running waiting)) := by
      have hframes : Chain.frames ((a, held), (p, heldp) :: p' :: l) ++ frames running waiting =
          (a :: held) ++ (Chain.frames ((p, heldp), p' :: l) ++ frames running waiting) := by
        simp [Chain.frames, below]
      exact hframes ▸ h.live.store hmem _
    have hfinish : s.finish a held (some p) (running.map fun c => c.1.1) r =
        { (s.store p (.task (some p'.1) heldp (.at (k r)))).destroy (a :: held) with
          stack := p :: running.map fun c => c.1.1 } := by
      simp only [State.finish, hp]
      rfl
    show Drawn (s.finish a held (some p) (running.map fun c => c.1.1) r) _ _ _
    rw [hfinish, destroy_eq hlive]
    have hrest' : Rest (fun x => if x ∈ a :: held then none
        else (s.store p (.task (some p'.1) heldp (.at (k r)))).heap x) running waiting rest
        t.waiting :=
      hothers fun x hxa hxheld hxp =>
        (if_neg (by simp [hxa, hxheld])).trans (Function.update_of_ne hxp ..)
    exact ⟨h.drawn.terminated, h.drawn.sound, rfl, h.drawn.handles,
      ⟨.cons (holds_destroyed hrest hended h.nodup) hrest'.runs, hrest'.waits⟩, hlive.destroy⟩

/-- The task of a `spawn` ends: all its frames are freed, or an exception ends the process. -/
theorem drawn_finish_root (h : Top s t c running waiting th rest) (hcallers : th.callers = []) :
    (∀ v, Drawn (s.finish c.1.1 c.1.2 c.continuation (running.map fun c => c.1.1) (.inl v))
      { t with running := rest } running waiting) ∧
    ∀ e, Drawn (s.finish c.1.1 c.1.2 c.continuation (running.map fun c => c.1.1) (.inr e))
      { t with terminated := true } (c :: running) waiting := by
  obtain ⟨⟨a, held⟩, l⟩ := c
  have hlinks := h.runs.callers.links
  rw [hcallers] at hlinks
  obtain _ | ⟨⟨d, heldd⟩, _ | ⟨d', l⟩⟩ := l
  · exact absurd rfl hlinks.ne_nil
  swap
  · exact hlinks.elim
  obtain ⟨hd, rfl⟩ : s.heap d = some (.detached a) ∧ heldd = [] := hlinks
  constructor
  · intro v
    have hfinish : s.finish a held (some d) (running.map fun c => c.1.1) (.inl v) =
        { s.destroy (a :: held ++ [d]) with stack := running.map fun c => c.1.1 } := by
      simp only [State.finish, hd]
    have hlive : Live s.heap ((a :: held ++ [d]) ++ frames running waiting) := by
      simpa [Chain.frames, below] using h.live
    have hothers : Rest (fun x => if x ∈ a :: held ++ [d] then none else s.heap x) running waiting
        rest t.waiting := h.others.congr _ hlive fun x _ hx => if_neg hx
    show Drawn (s.finish a held (some d) (running.map fun c => c.1.1) (.inl v)) _ _ _
    rw [hfinish, destroy_eq hlive]
    exact ⟨h.drawn.terminated, h.drawn.sound, rfl, h.drawn.handles, hothers, hlive.destroy⟩
  · intro e
    have hfinish : s.finish a held (some d) (running.map fun c => c.1.1) (.inr e) =
        { s with terminated := true } := by
      simp only [State.finish, hd]
    show Drawn (s.finish a held (some d) (running.map fun c => c.1.1) (.inr e)) _ _ _
    rw [hfinish]
    exact drawn_terminated h.drawn

variable [DecidableEq ω]

omit [DecidableEq α] in
/-- The first stored handle for `op` is that of the first thread that waits for it. -/
theorem find_waiting {heap : α → Option (Frame α β ν ξ ω)} {ws : List (Waiting β ν ξ ω)} {op : ω}
    (h : List.Forall₂ (WaitsIn heap) waiting ws) (hmem : op ∈ ws.map Waiting.op) :
    ∃ w x, WaitsIn heap w x ∧ waiting.find? (fun w => w.1 = op) = some w ∧
      ws.find? (fun x => x.op = op) = some x ∧
      List.Forall₂ (WaitsIn heap) (waiting.eraseP fun w => w.1 = op)
        (ws.eraseP fun x => x.op = op) ∧
      waiting.Perm (w :: waiting.eraseP fun w => w.1 = op) := by
  induction h with
  | nil => simp at hmem
  | @cons w x waiting ws hwx hrest ih =>
    by_cases hop : x.op = op
    · have hw : w.1 = op := hwx.1.trans hop
      exact ⟨w, x, hwx, by simp [hw], by simp [hop], by simpa [hw, hop] using hrest,
        by simp [hw]⟩
    · have hw : w.1 ≠ op := fun heq => hop (hwx.1.symm.trans heq)
      obtain ⟨w', x', hwx', hfind, hfind', herase, hperm⟩ := ih (by
        rw [List.map_cons, List.mem_cons] at hmem
        exact hmem.resolve_left fun heq => hop heq.symm)
      refine ⟨w', x', hwx', by simp [hw, hfind], by simp [hop, hfind'], ?_, ?_⟩
      · simpa [hw, hop] using ⟨hwx, herase⟩
      · have hcons : (w :: waiting).eraseP (fun w => w.1 = op) =
            w :: waiting.eraseP fun w => w.1 = op := by simp [hw]
        rw [hcons]
        exact (hperm.cons w).trans (List.Perm.swap ..)

theorem drawn_resume (h : Drawn s t running waiting) {op : ω} (hwaits : CallStacks.Waits t op)
    (v : ν) : ∃ running' waiting', Drawn (s.resume op v) (t.resume op v) running' waiting' := by
  obtain ⟨⟨op', c⟩, x, ⟨-, hx⟩, hfind, hfind', herase, hperm⟩ :=
    find_waiting h.threads.waits hwaits
  have hhandle : s.handles.find? (fun h => h.1 = op) = some (op', c.1.1) := by
    rw [h.handles, List.find?_map]
    exact congrArg (Option.map fun w : ω × Chain α => (w.1, w.2.1.1)) hfind
  have hresume : s.resume op v =
      { s.store c.1.1 (.task c.continuation c.1.2 (.at (x.resume v))) with
        stack := c.1.1 :: s.stack, handles := s.handles.eraseP fun h => h.1 = op } := by
    simp only [State.resume, hhandle, hx.top]
  have hresume' : t.resume op v = { t with
      running := ⟨x.resume v, x.callers⟩ :: t.running
      waiting := t.waiting.eraseP fun x => x.op = op } := by
    simp only [CallStacks.State.resume, hfind']
  have hlive : Live s.heap (c.frames ++ frames running (waiting.eraseP fun w => w.1 = op)) := by
    have hframes := ((hperm.map Prod.snd).append_left running).trans List.perm_middle
    exact h.live.perm (hframes.flatMap_right Chain.frames)
  have hothers : Rest (s.store c.1.1 (.task c.continuation c.1.2 (.at (x.resume v)))).heap running
      (waiting.eraseP fun w => w.1 = op) t.running (t.waiting.eraseP fun x => x.op = op) := by
    refine Rest.congr ⟨h.threads.runs, herase⟩ _ hlive fun y _ hy => ?_
    refine Function.update_of_ne ?_ ..
    rintro rfl
    exact hy List.mem_cons_self
  have hnodup := (List.nodup_cons.mp (List.nodup_append.mp hlive.nodup).1).1
  refine ⟨c :: running, waiting.eraseP fun w => w.1 = op, ?_⟩
  rw [hresume, hresume']
  refine ⟨h.terminated, h.sound, congrArg (c.1.1 :: ·) h.stack, ?_,
    ⟨.cons ⟨Function.update_self .., hx.callers.congr fun y hy => ?_⟩ hothers.runs,
      hothers.waits⟩,
    hlive.store (List.mem_append_left _ List.mem_cons_self) _⟩
  · show s.handles.eraseP _ = _
    rw [h.handles, List.eraseP_map]
    rfl
  · refine Function.update_of_ne ?_ ..
    rintro rfl
    exact hnodup hy

variable {step : β → Action β ν ξ ω} {keeps : β → Bool}

omit [DecidableEq α] [DecidableEq ω] in
theorem handles_ops (h : Drawn s t running waiting) :
    s.handles.map Prod.fst = t.waiting.map Waiting.op := by
  have hops : List.Forall₂ (fun w x => w.1 = x.op) waiting t.waiting :=
    h.threads.waits.imp fun _ _ hwx => hwx.1
  rw [h.handles, List.map_map]
  exact List.forall₂_eq_eq_eq ▸ (List.forall₂_map_left_iff.mpr
    (List.forall₂_map_right_iff.mpr hops))

omit [DecidableEq α] [DecidableEq ω] in
theorem waits_iff (h : Drawn s t running waiting) (op : ω) :
    Waits s op ↔ CallStacks.Waits t op := by
  rw [Waits, handles_ops h, CallStacks.Waits]

theorem drawn_run (h : Top s t c running waiting th rest) {a a' : α} (hfree : Free s a a')
    (hcan : CallStacks.CanRun t (step th.body)) (keeps : Bool) :
    ∃ running' waiting', Drawn
      (s.run c.1.1 (running.map fun c => c.1.1) c.continuation c.1.2 keeps a a' (step th.body))
      (t.run th rest (step th.body)) running' waiting' := by
  have hlive : s.heap c.1.1 ≠ none := by
    rw [h.runs.top]
    exact Option.some_ne_none _
  cases hstep : step th.body with
  | goesOn b => exact ⟨_, _, drawn_goesOn h b⟩
  | returns v =>
    cases hcallers : th.callers with
    | nil =>
      have hroot := (drawn_finish_root h hcallers).1 v
      simp only [State.run, CallStacks.State.run, CallStacks.State.finish, hcallers]
      exact ⟨_, _, hroot⟩
    | cons k callers =>
      obtain ⟨running', hdrawn⟩ := drawn_finish h (r := .inl v) hcallers
      simp only [State.run, CallStacks.State.run, CallStacks.State.finish, hcallers]
      exact ⟨_, _, hdrawn⟩
  | throws e =>
    cases hcallers : th.callers with
    | nil =>
      have hroot := (drawn_finish_root h hcallers).2 e
      simp only [State.run, CallStacks.State.run, CallStacks.State.finish, hcallers]
      exact ⟨_, _, hroot⟩
    | cons k callers =>
      obtain ⟨running', hdrawn⟩ := drawn_finish h (r := .inr e) hcallers
      simp only [State.run, CallStacks.State.run, CallStacks.State.finish, hcallers]
      exact ⟨_, _, hdrawn⟩
  | calls callee k => exact ⟨_, _, drawn_calls h hfree.1 callee keeps k⟩
  | suspends op k => exact ⟨_, _, drawn_suspends h op k⟩
  | spawns task k =>
    have hfree' : Free (s.store c.1.1 (.task c.continuation c.1.2 (.at k))) a a' :=
      ⟨free_store hfree.1 hlive _, free_store hfree.2.1 hlive _, hfree.2.2⟩
    exact ⟨_, _, drawn_spawn (drawn_goesOn h k) hfree' task⟩
  | resumes op v k =>
    rw [hstep] at hcan
    exact drawn_resume (drawn_goesOn h k) hcan v
  | aborts => exact ⟨_, _, drawn_terminated h.drawn⟩

def Event.thread : Event α β ν ω → CallStacks.Event β ν ω
  | .run _ _ => .run
  | .spawn task _ _ => .spawn task
  | .resume op v => .resume op v

omit [DecidableEq α] [DecidableEq ω] in
theorem running_nil_iff (h : Drawn s t running waiting) : s.stack = [] ↔ t.running = [] := by
  rw [h.stack, List.map_eq_nil_iff]
  have hruns := h.threads.runs
  constructor
  · rintro rfl
    exact List.forall₂_nil_left_iff.mp hruns
  · intro hnil
    rw [hnil] at hruns
    exact List.forall₂_nil_right_iff.mp hruns

omit [DecidableEq α] [DecidableEq ω] in
theorem canRun_iff (h : Drawn s t running waiting) :
    CanRun step s ↔ ∃ th rest, t.running = th :: rest ∧ CallStacks.CanRun t (step th.body) := by
  cases ht : t.running with
  | nil =>
    have hstack := (running_nil_iff h).mpr ht
    simp [CanRun, hstack]
  | cons th rest =>
    obtain ⟨c, running', rfl, htop⟩ := h.top ht
    have hcan : CanRun step s ↔ CallStacks.CanRun t (step th.body) := by
      simp only [CanRun, htop.stack, htop.runs.top]
      cases step th.body with
      | resumes op v k => exact waits_iff h op
      | _ => exact Iff.rfl
    rw [hcan]
    constructor
    · exact fun hcan => ⟨th, rest, rfl, hcan⟩
    · rintro ⟨th', rest', heq, hcan⟩
      obtain ⟨rfl, rfl⟩ := List.cons.inj heq
      exact hcan

omit [DecidableEq α] [DecidableEq ω] in
theorem enabled_thread [DecidableEq ω] (h : Drawn s t running waiting) {e : Event α β ν ω}
    (he : Enabled step s e) : CallStacks.Enabled step t e.thread := by
  cases e with
  | run a a' =>
    obtain ⟨hgoes, hcan, -⟩ := he
    exact ⟨h.terminated ▸ hgoes, (canRun_iff h).mp hcan⟩
  | spawn task a a' => exact ⟨h.terminated ▸ he.1, (running_nil_iff h).mp he.2.1⟩
  | resume op v =>
    exact ⟨h.terminated ▸ he.1, (running_nil_iff h).mp he.2.1, (waits_iff h op).mp he.2.2⟩

theorem drawn_step (h : Drawn s t running waiting) {e : Event α β ν ω} (he : Enabled step s e) :
    ∃ running' waiting',
      Drawn (next step keeps s e) (CallStacks.next step t e.thread) running' waiting' := by
  cases e with
  | run a a' =>
    obtain ⟨-, hcan, hfree⟩ := he
    obtain ⟨th, rest, ht, hcan⟩ := (canRun_iff h).mp hcan
    obtain ⟨c, running', rfl, htop⟩ := h.top ht
    simp only [next, Event.thread, CallStacks.next, htop.stack, htop.runs.top, ht]
    exact drawn_run htop hfree hcan (keeps th.body)
  | spawn task a a' =>
    have hdrawn := drawn_spawn h he.2.2 task
    rw [(running_nil_iff h).mp he.2.1] at hdrawn
    exact ⟨_, _, hdrawn⟩
  | resume op v => exact drawn_resume h ((waits_iff h op).mp he.2.2) v

omit [DecidableEq α] [DecidableEq ω] in
theorem drawn_initial : Drawn (initial : State α β ν ξ ω) CallStacks.initial [] [] :=
  ⟨rfl, rfl, rfl, rfl, ⟨.nil, .nil⟩, ⟨List.nodup_nil, by simp [initial, frames]⟩⟩

theorem drawn_of_run {s₀ : State α β ν ξ ω} {t₀ : CallStacks.State β ν ξ ω}
    {K : CallStacks.Event β ν ω → Prop} (h₀ : Drawn s₀ t₀ running waiting)
    (hs : Run (machine step keeps) (fun _ e => K e.thread) s₀ s) :
    ∃ t running waiting, Run (CallStacks.machine step) (fun _ e => K e) t₀ t ∧
      Drawn s t running waiting := by
  refine hs.invariant (I := fun s => ∃ t running waiting,
    Run (CallStacks.machine step) (fun _ e => K e) t₀ t ∧
      Drawn s t running waiting) ⟨_, _, _, .refl, h₀⟩ ?_
  rintro u e ⟨t, running, waiting, ht, hdrawn⟩ he hk
  obtain ⟨running', waiting', hdrawn'⟩ := drawn_step hdrawn he
  have hcan : (CallStacks.machine step).Enabled t e.thread := enabled_thread hdrawn he
  exact ⟨_, running', waiting', .tail ht hcan hk, hdrawn'⟩

def FreeFor (s : State α β ν ξ ω) : Event α β ν ω → Prop
  | .run a a' | .spawn _ a a' => Free s a a'
  | .resume _ _ => True

omit [DecidableEq α] in
theorem enabled_iff (h : Drawn s t running waiting) {e : Event α β ν ω} (hfree : FreeFor s e) :
    Enabled step s e ↔ CallStacks.Enabled step t e.thread := by
  refine ⟨enabled_thread h, fun he => ?_⟩
  cases e with
  | run a a' => exact ⟨h.terminated.trans he.1, (canRun_iff h).mpr he.2, hfree⟩
  | spawn task a a' =>
    exact ⟨h.terminated.trans he.1, (running_nil_iff h).mpr he.2, hfree⟩
  | resume op v =>
    exact ⟨h.terminated.trans he.1, (running_nil_iff h).mpr he.2.1, (waits_iff h op).mpr he.2.2⟩

/-- The frames of the bodies that have not ended, and those of the `spawn`s. -/
def depth (t : CallStacks.State β ν ξ ω) : ℕ :=
  (t.running.map fun th => th.callers.length + 2).sum +
    (t.waiting.map fun w => w.callers.length + 2).sum

omit [DecidableEq α] [DecidableEq ω] in
theorem sum_length {γ δ : Type*} {R : γ → δ → Prop} {f : γ → ℕ} {g : δ → ℕ} {l : List γ}
    {u : List δ} (h : List.Forall₂ R l u) (hsame : ∀ x y, R x y → f x = g y) :
    (l.map f).sum = (u.map g).sum := by
  induction h with
  | nil => rfl
  | cons hxy _ ih => simp [hsame _ _ hxy, ih]

omit [DecidableEq α] [DecidableEq ω] in
theorem related {γ δ : Type*} {R : γ → δ → Prop} {l : List γ} {u : List δ}
    (h : List.Forall₂ R l u) {x : γ} (hx : x ∈ l) : ∃ y, R x y := by
  induction h with
  | nil => exact absurd hx List.not_mem_nil
  | cons hxy _ ih =>
    rcases List.mem_cons.mp hx with rfl | hx
    · exact ⟨_, hxy⟩
    · exact ih hx

def Chain.active (c : Chain α) : List α := c.1.1 :: c.2.map Prod.fst

def Chain.held (c : Chain α) : List α := c.1.2 ++ c.2.flatMap Prod.snd

omit [DecidableEq α] [DecidableEq ω] in
theorem below_perm (l : List (α × List α)) :
    (below l).Perm (l.map Prod.fst ++ l.flatMap Prod.snd) := by
  induction l with
  | nil => exact .refl _
  | cons f l ih =>
    have htail := (ih.append_left f.2).trans (List.perm_append_comm_assoc ..)
    exact htail.cons f.1

omit [DecidableEq α] [DecidableEq ω] in
theorem frames_perm (c : Chain α) : c.frames.Perm (c.active ++ c.held) := by
  have htail := ((below_perm c.2).append_left c.1.2).trans (List.perm_append_comm_assoc ..)
  exact htail.cons c.1.1

omit [DecidableEq α] [DecidableEq ω] in
theorem flatMap_frames_perm (l : List (Chain α)) :
    (l.flatMap Chain.frames).Perm (l.flatMap Chain.active ++ l.flatMap Chain.held) := by
  induction l with
  | nil => exact .refl _
  | cons c l ih =>
    have hboth := (frames_perm c).append ih
    refine hboth.trans ?_
    simp only [List.flatMap_cons, List.append_assoc]
    exact (List.perm_append_comm_assoc ..).append_left _

def Keeps (heap : α → Option (Frame α β ν ξ ω)) (c a : α) : Prop :=
  ∃ continuation held point, heap c = some (.task continuation held point) ∧ a ∈ held

omit [DecidableEq α] [DecidableEq ω] in
theorem Links.kept {heap : α → Option (Frame α β ν ξ ω)} {a : α} {l : List (α × List α)}
    {callers : List (ν ⊕ ξ → β)} (h : Links heap a l callers) :
    ∀ f ∈ l, ∀ x ∈ f.2, Keeps heap f.1 x := by
  fun_induction Links heap a l callers with
  | case1 a d =>
    intro f hf x hx
    rw [List.mem_singleton.mp hf, h.2] at hx
    exact absurd hx List.not_mem_nil
  | case2 a c c' l k callers ih =>
    obtain ⟨⟨keeps, hc⟩, hrest⟩ := h
    intro f hf x hx
    rcases List.mem_cons.mp hf with rfl | hf
    · exact ⟨_, _, _, hc, hx⟩
    · exact ih hrest f hf x hx
  | case3 => exact h.elim

omit [DecidableEq α] [DecidableEq ω] in
theorem Holds.kept {heap : α → Option (Frame α β ν ξ ω)} {point : Point α β ν ξ ω}
    {callers : List (ν ⊕ ξ → β)} (h : Holds heap c point callers) :
    ∀ x ∈ c.held, Ended heap x ∧ ∃ a ∈ c.active, Keeps heap a x := by
  intro x hx
  rcases List.mem_append.mp hx with hx | hx
  · exact ⟨h.callers.ended c.1 List.mem_cons_self x hx, c.1.1, List.mem_cons_self, _, _, _,
      h.top, hx⟩
  · obtain ⟨f, hf, hx⟩ := List.mem_flatMap.mp hx
    exact ⟨h.callers.ended f (List.mem_cons_of_mem _ hf) x hx, f.1,
      List.mem_cons_of_mem _ (List.mem_map_of_mem hf), h.callers.links.kept f hf x hx⟩

omit [DecidableEq α] [DecidableEq ω] in
theorem Holds.active_length {heap : α → Option (Frame α β ν ξ ω)} {point : Point α β ν ξ ω}
    {callers : List (ν ⊕ ξ → β)} (h : Holds heap c point callers) :
    c.active.length = callers.length + 2 := by
  rw [Chain.active, List.length_cons, List.length_map, h.callers.links.length]

omit [DecidableEq α] [DecidableEq ω] in
theorem active_length (h : Drawn s t running waiting) :
    ((running ++ waiting.map Prod.snd).flatMap Chain.active).length = depth t := by
  have hruns := sum_length (f := fun c => c.active.length)
    (g := fun th => th.callers.length + 2) h.threads.runs fun _ _ hc => hc.active_length
  have hwaits := sum_length (f := fun w => w.2.active.length)
    (g := fun w => w.callers.length + 2) h.threads.waits fun _ _ hw => hw.2.active_length
  rw [depth, ← hruns, ← hwaits, List.length_flatMap, List.map_append, List.sum_append,
    List.map_map]
  rfl

omit [DecidableEq α] [DecidableEq ω] in
theorem Drawn.holds (h : Drawn s t running waiting) :
    ∀ c ∈ running ++ waiting.map Prod.snd, ∃ point callers, Holds s.heap c point callers := by
  intro c hc
  rcases List.mem_append.mp hc with hc | hc
  · obtain ⟨th, hth⟩ := related h.threads.runs hc
    exact ⟨_, _, hth⟩
  · obtain ⟨w, hw, rfl⟩ := List.mem_map.mp hc
    obtain ⟨x, hx⟩ := related h.threads.waits hw
    exact ⟨_, _, hx.2⟩

/-- What is in memory: the frames of the bodies that have not ended, with those of the `spawn`s,
and the ended tasks that these keep in variables. -/
structure Memory (s : State α β ν ξ ω) (t : CallStacks.State β ν ξ ω) (active held : List α) :
    Prop where
  live : Live s.heap (active ++ held)
  length : active.length = depth t
  kept : ∀ x ∈ held, Ended s.heap x ∧ ∃ a ∈ active, Keeps s.heap a x

omit [DecidableEq α] [DecidableEq ω] in
theorem Drawn.memory (h : Drawn s t running waiting) : ∃ active held, Memory s t active held := by
  refine ⟨_, _, h.live.perm (flatMap_frames_perm _), active_length h, fun x hx => ?_⟩
  obtain ⟨c, hc, hx⟩ := List.mem_flatMap.mp hx
  obtain ⟨point, callers, hholds⟩ := h.holds c hc
  obtain ⟨hended, a, ha, hkeeps⟩ := hholds.kept x hx
  exact ⟨hended, a, List.mem_flatMap.mpr ⟨c, hc, ha⟩, hkeeps⟩

/-- The frames in memory are the threads: no frame is used or destroyed that is not there, a call
takes no room on the stack, and the two go on in the same ways. -/
structure Refines (step : β → Action β ν ξ ω) (s : State α β ν ξ ω)
    (t : CallStacks.State β ν ξ ω) : Prop where
  sound : s.broken = false
  terminated : s.terminated = t.terminated
  stack : s.stack.length = t.running.length
  handles : s.handles.map Prod.fst = t.waiting.map Waiting.op
  memory : ∃ active held, Memory s t active held
  body : ∀ th rest, t.running = th :: rest →
    ∃ a c held, s.stack.head? = some a ∧ s.heap a = some (.task c held (.at th.body))
  steps : ∀ e, FreeFor s e → (Enabled step s e ↔ CallStacks.Enabled step t e.thread)

/-- Whatever the bodies do and wherever the allocator puts their frames. -/
theorem tasks_refine_threads (step : β → Action β ν ξ ω) (keeps : β → Bool)
    (hs : Reachable (machine step keeps) (initial : State α β ν ξ ω) s) :
    (∃ t, Reachable (CallStacks.machine step) CallStacks.initial t ∧ Refines step s t) ∧
      (s.stack = [] → s.handles = [] → ∀ a, s.heap a = none) := by
  obtain ⟨t, running, waiting, ht, h⟩ :=
    drawn_of_run (K := fun _ => True) drawn_initial (hs.mono fun _ _ _ _ => trivial)
  refine ⟨⟨t, ht.reachable, h.sound, h.terminated, ?_, handles_ops h, h.memory,
    fun th rest hth => ?_, fun e hfree => enabled_iff h hfree⟩, fun hstack hhandles a => ?_⟩
  · rw [h.stack, List.length_map, h.threads.runs.length_eq]
  · obtain ⟨c, running', rfl, htop⟩ := h.top hth
    exact ⟨c.1.1, c.continuation, c.1.2, by rw [htop.stack]; rfl, htop.runs.top⟩
  · rw [h.stack, List.map_eq_nil_iff] at hstack
    rw [h.handles, List.map_eq_nil_iff] at hhandles
    by_contra hne
    have hmem := (h.live.iff a).mp hne
    rw [hstack, hhandles] at hmem
    simp [frames] at hmem

section Ending

variable {R I : β → Prop}

def RunsAt (s : State α β ν ξ ω) (b : β) : Prop :=
  ∃ a c held, s.stack.head? = some a ∧ s.heap a = some (.task c held (.at b))

omit [DecidableEq α] [DecidableEq ω] in
theorem runsAt_iff (h : Drawn s t running waiting) (b : β) :
    RunsAt s b ↔ ∃ th rest, t.running = th :: rest ∧ th.body = b := by
  constructor
  · rintro ⟨a, continuation, held, hstack, ha⟩
    cases ht : t.running with
    | nil => simp [(running_nil_iff h).mpr ht] at hstack
    | cons th rest =>
      obtain ⟨c, running', rfl, htop⟩ := h.top ht
      rw [htop.stack] at hstack
      obtain rfl := Option.some.inj hstack
      have hpoint := Option.some.inj (htop.runs.top.symm.trans ha)
      exact ⟨th, rest, rfl, Point.at.inj (Frame.task.inj hpoint).2.2⟩
  · rintro ⟨th, rest, ht, rfl⟩
    obtain ⟨c, running', rfl, htop⟩ := h.top ht
    exact ⟨c.1.1, c.continuation, c.1.2, by rw [htop.stack]; rfl, htop.runs.top⟩

/-- Which steps end the process: an exception that comes out of the first body of a thread, or one
that may not come out of where it is thrown. -/
theorem process_ends_iff (L : Layered step R I) (hapart : ∀ b, R b → ¬ I b)
    {s₀ : State α β ν ξ ω} {t₀ : CallStacks.State β ν ξ ω} {K : CallStacks.Event β ν ω → Prop}
    (hK : ∀ e, K e → SpawnsIn R e) (h₀ : Drawn s₀ t₀ running waiting) (hplaced : Placed R I t₀)
    (hs : Run (machine step keeps) (fun _ e => K e.thread) s₀ s) {e : Event α β ν ω}
    (he : Enabled step s e) : (next step keeps s e).terminated = true ↔
      ∃ b, RunsAt s b ∧ Fatal step R b := by
  obtain ⟨t, running, waiting, ht, h⟩ := drawn_of_run h₀ hs
  have hnext : (next step keeps s e).terminated =
      (CallStacks.next step t e.thread).terminated := by
    obtain ⟨running', waiting', h'⟩ := drawn_step h he
    exact h'.terminated
  have hplaced' := placed_of_run L hplaced (ht.mono fun _ e _ => hK e)
  rw [hnext, terminates_iff hplaced' hapart (enabled_thread h he)]
  simp only [runsAt_iff h]
  constructor
  · rintro ⟨th, rest, hth, hfatal⟩
    exact ⟨th.body, ⟨th, rest, hth, rfl⟩, hfatal⟩
  · rintro ⟨b, ⟨th, rest, hth, rfl⟩, hfatal⟩
    exact ⟨th, rest, hth, hfatal⟩

end Ending

section Lasting

variable {A : β → Prop} {d a : α}

/-- Whatever the body of the frame is given, it goes on in `A`. -/
def Stands (A : β → Prop) : Point α β ν ξ ω → Prop
  | .at b => A b
  | .awaiting _ _ k => ∀ r, A (k r)
  | .suspended _ k => ∀ v, A (k v)
  | .finished _ => False

/-- The frame at `a` is that of a task of `d` whose body is in `A`. -/
def Lasts (heap : α → Option (Frame α β ν ξ ω)) (A : β → Prop) (d a : α) : Prop :=
  ∃ held point, heap a = some (.task (some d) held point) ∧ Stands A point

omit [DecidableEq ω] in
theorem Lasts.store (h : Lasts s.heap A d a) {x : α} (hx : x ≠ a) (f : Frame α β ν ξ ω) :
    Lasts (s.store x f).heap A d a := by
  obtain ⟨held, point, ha, hstands⟩ := h
  exact ⟨held, point, (Function.update_of_ne hx.symm ..).trans ha, hstands⟩

omit [DecidableEq ω] in
theorem Lasts.moves (h : Lasts s.heap A d a) {x : α} {c : Option α} {held : List α}
    {point : Point α β ν ξ ω} (hx : s.heap x = some (.task c held point)) (held' : List α)
    (point' : Point α β ν ξ ω) (hnext : Stands A point → Stands A point') :
    Lasts (s.store x (.task c held' point')).heap A d a := by
  by_cases hxa : x = a
  · subst hxa
    obtain ⟨held'', point'', ha, hstands⟩ := h
    obtain ⟨rfl, rfl, rfl⟩ := Frame.task.inj (Option.some.inj (hx.symm.trans ha))
    exact ⟨held', point', Function.update_self .., hnext hstands⟩
  · exact h.store hxa _

omit [DecidableEq ω] in
theorem Lasts.destroy (h : Lasts s.heap A d a) {l : List α} (ha : a ∉ l) :
    Lasts (s.destroy l).heap A d a := by
  obtain ⟨held, point, heq, hstands⟩ := h
  unfold State.destroy
  split
  · exact ⟨held, point, (if_neg ha).trans heq, hstands⟩
  · exact ⟨held, point, heq, hstands⟩

omit [DecidableEq α] [DecidableEq ω] in
theorem Lasts.not_ended (h : Lasts s.heap A d a) : ¬ Ended s.heap a := by
  rintro ⟨c, held, r, hended⟩
  obtain ⟨held', point, ha, hstands⟩ := h
  obtain ⟨-, -, rfl⟩ := Frame.task.inj (Option.some.inj (ha.symm.trans hended))
  exact hstands

theorem Lasts.resume (h : Lasts s.heap A d a) (op : ω) (v : ν) :
    Lasts (s.resume op v).heap A d a := by
  unfold State.resume
  split
  · next x hfind =>
    split
    · next c held op' k hx => exact h.moves hx held (.at (k v)) fun hall => hall v
    · exact h
  · exact h

omit [DecidableEq α] [DecidableEq ω] in
theorem Lasts.ne (h : Lasts s.heap A d a) {b : α} (hfree : s.heap b = none) : b ≠ a := by
  rintro rfl
  obtain ⟨held, point, ha, -⟩ := h
  simp [hfree] at ha

omit [DecidableEq ω] in
theorem Lasts.spawn (h : Lasts s.heap A d a) {b b' : α} (hfree : Free s b b') (task : β) :
    Lasts (s.spawn task b b').heap A d a :=
  (h.store (h.ne hfree.1) _).store (h.ne hfree.2.1) _

omit [DecidableEq ω] in
theorem Lasts.finish (h : Lasts s.heap A d a) {x : α} (hx : x ≠ a) {held : List α}
    (hended : ∀ y ∈ held, Ended s.heap y) (c : Option α) (rest : List α) (r : ν ⊕ ξ) :
    Lasts (s.finish x held c rest r).heap A d a := by
  have hnot : a ∉ x :: held := by
    intro hmem
    rcases List.mem_cons.mp hmem with rfl | hmem
    · exact hx rfl
    · exact h.not_ended (hended a hmem)
  cases c with
  | none => exact h.store hx _
  | some c =>
    simp only [State.finish]
    split
    · next continuation held' task keeps k hc =>
      split
      · exact (h.moves hc _ (.at (k r)) fun hall => hall r).store hx _
      · exact (h.moves hc _ (.at (k r)) fun hall => hall r).destroy hnot
    · next task hc =>
      have hca : a ≠ c := by
        rintro rfl
        obtain ⟨held', point, ha, -⟩ := h
        simp [hc] at ha
      cases r with
      | inl v => exact h.destroy (by simpa [hca] using hnot)
      | inr e => exact h
    · exact h

/-- The first body of a thread, where it does not return, keeps its frame as long as the process
lives. -/
theorem lasts_step (lasting : ∀ b, A b → Continues A (step b)) (h : Drawn s t running waiting)
    (hroot : ∀ th ∈ t.running, A th.body → th.callers = []) (hlasts : Lasts s.heap A d a)
    {e : Event α β ν ω} (he : Enabled step s e)
    (halive : (next step keeps s e).terminated = false) :
    Lasts (next step keeps s e).heap A d a := by
  cases e with
  | run b b' =>
    obtain ⟨-, hcan, hfree⟩ := he
    obtain ⟨th, rest, ht, -⟩ := (canRun_iff h).mp hcan
    obtain ⟨c, running', rfl, htop⟩ := h.top ht
    have htask := htop.runs.top
    have hended := htop.runs.callers.ended c.1 List.mem_cons_self
    have hother {r : ν ⊕ ξ} (hno : ¬ A th.body) : Lasts (s.finish c.1.1 c.1.2 c.continuation
        (running'.map fun c => c.1.1) r).heap A d a := by
      refine hlasts.finish ?_ hended _ _ r
      rintro rfl
      obtain ⟨held, point, ha, hstands⟩ := hlasts
      obtain ⟨-, -, rfl⟩ := Frame.task.inj (Option.some.inj (ha.symm.trans htask))
      exact hno hstands
    have hlive : s.heap c.1.1 ≠ none := htask ▸ Option.some_ne_none _
    have hgoes := lasting th.body
    simp only [next, htop.stack, htask] at halive ⊢
    cases hstep : step th.body with
    | goesOn b'' =>
      rw [hstep] at hgoes
      exact hlasts.moves htask _ (.at b'') hgoes
    | returns v =>
      rw [hstep] at hgoes
      exact hother hgoes
    | throws err =>
      refine hother fun hbody => ?_
      have hnil := hroot th (ht ▸ List.mem_cons_self) hbody
      have hends := ((drawn_finish_root htop hnil).2 err).terminated
      rw [hstep] at halive
      exact absurd (halive.symm.trans hends) (by simp)
    | calls callee k =>
      rw [hstep] at hgoes
      exact (hlasts.moves htask _ (.awaiting b (keeps th.body) k) hgoes).store
        (hlasts.ne hfree.1) _
    | suspends op k =>
      rw [hstep] at hgoes
      exact hlasts.moves htask _ (.suspended op k) hgoes
    | spawns task k =>
      rw [hstep] at hgoes
      exact (hlasts.moves htask _ (.at k) hgoes).spawn
        ⟨free_store hfree.1 hlive _, free_store hfree.2.1 hlive _, hfree.2.2⟩ task
    | resumes op v k =>
      rw [hstep] at hgoes
      exact (hlasts.moves htask _ (.at k) hgoes).resume op v
    | aborts => exact hlasts
  | spawn task b b' => exact hlasts.spawn he.2.2 task
  | resume op v => exact hlasts.resume op v

theorem lasts_of_run {s₀ : State α β ν ξ ω} {t₀ : CallStacks.State β ν ξ ω}
    {K : CallStacks.Event β ν ω → Prop} (h₀ : Drawn s₀ t₀ running waiting)
    (lasting : ∀ b, A b → Continues A (step b))
    (hroot : ∀ t, Run (CallStacks.machine step) (fun _ e => K e) t₀ t →
      ∀ th ∈ t.running, A th.body → th.callers = [])
    (hlasts : Lasts s₀.heap A d a) (hs : Run (machine step keeps) (fun _ e => K e.thread) s₀ s)
    (halive : s.terminated = false) : Lasts s.heap A d a := by
  refine hs.invariant_under (I := fun s => ∃ t running waiting,
      (∀ th ∈ t.running, A th.body → th.callers = []) ∧ Drawn s t running waiting)
    (J := fun s => s.terminated = false → Lasts s.heap A d a) (fun u hu => ?_) (fun _ => hlasts)
    ?_ halive
  · obtain ⟨t, running, waiting, ht, h⟩ := drawn_of_run h₀ hu
    exact ⟨t, running, waiting, hroot t ht, h⟩
  · rintro u e ⟨t, running, waiting, hroots, hu⟩ hold he - halive
    have hgoes : u.terminated = false := by cases e <;> exact he.1
    exact lasts_step lasting hu hroots (hold hgoes) he halive

end Lasting

end Simulation

/-- A task awaits another one that it has in a variable; that one suspends and then throws, and
the first one catches it and ends. -/
def catches : ℕ → Action ℕ ℕ ℕ ℕ
  | 0 => .calls 1 fun r => if r = .inr 104 then 3 else 2
  | 1 => .suspends 7 fun v => if v = 0 then 4 else 2
  | 2 => .calls 3 fun _ => 3
  | 4 => .throws 104
  | _ => .returns 0

/-- The second `spawn` gets the addresses of frames that have been destroyed. -/
def catchesAndEnds : List (Event ℕ ℕ ℕ ℕ) :=
  [.spawn 0 10 11, .run 12 13, .run 13 14, .resume 7 0, .run 13 14, .run 13 14, .spawn 2 12 10,
    .run 11 13, .run 13 14, .run 13 14]

theorem tasks_refine_threads_through_a_catch :
    let s := runTrace (machine catches (· = 0)) initial catchesAndEnds
    s.terminated = false ∧ ∀ a, s.heap a = none := by
  intro s
  have hs : Reachable (machine catches (· = 0)) initial s :=
    reachable_of_trace catchesAndEnds (by decide +kernel)
  exact ⟨by decide +kernel, (tasks_refine_threads catches _ hs).2 (by decide +kernel)
    (by decide +kernel)⟩

end EasyioTask
