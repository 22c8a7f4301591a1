import Mathlib.Data.List.Basic
import EasyBD.TransitionRuns

/-! Threads of nested calls that suspend, spawn and resume one another on a single processor. The
code is any function that says what a body does next; a thread is a body and what its callers do
with the result. -/
namespace CallStacks

open TransitionRuns

/-- What a body does next. Whoever spawns or resumes a thread goes on when that thread suspends or
ends. -/
inductive Action (β ν ξ ω : Type*) where
  | goesOn (b : β)
  | returns (v : ν)
  | throws (e : ξ)
  | calls (callee : β) (k : ν ⊕ ξ → β)
  | suspends (op : ω) (k : ν → β)
  | spawns (task : β) (k : β)
  | resumes (op : ω) (v : ν) (k : β)
  /-- An exception inside of a function that is `noexcept`. -/
  | aborts

variable {β ν ξ ω : Type*}

/-- `callers` says what each caller does with a result, the nearest first. -/
structure Thread (β ν ξ : Type*) where
  body : β
  callers : List (ν ⊕ ξ → β)

structure Waiting (β ν ξ ω : Type*) where
  op : ω
  resume : ν → β
  callers : List (ν ⊕ ξ → β)

/-- The first thread runs; those behind it wait for it to suspend or end. -/
structure State (β ν ξ ω : Type*) where
  running : List (Thread β ν ξ)
  waiting : List (Waiting β ν ξ ω)
  terminated : Bool

def initial : State β ν ξ ω := ⟨[], [], false⟩

/-- `spawn` and `resume` come from outside of all threads. -/
inductive Event (β ν ω : Type*) where
  | run
  | spawn (task : β)
  | resume (op : ω) (v : ν)

variable [DecidableEq ω]

namespace State

def resume (s : State β ν ξ ω) (op : ω) (v : ν) : State β ν ξ ω :=
  match s.waiting.find? fun w => w.op = op with
  | some w =>
    { s with
      running := ⟨w.resume v, w.callers⟩ :: s.running
      waiting := s.waiting.eraseP fun w => w.op = op }
  | none => s

/-- A result goes to the caller. An exception without a caller ends everything. -/
def finish (s : State β ν ξ ω) (r : ν ⊕ ξ) (callers : List (ν ⊕ ξ → β))
    (rest : List (Thread β ν ξ)) : State β ν ξ ω :=
  match callers, r with
  | k :: callers, r => { s with running := ⟨k r, callers⟩ :: rest }
  | [], .inl _ => { s with running := rest }
  | [], .inr _ => { s with terminated := true }

def run (s : State β ν ξ ω) (t : Thread β ν ξ) (rest : List (Thread β ν ξ)) :
    Action β ν ξ ω → State β ν ξ ω
  | .goesOn b => { s with running := ⟨b, t.callers⟩ :: rest }
  | .returns v => s.finish (.inl v) t.callers rest
  | .throws e => s.finish (.inr e) t.callers rest
  | .calls callee k => { s with running := ⟨callee, k :: t.callers⟩ :: rest }
  | .suspends op k =>
    { s with running := rest, waiting := ⟨op, k, t.callers⟩ :: s.waiting }
  | .spawns task k => { s with running := ⟨task, []⟩ :: ⟨k, t.callers⟩ :: rest }
  | .resumes op v k => { s with running := ⟨k, t.callers⟩ :: rest }.resume op v
  | .aborts => { s with terminated := true }

end State

def Waits (s : State β ν ξ ω) (op : ω) : Prop := op ∈ s.waiting.map Waiting.op

def CanRun (s : State β ν ξ ω) : Action β ν ξ ω → Prop
  | .resumes op _ _ => Waits s op
  | _ => True

def Enabled (step : β → Action β ν ξ ω) (s : State β ν ξ ω) : Event β ν ω → Prop
  | .run => s.terminated = false ∧ ∃ t rest, s.running = t :: rest ∧ CanRun s (step t.body)
  | .spawn _ => s.terminated = false ∧ s.running = []
  | .resume op _ => s.terminated = false ∧ s.running = [] ∧ Waits s op

def next (step : β → Action β ν ξ ω) (s : State β ν ξ ω) : Event β ν ω → State β ν ξ ω
  | .run =>
    match s.running with
    | t :: rest => s.run t rest (step t.body)
    | [] => s
  | .spawn task => { s with running := [⟨task, []⟩] }
  | .resume op v => s.resume op v

def machine (step : β → Action β ν ξ ω) : System (State β ν ξ ω) (Event β ν ω) :=
  ⟨Enabled step, next step⟩

section Embedding

variable {γ : Type*} (here callee task : β → γ) (returned : ν → Action γ ν ξ ω)
  (thrown : ξ → Action γ ν ξ ω)

/-- The same action in a larger program: inside of `here`, which takes over what it returns or
throws. -/
def Action.within : Action β ν ξ ω → Action γ ν ξ ω
  | .goesOn b => .goesOn (here b)
  | .returns v => returned v
  | .throws e => thrown e
  | .calls b k => .calls (callee b) fun r => here (k r)
  | .suspends op k => .suspends op fun v => here (k v)
  | .spawns b k => .spawns (task b) (here k)
  | .resumes op v k => .resumes op v (here k)
  | .aborts => .aborts

variable {here callee task returned thrown}

omit [DecidableEq ω] in
theorem within_eq_aborts {x : Action β ν ξ ω} (hreturned : ∀ v, returned v ≠ .aborts)
    (hthrown : ∀ e, thrown e ≠ .aborts) :
    x.within here callee task returned thrown = .aborts ↔ x = .aborts := by
  cases x with
  | returns v => simp [Action.within, hreturned]
  | throws e => simp [Action.within, hthrown]
  | _ => simp [Action.within]

omit [DecidableEq ω] in
theorem within_ne_throws {x : Action β ν ξ ω} (hreturned : ∀ v e, returned v ≠ .throws e)
    (hthrown : ∀ e e', thrown e ≠ .throws e') (e : ξ) :
    x.within here callee task returned thrown ≠ .throws e := by
  cases x with
  | returns v => exact hreturned v e
  | throws e' => exact hthrown e' e
  | _ => simp [Action.within]

end Embedding

section Layers

variable {step : β → Action β ν ξ ω} {G R I : β → Prop} {s s₀ : State β ν ξ ω}

/-- What follows is in `G`, what is called in `I` and what is spawned in `R`. -/
def Stays (G I R : β → Prop) : Action β ν ξ ω → Prop
  | .goesOn b => G b
  | .calls callee k => I callee ∧ ∀ r, G (k r)
  | .suspends _ k => ∀ v, G (k v)
  | .spawns task k => R task ∧ G k
  | .resumes _ _ k => G k
  | .returns _ | .throws _ | .aborts => True

omit [DecidableEq ω] in
theorem stays_within {γ : Type*} {G I R : γ → Prop} {here callee task : β → γ}
    {returned : ν → Action γ ν ξ ω} {thrown : ξ → Action γ ν ξ ω} (hhere : ∀ b, G (here b))
    (hcallee : ∀ b, I (callee b)) (htask : ∀ b, R (task b))
    (hreturned : ∀ v, Stays G I R (returned v)) (hthrown : ∀ e, Stays G I R (thrown e))
    (x : Action β ν ξ ω) : Stays G I R (x.within here callee task returned thrown) := by
  cases x with
  | goesOn b => exact hhere b
  | returns v => exact hreturned v
  | throws e => exact hthrown e
  | calls b k => exact ⟨hcallee b, fun r => hhere (k r)⟩
  | suspends op k => exact fun v => hhere (k v)
  | spawns b k => exact ⟨htask b, hhere k⟩
  | resumes op v k => exact hhere k
  | aborts => trivial

/-- The first body of a thread is always in `R`, and whatever it calls in `I`. -/
structure Layered (step : β → Action β ν ξ ω) (R I : β → Prop) : Prop where
  root : ∀ b, R b → Stays R I R (step b)
  inner : ∀ b, I b → Stays I I R (step b)

def layer (R I : β → Prop) : List (ν ⊕ ξ → β) → β → Prop
  | [] => R
  | _ :: _ => I

def Stacked (R I : β → Prop) : List (ν ⊕ ξ → β) → Prop
  | [] => True
  | k :: callers => (∀ r, layer R I callers (k r)) ∧ Stacked R I callers

omit [DecidableEq ω] in
theorem Layered.stays (L : Layered step R I) {b : β} {callers : List (ν ⊕ ξ → β)}
    (h : layer R I callers b) : Stays (layer R I callers) I R (step b) := by
  cases callers with
  | nil => exact L.root b h
  | cons k callers => exact L.inner b h

structure Placed (R I : β → Prop) (s : State β ν ξ ω) : Prop where
  running : ∀ t ∈ s.running, layer R I t.callers t.body ∧ Stacked R I t.callers
  waiting : ∀ w ∈ s.waiting, (∀ v, layer R I w.callers (w.resume v)) ∧ Stacked R I w.callers

theorem placed_resume (h : Placed R I s) (op : ω) (v : ν) : Placed R I (s.resume op v) := by
  unfold State.resume
  split
  · next w hw =>
    obtain ⟨hresume, hstacked⟩ := h.waiting w (List.mem_of_find?_eq_some hw)
    refine ⟨fun t ht => ?_, fun w' hw' => h.waiting w' (List.mem_of_mem_eraseP hw')⟩
    rcases List.mem_cons.mp ht with rfl | hold
    · exact ⟨hresume v, hstacked⟩
    · exact h.running t hold
  · exact h

omit [DecidableEq ω] in
theorem placed_replace (h : Placed R I s) {t t' : Thread β ν ξ} {rest : List (Thread β ν ξ)}
    (hs : s.running = t :: rest) (hbody : layer R I t'.callers t'.body)
    (hcallers : Stacked R I t'.callers) : Placed R I { s with running := t' :: rest } := by
  refine ⟨fun u hu => ?_, h.waiting⟩
  rcases List.mem_cons.mp hu with rfl | hold
  · exact ⟨hbody, hcallers⟩
  · exact h.running u (hs ▸ List.mem_cons_of_mem t hold)

omit [DecidableEq ω] in
theorem placed_finish (h : Placed R I s) {t : Thread β ν ξ} {rest : List (Thread β ν ξ)}
    (hs : s.running = t :: rest) (r : ν ⊕ ξ) : Placed R I (s.finish r t.callers rest) := by
  have hcallers := (h.running t (hs ▸ List.mem_cons_self)).2
  cases hc : t.callers with
  | nil =>
    cases r with
    | inl v => exact ⟨fun u hu => h.running u (hs ▸ List.mem_cons_of_mem t hu), h.waiting⟩
    | inr e => exact ⟨h.running, h.waiting⟩
  | cons k callers =>
    rw [hc] at hcallers
    exact placed_replace h hs (hcallers.1 r) hcallers.2

theorem placed_run (L : Layered step R I) (h : Placed R I s) {t : Thread β ν ξ}
    {rest : List (Thread β ν ξ)} (hs : s.running = t :: rest) :
    Placed R I (s.run t rest (step t.body)) := by
  obtain ⟨hbody, hcallers⟩ := h.running t (hs ▸ List.mem_cons_self)
  have hrest : ∀ u ∈ rest, layer R I u.callers u.body ∧ Stacked R I u.callers :=
    fun u hu => h.running u (hs ▸ List.mem_cons_of_mem t hu)
  have hnext := L.stays hbody
  cases hstep : step t.body with
  | goesOn b =>
    rw [hstep] at hnext
    exact placed_replace h hs hnext hcallers
  | returns v => exact placed_finish h hs (.inl v)
  | throws e => exact placed_finish h hs (.inr e)
  | calls callee k =>
    rw [hstep] at hnext
    exact placed_replace h hs hnext.1 ⟨hnext.2, hcallers⟩
  | suspends op k =>
    rw [hstep] at hnext
    refine ⟨hrest, fun w hw => ?_⟩
    rcases List.mem_cons.mp hw with rfl | hold
    · exact ⟨hnext, hcallers⟩
    · exact h.waiting w hold
  | spawns task k =>
    rw [hstep] at hnext
    have hgoes : Placed R I { s with running := ⟨k, t.callers⟩ :: rest } :=
      placed_replace h hs hnext.2 hcallers
    refine ⟨fun u hu => ?_, h.waiting⟩
    rcases List.mem_cons.mp hu with rfl | hold
    · exact ⟨hnext.1, trivial⟩
    · exact hgoes.running u hold
  | resumes op v k =>
    rw [hstep] at hnext
    have hgoes : Placed R I { s with running := ⟨k, t.callers⟩ :: rest } :=
      placed_replace h hs hnext hcallers
    exact placed_resume hgoes op v
  | aborts => exact ⟨h.running, h.waiting⟩

def SpawnsIn (R : β → Prop) : Event β ν ω → Prop
  | .spawn task => R task
  | _ => True

theorem placed_of_run (L : Layered step R I) (h₀ : Placed R I s₀)
    (hs : Run (machine step) (fun _ e => SpawnsIn R e) s₀ s) : Placed R I s := by
  refine hs.invariant h₀ fun u e hu he hg => ?_
  cases e with
  | run =>
    obtain ⟨-, t, rest, ht, -⟩ := he
    simp only [machine, next, ht]
    exact placed_run L hu ht
  | spawn task =>
    refine ⟨fun t ht => ?_, hu.waiting⟩
    rw [List.mem_singleton.mp ht]
    exact ⟨hg, trivial⟩
  | resume op v => exact placed_resume hu op v

omit [DecidableEq ω] in
theorem Placed.root_iff (h : Placed R I s) (hapart : ∀ b, R b → ¬ I b) {t : Thread β ν ξ}
    (ht : t ∈ s.running) : R t.body ↔ t.callers = [] := by
  have hbody := (h.running t ht).1
  cases hc : t.callers with
  | nil => simpa [hc, layer] using hbody
  | cons k callers =>
    rw [hc] at hbody
    simpa using fun hroot => hapart t.body hroot hbody

def Fatal (step : β → Action β ν ξ ω) (R : β → Prop) (b : β) : Prop :=
  step b = .aborts ∨ R b ∧ ∃ e, step b = .throws e

theorem resume_terminated (s : State β ν ξ ω) (op : ω) (v : ν) :
    (s.resume op v).terminated = s.terminated := by
  unfold State.resume
  split <;> rfl

theorem run_terminated_iff (hgoes : s.terminated = false) (t : Thread β ν ξ)
    (rest : List (Thread β ν ξ)) (x : Action β ν ξ ω) :
    (s.run t rest x).terminated = true ↔ x = .aborts ∨ t.callers = [] ∧ ∃ e, x = .throws e := by
  cases x with
  | returns v => cases hc : t.callers <;> simp [State.run, State.finish, hc, hgoes]
  | throws e => cases hc : t.callers <;> simp [State.run, State.finish, hc, hgoes]
  | resumes op v k => simp [State.run, resume_terminated, hgoes]
  | _ => simp [State.run, hgoes]

theorem terminates_iff (h : Placed R I s) (hapart : ∀ b, R b → ¬ I b)
    {e : Event β ν ω} (he : Enabled step s e) :
    (next step s e).terminated = true ↔
      ∃ t rest, s.running = t :: rest ∧ Fatal step R t.body := by
  cases e with
  | run =>
    obtain ⟨hgoes, t, rest, ht, -⟩ := he
    simp only [next, ht, run_terminated_iff hgoes, Fatal,
      ← h.root_iff hapart (ht ▸ List.mem_cons_self)]
    constructor
    · exact fun hfatal => ⟨t, rest, rfl, hfatal⟩
    · rintro ⟨u, rest', heq, hfatal⟩
      rwa [(List.cons.inj heq).1]
  | spawn task => simp [next, he.1, he.2]
  | resume op v => simp [next, resume_terminated, he.1, he.2.1]

end Layers

/-- A body that neither returns nor, unless it throws, leaves `A`. -/
def Continues (A : β → Prop) : Action β ν ξ ω → Prop
  | .goesOn b => A b
  | .returns _ => False
  | .calls _ k => ∀ r, A (k r)
  | .suspends _ k => ∀ v, A (k v)
  | .spawns _ k | .resumes _ _ k => A k
  | .throws _ | .aborts => True

end CallStacks
