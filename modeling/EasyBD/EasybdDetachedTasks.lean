import EasyBD.EasyioTask

/-! The tasks that are spawned, and so have no one to take an exception of theirs: `accept_loop`,
`accept_one` and `tracked` on the server, `connect_task`, `reader_loop` and `send_request` on the
client. They are written out, with every place where memory runs out in them; what they call may
do and throw anything, or end the process inside of a `noexcept` function. -/
namespace EasybdDetachedTasks

open TransitionRuns CallStacks EasyioTask

variable {β ν ξ ω : Type*}

section Server

/-- `step` is all the code that is not written out. What it spawns, it spawns through `tracked`.
`accept_loop` goes round once for each `accept`. -/
structure ServerCode (β ν ξ ω : Type*) where
  step : β → Action β ν ξ ω
  keeps : β → Bool
  accept (round : ℕ) : β
  handleConnection (clientFd : ν) : β
  close (clientFd : ν) : β
  /-- `g_shutdown_requested`, read after a failure of `accept`. -/
  shutdown (round : ℕ) : Bool
  /-- What the allocation of the frames for `spawn(accept_one(...))` throws, if it does. -/
  noMemory (round : ℕ) : Option ξ
  /-- What `wg.done()` resumes when `t` has ended. -/
  woken (t : β) : Option (ω × ν)
  void : ν

inductive ServerBody (β ν : Type*) where
  | code (b : β)
  | acceptLoop (round : ℕ)
  | acceptFailed (round : ℕ)
  | accepted (round : ℕ) (clientFd : ν)
  | acceptOne (clientFd : ν)
  | closing (clientFd : ν)
  | tracked (t : β)
  | done (t : β)
  | ended

namespace ServerCode

variable (P : ServerCode β ν ξ ω)

def body : ServerBody β ν → Action (ServerBody β ν) ν ξ ω
  | .code b => (P.step b).within .code .code .tracked .returns .throws
  | .acceptLoop n => .calls (.code (P.accept n)) fun
    | .inl clientFd => .accepted n clientFd
    | .inr _ => .acceptFailed n
  | .acceptFailed n => if P.shutdown n then .returns P.void else .goesOn (.acceptLoop (n + 1))
  | .accepted n clientFd =>
    -- outside of the `try` block
    match P.noMemory n with
    | some e => .throws e
    | none => .spawns (.acceptOne clientFd) (.acceptLoop (n + 1))
  | .acceptOne clientFd =>
    .calls (.code (P.handleConnection clientFd)) fun _ => .closing clientFd
  | .closing clientFd => .calls (.code (P.close clientFd)) fun _ => .ended
  | .tracked t => .calls (.code t) fun _ => .done t
  | .done t =>
    match P.woken t with
    | some (op, v) => .resumes op v .ended
    | none => .returns P.void
  | .ended => .returns P.void

def holds : ServerBody β ν → Bool
  | .code b => P.keeps b
  | .tracked _ => true
  | _ => false

def Ends : ServerBody β ν → Prop
  | .code b => P.step b = .aborts
  | .accepted n _ => P.noMemory n ≠ none
  | _ => False

end ServerCode

def ServerBody.IsCode : ServerBody β ν → Prop
  | .code _ => True
  | _ => False

def Accepting : ServerBody β ν → Prop
  | .acceptLoop _ | .acceptFailed _ | .accepted _ _ => True
  | _ => False

variable {P : ServerCode β ν ξ ω}

theorem server_layered : Layered P.body (fun b => ¬ b.IsCode) ServerBody.IsCode where
  root b hb := by
    cases b with
    | code b => exact absurd trivial hb
    | acceptLoop n =>
      refine ⟨trivial, ?_⟩
      rintro (clientFd | e) <;> exact id
    | acceptFailed n =>
      simp only [ServerCode.body]
      split
      · trivial
      · exact id
    | accepted n clientFd =>
      simp only [ServerCode.body]
      split
      · trivial
      · exact ⟨id, id⟩
    | acceptOne clientFd | closing clientFd | tracked t => exact ⟨trivial, fun _ => id⟩
    | done t =>
      simp only [ServerCode.body]
      split
      · exact id
      · trivial
    | ended => trivial
  inner b hb := by
    cases b with
    | code b =>
      refine stays_within ?_ ?_ ?_ ?_ ?_ (P.step b)
      exacts [fun _ => trivial, fun _ => trivial, fun _ => id, fun _ => trivial, fun _ => trivial]
    | _ => exact hb.elim

theorem server_fatal_iff (b : ServerBody β ν) :
    Fatal P.body (fun b => ¬ b.IsCode) b ↔ P.Ends b := by
  cases b with
  | code b =>
    have haborts : P.body (.code b) = .aborts ↔ P.step b = .aborts :=
      within_eq_aborts (by simp) (by simp)
    simpa [Fatal, ServerCode.Ends, ServerBody.IsCode] using haborts
  | acceptFailed n =>
    simp only [Fatal, ServerCode.body, ServerCode.Ends]
    split <;> simp
  | accepted n clientFd =>
    cases hmemory : P.noMemory n <;>
      simp [Fatal, ServerCode.body, ServerCode.Ends, ServerBody.IsCode, hmemory]
  | done t =>
    simp only [Fatal, ServerCode.body, ServerCode.Ends]
    split <;> simp
  | _ => simp [Fatal, ServerCode.body, ServerCode.Ends]

theorem accepting_lasts (hgoes : ∀ n, P.shutdown n = false) (b : ServerBody β ν)
    (hb : Accepting b) : Continues Accepting (P.body b) := by
  cases b with
  | acceptLoop n => rintro (clientFd | e) <;> trivial
  | acceptFailed n =>
    simp only [ServerCode.body, hgoes]
    trivial
  | accepted n clientFd =>
    simp only [ServerCode.body]
    split <;> trivial
  | _ => exact hb.elim

variable {α : Type*} [DecidableEq α]

def workerStarted (d a : α) : EasyioTask.State α (ServerBody β ν) ν ξ ω :=
  EasyioTask.initial.spawn (.acceptLoop 0) d a

def threadStarted : CallStacks.State (ServerBody β ν) ν ξ ω :=
  { CallStacks.initial with running := [⟨.acceptLoop 0, []⟩] }

def OnlyResumes : CallStacks.Event (ServerBody β ν) ν ω → Prop
  | .spawn _ => False
  | _ => True

instance : ∀ e : CallStacks.Event (ServerBody β ν) ν ω, Decidable (OnlyResumes e)
  | .spawn _ => inferInstanceAs (Decidable False)
  | .run | .resume _ _ => inferInstanceAs (Decidable True)

theorem threadStarted_placed : Placed (fun b => ¬ b.IsCode) ServerBody.IsCode
    (threadStarted : CallStacks.State (ServerBody β ν) ν ξ ω) := by
  refine ⟨fun t ht => ?_, by simp [threadStarted, CallStacks.initial]⟩
  rw [List.mem_singleton.mp ht]
  exact ⟨id, trivial⟩

variable [DecidableEq ω] {d a : α} {s : EasyioTask.State α (ServerBody β ν) ν ξ ω}

/-- `handle_connection` throws, and so does the `close` after it; for a second connection there is
no memory. -/
def throwing : ServerCode ℕ ℕ ℕ ℕ where
  step
    | 0 => .suspends 0 fun _ => 1
    | 1 => .returns 5
    | b => .throws b
  keeps _ := false
  accept _ := 0
  handleConnection _ := 104
  close _ := 9
  shutdown _ := false
  noMemory round := if round = 1 then some 12 else none
  woken _ := none
  void := 0

def twoConnections : List (EasyioTask.Event ℕ (ServerBody ℕ ℕ) ℕ ℕ) :=
  [.run 2 3, .run 3 4, .resume 0 0, .run 3 4, .run 2 3, .run 4 5, .run 5 6, .run 4 5,
    .run 5 6, .run 4 5, .run 2 3, .run 3 4, .resume 0 0, .run 3 4]

end Server

section Client

/-- What `co_await lock_guard(_send_mtx)` comes to. The list of waiters grows in a `noexcept`
function. -/
inductive Lock (ω : Type*) where
  | taken
  | waits (op : ω)
  | noMemory

/-- `step` is all the code that is not written out; a callback that it invokes may make requests,
which spawns `send_request`. -/
structure ClientCode (β ν ξ ω : Type*) where
  step : β → Action β ν ξ ω
  keeps : β → Bool
  connect : β
  /-- What `recv_stream` throws, if it does. -/
  recvStream : Option ξ
  /-- The loop in the `try` block of `reader_loop`. -/
  readLoop : β
  /-- What `fail_all_pending` throws when it makes its list, after an exception at `b`. -/
  noMemory (b : β) : Option ξ
  lock (request : β) : Lock ω
  /-- The `try` block of `send_request`. -/
  send (request : β) : β
  /-- The requests that callbacks make inside the `catch` block after an exception at `b`. -/
  failed (b : β) : List β
  /-- What the guard's destructor resumes. -/
  unlock (b : β) : Option (ω × ν)
  void : ν

inductive ClientBody (β : Type*) where
  | code (b : β)
  | connectTask
  | readerLoop
  | reading (b : β)
  | failAllPending (b : β)
  | sendRequest (request : β)
  | sending (b : β)
  | failing (requests : List β) (sender : Option β)
  | release (b : β)
  | ended

namespace ClientCode

variable (P : ClientCode β ν ξ ω)

def body : ClientBody β → Action (ClientBody β) ν ξ ω
  | .code b => (P.step b).within .code .code .sendRequest .returns .throws
  | .connectTask => .calls (.code P.connect) fun _ => .ended
  | .readerLoop =>
    -- outside of the `try` block
    match P.recvStream with
    | some e => .throws e
    | none => .goesOn (.reading P.readLoop)
  | .reading b => (P.step b).within .reading .code .sendRequest .returns
      fun _ => .goesOn (.failAllPending b)
  | .failAllPending b =>
    -- inside of the `catch` block
    match P.noMemory b with
    | some e => .throws e
    | none => .goesOn (.failing (P.failed b) none)
  | .sendRequest r =>
    match P.lock r with
    | .taken => .goesOn (.sending (P.send r))
    | .waits op => .suspends op fun _ => .sending (P.send r)
    | .noMemory => .aborts
  | .sending b => (P.step b).within .sending .code .sendRequest (fun _ => .goesOn (.release b))
      fun _ => .goesOn (.failing (P.failed b) (some b))
  | .failing (r :: requests) sender => .spawns (.sendRequest r) (.failing requests sender)
  | .failing [] (some b) => .goesOn (.release b)
  | .failing [] none => .returns P.void
  | .release b =>
    match P.unlock b with
    | some (op, v) => .resumes op v .ended
    | none => .returns P.void
  | .ended => .returns P.void

def holds : ClientBody β → Bool
  | .code b | .reading b | .sending b => P.keeps b
  | _ => false

def Ends : ClientBody β → Prop
  | .code b | .reading b | .sending b => P.step b = .aborts
  | .readerLoop => P.recvStream ≠ none
  | .failAllPending b => P.noMemory b ≠ none
  | .sendRequest r => P.lock r = .noMemory
  | _ => False

end ClientCode

def ClientBody.IsCode : ClientBody β → Prop
  | .code _ => True
  | _ => False

variable {P : ClientCode β ν ξ ω}

theorem client_layered : Layered P.body (fun b => ¬ b.IsCode) ClientBody.IsCode where
  root b hb := by
    cases b with
    | code b => exact absurd trivial hb
    | connectTask => exact ⟨trivial, fun _ => id⟩
    | readerLoop | failAllPending b =>
      simp only [ClientCode.body]
      split
      · trivial
      · exact id
    | reading b =>
      refine stays_within ?_ ?_ ?_ ?_ ?_ (P.step b)
      exacts [fun _ => id, fun _ => trivial, fun _ => id, fun _ => trivial, fun _ => id]
    | sendRequest r =>
      simp only [ClientCode.body]
      split
      · exact id
      · exact fun _ => id
      · trivial
    | sending b =>
      refine stays_within ?_ ?_ ?_ ?_ ?_ (P.step b)
      exacts [fun _ => id, fun _ => trivial, fun _ => id, fun _ => id, fun _ => id]
    | failing requests sender =>
      rcases requests, sender with ⟨_ | _, _ | _⟩
      exacts [trivial, id, ⟨id, id⟩, ⟨id, id⟩]
    | release b =>
      simp only [ClientCode.body]
      split
      · exact id
      · trivial
    | ended => trivial
  inner b hb := by
    cases b with
    | code b =>
      refine stays_within ?_ ?_ ?_ ?_ ?_ (P.step b)
      exacts [fun _ => trivial, fun _ => trivial, fun _ => id, fun _ => trivial, fun _ => trivial]
    | _ => exact hb.elim

theorem client_fatal_iff (b : ClientBody β) :
    Fatal P.body (fun b => ¬ b.IsCode) b ↔ P.Ends b := by
  cases b with
  | code b =>
    have haborts : P.body (.code b) = .aborts ↔ P.step b = .aborts :=
      within_eq_aborts (by simp) (by simp)
    simpa [Fatal, ClientCode.Ends, ClientBody.IsCode] using haborts
  | readerLoop =>
    cases hstream : P.recvStream <;>
      simp [Fatal, ClientCode.body, ClientCode.Ends, ClientBody.IsCode, hstream]
  | failAllPending b =>
    cases hmemory : P.noMemory b <;>
      simp [Fatal, ClientCode.body, ClientCode.Ends, ClientBody.IsCode, hmemory]
  | reading b =>
    have haborts : P.body (.reading b) = .aborts ↔ P.step b = .aborts :=
      within_eq_aborts (by simp) (by simp)
    have hthrows : ∀ e, P.body (.reading b) ≠ .throws e := within_ne_throws (by simp) (by simp)
    simp [Fatal, ClientCode.Ends, haborts, hthrows]
  | sending b =>
    have haborts : P.body (.sending b) = .aborts ↔ P.step b = .aborts :=
      within_eq_aborts (by simp) (by simp)
    have hthrows : ∀ e, P.body (.sending b) ≠ .throws e := within_ne_throws (by simp) (by simp)
    simp [Fatal, ClientCode.Ends, haborts, hthrows]
  | sendRequest r =>
    cases hlock : P.lock r <;> simp [Fatal, ClientCode.body, ClientCode.Ends, hlock]
  | failing requests sender =>
    rcases requests, sender with ⟨_ | _, _ | _⟩ <;>
      simp [Fatal, ClientCode.body, ClientCode.Ends]
  | release b =>
    simp only [Fatal, ClientCode.body, ClientCode.Ends]
    split <;> simp
  | _ => simp [Fatal, ClientCode.body, ClientCode.Ends]

def SpawnedByApi : CallStacks.Event (ClientBody β) ν ω → Prop
  | .spawn (.connectTask) | .spawn (.readerLoop) | .spawn (.sendRequest _) => True
  | .spawn _ => False
  | _ => True

instance : ∀ e : CallStacks.Event (ClientBody β) ν ω, Decidable (SpawnedByApi e)
  | .run | .resume _ _ => inferInstanceAs (Decidable True)
  | .spawn task => by cases task <;> first | exact .isTrue trivial | exact .isFalse id

variable [DecidableEq ω]

/-- A client's process ends by an exception only in `noexcept` code, where `reader_loop` makes its
stream outside of its `try` block, and where `fail_all_pending` gets no memory inside of its
`catch` block. -/
theorem client_process_ends_iff {α : Type*} [DecidableEq α]
    {s : EasyioTask.State α (ClientBody β) ν ξ ω}
    (hs : Run (EasyioTask.machine P.body P.holds) (fun _ e => SpawnedByApi e.thread)
      EasyioTask.initial s) :
    s.broken = false ∧ ∀ e, (EasyioTask.machine P.body P.holds).Enabled s e →
      (((EasyioTask.machine P.body P.holds).next s e).terminated = true ↔
        ∃ b, RunsAt s b ∧ P.Ends b) := by
  have hspawns : ∀ e : CallStacks.Event (ClientBody β) ν ω, SpawnedByApi e →
      SpawnsIn (fun b => ¬ b.IsCode) e := by
    rintro (_ | task | _) h
    · trivial
    · cases task <;> first | exact id | exact h.elim
    · trivial
  have hplaced : Placed (fun b => ¬ b.IsCode) ClientBody.IsCode
      (CallStacks.initial : CallStacks.State (ClientBody β) ν ξ ω) := by
    constructor <;> simp [CallStacks.initial]
  obtain ⟨t, running, waiting, -, h⟩ := drawn_of_run drawn_initial hs
  refine ⟨h.sound, fun e he => ?_⟩
  have hends := process_ends_iff client_layered (fun _ hroot => hroot)
    hspawns drawn_initial hplaced hs he
  simp only [client_fatal_iff] at hends
  exact hends

def forgetful : ClientCode ℕ ℕ ℕ ℕ where
  step
    | 0 => .suspends 0 fun _ => 1
    | 1 => .throws 104
    | _ => .returns 0
  keeps _ := false
  connect := 2
  recvStream := none
  readLoop := 0
  noMemory _ := some 12
  lock _ := .taken
  send r := r
  failed _ := []
  unlock _ := none
  void := 0

def readFails : List (EasyioTask.Event ℕ (ClientBody ℕ) ℕ ℕ) :=
  [.spawn .connectTask 0 1, .run 2 3, .run 3 4, .run 3 4, .spawn .readerLoop 0 1, .run 2 3,
    .run 2 3, .spawn (.sendRequest 5) 2 3, .run 4 5, .run 4 5, .run 4 5, .resume 0 0, .run 2 3]

theorem client_process_ends_iff_no_memory :
    let s := runTrace (EasyioTask.machine forgetful.body forgetful.holds) EasyioTask.initial
      readFails
    s.broken = false ∧ s.terminated = false ∧
      ((EasyioTask.machine forgetful.body forgetful.holds).next s
        (.run 2 3)).terminated = true := by
  intro s
  have hs : Run (EasyioTask.machine forgetful.body forgetful.holds)
      (fun _ e => SpawnedByApi e.thread) EasyioTask.initial s :=
    run_of_trace readFails (by decide +kernel) (by decide +kernel)
  obtain ⟨hsound, hends⟩ := client_process_ends_iff hs
  refine ⟨hsound, by decide +kernel, ?_⟩
  refine (hends _ (by decide +kernel)).mpr ⟨.failAllPending 1, ⟨1, _, _, rfl, rfl⟩, ?_⟩
  simp [ClientCode.Ends, forgetful]

end Client

end EasybdDetachedTasks
