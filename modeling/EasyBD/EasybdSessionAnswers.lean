import EasyBD.EasybdSessionResponses

/-! What becomes of each dispatched request, and of the connection once its read loop has
ended. `tracked` swallows whatever a handler throws, and the loop does not learn of it. -/
namespace EasybdSessionAnswers

open TransitionRuns EntryLedger SerializedFrames EasybdProtocol EasyioQueue EasyioSendAll
open EasyioMutex EasyioSenders
open EasybdHandlers EasybdRequests EasybdHandleConnection EasybdSession
open EasybdSessionTasks EasybdSessionParsing EasybdSessionChannel EasybdSessionResponses

/-- What memory is needed for: the coroutine frames of a handler, or its buffer. -/
def Frame.isUnstarted : Frame → Bool
  | .spawning _ => true
  | _ => false

def Frame.isBuffering : Frame → Bool
  | .buffering _ _ => true
  | _ => false

def Frame.hasThrown : Frame → Bool
  | .returned _ none => true
  | _ => false

/-- A handler fails only after the loop has ended; a spawned handler's coroutine frames and
the SQE of the final close are always there. -/
def EndsFirst (s : State) : Event → Prop
  | .alloc ok => ∀ f ∈ s.stack.head?, ok = false →
      Frame.isUnstarted f = false ∧ (Frame.isBuffering f = true → ¬ s.Loops)
  | .perform o => o = .threw → ¬ s.Loops
  | .run => ∀ f ∈ s.stack.head?, Frame.hasThrown f = true → ¬ s.Loops
  | .close ok => ok = true
  | _ => True

instance (s : State) : (e : Event) → Decidable (EndsFirst s e)
  | .alloc ok => inferInstanceAs (Decidable (∀ f ∈ s.stack.head?, ok = false →
      Frame.isUnstarted f = false ∧ (Frame.isBuffering f = true → ¬ s.Loops)))
  | .perform o => inferInstanceAs (Decidable (o = .threw → ¬ s.Loops))
  | .run => inferInstanceAs (Decidable
      (∀ f ∈ s.stack.head?, Frame.hasThrown f = true → ¬ s.Loops))
  | .close ok => inferInstanceAs (Decidable (ok = true))
  | .received _ | .receiveFailed | .fileReady _ _ _ | .sendCall _ | .sendReady _ _
  | .complete _ _ | .reap _ _ => isTrue trivial

section Ended

variable {s s' : State} {e : Event}

@[simp] theorem loops_reply (t : Reply) : (s.reply t).Loops ↔ s.Loops := by
  unfold State.reply
  split <;> rfl

theorem not_loops_endLoop : ¬ s.endLoop.Loops := by
  unfold State.endLoop
  split <;> exact id

theorem ended_step (hp : AtOnePlace s) (step : Step s e s') (h : ¬ s.Loops) :
    ¬ s'.Loops ∧ s'.dispatched = s.dispatched := by
  have header (hat : s.readerAt = .header) : False := h (by simp [State.Loops, hat])
  cases step with
  | receivesHeader flat at_ => exact (header at_).elim
  | receivesPayload flat at_ => exact (h (by simp [State.Loops, at_])).elim
  | receiveFailed => exact ⟨not_loops_endLoop, dispatched_endLoop⟩
  | rejects => exact ⟨not_loops_endLoop, dispatched_endLoop⟩
  | notAllocated => exact ⟨not_loops_endLoop, dispatched_endLoop⟩
  | notSpawned => exact ⟨not_loops_endLoop, dispatched_endLoop⟩
  | spawnsWrite top at_ => exact (h (by simp [State.Loops, at_])).elim
  | @allocated stack req top => exact (header (hp.allocating req (by simp [top])).2).elim
  | spawnsError top => exact (header (hp.spawning _ (by rw [top]; exact List.mem_cons_self)).2).elim
  | spawned top => exact (header (hp.spawning _ (by rw [top]; exact List.mem_cons_self)).2).elim
  | performed => exact ⟨mt (loops_reply _).mp h, dispatched_reply⟩
  | fileReady => exact ⟨mt (loops_reply _).mp h, dispatched_reply⟩
  | finishesLast => exact ⟨id, rfl⟩
  | _ => exact ⟨h, rfl⟩

theorem ended_forever (hp : AtOnePlace s) (h : ¬ s.Loops) (hs : Reachable machine s s') :
    ¬ s'.Loops ∧ s'.dispatched = s.dispatched := by
  have hstay : AtOnePlace s' ∧ ¬ s'.Loops ∧ s'.dispatched = s.dispatched := by
    refine Run.invariant (I := fun u => AtOnePlace u ∧ ¬ u.Loops ∧ u.dispatched = s.dispatched) hs
      ⟨hp, h, rfl⟩ ?_
    rintro u e ⟨hu, hends, hsame⟩ he -
    have step := step_of_enabled he
    obtain ⟨hends', hsame'⟩ := ended_step hu step hends
    exact ⟨atOnePlace_step hu step, hends', hsame'.trans hsame⟩
  exact hstay.2

end Ended

section Lost

variable {s s' : State} {e : Event}

structure NoneLost (s : State) : Prop where
  lost : ∀ id, .lost id ∈ s.trace → ¬ s.Loops
  failed : ∀ t, .release t false ∈ s.stack → ¬ s.Loops

theorem lost_mem_reply {t : Reply} {id : ℕ} :
    .lost id ∈ (s.reply t).trace ↔ .lost id ∈ s.trace := by
  unfold State.reply
  split <;> simp

theorem lost_mem_taken {t : Reply} {o : SendOutcome} {trace : List Effect} {id : ℕ} :
    .lost id ∈ taken t o ++ trace ↔ .lost id ∈ trace := by
  cases o <;> simp [taken]

theorem lost_step {id : ℕ} (step : Step s e s') (h : .lost id ∈ s'.trace) :
    .lost id ∈ s.trace ∨ (∃ t, .release t false ∈ s.stack) ∨
    (∃ k stack, e = .alloc false ∧ s.stack = .buffering id k :: stack) ∨
    e = .perform .threw := by
  cases step with
  | @notBuffered stack i k top =>
    rw [List.mem_cons] at h
    rcases h with heq | hmem
    · obtain rfl := Effect.lost.inj heq
      exact Or.inr (Or.inr (Or.inl ⟨k, stack, rfl, top⟩))
    · exact Or.inl hmem
  | performThrows => exact Or.inr (Or.inr (Or.inr rfl))
  | @handsOver t sent u waiters stack top =>
    cases sent with
    | true => exact Or.inl (by simpa [State.outcome] using h)
    | false => exact Or.inr (Or.inl ⟨t, by simp [top]⟩)
  | @frees t sent stack top =>
    cases sent with
    | true => exact Or.inl (by simpa [State.outcome] using h)
    | false => exact Or.inr (Or.inl ⟨t, by simp [top]⟩)
  | spawnsError => exact Or.inl (by simpa [lost_mem_reply] using h)
  | performed => exact Or.inl (by simpa [lost_mem_reply] using h)
  | fileReady => exact Or.inl (by simpa [lost_mem_reply] using h)
  | callReturns => exact Or.inl (lost_mem_taken.mp h)
  | readyReturns => exact Or.inl (lost_mem_taken.mp h)
  | completes => exact Or.inl (lost_mem_taken.mp h)
  | _ => exact Or.inl (by simpa using h)

theorem noneLost_step (h : NoneLost s) (hp : AtOnePlace s) (g : EndsFirst s e)
    (step : Step s e s') : NoneLost s' := by
  have still (ends : ¬ s.Loops) : ¬ s'.Loops := (ended_step hp step ends).1
  constructor
  · intro id hmem
    rcases lost_step step hmem with hold | ⟨t, hfailed⟩ | ⟨k, stack, rfl, top⟩ | rfl
    · exact still (h.lost id hold)
    · exact still (h.failed t hfailed)
    · exact still ((g _ (by rw [top]; rfl) rfl).2 rfl)
    · exact still (g rfl)
  · intro t hmem
    rcases release_step step hmem with hold | ⟨hsent, -⟩ | ⟨-, rfl, stack, top, -⟩
    · exact still (h.failed t hold)
    · cases hsent
    · -- the exception has just reached the handler
      exact still (g _ (by rw [top]; rfl) rfl)

end Lost

section Closing

variable {s s' : State} {e : Event}

/-- An activation that `wg.add()` has counted: a handler, or its wrapper around it. -/
@[simp] def Frame.counted : Frame → ℕ
  | .reading | .allocating _ | .closing => 0
  | _ => 1

def counted (s : State) : ℕ :=
  s.sendMtx.waiters.length + s.files.length + s.io.length + s.cq.length +
    (s.stack.map Frame.counted).sum

theorem counted_reply (t : Reply) : counted (s.reply t) = counted s + 1 := by
  unfold State.reply
  split
  · simp only [counted, Mutex.wait, List.length_append, List.length_singleton]
    omega
  · simp only [counted, Mutex.take, List.map_cons, List.sum_cons, Frame.counted]
    omega

theorem remaining_reply (t : Reply) : (s.reply t).remaining = s.remaining := by
  unfold State.reply
  split <;> rfl

theorem counted_endLoop : counted s.endLoop = counted s := by
  unfold State.endLoop
  split
  · simp [counted]
  · rfl

theorem remaining_endLoop : s.endLoop.remaining = s.remaining := by
  unfold State.endLoop
  split <;> rfl

def FramesAllocated (s : State) : Event → Prop
  | .alloc ok => ∀ f ∈ s.stack.head?, Frame.isUnstarted f = true → ok = true
  | _ => True

instance (s : State) : (e : Event) → Decidable (FramesAllocated s e)
  | .alloc ok => inferInstanceAs (Decidable
      (∀ f ∈ s.stack.head?, Frame.isUnstarted f = true → ok = true))
  | .perform _ | .run | .close _ | .received _ | .receiveFailed | .fileReady _ _ _ | .sendCall _
  | .sendReady _ _ | .complete _ _ | .reap _ _ => isTrue trivial

theorem EndsFirst.framesAllocated (g : EndsFirst s e) : FramesAllocated s e := by
  cases e with
  | alloc ok =>
    intro f hf hunstarted
    by_contra hok
    have hstarted := (g f hf (Bool.eq_false_of_not_eq_true hok)).1
    rw [hunstarted] at hstarted
    cases hstarted
  | _ => trivial

theorem FramesAllocated.spawned {h : Handler} {stack : List Frame} {ok : Bool}
    (g : FramesAllocated s (.alloc ok)) (top : s.stack = .spawning h :: stack) : ok = true :=
  g (.spawning h) (by rw [top]; rfl) rfl

theorem counted_step (h : s.remaining = counted s) (g : FramesAllocated s e)
    (step : Step s e s') : s'.remaining = counted s' := by
  cases step with
  | notSpawned top => cases g.spawned top
  | receiveFailed => rwa [remaining_endLoop, counted_endLoop]
  | rejects top | notAllocated top =>
    rw [remaining_endLoop, counted_endLoop]
    simpa [counted, top] using h
  | spawnsError top | performed top =>
    rw [remaining_reply, counted_reply]
    simp [counted, top] at h ⊢
    omega
  | fileReady flat mem =>
    rw [remaining_reply, counted_reply]
    have hpos := List.length_pos_of_mem mem
    simp only [counted, List.length_erase_of_mem mem] at h ⊢
    omega
  | @spawned stack k top file f first =>
    rcases first with rfl | rfl
    · simpa [counted, top] using h
    · simpa [counted, top] using h
  | readyReturns flat mem | reap flat mem =>
    have hpos := List.length_pos_of_mem mem
    simp [counted, List.length_erase_of_mem mem] at h ⊢
    omega
  | completes mem =>
    have hpos := List.length_pos_of_mem mem
    simp [counted, List.length_erase_of_mem mem] at h ⊢
    omega
  | handsOver top waiting =>
    simp [counted, top, waiting] at h ⊢
    omega
  | receivesHeader flat | receivesPayload flat => simpa [counted, flat] using h
  | stillBlocked => exact h
  | awaitsHeader top | allocates top | spawns top | awaitsPayload top | spawnsWrite top
  | readsNothing top | allocated top | buffered top | notBuffered top | performs top
  | performThrows top | callBlocks top | callReturns top
  | sendsOn top | sent top | sendThrows top | frees top | finishes top | finishesLast top
  | closes top =>
    simp [counted, top] at h ⊢
    omega

theorem draining_endLoop (h : s.endLoop.readerAt = .draining) : 0 < s.endLoop.remaining := by
  unfold State.endLoop at h ⊢
  split at h
  · cases h
  · next hpos =>
    rw [if_neg hpos]
    exact Nat.pos_of_ne_zero hpos

theorem draining_step (hd : s.readerAt = .draining → 0 < s.remaining) (step : Step s e s')
    (h : s'.readerAt = .draining) : 0 < s'.remaining := by
  cases step with
  | receiveFailed => exact draining_endLoop h
  | rejects => exact draining_endLoop h
  | notAllocated => exact draining_endLoop h
  | notSpawned => exact draining_endLoop h
  | spawns => exact Nat.succ_pos _
  | spawnsError | performed | fileReady =>
    rw [remaining_reply]
    rw [(reply_same _ _).2.1] at h
    exact hd h
  | finishes top others => exact Nat.pos_of_ne_zero fun hzero => others ⟨hzero, h⟩
  | receivesPayload | spawnsWrite | allocated | finishesLast => cases h
  | _ => exact hd h

/-- The wait group counts what it waits for, and whoever it lets through closes the fd. -/
structure Drains (s : State) : Prop where
  remaining : s.remaining = counted s
  draining : s.readerAt = .draining → 0 < s.remaining
  returned : s.readerAt = .returned → .closing ∈ s.stack ∨ s.closed = true

theorem drains_initial (backend : Backend) : Drains (initial backend) := ⟨rfl, nofun, nofun⟩

theorem returned_endLoop (h : s.endLoop.readerAt = .returned) : .closing ∈ s.endLoop.stack := by
  unfold State.endLoop at h ⊢
  split at h
  · next hzero =>
    rw [if_pos hzero]
    exact List.mem_cons_self
  · cases h

theorem closing_mem_reply {t : Reply} (h : .closing ∈ s.stack) : .closing ∈ (s.reply t).stack := by
  unfold State.reply
  split
  · exact h
  · exact List.mem_cons_of_mem _ h

@[simp] theorem closed_reply (t : Reply) : (s.reply t).closed = s.closed := by
  unfold State.reply
  split <;> rfl

theorem returned_step (hr : s.readerAt = .returned → .closing ∈ s.stack ∨ s.closed = true)
    (g : EndsFirst s e) (step : Step s e s') (h : s'.readerAt = .returned) :
    .closing ∈ s'.stack ∨ s'.closed = true := by
  cases step with
  | receiveFailed => exact Or.inl (returned_endLoop h)
  | rejects => exact Or.inl (returned_endLoop h)
  | notAllocated => exact Or.inl (returned_endLoop h)
  | notSpawned => exact Or.inl (returned_endLoop h)
  | spawnsError top | performed top =>
    rw [closed_reply]
    rw [(reply_same _ _).2.1] at h
    exact (hr h).imp_left fun hmem => closing_mem_reply (by simpa [top] using hmem)
  | fileReady =>
    rw [closed_reply]
    rw [(reply_same _ _).2.1] at h
    exact (hr h).imp_left closing_mem_reply
  | @spawned stack k top file f first => exact (hr h).imp_left (by simp +contextual [top])
  | finishesLast => exact Or.inl List.mem_cons_self
  | closes => exact Or.inr g
  | receivesPayload | spawnsWrite | allocated => cases h
  | _ => exact (hr h).imp_left (by simp_all)

theorem drains_step (h : Drains s) (g : EndsFirst s e) (step : Step s e s') : Drains s' where
  remaining := counted_step h.remaining g.framesAllocated step
  draining := draining_step h.draining step
  returned := returned_step h.returned g step

theorem Drains.closed (h : Drains s) (ended : ¬ s.Loops) (hidle : tasks s = 0)
    (flat : s.stack = []) : s.closed = true := by
  have hcounted : counted s = 0 := by
    have hcard := congrArg Multiset.card hidle
    simp only [tasks, running, flat, List.map_nil, List.sum_nil, Multiset.card_add,
      Multiset.coe_card, List.length_map, Multiset.card_zero] at hcard
    simp only [counted, flat, List.map_nil, List.sum_nil]
    omega
  cases hat : s.readerAt with
  | header => exact absurd (by simp [State.Loops, hat]) ended
  | payload req got => exact absurd (by simp [State.Loops, hat]) ended
  | draining =>
    have hpos := h.draining hat
    have hrem := h.remaining
    omega
  | returned => simpa [flat] using h.returned hat

end Closing

section Fates

variable {s : State} {id : ℕ}

def answersTo (s : State) (id : ℕ) : List (ℕ × Response) :=
  (answers s.trace).filter fun p => p.1 = id

theorem closedIds_cons (x : Effect) (trace : List Effect) :
    closedIds (x :: trace) =
      (match x with
        | .answered i _ | .lost i => [i]
        | _ => []) ++ closedIds trace := by
  cases x <;> rfl

theorem closedIds_count (id : ℕ) (trace : List Effect) : (closedIds trace).count id =
    ((answers trace).filter fun p => p.1 = id).length + trace.count (.lost id) := by
  induction trace with
  | nil => rfl
  | cons x trace ih =>
    rw [closedIds_cons, List.count_append, ih]
    cases x with
    | answered i resp =>
      by_cases hi : i = id
      · simp only [answers, List.filter_append, List.length_append]
        simp [hi]
        omega
      · simp [answers, hi]
    | lost i =>
      by_cases hi : i = id
      · simp [answers, hi]
        omega
      · simp [answers, hi]
    | _ => simp [answers]

inductive Fate (s : State) (id : ℕ) (h : Handler) : Prop where
  | running (live : ∃ k ∈ tasks s, k.id = id) (none : answersTo s id = [])
  | answered (resp : Response) (cid : resp.cid = h.cid) (once : answersTo s id = [(id, resp)])
  | lost (ended : ¬ s.Loops) (none : answersTo s id = [])

theorem fate {h : Handler} (haccounted : Accounted s) (hnone : NoneLost s)
    (hid : s.dispatched[id]? = some h) : Fate s id h := by
  have hlt : id < s.dispatched.length := (List.getElem?_eq_some_iff.mp hid).1
  have hcount := closedIds_count id s.trace
  rcases open_or_closed_of_add haccounted.ledger hlt with ⟨hlive, hclosed⟩ | ⟨-, hclosed⟩
  · rw [Multiset.coe_count] at hclosed
    refine .running (Multiset.mem_map.mp hlive) (List.length_eq_zero_iff.mp ?_)
    simp only [answersTo]
    omega
  · rw [Multiset.coe_count] at hclosed
    by_cases hlost : .lost id ∈ s.trace
    · have hpos := List.count_pos_iff.mpr hlost
      refine .lost (hnone.lost id hlost) (List.length_eq_zero_iff.mp ?_)
      simp only [answersTo]
      omega
    · have hzero := List.count_eq_zero.mpr hlost
      have hone : (answersTo s id).length = 1 := by
        simp only [answersTo]
        omega
      obtain ⟨⟨i, resp⟩, hsingle⟩ := List.length_eq_one_iff.mp hone
      have hmem : (i, resp) ∈ answersTo s id := by simp [hsingle]
      obtain ⟨hanswer, hi⟩ := List.mem_filter.mp hmem
      obtain rfl : i = id := by simpa using hi
      have hmark : .answered i resp ∈ marks s.trace :=
        List.mem_filter.mpr ⟨mem_answers.mp hanswer, rfl⟩
      have hcid := (haccounted.answered i resp hmark).cid_eq
      rw [hid, Option.map_some] at hcid
      exact .answered resp (Option.some.inj hcid).symm hsingle

/-- Handlers that wait for the mutex wait for one that does not. -/
theorem outstanding (hok : (channel s).Ok sender) (hlive : tasks s ≠ 0) (flat : s.stack = []) :
    s.files ≠ [] ∨ s.io ≠ [] ∨ s.cq ≠ [] := by
  by_contra hnone
  rw [not_or, not_or, not_not, not_not, not_not] at hnone
  obtain ⟨hfiles, hio, hcq⟩ := hnone
  refine hlive ?_
  have hholders : (channel s).holders = 0 := by simp [channel, places, flat, hio, hcq]
  have hheld := hok.exclusive.held
  rw [hholders, Multiset.card_zero] at hheld
  have hwaiters : s.sendMtx.waiters = [] := by
    by_contra hne
    have hlocked : (channel s).mutex.locked = true := hok.exclusive.waiting hne
    rw [hlocked] at hheld
    cases hheld
  simp [tasks, running, flat, hfiles, hio, hcq, hwaiters]

end Fates

/-- No request is silently left unanswered: it is answered with one whole frame, or the loop
has ended, which it does for good, and the fd is closed behind the last handler. -/
structure NoneUnanswered (s : State) : Prop where
  fate : ∀ id h, s.dispatched[id]? = some h → Fate s id h
  frames : delivered (channelLog s.trace) = (answers s.trace).map fun p => p.2.encode
  outstanding : tasks s ≠ 0 → s.stack = [] → s.files ≠ [] ∨ s.io ≠ [] ∨ s.cq ≠ []
  ended : ¬ s.Loops → ∀ s', Reachable machine s s' → ¬ s'.Loops ∧ s'.dispatched = s.dispatched
  closed : ¬ s.Loops → tasks s = 0 → s.stack = [] → s.closed = true

theorem no_request_unanswered {backend : Backend} {s : State}
    (h : Run machine EndsFirst (initial backend) s) : NoneUnanswered s := by
  have hplace := (follows_of_run h).1
  have haccounted := accounted_of_run h
  have hnone : NoneLost s := by
    refine h.invariant_under (I := AtOnePlace) (fun u hu => (follows_of_run hu).1)
      ⟨by rintro id ⟨⟩, by rintro t ⟨⟩⟩ fun u e hp hn he hg => ?_
    exact noneLost_step hn hp hg (step_of_enabled he)
  have hdrains : Drains s :=
    h.invariant (drains_initial backend) fun _ _ hd he hg => drains_step hd hg (step_of_enabled he)
  exact ⟨fun _ _ => fate haccounted hnone, (delivers_of_run h).delivered,
    outstanding (channel_ok h), fun hends _ hs => ended_forever hplace hends hs, hdrains.closed⟩

section Traces

def twoReads : List (List UInt8) := [shortRead.encode false 1 ++ shortRead.encode false 2]

/-- The first read is answered; the stream ends, and then the second's response cannot be
sent. -/
def failsAfterEof : List Event :=
  [.received twoReads, .run, .alloc true, .alloc true, .perform (.result (.transferred 2 [7, 8])),
    .sendCall (.accepted 18), .run, .run, .run, .run, .alloc true, .alloc true,
    .perform (.result (.transferred 2 [7, 8])), .sendCall .suspended, .run, .receiveFailed,
    .sendReady (State.replyOf 1 (.handleRead 2 0 2) ⟨2, 2, [7, 8]⟩) .failed, .run, .run, .run,
    .close true]

theorem no_request_unanswered_fails_after_eof :
    answersTo (runTrace machine (initial .libc) failsAfterEof) 0 = [(0, ⟨1, 2, [7, 8]⟩)] ∧
      (runTrace machine (initial .libc) failsAfterEof).closed = true ∧
      NoneUnanswered (runTrace machine (initial .libc) failsAfterEof) :=
  ⟨by decide +kernel, by decide +kernel, no_request_unanswered
    (run_of_trace failsAfterEof (by decide +kernel) (by decide +kernel))⟩

def noBuffer : List Event :=
  [.received twoReads, .run, .alloc true, .alloc false, .run, .run, .alloc true, .alloc true,
    .perform (.result (.transferred 2 [7, 8])), .sendCall (.accepted 18), .run, .run, .run, .run]

/-- The first request has lost its response; the loop reads on and answers the second. -/
theorem response_lost_and_loop_goes_on : ∃ s, Reachable machine (initial .libc) s ∧
    s.dispatched.length = 2 ∧ tasks s = 0 ∧ answersTo s 0 = [] ∧
    answersTo s 1 = [(1, ⟨2, 2, [7, 8]⟩)] ∧ s.Loops ∧ ¬ NoneUnanswered s := by
  have hanswers : answersTo (runTrace machine (initial .libc) noBuffer) 0 = [] := by
    decide +kernel
  have hidle : tasks (runTrace machine (initial .libc) noBuffer) = 0 := by decide +kernel
  have hloops : (runTrace machine (initial .libc) noBuffer).Loops := by decide +kernel
  have hfirst : (runTrace machine (initial .libc) noBuffer).dispatched[0]? =
      some (.handleRead 1 0 2) := by decide +kernel
  refine ⟨_, reachable_of_trace noBuffer (by decide +kernel), by decide +kernel, hidle, hanswers,
    by decide +kernel, hloops, fun h => ?_⟩
  cases h.fate 0 _ hfirst with
  | running live none =>
    obtain ⟨k, hk, -⟩ := live
    rw [hidle] at hk
    exact absurd hk (Multiset.notMem_zero k)
  | answered resp cid once => cases hanswers.symm.trans once
  | lost ended none => exact ended hloops

end Traces

end EasybdSessionAnswers
