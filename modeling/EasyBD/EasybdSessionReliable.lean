import EasyBD.EasybdSessionAnswers

/-! A connection on which nothing fails: no handler loses its response, each has performed its
file operation when it queues for the socket, and a suspended read loop lacks bytes. -/
namespace EasybdSessionReliable

open TransitionRuns SerializedFrames EasybdProtocol EasyioQueue EasyioSenders
open EasyioFramedReader EasybdHandlers EasybdHandleConnection EasybdSession
open EasybdSessionTasks EasybdSessionParsing EasybdSessionChannel EasybdSessionResponses
open EasybdSessionAnswers

def Succeeds : Event → Prop
  | .receiveFailed => False
  | .alloc ok => ok = true
  | .perform o => o ≠ .threw
  | .sendCall o | .sendReady _ o | .complete _ o => o ≠ .failed
  | _ => True

instance : (e : Event) → Decidable (Succeeds e)
  | .receiveFailed => inferInstanceAs (Decidable False)
  | .alloc ok => inferInstanceAs (Decidable (ok = true))
  | .perform o => inferInstanceAs (Decidable (¬ o = .threw))
  | .sendCall o | .sendReady _ o | .complete _ o => inferInstanceAs (Decidable (¬ o = .failed))
  | .received _ | .fileReady _ _ _ | .reap _ _ | .close _ | .run => inferInstanceAs (Decidable True)

structure Sound (s : State) : Prop where
  returned : ∀ t, .returned t none ∉ s.stack
  unsent : ∀ t, .release t false ∉ s.stack
  completed : ∀ t, (t, none) ∉ s.cq
  log : .fail ∉ channelLog s.trace
  lost : ∀ id, .lost id ∉ s.trace

variable {s s' : State} {e : Event}

theorem Sound.reply (h : Sound s) (t : Reply) : Sound (s.reply t) := by
  obtain ⟨hreturned, hunsent, hcompleted, hlog, hlost⟩ := h
  unfold State.reply
  split
  · exact ⟨hreturned, hunsent, hcompleted, by simpa using hlog, by simpa using hlost⟩
  · exact ⟨by simpa using hreturned, by simpa using hunsent, hcompleted, by simpa using hlog,
      by simpa using hlost⟩

theorem Sound.endLoop (h : Sound s) : Sound s.endLoop := by
  obtain ⟨hreturned, hunsent, hcompleted, hlog, hlost⟩ := h
  unfold State.endLoop
  split
  · exact ⟨by simpa using hreturned, by simpa using hunsent, hcompleted, hlog, hlost⟩
  · exact ⟨hreturned, hunsent, hcompleted, hlog, hlost⟩

theorem Sound.taken (h : Sound s) {t : Reply} {o : SendOutcome} {stack : List Frame}
    (settled : o ≠ .suspended) (ok : o ≠ .failed) (below : stack ⊆ s.stack)
    (hstack : s'.stack = .returned t o.count :: stack) (hcq : s'.cq = s.cq)
    (htrace : s'.trace = EasybdSession.taken t o ++ s.trace) : Sound s' := by
  have hcount := SendOutcome.count_ne_none settled ok
  refine ⟨fun u hu => ?_, fun u hu => ?_, fun u => ?_, ?_, fun id => ?_⟩
  · rw [hstack, List.mem_cons] at hu
    rcases hu with heq | hu
    · exact hcount (Frame.returned.inj heq).2.symm
    · exact h.returned u (below hu)
  · rw [hstack, List.mem_cons] at hu
    exact h.unsent u (below (hu.resolve_left (by simp)))
  · rw [hcq]
    exact h.completed u
  · rw [htrace, channelLog_taken, fail_mem_takenOps]
    exact h.log
  · rw [htrace, lost_mem_taken]
    exact h.lost id

theorem Sound.release (h : Sound s) {t : Reply} {sent : Bool} {stack : List Frame}
    (top : s.stack = .release t sent :: stack) : sent = true := by
  by_contra hne
  rw [Bool.eq_false_of_not_eq_true hne] at top
  exact h.unsent t (by rw [top]; exact List.mem_cons_self)

theorem sound_step (h : Sound s) (g : Succeeds e) (step : Step s e s') : Sound s' := by
  obtain ⟨hreturned, hunsent, hcompleted, hlog, hlost⟩ := id h
  cases step with
  | receiveFailed => exact g.elim
  | notAllocated | notSpawned | notBuffered => cases g
  | performThrows => exact absurd rfl g
  | rejects top =>
    apply Sound.endLoop
    exact ⟨by simp_all, by simp_all, hcompleted, hlog, hlost⟩
  | spawnsError top =>
    apply Sound.reply
    exact ⟨by simp_all, by simp_all, hcompleted, hlog, hlost⟩
  | performed top =>
    apply Sound.reply
    exact ⟨by simp_all, by simp_all, hcompleted, by simpa using hlog, by simpa using hlost⟩
  | fileReady =>
    apply Sound.reply
    exact ⟨hreturned, hunsent, hcompleted, by simpa using hlog, by simpa using hlost⟩
  | spawned top file f first =>
    rcases first with rfl | rfl
    · exact ⟨by simp_all, by simp_all, hcompleted, hlog, hlost⟩
    · exact ⟨by simp_all, by simp_all, hcompleted, hlog, hlost⟩
  | callReturns top settled =>
    exact h.taken settled g (by rw [top]; exact List.subset_cons_self _ _) rfl rfl rfl
  | readyReturns flat mem settled => exact h.taken settled g (List.Subset.refl _) rfl rfl rfl
  | completes mem settled =>
    have hcount := SendOutcome.count_ne_none settled g
    refine ⟨hreturned, hunsent, fun u => ?_, ?_, fun id => ?_⟩
    · have hu := hcompleted u
      simp_all [eq_comm]
    · simpa only [channelLog_taken, fail_mem_takenOps] using hlog
    · rw [lost_mem_taken]
      exact hlost id
  | @reap t count flat mem =>
    refine ⟨fun u => ?_, by simpa using hunsent,
      fun u hu => hcompleted u (List.mem_of_mem_erase hu), hlog, hlost⟩
    have hu := hcompleted u
    have ht : (u, none) ≠ (t, count) := fun heq => hu (heq ▸ mem)
    simp_all
  | sendThrows top => exact (hreturned _ (by rw [top]; exact List.mem_cons_self)).elim
  | @handsOver t sent u waiters stack top waiting =>
    obtain rfl := h.release top
    exact ⟨by simp_all, by simp_all, hcompleted, by simpa [State.outcome] using hlog,
      by simpa [State.outcome] using hlost⟩
  | @frees t sent stack top alone =>
    obtain rfl := h.release top
    exact ⟨by simp_all, by simp_all, hcompleted, by simpa [State.outcome] using hlog,
      by simpa [State.outcome] using hlost⟩
  | _ => exact ⟨by simp_all, by simp_all, hcompleted, by simpa using hlog, by simpa using hlost⟩

/-- Where nothing fails, the loop ends only over a header that it rejects. -/
theorem loops_step (h : s.Loops) (g : Succeeds e) (step : Step s e s')
    (accepts : ∀ stack, s.stack = .reading :: stack → s.readerAt = .header →
      requestHeaderSize ≤ s.reader.unread.length →
      onHeader (.ofBytes (s.reader.unread.take requestHeaderSize)) ≠ .reject) : s'.Loops := by
  cases step with
  | receiveFailed => exact g.elim
  | notAllocated | notSpawned => cases g
  | rejects top at_ enough action => exact absurd action (accepts _ top at_ enough)
  | spawnsError | performed | fileReady => exact (loops_reply _).mpr h
  | finishesLast top last drains => simp [State.Loops, drains] at h
  | receivesPayload | spawnsWrite | allocated => trivial
  | _ => exact h

instance : Receives Event where
  batch
    | .received batch => some batch
    | _ => none

theorem received_reply (t : Reply) : received (s.reply t).trace = received s.trace := by
  unfold State.reply
  split <;> rfl

theorem received_step (step : Step s e s') :
    received s'.trace = received s.trace ++ arriving e := by
  cases step with
  | receivesHeader | receivesPayload => rfl
  | spawnsError | performed | fileReady =>
    rw [received_reply]
    simp [received, arriving, Receives.batch]
  | _ => simp [received, arriving, Receives.batch]

section Short

def Short (s : State) : Prop :=
  s.Loops → (∃ f ∈ s.stack, Frame.isLoop f = true) ∨ 0 < s.missing

theorem missing_congr (hat : s'.readerAt = s.readerAt) (hreader : s'.reader = s.reader) :
    s'.missing = s.missing := by
  unfold State.missing
  rw [hat, hreader]

theorem Short.of_same (h : Short s) (hat : s'.readerAt = s.readerAt)
    (hreader : s'.reader = s.reader)
    (hstack : ∀ f ∈ s.stack, Frame.isLoop f = true → f ∈ s'.stack) : Short s' := by
  intro loops
  have hloops : s.Loops := by
    unfold State.Loops at loops ⊢
    rwa [hat] at loops
  rcases h hloops with ⟨f, hf, hloop⟩ | hpos
  · exact Or.inl ⟨f, hstack f hf hloop, hloop⟩
  · rw [missing_congr hat hreader]
    exact Or.inr hpos

theorem Short.pop (h : Short s) {f : Frame} {stack : List Frame} (top : s.stack = f :: stack)
    (hf : Frame.isLoop f = false) (hat : s'.readerAt = s.readerAt) (hreader : s'.reader = s.reader)
    (hstack : ∀ g ∈ stack, g ∈ s'.stack) : Short s' := by
  refine h.of_same hat hreader fun g hg hloop => ?_
  rw [top, List.mem_cons] at hg
  rcases hg with rfl | hg
  · rw [hf] at hloop
    cases hloop
  · exact hstack g hg

theorem Short.of_frame {f : Frame} (hf : f ∈ s'.stack) (hloop : Frame.isLoop f = true) :
    Short s' := fun _ => Or.inl ⟨f, hf, hloop⟩

theorem mem_reply {t : Reply} {f : Frame} (h : f ∈ s.stack) : f ∈ (s.reply t).stack := by
  unfold State.reply
  split
  · exact h
  · exact List.mem_cons_of_mem _ h

theorem short_step (h : Short s) (g : Succeeds e) (step : Step s e s') : Short s' := by
  cases step with
  | receivesHeader | receivesPayload => exact .of_frame List.mem_cons_self rfl
  | receiveFailed => exact g.elim
  | notAllocated | notSpawned => cases g
  | rejects => exact fun loops => absurd loops not_loops_endLoop
  | awaitsHeader top at_ short =>
    refine fun _ => Or.inr ?_
    simp only [State.missing, at_, unread_eraseConsumed]
    omega
  | awaitsPayload top at_ short =>
    refine fun _ => Or.inr ?_
    simp only [State.missing, at_]
    omega
  | allocates | spawns | spawnsWrite | allocated => exact .of_frame List.mem_cons_self rfl
  | readsNothing top ended => exact fun loops => absurd loops ended
  | spawnsError => exact .of_frame (mem_reply List.mem_cons_self) rfl
  | spawned => exact .of_frame (List.mem_cons_of_mem _ List.mem_cons_self) rfl
  | finishesLast => exact fun loops => loops.elim
  | performed top =>
    obtain ⟨hreader, hat, -⟩ := reply_same _ _
    exact h.pop top rfl hat hreader fun _ hg => mem_reply hg
  | fileReady flat =>
    obtain ⟨hreader, hat, -⟩ := reply_same _ _
    exact h.of_same hat hreader fun _ hf _ => mem_reply hf
  | performs top | callBlocks top | finishes top | closes top =>
    exact h.pop top rfl rfl rfl fun _ => id
  | buffered top | notBuffered top | performThrows top | callReturns top | sendsOn top | sent top
  | sendThrows top | frees top =>
    exact h.pop top rfl rfl rfl fun _ => List.mem_cons_of_mem _
  | handsOver top =>
    exact h.pop top rfl rfl rfl fun _ hg => List.mem_cons_of_mem _ (List.mem_cons_of_mem _ hg)
  | stillBlocked => exact h
  | completes => exact h.of_same rfl rfl fun _ hf _ => hf
  | readyReturns | reap => exact h.of_same rfl rfl fun _ hf _ => List.mem_cons_of_mem _ hf

end Short

section Replies

theorem grows_step (step : Step s e s') :
    (∀ (id : ℕ) h, s.dispatched[id]? = some h → s'.dispatched[id]? = some h) ∧
      ∀ id r, .performed id r ∈ marks s.trace → .performed id r ∈ marks s'.trace := by
  cases tasks_step step with
  | same htasks hmarks hdispatched => simp [hmarks, hdispatched]
  | starts k t stack he top hk htasks hmarks hdispatched =>
    refine ⟨fun id h hid => ?_, by simp [hmarks]⟩
    rw [hdispatched, List.getElem?_append_left (List.getElem?_eq_some_iff.mp hid).1]
    exact hid
  | performs id k r others fits hbefore htasks hmarks hdispatched =>
    exact ⟨by simp [hdispatched], fun i q hq => by rw [hmarks]; exact List.mem_cons_of_mem _ hq⟩
  | answers id resp htasks hmarks hdispatched => simp +contextual [hmarks, hdispatched]
  | loses k htasks hmarks hdispatched => simp +contextual [hmarks, hdispatched]

theorem entering_mem {t : Reply} (step : Step s e s') (ht : t ∈ entering s e) :
    task t ∈ tasks s' := by
  cases step with
  | spawnsError top =>
    simp only [entering, top, Option.mem_some_iff] at ht
    rw [tasks_reply, ← ht]
    simp
  | @spawned stack h top file =>
    cases h with
    | sendError cid err => exact absurd rfl (file cid err)
    | handleWrite => simp [entering, top] at ht
    | handleRead => simp [entering, top] at ht
  | performed top =>
    simp only [entering, top, Option.mem_some_iff] at ht
    rw [tasks_reply, ← ht]
    simp
  | fileReady =>
    simp only [entering, Option.mem_some_iff] at ht
    rw [tasks_reply, ← ht]
    simp
  | allocated top | buffered top => simp [entering, top] at ht
  | _ => cases ht

def RepliesAnswer (s : State) : Prop := ∀ p ∈ replied s.trace, Answer s p.1 p.2

theorem repliesAnswer_step (h : RepliesAnswer s) (ha : Accounted s) (step : Step s e s') :
    RepliesAnswer s' := by
  intro p hp
  rw [replied_step step, List.mem_append, Option.mem_toList, Option.map_eq_some_iff] at hp
  rcases hp with hold | ⟨t, ht, rfl⟩
  · obtain ⟨hdispatched, hmarks⟩ := grows_step step
    exact (h p hold).mono (hdispatched p.1) (hmarks p.1)
  · exact (accounted_step ha step).tasks _ (entering_mem step ht)

theorem performedIds_cons (x : Effect) (trace : List Effect) :
    performedIds (x :: trace) =
      (match x with
        | .performed id _ => [id]
        | _ => []) ++ performedIds trace := by
  cases x <;> rfl

theorem performedIds_reply (t : Reply) :
    performedIds (s.reply t).trace = performedIds s.trace := by
  unfold performedIds
  rw [marks_reply]

@[simp] theorem performedIds_taken (t : Reply) (o : SendOutcome) (trace : List Effect) :
    performedIds (taken t o ++ trace) = performedIds trace := by
  unfold performedIds
  rw [marks_taken]

/-- Unless the loop itself answers, the responses are those of the file operations. -/
def RepliesPerformed (s : State) : Prop :=
  (replied s.trace).map Prod.fst = (performedIds s.trace).reverse

theorem repliesPerformed_step (h : RepliesPerformed s) (step : Step s e s')
    (files : ∀ cid err, .spawning (.sendError cid err) ∉ s.stack) : RepliesPerformed s' := by
  have hreplied := replied_step step
  unfold RepliesPerformed at h ⊢
  cases step with
  | spawnsError top => exact absurd (by rw [top]; exact List.mem_cons_self) (files _ _)
  | performed top | fileReady =>
    rw [replied_reply, performedIds_reply, performedIds_cons]
    simp [replied, h]
  | @handsOver t sent | @frees t sent =>
    cases sent <;> simpa [replied, performedIds_cons, State.outcome] using h
  | _ => simpa [replied, performedIds_cons] using h

end Replies

/-- What holds of a connection on which nothing fails, whatever it is sent. -/
structure Reliable (s : State) : Prop where
  sound : Sound s
  short : Short s
  answers : RepliesAnswer s

theorem reliable_of_run {backend : Backend}
    (h : Run machine (fun _ e => Succeeds e) (initial backend) s) : Reliable s := by
  refine h.invariant_under (I := Accounted) (fun u hu => accounted_of_run hu) ?_ ?_
  · exact ⟨⟨nofun, nofun, nofun, nofun, nofun⟩, fun _ => Or.inr (Nat.succ_pos _), nofun⟩
  · intro u e ha hu he g
    have step := step_of_enabled he
    exact ⟨sound_step hu.sound g step, short_step hu.short g step,
      repliesAnswer_step hu.answers ha step⟩

end EasybdSessionReliable
