import EasyBD.EasybdClientTable

/-! After the reader has ended, an entry of `_pending` is only as alive as its
`send_request` coroutine. -/
namespace EasybdClientOrphans

open TransitionRuns EntryLedger SerializedFrames EasybdProtocol EasyioQueue EasybdRequests
open EasybdClient EasybdClientTable

/-- The reader has left its loop and `fail_all_pending` has taken the entries out. -/
structure ReaderDone (s : State) : Prop where
  ended : s.readerAt = .ended
  drained : .failAllPending ∉ s.stack

def NoOrphan (s : State) : Prop :=
  ReaderDone s → ∀ cid p, s.pending.lookup cid = some p →
    ∃ k ∈ tasks s, k.cid = cid ∧ k.request = p.request

def completing (s : State) : Option SendRequest :=
  match s.stack with
  | .returned t (some n) :: _ => if (State.resumed t n).send.Finished then some t else none
  | _ => none

/-- Once the reader has ended, no request is sent to its end while it is pending, and none is
left in the map by a coroutine frame that could not be allocated. -/
def LateSendsFail (s : State) : Event → Prop
  | .request _ fault => s.readerAt = .ended → fault ≠ some .spawn
  | .run => s.readerAt = .ended → ∀ t ∈ completing s,
      (s.pending.lookup t.cid).map Pending.request ≠ some t.request
  | _ => True

instance (s : State) : (e : Event) → Decidable (LateSendsFail s e)
  | .request _ fault => inferInstanceAs (Decidable (s.readerAt = .ended → fault ≠ some .spawn))
  | .run => inferInstanceAs (Decidable (s.readerAt = .ended → ∀ t ∈ completing s,
      (s.pending.lookup t.cid).map Pending.request ≠ some t.request))
  | .requestReturn | .wait | .pollFailed _ | .poll | .waitReturn | .destroy | .cancel
  | .destroyReturn | .callbackReturn | .sendCall _ | .sendReady _ _ | .complete _ _ | .reap _ _
  | .received _ | .receiveFailed | .drain _ => isTrue trivial

/-- The reader ends only by way of `fail_all_pending`, which empties the map. -/
theorem readerDone_step {s s' : State} {e : Event} (step : Step s e s') (h : ReaderDone s') :
    ReaderDone s ∨ s'.pending = ∅ := by
  obtain ⟨hended, hdrained⟩ := h
  cases step with
  | drain => exact Or.inr rfl
  | destroyReading => exact absurd List.mem_cons_self hdrained
  | receiveFailed => exact absurd List.mem_cons_self hdrained
  | unknownCid => exact absurd List.mem_cons_self hdrained
  | awaitsBody => cases hended
  | answered => cases hended
  | copies => cases hended
  | _ => exact Or.inl ⟨hended, by simp_all⟩

theorem lookup_of_throws {s s' : State} (step : Step s .run s') {t : SendRequest}
    {stack : List Frame} (top : s.stack = .returned t none :: stack) :
    s'.pending.lookup t.cid = none := by
  cases step with
  | sendThrows top' =>
    obtain ⟨hf, -⟩ := List.cons.inj (top.symm.trans top')
    obtain ⟨rfl, -⟩ := Frame.returned.inj hf
    exact AList.lookup_erase _ _
  | sendThrowsLate top' gone =>
    obtain ⟨hf, -⟩ := List.cons.inj (top.symm.trans top')
    obtain ⟨rfl, -⟩ := Frame.returned.inj hf
    exact gone
  | _ top' => simp_all

theorem noOrphan_step {s s' : State} {e : Event} (h : NoOrphan s) (g : LateSendsFail s e)
    (step : Step s e s') : NoOrphan s' := by
  intro hdone cid p hlook
  rcases readerDone_step step hdone with hprev | hempty
  · rcases entries_step step hlook with hold | ⟨r, rfl, rfl, -, hfault | hstarts⟩
    · obtain ⟨k, hk, hcid, hid⟩ := h hprev cid p hold
      cases senders_step step with
      | same hsame => exact ⟨k, hsame ▸ hk, hcid, hid⟩
      | starts r he hreq hstarts =>
        exact ⟨k, hstarts ▸ Multiset.mem_cons_of_mem hk, hcid, hid⟩
      | leaves t ht hleaves =>
        rw [hleaves, Multiset.mem_cons] at hk
        rcases hk with rfl | hk
        · -- the entry's own sender leaves `send_all`
          obtain ⟨rfl, c, stack, top, hfinished⟩ := ht
          cases c with
          | none =>
            have hgone := lookup_of_throws step top
            rw [← show t.cid = cid from hcid, hgone] at hlook
            cases hlook
          | some n =>
            have hcompleting : t ∈ completing s := by
              simp only [completing, top, if_pos (hfinished n rfl), Option.mem_some_iff]
            refine absurd ?_ (g hprev.ended t hcompleting)
            rw [show t.cid = cid from hcid, hold, Option.map_some]
            exact congrArg some hid.symm
        · exact ⟨k, hk, hcid, hid⟩
    · subst hfault
      exact absurd rfl (g hprev.ended)
    · exact ⟨_, hstarts, rfl, rfl⟩
  · rw [hempty] at hlook
    cases hlook

theorem no_orphaned_request {backend : Backend} {syncWrites : Bool} {s : State}
    (h : Run machine LateSendsFail (initial backend syncWrites) s) : NoOrphan s := by
  refine h.invariant (fun hdone => ?_) fun _ _ hn he hg => noOrphan_step hn hg (step_of_enabled he)
  cases hdone.ended

section Traces

def emptyRead : Request := ⟨true, 0, 0, [], rfl⟩

/-- The server closes the connection while the user waits; then a read is issued. -/
def readAfterEof (o : SendOutcome) : List Event :=
  [.wait, .poll, .receiveFailed, .drain [], .run, .waitReturn, .request emptyRead none, .sendCall o]

theorem no_orphaned_request_after_eof :
    let s := runTrace machine (initial .libc false) (readAfterEof .suspended)
    ReaderDone s ∧ NoOrphan s :=
  ⟨⟨by decide +kernel, by decide +kernel⟩, no_orphaned_request
    (run_of_trace (readAfterEof .suspended) (by decide +kernel) (by decide +kernel))⟩

/-- The half-closed socket takes the whole header: the request stays in `_pending` with
nobody left to answer or fail it. -/
def sentAfterEof : List Event :=
  readAfterEof (.accepted 25) ++ [.run, .run, .requestReturn]

theorem request_orphaned_after_eof : ∃ s, Reachable machine (initial .libc false) s ∧
    Effect.accepted 0 ∈ s.trace ∧ s.Idle ∧ s.pending.lookup 1 = some ⟨true, 0⟩ ∧
      tasks s = 0 ∧ ¬ NoOrphan s := by
  let s := runTrace machine (initial .libc false) sentAfterEof
  have hlook : s.pending.lookup 1 = some ⟨true, 0⟩ := by decide +kernel
  have htasks : tasks s = 0 := by rfl
  refine ⟨s, reachable_of_trace sentAfterEof (by decide +kernel), by decide +kernel,
    by decide +kernel, hlook, htasks, fun h => ?_⟩
  obtain ⟨k, hk, -⟩ := h ⟨by decide +kernel, by decide +kernel⟩ 1 _ hlook
  rw [htasks] at hk
  exact Multiset.notMem_zero k hk

end Traces

end EasybdClientOrphans
