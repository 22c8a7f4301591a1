import EasyBD.EasybdClientTable

/-! Every accepted request's callback fires exactly once, unless its send fails while the
reader awaits its body; and nothing is orphaned, unless a send succeeds after the reader has
ended. -/
namespace EasybdClientCallbacks

open TransitionRuns EntryLedger SerializedFrames EasybdProtocol EasyioQueue EasybdRequests
open EasybdClient EasybdClientTable

def Ledger (s : State) : Prop :=
  (openIds s ++ firedIds s.trace).Perm (List.range s.requests.length)

/-- The entry whose body the next step has read to its end, with its cid. -/
def bodyRead (s : State) : Option (UInt64 × Pending) :=
  match s.stack, s.readerAt with
  | .reading :: _, .body cid res p =>
    if (Reader.body cid res p).needed ≤ s.reader.unread.length then some (cid, p) else none
  | _, _ => none

/-- The two moments at which an entry could be mixed up with another: a cid is given out
that is still in the map, or the body of a request arrives that is no longer in it. -/
def StillPending (s : State) : Event → Prop
  | .request _ _ => s.pending.lookup s.nextCid = none
  | .run => ∀ b ∈ bodyRead s, s.pending.lookup b.1 = some b.2
  | _ => True

instance (s : State) : (e : Event) → Decidable (StillPending s e)
  | .request _ _ => inferInstanceAs (Decidable (s.pending.lookup s.nextCid = none))
  | .run => inferInstanceAs (Decidable (∀ b ∈ bodyRead s, s.pending.lookup b.1 = some b.2))
  | .requestReturn | .wait | .pollFailed _ | .poll | .waitReturn | .destroy | .cancel
  | .destroyReturn | .callbackReturn | .sendCall _ | .sendReady _ _ | .complete _ _ | .reap _ _
  | .received _ | .receiveFailed | .drain _ => isTrue trivial

theorem ledger_kept {s s' : State} {e : Event} (h : Ledger s) (g : StillPending s e)
    (step : Step s e s') : Ledger s' := by
  unfold Ledger at h ⊢
  cases EasybdClientTable.ledger_step step with
  | keeps hopen hfired hcount =>
    rw [hfired, hcount]
    exact (hopen.append_right _).trans h
  | issues r fault he hopen hfired hcount =>
    subst he
    rw [hfired, hcount, hopen, values_erase_of_none g]
    exact EntryLedger.give_out h
  | closes id hopen hfired hcount =>
    rw [hfired, hcount]
    exact EntryLedger.close h hopen
  | copies cid res p stack he top at_ enough hopen hfired hcount =>
    subst he
    rw [at_] at enough
    have hread : (cid, p) ∈ bodyRead s := by
      simp only [bodyRead, top, at_, if_pos enough, Option.mem_some_iff]
    rw [hfired, hcount, hopen]
    exact EntryLedger.close h (openIds_erase (g _ hread))

def Awaiting (s : State) (id : ℕ) : Prop :=
  (∃ cid r, Issued s cid id r ∧ s.pending.lookup cid = some ⟨r.isRead, id⟩) ∧ fires s id = 0

def Answered (s : State) (id : ℕ) : Prop :=
  (∀ cid p, s.pending.lookup cid = some p → p.request ≠ id) ∧ fires s id = 1

/-- While `fail_all_pending` goes through its copies, the ones it has not come to are out of
the map and not fired yet. -/
structure ExactlyOnce (s : State) : Prop where
  accounted : ∀ id, .accepted id ∈ s.trace → id ∉ drained s → Awaiting s id ∨ Answered s id
  drained : ∀ id ∈ drained s, fires s id = 0

theorem exactlyOnce_of_ledger {s : State} (h : Ledger s) (ht : Table s) : ExactlyOnce s where
  accounted id hid hdrained := by
    rcases open_or_closed h (ht.accepted id hid) with ⟨hopen, hfires⟩ | ⟨hopen, hfires⟩
    · have hpending := (List.mem_append.mp hopen).resolve_right hdrained
      obtain ⟨p, hp, rfl⟩ := List.mem_map.mp hpending
      obtain ⟨cid, hlook⟩ := lookup_of_mem_values hp
      obtain ⟨r, hr, hread⟩ := ht.entries cid p hlook
      exact Or.inl ⟨⟨cid, r, hr, by rw [hread]; exact hlook⟩, hfires⟩
    · refine Or.inr ⟨fun cid p hlook hp => hopen ?_, hfires⟩
      exact List.mem_append_left _ (List.mem_map.mpr ⟨p, mem_values_of_lookup hlook, hp⟩)
  drained id hid := by
    have hmem : id ∈ List.range s.requests.length :=
      h.mem_iff.mp (List.mem_append_left _ (List.mem_append_right _ hid))
    rcases open_or_closed h (List.mem_range.mp hmem) with ⟨-, hfires⟩ | ⟨hopen, -⟩
    · exact hfires
    · exact absurd (List.mem_append_right _ hid) hopen

theorem callbacks_exactly_once {backend : Backend} {syncWrites : Bool} {s : State}
    (h : Run machine StillPending (initial backend syncWrites) s) : ExactlyOnce s := by
  have hledger : Ledger s := h.invariant (List.Perm.refl _) fun _ _ hl he hg =>
    ledger_kept hl hg (step_of_enabled he)
  exact exactlyOnce_of_ledger hledger (consistent_of_run h).table

section Traces

def shortReadSend : SendRequest := (initial .ioUring false).sendRequest shortRead

def answeredRead : List Event :=
  [.request shortRead none, .sendCall .suspended, .requestReturn, .wait, .poll,
    .complete shortReadSend (.accepted 25), .reap shortReadSend (some 25), .run, .run,
    .received [ResponseHeader.bytes ⟨1, 2⟩], .run, .run, .received [[7, 8]], .run,
    .callbackReturn, .run, .waitReturn]

theorem callbacks_exactly_once_answered_read :
    fires (runTrace machine (initial .ioUring false) answeredRead) 0 = 1 ∧
      ExactlyOnce (runTrace machine (initial .ioUring false) answeredRead) :=
  ⟨by decide +kernel, callbacks_exactly_once
    (run_of_trace answeredRead (by decide +kernel) (by decide +kernel))⟩

/-- The kernel takes 24 of the 25 header bytes, the server answers early, and the rest of the
send fails between the response's header and its body. -/
def answeredMidSend : List Event :=
  let rest := State.resumed shortReadSend 24
  [.request shortRead none, .sendCall .suspended, .requestReturn, .wait, .poll,
    .complete shortReadSend (.accepted 24), .reap shortReadSend (some 24), .run,
    .sendCall .suspended, .received [ResponseHeader.bytes ⟨1, 2⟩], .run, .run,
    .complete rest .failed, .reap rest none, .run, .callbackReturn, .run,
    .received [[7, 8]], .run]

/-- Its callback fires twice, with `-ECONNRESET` and with the response. -/
theorem callback_fires_twice : ∃ s, Reachable machine (initial .ioUring false) s ∧
    firedIds s.trace = [0, 0] ∧ ¬ ExactlyOnce s := by
  have htwo : fires (runTrace machine (initial .ioUring false) answeredMidSend) 0 = 2 := by
    decide +kernel
  refine ⟨_, reachable_of_trace answeredMidSend (by decide +kernel), by decide +kernel,
    fun h => ?_⟩
  rcases h.accounted 0 (by decide +kernel) (by decide +kernel) with hw | ha
  · exact absurd (htwo.symm.trans hw.2) (by decide)
  · exact absurd (htwo.symm.trans ha.2) (by decide)

end Traces

end EasybdClientCallbacks
