import EasyBD.EasybdClientCallbacks
import EasyBD.EasybdClientBuffers
import EasyBD.EasybdClientChannel
import EasyBD.EasybdClientWait

/-! A client for which nothing fails: its requests queue for the socket in the order of their
numbers, no two have the same cid, and `reader_loop` ends only over a cid it does not know. -/
namespace EasybdClientReliable

open TransitionRuns EntryLedger SerializedFrames EasybdProtocol EasyioQueue EasyioSenders
open EasyioFramedReader EasybdRequests EasybdClient EasybdClientTable EasybdClientCallbacks
open EasybdClientChannel EasybdClientWait EasybdClientBuffers

/-- No send, receive or allocation of the client fails, and the user does not destroy it. -/
def Succeeds : Event → Prop
  | .request _ fault => fault = none
  | .sendCall o | .sendReady _ o | .complete _ o => o ≠ .failed
  | .receiveFailed | .destroy => False
  | _ => True

instance : (e : Event) → Decidable (Succeeds e)
  | .request _ fault => inferInstanceAs (Decidable (fault = none))
  | .sendCall o | .sendReady _ o | .complete _ o => inferInstanceAs (Decidable (¬ o = .failed))
  | .receiveFailed | .destroy => inferInstanceAs (Decidable False)
  | .requestReturn | .wait | .pollFailed _ | .poll | .waitReturn | .cancel | .destroyReturn
  | .callbackReturn | .reap _ _ | .received _ | .drain _ | .run =>
    inferInstanceAs (Decidable True)

structure Sound (s : State) : Prop where
  returned : ∀ t, .returned t none ∉ s.stack
  completed : ∀ t, (t, none) ∉ s.cq
  log : .fail ∉ channelLog s.trace
  alive : ¬ InDestroy s.call

variable {s s' : State} {e : Event}

theorem Sound.taken (h : Sound s) {t : SendRequest} {o : SendOutcome} {stack : List Frame}
    (settled : o ≠ .suspended) (ok : o ≠ .failed) (below : stack ⊆ s.stack)
    (hstack : s'.stack = .returned t o.count :: stack) (hcq : s'.cq = s.cq)
    (hcall : s'.call = s.call)
    (htrace : s'.trace = EasybdClient.taken t o ++ (shown s.backend t o ++ s.trace)) :
    Sound s' := by
  have hcount := SendOutcome.count_ne_none settled ok
  refine ⟨fun u hu => ?_, fun u => ?_, ?_, ?_⟩
  · rw [hstack, List.mem_cons] at hu
    rcases hu with heq | hu
    · exact hcount (Frame.returned.inj heq).2.symm
    · exact h.returned u (below hu)
  · rw [hcq]
    exact h.completed u
  · rw [htrace, channelLog_taken, fail_mem_takenOps, channelLog_shown]
    exact h.log
  · rw [hcall]
    exact h.alive

theorem sound_step (h : Sound s) (g : Succeeds e) (step : Step s e s') : Sound s' := by
  obtain ⟨hreturned, hcompleted, hlog, halive⟩ := id h
  cases step with
  | cancel flat call => exact absurd (by simp [InDestroy, call]) halive
  | destroyReturn flat call => exact absurd (by simp [InDestroy, call]) halive
  | destroyUring | destroyEnded | destroyReading | receiveFailed => exact g.elim
  | sendThrows top | sendThrowsLate top =>
    exact (hreturned _ (by rw [top]; exact List.mem_cons_self)).elim
  | callReturns top settled =>
    exact h.taken settled g (by rw [top]; exact List.subset_cons_self _ _) rfl rfl rfl rfl
  | readyReturns dispatching mem settled =>
    exact h.taken settled g (List.Subset.refl _) rfl rfl rfl rfl
  | completes mem settled =>
    have hcount := SendOutcome.count_ne_none settled g
    refine ⟨hreturned, fun u => ?_, ?_, halive⟩
    · have hu := hcompleted u
      simp_all [eq_comm]
    · simpa only [channelLog_taken, fail_mem_takenOps] using hlog
  | @reap t count dispatching mem =>
    refine ⟨fun u => ?_, fun u hu => hcompleted u (List.mem_of_mem_erase hu), hlog, halive⟩
    have hu := hcompleted u
    have ht : (u, none) ≠ (t, count) := fun heq => hu (heq ▸ mem)
    simp_all
  | wait idle => exact ⟨hreturned, hcompleted, by simpa using hlog, by simp [InDestroy]⟩
  | pollFailed => exact ⟨hreturned, hcompleted, by simpa using hlog, by simp [InDestroy]⟩
  | poll => exact ⟨hreturned, hcompleted, hlog, by simp [InDestroy]⟩
  | waitReturn => exact ⟨hreturned, hcompleted, by simpa using hlog, by simp [InDestroy]⟩
  | _ => exact ⟨by simp_all, by simpa using hcompleted, by simpa using hlog, by simpa using halive⟩

/-- The requests have got the cids 1, 2, 3, ..., and queue for the socket in this order. -/
structure Numbered (syncWrites : Bool) (s : State) : Prop where
  sync : s.syncWrites = syncWrites
  nextCid : s.nextCid = UInt64.ofNat (s.requests.length + 1)
  cids : ∀ cid id r, Issued s cid id r → cid = UInt64.ofNat (id + 1)
  order : (channel s).order sender = s.requests.map fun q => q.2.encode syncWrites q.1

theorem syncWrites_step (step : Step s e s') : s'.syncWrites = s.syncWrites := by
  cases step <;> rfl

theorem numbering_step (g : Succeeds e) (step : Step s e s') :
    (s'.nextCid = s.nextCid ∧ s'.requests = s.requests ∧ entering s e = none) ∨
      ∃ r, s'.nextCid = s.nextCid + 1 ∧ s'.requests = s.requests ++ [(s.nextCid, r)] ∧
        entering s e = some (s.sendRequest r) := by
  cases step with
  | oversized r fault may size =>
    cases fault with
    | none => exact Or.inl ⟨rfl, rfl, by simp [entering, size]⟩
    | some fault => exact Or.inl ⟨rfl, rfl, rfl⟩
  | noEntry | noFrame => cases g
  | sends r may size | queues r may size =>
    exact Or.inr ⟨r, rfl, rfl, by simp only [entering, if_neg size]⟩
  | _ => exact Or.inl ⟨rfl, rfl, rfl⟩

theorem numbered_step {syncWrites : Bool} (h : Numbered syncWrites s) (hok : (channel s).Ok sender)
    (g : Succeeds e) (step : Step s e s') : Numbered syncWrites s' := by
  have horder := hok.order_step (channel_step step)
  rcases numbering_step g step with ⟨hcid, hreq, hnone⟩ | ⟨r, hcid, hreq, hsome⟩
  · refine ⟨(syncWrites_step step).trans h.sync, ?_, fun cid id r hr => ?_, ?_⟩
    · rw [hcid, hreq]
      exact h.nextCid
    · exact h.cids cid id r (by rwa [Issued, hreq] at hr)
    · rw [horder, hnone, hreq, h.order]
      simp
  · refine ⟨(syncWrites_step step).trans h.sync, ?_, fun cid id q hq => ?_, ?_⟩
    · rw [hcid, hreq, h.nextCid, List.length_append, List.length_singleton]
      simp
    · rw [Issued, hreq] at hq
      rcases Nat.lt_or_ge id s.requests.length with hlt | hge
      · rw [List.getElem?_append_left hlt] at hq
        exact h.cids cid id q hq
      · rw [List.getElem?_append_right hge] at hq
        have hid : id - s.requests.length = 0 := by
          have hlt := (List.getElem?_eq_some_iff.mp hq).1
          rw [List.length_singleton] at hlt
          omega
        rw [hid] at hq
        obtain ⟨rfl, -⟩ := Prod.mk.inj (Option.some.inj hq)
        rw [h.nextCid, show id = s.requests.length by omega]
    · rw [horder, hsome, hreq, h.order, List.map_append]
      simp only [Option.map_some, Option.toList_some, List.map_cons, List.map_nil, sender_send,
        State.sendRequest, r.rest_startSend, h.sync]

theorem Numbered.unused {syncWrites : Bool} (h : Numbered syncWrites s) (ht : Table s)
    (few : s.requests.length < UInt64.size) : s.pending.lookup s.nextCid = none := by
  by_contra hsome
  obtain ⟨p, hp⟩ := Option.ne_none_iff_exists'.mp hsome
  obtain ⟨r, hr, -⟩ := ht.entries _ p hp
  have hlt := (List.getElem?_eq_some_iff.mp hr).1
  have hcid := h.cids _ _ _ hr
  rw [h.nextCid] at hcid
  have hnat := congrArg UInt64.toNat hcid
  rw [UInt64.toNat_ofNat', UInt64.toNat_ofNat'] at hnat
  simp only [UInt64.size] at few
  omega

def Held (s : State) : Prop :=
  ∀ cid res p, s.readerAt = .body cid res p → s.pending.lookup cid = some p

theorem held_step (h : Held s) (hs : Sound s) (he : Ends s)
    (unused : s.pending.lookup s.nextCid = none) (step : Step s e s') : Held s' := by
  intro cid res p hat
  have old (hold : s.readerAt = .body cid res p) : cid ≠ s.nextCid := by
    rintro rfl
    exact absurd (unused.symm.trans (h _ _ _ hold)) nofun
  cases step with
  | noFrame r | sends r | queues r =>
    rw [← h cid res p hat]
    exact AList.lookup_insert_ne (old hat)
  | sendThrows top => exact (hs.returned _ (by rw [top]; exact List.mem_cons_self)).elim
  | drain top =>
    have hended := he .failAllPending (by simp [top]) (Or.inl rfl)
    exact absurd (hended.symm.trans hat) nofun
  | awaitsBody top at_ enough resp bytes known =>
    obtain ⟨rfl, rfl, rfl⟩ := Reader.body.inj hat
    exact known
  | destroyReading | receiveFailed | unknownCid | answered | copies => cases hat
  | _ => exact h cid res p hat

section Reader

def received : List Effect → List UInt8
  | [] => []
  | .received bytes :: trace => received trace ++ bytes
  | _ :: trace => received trace

def results : List Effect → List (ℕ × Int64)
  | [] => []
  | .fired id res _ :: trace => results trace ++ [(id, res)]
  | _ :: trace => results trace

def copied : List Effect → List (ℕ × List UInt8)
  | [] => []
  | .copied id body :: trace => copied trace ++ [(id, body)]
  | _ :: trace => copied trace

@[simp] theorem received_taken (t : SendRequest) (o : SendOutcome) (trace : List Effect) :
    received (taken t o ++ trace) = received trace := by
  cases o <;> rfl

@[simp] theorem received_shown (b : Backend) (t : SendRequest) (o : SendOutcome)
    (trace : List Effect) : received (shown b t o ++ trace) = received trace := by
  unfold shown
  split <;> rfl

@[simp] theorem results_taken (t : SendRequest) (o : SendOutcome) (trace : List Effect) :
    results (taken t o ++ trace) = results trace := by
  cases o <;> rfl

@[simp] theorem results_shown (b : Backend) (t : SendRequest) (o : SendOutcome)
    (trace : List Effect) : results (shown b t o ++ trace) = results trace := by
  unfold shown
  split <;> rfl

@[simp] theorem copied_taken (t : SendRequest) (o : SendOutcome) (trace : List Effect) :
    copied (taken t o ++ trace) = copied trace := by
  cases o <;> rfl

@[simp] theorem copied_shown (b : Backend) (t : SendRequest) (o : SendOutcome)
    (trace : List Effect) : copied (shown b t o ++ trace) = copied trace := by
  unfold shown
  split <;> rfl

instance : Receives Event where
  batch
    | .received batch => some batch
    | _ => none

theorem received_step (step : Step s e s') :
    received s'.trace = received s.trace ++ arriving e := by
  cases step with
  | received => rfl
  | _ => simp [received, arriving, Receives.batch]

theorem results_ids (trace : List Effect) :
    (results trace).map Prod.fst = (firedIds trace).reverse := by
  induction trace with
  | nil => rfl
  | cons x trace ih => cases x <;> simp [results, ih]

theorem within_step (h : Within s.reader) (step : Step s e s') : Within s'.reader := by
  cases step with
  | received => exact h.insertBatch _
  | readsOn => exact Within.eraseConsumed _
  | unknownCid top at_ enough | awaitsBody top at_ enough | answered top at_ enough =>
    rw [at_] at enough
    exact enough
  | copies top at_ enough => exact enough
  | readsNothing => exact Nat.zero_le _
  | _ => exact h

/-- What a step adds to the bytes received, the callbacks invoked and the bodies copied. -/
structure Adds (s s' : State) (bytes : List UInt8) (fired : List (ℕ × Int64))
    (bodies : List (ℕ × List UInt8)) : Prop where
  received : received s'.trace = received s.trace ++ bytes
  results : results s'.trace = results s.trace ++ fired
  copied : copied s'.trace = copied s.trace ++ bodies

theorem Adds.nothing (hreceived : EasybdClientReliable.received s'.trace =
      EasybdClientReliable.received s.trace)
    (hresults : EasybdClientReliable.results s'.trace = EasybdClientReliable.results s.trace)
    (hcopied : EasybdClientReliable.copied s'.trace = EasybdClientReliable.copied s.trace) :
    Adds s s' [] [] [] :=
  ⟨by rw [hreceived, List.append_nil], by rw [hresults, List.append_nil],
    by rw [hcopied, List.append_nil]⟩

end Reader

/-- What holds of a client for which nothing fails, as long as it has not run out of cids. -/
structure Reliable (syncWrites : Bool) (s : State) : Prop where
  sound : Sound s
  numbered : Numbered syncWrites s
  held : Held s
  ledger : Ledger s
  within : Within s.reader

theorem reliable_initial (backend : Backend) (syncWrites : Bool) :
    Reliable syncWrites (initial backend syncWrites) where
  sound := ⟨nofun, nofun, nofun, id⟩
  numbered := ⟨rfl, rfl, nofun, rfl⟩
  held := nofun
  ledger := List.Perm.refl _
  within := Nat.zero_le _

theorem stillPending_of_held (held : Held s) (unused : s.pending.lookup s.nextCid = none) :
    StillPending s e := by
  cases e with
  | request r fault => exact unused
  | run =>
    intro b hb
    unfold bodyRead at hb
    split at hb
    · next cid res p top at_ =>
      split at hb
      · obtain rfl := Option.some.inj hb
        exact held cid res p at_
      · cases hb
    · cases hb
  | _ => trivial

theorem reliable_step {syncWrites : Bool} (h : Reliable syncWrites s) (hc : Consistent s)
    (hok : (channel s).Ok sender) (few : s.requests.length < UInt64.size) (g : Succeeds e)
    (step : Step s e s') : Reliable syncWrites s' := by
  have unused := h.numbered.unused hc.table few
  exact ⟨sound_step h.sound g step, numbered_step h.numbered hok g step,
    held_step h.held h.sound hc.ends unused step,
    ledger_kept h.ledger (stillPending_of_held h.held unused) step, within_step h.within step⟩

theorem requests_length_step (step : Step s e s') : s.requests.length ≤ s'.requests.length := by
  rcases requests_step step with hreq | ⟨r, -, hreq⟩
  · rw [hreq]
  · rw [hreq, List.length_append]
    exact Nat.le_add_right _ _

theorem reliable_of_run {backend : Backend} {syncWrites : Bool}
    (h : Run machine (fun _ e => Succeeds e) (initial backend syncWrites) s)
    (few : s.requests.length < UInt64.size) : Reliable syncWrites s := by
  refine h.invariant_under
    (J := fun u => u.requests.length < UInt64.size → Reliable syncWrites u)
    (fun u hu => And.intro (consistent_of_run hu) (channel_ok hu))
    (fun _ => reliable_initial backend syncWrites) ?_ few
  intro u e hu ih he g few'
  have step := step_of_enabled he
  have few := Nat.lt_of_le_of_lt (requests_length_step step) few'
  exact reliable_step (ih few) hu.1 hu.2 few g step

end EasybdClientReliable
