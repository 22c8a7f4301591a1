import EasyBD.EasybdClientTable

/-! The caller's buffers: how far a response may write into one, and how long the client
uses one. -/
namespace EasybdClientBuffers

open TransitionRuns EntryLedger SerializedFrames EasybdProtocol EasyioQueue EasybdRequests
open EasybdClient EasybdClientTable

def answering (s : State) (resp : ResponseHeader) : Option Request :=
  (s.pending.lookup resp.cid).bind fun p => (s.requests[p.request]?).map Prod.snd

section Extent

def decoding (s : State) : Option ResponseHeader :=
  match s.stack, s.readerAt with
  | .reading :: _, .header =>
    if responseHeaderSize ≤ s.reader.unread.length then some (incoming s) else none
  | _, _ => none

def HonestLength (s : State) : Event → Prop
  | .run => ∀ resp ∈ decoding s, ∀ r ∈ answering s resp,
      r.isRead = true → resp.res.toNatClampNeg ≤ r.size.toNat
  | _ => True

instance (s : State) (e : Event) : Decidable (HonestLength s e) := by
  unfold HonestLength
  split <;> infer_instance

/-- No body reaches beyond the read's buffer or the payload limit, and the reader waits for
none that would. -/
structure StaysInBuffer (s : State) : Prop where
  copies : ∀ id body, .copied id body ∈ s.trace → ∃ cid r, Issued s cid id r ∧
    body.length ≤ r.size.toNat ∧ body.length ≤ easybdMaxPayloadSize.toNat
  awaits : ∀ cid res p, s.readerAt = .body cid res p → ∃ r, Issued s cid p.request r ∧
    res.toNatClampNeg ≤ r.size.toNat

theorem copied_step {s s' : State} {e : Event} (step : Step s e s') {id : ℕ} {body : List UInt8}
    (h : .copied id body ∈ s'.trace) : .copied id body ∈ s.trace ∨
      ∃ cid res p, s.readerAt = .body cid res p ∧ id = p.request ∧
        body = s.reader.unread.take res.toNatClampNeg := by
  have hshown : ∀ b t o, Effect.copied id body ∉ shown b t o := by
    intro b t o
    unfold shown
    split <;> simp
  have htaken : ∀ t o, Effect.copied id body ∉ taken t o := by
    rintro t (_ | _ | _) <;> simp [taken]
  cases step with
  | callBlocks => exact Or.inl (by simpa [hshown] using h)
  | callReturns => exact Or.inl (by simpa [hshown, htaken] using h)
  | stillBlocked => exact Or.inl (by simpa [hshown] using h)
  | readyReturns => exact Or.inl (by simpa [hshown, htaken] using h)
  | completes => exact Or.inl (by simpa [htaken] using h)
  | @copies stack cid res p top at_ enough =>
    have hnew : (id = p.request ∧ body = s.reader.unread.take res.toNatClampNeg) ∨
        .copied id body ∈ s.trace := by simpa [at_, Reader.needed] using h
    exact hnew.symm.imp_right fun hnew => ⟨cid, res, p, at_, hnew⟩
  | _ => exact Or.inl (by simpa using h)

theorem awaits_step {s s' : State} {e : Event} (h : StaysInBuffer s) (ht : Table s)
    (g : HonestLength s e) (step : Step s e s') {cid : UInt64} {res : Int64} {p : Pending}
    (hat : s'.readerAt = .body cid res p) :
    ∃ r, Issued s' cid p.request r ∧ res.toNatClampNeg ≤ r.size.toNat := by
  have keep : s.readerAt = .body cid res p →
      ∃ r, Issued s' cid p.request r ∧ res.toNatClampNeg ≤ r.size.toNat := by
    intro hold
    obtain ⟨r, hr, hle⟩ := h.awaits cid res p hold
    exact ⟨r, hr.step step, hle⟩
  cases step with
  | @awaitsBody stack q top at_ enough resp bytes known read pos =>
    obtain ⟨rfl, rfl, rfl⟩ := Reader.body.inj hat
    obtain ⟨r, hr, hread⟩ := ht.entries _ _ known
    have hanswer : answering s resp = some r := by
      have hr' : s.requests[q.request]? = some (resp.cid, r) := hr
      simp [answering, known, hr']
    rw [at_] at enough
    have hdecoding : resp ∈ decoding s := by
      have hlen : responseHeaderSize ≤ s.reader.unread.length := enough
      simp only [decoding, top, at_, if_pos hlen, Option.mem_some_iff]
      exact bytes
    exact ⟨r, hr, g resp hdecoding r hanswer (hread.trans read)⟩
  | destroyReading => cases hat
  | receiveFailed => cases hat
  | unknownCid => cases hat
  | answered => cases hat
  | copies => cases hat
  | _ => exact keep hat

theorem staysInBuffer_step {s s' : State} {e : Event} (h : StaysInBuffer s) (ht : Table s)
    (g : HonestLength s e) (step : Step s e s') : StaysInBuffer s' where
  copies id body hmem := by
    rcases copied_step step hmem with hold | ⟨cid, res, p, hat, rfl, rfl⟩
    · obtain ⟨cid, r, hr, hle⟩ := h.copies id body hold
      exact ⟨cid, r, hr.step step, hle⟩
    · obtain ⟨r, hr, hle⟩ := h.awaits cid res p hat
      have hmax := UInt64.le_iff_toNat_le.mp (ht.sizes cid p.request r hr)
      have hlen := List.length_take_le res.toNatClampNeg s.reader.unread
      exact ⟨cid, r, hr.step step, by omega, by omega⟩
  awaits _ _ _ hat := awaits_step h ht g step hat

theorem responses_stay_in_buffer {backend : Backend} {syncWrites : Bool} {s : State}
    (h : Run machine HonestLength (initial backend syncWrites) s) : StaysInBuffer s := by
  refine Run.invariant_under h (fun u hu => (consistent_of_run hu).table) ?_
    fun u e ht hu he hg => staysInBuffer_step hu ht hg (step_of_enabled he)
  exact ⟨by rintro id body ⟨⟩, by rintro cid res p ⟨⟩⟩

def sentShortRead : List Event :=
  [.request shortRead none, .sendCall (.accepted 25), .run, .run, .requestReturn, .wait, .poll]

def respondWith (res : Int64) (body : List UInt8) : List Event :=
  sentShortRead ++ [.received [ResponseHeader.bytes ⟨1, res⟩ ++ body], .run, .run]

theorem responses_stay_in_buffer_full_read :
    let s := runTrace machine (initial .libc false) (respondWith 2 [7, 8])
    .copied 0 [7, 8] ∈ s.trace ∧ StaysInBuffer s :=
  ⟨by decide +kernel, responses_stay_in_buffer
    (run_of_trace (respondWith 2 [7, 8]) (by decide +kernel) (by decide +kernel))⟩

/-- Three bytes are copied into the two-byte buffer. -/
theorem response_overruns_buffer : ∃ s, Reachable machine (initial .libc false) s ∧
    Issued s 1 0 shortRead ∧ .copied 0 [7, 8, 9] ∈ s.trace ∧ ¬ StaysInBuffer s := by
  let s := runTrace machine (initial .libc false) (respondWith 3 [7, 8, 9])
  have hissued : s.requests[0]? = some (1, shortRead) := by decide +kernel
  have hcopied : .copied 0 [7, 8, 9] ∈ s.trace := by decide +kernel
  refine ⟨s, reachable_of_trace (respondWith 3 [7, 8, 9]) (by decide +kernel), hissued,
    hcopied, fun h => ?_⟩
  obtain ⟨cid, r, hr, hle, -⟩ := h.copies 0 _ hcopied
  obtain ⟨-, rfl⟩ := Prod.mk.inj (Option.some.inj (hissued.symm.trans hr))
  exact absurd hle (by decide)

end Extent

section Lifetime

def Effect.used : Effect → Option ℕ
  | .handed id => some id
  | .copied id _ => some id
  | _ => none

def Released : List Effect → Prop
  | [] => True
  | e :: trace => (∀ id, Effect.used e = some id → id ∉ firedIds trace) ∧ Released trace

def goesOn (t : SendRequest) : Option ℕ → Option SendRequest
  | some n => if (State.resumed t n).send.Finished then none else some t
  | none => none

def Frame.unsent : Frame → List SendRequest
  | .calling t => [t]
  | .returned t count => (goesOn t count).toList
  | _ => []

/-- The senders that will call `sendmsg` again whatever comes next. What io_uring holds is not
among them, since it may yet be completed whole. -/
def unsent (s : State) : List Task :=
  (s.sendMtx.waiters ++ (if s.backend = .libc then s.io else []) ++
    s.cq.filterMap (fun c => goesOn c.1 c.2) ++ s.stack.flatMap Frame.unsent).map task

def awaited (s : State) : Option ℕ :=
  match s.readerAt with
  | .body _ _ p => some p.request
  | _ => none

def sendReturned (s : State) : Bool :=
  match s.stack with
  | .returned _ _ :: _ => true
  | _ => false

/-- The sender of which io_uring completes a `sendmsg` with less than was left to send. -/
def cutShort : Event → Option SendRequest
  | .complete t o => goesOn t o.count
  | _ => none

/-- A callback fires only when no sender of its request has payload left to hand out, and a failed
send fires it only when the reader is not on the way to its body; after that io_uring completes no
`sendmsg` of the request short. -/
def FiredUnused (s : State) (e : Event) : Prop :=
  (∀ id ∈ firing s e, (∀ k ∈ unsent s, k.request = id → k.payload = []) ∧
    (sendReturned s = true → awaited s ≠ some id)) ∧
  ∀ t ∈ cutShort e, t.payload ≠ [] → t.request ∉ firedIds s.trace

/-- Whoever still has a use of a buffer belongs to a request that has not been fired. -/
structure BuffersHeld (s : State) : Prop where
  released : Released s.trace
  senders : ∀ k ∈ unsent s, k.payload ≠ [] → k.request ∉ firedIds s.trace
  body : ∀ cid res p, s.readerAt = .body cid res p → p.request ∉ firedIds s.trace

theorem released_shown {b : Backend} {t : SendRequest} {o : SendOutcome} {trace : List Effect}
    (h : Released trace) (ht : t.payload ≠ [] → t.request ∉ firedIds trace) :
    Released (shown b t o ++ trace) := by
  unfold shown
  split
  · exact h
  · next hs =>
    refine ⟨?_, h⟩
    rintro id ⟨⟩
    exact ht fun hnil => hs (Or.inl hnil)

theorem released_taken {t : SendRequest} {o : SendOutcome} {trace : List Effect}
    (h : Released trace) : Released (taken t o ++ trace) := by
  cases o with
  | accepted n => exact ⟨by rintro id ⟨⟩, h⟩
  | suspended => exact h
  | failed => exact h

theorem released_cons {e : Effect} {trace : List Effect} (h : Released trace)
    (he : Effect.used e = none) : Released (e :: trace) :=
  ⟨fun id hid => (Option.some_ne_none id (hid.symm.trans he)).elim, h⟩

theorem mem_unsent {s : State} {k : Task} : k ∈ unsent s ↔
    ∃ t, task t = k ∧ (t ∈ s.sendMtx.waiters ∨ s.backend = .libc ∧ t ∈ s.io ∨
      (∃ c ∈ s.cq, goesOn c.1 c.2 = some t) ∨ ∃ f ∈ s.stack, t ∈ Frame.unsent f) := by
  simp only [unsent, List.mem_map, List.mem_append, List.mem_filterMap, List.mem_flatMap,
    List.mem_ite_nil_right, or_assoc]
  exact exists_congr fun t => and_comm

theorem unsent_of_calling {s : State} {t : SendRequest} {stack : List Frame}
    (top : s.stack = .calling t :: stack) : task t ∈ unsent s :=
  mem_unsent.mpr ⟨t, rfl, .inr (.inr (.inr ⟨.calling t, by simp [top], by simp [Frame.unsent]⟩))⟩

theorem unsent_of_io {s : State} {t : SendRequest} (libc : s.backend = .libc) (mem : t ∈ s.io) :
    task t ∈ unsent s := mem_unsent.mpr ⟨t, rfl, .inr (.inl ⟨libc, mem⟩)⟩

theorem released_step {s s' : State} {e : Event} (h : BuffersHeld s) (he : Enabled s e)
    (step : Step s e s') : Released s'.trace := by
  cases step with
  | sends => exact released_cons (released_cons h.released rfl) rfl
  | handsOver => exact released_cons (released_cons h.released rfl) rfl
  | callBlocks top => exact released_shown h.released (h.senders _ (unsent_of_calling top))
  | callReturns top =>
    exact released_taken (released_shown h.released (h.senders _ (unsent_of_calling top)))
  | stillBlocked dispatching mem =>
    exact released_shown h.released (h.senders _ (unsent_of_io he.2.1 mem))
  | readyReturns dispatching mem =>
    exact released_taken (released_shown h.released (h.senders _ (unsent_of_io he.2.1 mem)))
  | completes => exact released_taken h.released
  | sendThrows => exact released_cons (released_cons h.released rfl) rfl
  | copies top at_ =>
    refine released_cons ⟨?_, h.released⟩ rfl
    rintro id ⟨⟩
    exact h.body _ _ _ at_
  | _ => first | exact h.released | exact released_cons h.released rfl

theorem goesOn_subset (t : SendRequest) (count : Option ℕ) : (goesOn t count).toList ⊆ [t] := by
  cases count with
  | none => simp [goesOn]
  | some n =>
    simp only [goesOn]
    split <;> simp

theorem unsent_cases {s s' : State} {k : Task} (hk : k ∈ unsent s') (new : List SendRequest)
    (hwaiters : s'.sendMtx.waiters ⊆ s.sendMtx.waiters ++ new) (hbackend : s'.backend = s.backend)
    (hio : s'.io ⊆ s.io ++ new)
    (hcq : s'.cq.filterMap (fun c => goesOn c.1 c.2) ⊆
      s.cq.filterMap (fun c => goesOn c.1 c.2) ++ new)
    (hstack : s'.stack.flatMap Frame.unsent ⊆ s.stack.flatMap Frame.unsent ++ new) :
    k ∈ unsent s ∨ ∃ t ∈ new, task t = k := by
  obtain ⟨t, rfl, hmem⟩ := mem_unsent.mp hk
  have hplaces : t ∈ new ∨ t ∈ s.sendMtx.waiters ∨ s.backend = .libc ∧ t ∈ s.io ∨
      (∃ c ∈ s.cq, goesOn c.1 c.2 = some t) ∨ ∃ f ∈ s.stack, t ∈ Frame.unsent f := by
    rw [← List.mem_filterMap, ← List.mem_flatMap]
    rcases hmem with hmem | ⟨hlibc, hmem⟩ | hmem | hmem
    · have := List.mem_append.mp (hwaiters hmem)
      tauto
    · have := List.mem_append.mp (hio hmem)
      rw [hbackend] at hlibc
      tauto
    · have := List.mem_append.mp (hcq (List.mem_filterMap.mpr hmem))
      tauto
    · have := List.mem_append.mp (hstack (List.mem_flatMap.mpr hmem))
      tauto
  exact hplaces.symm.imp (fun h => mem_unsent.mpr ⟨t, rfl, h⟩) fun h => ⟨t, h, rfl⟩

theorem unsent_step {s s' : State} {e : Event} (he : Enabled s e) (step : Step s e s') {k : Task}
    (hk : k ∈ unsent s') : k ∈ unsent s ∨
      (∃ r, e = .request r none ∧ k.request = s.requests.length) ∨
      ∃ t ∈ cutShort e, task t = k := by
  have moved {t : SendRequest} (ht : task t ∈ unsent s)
      (h : k ∈ unsent s ∨ ∃ u ∈ [t], task u = k) : k ∈ unsent s := by
    rcases h with hold | ⟨u, hu, rfl⟩
    · exact hold
    · rwa [List.mem_singleton.mp hu]
  have starts {r : Request} (h : k ∈ unsent s ∨ ∃ u ∈ [s.sendRequest r], task u = k) :
      k ∈ unsent s ∨ k.request = s.requests.length := by
    refine h.imp_right ?_
    rintro ⟨u, hu, rfl⟩
    rw [List.mem_singleton.mp hu]
    rfl
  have stays (h : k ∈ unsent s ∨ ∃ u ∈ ([] : List SendRequest), task u = k) : k ∈ unsent s :=
    h.resolve_right (by simp)
  cases step with
  | sends r =>
    refine (starts (r := r) ?_).imp_right fun hnew => .inl ⟨r, rfl, hnew⟩
    refine unsent_cases hk _ ?_ ?_ ?_ ?_ ?_ <;> simp [Frame.unsent, EasyioMutex.Mutex.take]
  | queues r =>
    refine (starts (r := r) ?_).imp_right fun hnew => .inl ⟨r, rfl, hnew⟩
    refine unsent_cases hk _ ?_ ?_ ?_ ?_ ?_ <;> simp [Frame.unsent, EasyioMutex.Mutex.wait]
  | callBlocks top =>
    refine .inl (moved (unsent_of_calling top) ?_)
    refine unsent_cases hk _ ?_ ?_ ?_ ?_ ?_ <;> simp [top, Frame.unsent]
  | @callReturns t stack o top =>
    refine .inl (moved (unsent_of_calling top) ?_)
    refine unsent_cases hk _ ?_ ?_ ?_ ?_ ?_
    · simp
    · rfl
    · simp
    · simp
    · have hgoes := List.subset_append_of_subset_left (stack.flatMap Frame.unsent ++ [t])
        (goesOn_subset t o.count)
      simpa [top, Frame.unsent] using hgoes
  | @readyReturns t o dispatching mem =>
    refine .inl (moved (unsent_of_io he.2.1 mem) ?_)
    refine unsent_cases hk _ ?_ rfl (List.subset_append_of_subset_left _ List.erase_subset) ?_ ?_
    · simp
    · simp
    · have hgoes := List.subset_append_of_subset_right (s.stack.flatMap Frame.unsent)
        (goesOn_subset t o.count)
      simpa [Frame.unsent] using hgoes
  | @completes t o mem =>
    cases hgoes : goesOn t o.count with
    | none =>
      refine .inl (stays ?_)
      refine unsent_cases hk _ ?_ rfl (List.subset_append_of_subset_left _ List.erase_subset) ?_ ?_
        <;> simp [hgoes]
    | some u =>
      have h : k ∈ unsent s ∨ ∃ v ∈ [u], task v = k := by
        refine unsent_cases hk _ ?_ rfl (List.subset_append_of_subset_left _ List.erase_subset)
          ?_ ?_ <;> simp [hgoes]
      exact h.imp_right fun hcut => .inr (by simpa [cutShort, hgoes] using hcut)
  | @reap t count dispatching mem =>
    have hcq := List.filterMap_subset (fun c => goesOn c.1 c.2)
      (List.erase_subset (a := (t, count)) (l := s.cq))
    cases hgoes : goesOn t count with
    | none =>
      refine .inl (stays ?_)
      refine unsent_cases hk _ ?_ rfl ?_ (List.subset_append_of_subset_left _ hcq) ?_ <;>
        simp [Frame.unsent, hgoes]
    | some u =>
      have hu : task u ∈ unsent s := mem_unsent.mpr ⟨u, rfl, .inr (.inr (.inl ⟨_, mem, hgoes⟩))⟩
      refine .inl (moved hu ?_)
      refine unsent_cases hk _ ?_ rfl ?_ (List.subset_append_of_subset_left _ hcq) ?_ <;>
        simp [Frame.unsent, hgoes]
  | @sendsOn t stack n top more =>
    refine .inl (moved (t := State.resumed t n) ?_ ?_)
    · rw [task_resumed]
      refine mem_unsent.mpr ⟨t, rfl, .inr (.inr (.inr ⟨.returned t (some n), by simp [top], ?_⟩))⟩
      simp [Frame.unsent, goesOn, more]
    · refine unsent_cases hk _ ?_ ?_ ?_ ?_ ?_ <;> simp [top, Frame.unsent]
  | @handsOver c t stack waiters top waiting =>
    refine .inl (moved (t := t) (mem_unsent.mpr ⟨t, rfl, .inl (by simp [waiting])⟩) ?_)
    refine unsent_cases hk _ ?_ ?_ ?_ ?_ ?_ <;> simp [top, Frame.unsent, waiting]
  | cancel flat call =>
    refine .inl (stays ?_)
    refine unsent_cases hk _ ?_ ?_ ?_ ?_ ?_ <;> simp [flat, Frame.unsent, goesOn]
  | requestReturn top | callbackReturn top | drain top | sent top | sendThrows top
  | sendThrowsLate top | frees top | readsOn top | unknownCid top | awaitsBody top | answered top
  | copies top | readsNothing top | failsNext top | failedAll top =>
    refine .inl (stays ?_)
    refine unsent_cases hk _ ?_ ?_ ?_ ?_ ?_ <;> simp [top, Frame.unsent]
  | _ =>
    refine .inl (stays ?_)
    refine unsent_cases hk _ ?_ ?_ ?_ ?_ ?_ <;> simp [Frame.unsent]

/-- The reader waits for a body after a callback only if it was not the reader that fired it. -/
theorem firing_cases {s s' : State} {e : Event} (step : Step s e s') {id : ℕ}
    (h : id ∈ firing s e) {cid : UInt64} {res : Int64} {p : Pending}
    (hat : s'.readerAt = .body cid res p) : s.readerAt = .body cid res p ∧
      ((∃ t c stack, s.stack = .returned t c :: stack) ∨
        ∃ q ps stack, s.stack = .failing (q :: ps) :: stack) := by
  have hfired : firedIds s'.trace = id :: firedIds s.trace := by
    rw [firedIds_step step, Option.mem_def.mp h]
    rfl
  cases step with
  | @sendThrows t stack p top known => exact ⟨hat, .inl ⟨t, none, stack, top⟩⟩
  | answered top => cases hat
  | copies top => cases hat
  | @failsNext stack p ps top => exact ⟨hat, .inr ⟨p, ps, stack, top⟩⟩
  | _ => simp at hfired

theorem buffersHeld_step {s s' : State} {e : Event} (h : BuffersHeld s) (hc : Consistent s)
    (g : FiredUnused s e) (he : Enabled s e) (step : Step s e s') : BuffersHeld s' where
  released := released_step h he step
  senders k hk hpayload := by
    rw [firedIds_step step, List.mem_append, Option.mem_toList, not_or]
    rcases unsent_step he step hk with hold | ⟨r, rfl, hnew⟩ | ⟨t, ht, rfl⟩
    · exact ⟨fun hfire => hpayload ((g.1 _ hfire).1 k hold rfl), h.senders k hold hpayload⟩
    · refine ⟨by rintro ⟨⟩, fun hm => ?_⟩
      exact (hc.unfired.bounded _ (List.mem_append_right _ hm)).ne hnew
    · cases e with
      | complete => exact ⟨by rintro ⟨⟩, g.2 t ht hpayload⟩
      | _ => cases ht
  body cid res p hat := by
    rw [firedIds_step step, List.mem_append, Option.mem_toList, not_or]
    constructor
    · intro hfire
      obtain ⟨hold, ⟨t, c, stack, top⟩ | ⟨q, ps, stack, top⟩⟩ := firing_cases step hfire hat
      · have hunawaited := (g.1 _ hfire).2
        simp only [sendReturned, awaited, top, hold] at hunawaited
        simp at hunawaited
      · -- `fail_all_pending` runs only after the reader has ended
        have hended := hc.ends (.failing (q :: ps)) (by simp [top])
          (Or.inr (by simp [Frame.drained]))
        rw [hold] at hended
        cases hended
    · rcases body_step step hat with hold | ⟨known, -, -⟩
      · exact h.body cid res p hold
      · refine hc.unfired.unfired _ (List.mem_append_left _ ?_)
        exact List.mem_map.mpr ⟨p, mem_values_of_lookup known, rfl⟩

instance (s : State) (e : Event) : Decidable (FiredUnused s e) :=
  inferInstanceAs (Decidable (_ ∧ _))

def shortWrite : Request := ⟨false, 2, 0, [7, 8], rfl⟩

def shortWriteSend : SendRequest := (initial .libc false).sendRequest shortWrite

/-- io_uring has sent the whole write; the response is dispatched before that completion. -/
def answeredFirst : List Event :=
  [.request shortWrite none, .sendCall .suspended, .requestReturn, .wait, .poll,
    .complete shortWriteSend (.accepted 27), .received [ResponseHeader.bytes ⟨1, 2⟩], .run,
    .callbackReturn, .run, .reap shortWriteSend (some 27), .run, .run]

/-- The socket is full when the write is issued; the server's EOF and the writability of the
socket are dispatched by one `step`, the EOF first. -/
def eofBeforeWritable : List Event :=
  [.request shortWrite none, .sendCall .suspended, .requestReturn, .wait, .poll, .receiveFailed,
    .drain [⟨false, 0⟩], .run, .callbackReturn, .run, .sendReady shortWriteSend (.accepted 27)]

end Lifetime

end EasybdClientBuffers
