import EasyBD.EasybdClientTable

/-! What a refused request leaves behind. `Numbered` is the client with its calls of
`easybd_client_pread` and `easybd_client_pwrite` numbered; `calls` lists, for each request that was
entered into `_pending`, the call that entered it. -/
namespace EasybdClientRefusals

open TransitionRuns EasybdProtocol EasyioQueue EasybdRequests EasybdClient EasybdClientTable

structure Numbered where
  client : State
  made : ℕ
  calls : List ℕ

def start (backend : Backend) (syncWrites : Bool) : Numbered := ⟨initial backend syncWrites, 0, []⟩

def madeBy : Event → ℕ
  | .request _ _ => 1
  | _ => 0

def Numbered.next (m : Numbered) (e : Event) : Numbered where
  client := EasybdClient.next m.client e
  made := m.made + madeBy e
  calls :=
    if m.client.requests.length < (EasybdClient.next m.client e).requests.length then
      m.calls ++ [m.made]
    else m.calls

def numbered : System Numbered Event := ⟨fun m e => EasybdClient.Enabled m.client e, Numbered.next⟩

instance (m : Numbered) (e : Event) : Decidable (numbered.Enabled m e) :=
  inferInstanceAs (Decidable (EasybdClient.Enabled m.client e))

structure Attributed (m : Numbered) : Prop where
  length : m.calls.length = m.client.requests.length
  made : ∀ k ∈ m.calls, k < m.made

section Steps

variable {m : Numbered}

theorem entered_step {s s' : State} {e : Event} (step : Step s e s') :
    s'.requests.length = s.requests.length ∨
      s'.requests.length = s.requests.length + 1 ∧ madeBy e = 1 := by
  cases step with
  | noFrame r => exact Or.inr ⟨List.length_append, rfl⟩
  | sends r => exact Or.inr ⟨List.length_append, rfl⟩
  | queues r => exact Or.inr ⟨List.length_append, rfl⟩
  | _ => exact Or.inl rfl

theorem attributed_start (backend : Backend) (syncWrites : Bool) :
    Attributed (start backend syncWrites) := ⟨rfl, List.forall_mem_nil _⟩

theorem attributed_next (h : Attributed m) {e : Event} (he : numbered.Enabled m e) :
    Attributed (m.next e) := by
  unfold Numbered.next
  rcases entered_step (step_of_enabled he) with hsame | ⟨hone, hmade⟩
  · rw [if_neg (by omega)]
    refine ⟨h.length.trans hsame.symm, fun k hk => ?_⟩
    exact Nat.lt_of_lt_of_le (h.made k hk) (Nat.le_add_right _ _)
  · rw [if_pos (by omega)]
    refine ⟨?_, fun k hk => ?_⟩
    · rw [List.length_append, h.length, hone]
      rfl
    · change k < m.made + madeBy e
      rw [hmade]
      rcases List.mem_append.mp hk with hold | hnew
      · exact Nat.lt_succ_of_lt (h.made k hold)
      · rw [List.mem_singleton.mp hnew]
        exact Nat.lt_succ_self _

theorem client_run {start : Numbered} (h : Reachable numbered start m) :
    Reachable machine start.client m.client :=
  Run.simulate (N := machine) h fun _ _ _ he _ => Run.single he trivial

theorem absent_next {k : ℕ} (h : k < m.made ∧ k ∉ m.calls) (e : Event) :
    k < (m.next e).made ∧ k ∉ (m.next e).calls := by
  obtain ⟨hmade, habsent⟩ := h
  refine ⟨Nat.lt_of_lt_of_le hmade (Nat.le_add_right _ _), ?_⟩
  unfold Numbered.next
  split
  · intro hmem
    rcases List.mem_append.mp hmem with hold | hnew
    · exact habsent hold
    · exact absurd (List.mem_singleton.mp hnew) (Nat.ne_of_lt hmade)
  · exact habsent

end Steps

/-- The call returns a negative errno. -/
def Refused (s : State) (r : Request) (fault : Option Fault) : Prop :=
  ∃ err, (s.request r fault).trace.head? = some (.refused err)

/-- The map is what it was, and whatever happens from then on no callback is the refused one's. -/
def LeavesNoTrace (m : Numbered) (r : Request) (fault : Option Fault) : Prop :=
  Refused m.client r fault → (m.client.request r fault).pending = m.client.pending ∧
    ∀ t, Reachable numbered (m.next (.request r fault)) t →
      ∀ id res during, .fired id res during ∈ t.client.trace →
        ∃ k, t.calls[id]? = some k ∧ k ≠ m.made

theorem refused_before_entry {s : State} {r : Request} {fault : Option Fault}
    (h : Refused s r fault) (hframe : ¬ (¬ easybdMaxPayloadSize < r.size ∧ fault = some .spawn)) :
    (s.request r fault).pending = s.pending ∧ (s.request r fault).requests = s.requests := by
  obtain ⟨err, herr⟩ := h
  unfold State.request at herr ⊢
  by_cases hsize : easybdMaxPayloadSize < r.size
  · rw [if_pos hsize]
    exact ⟨rfl, rfl⟩
  · rw [if_neg hsize] at herr ⊢
    cases fault with
    | none =>
      cases hlocked : s.sendMtx.locked with
      | false => simp [State.lock, hlocked] at herr
      | true => simp [State.lock, hlocked] at herr
    | some fault =>
      cases fault with
      | insert => exact ⟨rfl, rfl⟩
      | spawn => exact absurd ⟨hsize, rfl⟩ hframe

theorem stays_entered {s : State} (h : Table s) {r : Request}
    (hsize : ¬ easybdMaxPayloadSize < r.size) :
    Refused s r (some .spawn) ∧ (s.request r (some .spawn)).pending ≠ s.pending := by
  have hrequest : s.request r (some .spawn) = (s.register r).emit (.refused enomem) := by
    rw [State.request, if_neg hsize]
  refine ⟨⟨enomem, by rw [hrequest]; rfl⟩, fun hsame => ?_⟩
  have hentry : s.pending.lookup s.nextCid = some ⟨r.isRead, s.requests.length⟩ := by
    rw [← hsame, hrequest]
    exact AList.lookup_insert _
  obtain ⟨q, hissued, -⟩ := h.entries _ _ hentry
  exact absurd (List.getElem?_eq_some_iff.mp hissued).1 (Nat.lt_irrefl _)

/-- A refused request leaves no trace unless it was a coroutine frame that could not be allocated:
the entry is made before the coroutines are. -/
theorem refused_leaves_no_trace_iff {backend : Backend} {syncWrites : Bool} {m : Numbered}
    (h : Reachable numbered (start backend syncWrites) m) {r : Request} {fault : Option Fault}
    (may : m.client.MayRequest) : LeavesNoTrace m r fault ↔
      ¬ (¬ easybdMaxPayloadSize < r.size ∧ fault = some .spawn) := by
  constructor
  · rintro hleaves ⟨hsize, rfl⟩
    have hclient : Reachable machine (initial backend syncWrites) m.client := client_run h
    obtain ⟨hrefused, hstays⟩ := stays_entered (consistent_of_run hclient).table hsize
    exact hstays (hleaves hrefused).1
  · intro hframe hrefused
    obtain ⟨hpending, hrequests⟩ := refused_before_entry hrefused hframe
    refine ⟨hpending, fun t ht id res during hfired => ?_⟩
    have hcall : numbered.Enabled m (.request r fault) := may
    have hattributed (u : Numbered) (hu : Reachable numbered (start backend syncWrites) u) :
        Attributed u :=
      hu.invariant (I := Attributed) (attributed_start backend syncWrites)
        fun _ _ hi he _ => attributed_next hi he
    have habsent : m.made < (m.next (.request r fault)).made ∧
        m.made ∉ (m.next (.request r fault)).calls := by
      refine ⟨Nat.lt_succ_self _, ?_⟩
      have hsame : (m.next (.request r fault)).calls = m.calls :=
        if_neg (by rw [show EasybdClient.next m.client (.request r fault) =
          m.client.request r fault from rfl, hrequests]; exact Nat.lt_irrefl _)
      rw [hsame]
      exact fun hmem => absurd ((hattributed m h).made _ hmem) (Nat.lt_irrefl _)
    have hnever : m.made < t.made ∧ m.made ∉ t.calls :=
      ht.invariant (I := fun t => m.made < t.made ∧ m.made ∉ t.calls) habsent
        fun _ e hi _ _ => absent_next hi e
    have hall : Reachable numbered (start backend syncWrites) t := (h.step hcall).trans ht
    have hbounded : id < t.calls.length := by
      rw [(hattributed t hall).length]
      apply (consistent_of_run (client_run hall)).unfired.bounded
      apply List.mem_append_right
      exact List.mem_filterMap.mpr ⟨_, hfired, rfl⟩
    refine ⟨t.calls[id], List.getElem?_eq_getElem hbounded, fun heq => ?_⟩
    exact hnever.2 (heq ▸ List.getElem_mem hbounded)

section Traces

def breaks : List Event := [.wait, .poll, .receiveFailed, .drain [⟨true, 0⟩], .run]

/-- No memory for the coroutine: the call returns `-ENOMEM`, and its callback comes all the
same. -/
theorem refused_request_is_called_back :
    let m := start .libc false
    let t := runTrace numbered (m.next (.request shortRead (some .spawn))) breaks
    Refused m.client shortRead (some .spawn) ∧
      Reachable numbered (m.next (.request shortRead (some .spawn))) t ∧
      .fired 0 (negErrno econnreset) .wait ∈ t.client.trace ∧ t.calls[0]? = some m.made ∧
      ¬ LeavesNoTrace m shortRead (some .spawn) := by
  intro m t
  have hrefused : Refused m.client shortRead (some .spawn) := ⟨enomem, by decide +kernel⟩
  have hrun : Reachable numbered (m.next (.request shortRead (some .spawn))) t :=
    reachable_of_trace breaks (by decide +kernel)
  have hfired : .fired 0 (negErrno econnreset) .wait ∈ t.client.trace := by decide +kernel
  have hcall : t.calls[0]? = some m.made := by decide +kernel
  refine ⟨hrefused, hrun, hfired, hcall, fun hleaves => ?_⟩
  obtain ⟨k, hk, hne⟩ := (hleaves hrefused).2 t hrun _ _ _ hfired
  exact hne (Option.some.inj (hk.symm.trans hcall))

/-- No memory for the entry: the refused call is forgotten. -/
theorem refused_leaves_no_trace_iff_for_entry :
    LeavesNoTrace (start .libc false) shortRead (some .insert) ↔
      ¬ (¬ easybdMaxPayloadSize < shortRead.size ∧ (some .insert : Option Fault) = some .spawn) :=
  refused_leaves_no_trace_iff .refl (by decide +kernel)

end Traces

end EasybdClientRefusals
