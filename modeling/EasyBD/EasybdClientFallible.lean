import EasyBD.EasyioFallibleSenders
import EasyBD.EasybdClientTeardown
import EasyBD.EasybdClientReliable

/-! A client whose sends, receives and allocations may fail, and which may be destroyed: no two
requests have the same cid, what queues for the socket are frames of its requests, and how its
callbacks are invoked and its map changes while `reader_loop` runs and once it has ended. -/
namespace EasybdClientFallible

open TransitionRuns EntryLedger SerializedFrames CarriedFrames EasybdProtocol EasyioQueue
open EasyioSenders EasyioFallibleSenders EasyioFramedReader EasybdRequests EasybdClient
open EasybdClientTable EasybdClientChannel EasybdClientBuffers
open EasybdClientReliable (Adds received results copied within_step syncWrites_step)

variable {s s' : State} {e : Event}

section Cids

/-- How many cids have been used up; a request that is refused for want of memory takes one. -/
def numbered : List Effect → ℕ
  | [] => 0
  | .accepted _ :: trace => numbered trace + 1
  | .refused err :: trace => if err = enomem then numbered trace + 1 else numbered trace
  | _ :: trace => numbered trace

@[simp] theorem numbered_taken (t : SendRequest) (o : SendOutcome) (trace : List Effect) :
    numbered (taken t o ++ trace) = numbered trace := by
  cases o <;> rfl

@[simp] theorem numbered_shown (b : Backend) (t : SendRequest) (o : SendOutcome)
    (trace : List Effect) : numbered (shown b t o ++ trace) = numbered trace := by
  unfold shown
  split <;> rfl

inductive NumberingStep (s s' : State) : Prop where
  | same (hcid : s'.nextCid = s.nextCid) (hcount : numbered s'.trace = numbered s.trace)
      (hreq : s'.requests = s.requests)
  | wasted (hcid : s'.nextCid = s.nextCid + 1) (hcount : numbered s'.trace = numbered s.trace + 1)
      (hreq : s'.requests = s.requests)
  | issued (r : Request) (hcid : s'.nextCid = s.nextCid + 1)
      (hcount : numbered s'.trace = numbered s.trace + 1)
      (hreq : s'.requests = s.requests ++ [(s.nextCid, r)])

theorem numbering_step (step : Step s e s') : NumberingStep s s' := by
  cases step with
  | oversized => exact .same rfl (by simp [numbered, emsgsize, enomem]) rfl
  | noEntry => exact .wasted rfl (by simp [numbered]) rfl
  | noFrame r => exact .issued r rfl (by simp [numbered]) rfl
  | sends r | queues r => exact .issued r rfl (by simp [numbered]) rfl
  | _ => exact .same rfl (by simp [numbered]) rfl

/-- The cids are 1, 2, 3, ..., with gaps where a request was refused for want of memory. -/
structure Cids (s : State) : Prop where
  nextCid : s.nextCid = UInt64.ofNat (numbered s.trace + 1)
  given : (s.requests.map Prod.fst).Sublist
    ((List.range (numbered s.trace)).map fun n => UInt64.ofNat (n + 1))

theorem cids_step (h : Cids s) (step : Step s e s') : Cids s' := by
  have hnext (n : ℕ) : UInt64.ofNat (n + 1) + 1 = UInt64.ofNat (n + 1 + 1) := by simp
  cases numbering_step step with
  | same hcid hcount hreq =>
    refine ⟨by rw [hcid, hcount, h.nextCid], ?_⟩
    rw [hreq, hcount]
    exact h.given
  | wasted hcid hcount hreq =>
    refine ⟨by rw [hcid, hcount, h.nextCid, hnext], ?_⟩
    rw [hreq, hcount, List.range_succ, List.map_append]
    exact h.given.trans (List.sublist_append_left _ _)
  | issued r hcid hcount hreq =>
    refine ⟨by rw [hcid, hcount, h.nextCid, hnext], ?_⟩
    rw [hreq, hcount, List.range_succ, List.map_append, List.map_append]
    refine h.given.append ?_
    rw [List.map_singleton, List.map_singleton, ← h.nextCid]

theorem cid_inj {n m k : ℕ} (few : k < UInt64.size) (hn : n ≤ k) (hm : m < k)
    (heq : UInt64.ofNat (n + 1) = UInt64.ofNat (m + 1)) : n = m := by
  have hnat := congrArg UInt64.toNat heq
  rw [UInt64.toNat_ofNat', UInt64.toNat_ofNat'] at hnat
  simp only [UInt64.size] at few
  omega

theorem Cids.nodup (h : Cids s) (few : numbered s.trace < UInt64.size) :
    (s.requests.map Prod.fst).Nodup := by
  refine h.given.nodup (List.Nodup.map_on (fun n hn m hm heq => ?_) List.nodup_range)
  exact cid_inj few (List.mem_range.mp hn).le (List.mem_range.mp hm) heq

theorem Cids.unused (h : Cids s) (few : numbered s.trace < UInt64.size) :
    s.nextCid ∉ s.requests.map Prod.fst := by
  intro hmem
  obtain ⟨n, hn, heq⟩ := List.mem_map.mp (h.given.mem hmem)
  rw [h.nextCid] at heq
  exact (List.mem_range.mp hn).ne' (cid_inj few le_rfl (List.mem_range.mp hn) heq.symm)

theorem mem_cids {cid : UInt64} {id : ℕ} {q : Request} (hq : Issued s cid id q) :
    cid ∈ s.requests.map Prod.fst := List.mem_map.mpr ⟨_, List.mem_of_getElem? hq, rfl⟩

theorem Cids.not_pending (h : Cids s) (ht : Table s) (few : numbered s.trace < UInt64.size) :
    s.pending.lookup s.nextCid = none := by
  by_contra hsome
  obtain ⟨p, hp⟩ := Option.ne_none_iff_exists'.mp hsome
  obtain ⟨r, hr, -⟩ := ht.entries _ p hp
  exact h.unused few (mem_cids hr)

theorem Cids.issued_unique (h : Cids s) (few : numbered s.trace < UInt64.size) {cid : UInt64}
    {id id' : ℕ} {q q' : Request} (hq : Issued s cid id q) (hq' : Issued s cid id' q') :
    id = id' ∧ q = q' := by
  have hnodup := h.nodup few
  have hid : id = id' := by
    have hlt := (List.getElem?_eq_some_iff.mp hq).1
    refine (List.getElem?_inj (by simpa using hlt) hnodup).mp ?_
    rw [List.getElem?_map, List.getElem?_map, hq, hq']
    rfl
  subst hid
  exact ⟨rfl, congrArg Prod.snd (Option.some.inj (hq.symm.trans hq'))⟩

theorem numbered_mono (step : Step s e s') : numbered s.trace ≤ numbered s'.trace := by
  cases numbering_step step with
  | same hcid hcount | wasted hcid hcount | issued r hcid hcount => omega

end Cids

section Frames

def frameCid (frame : List UInt8) : UInt64 :=
  (RequestHeader.ofBytes (frame.take requestHeaderSize)).cid

theorem frameCid_encode (syncWrites : Bool) (cid : UInt64) (q : Request) :
    frameCid (q.encode syncWrites cid) = cid := by
  have hfront : (q.encode syncWrites cid).take requestHeaderSize =
      (q.header syncWrites cid).bytes := List.take_left' (RequestHeader.bytes_length _)
  have hheader := RequestHeader.ofBytes_bytes (q.header syncWrites cid) []
  rw [List.append_nil] at hheader
  rw [frameCid, hfront, hheader]
  rfl

/-- What queues for the socket: the frames of the requests whose coroutines could be started. -/
def Queued (s : State) : Prop :=
  ∃ queued : List (UInt64 × Request), queued.Sublist s.requests ∧
    (channel s).order sender = queued.map fun q => q.2.encode s.syncWrites q.1

theorem entering_step (step : Step s e s') :
    (entering s e = none ∧ s.requests.Sublist s'.requests) ∨
      ∃ r, entering s e = some (s.sendRequest r) ∧
        s'.requests = s.requests ++ [(s.nextCid, r)] := by
  cases step with
  | oversized r fault may size =>
    cases fault with
    | none => exact Or.inl ⟨by simp [entering, size], List.Sublist.refl _⟩
    | some fault => exact Or.inl ⟨rfl, List.Sublist.refl _⟩
  | noFrame => exact Or.inl ⟨rfl, List.sublist_append_left _ _⟩
  | sends r may size | queues r may size =>
    exact Or.inr ⟨r, by simp only [entering, if_neg size], rfl⟩
  | _ => exact Or.inl ⟨rfl, List.Sublist.refl _⟩

theorem queued_step (h : Queued s) (hok : (channel s).Ok sender) (step : Step s e s') :
    Queued s' := by
  obtain ⟨queued, hsub, horder⟩ := h
  have horder' := hok.order_step (channel_step step)
  rw [Queued, syncWrites_step step, horder', horder]
  rcases entering_step step with ⟨hnone, hreq⟩ | ⟨r, hsome, hreq⟩
  · exact ⟨queued, hsub.trans hreq, by simp [hnone]⟩
  · refine ⟨queued ++ [(s.nextCid, r)], ?_, ?_⟩
    · rw [hreq]
      exact hsub.append (List.Sublist.refl _)
    · rw [hsome, List.map_append]
      simp only [Option.map_some, Option.toList_some, List.map_cons, List.map_nil, sender_send,
        State.sendRequest, r.rest_startSend]

abbrev Labelled (s : State) : Prop :=
  (channel s).Labelled sender frameCid SendRequest.cid

theorem labelled_step (h : Labelled s) (hok : (channel s).Ok sender) (step : Step s e s') :
    Labelled s' := by
  refine h.step hok (fun _ _ => rfl) (fun t ht => ?_) (channel_step step)
  rcases entering_step step with ⟨hnone, -⟩ | ⟨r, hsome, -⟩
  · rw [hnone] at ht
    cases ht
  · rw [hsome, Option.mem_some_iff] at ht
    subst ht
    simp only [sender_send, State.sendRequest, r.rest_startSend, frameCid_encode]

theorem dropped_of_throws (h : Labelled s) (early : ThrowsEarly (channel s)) {t : SendRequest}
    {stack : List Frame} (top : s.stack = .returned t none :: stack) :
    t.cid ∈ (dropped (.fail :: channelLog s.trace)).map frameCid := by
  have hmem : .back t none ∈ (channel s).holders := by simp [channel, top]
  obtain ⟨frame, n, hphase, -⟩ := early.back t hmem
  have hphase : phase (channelLog s.trace) = .sending frame n := hphase
  have hlabel := h.holders _ hmem
  rw [show (channel s).log = channelLog s.trace from rfl, hphase] at hlabel
  simp only [dropped, hphase, List.map_append, List.map_cons, List.map_nil, List.mem_append,
    List.mem_singleton]
  exact Or.inr (Option.some.inj hlabel).symm

end Frames

/-- What holds of a client in every run in which its socket, once broken, stays broken. -/
structure Fallible (syncWrites : Bool) (s : State) : Prop where
  sync : s.syncWrites = syncWrites
  early : ThrowsEarly (channel s)
  sticky : Sticky (channelLog s.trace)
  cids : Cids s
  queued : Queued s
  labelled : Labelled s
  within : Within s.reader

theorem fallible_initial (backend : Backend) (syncWrites : Bool) :
    Fallible syncWrites (initial backend syncWrites) where
  sync := rfl
  early := .initial
  sticky := trivial
  cids := ⟨rfl, List.Sublist.refl _⟩
  queued := ⟨[], List.Sublist.refl _, rfl⟩
  labelled := .initial
  within := Nat.zero_le _

theorem fallible_of_run {backend : Backend} {syncWrites : Bool}
    (h : Run machine Permanent (initial backend syncWrites) s) : Fallible syncWrites s := by
  refine h.invariant_under (I := fun u => (channel u).Ok sender) (fun u hu => channel_ok hu)
    (fallible_initial backend syncWrites) ?_
  intro u e hok hu he g
  have step := step_of_enabled he
  exact ⟨(syncWrites_step step).trans hu.sync,
    throwsEarly_step hu.early hok (channel_step step), sticky_step hu.sticky g step,
    cids_step hu.cids step, queued_step hu.queued hok step, labelled_step hu.labelled hok step,
    within_step hu.within step⟩

section Requests

variable {syncWrites : Bool}

theorem Fallible.carries (h : Fallible syncWrites s) (hok : (channel s).Ok sender) :
    Carries sender (channel s) := EasyioFallibleSenders.carries hok h.early h.sticky

theorem Fallible.queue (h : Fallible syncWrites s) :
    ∃ queued : List (UInt64 × Request), queued.Sublist s.requests ∧
      (channel s).order sender = queued.map fun q => q.2.encode syncWrites q.1 := by
  obtain ⟨queued, hsub, horder⟩ := h.queued
  rw [h.sync] at horder
  exact ⟨queued, hsub, horder⟩

/-- What the socket has taken: frames of requests in the order of their numbers, and less than
another frame. -/
theorem wire_requests (h : Fallible syncWrites s) (hok : (channel s).Ok sender) :
    ∃ sent : List (UInt64 × Request), sent.Sublist s.requests ∧
      whole (channelLog s.trace) = sent.map (fun q => q.2.encode syncWrites q.1) ∧
      ∃ rest, wire (channelLog s.trace) =
          (sent.map fun q => q.2.encode syncWrites q.1).flatten ++ rest ∧
        (rest = [] ∨ ∃ q ∈ s.requests, rest.IsPrefix (q.2.encode syncWrites q.1) ∧
          rest.length < (q.2.encode syncWrites q.1).length) := by
  obtain ⟨queued, hqueued, horder⟩ := h.queue
  have hcarries := h.carries hok
  have hwhole := hcarries.whole
  have hcarried := hcarries.order
  rw [horder] at hwhole hcarried
  obtain ⟨sent, hsent, heq⟩ := List.sublist_map_iff.mp hwhole
  obtain ⟨rest, hwire, hrest⟩ := hcarries.cut.wire_eq
  refine ⟨sent, hsent.trans hqueued, heq, rest, heq ▸ hwire, hrest.imp_right ?_⟩
  rintro ⟨frame, hframe, hprefix, hlt⟩
  obtain ⟨q, hq, rfl⟩ := List.mem_map.mp (hcarried.mem hframe)
  exact ⟨q, hqueued.mem hq, hprefix, hlt⟩

theorem not_dropped (h : Fallible syncWrites s) (hok : (channel s).Ok sender)
    (few : numbered s.trace < UInt64.size) {cid : UInt64} {q : Request}
    (hq : q.encode syncWrites cid ∈ whole (channelLog s.trace)) :
    cid ∉ (dropped (channelLog s.trace)).map frameCid := by
  obtain ⟨queued, hqueued, horder⟩ := h.queue
  have once : ((acquired (channelLog s.trace)).map frameCid).Nodup := by
    have hsub : (acquired (channelLog s.trace)).Sublist ((channel s).order sender) :=
      (List.prefix_append _ _).sublist
    rw [horder] at hsub
    have hmap := hsub.map frameCid
    have hcids : (queued.map fun q => q.2.encode syncWrites q.1).map frameCid =
        queued.map Prod.fst := by
      rw [List.map_map]
      exact List.map_congr_left fun a _ => frameCid_encode _ _ _
    rw [hcids] at hmap
    exact ((hqueued.map Prod.fst).nodup (h.cids.nodup few)).sublist hmap
  intro hmem
  obtain ⟨frame, hframe, hcid⟩ := List.mem_map.mp hmem
  refine not_dropped_of_whole hok.serial h.early.log once hq hframe ?_
  rw [frameCid_encode, hcid]

end Requests

end EasybdClientFallible
