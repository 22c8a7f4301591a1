import EasyBD.EasybdSession

/-! The read loop of a running connection follows the wire grammar: what it has spawned is what
the grammar reads off the received bytes, and the rest is still in front of it. -/
namespace EasybdSessionParsing

open TransitionRuns EasybdProtocol EasyioQueue EasyioFramedReader EasybdHandlers
open EasybdHandleConnection EasybdSession

def received : List Effect → List UInt8
  | [] => []
  | .received bytes :: trace => received trace ++ bytes
  | _ :: trace => received trace

/-- Activations of `handle_connection` itself. -/
@[simp] def Frame.isLoop : Frame → Bool
  | .reading | .allocating _ | .spawning _ => true
  | _ => false

@[simp] def Frame.parsed : Frame → List Handler
  | .spawning h => [h]
  | _ => []

@[simp] def Frame.unparsed : Frame → List UInt8
  | .allocating req => req.bytes
  | _ => []

def Reader.unparsed : Reader → List UInt8
  | .payload req got => req.bytes ++ got
  | _ => []

def parsed (s : State) : List Handler := s.dispatched ++ s.stack.flatMap Frame.parsed

def unparsed (s : State) : List UInt8 :=
  s.stack.flatMap Frame.unparsed ++ Reader.unparsed s.readerAt ++ s.reader.unread

/-- The loop is at one place, and what it keeps there fits together. -/
structure AtOnePlace (s : State) : Prop where
  single : (s.stack.filter Frame.isLoop).length ≤ 1
  consumed : Within s.reader
  allocating : ∀ req, .allocating req ∈ s.stack → onHeader req = .payload ∧ s.readerAt = .header
  spawning : ∀ h, .spawning h ∈ s.stack → h.PassesSizeCheck ∧ s.readerAt = .header
  payload : ∀ req got, s.readerAt = .payload req got →
    onHeader req = .payload ∧ Copying req.size.toNat got s.reader

theorem passesSizeCheck_of_spawn {req : RequestHeader} {h : Handler}
    (action : onHeader req = .spawn h) : h.PassesSizeCheck := by
  unfold onHeader at action
  split at action
  · split at action <;> cases action
  · split at action
    · split at action
      · obtain rfl := HeaderAction.spawn.inj action
        trivial
      · next size =>
        obtain rfl := HeaderAction.spawn.inj action
        exact UInt64.not_lt.mp size
    · cases action

theorem size_of_payload {req : RequestHeader} (action : onHeader req = .payload) :
    req.size ≤ easybdMaxPayloadSize := by
  unfold onHeader at action
  split at action
  · split at action
    · cases action
    · next size => exact UInt64.not_lt.mp size
  · split at action
    · split at action <;> cases action
    · cases action

section Stack

variable {s s' : State} {f : Frame} {stack : List Frame}

theorem flatMap_parsed (h : stack.filter Frame.isLoop = []) : stack.flatMap Frame.parsed = [] := by
  rw [List.filter_eq_nil_iff] at h
  rw [List.flatMap_eq_nil_iff]
  intro f hf
  cases f <;> first | rfl | exact absurd rfl (h _ hf)

theorem flatMap_unparsed (h : stack.filter Frame.isLoop = []) :
    stack.flatMap Frame.unparsed = [] := by
  rw [List.filter_eq_nil_iff] at h
  rw [List.flatMap_eq_nil_iff]
  intro f hf
  cases f <;> first | rfl | exact absurd rfl (h _ hf)

theorem AtOnePlace.below (h : AtOnePlace s) (top : s.stack = f :: stack)
    (hf : Frame.isLoop f = true) :
    stack.filter Frame.isLoop = [] := by
  have hsingle := h.single
  rw [top, List.filter_cons_of_pos hf, List.length_cons] at hsingle
  exact List.length_eq_zero_iff.mp (by omega)

theorem not_mem_of_below (h : stack.filter Frame.isLoop = []) (hf : Frame.isLoop f = true) :
    f ∉ stack := fun hm => (List.filter_eq_nil_iff.mp h f hm) hf

theorem AtOnePlace.of_same (h : AtOnePlace s) (hreader : s'.reader = s.reader)
    (hat : s'.readerAt = s.readerAt)
    (hstack : s'.stack.filter Frame.isLoop = s.stack.filter Frame.isLoop) : AtOnePlace s' := by
  have hmem (f : Frame) (hf : Frame.isLoop f = true) (hm : f ∈ s'.stack) : f ∈ s.stack :=
    (List.mem_filter.mp (hstack ▸ List.mem_filter.mpr ⟨hm, hf⟩)).1
  refine ⟨hstack ▸ h.single, hreader ▸ h.consumed, fun req hm => ?_, fun k hm => ?_, ?_⟩
  · rw [hat]
    exact h.allocating req (hmem _ rfl hm)
  · rw [hat]
    exact h.spawning k (hmem _ rfl hm)
  · rw [hat, hreader]
    exact h.payload

theorem nothing_below : ([] : List Frame).filter Frame.isLoop = [] := rfl

theorem AtOnePlace.of_below (below : stack.filter Frame.isLoop = [])
    (hstack : s'.stack = stack ∨ ∃ f, s'.stack = f :: stack ∧
      (∀ req, f = .allocating req → onHeader req = .payload ∧ s'.readerAt = .header) ∧
      ∀ k, f = .spawning k → k.PassesSizeCheck ∧ s'.readerAt = .header)
    (consumed : Within s'.reader)
    (payload : ∀ req got, s'.readerAt = .payload req got →
      onHeader req = .payload ∧ Copying req.size.toNat got s'.reader) : AtOnePlace s' := by
  rcases hstack with hs | ⟨f, hs, hallocating, hspawning⟩
  · refine ⟨by simp [hs, below], consumed, fun req hm => ?_, fun k hm => ?_, payload⟩
    · exact absurd (hs ▸ hm) (not_mem_of_below below rfl)
    · exact absurd (hs ▸ hm) (not_mem_of_below below rfl)
  · refine ⟨?_, consumed, fun req hm => ?_, fun k hm => ?_, payload⟩
    · rw [hs, List.filter_cons, below]
      split <;> simp
    · rw [hs, List.mem_cons] at hm
      rcases hm with heq | hm
      · exact hallocating req heq.symm
      · exact absurd hm (not_mem_of_below below rfl)
    · rw [hs, List.mem_cons] at hm
      rcases hm with heq | hm
      · exact hspawning k heq.symm
      · exact absurd hm (not_mem_of_below below rfl)

end Stack

theorem atOnePlace_endLoop {s : State} (below : s.stack.filter Frame.isLoop = [])
    (consumed : Within s.reader) : AtOnePlace s.endLoop := by
  unfold State.endLoop
  split
  · exact .of_below below (Or.inr ⟨.closing, rfl, nofun, nofun⟩) consumed nofun
  · exact .of_below below (Or.inl rfl) consumed nofun

theorem atOnePlace_initial (backend : Backend) : AtOnePlace (initial backend) :=
  .of_below nothing_below (Or.inl rfl) (Nat.zero_le _) nofun

theorem reply_same (s : State) (t : Reply) : (s.reply t).reader = s.reader ∧
    (s.reply t).readerAt = s.readerAt ∧
    (s.reply t).stack.filter Frame.isLoop = s.stack.filter Frame.isLoop := by
  unfold State.reply
  split <;> simp

theorem atOnePlace_step {s s' : State} {e : Event} (h : AtOnePlace s) (step : Step s e s') :
    AtOnePlace s' := by
  have hread (enough : requestHeaderSize ≤ s.reader.unread.length) :
      Within (s.reader.eraseConsumed.returnExact requestHeaderSize).2 := enough
  cases step with
  | receivesHeader flat at_ =>
    refine .of_below nothing_below (Or.inr ⟨.reading, rfl, nofun, nofun⟩)
      (h.consumed.insertBatch _) fun req got hat => ?_
    exact absurd (at_.symm.trans hat) nofun
  | @receivesPayload batch req got flat at_ isBatch =>
    obtain ⟨haction, hcopy⟩ := h.payload req got at_
    refine .of_below nothing_below (Or.inr ⟨.reading, rfl, nofun, nofun⟩)
      (h.consumed.copyBatch _) ?_
    rintro _ _ ⟨⟩
    refine ⟨haction, (copyBatch_spec hcopy fun front last hb => ?_).1⟩
    have := isBatch.limit front last hb
    omega
  | receiveFailed flat => exact atOnePlace_endLoop (by simp [flat]) h.consumed
  | awaitsHeader top at_ =>
    refine .of_below (h.below top rfl) (Or.inl rfl) (Within.eraseConsumed _) fun req got hat => ?_
    exact absurd (at_.symm.trans hat) nofun
  | rejects top at_ enough => exact atOnePlace_endLoop (h.below top rfl) (hread enough)
  | allocates top at_ enough req bytes action =>
    refine .of_below (h.below top rfl) (Or.inr ⟨_, rfl, ?_, nofun⟩) (hread enough)
      fun req got hat => absurd (at_.symm.trans hat) nofun
    rintro _ ⟨⟩
    exact ⟨action, at_⟩
  | spawns top at_ enough req k bytes action =>
    refine .of_below (h.below top rfl) (Or.inr ⟨_, rfl, nofun, ?_⟩) (hread enough)
      fun req got hat => absurd (at_.symm.trans hat) nofun
    rintro _ ⟨⟩
    exact ⟨passesSizeCheck_of_spawn action, at_⟩
  | awaitsPayload top at_ =>
    exact .of_below (h.below top rfl) (Or.inl rfl) h.consumed h.payload
  | @spawnsWrite stack req got top at_ enough =>
    obtain ⟨haction, hcopy⟩ := h.payload req got at_
    refine .of_below (h.below top rfl) (Or.inr ⟨_, rfl, nofun, ?_⟩) h.consumed nofun
    rintro _ ⟨⟩
    exact ⟨hcopy.within.trans (UInt64.le_iff_toNat_le.mp (size_of_payload haction)), rfl⟩
  | readsNothing top =>
    exact .of_below (h.below top rfl) (Or.inl rfl) h.consumed h.payload
  | @allocated stack req top =>
    obtain ⟨haction, -⟩ := h.allocating req (by simp [top])
    refine .of_below (h.below top rfl) (Or.inr ⟨_, rfl, nofun, nofun⟩)
      (Within.takeLeftover _ _) ?_
    rintro _ _ ⟨⟩
    exact ⟨haction, copying_takeLeftover _ _⟩
  | notAllocated top => exact atOnePlace_endLoop (h.below top rfl) h.consumed
  | spawnsError top =>
    obtain ⟨hreader, hat, hstack⟩ := reply_same _ _
    refine AtOnePlace.of_same ?_ hreader hat hstack
    exact .of_below (h.below top rfl) (Or.inr ⟨_, rfl, nofun, nofun⟩) h.consumed h.payload
  | @spawned stack k top file f first =>
    have hplace : AtOnePlace { s with
        dispatched := s.dispatched ++ [k], stack := .reading :: stack } :=
      .of_below (h.below top rfl) (Or.inr ⟨_, rfl, nofun, nofun⟩) h.consumed h.payload
    rcases first with rfl | rfl <;> exact hplace.of_same rfl rfl rfl
  | notSpawned top => exact atOnePlace_endLoop (h.below top rfl) h.consumed
  | performed top =>
    obtain ⟨hreader, hat, hstack⟩ := reply_same _ _
    exact h.of_same hreader hat (hstack.trans (by simp [top]))
  | fileReady =>
    obtain ⟨hreader, hat, hstack⟩ := reply_same _ _
    exact h.of_same hreader hat hstack
  | finishesLast top last drains =>
    have hsingle := h.single
    rw [top] at hsingle
    refine ⟨by simpa using hsingle, h.consumed, fun req hm => ?_, fun k hm => ?_, nofun⟩
    · exact absurd (drains.symm.trans (h.allocating req (by simpa [top] using hm)).2) nofun
    · exact absurd (drains.symm.trans (h.spawning k (by simpa [top] using hm)).2) nofun
  | _ => exact h.of_same rfl rfl (by simp_all)

/-- What the loop has read is what the grammar says, and what it has not read is still there;
once the loop has ended, it has read no more than the grammar allows. -/
structure Follows (s : State) : Prop where
  reads : s.Loops → ∀ tail, referenceParse (received s.trace ++ tail) =
    parsed s ++ referenceParse (unparsed s ++ tail)
  within : (parsed s).IsPrefix (referenceParse (received s.trace))

theorem Follows.of_same {s s' : State} (h : Follows s) (hparsed : parsed s' = parsed s)
    (hreceived : received s'.trace = received s.trace)
    (hunparsed : s'.Loops → s.Loops ∧ unparsed s' = unparsed s) : Follows s' where
  reads hl tail := by
    obtain ⟨hloops, heq⟩ := hunparsed hl
    rw [hparsed, hreceived, heq]
    exact h.reads hloops tail
  within := by
    rw [hparsed, hreceived]
    exact h.within

/-- A loop that still reads has read everything the grammar could. -/
theorem Follows.of_reads {s : State}
    (reads : ∀ tail, referenceParse (received s.trace ++ tail) =
      parsed s ++ referenceParse (unparsed s ++ tail)) : Follows s where
  reads _ := reads
  within := by
    have hnil := reads []
    rw [List.append_nil, List.append_nil] at hnil
    exact ⟨_, hnil.symm⟩

theorem Follows.receives {s s' : State} {bytes : List UInt8} (h : Follows s) (hloops : s.Loops)
    (hparsed : parsed s' = parsed s) (hreceived : received s'.trace = received s.trace ++ bytes)
    (hunparsed : unparsed s' = unparsed s ++ bytes) : Follows s' := by
  refine .of_reads fun tail => ?_
  rw [hparsed, hreceived, hunparsed, List.append_assoc, h.reads hloops, List.append_assoc]

/-- The loop has taken the next request of the grammar off the front of what was unread. -/
theorem Follows.next {s s' : State} {k : Handler} (h : Follows s) (hloops : s.Loops)
    (hparsed : parsed s' = parsed s ++ [k]) (hreceived : received s'.trace = received s.trace)
    (grammar : ∀ tail,
      referenceParse (unparsed s ++ tail) = k :: referenceParse (unparsed s' ++ tail)) :
    Follows s' := by
  refine .of_reads fun tail => ?_
  rw [hparsed, hreceived, h.reads hloops, grammar, List.append_assoc, List.singleton_append]

@[simp] theorem received_taken (t : Reply) (o : SendOutcome) (trace : List Effect) :
    received (taken t o ++ trace) = received trace := by
  cases o <;> rfl

@[simp] theorem received_outcome (t : Reply) (sent : Bool) (trace : List Effect) :
    received (State.outcome t sent :: trace) = received trace := by
  cases sent <;> rfl

theorem follows_endLoop {s : State} (hwithin : (parsed s).IsPrefix
    (referenceParse (received s.trace))) : Follows s.endLoop := by
  unfold State.endLoop
  split
  · exact ⟨nofun, by simpa [parsed] using hwithin⟩
  · exact ⟨nofun, hwithin⟩

theorem Follows.reply {s : State} (h : Follows s) (t : Reply) : Follows (s.reply t) := by
  unfold State.reply
  split
  · exact h.of_same rfl rfl fun hl => ⟨hl, rfl⟩
  · exact h.of_same rfl rfl fun hl => ⟨hl, rfl⟩

section Grammar

variable {bytes : List UInt8} (tail : List UInt8)

theorem referenceParse_spawn {k : Handler} (enough : requestHeaderSize ≤ bytes.length)
    (action : onHeader (.ofBytes (bytes.take requestHeaderSize)) = .spawn k) :
    referenceParse (bytes ++ tail) =
      k :: referenceParse (bytes.drop requestHeaderSize ++ tail) := by
  rw [referenceParse_step (by rw [List.length_append]; omega),
    List.take_append_of_le_length enough, List.drop_append_of_le_length enough, action]

theorem referenceParse_payload {req : RequestHeader} {got : List UInt8}
    (action : onHeader req = .payload) (hlen : got.length = req.size.toNat) :
    referenceParse (req.bytes ++ got ++ tail) = onPayload req got :: referenceParse tail := by
  have hfront : (req.bytes ++ (got ++ tail)).take requestHeaderSize = req.bytes :=
    List.take_left' req.bytes_length
  have hback : (req.bytes ++ (got ++ tail)).drop requestHeaderSize = got ++ tail :=
    List.drop_left' req.bytes_length
  have hreq : RequestHeader.ofBytes req.bytes = req := by
    simpa only [List.append_nil] using RequestHeader.ofBytes_bytes req []
  rw [List.append_assoc, referenceParse_step (by simp), hfront, hback, hreq, action]
  simp only [List.length_append, hlen, Nat.le_add_right, if_true, List.take_left' hlen,
    List.drop_left' hlen]

end Grammar

section Loop

variable {s : State} {stack : List Frame}

theorem parsed_of_reading (hp : AtOnePlace s) (top : s.stack = .reading :: stack) :
    parsed s = s.dispatched := by
  rw [parsed, top, List.flatMap_cons, flatMap_parsed (hp.below top rfl)]
  simp [Frame.parsed]

theorem unparsed_of_reading (hp : AtOnePlace s) (top : s.stack = .reading :: stack) :
    unparsed s = Reader.unparsed s.readerAt ++ s.reader.unread := by
  rw [unparsed, top, List.flatMap_cons, flatMap_unparsed (hp.below top rfl)]
  simp [Frame.unparsed]

theorem follows_header (h : Follows s) (hp : AtOnePlace s) {batch : List (List UInt8)}
    (flat : s.stack = []) (at_ : s.readerAt = .header) : Follows { s with
      reader := s.reader.insertBatch batch
      stack := [.reading]
      trace := .received batch.flatten :: s.trace } := by
  refine h.receives (by simp [State.Loops, at_]) ?_ rfl ?_
  · simp [parsed, flat, Frame.parsed]
  · simp [unparsed, flat, Frame.unparsed, unread_insertBatch hp.consumed]

theorem follows_payload (h : Follows s) (hp : AtOnePlace s) {batch : List (List UInt8)}
    {req : RequestHeader} {got : List UInt8} (flat : s.stack = [])
    (at_ : s.readerAt = .payload req got)
    (isBatch : IsBatch (req.size.toNat - got.length) batch) : Follows { s with
      readerAt := .payload req (FramedReader.copyBatch req.size.toNat got s.reader batch).1
      reader := (FramedReader.copyBatch req.size.toNat got s.reader batch).2
      stack := [.reading]
      trace := .received batch.flatten :: s.trace } := by
  obtain ⟨-, hcopy⟩ := hp.payload req got at_
  have hlimit (front : List (List UInt8)) (last : List UInt8) (hb : batch = front ++ [last]) :
      got.length + front.flatten.length < req.size.toNat := by
    have := isBatch.limit front last hb
    omega
  refine h.receives (by simp [State.Loops, at_]) ?_ rfl ?_
  · simp [parsed, flat, Frame.parsed]
  · have hbytes := (copyBatch_spec hcopy hlimit).2
    simp only [unparsed, Reader.unparsed, flat, at_, List.flatMap_nil, List.flatMap_cons,
      Frame.unparsed, List.append_nil, List.nil_append, List.append_assoc] at hbytes ⊢
    rw [hbytes]

theorem follows_spawns (h : Follows s) (hp : AtOnePlace s) {k : Handler}
    (top : s.stack = .reading :: stack) (at_ : s.readerAt = .header)
    (enough : requestHeaderSize ≤ s.reader.unread.length)
    (action : onHeader (.ofBytes (s.reader.unread.take requestHeaderSize)) = .spawn k) :
    Follows { s with
      stack := .spawning k :: stack
      remaining := s.remaining + 1
      reader := (s.reader.eraseConsumed.returnExact requestHeaderSize).2 } := by
  have below := hp.below top rfl
  refine h.next (by simp [State.Loops, at_]) (k := k) ?_ rfl fun tail => ?_
  · rw [parsed_of_reading hp top]
    simp [parsed, Frame.parsed, flatMap_parsed below]
  · have hk := referenceParse_spawn tail enough action
    rw [unparsed_of_reading hp top]
    simp only [unparsed, at_, Reader.unparsed, List.flatMap_cons, Frame.unparsed,
      flatMap_unparsed below, List.append_nil, List.nil_append]
    exact hk

theorem follows_spawnsWrite (h : Follows s) (hp : AtOnePlace s) {req : RequestHeader}
    {got : List UInt8} (top : s.stack = .reading :: stack) (at_ : s.readerAt = .payload req got)
    (enough : ¬ got.length < req.size.toNat) : Follows { s with
      stack := .spawning (onPayload req got) :: stack
      remaining := s.remaining + 1
      readerAt := .header } := by
  have below := hp.below top rfl
  obtain ⟨haction, hcopy⟩ := hp.payload req got at_
  have hlen : got.length = req.size.toNat :=
    Nat.le_antisymm hcopy.within (Nat.le_of_not_lt enough)
  refine h.next (by simp [State.Loops, at_]) (k := onPayload req got) ?_ rfl fun tail => ?_
  · rw [parsed_of_reading hp top]
    simp [parsed, Frame.parsed, flatMap_parsed below]
  · have hk := referenceParse_payload (s.reader.unread ++ tail) haction hlen
    rw [unparsed_of_reading hp top]
    simp only [unparsed, at_, Reader.unparsed, List.flatMap_cons, Frame.unparsed,
      flatMap_unparsed below, List.append_nil, List.nil_append, List.append_assoc] at hk ⊢
    exact hk

theorem follows_allocates (h : Follows s) (hp : AtOnePlace s) {req : RequestHeader}
    (top : s.stack = .reading :: stack) (at_ : s.readerAt = .header)
    (enough : requestHeaderSize ≤ s.reader.unread.length)
    (bytes : RequestHeader.ofBytes (s.reader.unread.take requestHeaderSize) = req) :
    Follows { s with
      stack := .allocating req :: stack
      reader := (s.reader.eraseConsumed.returnExact requestHeaderSize).2 } := by
  refine h.of_same (by simp [parsed, top]) rfl fun hl => ⟨hl, ?_⟩
  have hreq : req.bytes = s.reader.unread.take requestHeaderSize := by
    rw [← bytes, RequestHeader.bytes_ofBytes (by simp [enough])]
  have hrest := unread_returnExact s.reader.eraseConsumed requestHeaderSize
  simp only [unparsed, top, at_, Reader.unparsed, List.flatMap_cons, Frame.unparsed,
    flatMap_unparsed (hp.below top rfl), List.append_nil, List.nil_append, hreq]
  exact hrest

theorem follows_allocated (h : Follows s) (hp : AtOnePlace s) {req : RequestHeader}
    (top : s.stack = .allocating req :: stack) : Follows { s with
      readerAt := .payload req (s.reader.eraseConsumed.takeLeftover req.size.toNat).1
      reader := (s.reader.eraseConsumed.takeLeftover req.size.toNat).2
      stack := .reading :: stack } := by
  have hat := (hp.allocating req (by simp [top])).2
  refine h.of_same (by simp [parsed, top]) rfl fun _ => ⟨by simp [State.Loops, hat], ?_⟩
  have hrest := unread_takeLeftover s.reader.eraseConsumed req.size.toNat
  simp only [unparsed, Reader.unparsed, top, hat, List.flatMap_cons, Frame.unparsed,
    flatMap_unparsed (hp.below top rfl), List.append_nil, List.nil_append, List.append_assoc]
  rw [hrest]
  rfl

theorem follows_spawned (h : Follows s) (hp : AtOnePlace s) {k : Handler}
    (top : s.stack = .spawning k :: stack) {f : Frame} (hparsed : Frame.parsed f = [])
    (hunparsed : Frame.unparsed f = []) : Follows { s with
      dispatched := s.dispatched ++ [k]
      stack := f :: .reading :: stack } := by
  refine h.of_same ?_ rfl fun hl => ⟨hl, ?_⟩
  · simp only [parsed, top, List.flatMap_cons, hparsed, flatMap_parsed (hp.below top rfl)]
    simp
  · simp only [unparsed, top, List.flatMap_cons, hunparsed]
    simp

end Loop

theorem follows_step {s s' : State} {e : Event} (h : Follows s) (hp : AtOnePlace s)
    (step : Step s e s') : Follows s' := by
  cases step with
  | receivesHeader flat at_ => exact follows_header h hp flat at_
  | receivesPayload flat at_ isBatch => exact follows_payload h hp flat at_ isBatch
  | receiveFailed flat => exact follows_endLoop h.within
  | awaitsHeader top at_ =>
    refine h.of_same (by simp [parsed, top]) rfl fun hl => ⟨hl, ?_⟩
    simp [unparsed, top]
  | rejects top at_ enough action =>
    refine follows_endLoop ?_
    simpa [parsed, top] using h.within
  | allocates top at_ enough req bytes => exact follows_allocates h hp top at_ enough bytes
  | spawns top at_ enough req k bytes action =>
    exact follows_spawns h hp top at_ enough (bytes ▸ action)
  | awaitsPayload top at_ =>
    refine h.of_same (by simp [parsed, top]) rfl fun hl => ⟨hl, ?_⟩
    simp [unparsed, top]
  | spawnsWrite top at_ enough => exact follows_spawnsWrite h hp top at_ enough
  | readsNothing top ended =>
    exact h.of_same (by simp [parsed, top]) rfl fun hl => absurd hl ended
  | allocated top => exact follows_allocated h hp top
  | notAllocated top =>
    refine follows_endLoop ?_
    simpa [parsed, top] using h.within
  | @spawnsError stack cid err top =>
    have hspawned : Follows { s with
        dispatched := s.dispatched ++ [Handler.sendError cid err]
        stack := .reading :: stack } := by
      refine h.of_same ?_ rfl fun hl => ⟨hl, ?_⟩
      · simp [parsed, top, flatMap_parsed (hp.below top rfl)]
      · simp [unparsed, top]
    exact hspawned.reply _
  | spawned top file f first =>
    rcases first with rfl | rfl
    · exact follows_spawned h hp top rfl rfl
    · exact follows_spawned h hp top rfl rfl
  | @notSpawned stack k top =>
    refine follows_endLoop (List.IsPrefix.trans ?_ h.within)
    simp [parsed, top, flatMap_parsed (hp.below top rfl)]
  | @performed stack id k r top =>
    have hdone : Follows { s with stack, trace := .performed id r :: s.trace } :=
      h.of_same (by simp [parsed, top]) rfl fun hl => ⟨hl, by simp [unparsed, top]⟩
    exact hdone.reply _
  | @fileReady id k r =>
    have hdone : Follows { s with
        files := s.files.erase (id, k), trace := .performed id r :: s.trace } :=
      h.of_same rfl rfl fun hl => ⟨hl, rfl⟩
    exact hdone.reply _
  | finishesLast top last drains =>
    exact h.of_same (by simp [parsed, top]) rfl fun hl => hl.elim
  | _ =>
    exact h.of_same (by simp_all [parsed]) (by simp_all [received])
      fun hl => ⟨hl, by simp_all [unparsed]⟩

/-- `handle_connection` in a running session spawns what the wire grammar reads off the bytes
received so far, and stops only at the end of the stream or of memory. -/
theorem follows_of_run {G : State → Event → Prop} {backend : Backend} {s : State}
    (h : Run machine G (initial backend) s) : AtOnePlace s ∧ Follows s := by
  refine h.invariant (I := fun s => AtOnePlace s ∧ Follows s) ⟨atOnePlace_initial backend, ?_⟩
    fun u e hu he _ => ?_
  · exact .of_reads fun tail => rfl
  · have step := step_of_enabled he
    exact ⟨atOnePlace_step hu.1 step, follows_step hu.2 hu.1 step⟩

end EasybdSessionParsing
