import Mathlib.Algebra.Order.BigOperators.Group.List
import EasyBD.EasybdEndToEndProgress

/-! Every step that the two ends take by themselves leaves less to do: a byte is priced for all
that still has to happen to it, from the sender's buffer to the other end's reader. -/
namespace EasybdEndToEndWork

open TransitionRuns EntryLedger SerializedFrames EasybdProtocol EasyioQueue EasyioSenders
open EasyioSendAll EasyioFramedReader EasybdHandlers EasybdRequests EasybdHandleConnection
open EasybdEndToEnd EasybdEndToEndProgress

def unsent (a : SendAll) : ℕ := 12 * a.rest.length

/-- The same for a `send` that has taken `count` bytes and not resumed the loop. -/
def unsentAfter (a : SendAll) (count : Option ℕ) : ℕ := 12 * (a.rest.length - count.getD 0)

/-- A `send` pays for itself, for the bytes on the wire and for resuming the loop. -/
theorem unsent_taken {a : SendAll} {o : SendOutcome} (settled : o ≠ .suspended) (ok : o ≠ .failed)
    (within : o.Within a.rest.length) (log : List (Op UInt8)) :
    unsentAfter a o.count + 4 * (wire (takenOps a o ++ log)).length + 8 ≤
      unsent a + 4 * (wire log).length := by
  cases o with
  | suspended => exact absurd rfl settled
  | failed => exact absurd rfl ok
  | accepted n =>
    obtain ⟨pos, le⟩ := within
    simp only [takenOps, SendOutcome.count, unsentAfter, unsent, List.singleton_append, wire,
      List.length_append, List.length_take, Option.getD_some]
    omega

theorem unsent_resumed {κ : Type*} {S : Sender κ} {ch : Channel κ} (hok : ch.Ok S) {c : κ} {n : ℕ}
    (hc : .back c (some n) ∈ ch.holders) :
    unsent (S.send (S.resumed c n)) = unsentAfter (S.send c) (some n) := by
  obtain ⟨hwf, -, hle, -⟩ := hok.fits _ hc
  obtain ⟨a, hresume, -, hrest⟩ := hwf.resume hle
  rw [S.send_resumed, hresume, Option.getD_some, unsent, unsentAfter, hrest, List.length_drop]
  rfl

section Client

open EasybdClient EasybdClientReliable EasybdClientChannel

@[simp] def clientFrame : Frame → ℕ
  | .calling t => unsent t.send + 4
  | .returned t count => unsentAfter t.send count + 5
  | .failAllPending => 0
  | _ => 1

/-- What the client still has to do, given what it has received. -/
def clientWork (c : EasybdClient.State) : ℕ :=
  (c.sendMtx.waiters.map fun t => unsent t.send + 5).sum +
    (c.io.map fun t => unsent t.send + 3).sum +
    (c.cq.map fun r => unsentAfter r.1.send r.2 + 6).sum + (c.stack.map clientFrame).sum +
    2 * c.reader.unread.length

variable {c c' : EasybdClient.State} {e : EasybdClient.Event}

theorem unread_read (r : FramedReader) (n : ℕ) :
    (r.eraseConsumed.returnExact n).2.unread = r.unread.drop n := rfl

def Spends (c c' : EasybdClient.State) (n : ℕ) : Prop :=
  clientWork c' + 4 * (wire (channelLog c'.trace)).length <
    clientWork c + 4 * (wire (channelLog c.trace)).length + 4 * n

theorem spends_sendCall {o : SendOutcome} (ok : o ≠ .failed) (step : Step c (.sendCall o) c') :
    Spends c c' 0 := by
  cases step with
  | callBlocks top =>
    simp only [Spends, clientWork, top, List.map_cons, List.map_append, List.map_nil,
      List.sum_cons, List.sum_append, List.sum_nil, clientFrame, channelLog_shown]
    omega
  | @callReturns t stack _ top settled within =>
    have hsent := unsent_taken settled ok within (channelLog c.trace)
    simp only [Spends, clientWork, top, List.map_cons, List.sum_cons, clientFrame,
      channelLog_taken, channelLog_shown]
    omega

theorem spends_sendReady {t : SendRequest} {o : SendOutcome} (ok : o ≠ .failed)
    (moves : o ≠ .suspended) (step : Step c (.sendReady t o) c') : Spends c c' 0 := by
  cases step with
  | stillBlocked => exact absurd rfl moves
  | readyReturns dispatching mem settled within =>
    have hsent := unsent_taken settled ok within (channelLog c.trace)
    have hio := List.sum_map_erase (fun t => unsent t.send + 3) mem
    simp only [Spends, clientWork, List.map_cons, List.sum_cons, clientFrame, channelLog_taken,
      channelLog_shown]
    omega

theorem spends_complete {t : SendRequest} {o : SendOutcome} (ok : o ≠ .failed)
    (step : Step c (.complete t o) c') : Spends c c' 0 := by
  cases step with
  | completes mem settled within =>
    have hsent := unsent_taken settled ok within (channelLog c.trace)
    have hio := List.sum_map_erase (fun t => unsent t.send + 3) mem
    simp only [Spends, clientWork, List.map_append, List.map_cons, List.map_nil, List.sum_append,
      List.sum_cons, List.sum_nil, channelLog_taken]
    omega

theorem spends_reading {stack : List Frame} (htable : EasybdClientTable.Table c)
    (reads : c.readerAt ≠ .ended) (top : c.stack = .reading :: stack) (step : Step c .run c') :
    Spends c c' 0 := by
  cases step with
  | sendsOn top' | sent top' | sendThrows top' | sendThrowsLate top' | handsOver top' | frees top'
  | failsNext top' | failedAll top' => cases top.symm.trans top'
  | readsOn top =>
    simp only [Spends, clientWork, top, List.map_cons, List.sum_cons, clientFrame,
      unread_eraseConsumed]
    omega
  | unknownCid top at_ enough =>
    simp only [Spends, clientWork, State.endReader, top, List.map_cons, List.sum_cons, clientFrame,
      unread_read, List.length_drop]
    omega
  | awaitsBody top at_ enough =>
    rw [at_] at enough
    have henough : 16 ≤ c.reader.unread.length := enough
    simp only [Spends, clientWork, top, List.map_cons, List.sum_cons, clientFrame, unread_read,
      List.length_drop, responseHeaderSize]
    omega
  | answered top at_ enough =>
    rw [at_] at enough
    have henough : 16 ≤ c.reader.unread.length := enough
    simp only [Spends, clientWork, State.finishResponse, State.push, State.fire, top,
      List.map_cons, List.sum_cons, clientFrame, unread_read, List.length_drop,
      responseHeaderSize, channelLog_cons, Effect.op, Option.toList_none, List.nil_append]
    omega
  | @copies stack cid res p top at_ enough =>
    have hneeded : 0 < c.readerAt.needed := by
      obtain ⟨-, -, hpos⟩ := htable.body cid res p at_
      have hnat := Int64.lt_iff_toInt_lt.mp hpos
      rw [Int64.toInt_zero] at hnat
      rw [at_, Reader.needed, Int64.toNatClampNeg]
      omega
    simp only [Spends, clientWork, State.finishResponse, State.push, State.emit, State.fire, top,
      List.map_cons, List.sum_cons, clientFrame, unread_read, List.length_drop, channelLog_cons,
      Effect.op, Option.toList_none, List.nil_append]
    omega
  | readsNothing _ at_ => exact absurd at_ reads

theorem spends_run (hok : (channel c).Ok sender) (hends : EasybdClientTable.Ends c)
    (htable : EasybdClientTable.Table c) (hsound : Sound c) (reads : c.readerAt ≠ .ended)
    (step : Step c .run c') : Spends c c' 0 := by
  have hstep := step
  cases step with
  | @sendsOn t stack n top more =>
    have hrest : unsent (State.resumed t n).send = unsentAfter t.send (some n) :=
      unsent_resumed hok (by simp [channel, places, top])
    simp only [Spends, clientWork, top, List.map_cons, List.sum_cons, clientFrame]
    omega
  | sent top | failedAll top =>
    simp only [Spends, clientWork, top, List.map_cons, List.sum_cons, clientFrame]
    omega
  | sendThrows top | sendThrowsLate top =>
    exact (hsound.returned _ (by rw [top]; exact List.mem_cons_self)).elim
  | handsOver top waiting =>
    simp only [Spends, clientWork, top, waiting, List.map_cons, List.sum_cons, clientFrame,
      channelLog_cons, Effect.op, Option.toList_some, List.singleton_append, wire]
    omega
  | frees top alone =>
    simp only [Spends, clientWork, top, List.map_cons, List.sum_cons, clientFrame,
      channelLog_cons, Effect.op, Option.toList_some, List.singleton_append, wire]
    omega
  | failsNext top =>
    exact absurd (hends _ (by rw [top]; exact List.mem_cons_self)
      (Or.inr (by simp [EasybdClientTable.Frame.drained]))) reads
  | readsOn top | unknownCid top | awaitsBody top | answered top | copies top
  | readsNothing top => exact spends_reading htable reads top hstep

/-- Every move of the client pays for itself, for the bytes it puts on the wire and, out of
the bytes that arrive, for reading them. -/
theorem clientWork_step (hok : (channel c).Ok sender) (hends : EasybdClientTable.Ends c)
    (htable : EasybdClientTable.Table c) (hsound : Sound c) (hwithin : Within c.reader)
    (reads : c.readerAt ≠ .ended) (waits : EasybdClientWait.IsDispatching c.call)
    (g : Succeeds e) (moves : Moves (.client e)) (step : Step c e c') :
    Spends c c' (arriving e).length := by
  have hstep := step
  cases step with
  | oversized | noEntry | noFrame | sends | queues | waitReturn => exact moves.elim
  | destroyUring | destroyEnded | destroyReading | receiveFailed => exact g.elim
  | wait idle => simp [EasybdClientWait.IsDispatching, idle.2] at waits
  | pollFailed _ flat call | poll flat call | cancel flat call | destroyReturn flat call =>
    simp [EasybdClientWait.IsDispatching, call] at waits
  | drain top => exact absurd (hends .failAllPending (by simp [top]) (Or.inl rfl)) reads
  | requestReturn top | callbackReturn top =>
    simp only [Spends, clientWork, top, List.map_cons, List.sum_cons, clientFrame]
    omega
  | callBlocks | callReturns => exact spends_sendCall g hstep
  | stillBlocked | readyReturns => exact spends_sendReady g moves hstep
  | completes => exact spends_complete g hstep
  | reap dispatching mem =>
    have hcq := ((List.perm_cons_erase mem).map fun r => unsentAfter r.1.send r.2 + 6).sum_eq
    simp only [List.map_cons, List.sum_cons] at hcq
    simp only [Spends, clientWork, State.push, List.map_cons, List.sum_cons, clientFrame]
    omega
  | @received batch dispatching reads isBatch =>
    have hunread := congrArg List.length (unread_insertBatch hwithin batch)
    rw [List.length_append] at hunread
    have hpos := isBatch.flatten_pos
    simp only [Spends, clientWork, State.push, State.emit, List.map_cons, List.sum_cons,
      clientFrame, arriving, Receives.batch, Option.getD_some, hunread, channelLog_cons,
      Effect.op, Option.toList_none, List.nil_append]
    omega
  | _ => exact spends_run hok hends htable hsound reads hstep

end Client

section Session

open EasybdSession EasybdSessionReliable EasybdSessionChannel EasybdSessionParsing

/-- The longest response that a handler may send. -/
def responseBound : Handler → ℕ
  | .handleRead _ _ size => responseHeaderSize + size.toNat
  | _ => responseHeaderSize

/-- What a handler costs from its dispatch on. -/
def dispatchCost (h : Handler) : ℕ := 12 * responseBound h + 10

@[simp] def sessionFrame : Frame → ℕ
  | .allocating _ => 3
  | .spawning h => dispatchCost h
  | .buffering _ h => 12 * responseBound h + 8
  | .performing _ h => 12 * responseBound h + 7
  | .calling t => unsent t.send + 4
  | .returned t count => unsentAfter t.send count + 5
  | .release _ _ => 2
  | .reading | .finishing | .closing => 1

def copiedBytes : Reader → List UInt8
  | .payload _ got => got
  | _ => []

def sessionWork (s : EasybdSession.State) : ℕ :=
  (s.sendMtx.waiters.map fun t => unsent t.send + 5).sum +
    (s.files.map fun j => 12 * responseBound j.2 + 6).sum +
    (s.io.map fun t => unsent t.send + 3).sum +
    (s.cq.map fun r => unsentAfter r.1.send r.2 + 6).sum +
    (s.stack.map sessionFrame).sum + 2 * ((copiedBytes s.readerAt).length + s.reader.unread.length)

variable {s s' : EasybdSession.State} {e : EasybdSession.Event}

theorem work_reply (s : EasybdSession.State) (t : Reply) :
    sessionWork (s.reply t) ≤ sessionWork s + unsent t.send + 5 ∧
      wire (channelLog (s.reply t).trace) = wire (channelLog s.trace) ∧
      parsed (s.reply t) = parsed s := by
  unfold State.reply
  split
  · refine ⟨?_, by simp, rfl⟩
    simp only [sessionWork, EasyioMutex.Mutex.wait, List.map_append, List.sum_append,
      List.map_cons, List.map_nil, List.sum_cons, List.sum_nil]
    omega
  · refine ⟨?_, by simp [wire], by simp [parsed]⟩
    simp only [sessionWork, EasyioMutex.Mutex.take, List.map_cons, List.sum_cons, sessionFrame]
    omega

theorem unsent_reply {h : Handler} {r : FileResult} (id : ℕ)
    (fits : h.Fits r ∨ ∃ err, r = .error err) (size : h.PassesSizeCheck) :
    unsent (State.replyOf id h (h.respond r)).send ≤ 12 * responseBound h := by
  rw [unsent, State.replyOf, Handler.rest_startSend fits size, Response.encode, List.length_append,
    ResponseHeader.bytes_length]
  have hbody : responseHeaderSize + (h.respond r).body.length ≤ responseBound h := by
    cases h with
    | sendError | handleWrite => exact Nat.le_refl _
    | handleRead cid offset bytes =>
      cases r with
      | error err => exact Nat.le_add_right _ _
      | transferred count data =>
        obtain ⟨hcount, hle⟩ := fits.resolve_right (by rintro ⟨err, ⟨⟩⟩)
        simp only [responseBound, Handler.respond, Handler.body]
        omega
  omega

theorem unsent_sendError (id : ℕ) (cid : UInt64) (err : ℕ) :
    unsent (State.replyOf id (.sendError cid err) (errorResponse cid err)).send =
      12 * responseBound (.sendError cid err) := by
  simp [unsent, Handler.startSend, responseBound]

theorem size_of_job (hsized : EasybdSessionResponses.Sized s)
    (ha : EasybdSessionTasks.Accounted s) {id : ℕ} {h : Handler}
    (hjob : .job id h ∈ EasybdSessionTasks.tasks s) : h.PassesSizeCheck :=
  hsized h (List.mem_of_getElem? (ha.tasks _ hjob).1)

theorem wire_outcome (t : Reply) (sent : Bool) (trace : List Effect) :
    wire (channelLog (.channel .release :: State.outcome t sent :: trace)) =
      wire (channelLog trace) := by
  cases sent <;> rfl

/-- What a step to `s'` may cost, with `n` bytes that arrive and the requests that it reads. -/
def Pays (s s' : EasybdSession.State) (n : ℕ) : Prop :=
  sessionWork s' + 4 * (wire (channelLog s'.trace)).length + ((parsed s).map dispatchCost).sum <
    sessionWork s + 4 * (wire (channelLog s.trace)).length + 4 * n +
      ((parsed s').map dispatchCost).sum

theorem Pays.of_parsed {n : ℕ} (hparsed : parsed s' = parsed s)
    (h : sessionWork s' + 4 * (wire (channelLog s'.trace)).length <
      sessionWork s + 4 * (wire (channelLog s.trace)).length + 4 * n) : Pays s s' n := by
  rw [Pays, hparsed]
  omega

theorem Pays.of_reply {u : EasybdSession.State} {t : Reply} {n : ℕ}
    (hparsed : parsed u = parsed s)
    (hwire : wire (channelLog u.trace) = wire (channelLog s.trace))
    (hwork : sessionWork u + unsent t.send + 5 < sessionWork s + 4 * n) : Pays s (u.reply t) n := by
  obtain ⟨hreply, hsame, hreads⟩ := work_reply u t
  apply Pays.of_parsed (hreads.trans hparsed)
  rw [hsame, hwire]
  omega

theorem pays_received {batch : List (List UInt8)} (hplace : AtOnePlace s)
    (step : Step s (.received batch) s') : Pays s s' batch.flatten.length := by
  cases step with
  | receivesHeader flat at_ isBatch =>
    have hunread := congrArg List.length (unread_insertBatch hplace.consumed batch)
    rw [List.length_append] at hunread
    have hpos := isBatch.flatten_pos
    apply Pays.of_parsed (by simp [parsed, flat])
    simp only [sessionWork, flat, at_, List.map_cons, List.map_nil, List.sum_cons, List.sum_nil,
      sessionFrame, hunread, copiedBytes, channelLog_cons, Effect.op, Option.toList_none,
      List.nil_append]
    omega
  | @receivesPayload _ req got flat at_ isBatch =>
    apply Pays.of_parsed (by simp [parsed, flat])
    have hlimit (front : List (List UInt8)) (last : List UInt8) (hb : batch = front ++ [last]) :
        got.length + front.flatten.length < req.size.toNat := by
      have := isBatch.limit front last hb
      omega
    have hbytes := congrArg List.length (copyBatch_spec (hplace.payload req got at_).2 hlimit).2
    have hpos := isBatch.flatten_pos
    simp only [List.length_append] at hbytes
    simp only [sessionWork, flat, at_, List.map_cons, List.map_nil, List.sum_cons, List.sum_nil,
      sessionFrame, copiedBytes, channelLog_cons, Effect.op, Option.toList_none, List.nil_append]
    omega

/-- The read loop pays with the bytes that it reads, and for the handler that it is to spawn. -/
theorem pays_reading {stack : List Frame} (loops : s.Loops)
    (accepts : s.readerAt = .header → requestHeaderSize ≤ s.reader.unread.length →
      onHeader (.ofBytes (s.reader.unread.take requestHeaderSize)) ≠ .reject)
    (top : s.stack = .reading :: stack) (step : Step s .run s') : Pays s s' 0 := by
  cases step with
  | sendsOn top' | sent top' | sendThrows top' | handsOver top' | frees top' | finishes top'
  | finishesLast top' => cases top.symm.trans top'
  | awaitsHeader top =>
    apply Pays.of_parsed (by simp [parsed, top])
    simp only [sessionWork, top, List.map_cons, List.sum_cons, sessionFrame, unread_eraseConsumed]
    omega
  | rejects top at_ enough action => exact absurd action (accepts at_ enough)
  | allocates top at_ enough =>
    apply Pays.of_parsed (by simp [parsed, top])
    have henough : 25 ≤ s.reader.unread.length := enough
    simp only [sessionWork, top, at_, List.map_cons, List.sum_cons, sessionFrame, unread_read,
      List.length_drop, requestHeaderSize]
    omega
  | spawns top at_ enough =>
    have henough : 25 ≤ s.reader.unread.length := enough
    simp only [Pays, parsed, List.flatMap_cons, Frame.parsed, List.map_append, List.sum_append,
      sessionWork, top, at_, List.map_cons, List.map_nil, List.sum_cons, List.sum_nil,
      sessionFrame, unread_read, List.length_drop, requestHeaderSize]
    omega
  | awaitsPayload top =>
    apply Pays.of_parsed (by simp [parsed, top])
    simp only [sessionWork, top, List.map_cons, List.sum_cons, sessionFrame]
    omega
  | spawnsWrite top at_ enough =>
    simp only [Pays, parsed, List.flatMap_cons, Frame.parsed, List.map_append, List.sum_append,
      sessionWork, top, at_, List.map_cons, List.map_nil, List.sum_cons, List.sum_nil,
      sessionFrame, copiedBytes, List.length_nil]
    omega
  | readsNothing top ended => exact absurd loops ended

theorem pays_run (hok : (channel s).Ok sender) (hsound : Sound s) (loops : s.Loops)
    (accepts : ∀ stack, s.stack = .reading :: stack → s.readerAt = .header →
      requestHeaderSize ≤ s.reader.unread.length →
      onHeader (.ofBytes (s.reader.unread.take requestHeaderSize)) ≠ .reject)
    (step : Step s .run s') : Pays s s' 0 := by
  have hstep := step
  cases step with
  | sendThrows top => exact (hsound.returned _ (by rw [top]; exact List.mem_cons_self)).elim
  | finishesLast top last drains => simp [State.Loops, drains] at loops
  | @sendsOn t stack n top more =>
    apply Pays.of_parsed (by simp [parsed, top])
    have hrest : unsent (State.resumed t n).send = unsentAfter t.send (some n) :=
      unsent_resumed hok (by simp [channel, places, top])
    simp only [sessionWork, top, List.map_cons, List.sum_cons, sessionFrame]
    omega
  | sent top | finishes top =>
    apply Pays.of_parsed (by simp [parsed, top])
    simp only [sessionWork, top, List.map_cons, List.sum_cons, sessionFrame]
    omega
  | @handsOver t sent u waiters stack top waiting =>
    apply Pays.of_parsed (by simp [parsed, top])
    have hwire := wire_outcome t sent s.trace
    rw [channelLog_cons]
    simp only [Effect.op, Option.toList_some, List.singleton_append, wire, hwire]
    simp only [sessionWork, top, waiting, List.map_cons, List.sum_cons, sessionFrame]
    omega
  | @frees t sent stack top alone =>
    apply Pays.of_parsed (by simp [parsed, top])
    rw [wire_outcome]
    simp only [sessionWork, top, List.map_cons, List.sum_cons, sessionFrame]
    omega
  | awaitsHeader top | rejects top | allocates top | spawns top | awaitsPayload top
  | spawnsWrite top | readsNothing top => exact pays_reading loops (accepts _ top) top hstep

theorem pays_alloc (hplace : AtOnePlace s) (step : Step s (.alloc true) s') : Pays s s' 0 := by
  cases step with
  | @allocated stack req top =>
    apply Pays.of_parsed (by simp [parsed, top])
    have hbytes := congrArg List.length
      (unread_takeLeftover s.reader.eraseConsumed req.size.toNat)
    rw [List.length_append, buf_eraseConsumed] at hbytes
    have at_ := (hplace.allocating req (by rw [top]; exact List.mem_cons_self)).2
    simp only [sessionWork, top, at_, List.map_cons, List.sum_cons, sessionFrame, copiedBytes,
      List.length_nil]
    omega
  | @spawnsError stack cid err top =>
    refine Pays.of_reply (by simp [parsed, top]) rfl ?_
    rw [unsent_sendError]
    simp only [sessionWork, top, List.map_cons, List.sum_cons, sessionFrame, dispatchCost]
    omega
  | @spawned stack h top file f first =>
    rcases first with rfl | rfl
    · apply Pays.of_parsed (by simp [parsed, top])
      simp only [sessionWork, top, List.map_cons, List.sum_cons, sessionFrame, dispatchCost]
      omega
    · apply Pays.of_parsed (by simp [parsed, top])
      simp only [sessionWork, top, List.map_cons, List.sum_cons, sessionFrame, dispatchCost]
      omega
  | buffered top =>
    apply Pays.of_parsed (by simp [parsed, top])
    simp only [sessionWork, top, List.map_cons, List.sum_cons, sessionFrame]
    omega

theorem pays_perform {out : FileOutcome} (hsized : EasybdSessionResponses.Sized s)
    (ha : EasybdSessionTasks.Accounted s) (ok : out ≠ .threw) (step : Step s (.perform out) s') :
    Pays s s' 0 := by
  cases step with
  | performs top =>
    apply Pays.of_parsed (by simp [parsed, top])
    simp only [sessionWork, top, List.map_cons, List.map_append, List.map_nil, List.sum_cons,
      List.sum_append, List.sum_nil, sessionFrame]
    omega
  | @performed stack id h r top fits =>
    have hjob : .job id h ∈ EasybdSessionTasks.tasks s := by simp [EasybdSessionTasks.tasks, top]
    have hunsent := unsent_reply id fits (size_of_job hsized ha hjob)
    refine Pays.of_reply (by simp [parsed, top]) rfl ?_
    simp only [sessionWork, top, List.map_cons, List.sum_cons, sessionFrame]
    omega
  | performThrows => exact absurd rfl ok

theorem pays_fileReady {id : ℕ} {h : Handler} {r : FileResult}
    (hsized : EasybdSessionResponses.Sized s) (ha : EasybdSessionTasks.Accounted s)
    (step : Step s (.fileReady id h r) s') : Pays s s' 0 := by
  cases step with
  | fileReady flat mem fits =>
    have hjob : .job id h ∈ EasybdSessionTasks.tasks s := by
      simp [EasybdSessionTasks.tasks, EasybdSessionTasks.running_file_erase mem]
    have hunsent := unsent_reply id (Or.inl fits) (size_of_job hsized ha hjob)
    have hfiles := ((List.perm_cons_erase mem).map fun j => 12 * responseBound j.2 + 6).sum_eq
    rw [List.map_cons, List.sum_cons] at hfiles
    refine Pays.of_reply rfl rfl ?_
    simp only [sessionWork] at hfiles ⊢
    omega

theorem pays_sendCall {o : SendOutcome} (ok : o ≠ .failed) (step : Step s (.sendCall o) s') :
    Pays s s' 0 := by
  cases step with
  | callBlocks top =>
    apply Pays.of_parsed (by simp [parsed, top])
    simp only [sessionWork, top, List.map_cons, List.map_append, List.map_nil, List.sum_cons,
      List.sum_append, List.sum_nil, sessionFrame]
    omega
  | callReturns top settled within =>
    apply Pays.of_parsed (by simp [parsed, top])
    have hsent := unsent_taken settled ok within (channelLog s.trace)
    simp only [sessionWork, top, List.map_cons, List.sum_cons, sessionFrame, channelLog_taken]
    omega

theorem pays_sendReady {t : Reply} {o : SendOutcome} (ok : o ≠ .failed) (moves : o ≠ .suspended)
    (step : Step s (.sendReady t o) s') : Pays s s' 0 := by
  cases step with
  | stillBlocked => exact absurd rfl moves
  | readyReturns flat mem settled within =>
    apply Pays.of_parsed (by simp [parsed])
    have hsent := unsent_taken settled ok within (channelLog s.trace)
    have hio := List.sum_map_erase (fun t => unsent t.send + 3) mem
    simp only [sessionWork, List.map_cons, List.sum_cons, sessionFrame, channelLog_taken]
    omega

theorem pays_complete {t : Reply} {o : SendOutcome} (ok : o ≠ .failed)
    (step : Step s (.complete t o) s') : Pays s s' 0 := by
  cases step with
  | completes mem settled within =>
    apply Pays.of_parsed (by simp [parsed])
    have hsent := unsent_taken settled ok within (channelLog s.trace)
    have hio := List.sum_map_erase (fun t => unsent t.send + 3) mem
    simp only [sessionWork, List.map_cons, List.map_append, List.map_nil, List.sum_cons,
      List.sum_append, List.sum_nil, channelLog_taken]
    omega

/-- Every move of the server pays for itself, for the bytes it puts on the wire, and for the
handler of each request that it reads. -/
theorem sessionWork_step (hok : (channel s).Ok sender) (hplace : AtOnePlace s)
    (hsized : EasybdSessionResponses.Sized s) (ha : EasybdSessionTasks.Accounted s)
    (hsound : Sound s) (loops : s.Loops)
    (accepts : ∀ stack, s.stack = .reading :: stack → s.readerAt = .header →
      requestHeaderSize ≤ s.reader.unread.length →
      onHeader (.ofBytes (s.reader.unread.take requestHeaderSize)) ≠ .reject)
    (g : Succeeds e) (moves : Moves (.session e)) (step : Step s e s') :
    Pays s s' (arriving e).length := by
  cases e with
  | received batch => exact pays_received hplace step
  | receiveFailed => exact g.elim
  | alloc ok =>
    obtain rfl : ok = true := g
    exact pays_alloc hplace step
  | perform out => exact pays_perform hsized ha g step
  | fileReady id h r => exact pays_fileReady hsized ha step
  | sendCall o => exact pays_sendCall g step
  | sendReady t o => exact pays_sendReady g moves step
  | complete t o => exact pays_complete g step
  | reap t count =>
    cases step with
    | reap flat mem =>
      apply Pays.of_parsed (by simp [parsed])
      have hcq := ((List.perm_cons_erase mem).map fun r => unsentAfter r.1.send r.2 + 6).sum_eq
      simp only [List.map_cons, List.sum_cons] at hcq
      simp only [sessionWork, List.map_cons, List.sum_cons, sessionFrame]
      omega
  | close ok =>
    cases step with
    | closes top =>
      apply Pays.of_parsed (by simp [parsed, top])
      simp only [sessionWork, top, List.map_cons, List.sum_cons, sessionFrame]
      omega
  | run => exact pays_run hok hsound loops accepts step

end Session

section Both

theorem dispatched_le {l m : List Handler} (h : l.IsPrefix m) :
    (l.map dispatchCost).sum ≤ (m.map dispatchCost).sum :=
  (h.sublist.map dispatchCost).sum_le_sum fun _ _ => Nat.zero_le _

/-- What the two ends still have to do: a byte in flight is to be received, and a request that
is not read yet to be served. -/
def work (syncWrites : Bool) (s : State) : ℕ :=
  clientWork s.client + sessionWork s.session +
    4 * ((requestBytes s).length - (EasybdSessionParsing.received s.session.trace).length) +
    4 * ((responseBytes s).length - (EasybdClientReliable.received s.client.trace).length) +
    (((handlers syncWrites s).map dispatchCost).sum -
      ((EasybdSessionParsing.parsed s.session).map dispatchCost).sum)

theorem client_waits {c c' : EasybdClient.State} {e : EasybdClient.Event}
    (waits : EasybdClientWait.IsDispatching c.call) (g : EasybdClientReliable.Succeeds e)
    (moves : Moves (.client e)) (step : EasybdClient.Step c e c') :
    EasybdClientWait.IsDispatching c'.call ∧ c'.requests = c.requests := by
  cases step with
  | oversized | noEntry | noFrame | sends | queues | waitReturn => exact moves.elim
  | destroyUring | destroyEnded | destroyReading => exact g.elim
  | wait idle => simp [EasybdClientWait.IsDispatching, idle.2] at waits
  | pollFailed err flat call => simp [EasybdClientWait.IsDispatching, call] at waits
  | poll flat call => simp [EasybdClientWait.IsDispatching, call] at waits
  | cancel flat call => simp [EasybdClientWait.IsDispatching, call] at waits
  | destroyReturn flat call => simp [EasybdClientWait.IsDispatching, call] at waits
  | _ => exact ⟨waits, rfl⟩

variable {syncWrites : Bool} {s : State}

theorem work_step {e : Event} (h : Joint syncWrites s) (h' : Joint syncWrites (next s e))
    (waits : EasybdClientWait.IsDispatching s.client.call) (he : Enabled s e)
    (g : NothingFails s e) (moves : Moves e) :
    work syncWrites (next s e) < work syncWrites s := by
  have hrequests := h.serves.wires.requests.length_le
  have hresponses := h.serves.wires.responses.length_le
  have hrequests' := h'.serves.wires.requests.length_le
  have hresponses' := h'.serves.wires.responses.length_le
  obtain ⟨done, rest, hreading⟩ := h.reading
  cases e with
  | client e =>
    have step := EasybdClient.step_of_enabled he.1
    have hless := clientWork_step h.ends.clientChannel h.ends.consistent.ends
      h.ends.consistent.table h.ends.client.sound h.ends.client.within hreading.reads.runs waits g
      moves step
    have hreceived := congrArg List.length (EasybdClientReliable.received_step step)
    have hhandlers : handlers syncWrites (next s (.client e)) = handlers syncWrites s := by
      rw [handlers, handlers, show (next s (.client e)).client.requests = s.client.requests from
        (client_waits waits g moves step).2]
    rw [List.length_append] at hreceived
    rw [Spends] at hless
    simp only [requestBytes, responseBytes, next] at hrequests hresponses hrequests' hresponses'
    rw [work, work, hhandlers]
    simp only [requestBytes, responseBytes, next]
    omega
  | session e =>
    have step := EasybdSession.step_of_enabled he.1
    have hless := sessionWork_step h.ends.sessionChannel h.ends.place h.ends.delivers.sized
      h.ends.accounted h.ends.session.sound h.serves.loops
      (fun _ top at_ enough => header_accepted h.ends h.serves.wires h.serves.loops top at_ enough)
      g moves step
    have hreceived := congrArg List.length (EasybdSessionReliable.received_step step)
    have hread := dispatched_le (parsed_handlers h.ends h.serves.wires h.serves.loops)
    have hread' := dispatched_le
      (parsed_handlers h'.ends h'.serves.wires h'.serves.loops)
    rw [List.length_append] at hreceived
    rw [Pays] at hless
    simp only [requestBytes, responseBytes, next] at hrequests hresponses hrequests' hresponses'
    simp only [handlers, next] at hread hread'
    simp only [work, requestBytes, responseBytes, next, handlers]
    omega

end Both

end EasybdEndToEndWork
