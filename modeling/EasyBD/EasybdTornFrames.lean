import EasyBD.EasybdClientChannel
import EasyBD.EasybdClientCallbacks
import EasyBD.EasybdSessionChannel

/-! Whole frames on both directions of a connection, and how one is torn: the mutex is handed
on after a failed `send_all` as after a complete one. -/
namespace EasybdTornFrames

open TransitionRuns SerializedFrames EasybdProtocol EasyioQueue EasybdHandlers EasybdRequests
open EasybdClientCallbacks (shortReadSend)

/-- Both directions of a connection, whatever the two sides run. -/
theorem frames_never_torn {backend backend' : Backend} {syncWrites : Bool}
    {client : EasybdClient.State} {server : EasybdSession.State}
    (hclient : Run EasybdClient.machine EasybdClientChannel.Permanent
      (EasybdClient.initial backend syncWrites) client)
    (hserver : Run EasybdSession.machine EasybdSessionChannel.Permanent
      (EasybdSession.initial backend') server) :
    FramePrefix (EasybdClientChannel.channelLog client.trace) ∧
      FramePrefix (EasybdSessionChannel.channelLog server.trace) := by
  constructor
  · exact framePrefix_of_run
      (fun c : EasybdClient.State => EasybdClientChannel.channelLog c.trace) hclient
      (EasybdClientChannel.channel_ok hclient).serial trivial fun _ _ hs he hg =>
        EasybdClientChannel.sticky_step hs hg (EasybdClient.step_of_enabled he)
  · exact framePrefix_of_run
      (fun s : EasybdSession.State => EasybdSessionChannel.channelLog s.trace) hserver
      (EasybdSessionChannel.channel_ok hserver).serial trivial fun _ _ hs he hg =>
        EasybdSessionChannel.sticky_step hs hg (EasybdSession.step_of_enabled he)

/-- The kernel takes one byte of the first request and no SQE is left for the rest; `next`
becomes of the second request's send. -/
def tornRequest (next : SendOutcome) : List EasybdClient.Event :=
  let first := shortReadSend
  let second : EasybdClient.SendRequest := ⟨1, 2, [], shortRead.startSend false 2⟩
  [.request shortRead none, .sendCall .suspended, .requestReturn, .wait, .poll,
    .complete first (.accepted 1), .reap first (some 1), .run, .sendCall .failed, .run,
    .callbackReturn, .run, .waitReturn, .request shortRead none, .sendCall .suspended,
    .complete second next]

def tornResponse (next : SendOutcome) : List EasybdSession.Event :=
  let read (cid : UInt64) : Handler := .handleRead cid 0 2
  let first := EasybdSession.State.replyOf 0 (read 1) ⟨1, 2, [7, 8]⟩
  let second := EasybdSession.State.replyOf 1 (read 2) ⟨2, 2, [7, 8]⟩
  [.received [shortRead.encode false 1 ++ shortRead.encode false 2], .run, .alloc true, .alloc true,
    .perform .suspended, .run, .alloc true, .alloc true, .perform .suspended, .run,
    .fileReady 0 (read 1) (.transferred 2 [7, 8]), .sendCall .suspended,
    .complete first (.accepted 1), .reap first (some 1), .run, .sendCall .failed, .run, .run, .run,
    .fileReady 1 (read 2) (.transferred 2 [7, 8]), .sendCall .suspended, .complete second next]

theorem frames_never_torn_connection_gone :
    FramePrefix (EasybdClientChannel.channelLog (runTrace EasybdClient.machine
      (EasybdClient.initial .ioUring false) (tornRequest .failed)).trace) ∧
    FramePrefix (EasybdSessionChannel.channelLog (runTrace EasybdSession.machine
      (EasybdSession.initial .ioUring) (tornResponse .failed)).trace) :=
  frames_never_torn
    (run_of_trace (tornRequest .failed) (by decide +kernel) (by decide +kernel))
    (run_of_trace (tornResponse .failed) (by decide +kernel) (by decide +kernel))

/-- The second frame's first byte follows the first frame's. -/
theorem frame_torn_and_continued :
    (∃ s, Reachable EasybdClient.machine (EasybdClient.initial .ioUring false) s ∧
      wire (EasybdClientChannel.channelLog s.trace) = [1, 2] ∧
      ¬ FramePrefix (EasybdClientChannel.channelLog s.trace)) ∧
    ∃ s, Reachable EasybdSession.machine (EasybdSession.initial .ioUring) s ∧
      wire (EasybdSessionChannel.channelLog s.trace) = [1, 2] ∧
      ¬ FramePrefix (EasybdSessionChannel.channelLog s.trace) :=
  ⟨⟨_, reachable_of_trace (tornRequest (.accepted 1)) (by decide +kernel), by decide +kernel,
    by decide +kernel⟩,
    ⟨_, reachable_of_trace (tornResponse (.accepted 1)) (by decide +kernel), by decide +kernel,
      by decide +kernel⟩⟩

end EasybdTornFrames
