import EasyBD.EasyioFallibleSenders
import EasyBD.EasybdSessionReliable

/-! A connection on which anything may fail: the responses that its socket has begun to take are
some of those its handlers have queued, each the one its request calls for. -/
namespace EasybdSessionFallible

open TransitionRuns SerializedFrames CarriedFrames EasybdProtocol EasyioQueue EasyioSenders
open EasyioFallibleSenders EasybdHandlers EasybdSession EasybdSessionTasks EasybdSessionChannel
open EasybdSessionResponses EasybdSessionReliable

variable {s s' : State} {e : Event}

def ofFrame (frame : List UInt8) : Response :=
  let header := ResponseHeader.ofBytes (frame.take responseHeaderSize)
  ⟨header.cid, header.res, frame.drop responseHeaderSize⟩

theorem ofFrame_encode (resp : Response) : ofFrame resp.encode = resp := by
  have hfront : resp.encode.take responseHeaderSize = ResponseHeader.bytes ⟨resp.cid, resp.res⟩ :=
    List.take_left' (ResponseHeader.bytes_length _)
  have hback : resp.encode.drop responseHeaderSize = resp.body :=
    List.drop_left' (ResponseHeader.bytes_length _)
  have hheader := ResponseHeader.ofBytes_bytes ⟨resp.cid, resp.res⟩ []
  rw [List.append_nil] at hheader
  simp only [ofFrame, hfront, hback, hheader]

def responses (s : State) : List Response := (carried (channelLog s.trace)).map ofFrame

theorem responses_step (step : Step s e s') : (responses s).IsPrefix (responses s') :=
  (carried_step (channel_step step)).map ofFrame

/-- What holds of a connection in every run in which its socket, once broken, stays broken. -/
structure Fallible (s : State) : Prop where
  early : ThrowsEarly (channel s)
  sticky : Sticky (channelLog s.trace)
  answers : RepliesAnswer s

theorem fallible_of_run {backend : Backend} (h : Run machine Permanent (initial backend) s) :
    Fallible s := by
  refine h.invariant_under (I := fun u => (channel u).Ok sender ∧ Accounted u)
    (fun u hu => ⟨channel_ok hu, accounted_of_run hu⟩) ⟨.initial, trivial, nofun⟩ ?_
  rintro u e ⟨hok, haccounted⟩ hu he g
  have step := step_of_enabled he
  exact ⟨throwsEarly_step hu.early hok (channel_step step), sticky_step hu.sticky g step,
    repliesAnswer_step hu.answers haccounted step⟩

theorem Fallible.carries (h : Fallible s) (hok : (channel s).Ok sender) :
    Carries sender (channel s) := EasyioFallibleSenders.carries hok h.early h.sticky

theorem sent_responses (h : Fallible s) (hok : (channel s).Ok sender) (hd : Delivers s) :
    ∃ sent : List (ℕ × Response), sent.Sublist (replied s.trace) ∧
      responses s = sent.map Prod.snd ∧
      carried (channelLog s.trace) = sent.map fun a => a.2.encode := by
  have horder := (h.carries hok).order
  rw [hd.order] at horder
  obtain ⟨sent, hsub, hcarried⟩ := List.sublist_map_iff.mp horder
  refine ⟨sent, hsub, ?_, hcarried⟩
  rw [responses, show channelLog s.trace = (channel s).log from rfl, hcarried, List.map_map]
  exact List.map_congr_left fun a _ => ofFrame_encode a.2

/-- The socket has taken the frames of these responses up to some point of the last. -/
theorem wire_responses (h : Fallible s) (hok : (channel s).Ok sender) (hd : Delivers s) :
    (wire (channelLog s.trace)).IsPrefix ((responses s).map Response.encode).flatten := by
  obtain ⟨sent, -, hresponses, hcarried⟩ := sent_responses h hok hd
  have hwire := (h.carries hok).cut.wire_prefix
  rw [show (channel s).log = channelLog s.trace from rfl, hcarried] at hwire
  rw [hresponses, List.map_map]
  exact hwire

end EasybdSessionFallible
