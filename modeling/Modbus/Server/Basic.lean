import Modbus.Link.Basic
import Modbus.Pdu.Response

/-!
# Serving a link

A server reads requests from a link, asks its service for the answer and sends it back with the header of the
request. Whatever is no request is skipped. Broadcasts of headless framings are carried out and not answered. The
server goes on until the link breaks.
-/

namespace Modbus

/-- Answers requests to units; no response means that nothing is to be sent. -/
abbrev Service (τ : Type) := UnitId → Request → τ → Except ExceptionCode (Option Response) × τ

namespace Server

def request? (adu : Adu) : Option (UInt8 × Request) :=
  match adu.functionByte?, Request.decode adu.pdu with
  | some function, .ok r => some (function, r)
  | _, _ => none

def refusal (function : UInt8) (e : ExceptionCode) : Reply := .error ⟨FunctionCode.ofByte function, e⟩

/-- The PDU that answers a function; a response that fits no PDU becomes a device failure. -/
def replyPdu (function : UInt8) (reply : Reply) : Bytes :=
  (Reply.toPdu? reply).getD (Reply.encode (refusal function .serverDeviceFailure))

def answer? (framing : Framing) (header : Header) (function : UInt8) :
    Except ExceptionCode (Option Response) → Option Adu
  | .ok none => none
  | .ok (some response) =>
    if framing.isHeadless ∧ header.unit.isBroadcast then none else some ⟨header, replyPdu function (.ok response)⟩
  | .error e =>
    if framing.isHeadless ∧ header.unit.isBroadcast then none
    else some ⟨header, replyPdu function (refusal function e)⟩

def react {τ : Type} (service : Service τ) (framing : Framing) (frame : Option Adu) (t : τ) : Option Adu × τ :=
  match frame with
  | none => (none, t)
  | some adu =>
    match request? adu with
    | none => (none, t)
    | some (function, r) =>
      let (result, t) := service adu.header.unit r t
      (answer? framing adu.header function result, t)

inductive Status
  | waiting
  | ended
  deriving DecidableEq

variable {σ τ : Type} [QuietLink σ]

theorem less_of_frame {limit : Option Nat} {s s' : σ} {frame : Option Adu}
    (h : Link.receive limit s = (.done frame, s')) : Backlog.Less (Link.backlog s') (Link.backlog s) := by
  have := Link.receive_less limit s
  rw [h] at this
  exact this trivial

theorem less_of_failure {limit : Option Nat} {s s' : σ} {f : Fault}
    (h : Link.receive limit s = (.failed f, s')) (goesOn : ¬ f.isFatal) :
    Backlog.Less (Link.backlog s') (Link.backlog s) := by
  have := Link.receive_less limit s
  rw [h] at this
  exact this (by simpa [Outcome.GoesOn] using goesOn)

theorem backlog_of_send {adu : Adu} {s s' : σ} {o : Outcome Unit} (h : Link.send adu none s = (o, s')) :
    Link.backlog s' = Link.backlog s := by
  have := QuietLink.send_backlog adu none s
  rwa [h] at this

/-- Serves a link until it breaks or the limit is reached. A message that has been begun is sent even if it takes
longer. -/
def run (service : Service τ) (limit : Option Nat) (s : σ) (t : τ) : Status × σ × τ :=
  match _ : Link.receive limit s with
  | (.pending, s') => (.waiting, s', t)
  | (.failed f, s') => if _ : f.isFatal then (.ended, s', t) else run service limit s' t
  | (.done frame, s') =>
    match react service (Link.framing s') frame t with
    | (none, t) => run service limit s' t
    | (some reply, t) =>
      match _ : Link.send reply none s' with
      | (.pending, s'') => (.waiting, s'', t)
      | (.failed f, s'') => if f.isFatal then (.ended, s'', t) else run service limit s'' t
      | (.done _, s'') => run service limit s'' t
termination_by Link.backlog s
decreasing_by
  · exact less_of_failure ‹Link.receive limit s = _› ‹¬f.isFatal = true›
  · exact less_of_frame ‹Link.receive limit s = _›
  · exact backlog_of_send ‹Link.send reply none s' = _› ▸ less_of_frame ‹Link.receive limit s = _›
  · exact backlog_of_send ‹Link.send reply none s' = _› ▸ less_of_frame ‹Link.receive limit s = _›

end Server

end Modbus
