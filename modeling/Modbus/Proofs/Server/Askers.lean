import Modbus.Proofs.Link.Datagrams
import Modbus.Proofs.Server.Replies

/-!
# Answers to those who asked

A server on a datagram address has many peers, whose datagrams arrive in any order. It remembers one peer, that of the
last datagram, and deals with one datagram after the other, so what it sends goes to the peer that it is dealing with.
`Turn` says what one datagram leads to, and every run consists of such turns.
-/

namespace Modbus.Server

variable {τ : Type}

/-- What one datagram leads to: the datagram that is sent, if there is one, and the service afterwards. -/
inductive Turn (service : Service τ) (d : Datagram) (t : τ) : Option Datagram → τ → Prop
  | malformed (h : ∀ frame, ¬ d.Carries frame) : Turn service d t none t
  | undecodable {frame e} (carries : d.Carries frame) (h : Request.decode frame.pdu = .error e) :
      Turn service d t none t
  | unanswered {frame request t'} (carries : d.Carries frame) (h : Request.decode frame.pdu = .ok request)
      (served : service frame.header.unit request t = (.ok none, t')) : Turn service d t none t'
  | answered {frame request result t' message reply} (carries : d.Carries frame)
      (h : Request.decode frame.pdu = .ok request) (served : service frame.header.unit request t = (result, t'))
      (given : result ≠ .ok none) (answers : Answers ⟨frame, request, result⟩ message)
      (bytes : Mbap.append message [] = .ok reply.bytes) (peer : reply.peer = d.peer) (later : d.time ≤ reply.time) :
      Turn service d t (some reply) t'

variable {d : Datagram}

end Modbus.Server
