import Modbus.Frame.Mbap
import Modbus.Link.Basic

/-!
# Links over datagrams

A datagram carries exactly one MBAP frame. An endpoint that is connected talks to one peer; any other answers whoever
sent the last datagram that it received, delivered or discarded.
-/

namespace Modbus

structure Datagram where
  time : Nat
  peer : Nat
  bytes : Bytes
  deriving DecidableEq

structure DatagramEndpoint where
  connected : Bool := false
  peer : Option Nat := none
  arrivals : List Datagram := []
  sent : List Datagram := []
  clock : Nat := 0
  deriving DecidableEq

namespace DatagramEndpoint

/-- Bytes of a datagram that are received; what is beyond is lost. -/
def maxDatagram : Nat := Mbap.headerSize + Pdu.maxSize

def connect (peer : Nat) : DatagramEndpoint := { connected := true, peer := some peer }

/-- Schedules a datagram that somebody sends; a connected endpoint takes those of its peer only. -/
def deliver (d : Datagram) (p : DatagramEndpoint) : DatagramEndpoint :=
  if p.connected ∧ p.peer ≠ some d.peer then p else { p with arrivals := p.arrivals ++ [d] }

def send (adu : Adu) (limit : Option Nat) (p : DatagramEndpoint) : Outcome Unit × DatagramEndpoint :=
  if ¬ Within p.clock limit then (.pending, p)
  else
    match Mbap.append adu [], p.peer with
    | .error f, _ => (.failed f, p)
    | .ok _, none => (.failed .noPeer, p)
    | .ok frame, some peer => (.done (), { p with sent := p.sent ++ [⟨p.clock, peer, frame⟩] })

def receive (limit : Option Nat) (p : DatagramEndpoint) : Outcome (Option Adu) × DatagramEndpoint :=
  match p.arrivals with
  | [] => (.pending, { p with clock := waited p.clock limit })
  | d :: rest =>
    if Within (max p.clock d.time) limit then
      let peer := if p.connected then p.peer else some d.peer
      (.done (Mbap.decodeDatagram (d.bytes.take maxDatagram)).adu?,
        { p with arrivals := rest, clock := max p.clock d.time, peer })
    else (.pending, { p with clock := waited p.clock limit })

theorem length_receive (limit : Option Nat) (p : DatagramEndpoint) (h : (p.receive limit).1.GoesOn) :
    (p.receive limit).2.arrivals.length < p.arrivals.length := by
  unfold receive at h ⊢
  split at h
  · cases h
  · rename_i d rest hd
    split at h
    · rename_i hw
      simp [hd, if_pos hw]
    · cases h

theorem arrivals_send (adu : Adu) (limit : Option Nat) (p : DatagramEndpoint) :
    (p.send adu limit).2.arrivals = p.arrivals := by
  unfold send
  split
  · rfl
  · split <;> rfl

instance : QuietLink DatagramEndpoint where
  framing _ := .udp
  now := clock
  pause d p := { p with clock := p.clock + d }
  send := send
  receive := receive
  reconnect p := (.ok (), p)
  disconnect p := (.ok (), p)
  backlog p := (0, p.arrivals.length)
  receive_less limit p h := Prod.Lex.right _ (p.length_receive limit h)
  send_backlog adu limit p := by simp [arrivals_send]

end DatagramEndpoint

end Modbus
