import Modbus.Link.Datagram
import Modbus.Link.Peer

/-!
# A datagram endpoint and a peer

The peer hears every datagram that the endpoint sends, and every part of its answers is one datagram.
-/

namespace Modbus

structure Posted where
  endpoint : DatagramEndpoint
  peer : Peer

namespace Posted

def address : Nat := 0

def arrive (endpoint : DatagramEndpoint) : Nat × Peer.Action → DatagramEndpoint
  | (time, .say bs) => endpoint.deliver ⟨time, address, bs⟩
  | (_, .hangUp) => endpoint

def handOver (p : Posted) : Posted :=
  p.endpoint.sent.foldl exchange { p with endpoint := { p.endpoint with sent := [] } }
where
  exchange (p : Posted) (d : Datagram) : Posted :=
    let (actions, peer) := p.peer.hear d.time d.bytes
    { endpoint := actions.foldl arrive p.endpoint, peer }

def tell (p : Posted) : List Peer.Event × Posted :=
  let (events, peer) := p.peer.tell p.endpoint.clock
  (events, { p with peer })

instance : Link Posted where
  framing p := Link.framing p.endpoint
  now p := p.endpoint.clock
  pause d p := { p with endpoint := Link.pause d p.endpoint }
  send adu limit p :=
    let (outcome, endpoint) := p.endpoint.send adu limit
    (outcome, handOver { p with endpoint })
  receive limit p :=
    let (outcome, endpoint) := p.endpoint.receive limit
    (outcome, { p with endpoint })
  reconnect p := ((Link.reconnect p.endpoint).1, p)
  disconnect p := ((Link.disconnect p.endpoint).1, p)
  backlog p := (0, p.endpoint.arrivals.length)
  receive_less limit p h := Prod.Lex.right _ (p.endpoint.length_receive limit h)

end Posted

end Modbus
