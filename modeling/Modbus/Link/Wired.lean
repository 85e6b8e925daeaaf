import Modbus.Link.Peer
import Modbus.Link.Endpoint

/-!
# An endpoint wired to a peer

The peer hears what the endpoint sends, and its answers arrive on the endpoint's stream. A connector, if there is one,
replaces the stream by a fresh one to a peer that goes on with the same replies.
-/

namespace Modbus

structure Wired where
  endpoint : Endpoint
  peer : Peer
  /-- How the next calls of the connector end; without it there is no connector. -/
  connector : Option (List (Except Fault Unit)) := none

namespace Wired

def arrive (line : Stream) : Nat × Peer.Action → Stream
  | (time, .say bs) => if bs.isEmpty then line else line.deliver ⟨time, bs⟩
  | (time, .hangUp) => { line with closing := some time }

/-- The peer hears bytes unless it has closed the stream by the time it would listen. Bytes that join others which
it has not heard are heard with them, whatever it will do then. -/
def exchange (far : Stream × Peer) (chunk : Chunk) : Stream × Peer :=
  let (line, peer) := far
  if ¬ peer.hasUnheard chunk.time ∧ line.closing.any (· ≤ max chunk.time peer.free) then far
  else
    let (actions, peer) := peer.hear chunk.time chunk.bytes
    (actions.foldl arrive line, peer)

def handOver (w : Wired) : Wired :=
  let (line, peer) := w.endpoint.line.sent.foldl exchange ({ w.endpoint.line with sent := [] }, w.peer)
  { w with endpoint := { w.endpoint with line }, peer }

def send (adu : Adu) (limit : Option Nat) (w : Wired) : Outcome Unit × Wired :=
  let (outcome, endpoint) := w.endpoint.send adu limit
  (outcome, handOver { w with endpoint })

def receive (limit : Option Nat) (w : Wired) : Outcome (Option Adu) × Wired :=
  let (outcome, endpoint) := w.endpoint.receive limit
  (outcome, { w with endpoint })

/-- Calls the connector, which succeeds if nothing else is known of it. -/
def reconnect (w : Wired) : Except Fault Unit × Wired :=
  match w.connector with
  | none => ((w.endpoint.reconnect none).1, w)
  | some ends =>
    let peer := w.peer.called w.endpoint.clock
    let (result, endpoint) := w.endpoint.reconnect (some ((ends.headD (.ok ())).map fun _ => {}))
    let peer := if result.isOk then peer.succeed endpoint.clock else peer
    (result, { endpoint, peer, connector := some ends.tail })

def disconnect (w : Wired) : Except Fault Unit × Wired :=
  let (result, endpoint) := w.endpoint.disconnect
  (result, { w with endpoint })

def tell (w : Wired) : List Peer.Event × Wired :=
  let (events, peer) := w.peer.tell w.endpoint.clock
  (events, { w with peer })

theorem framing_reconnect (w : Wired) : w.reconnect.2.endpoint.framing = w.endpoint.framing := by
  unfold reconnect
  split
  · rfl
  · simp only [Endpoint.reconnect]
    cases List.headD _ (Except.ok ()) with
    | error f => rfl
    | ok _ => cases hr : w.endpoint.receiver <;> simp [Endpoint.reopen, Endpoint.framing, Receiver.framing,
        Receiver.stream, Receiver.fresh, Except.map, hr]

instance : Link Wired where
  framing w := w.endpoint.framing
  now w := w.endpoint.clock
  pause d w := { w with endpoint := { w.endpoint with clock := w.endpoint.clock + d } }
  send := send
  receive := receive
  reconnect := reconnect
  disconnect := disconnect
  backlog w := (0, w.endpoint.weight)
  receive_less limit w h := Prod.Lex.right _ (w.endpoint.weight_receive limit h)
  framing_send adu limit w := w.endpoint.framing_send adu limit
  framing_receive limit w := w.endpoint.framing_receive limit
  framing_reconnect := framing_reconnect

end Wired

end Modbus
