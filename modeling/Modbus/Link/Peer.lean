import Modbus.Link.Stream
import Modbus.Time

/-!
# Scripted peers

A peer at the far end of a link waits for bytes and answers each burst with the next reply of a list. While it is at a
reply it does not listen: what arrives meanwhile is one burst, heard when the reply is done. As the peer only acts on
what it is sent, all that it will do about a burst is known as soon as the burst is sent.

When the link is replaced, the peer of the new one goes on with the same list. The old one finds out when it next
sends something; if it listens before that, it hears what had been sent to it, and takes a reply that nobody gets.
-/

namespace Modbus

namespace Peer

inductive Action
  | say (bs : Bytes)
  /-- Closes the link; nothing comes after it. -/
  | hangUp
  deriving DecidableEq

/-- An action some time after the one before it. -/
structure Part where
  delay : Nat := 0
  action : Action
  deriving DecidableEq

abbrev Reply := List Part

inductive Event
  | heard (burst : Bytes)
  | connected
  deriving DecidableEq

def schedule (start : Nat) : Reply → List (Nat × Action)
  | [] => []
  | ⟨delay, .hangUp⟩ :: _ => [(start + Duration.pause delay, .hangUp)]
  | ⟨delay, .say bs⟩ :: parts =>
    let time := start + Duration.pause delay
    (time, .say bs) :: schedule time parts

def finish (start : Nat) (r : Reply) : Nat := ((schedule start r).getLast?.map (·.1)).getD start

def Action.speaks : Action → Bool
  | .say bs => ¬ bs.isEmpty
  | .hangUp => false

def lastSpeech (start : Nat) (r : Reply) : Nat :=
  ((schedule start r).reverse.find? (·.2.speaks)).elim 0 (·.1)

/-- Bytes that have reached a peer that was at a reply. -/
structure Burst extends Chunk where
  speech : Nat
  deriving DecidableEq

def insertByTime (c : Chunk) (cs : List Chunk) : List Chunk :=
  cs.takeWhile (·.time ≤ c.time) ++ c :: cs.dropWhile (·.time ≤ c.time)

end Peer

/-- A peer that answers bursts from a list of replies. -/
structure Peer where
  replies : List Peer.Reply
  free : Nat := 0
  speech : Nat := 0
  /-- The last burst, with the time at which it is heard. -/
  unheard : Option Peer.Burst := none
  /-- Bursts on links that have been replaced, in order of the times at which they are heard. -/
  stranded : List Chunk := []
  events : List Peer.Event := []
  deriving DecidableEq

namespace Peer

/-- Records the bursts that have been heard by now. Each has used up a reply. -/
def settle (now : Nat) (p : Peer) : Peer :=
  let early := p.stranded.takeWhile (·.time ≤ now)
  let own := (p.unheard.filter (·.time ≤ now)).map (·.toChunk)
  let heard := own.elim early (insertByTime · early)
  { p with
    replies := p.replies.drop heard.length
    unheard := p.unheard.filter (now < ·.time)
    stranded := p.stranded.dropWhile (·.time ≤ now)
    events := p.events ++ heard.map (.heard ·.bytes) }

def hasUnheard (now : Nat) (p : Peer) : Bool := p.unheard.any (now < ·.time)

def replyAt (time : Nat) (p : Peer) : Reply :=
  (p.replies.drop (p.stranded.takeWhile (·.time ≤ time)).length).headD []

def hear (now : Nat) (bs : Bytes) (p : Peer) : List (Nat × Action) × Peer :=
  let p := p.settle now
  match p.unheard with
  | some burst => ([], { p with unheard := some { burst with bytes := burst.bytes ++ bs } })
  | none =>
    let start := max now p.free
    let reply := p.replyAt start
    (schedule start reply,
      { p with
        free := finish start reply
        speech := lastSpeech start reply
        unheard := some { time := start, bytes := bs, speech := p.speech } })

def called (now : Nat) (p : Peer) : Peer :=
  let p := p.settle now
  { p with events := p.events ++ [.connected] }

def succeed (now : Nat) (p : Peer) : Peer :=
  let p := p.settle now
  let left := (p.unheard.filter (·.speech ≤ now)).map (·.toChunk)
  { replies := p.replies
    stranded := left.elim p.stranded (insertByTime · p.stranded)
    events := p.events }

def tell (now : Nat) (p : Peer) : List Event × Peer :=
  let p := p.settle now
  (p.events, { p with events := [] })

end Peer

end Modbus
