import Modbus.Server.Station

/-!
# A client coupled to a station

The client's end of a stream whose far end is a station. The station acts whenever time passes at the client's end,
and only as far: it is brought forward to the instant at which the client's operation ends, no further, so that what
the client sends next reaches it in time. What is written at one end arrives at the other as the carriage of the
stream has it: at once and in one piece unless something else is said.
-/

namespace Modbus

/-- How a stream carries what is written to it: the pieces in which a chunk arrives, turn by turn. -/
structure Carriage where
  there : Nat → Chunk → List Chunk := fun _ chunk => [chunk]
  back : Nat → Chunk → List Chunk := fun _ chunk => [chunk]

structure Coupled (τ : Type) where
  service : Service τ
  near : Endpoint
  far : Station τ
  carriage : Carriage := {}
  turn : Nat := 0

namespace Coupled

variable {τ : Type}

def settle (limit : Option Nat) (c : Coupled τ) : Coupled τ :=
  let far := c.far.cleared.runTo c.service limit
  let pieces := far.endpoint.line.sent.flatMap (c.carriage.back c.turn)
  let line := pieces.foldl Stream.deliver c.near.line
  let closing := match far.status with
    | .ended => some far.endpoint.clock
    | .waiting => line.closing
  { c with near := { c.near with line := { line with closing } }, far }

def handOver (c : Coupled τ) : Coupled τ :=
  { c with
    near := { c.near with line := { c.near.line with sent := [] } }
    far := (c.near.line.sent.flatMap (c.carriage.there c.turn)).foldl (fun far chunk => far.hear chunk) c.far
    turn := c.turn + 1 }

def send (adu : Adu) (limit : Option Nat) (c : Coupled τ) : Outcome Unit × Coupled τ :=
  let (outcome, near) := c.near.send adu limit
  (outcome, (settle (some near.clock) { c with near }).handOver)

/-- The first pass finds out when the receive ends; the second brings the station exactly there. -/
def receive (limit : Option Nat) (c : Coupled τ) : Outcome (Option Adu) × Coupled τ :=
  let ending := ((c.settle limit).near.receive limit).2.clock
  let c := c.settle (some ending)
  let (outcome, near) := c.near.receive limit
  (outcome, { c with near })

def disconnect (c : Coupled τ) : Except Fault Unit × Coupled τ :=
  let c := c.settle (some c.near.clock)
  let (result, near) := c.near.disconnect
  (result, { c with near, far := c.far.hangUp near.clock })

theorem settle_le (limit : Option Nat) (c : Coupled τ) :
    (c.settle limit).far.endpoint.weight < c.far.endpoint.weight ∨
      (c.settle limit).far.endpoint.weight ≤ c.far.endpoint.weight ∧
        (c.settle limit).near.weight = c.near.weight := by
  have h := c.far.cleared.runTo_le c.service limit
  have hw : c.far.cleared.endpoint.weight = c.far.endpoint.weight := rfl
  rw [hw] at h
  rcases h.2 with hs | hl
  · refine .inr ⟨h.1, ?_⟩
    have hn : (c.far.cleared.runTo c.service limit).endpoint.line.sent = [] := hs
    simp [settle, hn, Endpoint.weight, Stream.weight]
  · exact .inl hl

instance : Link (Coupled τ) where
  framing c := c.near.framing
  now c := c.near.clock
  pause d c := { c with near := { c.near with clock := c.near.clock + d } }
  send := send
  receive := receive
  reconnect c := ((c.near.reconnect none).1, c)
  disconnect := disconnect
  backlog c := (c.far.endpoint.weight, c.near.weight)
  framing_send adu limit c := c.near.framing_send adu limit
  framing_receive limit c := ((c.settle _).near.framing_receive limit)
  receive_less limit c h := by
    unfold receive at h ⊢
    dsimp only at h ⊢
    generalize ((c.settle limit).near.receive limit).2.clock = ending at h ⊢
    have hr := Endpoint.weight_receive limit _ h
    rcases c.settle_le (some ending) with hl | ⟨hl, hn⟩
    · exact Prod.Lex.left _ _ hl
    · rcases Nat.lt_or_eq_of_le hl with hl | hl
      · exact Prod.Lex.left _ _ hl
      · rw [hl]
        exact Prod.Lex.right _ (by omega)

end Coupled

end Modbus
