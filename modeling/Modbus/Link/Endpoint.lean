import Modbus.Line.Bus
import Modbus.Link.BurstReader
import Modbus.Link.FrameReader

/-!
# Links over a byte stream

An endpoint frames ADUs on a byte stream. On a serial line it leaves a pause before each message: the bus counts as
busy until the last frame that was received, or until the computed end of the last one that was sent.
-/

namespace Modbus

inductive StreamFraming
  | tcp
  | rtu
  | ascii
  deriving DecidableEq

inductive Receiver
  | mbap (reader : FrameReader)
  | ascii (reader : FrameReader)
  | rtu (reader : BurstReader)
  deriving DecidableEq

namespace Receiver

def fresh (timing : Timing) : StreamFraming → Receiver
  | .tcp => mbap {}
  | .ascii => ascii {}
  | .rtu => rtu ⟨{ timing }, []⟩

def stream : Receiver → StreamFraming
  | mbap _ => .tcp
  | ascii _ => .ascii
  | rtu _ => .rtu

def framing : Receiver → Framing
  | mbap _ => .tcp
  | ascii _ => .ascii
  | rtu _ => .rtu

def frame (adu : Adu) : Receiver → Except Fault Bytes
  | mbap _ => Mbap.append adu []
  | ascii _ => Ascii.append adu []
  | rtu _ => .ok (Rtu.encode adu)

end Receiver

structure Endpoint where
  timing : Timing
  receiver : Receiver
  bus : Bus
  line : Stream := {}
  clock : Nat := 0
  deriving DecidableEq

namespace Endpoint

def fresh (framing : StreamFraming) (config : SerialConfig) (line : Stream) : Endpoint :=
  let timing := config.timing
  { timing, receiver := .fresh timing framing, bus := ⟨timing.messagePause, none⟩, line }

def framing (p : Endpoint) : Framing := p.receiver.framing

def describe (stream : String) (reconnectable : Bool) (p : Endpoint) : String :=
  let first := ("stream", stream)
  let last := ("reconnectable", Literal.bool reconnectable)
  match p.receiver with
  | .mbap _ => Literal.record "TcpTransport" [first, last]
  | .ascii _ => Literal.record "AsciiTransport" [first, last]
  | .rtu r =>
    Literal.record "RtuTransport"
      [first, ("timing", p.timing.describe), ("state", r.assembler.state.name), last]

/-- The first instant at which a message may start. -/
def sendStart (p : Endpoint) : Nat := if p.framing.isHeadless then p.bus.ready p.clock else p.clock

def busAfter (p : Endpoint) (start length : Nat) : Bus :=
  if p.framing.isHeadless then p.bus.mark (start + p.timing.transmission length) else p.bus

def send (adu : Adu) (limit : Option Nat) (p : Endpoint) : Outcome Unit × Endpoint :=
  let start := p.sendStart
  if ¬ Within start limit then (.pending, { p with clock := waited p.clock limit })
  else
    let p := { p with clock := start }
    match p.receiver.frame adu with
    | .error f => (.failed f, p)
    | .ok frame =>
      match p.line.write start frame with
      | .error f => (.failed f, p)
      | .ok line => (.done (), { p with line, bus := p.busAfter start frame.length })

def busMarked {α : Type} (b : Bus) (clock : Nat) : Outcome α → Bus
  | .done _ => b.mark clock
  | _ => b

/-- The next frame; nothing is received after the limit. -/
def receive (limit : Option Nat) (p : Endpoint) : Outcome (Option Adu) × Endpoint :=
  if ¬ Within p.clock limit then (.pending, p)
  else
    match p.receiver with
    | .mbap r =>
      let f := FrameReader.next Mbap.envelope limit p.clock p.line r
      (f.outcome.map Frame.adu?, { p with clock := f.clock, line := f.line, receiver := .mbap f.reader })
    | .ascii r =>
      let f := FrameReader.next Ascii.envelope limit p.clock p.line r
      let bus := busMarked p.bus f.clock f.outcome
      (f.outcome.map Frame.adu?, { p with clock := f.clock, line := f.line, receiver := .ascii f.reader, bus })
    | .rtu r =>
      let f := BurstReader.next limit p.clock p.line r
      let bus := busMarked p.bus f.clock f.outcome
      (f.outcome.map (Frame.adu? ∘ Rtu.decode),
        { p with clock := f.clock, line := f.line, receiver := .rtu f.reader, bus })

/-- Goes on with a fresh stream; nothing that the old one left behind is kept. -/
def reopen (line : Stream) (p : Endpoint) : Endpoint :=
  { p with line, receiver := .fresh p.timing p.receiver.stream }

def reconnect (connected : Option (Except Fault Stream)) (p : Endpoint) : Except Fault Unit × Endpoint :=
  match connected with
  | none => (.error .noConnector, p)
  | some (.error f) => (.error f, p)
  | some (.ok line) => (.ok (), p.reopen line)

def disconnect (p : Endpoint) : Except Fault Unit × Endpoint :=
  (Fault.ignoreClosed (.ok ()), { p with line := { p.line with shut := true } })

def weight (p : Endpoint) : Nat :=
  match p.receiver with
  | .mbap r | .ascii r => r.weight + p.line.weight
  | .rtu r => r.weight + 2 * p.line.weight

theorem weight_receive (limit : Option Nat) (p : Endpoint) (h : (p.receive limit).1.GoesOn) :
    (p.receive limit).2.weight < p.weight := by
  unfold receive at h ⊢
  split at h
  · cases h
  · rename_i hw
    simp only [if_neg hw]
    cases hr : p.receiver with
    | mbap r =>
      simp only [hr, Outcome.goesOn_map, weight] at h ⊢
      exact FrameReader.weight_next _ _ _ _ _ h
    | ascii r =>
      simp only [hr, Outcome.goesOn_map, weight] at h ⊢
      exact FrameReader.weight_next _ _ _ _ _ h
    | rtu r =>
      simp only [hr, Outcome.goesOn_map, weight] at h ⊢
      exact BurstReader.weight_next _ _ _ _ h

theorem receive_le (limit : Option Nat) (p : Endpoint) :
    (p.receive limit).2.line.sent = p.line.sent ∧ (p.receive limit).2.weight ≤ p.weight := by
  unfold receive
  split
  · exact ⟨rfl, Nat.le_refl _⟩
  · cases hr : p.receiver with
    | mbap r =>
      have := FrameReader.next_le Mbap.envelope limit p.clock p.line r
      simpa only [weight, hr] using this
    | ascii r =>
      have := FrameReader.next_le Ascii.envelope limit p.clock p.line r
      simpa only [weight, hr] using this
    | rtu r =>
      have := BurstReader.next_le limit p.clock p.line r
      simpa only [weight, hr] using this

theorem arrivals_write {s t : Stream} {now : Nat} {bs : Bytes} (h : s.write now bs = .ok t) :
    t.arrivals = s.arrivals := by
  unfold Stream.write at h
  split at h
  · cases h
  · cases h; rfl

theorem weight_send (adu : Adu) (limit : Option Nat) (p : Endpoint) : (p.send adu limit).2.weight = p.weight := by
  unfold send
  dsimp only
  split
  · rfl
  · split
    · rfl
    · split
      · rfl
      · rename_i line hl
        have := arrivals_write hl
        simp [weight, Stream.weight, this]

theorem framing_send (adu : Adu) (limit : Option Nat) (p : Endpoint) :
    (p.send adu limit).2.framing = p.framing := by
  unfold send
  dsimp only
  split
  · rfl
  · split
    · rfl
    · split <;> rfl

theorem framing_receive (limit : Option Nat) (p : Endpoint) : (p.receive limit).2.framing = p.framing := by
  unfold receive
  split
  · rfl
  · cases hr : p.receiver <;> simp [framing, hr, Receiver.framing]

instance : QuietLink Endpoint where
  framing := framing
  now := clock
  pause d p := { p with clock := p.clock + d }
  send := send
  receive := receive
  reconnect := reconnect none
  disconnect := disconnect
  backlog p := (0, p.weight)
  receive_less limit p h := Prod.Lex.right _ (p.weight_receive limit h)
  framing_send := framing_send
  framing_receive := framing_receive
  send_backlog adu limit p := by simp [weight_send]

end Endpoint

end Modbus
