import Modbus.Frame.Rtu
import Modbus.Line.Timing

/-!
# Assembling frames from a serial line

Characters arrive one by one with a time stamp; silence ends a frame, too long a gap or too many characters
spoil it. The assembler is polled with the time and never looks at a clock. `deadline_poll` says that polling at
the deadline leaves no deadline behind.
-/

namespace Modbus

inductive LineState
  | idle
  | receiving
  /-- A frame is complete and has not been taken. -/
  | complete
  /-- The frame is spoiled; waiting for silence. -/
  | spoiled
  deriving DecidableEq

namespace LineState

def name : LineState → String
  | idle => "Idle"
  | receiving => "Receiving"
  | complete => "FrameComplete"
  | spoiled => "FrameError"

/-- Silence will change the state. -/
def isOpen : LineState → Bool
  | receiving | spoiled => true
  | idle | complete => false

end LineState

structure Assembler where
  timing : Timing
  state : LineState := .idle
  buffer : Bytes := []
  lastActivity : Option Nat := none
  deriving DecidableEq

namespace Assembler

/-- The line has been silent for at least `d`; time that runs backwards counts as no silence. -/
def silentFor (a : Assembler) (d : Nat) (now : Nat) : Bool :=
  match a.lastActivity with
  | none => true
  | some last => d ≤ now - last

/-- The gap since the last character is longer than a frame admits. -/
def longGap (a : Assembler) (now : Nat) : Bool := a.silentFor (a.timing.longestGap + 1) now

def push (a : Assembler) (b : UInt8) (now : Nat) : Assembler :=
  let a' := { a with lastActivity := some now }
  match a.state with
  | .idle | .complete => { a' with state := .receiving, buffer := [b] }
  | .receiving =>
    if a.longGap now ∨ Rtu.maxSize ≤ a.buffer.length then { a' with state := .spoiled, buffer := [] }
    else { a' with buffer := a.buffer ++ [b] }
  | .spoiled => a'

def pushAll (a : Assembler) (bs : Bytes) (now : Nat) : Assembler := bs.foldl (push · · now) a

def poll (a : Assembler) (now : Nat) : Assembler :=
  match a.state with
  | .receiving => if a.silentFor a.timing.silence now then { a with state := .complete } else a
  | .spoiled => if a.silentFor a.timing.silence now then { a with state := .idle } else a
  | .idle | .complete => a

/-- The next instant at which polling changes the state. -/
def deadline (a : Assembler) : Option Nat :=
  if a.state.isOpen then a.lastActivity.map (· + a.timing.silence) else none

def take (a : Assembler) : Option Bytes × Assembler :=
  if a.state = .complete then (some a.buffer, { a with state := .idle, buffer := [] }) else (none, a)

theorem deadline_poll {a : Assembler} {d now : Nat} (h : a.deadline = some d) (le : d ≤ now) :
    (a.poll now).deadline = none := by
  have key : a.silentFor a.timing.silence now = true := by
    unfold deadline at h
    split at h
    · cases hl : a.lastActivity with
      | none => simp [hl] at h
      | some last =>
        simp only [hl, Option.map_some, Option.some.injEq] at h
        simp only [silentFor, hl, decide_eq_true_eq]
        omega
    · cases h
  cases hs : a.state <;> simp [poll, hs, key, deadline, LineState.isOpen]

end Assembler

end Modbus
