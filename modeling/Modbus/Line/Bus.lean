import Modbus.Line.Timing

/-!
# Keeping the bus quiet between messages
-/

namespace Modbus

/-- Since when the bus has been, or will be, quiet, and for how long it has to be before a message. -/
structure Bus where
  pause : Nat
  quietSince : Option Nat := none
  deriving DecidableEq

namespace Bus

def ready (b : Bus) (now : Nat) : Nat :=
  match b.quietSince with
  | none => now
  | some t => max now (t + b.pause)

def mark (b : Bus) (t : Nat) : Bus := { b with quietSince := some t }

end Bus

end Modbus
