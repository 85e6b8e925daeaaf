import Modbus.Fault

/-!
# Hosts

What a host's network lets a link do: reach others, and listen at an address that nobody else listens at.
-/

namespace Modbus

def defaultService : Nat := 502

structure Host where
  /-- There is a way to other hosts. -/
  reachable : Bool := true
  bound : List Nat := []
  deriving DecidableEq

namespace Host

def reach (h : Host) : Except Fault Unit := if h.reachable then .ok () else .error .networkUnreachable

def bind (h : Host) (address : Nat) : Except Fault Host :=
  if address ∈ h.bound then .error .addressInUse else .ok { h with bound := address :: h.bound }

end Host

end Modbus
