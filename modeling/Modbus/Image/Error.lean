import Modbus.Bytes
import Modbus.Exception

/-!
# Refused accesses to a process image
-/

namespace Modbus

inductive ImageError
  /-- The address is not occupied, or the range leaves the address space. -/
  | illegalAddress (addr : Address)
  | readOnly (addr : Address)
  | duplicateAddress (addr : Address)
  | queueFull (addr : Address)
  deriving DecidableEq

namespace ImageError

def message : ImageError → String
  | illegalAddress a => "illegal address: " ++ toString a.toNat
  | readOnly a => "read-only address: " ++ toString a.toNat
  | duplicateAddress a => "address already occupied: " ++ toString a.toNat
  | queueFull a => "FIFO queue full: " ++ toString a.toNat

def exception : ImageError → ExceptionCode
  | illegalAddress _ | readOnly _ | duplicateAddress _ => .illegalDataAddress
  | queueFull _ => .illegalDataValue

def name : ImageError → String
  | illegalAddress _ => "IllegalAddress"
  | readOnly _ => "ReadOnly"
  | duplicateAddress _ => "DuplicateAddress"
  | queueFull _ => "QueueFull"

end ImageError

end Modbus
