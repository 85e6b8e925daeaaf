import Modbus.FileRecord
import Modbus.Function

/-!
# Requests
-/

namespace Modbus

inductive Request
  | readCoils (addr : Address) (qty : Quantity)
  | readDiscreteInputs (addr : Address) (qty : Quantity)
  | readHoldingRegisters (addr : Address) (qty : Quantity)
  | readInputRegisters (addr : Address) (qty : Quantity)
  | writeSingleCoil (addr : Address) (value : Bool)
  | writeSingleRegister (addr : Address) (value : Word)
  | writeMultipleCoils (addr : Address) (coils : List Bool)
  | writeMultipleRegisters (addr : Address) (words : List Word)
  | readFileRecord (spans : List FileSpan)
  | writeFileRecord (records : List FileRecord)
  /-- The device stores `(current &&& andMask) ||| (orMask &&& ~~~andMask)`. -/
  | maskWriteRegister (addr : Address) (andMask orMask : Word)
  /-- The write comes before the read. -/
  | readWriteMultipleRegisters (addr : Address) (qty : Quantity) (writeAddr : Address) (words : List Word)
  | readFifoQueue (addr : Address)
  | custom (code : UInt8) (data : Bytes)
  deriving DecidableEq

def Request.function : Request → FunctionCode
  | readCoils .. => .readCoils
  | readDiscreteInputs .. => .readDiscreteInputs
  | readHoldingRegisters .. => .readHoldingRegisters
  | readInputRegisters .. => .readInputRegisters
  | writeSingleCoil .. => .writeSingleCoil
  | writeSingleRegister .. => .writeSingleRegister
  | writeMultipleCoils .. => .writeMultipleCoils
  | writeMultipleRegisters .. => .writeMultipleRegisters
  | readFileRecord .. => .readFileRecord
  | writeFileRecord .. => .writeFileRecord
  | maskWriteRegister .. => .maskWriteRegister
  | readWriteMultipleRegisters .. => .readWriteMultipleRegisters
  | readFifoQueue .. => .readFifoQueue
  | custom code _ => .custom code

end Modbus
