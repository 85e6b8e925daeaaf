import Modbus.Exception
import Modbus.FileRecord

/-!
# Responses

A device replies with a response or with an exception. `describe` shows a reply inside an error text.
-/

namespace Modbus

inductive Response
  | readCoils (coils : List Bool)
  | readDiscreteInputs (coils : List Bool)
  | readHoldingRegisters (words : List Word)
  | readInputRegisters (words : List Word)
  | writeSingleCoil (addr : Address) (value : Bool)
  | writeSingleRegister (addr : Address) (value : Word)
  | writeMultipleCoils (addr : Address) (qty : Quantity)
  | writeMultipleRegisters (addr : Address) (qty : Quantity)
  /-- One block of values for each span asked for. -/
  | readFileRecord (blocks : List (List Word))
  | writeFileRecord (records : List FileRecord)
  | maskWriteRegister (addr : Address) (andMask orMask : Word)
  | readWriteMultipleRegisters (words : List Word)
  /-- Queued values, oldest first. -/
  | readFifoQueue (words : List Word)
  | custom (code : UInt8) (data : Bytes)
  deriving DecidableEq

/-- A response, or the exception sent in its place. -/
abbrev Reply := Except ExceptionResponse Response

namespace Response

def function : Response → FunctionCode
  | readCoils .. => .readCoils
  | readDiscreteInputs .. => .readDiscreteInputs
  | readHoldingRegisters .. => .readHoldingRegisters
  | readInputRegisters .. => .readInputRegisters
  | writeSingleCoil .. => .writeSingleCoil
  | writeSingleRegister .. => .writeSingleRegister
  | writeMultipleCoils .. => .writeMultipleCoils
  | writeMultipleRegisters .. => .writeMultipleRegisters
  | readFileRecord .. => .readFileRecord
  | writeFileRecord .. => .writeFileRecord
  | maskWriteRegister .. => .maskWriteRegister
  | readWriteMultipleRegisters .. => .readWriteMultipleRegisters
  | readFifoQueue .. => .readFifoQueue
  | custom code _ => .custom code

def describeWord (w : Word) : String := toString w.toNat

def describeWords (ws : List Word) : String := Literal.list describeWord ws

def describeRecord (r : FileRecord) : String :=
  Literal.record "FileRecord" [("file_number", describeWord r.file),
    ("record_number", describeWord r.record), ("data", describeWords r.data)]

def arguments : Response → List String
  | readCoils coils | readDiscreteInputs coils => [Literal.list Literal.bool coils]
  | readHoldingRegisters ws | readInputRegisters ws | readWriteMultipleRegisters ws
  | readFifoQueue ws => [describeWords ws]
  | writeSingleCoil addr value => [describeWord addr, Literal.bool value]
  | writeSingleRegister addr value => [describeWord addr, describeWord value]
  | writeMultipleCoils addr qty | writeMultipleRegisters addr qty => [describeWord addr, describeWord qty]
  | readFileRecord blocks => [Literal.list describeWords blocks]
  | writeFileRecord records => [Literal.list describeRecord records]
  | maskWriteRegister addr a o => [describeWord addr, describeWord a, describeWord o]
  | custom code data => [toString code.toNat, Literal.bytes data]

def label : Response → String
  | custom .. => "Custom"
  | r => r.function.name

def describe (r : Response) : String :=
  r.label ++ "(" ++ String.intercalate ", " r.arguments ++ ")"

end Response

namespace Reply

def function : Reply → FunctionCode
  | .ok r => r.function
  | .error e => e.function

def describe : Reply → String
  | .ok r => "Ok(" ++ r.describe ++ ")"
  | .error e => "Err(" ++ e.describe ++ ")"

end Reply

end Modbus
