import Modbus.Pdu.Request
import Modbus.Response

/-!
# Responses and exceptions on the wire

A reply is a response, or an exception with bit 0x80 set in its function code. Coils arrive in whole bytes:
a decoded list of coils has a multiple of eight.
-/

namespace Modbus

def maxFifoCount : Nat := 31

namespace Response

/-- One block of a file read: its length in bytes, the reference type and the words. -/
def encodeBlock (ws : List Word) : Bytes :=
  UInt8.ofNat (1 + 2 * ws.length) :: Pdu.fileReference :: Bytes.ofWords ws

def sizeBlocks (blocks : List (List Word)) : Nat := total (fun ws => 2 + 2 * ws.length) blocks

def payload : Response → Bytes
  | readCoils coils | readDiscreteInputs coils =>
    UInt8.ofNat (Coils.size coils.length) :: Coils.pack coils
  | readHoldingRegisters ws | readInputRegisters ws | readWriteMultipleRegisters ws =>
    UInt8.ofNat (2 * ws.length) :: Bytes.ofWords ws
  | writeSingleCoil addr value => Bytes.ofWord addr ++ Bytes.ofWord (if value then 0xFF00 else 0)
  | writeSingleRegister addr value => Bytes.ofWord addr ++ Bytes.ofWord value
  | writeMultipleCoils addr qty | writeMultipleRegisters addr qty => Bytes.ofWord addr ++ Bytes.ofWord qty
  | readFileRecord blocks => UInt8.ofNat (sizeBlocks blocks) :: blocks.flatMap encodeBlock
  | writeFileRecord records => FileRecord.encodeAll records
  | maskWriteRegister addr a o => Bytes.ofWord addr ++ Bytes.ofWord a ++ Bytes.ofWord o
  | readFifoQueue ws =>
    Bytes.ofWord (UInt16.ofNat (2 + 2 * ws.length)) ++ Bytes.ofWord (UInt16.ofNat ws.length) ++
      Bytes.ofWords ws
  | custom _ data => data

def encode (r : Response) : Bytes := r.function.toByte :: r.payload

def size : Response → Nat
  | readCoils coils | readDiscreteInputs coils => 2 + Coils.size coils.length
  | readHoldingRegisters ws | readInputRegisters ws | readWriteMultipleRegisters ws => 2 + 2 * ws.length
  | writeSingleCoil .. | writeSingleRegister .. | writeMultipleCoils .. | writeMultipleRegisters .. => 5
  | readFileRecord blocks => 2 + sizeBlocks blocks
  | writeFileRecord records => 2 + FileRecord.sizeAll records
  | maskWriteRegister .. => 7
  | readFifoQueue ws => 5 + 2 * ws.length
  | custom _ data => 1 + data.length

def Fits (r : Response) : Prop := r.size ≤ Pdu.maxSize

instance (r : Response) : Decidable r.Fits := inferInstanceAs (Decidable (_ ≤ _))

def blockReader : Pdu.Reader (List Word) := do
  let length ← Pdu.Reader.byte
  if length.toNat % 2 = 0 then Pdu.Reader.fail .invalidFileRecordLength
  Pdu.Reader.reference
  Pdu.Reader.words ((length.toNat - 1) / 2)

def blocksReader : Pdu.Reader (List (List Word)) := Pdu.Reader.counted blockReader

def coilsReader : Pdu.Reader (List Bool) := do
  let count ← Pdu.Reader.byte
  return Coils.unpack (← Pdu.Reader.bytes count.toNat)

def registersReader : Pdu.Reader (List Word) := do
  let count ← Pdu.Reader.byte
  if count.toNat % 2 ≠ 0 then Pdu.Reader.fail .invalidQuantity
  Pdu.Reader.words (count.toNat / 2)

/-- A byte count, a count of values that has to agree with it, and the values. -/
def fifoReader : Pdu.Reader (List Word) := do
  let byteCount ← Pdu.Reader.word
  let count ← Pdu.Reader.word
  if byteCount.toNat ≠ 2 + 2 * count.toNat ∨ maxFifoCount < count.toNat then
    Pdu.Reader.fail .invalidFifoCount
  Pdu.Reader.words count.toNat

def reader : FunctionCode → Pdu.Reader Response
  | .readCoils => return readCoils (← coilsReader)
  | .readDiscreteInputs => return readDiscreteInputs (← coilsReader)
  | .readHoldingRegisters => return readHoldingRegisters (← registersReader)
  | .readInputRegisters => return readInputRegisters (← registersReader)
  | .writeSingleCoil => return writeSingleCoil (← Pdu.Reader.word) (← Pdu.Reader.coil)
  | .writeSingleRegister => return writeSingleRegister (← Pdu.Reader.word) (← Pdu.Reader.word)
  | .writeMultipleCoils => return writeMultipleCoils (← Pdu.Reader.word) (← Pdu.Reader.word)
  | .writeMultipleRegisters => return writeMultipleRegisters (← Pdu.Reader.word) (← Pdu.Reader.word)
  | .readFileRecord => return readFileRecord (← blocksReader)
  | .writeFileRecord => return writeFileRecord (← FileRecord.readerAll)
  | .maskWriteRegister =>
    return maskWriteRegister (← Pdu.Reader.word) (← Pdu.Reader.word) (← Pdu.Reader.word)
  | .readWriteMultipleRegisters => return readWriteMultipleRegisters (← registersReader)
  | .readFifoQueue => return readFifoQueue (← fifoReader)
  | .custom code => return custom code (← Pdu.Reader.rest)

/-- The response that a PDU stands for; a code that is not known is taken as it is. -/
def decode (pdu : Bytes) : Except Pdu.Error Response :=
  if Pdu.maxSize < pdu.length then .error .responseTooLong
  else
    match pdu with
    | [] => .error .truncated
    | code :: payload => (reader (FunctionCode.ofByte code)).whole .trailingResponseData payload

end Response

namespace ExceptionResponse

def encode (e : ExceptionResponse) : Bytes := [e.function.toByte + 0x80, e.exception.toByte]

def decode : Bytes → Except Pdu.Error ExceptionResponse
  | [] => .error .truncated
  | code :: payload =>
    if code < 0x80 then .error .notAnException
    else
      match payload with
      | [] => .error .truncated
      | [e] => .ok ⟨FunctionCode.ofByte (code - 0x80), ExceptionCode.ofByte e⟩
      | _ :: _ :: _ => .error .trailingExceptionData

end ExceptionResponse

namespace Reply

def encode : Reply → Bytes
  | .ok r => r.encode
  | .error e => e.encode

def size : Reply → Nat
  | .ok r => r.size
  | .error _ => 2

def toPdu? (r : Reply) : Option Bytes := if size r ≤ Pdu.maxSize then some (encode r) else none

def decode : Bytes → Except Pdu.Error Reply
  | [] => .error .truncated
  | code :: payload =>
    if code < 0x80 then (Response.decode (code :: payload)).map .ok
    else (ExceptionResponse.decode (code :: payload)).map .error

end Reply

end Modbus
