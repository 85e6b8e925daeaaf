import Modbus.Pdu.Coils
import Modbus.Pdu.Reader
import Modbus.Request
import Modbus.Total

/-!
# Requests on the wire

`Request.encode` writes a request, `Request.decode` reads one. Lengths are written in the width of their field,
so only a request whose `size` fits a PDU is meant to be sent: `Request.toPdu?` refuses all others.
-/

namespace Modbus

namespace FileRecord

def encode (r : FileRecord) : Bytes :=
  Pdu.fileReference :: (Bytes.ofWord r.file ++ Bytes.ofWord r.record ++
    Bytes.ofWord (UInt16.ofNat r.data.length) ++ Bytes.ofWords r.data)

def sizeAll (rs : List FileRecord) : Nat :=
  total (fun r => Pdu.fileReferenceSize + 2 * r.data.length) rs

def encodeAll (rs : List FileRecord) : Bytes :=
  UInt8.ofNat (sizeAll rs) :: rs.flatMap encode

def reader : Pdu.Reader FileRecord := do
  Pdu.Reader.reference
  let file ← Pdu.Reader.word
  let record ← Pdu.Reader.word
  let length ← Pdu.Reader.word
  let data ← Pdu.Reader.words length.toNat
  return ⟨file, record, data⟩

/-- At least one block, and together they take exactly the announced number of bytes. -/
def readerAll : Pdu.Reader (List FileRecord) := do
  let rs ← Pdu.Reader.counted reader
  if rs = [] then Pdu.Reader.fail .invalidFileByteCount
  return rs

end FileRecord

namespace FileSpan

def encode (r : FileSpan) : Bytes :=
  Pdu.fileReference :: (Bytes.ofWord r.file ++ Bytes.ofWord r.record ++ Bytes.ofWord r.length)

def reader : Pdu.Reader FileSpan := do
  Pdu.Reader.reference
  return ⟨← Pdu.Reader.word, ← Pdu.Reader.word, ← Pdu.Reader.word⟩

def readerMany : Nat → Pdu.Reader (List FileSpan)
  | 0 => return []
  | n + 1 => return (← reader) :: (← readerMany n)

def readerAll : Pdu.Reader (List FileSpan) := do
  let count := (← Pdu.Reader.byte).toNat
  if count = 0 ∨ count % Pdu.fileReferenceSize ≠ 0 then Pdu.Reader.fail .invalidFileByteCount
  Pdu.Reader.need count
  readerMany (count / Pdu.fileReferenceSize)

end FileSpan

namespace Request

def payload : Request → Bytes
  | readCoils addr qty | readDiscreteInputs addr qty
  | readHoldingRegisters addr qty | readInputRegisters addr qty =>
    Bytes.ofWord addr ++ Bytes.ofWord qty
  | writeSingleCoil addr value => Bytes.ofWord addr ++ Bytes.ofWord (if value then 0xFF00 else 0)
  | writeSingleRegister addr value => Bytes.ofWord addr ++ Bytes.ofWord value
  | writeMultipleCoils addr coils =>
    Bytes.ofWord addr ++ Bytes.ofWord (UInt16.ofNat coils.length) ++
      UInt8.ofNat (Coils.size coils.length) :: Coils.pack coils
  | writeMultipleRegisters addr words =>
    Bytes.ofWord addr ++ Bytes.ofWord (UInt16.ofNat words.length) ++
      UInt8.ofNat (2 * words.length) :: Bytes.ofWords words
  | readFileRecord spans =>
    UInt8.ofNat (Pdu.fileReferenceSize * spans.length) :: spans.flatMap FileSpan.encode
  | writeFileRecord records => FileRecord.encodeAll records
  | maskWriteRegister addr a o => Bytes.ofWord addr ++ Bytes.ofWord a ++ Bytes.ofWord o
  | readWriteMultipleRegisters addr qty writeAddr words =>
    Bytes.ofWord addr ++ Bytes.ofWord qty ++ Bytes.ofWord writeAddr ++
      Bytes.ofWord (UInt16.ofNat words.length) ++ UInt8.ofNat (2 * words.length) :: Bytes.ofWords words
  | readFifoQueue addr => Bytes.ofWord addr
  | custom _ data => data

def encode (r : Request) : Bytes := r.function.toByte :: r.payload

def size : Request → Nat
  | readCoils .. | readDiscreteInputs .. | readHoldingRegisters .. | readInputRegisters ..
  | writeSingleCoil .. | writeSingleRegister .. => 5
  | writeMultipleCoils _ coils => 6 + Coils.size coils.length
  | writeMultipleRegisters _ words => 6 + 2 * words.length
  | readFileRecord spans => 2 + Pdu.fileReferenceSize * spans.length
  | writeFileRecord records => 2 + FileRecord.sizeAll records
  | maskWriteRegister .. => 7
  | readWriteMultipleRegisters _ _ _ words => 10 + 2 * words.length
  | readFifoQueue _ => 3
  | custom _ data => 1 + data.length

def toPdu? (r : Request) : Option Bytes := if r.size ≤ Pdu.maxSize then some r.encode else none

def reader : FunctionCode → Pdu.Reader Request
  | .readCoils => return readCoils (← Pdu.Reader.word) (← Pdu.Reader.word)
  | .readDiscreteInputs => return readDiscreteInputs (← Pdu.Reader.word) (← Pdu.Reader.word)
  | .readHoldingRegisters => return readHoldingRegisters (← Pdu.Reader.word) (← Pdu.Reader.word)
  | .readInputRegisters => return readInputRegisters (← Pdu.Reader.word) (← Pdu.Reader.word)
  | .writeSingleCoil => return writeSingleCoil (← Pdu.Reader.word) (← Pdu.Reader.coil)
  | .writeSingleRegister => return writeSingleRegister (← Pdu.Reader.word) (← Pdu.Reader.word)
  | .writeMultipleCoils => do
    let addr ← Pdu.Reader.word
    let qty ← Pdu.Reader.word
    let count ← Pdu.Reader.byte
    if count.toNat ≠ Coils.size qty.toNat then Pdu.Reader.fail .invalidQuantity
    let packed ← Pdu.Reader.bytes count.toNat
    return writeMultipleCoils addr ((Coils.unpack packed).take qty.toNat)
  | .writeMultipleRegisters => do
    let addr ← Pdu.Reader.word
    let qty ← Pdu.Reader.word
    let count ← Pdu.Reader.byte
    if count.toNat ≠ 2 * qty.toNat then Pdu.Reader.fail .invalidQuantity
    return writeMultipleRegisters addr (← Pdu.Reader.words qty.toNat)
  | .readFileRecord => return readFileRecord (← FileSpan.readerAll)
  | .writeFileRecord => return writeFileRecord (← FileRecord.readerAll)
  | .maskWriteRegister =>
    return maskWriteRegister (← Pdu.Reader.word) (← Pdu.Reader.word) (← Pdu.Reader.word)
  | .readWriteMultipleRegisters => do
    let addr ← Pdu.Reader.word
    let qty ← Pdu.Reader.word
    let writeAddr ← Pdu.Reader.word
    let writeQty ← Pdu.Reader.word
    let count ← Pdu.Reader.byte
    if count.toNat ≠ 2 * writeQty.toNat then Pdu.Reader.fail .invalidWriteQuantity
    return readWriteMultipleRegisters addr qty writeAddr (← Pdu.Reader.words writeQty.toNat)
  | .readFifoQueue => return readFifoQueue (← Pdu.Reader.word)
  | .custom code => do
    if 0x80 ≤ code then Pdu.Reader.fail (.invalidFunction code)
    return custom code (← Pdu.Reader.rest)

def decode (pdu : Bytes) : Except Pdu.Error Request :=
  if Pdu.maxSize < pdu.length then .error .requestTooLong
  else
    match pdu with
    | [] => .error .truncated
    | code :: payload => (reader (FunctionCode.ofByte code)).whole .trailingRequestData payload

end Request

end Modbus
