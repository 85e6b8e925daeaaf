import Modbus.Image.Basic
import Modbus.Pdu.Response
import Modbus.UnitId

/-!
# Serving requests from a process image

`Image.handle` carries a request out on an image. A request that is refused half-way keeps what it has done so far,
and an answer too long for a PDU is refused after the request has been carried out.
-/

namespace Modbus

abbrev Served := Except ExceptionCode Response

namespace Image

def maxReadBits : Nat := 2000

def maxReadRegisters : Nat := 125

def maxWriteCoils : Nat := 1968

def maxWriteRegisters : Nat := 123

/-- Most registers that a combined read and write may write. -/
def maxExchangeWrite : Nat := 121

def Admits (most qty : Nat) : Prop := 0 < qty ∧ qty ≤ most

instance (most qty : Nat) : Decidable (Admits most qty) := by unfold Admits; infer_instance

def readRange {α : Type} (b : Bank α) (most : Nat) (addr : Address) (qty : Quantity)
    (answer : List α → Response) : Served :=
  if Admits most qty.toNat then
    match b.getRange addr qty with
    | .ok values => .ok (answer values)
    | .error e => .error e.exception
  else .error .illegalDataValue

def written (refused : Option ImageError) (answer : Response) : Served :=
  match refused with
  | none => .ok answer
  | some e => .error e.exception

def writeRecords (fs : Files) : List FileRecord → Option ImageError × Files
  | [] => (none, fs)
  | r :: rs =>
    match fs.write r.file r.record r.data with
    | .ok fs => writeRecords fs rs
    | .error e => (some e, fs)

/-- Carries out a request, whatever the length of its answer. -/
def carryOut (img : Image) : Request → Served × Image
  | .readCoils addr qty => (readRange img.coils maxReadBits addr qty .readCoils, img)
  | .readDiscreteInputs addr qty =>
    (readRange img.discreteInputs maxReadBits addr qty .readDiscreteInputs, img)
  | .readHoldingRegisters addr qty =>
    (readRange img.holdingRegisters maxReadRegisters addr qty .readHoldingRegisters, img)
  | .readInputRegisters addr qty =>
    (readRange img.inputRegisters maxReadRegisters addr qty .readInputRegisters, img)
  | .writeSingleCoil addr value =>
    match img.coils.write addr value with
    | .ok coils => (.ok (.writeSingleCoil addr value), { img with coils })
    | .error e => (.error e.exception, img)
  | .writeSingleRegister addr value =>
    match img.holdingRegisters.write addr value with
    | .ok holdingRegisters => (.ok (.writeSingleRegister addr value), { img with holdingRegisters })
    | .error e => (.error e.exception, img)
  | .writeMultipleCoils addr values =>
    if Admits maxWriteCoils values.length then
      let (refused, coils) := img.coils.writeRange addr values
      (written refused (.writeMultipleCoils addr (UInt16.ofNat values.length)), { img with coils })
    else (.error .illegalDataValue, img)
  | .writeMultipleRegisters addr values =>
    if Admits maxWriteRegisters values.length then
      let (refused, holdingRegisters) := img.holdingRegisters.writeRange addr values
      (written refused (.writeMultipleRegisters addr (UInt16.ofNat values.length)),
        { img with holdingRegisters })
    else (.error .illegalDataValue, img)
  | .maskWriteRegister addr andMask orMask =>
    match img.holdingRegisters.get addr with
    | .error e => (.error e.exception, img)
    | .ok current =>
      match img.holdingRegisters.write addr ((current &&& andMask) ||| (orMask &&& ~~~andMask)) with
      | .ok holdingRegisters => (.ok (.maskWriteRegister addr andMask orMask), { img with holdingRegisters })
      | .error e => (.error e.exception, img)
  | .readWriteMultipleRegisters addr qty writeAddr values =>
    if Admits maxReadRegisters qty.toNat ∧ Admits maxExchangeWrite values.length then
      match img.holdingRegisters.writeRange writeAddr values with
      | (some e, holdingRegisters) => (.error e.exception, { img with holdingRegisters })
      | (none, holdingRegisters) =>
        (readRange holdingRegisters maxReadRegisters addr qty .readWriteMultipleRegisters,
          { img with holdingRegisters })
    else (.error .illegalDataValue, img)
  | .readFileRecord spans =>
    match spans.mapM fun s => img.files.read s.file s.record s.length with
    | .ok blocks => (.ok (.readFileRecord blocks), img)
    | .error e => (.error e.exception, img)
  | .writeFileRecord records =>
    let (refused, files) := writeRecords img.files records
    (written refused (.writeFileRecord records), { img with files })
  | .readFifoQueue addr =>
    match img.fifos.read addr with
    | .ok values => (.ok (.readFifoQueue values), img)
    | .error e => (.error e.exception, img)
  | .custom .. => (.error .illegalFunction, img)

/-- Carries out a request; an answer that fits no PDU is replaced by an exception. -/
def handle (img : Image) (r : Request) : Served × Image :=
  match img.carryOut r with
  | (.ok answer, img) => (if answer.Fits then .ok answer else .error .illegalDataValue, img)
  | (.error e, img) => (.error e, img)

end Image

/-- A process image that answers requests, for all units or for one. Without an image no function is known. -/
structure ImageService where
  image : Option Image
  unit : Option UnitId := none

namespace ImageService

def accepts (s : ImageService) (unit : UnitId) : Bool :=
  match s.unit with
  | some own => own = unit ∨ unit.isBroadcast
  | none => true

def handle (s : ImageService) (r : Request) : Served × ImageService :=
  match s.image with
  | none => (.error .illegalFunction, s)
  | some img => ((img.handle r).1, { s with image := some (img.handle r).2 })

/-- Nothing is answered to a request for another unit. -/
def call (s : ImageService) (unit : UnitId) (r : Request) :
    Except ExceptionCode (Option Response) × ImageService :=
  if s.accepts unit then ((s.handle r).1.map some, (s.handle r).2) else (.ok none, s)

end ImageService

end Modbus
