/-!
# Function codes

The functions that have a shape of their own each have a constructor; every other code is `custom`.
`ofByte_toByte` holds exactly of the codes in canonical form: a `custom` code that belongs to one of the named
functions is a different function code with the same byte.
-/

namespace Modbus

inductive FunctionCode
  | readCoils
  | readDiscreteInputs
  | readHoldingRegisters
  | readInputRegisters
  | writeSingleCoil
  | writeSingleRegister
  | writeMultipleCoils
  | writeMultipleRegisters
  | readFileRecord
  | writeFileRecord
  | maskWriteRegister
  | readWriteMultipleRegisters
  | readFifoQueue
  | custom (code : UInt8)
  deriving DecidableEq

namespace FunctionCode

def ofByte (code : UInt8) : FunctionCode :=
  match code with
  | 0x01 => readCoils
  | 0x02 => readDiscreteInputs
  | 0x03 => readHoldingRegisters
  | 0x04 => readInputRegisters
  | 0x05 => writeSingleCoil
  | 0x06 => writeSingleRegister
  | 0x0F => writeMultipleCoils
  | 0x10 => writeMultipleRegisters
  | 0x14 => readFileRecord
  | 0x15 => writeFileRecord
  | 0x16 => maskWriteRegister
  | 0x17 => readWriteMultipleRegisters
  | 0x18 => readFifoQueue
  | _ => custom code

def toByte : FunctionCode → UInt8
  | readCoils => 0x01
  | readDiscreteInputs => 0x02
  | readHoldingRegisters => 0x03
  | readInputRegisters => 0x04
  | writeSingleCoil => 0x05
  | writeSingleRegister => 0x06
  | writeMultipleCoils => 0x0F
  | writeMultipleRegisters => 0x10
  | readFileRecord => 0x14
  | writeFileRecord => 0x15
  | maskWriteRegister => 0x16
  | readWriteMultipleRegisters => 0x17
  | readFifoQueue => 0x18
  | custom code => code

/-- The function codes that a byte can stand for. -/
def IsCanonical (f : FunctionCode) : Prop := ofByte f.toByte = f

instance (f : FunctionCode) : Decidable f.IsCanonical := inferInstanceAs (Decidable (_ = _))

/-- The byte is the code of one of the functions with a shape of its own. -/
def isNative (code : UInt8) : Bool := ofByte code != custom code

theorem toByte_ofByte (code : UInt8) : (ofByte code).toByte = code := by
  unfold ofByte
  split <;> rfl

theorem isCanonical_ofByte (code : UInt8) : (ofByte code).IsCanonical := by
  rw [IsCanonical, toByte_ofByte]

theorem isCanonical_custom_iff (code : UInt8) : (custom code).IsCanonical ↔ isNative code = false := by
  simp [IsCanonical, isNative, toByte]

def name : FunctionCode → String
  | readCoils => "ReadCoils"
  | readDiscreteInputs => "ReadDiscreteInputs"
  | readHoldingRegisters => "ReadHoldingRegisters"
  | readInputRegisters => "ReadInputRegisters"
  | writeSingleCoil => "WriteSingleCoil"
  | writeSingleRegister => "WriteSingleRegister"
  | writeMultipleCoils => "WriteMultipleCoils"
  | writeMultipleRegisters => "WriteMultipleRegisters"
  | readFileRecord => "ReadFileRecord"
  | writeFileRecord => "WriteFileRecord"
  | maskWriteRegister => "MaskWriteRegister"
  | readWriteMultipleRegisters => "ReadWriteMultipleRegisters"
  | readFifoQueue => "ReadFifoQueue"
  | custom code => "Custom(" ++ toString code.toNat ++ ")"

def text (f : FunctionCode) : String := toString f.toByte.toNat

end FunctionCode

end Modbus
