import Modbus.Function
import Modbus.Text.Literal

/-!
# Exceptions

A device that cannot serve a request answers with an exception code instead of a response.
-/

namespace Modbus

inductive ExceptionCode
  | illegalFunction
  | illegalDataAddress
  | illegalDataValue
  | serverDeviceFailure
  | acknowledge
  | serverDeviceBusy
  | negativeAcknowledge
  | memoryParityError
  | gatewayPathUnavailable
  | gatewayTargetDevice
  | custom (code : UInt8)
  deriving DecidableEq

namespace ExceptionCode

def ofByte (code : UInt8) : ExceptionCode :=
  match code with
  | 0x01 => illegalFunction
  | 0x02 => illegalDataAddress
  | 0x03 => illegalDataValue
  | 0x04 => serverDeviceFailure
  | 0x05 => acknowledge
  | 0x06 => serverDeviceBusy
  | 0x07 => negativeAcknowledge
  | 0x08 => memoryParityError
  | 0x0A => gatewayPathUnavailable
  | 0x0B => gatewayTargetDevice
  | _ => custom code

def toByte : ExceptionCode → UInt8
  | illegalFunction => 0x01
  | illegalDataAddress => 0x02
  | illegalDataValue => 0x03
  | serverDeviceFailure => 0x04
  | acknowledge => 0x05
  | serverDeviceBusy => 0x06
  | negativeAcknowledge => 0x07
  | memoryParityError => 0x08
  | gatewayPathUnavailable => 0x0A
  | gatewayTargetDevice => 0x0B
  | custom code => code

/-- The exception codes that a byte can stand for. -/
def IsCanonical (e : ExceptionCode) : Prop := ofByte e.toByte = e

instance (e : ExceptionCode) : Decidable e.IsCanonical := inferInstanceAs (Decidable (_ = _))

theorem toByte_ofByte (code : UInt8) : (ofByte code).toByte = code := by
  unfold ofByte
  split <;> rfl

theorem isCanonical_ofByte (code : UInt8) : (ofByte code).IsCanonical := by
  rw [IsCanonical, toByte_ofByte]

def description : ExceptionCode → String
  | illegalFunction => "Illegal function"
  | illegalDataAddress => "Illegal data address"
  | illegalDataValue => "Illegal data value"
  | serverDeviceFailure => "Server device failure"
  | acknowledge => "Acknowledge"
  | serverDeviceBusy => "Server device busy"
  | negativeAcknowledge => "Negative acknowledge"
  | memoryParityError => "Memory parity error"
  | gatewayPathUnavailable => "Gateway path unavailable"
  | gatewayTargetDevice => "Gateway target device failed to respond"
  | custom _ => "Custom"

def name : ExceptionCode → String
  | illegalFunction => "IllegalFunction"
  | illegalDataAddress => "IllegalDataAddress"
  | illegalDataValue => "IllegalDataValue"
  | serverDeviceFailure => "ServerDeviceFailure"
  | acknowledge => "Acknowledge"
  | serverDeviceBusy => "ServerDeviceBusy"
  | negativeAcknowledge => "NegativeAcknowledge"
  | memoryParityError => "MemoryParityError"
  | gatewayPathUnavailable => "GatewayPathUnavailable"
  | gatewayTargetDevice => "GatewayTargetDevice"
  | custom code => "Custom(" ++ toString code.toNat ++ ")"

end ExceptionCode

structure ExceptionResponse where
  function : FunctionCode
  exception : ExceptionCode
  deriving DecidableEq

namespace ExceptionResponse

def text (e : ExceptionResponse) : String :=
  "Modbus function " ++ e.function.text ++ ": " ++ e.exception.description

def describe (e : ExceptionResponse) : String :=
  Literal.record "ExceptionResponse" [("function", e.function.name), ("exception", e.exception.name)]

end ExceptionResponse

end Modbus
