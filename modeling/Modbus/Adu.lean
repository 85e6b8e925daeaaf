import Modbus.Bytes
import Modbus.Text.Literal
import Modbus.UnitId

/-!
# Application data units

An ADU is a PDU with the header that tells which exchange and which device it belongs to. Headless framings
carry no transaction id, so there only the unit id can tell whether a response belongs to a request.
-/

namespace Modbus

/-- The envelope that PDUs travel in. -/
inductive Framing
  | tcp
  | udp
  | rtu
  | ascii
  deriving DecidableEq

namespace Framing

/-- The framing carries no transaction id. -/
def isHeadless : Framing → Bool
  | rtu | ascii => true
  | tcp | udp => false

def text : Framing → String
  | tcp => "TCP"
  | udp => "UDP"
  | rtu => "RTU"
  | ascii => "ASCII"

end Framing

/-- Which exchange and which device an ADU belongs to; the transaction id is 0 in headless framings. -/
structure Header where
  transaction : UInt16
  unit : UnitId
  deriving DecidableEq

namespace Header

def Answers (framing : Framing) (request response : Header) : Prop :=
  if framing.isHeadless then request.unit = response.unit else request = response

instance (framing : Framing) (request response : Header) : Decidable (Answers framing request response) := by
  unfold Answers; infer_instance

def describe (h : Header) : String :=
  Literal.record "Header" [("transaction_id", toString h.transaction.toNat),
    ("unit_id", toString h.unit.toNat)]

def mismatch (request response : Header) : String :=
  "expected/request = " ++ request.describe ++ ", actual/response = " ++ response.describe

end Header

structure Adu where
  header : Header
  pdu : Bytes
  deriving DecidableEq

def Adu.functionByte? (adu : Adu) : Option UInt8 := adu.pdu.head?

end Modbus
