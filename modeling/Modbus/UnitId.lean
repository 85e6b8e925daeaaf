import Modbus.Text.Numeral

/-!
# Unit identifiers

One byte addresses a device: 0 is everybody, 1 to 247 a single device, the rest is reserved; 255 stands for
the device at the other end of a direct connection. The three kinds are exclusive and exhaustive.
-/

namespace Modbus

abbrev UnitId := UInt8

namespace UnitId

def broadcast : UnitId := 0

def firstDevice : UnitId := 1

def lastDevice : UnitId := 247

/-- A device that is connected directly and not reached through a gateway. -/
def direct : UnitId := 255

def isBroadcast (u : UnitId) : Bool := u = broadcast

def isSingleDevice (u : UnitId) : Bool := firstDevice ≤ u ∧ u ≤ lastDevice

def isReserved (u : UnitId) : Bool := lastDevice < u

def text (u : UnitId) : String := toString u.toNat ++ " (0x" ++ Numeral.hexByte u ++ ")"

/-- A text is read as decimal first. What fails is read again as hexadecimal if it begins with `0x`. -/
def parse (s : List Char) : Except Numeral.Error UnitId :=
  match Numeral.byte 10 s with
  | .ok u => .ok u
  | .error e =>
    match s with
    | '0' :: 'x' :: rest => Numeral.byte 16 rest
    | _ => .error e

end UnitId

end Modbus
