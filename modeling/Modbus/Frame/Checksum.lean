import Modbus.Bytes

/-!
# Checksums of serial frames
-/

namespace Modbus

namespace Crc

/-- One bit step of the reflected CRC register, with the polynomial 0xA001. -/
def shift (crc : UInt16) : UInt16 := if crc &&& 1 = 1 then (crc >>> 1) ^^^ 0xA001 else crc >>> 1

def step (crc : UInt16) (b : UInt8) : UInt16 :=
  Nat.repeat shift 8 (crc ^^^ b.toUInt16)

def ofBytes (bs : Bytes) : UInt16 := bs.foldl step 0xFFFF

end Crc

/-- The byte that completes the sum of all bytes to zero. -/
def lrc (bs : Bytes) : UInt8 := -bs.foldr (· + ·) 0

end Modbus
