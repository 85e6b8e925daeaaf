import Modbus.Bytes

/-!
# Packed coils

Eight coils share a byte, the first in its lowest bit. Unused bits of the last byte are zero when written,
and `length_pack` gives the number of bytes.
-/

namespace Modbus.Coils

def size (n : Nat) : Nat := (n + 7) / 8

/-- The number whose lowest bit is the first coil. -/
def value : List Bool → Nat
  | [] => 0
  | c :: cs => c.toNat + 2 * value cs

/-- Byte number `i` holds the coils from `8 * i` on. -/
def pack (cs : List Bool) : Bytes :=
  (List.range (size cs.length)).map fun i => UInt8.ofNat (value ((cs.drop (8 * i)).take 8))

def bits (b : UInt8) : List Bool := (List.range 8).map b.toNat.testBit

def unpack (bs : Bytes) : List Bool := bs.flatMap bits

@[simp] theorem length_bits (b : UInt8) : (bits b).length = 8 := by
  simp [bits]

@[simp] theorem length_pack (cs : List Bool) : (pack cs).length = size cs.length := by
  simp [pack]

@[simp] theorem length_unpack (bs : Bytes) : (unpack bs).length = 8 * bs.length := by
  induction bs with
  | nil => rfl
  | cons b bs ih =>
    simp only [unpack, List.flatMap_cons, List.length_append, length_bits, List.length_cons] at ih ⊢
    omega

end Modbus.Coils
