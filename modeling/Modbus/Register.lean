import Modbus.Bytes
import Modbus.Text.Numeral

/-!
# Registers as numbers

A register holds sixteen bits that are read as an unsigned or as a two's complement number. An integer that
neither reading can give is refused.
-/

namespace Modbus

/-- The value of a register together with its readings as a number. -/
structure Register where
  word : Word
  deriving DecidableEq

namespace Register

structure OutOfRange where
  value : Int
  deriving DecidableEq

def OutOfRange.message (e : OutOfRange) : String :=
  "register value out of range: " ++ toString e.value

def toBytes (r : Register) : Bytes := Bytes.ofWord r.word

def ofBytes (hi lo : UInt8) : Register := ⟨Modbus.word hi lo⟩

def toSigned (r : Register) : Int :=
  if r.word.toNat < 32768 then r.word.toNat else (r.word.toNat : Int) - 65536

def ofInt (n : Int) : Except OutOfRange Register :=
  if -32768 ≤ n ∧ n ≤ 65535 then .ok ⟨UInt16.ofInt n⟩ else .error ⟨n⟩

def ofNat (n : Nat) : Except OutOfRange Register :=
  if n ≤ 65535 then .ok ⟨UInt16.ofNat n⟩ else .error ⟨n⟩

def text (r : Register) : String := "0x" ++ Numeral.hexWord r.word

end Register

end Modbus
