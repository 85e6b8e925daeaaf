/-!
# Numbers as text

Fixed width hexadecimal, and a reader for small unsigned numbers that says why it refuses a text.
-/

namespace Modbus.Numeral

def upper (n : Nat) : Char := if n < 10 then Char.ofNat (48 + n) else Char.ofNat (55 + n)

def lower (n : Nat) : Char := if n < 10 then Char.ofNat (48 + n) else Char.ofNat (87 + n)

def hexByte (b : UInt8) : String := String.ofList [upper (b.toNat / 16), upper (b.toNat % 16)]

def hexWord (w : UInt16) : String :=
  hexByte (UInt8.ofNat (w.toNat / 256)) ++ hexByte (UInt8.ofNat (w.toNat % 256))

def hexByteLower (b : UInt8) : String := String.ofList [lower (b.toNat / 16), lower (b.toNat % 16)]

inductive Error
  | empty
  | invalidDigit
  | overflow
  deriving DecidableEq

def Error.name : Error → String
  | .empty => "Empty"
  | .invalidDigit => "InvalidDigit"
  | .overflow => "PosOverflow"

def Error.message : Error → String
  | .empty => "cannot parse integer from empty string"
  | .invalidDigit => "invalid digit found in string"
  | .overflow => "number too large to fit in target type"

def digit? (base : Nat) (c : Char) : Option Nat :=
  let n := c.toNat
  let v :=
    if 48 ≤ n ∧ n ≤ 57 then n - 48
    else if 65 ≤ n ∧ n ≤ 90 then n - 55
    else if 97 ≤ n ∧ n ≤ 122 then n - 87
    else base
  if v < base then some v else none

/-- Goes on with `acc` as the number read so far; each character has to be a digit before it can be too much. -/
def digits (base : Nat) (acc : Nat) : List Char → Except Error UInt8
  | [] => .ok (UInt8.ofNat acc)
  | c :: cs =>
    match digit? base c with
    | none => .error .invalidDigit
    | some d => if base * acc + d < 256 then digits base (base * acc + d) cs else .error .overflow

/-- A number below 256: an optional plus sign and at least one digit. -/
def byte (base : Nat) : List Char → Except Error UInt8
  | [] => .error .empty
  | ['+'] => .error .invalidDigit
  | '+' :: cs => digits base 0 cs
  | cs => digits base 0 cs

end Modbus.Numeral
