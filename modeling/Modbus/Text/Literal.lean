import Modbus.Text.Numeral

/-!
# Literals in diagnostic texts

How lists, byte strings and quoted strings are shown inside a longer text.
-/

namespace Modbus.Literal

def list {α : Type} (item : α → String) (xs : List α) : String :=
  "[" ++ String.intercalate ", " (xs.map item) ++ "]"

def bool (b : Bool) : String := if b then "true" else "false"

/-- Printable characters stand for themselves, a few have a short escape, all others are written in hexadecimal. -/
def byteChar (b : UInt8) : String :=
  if b = 0 then "\\0"
  else if b = 9 then "\\t"
  else if b = 10 then "\\n"
  else if b = 13 then "\\r"
  else if b = 34 then "\\\""
  else if b = 92 then "\\\\"
  else if 32 ≤ b.toNat ∧ b.toNat < 127 then String.singleton (Char.ofNat b.toNat)
  else "\\x" ++ Numeral.hexByteLower b

def bytes (bs : List UInt8) : String := "b\"" ++ String.join (bs.map byteChar) ++ "\""

/-- Quotes and backslashes are escaped; the texts quoted here hold no control characters. -/
def quotedChar (c : Char) : String :=
  if c = '"' then "\\\"" else if c = '\\' then "\\\\" else String.singleton c

def quoted (s : String) : String := "\"" ++ String.join (s.toList.map quotedChar) ++ "\""

def record (name : String) (fields : List (String × String)) : String :=
  name ++ " \x7b " ++ String.intercalate ", " (fields.map fun f => f.1 ++ ": " ++ f.2) ++ " \x7d"

/-- As `record`, of a type with fields that are not shown. -/
def openRecord (name : String) (fields : List (String × String)) : String :=
  name ++ " \x7b " ++ String.join (fields.map fun f => f.1 ++ ": " ++ f.2 ++ ", ") ++ ".. \x7d"

end Modbus.Literal
