import Modbus.Bytes
import Modbus.Text.Numeral

/-!
# Reading the fields of a PDU

A reader takes a value off the front of the bytes that are left. A single field that is not there is
`truncated`; a counted run of words is refused as `tooShort` before any of it is read.
-/

namespace Modbus.Pdu

/-- The longest PDU that any envelope carries. -/
def maxSize : Nat := 253

def fileReference : UInt8 := 6

def fileReferenceSize : Nat := 7

/-- Why bytes are no PDU of the expected kind. -/
inductive Error
  | truncated
  | requestTooLong
  | responseTooLong
  | tooShort
  | invalidQuantity
  | invalidWriteQuantity
  | invalidCoil (value : Word)
  | invalidFileByteCount
  | invalidFileReference
  | invalidFileRecordLength
  | invalidFifoCount
  | invalidFunction (code : UInt8)
  | notAnException
  | trailingRequestData
  | trailingResponseData
  | trailingExceptionData
  deriving DecidableEq

def Error.message : Error → String
  | .truncated => "failed to fill whole buffer"
  | .requestTooLong => "request PDU size exceeded"
  | .responseTooLong => "response PDU size exceeded"
  | .tooShort => "too short"
  | .invalidQuantity => "invalid quantity"
  | .invalidWriteQuantity => "invalid write quantity"
  | .invalidCoil value => "invalid coil value: 0x" ++ Numeral.hexWord value
  | .invalidFileByteCount => "invalid file record byte count"
  | .invalidFileReference => "invalid file record reference type"
  | .invalidFileRecordLength => "invalid file record length"
  | .invalidFifoCount => "invalid FIFO count"
  | .invalidFunction code => "invalid function code: 0x" ++ Numeral.hexByte code
  | .notAnException => "invalid exception function code"
  | .trailingRequestData => "undecoded request data"
  | .trailingResponseData => "undecoded response data"
  | .trailingExceptionData => "undecoded exception data"

/-- Takes a value off the front of the bytes that are left. -/
abbrev Reader (α : Type) := StateT Bytes (Except Error) α

namespace Reader

def fail {α : Type} (e : Error) : Reader α := fun _ => .error e

def byte : Reader UInt8
  | [] => .error .truncated
  | b :: rest => .ok (b, rest)

def word : Reader Word
  | hi :: lo :: rest => .ok (Modbus.word hi lo, rest)
  | _ => .error .truncated

def rest : Reader Bytes := fun s => .ok (s, [])

def need (n : Nat) : Reader Unit := fun s => if s.length < n then .error .tooShort else .ok ((), s)

def bytes (n : Nat) : Reader Bytes := do
  need n
  fun s => .ok (s.take n, s.drop n)

def wordsOf : Bytes → List Word
  | hi :: lo :: rest => Modbus.word hi lo :: wordsOf rest
  | _ => []

def words (n : Nat) : Reader (List Word) := do
  return wordsOf (← bytes (2 * n))

def coil : Reader Bool := do
  let w ← word
  if w = 0xFF00 then return true
  if w = 0 then return false
  fail (.invalidCoil w)

def reference : Reader Unit := do
  if (← byte) ≠ fileReference then fail .invalidFileReference

/-- Reads values until at most `stop` bytes are left, and no more than `fuel` of them. -/
def many {α : Type} (r : Reader α) (stop : Nat) : (fuel : Nat) → Reader (List α)
  | 0, s => .ok ([], s)
  | fuel + 1, s =>
    if stop < s.length then do
      let (a, s) ← r s
      let (as, s) ← many r stop fuel s
      return (a :: as, s)
    else .ok ([], s)

/-- A byte count and values that together take exactly that number of bytes. A value may be read beyond that number
before the sum is checked. -/
def counted {α : Type} (r : Reader α) : Reader (List α) := do
  let count ← byte
  need count.toNat
  let s ← get
  let stop := s.length - count.toNat
  let as ← many r stop s.length
  if (← get).length ≠ stop then fail .invalidFileByteCount
  return as

def whole {α : Type} (r : Reader α) (trailing : Error) (s : Bytes) : Except Error α :=
  match r s with
  | .error e => .error e
  | .ok (a, []) => .ok a
  | .ok (_, _ :: _) => .error trailing

theorem word_cons (w : Word) (s : Bytes) : word (high w :: low w :: s) = .ok (w, s) := by
  simp [word]

theorem wordsOf_ofWords (ws : List Word) : wordsOf (Bytes.ofWords ws) = ws := by
  induction ws with
  | nil => rfl
  | cons w ws ih => simp [wordsOf, ih]

end Reader

end Modbus.Pdu
