import Modbus.Frame.Basic
import Modbus.Frame.Checksum
import Modbus.Hex

/-!
# ASCII frames

A colon, the unit id, PDU and checksum in hexadecimal, carriage return and line feed. Bytes in front of a colon
are noise, and a colon inside a frame starts it anew.
-/

namespace Modbus.Ascii

def start : UInt8 := 58

def ending : Bytes := [13, 10]

/-- Characters on the wire for a PDU of the given length. -/
def frameSize (pduLength : Nat) : Nat := 1 + 2 * (1 + pduLength + 1) + 2

def maxSize : Nat := frameSize Pdu.maxSize

def encode (adu : Adu) : Bytes :=
  let data := adu.header.unit :: adu.pdu
  start :: (Hex.encode (data ++ [lrc data]) ++ ending)

def append : Adu → Bytes → Except Fault Bytes := Adu.append encode

/-- Checks the characters between the colon and the end of a frame. -/
def decodeText (text : Bytes) : Frame :=
  if text.length % 2 ≠ 0 then .error .oddHex
  else
    match Hex.decode text with
    | none => .error .invalidHex
    | some data =>
      if data.length < 3 then .error .frameTooShort
      else
        let body := data.dropLast
        if data.getLast? ≠ some (lrc body) then .error .lrcMismatch
        else
          match body with
          | [] => .error .frameTooShort
          | unit :: pdu => .ok ⟨⟨0, unit⟩, pdu⟩

/-- Splits at the first carriage return that is followed by a line feed; both are left out. -/
def splitLine : Bytes → Option (Bytes × Bytes)
  | [] => none
  | b :: rest =>
    if b = 13 ∧ rest.head? = some 10 then some ([], rest.tail)
    else (splitLine rest).map fun found => (b :: found.1, found.2)

def afterStart (line : Bytes) : Bytes := (line.reverse.takeWhile (· ≠ start)).reverse

/-- The first frame in a buffer, if it is there, and the buffer without that frame and without noise. -/
def decode (buffer : Bytes) : Option Frame × Bytes :=
  let buffer := buffer.dropWhile (· ≠ start)
  match splitLine buffer with
  | some (line, rest) => (some (decodeText (afterStart line)), rest)
  | none => if maxSize < buffer.length then (some (.error .frameTooLong), []) else (none, buffer)

/-- How far `decode` moves the front of a buffer. The noise before a colon is passed; a buffer without a colon, and
a frame that is too long, are emptied where they lie. -/
def passed (buffer : Bytes) : Nat :=
  match decode buffer with
  | (some (.error .frameTooLong), _) => (buffer.takeWhile (· ≠ start)).length
  | (none, []) => 0
  | (_, rest) => buffer.length - rest.length

end Modbus.Ascii
