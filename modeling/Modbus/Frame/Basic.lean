import Modbus.Adu
import Modbus.Fault

/-!
# Frames

A decoder that has found a frame either delivers its ADU or discards it for a reason. Discarding uses the bytes
up, so that the link can go on with the next frame. Frames that are to go through a stream are appended to a buffer.
-/

namespace Modbus

inductive Discard
  | invalidLength
  | invalidProtocol
  | trailingBytes
  | truncatedDatagram
  | frameTooShort
  | frameTooLong
  | crcMismatch
  | oddHex
  | invalidHex
  | lrcMismatch
  deriving DecidableEq

def Discard.message : Discard → String
  | invalidLength => "invalid MBAP length"
  | invalidProtocol => "invalid protocol identifier"
  | trailingBytes => "trailing bytes in datagram"
  | truncatedDatagram => "truncated datagram"
  | frameTooShort => "frame too short"
  | frameTooLong => "frame too long"
  | crcMismatch => "CRC mismatch"
  | oddHex => "odd number of hex characters"
  | invalidHex => "invalid hex character"
  | lrcMismatch => "LRC mismatch"

/-- A frame that has been found: its ADU, or why there is none. -/
abbrev Frame := Except Discard Adu

def Frame.adu? : Frame → Option Adu
  | .ok adu => some adu
  | .error _ => none

/-- Appends the frame of an ADU to what is in the buffer, unless the PDU is too long. -/
def Adu.append (encode : Adu → Bytes) (adu : Adu) (buffer : Bytes) : Except Fault Bytes :=
  if Pdu.maxSize < adu.pdu.length then .error .oversizedPdu else .ok (buffer ++ encode adu)

section
variable {encode : Adu → Bytes} {adu : Adu} {buffer : Bytes}

theorem Adu.append_eq_ok_iff {frames : Bytes} :
    adu.append encode buffer = .ok frames ↔ adu.pdu.length ≤ Pdu.maxSize ∧ frames = buffer ++ encode adu := by
  unfold append
  split
  · rename_i hlong
    exact iff_of_false nofun fun h => absurd h.1 (Nat.not_le.mpr hlong)
  · rename_i hshort
    rw [Except.ok.injEq, and_iff_right (Nat.le_of_not_lt hshort), eq_comm]

theorem Adu.append_eq_error_iff :
    adu.append encode buffer = .error .oversizedPdu ↔ Pdu.maxSize < adu.pdu.length := by
  unfold append
  split
  · rename_i hlong
    exact iff_of_true rfl hlong
  · rename_i hshort
    exact iff_of_false nofun hshort

end

end Modbus
