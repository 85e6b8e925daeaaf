import Modbus.Frame.Basic
import Modbus.Frame.Checksum
import Modbus.Pdu.Reader

/-!
# RTU frames

Unit id, PDU and checksum, the low byte of the checksum first. The bytes do not show where a frame ends; that is
known from the silence behind it.
-/

namespace Modbus.Rtu

/-- Unit id, function code and checksum. -/
def minSize : Nat := 4

def maxSize : Nat := 1 + Pdu.maxSize + 2

def encode (adu : Adu) : Bytes :=
  let data := adu.header.unit :: adu.pdu
  data ++ [low (Crc.ofBytes data), high (Crc.ofBytes data)]

/-- Appends the frame of an ADU, whatever its length, to what is in the buffer. -/
def append (adu : Adu) (buffer : Bytes) : Bytes := buffer ++ encode adu

def decode (frame : Bytes) : Frame :=
  if frame.length < minSize then .error .frameTooShort
  else if maxSize < frame.length then .error .frameTooLong
  else
    let data := frame.take (frame.length - 2)
    if frame.drop (frame.length - 2) ≠ [low (Crc.ofBytes data), high (Crc.ofBytes data)] then
      .error .crcMismatch
    else
      match data with
      | [] => .error .frameTooShort
      | unit :: pdu => .ok ⟨⟨0, unit⟩, pdu⟩

end Modbus.Rtu
