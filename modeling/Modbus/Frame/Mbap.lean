import Modbus.Frame.Basic

/-!
# MBAP frames

Transaction id, protocol id 0, length of what follows, unit id, PDU. The length announces the end of a frame, so
frames are found in a stream of bytes as well as in a datagram; an impossible length leaves no boundary to go on
from and everything that has arrived is dropped.
-/

namespace Modbus.Mbap

def headerSize : Nat := 7

def encode (adu : Adu) : Bytes :=
  Bytes.ofWord adu.header.transaction ++ Bytes.ofWord 0 ++ Bytes.ofWord (UInt16.ofNat (adu.pdu.length + 1)) ++
    adu.header.unit :: adu.pdu

def append : Adu → Bytes → Except Fault Bytes := Adu.append encode

def decode (buffer : Bytes) : Option Frame × Bytes :=
  match buffer with
  | t₁ :: t₀ :: p₁ :: p₀ :: l₁ :: l₀ :: unit :: body =>
    let size := (word l₁ l₀).toNat - 1
    if (word l₁ l₀).toNat < 2 ∨ Pdu.maxSize < size then (some (.error .invalidLength), [])
    else if body.length < size then (none, buffer)
    else if word p₁ p₀ ≠ 0 then (some (.error .invalidProtocol), body.drop size)
    else (some (.ok ⟨⟨word t₁ t₀, unit⟩, body.take size⟩), body.drop size)
  | _ => (none, buffer)

/-- How far `decode` moves the front of a buffer. A buffer that is dropped is emptied where it lies. -/
def passed (buffer : Bytes) : Nat :=
  match decode buffer with
  | (some (.error .invalidLength), _) => 0
  | (_, rest) => buffer.length - rest.length

/-- A datagram has to be exactly one frame. -/
def decodeDatagram (datagram : Bytes) : Frame :=
  match decode datagram with
  | (some frame, []) => frame
  | (some _, _ :: _) => .error .trailingBytes
  | (none, _) => .error .truncatedDatagram

end Modbus.Mbap
