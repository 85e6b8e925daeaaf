import Modbus.Proofs.Pdu.AcceptedRequests
import Modbus.Proofs.Pdu.Responses

/-!
# Replies are accepted in one form

A reply that comes out of a PDU is regular and is written as that PDU again, response or exception, whatever device the
bytes are from. Together with what is read back of a reply this tells exactly which replies survive the wire.
-/

namespace Modbus

open Pdu (Accepts)

namespace Response

/-! ## Counted values -/

theorem acceptsCoils :
    Accepts coilsReader fun coils bs => bs = UInt8.ofNat (Coils.size coils.length) :: Coils.pack coils := by
  refine Accepts.byte.andThen fun count => (Accepts.bytes _).map ?_
  rintro _ packed ⟨rfl, hlength⟩
  have hsize : Coils.size (Coils.unpack packed).length = count.toNat := by
    rw [Coils.length_unpack, Coils.size]
    omega
  rw [hsize, UInt8.ofNat_toNat, Coils.pack_unpack]
  rfl

theorem acceptsRegisters : Accepts registersReader fun ws bs => bs = UInt8.ofNat (2 * ws.length) :: Bytes.ofWords ws := by
  refine Accepts.byte.andThen fun count => .guard fun heven => (Accepts.words _).mono ?_
  rintro ws _ ⟨rfl, hlength⟩
  have hcount : 2 * ws.length = count.toNat := by omega
  rw [hcount, UInt8.ofNat_toNat]
  rfl

theorem acceptsBlock : Accepts blockReader fun ws bs => bs = encodeBlock ws := by
  refine Accepts.byte.andThen fun length => .guard fun hodd => Accepts.reference.andThen fun _ =>
    (Accepts.words _).mono ?_
  rintro ws _ ⟨rfl, hwords⟩
  have hlength : 1 + 2 * ws.length = length.toNat := by omega
  rw [encodeBlock, hlength, UInt8.ofNat_toNat]
  rfl

theorem acceptsBlocks :
    Accepts blocksReader fun blocks bs => bs = UInt8.ofNat (sizeBlocks blocks) :: blocks.flatMap encodeBlock := by
  refine (Accepts.counted acceptsBlock).mono ?_
  rintro blocks _ ⟨count, rfl, hcount⟩
  have hsize : sizeBlocks blocks = count.toNat := by
    simp only [hcount, length_flatMap_eq_total, length_encodeBlock, sizeBlocks]
  rw [hsize, UInt8.ofNat_toNat]

theorem acceptsFifo : Accepts fifoReader fun ws bs => ws.length ≤ maxFifoCount ∧ bs = (readFifoQueue ws).payload := by
  refine Accepts.word.andThen fun byteCount => Accepts.word.andThen fun count => .guard fun hcount =>
    (Accepts.words _).mono ?_
  rintro ws _ ⟨rfl, hlength⟩
  obtain ⟨hbytes, hmax⟩ := not_or.mp hcount
  have hbytes := Decidable.not_not.mp hbytes
  refine ⟨by omega, ?_⟩
  rw [payload, hlength, ← hbytes, UInt16.ofNat_toNat, UInt16.ofNat_toNat, List.append_assoc]

end Response

theorem FileRecord.acceptsEncoded :
    Accepts FileRecord.readerAll fun xs bs => xs ≠ [] ∧ bs = FileRecord.encodeAll xs := by
  refine FileRecord.acceptsAll.mono ?_
  rintro xs _ ⟨hne, count, rfl, hcount⟩
  exact ⟨hne, by rw [FileRecord.encodeAll, ← hcount, UInt8.ofNat_toNat]⟩

namespace Response

/-! ## Responses out of a PDU -/

/-- Behind a function code only what is written for its responses is accepted. -/
theorem accepts {f : FunctionCode} (canonical : f.IsCanonical) (hlt : f.toByte < 0x80) :
    Accepts (reader f) fun r bs => r.function = f ∧ r.IsRegular ∧ bs = r.payload := by
  cases f with
  | readCoils | readDiscreteInputs => exact acceptsCoils.andReturn fun _ => ⟨rfl, trivial, rfl⟩
  | readHoldingRegisters | readInputRegisters | readWriteMultipleRegisters =>
      exact acceptsRegisters.andReturn fun _ => ⟨rfl, trivial, rfl⟩
  | writeSingleCoil =>
      exact Accepts.word.andThen fun _ => Accepts.coil.andReturn fun _ => ⟨rfl, trivial, rfl⟩
  | writeSingleRegister | writeMultipleCoils | writeMultipleRegisters =>
      exact Accepts.word.andThen fun _ => Accepts.word.andReturn fun _ => ⟨rfl, trivial, rfl⟩
  | readFileRecord => exact acceptsBlocks.andReturn fun _ => ⟨rfl, trivial, rfl⟩
  | writeFileRecord => exact FileRecord.acceptsEncoded.map fun _ _ h => ⟨rfl, h.1, h.2⟩
  | maskWriteRegister =>
      exact Accepts.word.andThen fun _ => Accepts.word.andThen fun _ => Accepts.word.andReturn fun _ =>
        ⟨rfl, trivial, rfl⟩
  | readFifoQueue => exact acceptsFifo.map fun _ _ h => ⟨rfl, h.1, h.2⟩
  | custom code =>
      exact Accepts.rest.andReturn fun _ => ⟨rfl, ⟨hlt, (FunctionCode.isCanonical_custom_iff code).mp canonical⟩, rfl⟩

theorem encode_of_decode {code : UInt8} {bs : Bytes} {r : Response} (hlt : code < 0x80)
    (h : decode (code :: bs) = .ok r) : r.IsRegular ∧ r.encode = code :: bs ∧ r.Fits := by
  unfold decode at h
  split at h
  · cases h
  · rename_i hlength
    have hcode := FunctionCode.toByte_ofByte code
    obtain ⟨hfunction, regular, rfl⟩ :=
      (accepts (FunctionCode.isCanonical_ofByte code) (hcode.symm ▸ hlt)).whole h
    have hencode : r.encode = code :: r.payload := by rw [encode, hfunction, hcode]
    refine ⟨regular, hencode, ?_⟩
    rw [Fits, ← length_encode, hencode]
    exact Nat.not_lt.mp hlength

theorem isRegular_padded {r : Response} : r.padded.IsRegular ↔ r.IsRegular := by
  cases r <;> exact Iff.rfl

end Response

namespace ExceptionResponse

/-- The exception stands for itself on the wire: there is a bit left to mark it, and both codes are those of bytes. -/
def IsRegular (e : ExceptionResponse) : Prop :=
  e.function.toByte < 0x80 ∧ e.function.IsCanonical ∧ e.exception.IsCanonical

theorem sub_lt {code : UInt8} (h : ¬ code < 0x80) : code - 0x80 < 0x80 := by
  have hle : 0x80 ≤ code := UInt8.not_lt.mp h
  have hlt := code.toNat_lt
  rw [UInt8.lt_iff_toNat_lt, UInt8.toNat_sub_of_le _ _ hle]
  exact Nat.sub_lt_right_of_lt_add hle hlt

theorem encode_of_decode {code : UInt8} {bs : Bytes} {e : ExceptionResponse} (h : decode (code :: bs) = .ok e) :
    e.IsRegular ∧ e.encode = code :: bs := by
  simp only [decode] at h
  split at h
  · cases h
  · rename_i hle
    split at h
    · cases h
    · cases h
      have hcode : (FunctionCode.ofByte (code - 0x80)).toByte = code - 0x80 := FunctionCode.toByte_ofByte _
      refine ⟨⟨?_, FunctionCode.isCanonical_ofByte _, ExceptionCode.isCanonical_ofByte _⟩, ?_⟩
      · rw [hcode]
        exact sub_lt hle
      · rw [encode, hcode, ExceptionCode.toByte_ofByte, UInt8.sub_add_cancel]
    · cases h

end ExceptionResponse

namespace Reply

def IsRegular : Reply → Prop
  | .ok r => r.IsRegular
  | .error e => e.IsRegular

theorem encode_of_decode {pdu : Bytes} {r : Reply} (h : decode pdu = .ok r) :
    IsRegular r ∧ encode r = pdu ∧ size r ≤ Pdu.maxSize := by
  cases pdu with
  | nil => cases h
  | cons code payload =>
      simp only [decode] at h
      split at h
      · rename_i hlt
        cases hr : Response.decode (code :: payload) with
        | error e =>
            rw [hr] at h
            cases h
        | ok a =>
            rw [hr] at h
            cases h
            exact Response.encode_of_decode hlt hr
      · cases hr : ExceptionResponse.decode (code :: payload) with
        | error e =>
            rw [hr] at h
            cases h
        | ok e =>
            rw [hr] at h
            cases h
            obtain ⟨regular, hencode⟩ := ExceptionResponse.encode_of_decode hr
            exact ⟨regular, hencode, show 2 ≤ 253 by decide⟩

/-- The PDU of a reply is as long as announced and never too long, and what comes out of it is the reply that went in,
with its coils in whole bytes, exactly if that reply is regular. -/
theorem decode_pdu_padded_iff {r : Reply} {pdu : Bytes} (h : toPdu? r = some pdu) :
    pdu.length = size r ∧ pdu.length ≤ Pdu.maxSize ∧ (decode pdu = .ok (r.map Response.padded) ↔ IsRegular r) := by
  obtain ⟨fits, rfl⟩ := toPdu?_eq_some.mp h
  refine ⟨length_encode r, length_encode r ▸ fits, fun hdecode => ?_, fun regular => ?_⟩
  · obtain ⟨regular, _⟩ := encode_of_decode hdecode
    cases r with
    | ok a => exact Response.isRegular_padded.mp regular
    | error e => exact regular
  · cases r with
    | ok a => exact decode_ok fits regular
    | error e => exact decode_error regular.2.1 regular.1 regular.2.2

/-- Coils come back in whole bytes; of a queue with one value too many there is a PDU, but no way back. -/
theorem decode_pdu_padded_iff_coils :
    let coils : Reply := .ok (.readCoils [true, false, true])
    let queue : Reply := .ok (.readFifoQueue (List.replicate 32 0))
    toPdu? coils = some [0x01, 0x01, 0x05] ∧
      decode [0x01, 0x01, 0x05] = .ok (.ok (.readCoils [true, false, true, false, false, false, false, false])) ∧
      ∃ pdu, toPdu? queue = some pdu ∧ decode pdu ≠ .ok queue := by
  intro coils queue
  have hcoils : toPdu? coils = some [0x01, 0x01, 0x05] := by decide
  have hqueue : toPdu? queue = some (encode queue) := if_pos (by decide)
  refine ⟨hcoils, (decode_pdu_padded_iff hcoils).2.2.mpr trivial, encode queue, hqueue, fun h => ?_⟩
  have hlength : 32 ≤ maxFifoCount := (decode_pdu_padded_iff hqueue).2.2.mp h
  exact absurd hlength (by decide)

/-- What is accepted as a reply is the PDU of that reply. -/
theorem toPdu_eq_of_decode {pdu : Bytes} {r : Reply} (h : decode pdu = .ok r) : toPdu? r = some pdu := by
  obtain ⟨_, hencode, fits⟩ := encode_of_decode h
  exact toPdu?_eq_some.mpr ⟨fits, hencode⟩

/-- Two blocks of a file, and an exception. -/
theorem toPdu_eq_of_decode_blocks :
    let pdu : Bytes := [0x14, 0x08, 0x05, 0x06, 0x0D, 0xFE, 0x00, 0x20, 0x01, 0x06]
    let blocks : Reply := .ok (.readFileRecord [[0x0DFE, 0x0020], []])
    let refusal : Reply := .error ⟨.readHoldingRegisters, .illegalDataAddress⟩
    (decode pdu = .ok blocks ∧ toPdu? blocks = some pdu) ∧
      decode [0x83, 0x02] = .ok refusal ∧ toPdu? refusal = some [0x83, 0x02] := by
  intro pdu blocks refusal
  have hblocks : decode pdu = .ok blocks := by rfl
  have hrefusal : decode [0x83, 0x02] = .ok refusal := by rfl
  exact ⟨⟨hblocks, toPdu_eq_of_decode hblocks⟩, hrefusal, toPdu_eq_of_decode hrefusal⟩

end Reply

end Modbus
