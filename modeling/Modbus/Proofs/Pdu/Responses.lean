import Modbus.Proofs.Pdu.Requests

/-!
# Replies survive the wire

A response that fits a PDU is read back as it was written, except that coils come in whole bytes. Some responses have
no PDU of their own: an empty list of file blocks, a queue that is too long, and the code of another function.
-/

namespace Modbus

open Pdu (Reads)

namespace Response

/-- The response as it comes out of its PDU: coils fill their last byte. -/
def padded : Response → Response
  | readCoils coils => readCoils (Coils.pad coils)
  | readDiscreteInputs coils => readDiscreteInputs (Coils.pad coils)
  | r => r

def IsRegular : Response → Prop
  | writeFileRecord records => records ≠ []
  | readFifoQueue ws => ws.length ≤ maxFifoCount
  | custom code _ => code < 0x80 ∧ FunctionCode.isNative code = false
  | _ => True

theorem function_padded (r : Response) : r.padded.function = r.function := by cases r <;> rfl

theorem isCanonical_of_isRegular {r : Response} (h : r.IsRegular) : r.function.IsCanonical := by
  cases r with
  | custom code _ => exact (FunctionCode.isCanonical_custom_iff code).mpr h.2
  | _ => rfl

theorem toByte_function_lt {r : Response} (h : r.IsRegular) : r.function.toByte < 0x80 := by
  cases r with
  | custom code _ => exact h.1
  | _ =>
      simp only [function, FunctionCode.toByte]
      decide

/-! ## Counted values -/

theorem readsCoils {coils : List Bool} (h : Coils.size coils.length < 256) :
    Reads coilsReader (UInt8.ofNat (Coils.size coils.length) :: Coils.pack coils) (Coils.pad coils) := by
  have hcoils := (Reads.bytes (Coils.pack coils) (Coils.length_pack coils).symm).map (f := Coils.unpack)
  rw [Coils.unpack_pack] at hcoils
  rw [← List.singleton_append]
  refine (Reads.byte _).bind ?_
  rw [UInt8.toNat_ofNat_of_lt' h]
  exact hcoils

theorem readsRegisters {ws : List Word} (h : 2 * ws.length < 256) :
    Reads registersReader (UInt8.ofNat (2 * ws.length) :: Bytes.ofWords ws) ws := by
  rw [← List.singleton_append]
  refine (Reads.byte _).bind ?_
  rw [UInt8.toNat_ofNat_of_lt' h, Nat.mul_div_cancel_left _ (by decide)]
  exact Reads.guard (by simp) (Reads.words ws rfl)

theorem readsBlock {ws : List Word} (h : 1 + 2 * ws.length < 256) : Reads blockReader (encodeBlock ws) ws := by
  have hbytes : encodeBlock ws = [UInt8.ofNat (1 + 2 * ws.length)] ++ ([Pdu.fileReference] ++ Bytes.ofWords ws) := by
    simp [encodeBlock]
  rw [hbytes]
  refine (Reads.byte _).bind ?_
  rw [UInt8.toNat_ofNat_of_lt' h]
  exact Reads.guard (by omega) (Reads.reference.bind (Reads.words ws (by omega)))

theorem readsBlocks {blocks : List (List Word)} (h : sizeBlocks blocks < 256) :
    Reads blocksReader (UInt8.ofNat (sizeBlocks blocks) :: blocks.flatMap encodeBlock) blocks := by
  have hsize : sizeBlocks blocks = (blocks.flatMap encodeBlock).length := by
    simp only [length_flatMap_eq_total, length_encodeBlock, sizeBlocks]
  refine Reads.counted ?_ hsize h
  intro ws hws
  have := le_total (fun ws : List Word => 2 + 2 * ws.length) hws
  unfold sizeBlocks at h
  exact ⟨readsBlock (by omega), Nat.succ_pos _⟩

theorem readsFifo {ws : List Word} (h : ws.length ≤ maxFifoCount) :
    Reads fifoReader (Bytes.ofWord (UInt16.ofNat (2 + 2 * ws.length)) ++ (Bytes.ofWord (UInt16.ofNat ws.length) ++
      Bytes.ofWords ws)) ws := by
  have hmax : maxFifoCount = 31 := rfl
  have hbytes := UInt16.toNat_ofNat_of_lt' (n := 2 + 2 * ws.length) (by simp [UInt16.size]; omega)
  have hcount := UInt16.toNat_ofNat_of_lt' (n := ws.length) (by simp [UInt16.size]; omega)
  refine (Reads.word _).bind ((Reads.word _).bind ?_)
  rw [hbytes, hcount]
  exact Reads.guard (by simp; omega) (Reads.words ws rfl)

/-! ## Responses -/

theorem whole_reader {r : Response} (fits : r.Fits) (regular : r.IsRegular) (trailing : Pdu.Error) :
    (reader r.function).whole trailing r.payload = .ok r.padded := by
  simp only [Fits, Pdu.maxSize] at fits
  cases r with
  | readCoils coils | readDiscreteInputs coils =>
      simp only [size] at fits
      exact (readsCoils (by omega)).map.whole trailing
  | readHoldingRegisters ws | readInputRegisters ws | readWriteMultipleRegisters ws =>
      simp only [size] at fits
      exact (readsRegisters (by omega)).map.whole trailing
  | writeSingleCoil addr value => exact ((Reads.word addr).bind (Reads.coil value).map).whole trailing
  | writeSingleRegister addr value | writeMultipleCoils addr value | writeMultipleRegisters addr value =>
      exact ((Reads.word addr).bind (Reads.word value).map).whole trailing
  | readFileRecord blocks =>
      simp only [size] at fits
      exact (readsBlocks (by omega)).map.whole trailing
  | writeFileRecord records =>
      simp only [size] at fits
      exact (FileRecord.readsAll (by omega) regular).map.whole trailing
  | maskWriteRegister addr a o =>
      have hbytes : (maskWriteRegister addr a o).payload =
          Bytes.ofWord addr ++ (Bytes.ofWord a ++ Bytes.ofWord o) := by
        simp [payload]
      rw [hbytes]
      exact ((Reads.word addr).bind ((Reads.word a).bind (Reads.word o).map)).whole trailing
  | readFifoQueue ws =>
      have h := (readsFifo regular).map (f := readFifoQueue)
      rw [← List.append_assoc] at h
      exact h.whole trailing
  | custom code data => rfl

theorem decode_encode {r : Response} (fits : r.Fits) (regular : r.IsRegular) : decode r.encode = .ok r.padded := by
  have hlength : ¬ Pdu.maxSize < r.encode.length := by
    rw [length_encode]
    exact Nat.not_lt.mpr fits
  have hcode : FunctionCode.ofByte r.function.toByte = r.function := isCanonical_of_isRegular regular
  unfold decode
  rw [if_neg hlength]
  simp only [encode, hcode]
  exact whole_reader fits regular _

end Response

/-! ## Exceptions -/

theorem le_add_of_lt {code : UInt8} (h : code < 0x80) : ¬ code + 0x80 < 0x80 := by
  have hlt : code.toNat < 128 := h
  have hadd : (code + 0x80).toNat = code.toNat + 128 := by
    rw [UInt8.toNat_add]
    exact Nat.mod_eq_of_lt (by simp; omega)
  intro hle
  have : (code + 0x80).toNat < 128 := hle
  omega

namespace Reply

theorem decode_ok {r : Response} (fits : r.Fits) (regular : r.IsRegular) :
    decode r.encode = .ok (.ok r.padded) := by
  have h : decode r.encode = (Response.decode r.encode).map .ok := if_pos (Response.toByte_function_lt regular)
  rw [h, Response.decode_encode fits regular]
  rfl

theorem decode_error {e : ExceptionResponse} (function : e.function.IsCanonical)
    (code : e.function.toByte < 0x80) (exception : e.exception.IsCanonical) :
    decode e.encode = .ok (.error e) := by
  have hsub : e.function.toByte + 0x80 - 0x80 = e.function.toByte := UInt8.add_sub_cancel _ _
  have hdecode : ExceptionResponse.decode e.encode = .ok e := by
    unfold ExceptionResponse.decode ExceptionResponse.encode
    simp only [if_neg (le_add_of_lt code), hsub]
    rw [show FunctionCode.ofByte e.function.toByte = e.function from function,
      show ExceptionCode.ofByte e.exception.toByte = e.exception from exception]
  have h : decode e.encode = (ExceptionResponse.decode e.encode).map .error := if_neg (le_add_of_lt code)
  rw [h, hdecode]
  rfl

end Reply

end Modbus
