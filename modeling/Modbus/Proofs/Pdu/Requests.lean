import Modbus.Proofs.Pdu.Fields
import Modbus.Proofs.Pdu.Sizes

/-!
# Requests survive the wire

A request that fits a PDU is read back as it was written, with two exceptions: lists of file blocks have to be there,
and a code of a function with a shape of its own, or of no request at all, is not read as a custom one.
-/

namespace Modbus

open Pdu (Reads)

theorem FileSpan.reads (x : FileSpan) : Reads FileSpan.reader x.encode x :=
  Reads.reference.bind ((Reads.word x.file).bind ((Reads.word x.record).bind (Reads.word x.length).map))

theorem FileSpan.readsMany (xs : List FileSpan) :
    Reads (FileSpan.readerMany xs.length) (xs.flatMap FileSpan.encode) xs := by
  induction xs with
  | nil => exact .pure _
  | cons x xs ih => exact (FileSpan.reads x).bind ih.map

theorem FileSpan.readsAll {xs : List FileSpan} (fits : Pdu.fileReferenceSize * xs.length < 256) (some : xs ≠ []) :
    Reads FileSpan.readerAll
      (UInt8.ofNat (Pdu.fileReferenceSize * xs.length) :: xs.flatMap FileSpan.encode) xs := by
  have hcount := UInt8.toNat_ofNat_of_lt' fits
  have hpos : 0 < xs.length := List.length_pos_iff.mpr some
  have hlength : (xs.flatMap FileSpan.encode).length = Pdu.fileReferenceSize * xs.length := by
    simp only [length_flatMap_eq_total, FileSpan.length_encode, total_const]
  rw [← List.singleton_append]
  refine (Reads.byte _).bind ?_
  rw [hcount]
  refine Reads.guard (by simp [Pdu.fileReferenceSize]; omega) ?_
  refine Reads.need (Nat.le_of_eq hlength.symm) ?_
  rw [Nat.mul_div_cancel_left _ (by decide)]
  exact FileSpan.readsMany xs

theorem FileRecord.reads {x : FileRecord} (h : x.data.length < 65536) : Reads FileRecord.reader x.encode x := by
  have hlength := UInt16.toNat_ofNat_of_lt' h
  have hbytes : x.encode = [Pdu.fileReference] ++ (Bytes.ofWord x.file ++ (Bytes.ofWord x.record ++
      (Bytes.ofWord (UInt16.ofNat x.data.length) ++ Bytes.ofWords x.data))) := by
    simp [FileRecord.encode]
  rw [hbytes]
  refine Reads.reference.bind ((Reads.word x.file).bind ((Reads.word x.record).bind ((Reads.word _).bind ?_)))
  exact (Reads.words x.data hlength).map

theorem FileRecord.readsAll {xs : List FileRecord} (fits : FileRecord.sizeAll xs < 256) (some : xs ≠ []) :
    Reads FileRecord.readerAll (FileRecord.encodeAll xs) xs := by
  have hsize : FileRecord.sizeAll xs = (xs.flatMap FileRecord.encode).length := by
    simp only [length_flatMap_eq_total, FileRecord.length_encode, FileRecord.sizeAll]
  have hrecord : ∀ x ∈ xs, Reads FileRecord.reader x.encode x ∧ 0 < x.encode.length := by
    intro x hx
    have := le_total (fun r : FileRecord => Pdu.fileReferenceSize + 2 * r.data.length) hx
    unfold FileRecord.sizeAll at fits
    exact ⟨FileRecord.reads (by omega), Nat.succ_pos _⟩
  rw [FileRecord.encodeAll, ← List.append_nil (_ :: _)]
  exact (Reads.counted hrecord hsize fits).bind (Reads.guard some (.pure xs))

namespace Request

/-- The request stands for itself on the wire: its file blocks are there, and a custom code is neither that of a
function with a shape of its own nor beyond all requests. -/
def IsRegular : Request → Prop
  | readFileRecord spans => spans ≠ []
  | writeFileRecord records => records ≠ []
  | custom code _ => code < 0x80 ∧ FunctionCode.isNative code = false
  | _ => True

theorem isCanonical_of_isRegular {r : Request} (h : r.IsRegular) : r.function.IsCanonical := by
  cases r with
  | custom code _ => exact (FunctionCode.isCanonical_custom_iff code).mpr h.2
  | _ => rfl

theorem whole_reader {r : Request} (fits : r.size ≤ Pdu.maxSize) (regular : r.IsRegular) (trailing : Pdu.Error) :
    (reader r.function).whole trailing r.payload = .ok r := by
  simp only [Pdu.maxSize] at fits
  cases r with
  | readCoils addr qty | readDiscreteInputs addr qty | readHoldingRegisters addr qty | readInputRegisters addr qty
  | writeSingleRegister addr qty =>
      exact ((Reads.word addr).bind (Reads.word qty).map).whole trailing
  | writeSingleCoil addr value => exact ((Reads.word addr).bind (Reads.coil value).map).whole trailing
  | writeMultipleCoils addr coils =>
      simp only [size, Coils.size] at fits
      have hqty := UInt16.toNat_ofNat_of_lt' (n := coils.length) (by simp [UInt16.size]; omega)
      have hcount := UInt8.toNat_ofNat_of_lt' (n := Coils.size coils.length) (by simp [UInt8.size, Coils.size]; omega)
      have hbytes : (writeMultipleCoils addr coils).payload =
          Bytes.ofWord addr ++ (Bytes.ofWord (UInt16.ofNat coils.length) ++
            ([UInt8.ofNat (Coils.size coils.length)] ++ Coils.pack coils)) := by
        simp [payload]
      have hcoils := (Reads.bytes (Coils.pack coils) (Coils.length_pack coils).symm).map
        (f := fun packed => writeMultipleCoils addr ((Coils.unpack packed).take coils.length))
      rw [Coils.unpack_pack, Coils.take_pad] at hcoils
      rw [hbytes]
      refine Reads.whole ((Reads.word addr).bind ((Reads.word _).bind ((Reads.byte _).bind ?_))) trailing
      rw [hqty, hcount]
      exact Reads.guard (by simp) hcoils
  | writeMultipleRegisters addr words =>
      simp only [size] at fits
      have hqty := UInt16.toNat_ofNat_of_lt' (n := words.length) (by simp [UInt16.size]; omega)
      have hcount := UInt8.toNat_ofNat_of_lt' (n := 2 * words.length) (by simp [UInt8.size]; omega)
      have hbytes : (writeMultipleRegisters addr words).payload =
          Bytes.ofWord addr ++ (Bytes.ofWord (UInt16.ofNat words.length) ++
            ([UInt8.ofNat (2 * words.length)] ++ Bytes.ofWords words)) := by
        simp [payload]
      rw [hbytes]
      refine Reads.whole ((Reads.word addr).bind ((Reads.word _).bind ((Reads.byte _).bind ?_))) trailing
      rw [hqty, hcount]
      exact Reads.guard (by simp) (Reads.words words rfl).map
  | readFileRecord spans =>
      simp only [size] at fits
      exact (FileSpan.readsAll (by omega) regular).map.whole trailing
  | writeFileRecord records =>
      simp only [size] at fits
      exact (FileRecord.readsAll (by omega) regular).map.whole trailing
  | maskWriteRegister addr a o =>
      have hbytes : (maskWriteRegister addr a o).payload =
          Bytes.ofWord addr ++ (Bytes.ofWord a ++ Bytes.ofWord o) := by
        simp [payload]
      rw [hbytes]
      exact ((Reads.word addr).bind ((Reads.word a).bind (Reads.word o).map)).whole trailing
  | readWriteMultipleRegisters addr qty writeAddr words =>
      simp only [size] at fits
      have hqty := UInt16.toNat_ofNat_of_lt' (n := words.length) (by simp [UInt16.size]; omega)
      have hcount := UInt8.toNat_ofNat_of_lt' (n := 2 * words.length) (by simp [UInt8.size]; omega)
      have hbytes : (readWriteMultipleRegisters addr qty writeAddr words).payload =
          Bytes.ofWord addr ++ (Bytes.ofWord qty ++ (Bytes.ofWord writeAddr ++
            (Bytes.ofWord (UInt16.ofNat words.length) ++ ([UInt8.ofNat (2 * words.length)] ++ Bytes.ofWords words)))) := by
        simp [payload]
      rw [hbytes]
      refine Reads.whole ((Reads.word addr).bind ((Reads.word qty).bind ((Reads.word writeAddr).bind
        ((Reads.word _).bind ((Reads.byte _).bind ?_))))) trailing
      rw [hqty, hcount]
      exact Reads.guard (by simp) (Reads.words words rfl).map
  | readFifoQueue addr => exact (Reads.word addr).map.whole trailing
  | custom code data =>
      have hcode : ¬ 0x80 ≤ code := UInt8.not_le.mpr regular.1
      simp only [function, reader, payload, if_neg hcode]
      rfl

theorem decode_encode {r : Request} (fits : r.size ≤ Pdu.maxSize) (regular : r.IsRegular) :
    decode r.encode = .ok r := by
  have hlength : ¬ Pdu.maxSize < r.encode.length := by
    rw [length_encode]
    omega
  have hcode : FunctionCode.ofByte r.function.toByte = r.function := isCanonical_of_isRegular regular
  unfold decode
  rw [if_neg hlength]
  simp only [encode, hcode]
  exact whole_reader fits regular _

end Request

end Modbus
