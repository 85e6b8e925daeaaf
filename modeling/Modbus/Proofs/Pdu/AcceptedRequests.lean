import Modbus.Proofs.Pdu.Accepts
import Modbus.Proofs.Pdu.Requests

/-!
# Requests are accepted in one form

`Request.Layout` says which payloads stand for a request, field by field, and `Request.decode_eq_ok_iff` that these and
no others are accepted. So a request that comes out of a PDU is regular and is written as that PDU again, except that the
unused bits behind packed coils may be set where they are written as zero.
-/

namespace Modbus

open Pdu (Accepts)

/-! ## File blocks -/

theorem FileSpan.accepts : Accepts FileSpan.reader fun x bs => bs = x.encode :=
  Accepts.reference.andThen fun _ => Accepts.word.andThen fun _ => Accepts.word.andThen fun _ =>
    Accepts.word.andReturn fun _ => rfl

theorem FileSpan.acceptsMany (n : Nat) :
    Accepts (FileSpan.readerMany n) fun xs bs => bs = xs.flatMap FileSpan.encode ∧ xs.length = n := by
  induction n with
  | zero => exact .pure ⟨rfl, rfl⟩
  | succ n ih =>
      refine FileSpan.accepts.andThen fun x => ih.map ?_
      rintro xs _ ⟨rfl, rfl⟩
      exact ⟨List.flatMap_cons.symm, rfl⟩

theorem FileSpan.acceptsAll : Accepts FileSpan.readerAll fun xs bs => xs ≠ [] ∧ ∃ count : UInt8,
    bs = count :: xs.flatMap FileSpan.encode ∧ count.toNat = Pdu.fileReferenceSize * xs.length := by
  refine Accepts.byte.andThen fun count => .guard fun hcount => .need ((FileSpan.acceptsMany _).mono ?_)
  rintro xs _ ⟨rfl, hn⟩
  simp only [Pdu.fileReferenceSize] at hcount hn ⊢
  refine ⟨?_, count, rfl, by omega⟩
  rintro rfl
  rw [List.length_nil] at hn
  omega

theorem FileRecord.accepts : Accepts FileRecord.reader fun x bs => bs = x.encode := by
  refine Accepts.reference.andThen fun _ => Accepts.word.andThen fun file => Accepts.word.andThen fun record =>
    Accepts.word.andThen fun length => (Accepts.words _).map ?_
  rintro data _ ⟨rfl, hn⟩
  simp [FileRecord.encode, hn]

theorem FileRecord.acceptsAll : Accepts FileRecord.readerAll fun xs bs => xs ≠ [] ∧ ∃ count : UInt8,
    bs = count :: xs.flatMap FileRecord.encode ∧ count.toNat = FileRecord.sizeAll xs := by
  refine (Accepts.counted FileRecord.accepts).bind ?_
  rintro xs _ ⟨count, rfl, hcount⟩
  refine .guard fun hne => .pure ⟨hne, count, List.append_nil _, ?_⟩
  rw [hcount, length_flatMap_eq_total]
  simp only [FileRecord.length_encode, FileRecord.sizeAll]

namespace Request

/-! ## Payloads of requests -/

/-- The payloads that stand for a request: each field in its place and nothing behind the last one, every quantity and
byte count as large as what it counts, a coil all on or all off. Packed coils may be followed by any bits up to the end of
their last byte. -/
inductive Layout : Request → Bytes → Prop
  | readCoils (addr qty : Word) : Layout (.readCoils addr qty) (Bytes.ofWord addr ++ Bytes.ofWord qty)
  | readDiscreteInputs (addr qty : Word) :
    Layout (.readDiscreteInputs addr qty) (Bytes.ofWord addr ++ Bytes.ofWord qty)
  | readHoldingRegisters (addr qty : Word) :
    Layout (.readHoldingRegisters addr qty) (Bytes.ofWord addr ++ Bytes.ofWord qty)
  | readInputRegisters (addr qty : Word) :
    Layout (.readInputRegisters addr qty) (Bytes.ofWord addr ++ Bytes.ofWord qty)
  | switchOn (addr : Word) : Layout (.writeSingleCoil addr true) (Bytes.ofWord addr ++ [0xFF, 0x00])
  | switchOff (addr : Word) : Layout (.writeSingleCoil addr false) (Bytes.ofWord addr ++ [0x00, 0x00])
  | writeSingleRegister (addr value : Word) :
    Layout (.writeSingleRegister addr value) (Bytes.ofWord addr ++ Bytes.ofWord value)
  | writeMultipleCoils {addr qty : Word} {count : UInt8} {coils : List Bool} (packed : Bytes)
    (quantity : qty.toNat = coils.length) (size : count.toNat = Coils.size coils.length)
    (length : packed.length = count.toNat) (unpacked : (Coils.unpack packed).take coils.length = coils) :
    Layout (.writeMultipleCoils addr coils) (Bytes.ofWord addr ++ (Bytes.ofWord qty ++ count :: packed))
  | writeMultipleRegisters {addr qty : Word} {count : UInt8} {words : List Word}
    (quantity : qty.toNat = words.length) (size : count.toNat = 2 * words.length) :
    Layout (.writeMultipleRegisters addr words) (Bytes.ofWord addr ++ (Bytes.ofWord qty ++ count :: Bytes.ofWords words))
  | readFileRecord {count : UInt8} {spans : List FileSpan} (some : spans ≠ [])
    (size : count.toNat = Pdu.fileReferenceSize * spans.length) :
    Layout (.readFileRecord spans) (count :: spans.flatMap FileSpan.encode)
  | writeFileRecord {count : UInt8} {records : List FileRecord} (some : records ≠ [])
    (size : count.toNat = FileRecord.sizeAll records) :
    Layout (.writeFileRecord records) (count :: records.flatMap FileRecord.encode)
  | maskWriteRegister (addr a o : Word) :
    Layout (.maskWriteRegister addr a o) (Bytes.ofWord addr ++ (Bytes.ofWord a ++ Bytes.ofWord o))
  | readWriteMultipleRegisters {addr qty writeAddr writeQty : Word} {count : UInt8} {words : List Word}
    (quantity : writeQty.toNat = words.length) (size : count.toNat = 2 * words.length) :
    Layout (.readWriteMultipleRegisters addr qty writeAddr words) (Bytes.ofWord addr ++ (Bytes.ofWord qty ++
      (Bytes.ofWord writeAddr ++ (Bytes.ofWord writeQty ++ count :: Bytes.ofWords words))))
  | readFifoQueue (addr : Word) : Layout (.readFifoQueue addr) (Bytes.ofWord addr)
  | custom {code : UInt8} {data : Bytes} (request : code < 0x80) (free : FunctionCode.isNative code = false) :
    Layout (.custom code data) data

/-- Behind a function code only the payloads of its requests are accepted. -/
theorem accepts {f : FunctionCode} (canonical : f.IsCanonical) :
    Accepts (reader f) fun r bs => r.function = f ∧ r.Layout bs := by
  cases f with
  | readCoils | readDiscreteInputs | readHoldingRegisters | readInputRegisters | writeSingleRegister =>
      refine Accepts.word.andThen fun addr => Accepts.word.andReturn fun w => ?_
      exact ⟨rfl, by constructor⟩
  | writeSingleCoil =>
      refine Accepts.word.andThen fun addr => Accepts.coil.andReturn fun value => ?_
      cases value with
      | true => exact ⟨rfl, .switchOn addr⟩
      | false => exact ⟨rfl, .switchOff addr⟩
  | writeMultipleCoils =>
      refine Accepts.word.andThen fun addr => Accepts.word.andThen fun qty => Accepts.byte.andThen fun count =>
        .guard fun hcount => (Accepts.bytes _).map ?_
      rintro _ packed ⟨rfl, hlength⟩
      have hcount := Decidable.not_not.mp hcount
      have hcoils : ((Coils.unpack packed).take qty.toNat).length = qty.toNat := by
        apply List.length_take_of_le
        rw [Coils.length_unpack, hlength, hcount]
        exact Coils.length_le qty.toNat
      exact ⟨rfl, .writeMultipleCoils packed hcoils.symm (by rw [hcoils, hcount]) hlength (by rw [hcoils])⟩
  | writeMultipleRegisters =>
      refine Accepts.word.andThen fun addr => Accepts.word.andThen fun qty => Accepts.byte.andThen fun count =>
        .guard fun hcount => (Accepts.words _).map ?_
      rintro words _ ⟨rfl, hlength⟩
      exact ⟨rfl, .writeMultipleRegisters hlength.symm (by rw [hlength, Decidable.not_not.mp hcount])⟩
  | readFileRecord =>
      refine FileSpan.acceptsAll.map ?_
      rintro spans _ ⟨hne, count, rfl, hcount⟩
      exact ⟨rfl, .readFileRecord hne hcount⟩
  | writeFileRecord =>
      refine FileRecord.acceptsAll.map ?_
      rintro records _ ⟨hne, count, rfl, hcount⟩
      exact ⟨rfl, .writeFileRecord hne hcount⟩
  | maskWriteRegister =>
      refine Accepts.word.andThen fun addr => Accepts.word.andThen fun a => Accepts.word.andReturn fun o => ?_
      exact ⟨rfl, .maskWriteRegister addr a o⟩
  | readWriteMultipleRegisters =>
      refine Accepts.word.andThen fun addr => Accepts.word.andThen fun qty => Accepts.word.andThen fun writeAddr =>
        Accepts.word.andThen fun writeQty => Accepts.byte.andThen fun count =>
          .guard fun hcount => (Accepts.words _).map ?_
      rintro words _ ⟨rfl, hlength⟩
      exact ⟨rfl, .readWriteMultipleRegisters hlength.symm (by rw [hlength, Decidable.not_not.mp hcount])⟩
  | readFifoQueue => exact Accepts.word.andReturn fun addr => ⟨rfl, .readFifoQueue addr⟩
  | custom code =>
      refine .guard fun hcode => Accepts.rest.andReturn fun data => ?_
      exact ⟨rfl, .custom (UInt8.not_le.mp hcode) ((FunctionCode.isCanonical_custom_iff code).mp canonical)⟩

namespace Layout

variable {r : Request} {bs : Bytes}

theorem isRegular (h : r.Layout bs) : r.IsRegular := by
  cases h with
  | readFileRecord some _ => exact some
  | writeFileRecord some _ => exact some
  | custom request free => exact ⟨request, free⟩
  | _ => trivial

/-- A payload is what is written for its request, except for set bits behind the last of the packed coils. -/
theorem payload_eq (h : r.Layout bs) : r.payload = bs ∨ ∃ addr coils front last,
    r = .writeMultipleCoils addr coils ∧ coils.length % 8 ≠ 0 ∧ bs = front ++ [last] ∧
      r.payload = front ++ [UInt8.ofNat (last.toNat % (1 <<< (coils.length % 8)))] := by
  cases h with
  | @writeMultipleCoils addr qty count coils packed quantity size length unpacked =>
      have hpayload : (Request.writeMultipleCoils addr coils).payload =
          Bytes.ofWord addr ++ (Bytes.ofWord qty ++ count :: Coils.pack coils) := by
        simp only [payload, ← size, UInt8.ofNat_toNat, List.append_assoc]
        rw [← quantity, UInt16.ofNat_toNat]
      rw [hpayload]
      have hpack := Coils.pack_take_unpack (length.trans size)
      rw [unpacked] at hpack
      rcases hpack with hpack | ⟨hn, front, last, rfl, hpack⟩
      · exact .inl (by rw [hpack])
      · refine .inr ⟨addr, coils, Bytes.ofWord addr ++ (Bytes.ofWord qty ++ count :: front), last, rfl, hn, ?_, ?_⟩
        · simp
        · rw [hpack]
          simp
  | writeMultipleRegisters quantity size | readWriteMultipleRegisters quantity size =>
      left
      simp only [payload, ← size, UInt8.ofNat_toNat, List.append_assoc]
      rw [← quantity, UInt16.ofNat_toNat]
  | readFileRecord _ size =>
      left
      rw [payload, ← size, UInt8.ofNat_toNat]
  | writeFileRecord _ size =>
      left
      rw [payload, FileRecord.encodeAll, ← size, UInt8.ofNat_toNat]
  | _ => exact .inl rfl

theorem length_payload (h : r.Layout bs) : r.payload.length = bs.length := by
  rcases h.payload_eq with h | ⟨_, _, front, last, rfl, _, rfl, hpayload⟩
  · rw [h]
  · rw [hpayload, List.length_append, List.length_append, List.length_singleton, List.length_singleton]

theorem size_eq (h : r.Layout bs) : r.size = bs.length + 1 := by
  rw [← length_encode, encode, List.length_cons, h.length_payload]

theorem whole_reader (h : r.Layout bs) (fits : bs.length + 1 ≤ Pdu.maxSize) (trailing : Pdu.Error) :
    (reader r.function).whole trailing bs = .ok r := by
  rcases h.payload_eq with heq | ⟨addr, coils, _, _, rfl, _⟩
  · rw [← heq]
    exact Request.whole_reader (h.size_eq ▸ fits) h.isRegular trailing
  -- These bytes need not be those that are written: what is behind the coils is read and dropped.
  · cases h with
    | @writeMultipleCoils _ qty count _ packed quantity size length unpacked =>
        have hcoils := (Pdu.Reads.bytes packed length.symm).map
          (f := fun packed => Request.writeMultipleCoils addr ((Coils.unpack packed).take qty.toNat))
        rw [quantity, unpacked, ← quantity] at hcoils
        refine Pdu.Reads.whole ((Pdu.Reads.word addr).bind ((Pdu.Reads.word qty).bind ?_)) trailing
        rw [← List.singleton_append]
        exact (Pdu.Reads.byte count).bind (Pdu.Reads.guard (by simp [size, quantity]) hcoils)

end Layout

/-! ## Requests out of a PDU -/

theorem decode_eq_ok_iff {pdu : Bytes} {r : Request} : decode pdu = .ok r ↔
    pdu.length ≤ Pdu.maxSize ∧ ∃ payload, pdu = r.function.toByte :: payload ∧ r.Layout payload := by
  unfold decode
  split
  · rename_i hlength
    exact ⟨nofun, fun h => absurd h.1 (Nat.not_le.mpr hlength)⟩
  · rename_i hlength
    constructor
    · intro h
      cases pdu with
      | nil => cases h
      | cons code payload =>
          obtain ⟨hfunction, layout⟩ := (accepts (FunctionCode.isCanonical_ofByte code)).whole h
          rw [hfunction, FunctionCode.toByte_ofByte]
          exact ⟨Nat.not_lt.mp hlength, payload, rfl, layout⟩
    · rintro ⟨fits, payload, rfl, layout⟩
      have hcode : FunctionCode.ofByte r.function.toByte = r.function := isCanonical_of_isRegular layout.isRegular
      simp only [hcode]
      exact layout.whole_reader fits _

/-- A PDU is as long as announced and never too long, and what comes out of it is the request that went in, exactly if
that request is regular. -/
theorem decode_pdu_iff {r : Request} {pdu : Bytes} (h : r.toPdu? = some pdu) :
    pdu.length = r.size ∧ pdu.length ≤ Pdu.maxSize ∧ (decode pdu = .ok r ↔ r.IsRegular) := by
  obtain ⟨fits, rfl⟩ := toPdu?_eq_some.mp h
  refine ⟨r.length_encode, r.length_encode ▸ fits, ?_, decode_encode fits⟩
  intro hdecode
  obtain ⟨_, _, _, layout⟩ := decode_eq_ok_iff.mp hdecode
  exact layout.isRegular

/-- File blocks come back, also one without values; a custom request with the code of a register read does not. -/
theorem decode_pdu_iff_blocks :
    let blocks : Request := .writeFileRecord [⟨4, 7, [0x06AF, 0x04BE]⟩, ⟨1, 0, []⟩]
    let pdu : Bytes := [0x15, 18, 6, 0, 4, 0, 7, 0, 2, 0x06, 0xAF, 0x04, 0xBE, 6, 0, 1, 0, 0, 0, 0]
    let borrowed : Request := .custom 0x03 [0, 0, 0, 1]
    (blocks.toPdu? = some pdu ∧ pdu.length = blocks.size ∧ decode pdu = .ok blocks) ∧
      borrowed.toPdu? = some [0x03, 0, 0, 0, 1] ∧ decode [0x03, 0, 0, 0, 1] ≠ .ok borrowed := by
  intro blocks pdu borrowed
  have hblocks : blocks.toPdu? = some pdu := by decide
  have hborrowed : borrowed.toPdu? = some [0x03, 0, 0, 0, 1] := by decide
  obtain ⟨hlength, _, hiff⟩ := decode_pdu_iff hblocks
  refine ⟨⟨hblocks, hlength, hiff.mpr (List.cons_ne_nil _ _)⟩, hborrowed, fun h => ?_⟩
  exact absurd ((decode_pdu_iff hborrowed).2.2.mp h).2 (by decide)

/-- What is accepted as a request has the layout of that request, and is the PDU of that request up to unused bits behind
packed coils, which are written as zero. -/
theorem toPdu_of_decode {pdu : Bytes} {r : Request} (h : decode pdu = .ok r) :
    pdu.length ≤ Pdu.maxSize ∧ (∃ payload, pdu = r.function.toByte :: payload ∧ r.Layout payload) ∧
      (r.toPdu? = some pdu ∨ ∃ addr coils front last,
        r = .writeMultipleCoils addr coils ∧ coils.length % 8 ≠ 0 ∧ pdu = front ++ [last] ∧
          r.toPdu? = some (front ++ [UInt8.ofNat (last.toNat % (1 <<< (coils.length % 8)))])) := by
  obtain ⟨hlength, payload, rfl, layout⟩ := decode_eq_ok_iff.mp h
  refine ⟨hlength, ⟨payload, rfl, layout⟩, ?_⟩
  have fits : r.size ≤ Pdu.maxSize := layout.size_eq ▸ hlength
  rcases layout.payload_eq with heq | ⟨addr, coils, front, last, hr, hn, rfl, heq⟩
  · exact .inl (toPdu?_eq_some.mpr ⟨fits, by rw [encode, heq]⟩)
  · refine .inr ⟨addr, coils, r.function.toByte :: front, last, hr, hn, rfl, toPdu?_eq_some.mpr ⟨fits, ?_⟩⟩
    rw [encode, heq, List.cons_append]

/-- Ten coils with junk behind them are accepted, and written without it. -/
theorem toPdu_of_decode_coils :
    let pdu : Bytes := [0x0F, 0x33, 0x11, 0x00, 0x0A, 0x02, 0xCD, 0xFD]
    let r : Request := .writeMultipleCoils 0x3311 [true, false, true, true, false, false, true, true, true, false]
    decode pdu = .ok r ∧ r.toPdu? = some [0x0F, 0x33, 0x11, 0x00, 0x0A, 0x02, 0xCD, 0x01] := by
  intro pdu r
  have hdecode : decode pdu = .ok r := by rfl
  refine ⟨hdecode, ?_⟩
  obtain ⟨_, _, hsame | ⟨_, coils, front, last, hr, _, hpdu, hwritten⟩⟩ := toPdu_of_decode hdecode
  · exact absurd hsame (by decide)
  · obtain ⟨_, rfl⟩ := writeMultipleCoils.inj hr
    have hlast : pdu.dropLast ++ [0xFD] = front ++ [last] := hpdu
    obtain ⟨rfl, ⟨⟩⟩ := List.append_inj' hlast rfl
    exact hwritten

end Request

end Modbus
