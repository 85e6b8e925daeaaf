import Modbus.Proofs.Frame.AsciiStream
import Modbus.Proofs.Frame.MbapStream

/-!
# What is appended comes back

A message is appended to a buffer as one frame, or it is refused and the buffer stays as it is. Every framing gives back
what has between 1 and 253 bytes of PDU. No framing refuses an empty PDU, though every decoder discards it, and the
decoder of MBAP frames drops all that follows with it. A PDU that is too long is refused everywhere but in a burst.
-/

namespace Modbus

/-- The message is refused, or one frame is appended, and the frame gives it back. -/
def GivesBack (appended : Except Fault Bytes) (buffer : Bytes) (Back : Bytes → Prop) : Prop :=
  (∃ fault, appended = .error fault) ∨ ∃ frame, appended = .ok (buffer ++ frame) ∧ Back frame

/-- The decoder takes the message off the front of a stream and leaves whatever follows. -/
def TakesOff (decode : Bytes → Option Frame × Bytes) (adu : Adu) (frame : Bytes) : Prop :=
  ∀ rest, decode (frame ++ rest) = (some (.ok adu), rest)

theorem givesBack_ok {buffer frame : Bytes} {Back : Bytes → Prop} :
    GivesBack (.ok (buffer ++ frame)) buffer Back ↔ Back frame := by
  constructor
  · rintro (⟨_, h⟩ | ⟨frame', h, back⟩)
    · cases h
    · obtain rfl := List.append_cancel_left (Except.ok.inj h)
      exact back
  · exact fun back => .inr ⟨frame, rfl, back⟩

theorem givesBack_append {encode : Adu → Bytes} {adu : Adu} {buffer : Bytes} {Back : Bytes → Prop}
    (back : adu.pdu.length ≤ Pdu.maxSize → (Back (encode adu) ↔ adu.pdu ≠ [])) :
    GivesBack (adu.append encode buffer) buffer Back ↔ adu.pdu ≠ [] := by
  by_cases hlong : Pdu.maxSize < adu.pdu.length
  · rw [Adu.append_eq_error_iff.mpr hlong]
    exact iff_of_true (.inl ⟨_, rfl⟩) (List.ne_nil_of_length_pos (by omega))
  · rw [Adu.append_eq_ok_iff.mpr ⟨Nat.le_of_not_lt hlong, rfl⟩, givesBack_ok]
    exact back (Nat.le_of_not_lt hlong)

namespace Mbap

/-- A frame without a PDU announces an impossible length. -/
theorem decode_encode_empty {adu : Adu} (h : adu.pdu = []) (rest : Bytes) :
    decode (encode adu ++ rest) = (some (.error .invalidLength), []) := by
  rw [encode_eq_header, h, List.append_nil]
  exact decode_lost (fun valid => absurd valid.1 (by decide)) rest

theorem takesOff_encode_iff {adu : Adu} (short : adu.pdu.length ≤ Pdu.maxSize) :
    TakesOff decode adu (encode adu) ↔ adu.pdu ≠ [] := by
  simp only [TakesOff, decode_eq_ok_iff, and_true, forall_const]
  exact ⟨fun h => h.1, fun h => ⟨h, short⟩⟩

theorem decodeDatagram_encode_iff {adu : Adu} (short : adu.pdu.length ≤ Pdu.maxSize) :
    decodeDatagram (encode adu) = .ok adu ↔ adu.pdu ≠ [] := by
  rw [decodeDatagram_eq_ok_iff]
  exact ⟨fun h => h.1.1, fun h => ⟨⟨h, short⟩, rfl⟩⟩

end Mbap

namespace Ascii

theorem decode_encode (adu : Adu) (rest : Bytes) : decode (encode adu ++ rest) = (some (read (text adu)), rest) := by
  have h := decode_line (List.not_mem_nil : start ∉ []) (unended_text adu) rest
  rwa [List.nil_append, segment_text] at h

theorem takesOff_encode_iff {adu : Adu} (short : adu.pdu.length ≤ Pdu.maxSize) :
    TakesOff decode adu.anonymous (encode adu) ↔ adu.pdu ≠ [] := by
  constructor
  · intro takesOff
    have hread := (takesOff []).symm.trans (decode_encode adu [])
    simp only [Prod.mk.injEq, Option.some.injEq, and_true] at hread
    obtain ⟨_, _, _, _, carries⟩ := yields_read (text adu)
    exact ((carries _).mp hread.symm).2.1
  · intro hpdu rest
    rw [decode_encode, read_text ⟨hpdu, short⟩]

end Ascii

theorem Rtu.decode_encode_iff {adu : Adu} : decode (encode adu) = .ok adu.anonymous ↔ adu.IsSendable := by
  refine ⟨fun h => ?_, decode_encode⟩
  obtain ⟨_, hpos, hmax, _⟩ := decode_eq_ok_iff.mp h
  exact ⟨List.ne_nil_of_length_pos hpos, hmax⟩

/-- A message that is appended to a buffer is refused or comes back, exactly if it has a PDU and, in a burst, one that is
not too long. Elsewhere a PDU that is too long is refused, and the frame of an empty one takes all that follows along. -/
theorem Adu.appended_givesBack_iff (adu : Adu) (buffer : Bytes) :
    (GivesBack (Mbap.append adu buffer) buffer (TakesOff Mbap.decode adu) ↔ adu.pdu ≠ []) ∧
      (GivesBack (Mbap.append adu buffer) buffer (Mbap.decodeDatagram · = .ok adu) ↔ adu.pdu ≠ []) ∧
      (GivesBack (Ascii.append adu buffer) buffer (TakesOff Ascii.decode adu.anonymous) ↔ adu.pdu ≠ []) ∧
      (GivesBack (.ok (Rtu.append adu buffer)) buffer (Rtu.decode · = .ok adu.anonymous) ↔
        adu.pdu ≠ [] ∧ adu.pdu.length ≤ 253) ∧
      (Mbap.append adu buffer = .error .oversizedPdu ↔ 253 < adu.pdu.length) ∧
      (Ascii.append adu buffer = .error .oversizedPdu ↔ 253 < adu.pdu.length) ∧
      (adu.pdu ≠ [] ∨ ∀ rest, Mbap.decode (Mbap.encode adu ++ rest) = (some (.error .invalidLength), [])) :=
  ⟨givesBack_append Mbap.takesOff_encode_iff, givesBack_append Mbap.decodeDatagram_encode_iff,
    givesBack_append Ascii.takesOff_encode_iff, givesBack_ok.trans Rtu.decode_encode_iff,
    Adu.append_eq_error_iff, Adu.append_eq_error_iff,
    (em (adu.pdu = [])).symm.imp_right Mbap.decode_encode_empty⟩

/-- A burst with a PDU of 254 bytes is written and is no frame; in the other framings such a PDU is refused. -/
theorem Rtu.appends_oversized :
    let adu : Adu := ⟨⟨0, 1⟩, List.replicate 254 0⟩
    ¬ GivesBack (.ok (append adu [])) [] (decode · = .ok adu.anonymous) ∧
      decode (append adu []) = .error .frameTooLong ∧
      Mbap.append adu [] = .error .oversizedPdu ∧ Ascii.append adu [] = .error .oversizedPdu := by
  intro adu
  have hpdu : adu.pdu.length = 254 := List.length_replicate
  have hlength : (append adu []).length = 257 := by rw [append, List.nil_append, length_encode, hpdu]
  have hdecode : decode (append adu []) = .error .frameTooLong := by
    unfold decode
    rw [hlength, if_neg (by decide), if_pos (by decide)]
  have hlong : Pdu.maxSize < adu.pdu.length := by
    rw [hpdu]
    decide
  refine ⟨fun h => ?_, hdecode, Adu.append_eq_error_iff.mpr hlong, Adu.append_eq_error_iff.mpr hlong⟩
  exact Nat.not_le.mpr hlong (decode_encode_iff.mp (givesBack_ok.mp h)).2

end Modbus
