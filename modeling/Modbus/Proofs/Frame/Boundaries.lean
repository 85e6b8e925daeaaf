import Modbus.Frame.Rtu
import Modbus.Link.FrameReader

/-!
# The boundaries of frames

A frame that has arrived is found and is found to be all there is, and nothing is found before its last byte is there.
Framings without transaction ids deliver their messages with transaction id 0.
-/

namespace Modbus

/-- The message as a framing without transaction ids delivers it. -/
def Adu.anonymous (adu : Adu) : Adu := ⟨⟨0, adu.header.unit⟩, adu.pdu⟩

def Adu.IsSendable (adu : Adu) : Prop := adu.pdu ≠ [] ∧ adu.pdu.length ≤ Pdu.maxSize

/-- The bytes are a frame of the message, and no frame ends inside of them. -/
structure Envelope.Delimits (env : Envelope) (bytes : Bytes) (adu : Adu) : Prop where
  complete : env.decode bytes = (some (.ok adu), [])
  incomplete : ∀ front back, front ++ back = bytes → back ≠ [] → env.decode front = (none, front)

namespace Mbap

theorem toNat_length {adu : Adu} (h : adu.IsSendable) :
    (word (high (UInt16.ofNat (adu.pdu.length + 1))) (low (UInt16.ofNat (adu.pdu.length + 1)))).toNat =
      adu.pdu.length + 1 := by
  have hmax : Pdu.maxSize = 253 := rfl
  have := h.2
  rw [word_high_low]
  exact UInt16.toNat_ofNat_of_lt' (by simp [UInt16.size]; omega)

theorem decode_front {adu : Adu} (h : adu.IsSendable) {t₁ t₀ p₁ p₀ unit : UInt8} {body : Bytes} :
    decode (t₁ :: t₀ :: p₁ :: p₀ :: high (UInt16.ofNat (adu.pdu.length + 1)) ::
        low (UInt16.ofNat (adu.pdu.length + 1)) :: unit :: body) =
      if body.length < adu.pdu.length then (none, t₁ :: t₀ :: p₁ :: p₀ ::
        high (UInt16.ofNat (adu.pdu.length + 1)) :: low (UInt16.ofNat (adu.pdu.length + 1)) :: unit :: body)
      else if word p₁ p₀ ≠ 0 then (some (.error .invalidProtocol), body.drop adu.pdu.length)
      else (some (.ok ⟨⟨word t₁ t₀, unit⟩, body.take adu.pdu.length⟩), body.drop adu.pdu.length) := by
  have hpos := List.length_pos_iff.mpr h.1
  have hmax := h.2
  have hvalid : ¬ (adu.pdu.length + 1 < 2 ∨ Pdu.maxSize < adu.pdu.length) := by omega
  unfold decode
  simp only [toNat_length h, Nat.add_sub_cancel, if_neg hvalid]

theorem delimits {adu : Adu} (h : adu.IsSendable) : envelope.Delimits (encode adu) adu where
  complete := by
    show decode (encode adu) = _
    simp only [encode, Bytes.ofWord, List.cons_append, List.nil_append]
    rw [decode_front h, if_neg (Nat.lt_irrefl _), word_high_low, if_neg (by simp), List.take_length,
      List.drop_length, word_high_low]
  incomplete front back heq hback := by
    show decode front = _
    simp only [encode, Bytes.ofWord, List.cons_append, List.nil_append] at heq
    have hpos := List.length_pos_iff.mpr hback
    rcases front with _ | ⟨t₁, _ | ⟨t₀, _ | ⟨p₁, _ | ⟨p₀, _ | ⟨l₁, _ | ⟨l₀, _ | ⟨unit, body⟩⟩⟩⟩⟩⟩⟩
    all_goals try rfl
    simp only [List.cons_append, List.cons.injEq] at heq
    obtain ⟨rfl, rfl, rfl, rfl, rfl, rfl, rfl, hbody⟩ := heq
    rw [decode_front h, if_pos]
    rw [← hbody, List.length_append]
    omega

end Mbap

namespace Ascii

def IsText (c : UInt8) : Prop := c ≠ start ∧ c ≠ 13

theorem isText_encode (bs : Bytes) : ∀ c ∈ Hex.encode bs, IsText c := by
  have digit : ∀ m : Fin 16, Hex.digit m ≠ start ∧ Hex.digit m ≠ 13 := by decide
  induction bs with
  | nil => exact nofun
  | cons b bs ih =>
      have hb := b.toNat_lt
      exact List.forall_mem_cons.mpr ⟨digit ⟨b.toNat / 16, by omega⟩,
        List.forall_mem_cons.mpr ⟨digit ⟨b.toNat % 16, by omega⟩, ih⟩⟩

theorem splitLine_ending {line : Bytes} (h : ∀ c ∈ line, c ≠ 13) (rest : Bytes) :
    splitLine (line ++ 13 :: 10 :: rest) = some (line, rest) := by
  induction line with
  | nil => simp [splitLine]
  | cons c line ih =>
      obtain ⟨hc, hline⟩ := List.forall_mem_cons.mp h
      simp [splitLine, hc, ih hline]

/-- Without its last byte a line has no end. -/
theorem splitLine_front {line front back : Bytes} (h : ∀ c ∈ line, c ≠ 13) (heq : front ++ back = line ++ ending)
    (hback : back ≠ []) : splitLine front = none := by
  induction line generalizing front with
  | nil =>
      rcases front with _ | ⟨a, _ | ⟨b, front⟩⟩
      · rfl
      · simp [splitLine]
      · simp only [ending, List.nil_append, List.cons_append, List.cons.injEq, List.append_eq_nil_iff] at heq
        exact absurd heq.2.2.2 hback
  | cons c line ih =>
      obtain ⟨hc, hline⟩ := List.forall_mem_cons.mp h
      cases front with
      | nil => rfl
      | cons a front =>
          simp only [List.cons_append, List.cons.injEq] at heq
          obtain ⟨rfl, heq⟩ := heq
          simp [splitLine, hc, ih hline heq]

theorem afterStart_append {before text : Bytes} (h : ∀ c ∈ text, c ≠ start) :
    afterStart (before ++ start :: text) = text := by
  have hall : ∀ c ∈ text.reverse, decide (c ≠ start) = true := by simpa using h
  rw [afterStart, List.reverse_append, List.reverse_cons, List.append_assoc, List.takeWhile_append_of_pos hall]
  simp

theorem afterStart_cons {text : Bytes} (h : ∀ c ∈ text, c ≠ start) : afterStart (start :: text) = text :=
  @afterStart_append [] text h

theorem decodeText_encode {adu : Adu} (h : adu.IsSendable) :
    decodeText (Hex.encode (adu.header.unit :: adu.pdu ++ [lrc (adu.header.unit :: adu.pdu)])) =
      .ok adu.anonymous := by
  have hpos := List.length_pos_iff.mpr h.1
  have hodd : ¬ 2 * (adu.header.unit :: adu.pdu ++ [lrc (adu.header.unit :: adu.pdu)]).length % 2 ≠ 0 := by omega
  have hshort : ¬ (adu.header.unit :: adu.pdu ++ [lrc (adu.header.unit :: adu.pdu)]).length < 3 := by
    simp
    omega
  unfold decodeText
  rw [Hex.length_encode, if_neg hodd, Hex.decode_encode]
  simp only [if_neg hshort, List.dropLast_concat, List.getLast?_concat, ne_eq, not_true_eq_false, if_false]
  rfl

theorem delimits {adu : Adu} (h : adu.IsSendable) : envelope.Delimits (encode adu) adu.anonymous := by
  have htext := isText_encode (adu.header.unit :: adu.pdu ++ [lrc (adu.header.unit :: adu.pdu)])
  have hstart : (start : UInt8) ≠ 13 := by decide
  have hline : ∀ c ∈ start :: Hex.encode (adu.header.unit :: adu.pdu ++ [lrc (adu.header.unit :: adu.pdu)]),
      c ≠ 13 := List.forall_mem_cons.mpr ⟨hstart, fun c hc => (htext c hc).2⟩
  have hlength : (encode adu).length ≤ maxSize := by
    have := h.2
    simp only [encode, ending, maxSize, frameSize, List.length_cons, List.length_append, Hex.length_encode,
      List.length_nil]
    omega
  refine ⟨?_, ?_⟩
  · show decode (encode adu) = _
    unfold decode encode
    rw [List.dropWhile_cons_of_neg (by simp)]
    have hsplit := splitLine_ending hline []
    rw [List.cons_append] at hsplit
    simp only [ending, hsplit, afterStart_cons fun c hc => (htext c hc).1, decodeText_encode h]
  · intro front back heq hback
    show decode front = _
    have hsplit : splitLine front = none := splitLine_front hline heq hback
    have hdrop : front.dropWhile (· ≠ start) = front := by
      cases front with
      | nil => rfl
      | cons c front =>
          simp only [encode, List.cons_append, List.cons.injEq] at heq
          rw [heq.1, List.dropWhile_cons_of_neg (by simp)]
    have hfront : ¬ maxSize < front.length := by
      rw [← heq, List.length_append] at hlength
      omega
    unfold decode
    simp only [hdrop, hsplit, if_neg hfront]

end Ascii

namespace Rtu

theorem length_encode (adu : Adu) : (encode adu).length = adu.pdu.length + 3 := by
  simp [encode]

theorem decode_encode {adu : Adu} (h : adu.IsSendable) : decode (encode adu) = .ok adu.anonymous := by
  have hpos := List.length_pos_iff.mpr h.1
  have hmax := h.2
  have hshort : ¬ (encode adu).length < minSize := by
    rw [length_encode, minSize]
    omega
  have hlong : ¬ maxSize < (encode adu).length := by
    rw [length_encode, maxSize]
    omega
  have hdata : (encode adu).length - 2 = (adu.header.unit :: adu.pdu).length := by
    rw [length_encode, List.length_cons]
    omega
  unfold decode
  rw [if_neg hshort, if_neg hlong, hdata]
  simp only [encode, List.take_left', List.drop_left', ne_eq, not_true_eq_false, if_false]
  rfl

/-- What a burst says: unit id, PDU and checksum. -/
def Carries (frame : Bytes) (adu : Adu) : Prop :=
  adu.header.transaction = 0 ∧ 1 ≤ adu.pdu.length ∧ adu.pdu.length ≤ 253 ∧
    frame = adu.header.unit :: adu.pdu ++
      [low (Crc.ofBytes (adu.header.unit :: adu.pdu)), high (Crc.ofBytes (adu.header.unit :: adu.pdu))]

theorem decode_eq_ok_iff {frame : Bytes} {adu : Adu} : decode frame = .ok adu ↔ Carries frame adu := by
  constructor
  · intro h
    unfold decode at h
    split at h
    · cases h
    rename_i hshort
    split at h
    · cases h
    rename_i hlong
    dsimp only at h
    split at h
    · cases h
    rename_i hcheck
    have hsplit := List.take_append_drop (frame.length - 2) frame
    have hlength := List.length_take (i := frame.length - 2) (l := frame)
    rw [Decidable.not_not.mp hcheck] at hsplit
    split at h
    · cases h
    rename_i unit pdu hdata
    cases h
    rw [hdata] at hsplit hlength
    have hmin : minSize = 4 := rfl
    have hmax : maxSize = 256 := rfl
    rw [List.length_cons] at hlength
    exact ⟨rfl, by show 1 ≤ pdu.length; omega, by show pdu.length ≤ 253; omega, hsplit.symm⟩
  · rintro ⟨htransaction, hpos, hroom, rfl⟩
    obtain ⟨⟨transaction, unit⟩, pdu⟩ := adu
    obtain rfl : transaction = 0 := htransaction
    exact decode_encode ⟨List.length_pos_iff.mp hpos, hroom⟩

end Rtu

end Modbus
