import Modbus.Proofs.Frame.Boundaries
import Modbus.Proofs.Pdu.Accepts

/-!
# Errors in RTU frames

The checksum register takes the bits of a frame in the order of the line, and it is linear over exclusive or: with an
error it becomes what it is without, changed by what the error alone makes of an empty register. A frame leaves the
register empty, and a burst does not: its 16 bits fit into the register, and the shift never empties one.
-/

namespace Modbus

namespace Coils

theorem value_append (front back : List Bool) :
    value (front ++ back) = value front + value back <<< front.length := by
  induction front with
  | nil => simp [value]
  | cons b front ih =>
      rw [List.cons_append, value, value, ih, List.length_cons, Nat.shiftLeft_succ, Nat.mul_add, Nat.add_assoc]

theorem value_cons_eq_xor (b : Bool) (bits : List Bool) :
    value (b :: bits) = b.toNat ^^^ 2 * value bits := by
  have hb := b.toNat_le
  apply Nat.eq_of_testBit_eq
  intro i
  rw [value, Nat.testBit_xor]
  cases i with
  | zero => cases b <;> simp [Nat.testBit_zero]
  | succ i =>
      have hsum : (b.toNat + 2 * value bits) / 2 = value bits := by omega
      have hlow : b.toNat / 2 = 0 := by omega
      have hhigh : 2 * value bits / 2 = value bits := by omega
      rw [Nat.testBit_succ, Nat.testBit_succ, Nat.testBit_succ, hsum, hlow, hhigh, Nat.zero_testBit, Bool.false_xor]

theorem value_lt_of_length_le {bits : List Bool} {n : Nat} (h : bits.length ≤ n) : value bits < 1 <<< n := by
  have hlt := value_lt bits
  rw [Nat.one_shiftLeft] at hlt ⊢
  exact Nat.lt_of_lt_of_le hlt (Nat.pow_le_pow_right (by decide) h)

end Coils

namespace Crc

/-! ## The shift -/

theorem shift_eq (crc : UInt16) : shift crc = crc >>> 1 ^^^ bif crc.toNat.testBit 0 then 0xA001 else 0 := by
  have hlow : crc &&& 1 = 1 ↔ crc.toNat.testBit 0 = true := by
    rw [Nat.testBit_zero, decide_eq_true_iff, ← UInt16.toNat_inj, UInt16.toNat_and]
    exact iff_of_eq (congrArg (· = 1) (Nat.and_one_is_mod _))
  unfold shift
  by_cases h : crc &&& 1 = 1
  · rw [if_pos h, hlow.mp h, cond_true]
  · rw [if_neg h, Bool.eq_false_iff.mpr (mt hlow.mpr h), cond_false, UInt16.xor_zero]

theorem shift_xor (a b : UInt16) : shift (a ^^^ b) = shift a ^^^ shift b := by
  simp only [shift_eq, UInt16.toNat_xor, Nat.testBit_xor, UInt16.shiftRight_xor]
  cases a.toNat.testBit 0 <;> cases b.toNat.testBit 0
  · simp
  · simp [UInt16.xor_assoc]
  · simp only [Bool.xor_false, cond_true, cond_false]
    ac_rfl
  · have hcancel (p : UInt16) : a >>> 1 ^^^ p ^^^ (b >>> 1 ^^^ p) = a >>> 1 ^^^ b >>> 1 ^^^ (p ^^^ p) := by
      ac_rfl
    simp [hcancel]

theorem toNat_shiftRight_one (crc : UInt16) : (crc >>> 1).toNat = crc.toNat / 2 := by
  rw [UInt16.toNat_shiftRight]
  exact Nat.shiftRight_eq_div_pow _ 1

/-- The lowest bit of a register is not lost: the polynomial puts it in the highest place. -/
theorem shift_eq_zero_iff {crc : UInt16} : shift crc = 0 ↔ crc = 0 := by
  have hlt := crc.toNat_lt
  rw [shift_eq, UInt16.xor_eq_zero_iff, ← UInt16.toNat_inj, ← UInt16.toNat_inj, toNat_shiftRight_one]
  cases h : crc.toNat.testBit 0 with
  | false =>
      rw [Nat.testBit_zero, decide_eq_false_iff_not] at h
      show crc.toNat / 2 = 0 ↔ crc.toNat = 0
      omega
  | true =>
      rw [Nat.testBit_zero, decide_eq_true_iff] at h
      show crc.toNat / 2 = 40961 ↔ crc.toNat = 0
      omega

theorem shift_double {v : Nat} (h : v < 32768) : shift (UInt16.ofNat (2 * v)) = UInt16.ofNat v := by
  have hdouble : (UInt16.ofNat (2 * v)).toNat = 2 * v := UInt16.toNat_ofNat_of_lt' (by simp [UInt16.size]; omega)
  have hv : (UInt16.ofNat v).toNat = v := UInt16.toNat_ofNat_of_lt' (by simp [UInt16.size]; omega)
  have heven : (2 * v).testBit 0 = false := by simp [Nat.testBit_zero]
  rw [shift_eq, hdouble, heven, cond_false, UInt16.xor_zero, ← UInt16.toNat_inj, toNat_shiftRight_one, hdouble, hv,
    Nat.mul_div_cancel_left v (by decide)]

/-! ## Bits taken in the order of the line -/

def bit (crc : UInt16) (b : Bool) : UInt16 := shift (crc ^^^ UInt16.ofNat b.toNat)

def feed (crc : UInt16) (bits : List Bool) : UInt16 := bits.foldl bit crc

@[simp] theorem feed_nil (crc : UInt16) : feed crc [] = crc := rfl

@[simp] theorem feed_cons (crc : UInt16) (b : Bool) (bits : List Bool) :
    feed crc (b :: bits) = feed (shift (crc ^^^ UInt16.ofNat b.toNat)) bits := rfl

theorem feed_false_cons (crc : UInt16) (bits : List Bool) : feed crc (false :: bits) = feed (shift crc) bits := by
  rw [feed_cons, Bool.toNat_false, show UInt16.ofNat 0 = 0 from rfl, UInt16.xor_zero]

theorem feed_append (crc : UInt16) (front back : List Bool) :
    feed crc (front ++ back) = feed (feed crc front) back := List.foldl_append

/-- Up to 16 bits are taken as if they were put into the register at once and zeros came in. -/
theorem feed_eq (crc : UInt16) {bits : List Bool} (h : bits.length ≤ 16) :
    feed crc bits = feed (crc ^^^ UInt16.ofNat (Coils.value bits)) (List.replicate bits.length false) := by
  induction bits generalizing crc with
  | nil => simp [Coils.value]
  | cons b bits ih =>
      rw [List.length_cons] at h
      have hvalue : Coils.value bits < 32768 := @Coils.value_lt_of_length_le bits 15 (by omega)
      rw [feed_cons, ih _ (by omega), List.length_cons, List.replicate_succ, feed_false_cons, Coils.value_cons_eq_xor,
        UInt16.ofNat_xor, ← UInt16.xor_assoc, shift_xor _ (UInt16.ofNat (2 * _)), shift_double hvalue]

theorem feed_zeros_eq_zero_iff {crc : UInt16} (n : Nat) : feed crc (List.replicate n false) = 0 ↔ crc = 0 := by
  induction n generalizing crc with
  | zero => rfl
  | succ n ih =>
      rw [List.replicate_succ, feed_false_cons, ih, shift_eq_zero_iff]

theorem feed_ne_zero {bits : List Bool} (h : bits.length ≤ 16) (hset : true ∈ bits) : feed 0 bits ≠ 0 := by
  intro hzero
  rw [feed_eq 0 h, feed_zeros_eq_zero_iff, UInt16.zero_xor] at hzero
  have hvalue : Coils.value bits = 0 := by
    rw [← UInt16.toNat_ofNat_of_lt' (Coils.value_lt_of_length_le h), hzero, UInt16.toNat_zero]
  obtain ⟨i, hi⟩ := List.getElem?_of_mem hset
  have hbit := Coils.testBit_value bits i
  rw [hvalue, Nat.zero_testBit, hi] at hbit
  cases hbit

theorem step_eq (crc : UInt16) (b : UInt8) : step crc b = feed crc (Coils.bits b) := by
  rw [feed_eq crc (by simp), Coils.length_bits, Coils.value_bits]
  simp [List.replicate_succ, step, Nat.repeat]

theorem foldl_step (crc : UInt16) (bs : Bytes) : bs.foldl step crc = feed crc (Coils.unpack bs) := by
  induction bs generalizing crc with
  | nil => rfl
  | cons b bs ih =>
      rw [List.foldl_cons, ih, step_eq, ← feed_append]
      rfl

/-! ## Errors -/

theorem step_xor (c d : UInt16) (a b : UInt8) : step (c ^^^ d) (a ^^^ b) = step c a ^^^ step d b := by
  have harrange : c ^^^ d ^^^ (a.toUInt16 ^^^ b.toUInt16) = c ^^^ a.toUInt16 ^^^ (d ^^^ b.toUInt16) := by
    ac_rfl
  simp only [step, Nat.repeat, UInt8.toUInt16_xor, harrange, shift_xor]

theorem foldl_step_xor {bytes error : Bytes} (h : error.length = bytes.length) (c d : UInt16) :
    (List.zipWith (· ^^^ ·) bytes error).foldl step (c ^^^ d) = bytes.foldl step c ^^^ error.foldl step d := by
  induction bytes generalizing error c d with
  | nil =>
      obtain rfl := List.eq_nil_of_length_eq_zero h
      rfl
  | cons b bytes ih =>
      cases error with
      | nil => cases h
      | cons e error =>
          rw [List.zipWith_cons_cons, List.foldl_cons, List.foldl_cons, List.foldl_cons, step_xor,
            ih (Nat.succ.inj h)]

theorem ofBytes_xor {bytes error : Bytes} (h : error.length = bytes.length) :
    ofBytes (List.zipWith (· ^^^ ·) bytes error) = ofBytes bytes ^^^ error.foldl step 0 :=
  foldl_step_xor h 0xFFFF 0

theorem ofBytes_append_checksum (bs : Bytes) : ofBytes (bs ++ [low (ofBytes bs), high (ofBytes bs)]) = 0 := by
  have hsum : UInt16.ofNat (Coils.value (Coils.unpack [low (ofBytes bs), high (ofBytes bs)])) = ofBytes bs := by
    have hlow := toNat_low (ofBytes bs)
    have hhigh := toNat_high (ofBytes bs)
    have hvalue : Coils.value (Coils.unpack [low (ofBytes bs), high (ofBytes bs)]) = (ofBytes bs).toNat := by
      rw [Coils.unpack, List.flatMap_cons, List.flatMap_singleton, Coils.value_append, Coils.value_bits,
        Coils.value_bits, Coils.length_bits, hlow, hhigh]
      omega
    rw [hvalue, UInt16.ofNat_toNat]
  rw [ofBytes, List.foldl_append, ← ofBytes, foldl_step, feed_eq _ (by simp), hsum, UInt16.xor_self,
    feed_zeros_eq_zero_iff]

end Crc

namespace Rtu

/-- The error is not zero, and it lies within 16 bits as they follow on the line. -/
def IsBurst (error : Bytes) : Prop :=
  ∃ before burst after, Coils.unpack error = List.replicate before false ++ burst ++ List.replicate after false ∧
    burst.length ≤ 16 ∧ true ∈ burst

theorem IsBurst.foldl_step_ne_zero {error : Bytes} (h : IsBurst error) : error.foldl Crc.step 0 ≠ 0 := by
  obtain ⟨before, burst, after, hunpack, hshort, hset⟩ := h
  rw [Crc.foldl_step, hunpack, Crc.feed_append, Crc.feed_append, (Crc.feed_zeros_eq_zero_iff before).mpr rfl, ne_eq,
    Crc.feed_zeros_eq_zero_iff]
  exact Crc.feed_ne_zero hshort hset

theorem Carries.ofBytes_eq_zero {frame : Bytes} {adu : Adu} (h : Carries frame adu) : Crc.ofBytes frame = 0 := by
  rw [h.2.2.2]
  exact Crc.ofBytes_append_checksum _

theorem decode_of_length {frame : Bytes} (hmin : minSize ≤ frame.length) (hmax : frame.length ≤ maxSize) :
    decode frame = .error .crcMismatch ∨ ∃ adu, decode frame = .ok adu := by
  have hdata : (frame.take (frame.length - 2)).length ≠ 0 := by
    have : minSize = 4 := rfl
    rw [List.length_take]
    omega
  unfold decode
  rw [if_neg (by omega), if_neg (by omega)]
  dsimp only
  split
  · exact .inl rfl
  · cases htake : frame.take (frame.length - 2) with
    | nil => exact absurd (congrArg List.length htake) hdata
    | cons unit pdu => exact .inr ⟨_, rfl⟩

/-- A frame comes back as it was, and one that a burst has hit is discarded. -/
theorem decode_burst {adu : Adu} (h : adu.IsSendable) :
    decode (encode adu) = .ok adu.anonymous ∧
      ∀ error, error.length = (encode adu).length → IsBurst error →
        decode (List.zipWith (· ^^^ ·) (encode adu) error) = .error .crcMismatch := by
  have hdecode := decode_encode h
  refine ⟨hdecode, fun error hlength hburst => ?_⟩
  have hempty := (decode_eq_ok_iff.mp hdecode).ofBytes_eq_zero
  have hchanged : Crc.ofBytes (List.zipWith (· ^^^ ·) (encode adu) error) = error.foldl Crc.step 0 := by
    rw [Crc.ofBytes_xor hlength, hempty, UInt16.zero_xor]
  have hsize : (List.zipWith (· ^^^ ·) (encode adu) error).length = adu.pdu.length + 3 := by
    rw [List.length_zipWith, hlength, Nat.min_self, length_encode]
  have hpos := List.length_pos_iff.mpr h.1
  have hroom := h.2
  have hmin : minSize = 4 := rfl
  have hmax : maxSize = Pdu.maxSize + 3 := rfl
  rcases @decode_of_length (List.zipWith (· ^^^ ·) (encode adu) error) (by omega) (by omega) with
    hmismatch | ⟨other, hother⟩
  · exact hmismatch
  · exact absurd (hchanged.symm.trans (decode_eq_ok_iff.mp hother).ofBytes_eq_zero) hburst.foldl_step_ne_zero

/-- Sixteen bits in a row are flipped, the first of them in the PDU and the others in the checksum. -/
theorem decode_burst_across_checksum :
    decode (List.zipWith (· ^^^ ·) (encode ⟨⟨0, 17⟩, [3, 0, 1, 0, 2]⟩) [0, 0, 0, 0, 0, 0x80, 0xFF, 0x7F]) =
      .error .crcMismatch :=
  (@decode_burst ⟨⟨0, 17⟩, [3, 0, 1, 0, 2]⟩ ⟨by decide, by decide⟩).2 _ (by rw [length_encode]; rfl)
    ⟨47, List.replicate 16 true, 1, by decide, by decide, by decide⟩

end Rtu

end Modbus
