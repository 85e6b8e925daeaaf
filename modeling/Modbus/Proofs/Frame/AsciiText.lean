import Modbus.Frame.Ascii
import Modbus.Total

/-!
# The text of ASCII frames

The text between a colon and the end of a frame spells the bytes of a message in hexadecimal digits of either case, with
a checksum that completes the sum of all bytes to a multiple of 256. A text is accepted exactly if it does.
-/

namespace Modbus

namespace Hex

def IsDigit (c : UInt8) (n : Nat) : Prop :=
  (n < 10 ∧ c.toNat = '0'.toNat + n) ∨
    (10 ≤ n ∧ n < 16 ∧ (c.toNat = 'A'.toNat + (n - 10) ∨ c.toNat = 'a'.toNat + (n - 10)))

/-- The text consists of two digits for each byte, high digit first. -/
inductive Spells : Bytes → Bytes → Prop
  | nil : Spells [] []
  | cons {c d m n text bytes} (hc : IsDigit c m) (hd : IsDigit d n) :
      Spells text bytes → Spells (c :: d :: text) (UInt8.ofNat (16 * m + n) :: bytes)

theorem value?_eq_some_iff {c : UInt8} {n : Nat} : value? c = some n ↔ IsDigit c n := by
  have h0 : '0'.toNat = 48 := rfl
  have hA : 'A'.toNat = 65 := rfl
  have ha : 'a'.toNat = 97 := rfl
  unfold value? IsDigit
  rw [h0, hA, ha]
  split
  · rw [Option.some.injEq]
    omega
  split
  · rw [Option.some.injEq]
    omega
  split
  · rw [Option.some.injEq]
    omega
  · simp only [reduceCtorEq, false_iff]
    omega

theorem decode_eq_some_iff {text bytes : Bytes} : decode text = some bytes ↔ Spells text bytes := by
  constructor
  · intro h
    fun_induction decode text generalizing bytes with
    | case1 =>
        cases h
        exact .nil
    | case2 => cases h
    | case3 c d text m n hn hm ih =>
        obtain ⟨bytes, htext, rfl⟩ := Option.map_eq_some_iff.mp h
        exact .cons (value?_eq_some_iff.mp hm) (value?_eq_some_iff.mp hn) (ih htext)
    | case4 => cases h
  · intro h
    induction h with
    | nil => rfl
    | cons hc hd _ ih => simp only [decode, value?_eq_some_iff.mpr hc, value?_eq_some_iff.mpr hd, ih, Option.map_some]

theorem Spells.length_eq {text bytes : Bytes} (h : Spells text bytes) : text.length = 2 * bytes.length := by
  induction h with
  | nil => rfl
  | cons _ _ _ ih =>
      simp only [List.length_cons, ih]
      omega

end Hex

theorem toNat_foldr_add (bs : Bytes) : (bs.foldr (· + ·) 0).toNat = total UInt8.toNat bs % 256 := by
  induction bs with
  | nil => rfl
  | cons b bs ih =>
      rw [List.foldr_cons, UInt8.toNat_add, ih, total_cons]
      omega

theorem eq_lrc_iff {check : UInt8} {bs : Bytes} : check = lrc bs ↔ total UInt8.toNat (bs ++ [check]) % 256 = 0 := by
  have hcheck := check.toNat_lt
  rw [lrc, ← UInt8.toNat_inj, UInt8.toNat_neg, toNat_foldr_add, total_append, total_cons, total_nil, UInt8.size]
  omega

namespace Ascii

/-- What the text between a colon and the end of a frame says. -/
def Carries (text : Bytes) (adu : Adu) : Prop :=
  adu.header.transaction = 0 ∧ adu.pdu ≠ [] ∧ ∃ check,
    Hex.Spells text (adu.header.unit :: adu.pdu ++ [check]) ∧
      total UInt8.toNat (adu.header.unit :: adu.pdu ++ [check]) % 256 = 0

theorem decodeText_eq_ok_iff {text : Bytes} {adu : Adu} : decodeText text = .ok adu ↔ Carries text adu := by
  constructor
  · intro h
    unfold decodeText at h
    split at h
    · cases h
    split at h
    · cases h
    rename_i data hdata
    split at h
    · cases h
    rename_i hlength
    dsimp only at h
    split at h
    · cases h
    rename_i hlast
    rw [Decidable.not_not] at hlast
    split at h
    · cases h
    rename_i unit pdu hbody
    cases h
    rw [hbody] at hlast
    obtain ⟨body, rfl⟩ := List.getLast?_eq_some_iff.mp hlast
    rw [List.dropLast_concat] at hbody
    obtain rfl := hbody
    refine ⟨rfl, ?_, _, Hex.decode_eq_some_iff.mp hdata, eq_lrc_iff.mp rfl⟩
    rintro rfl
    exact hlength (by simp)
  · rintro ⟨hheader, hpdu, check, hspells, hsum⟩
    have hpos := List.length_pos_iff.mpr hpdu
    obtain rfl := eq_lrc_iff.mpr hsum
    have heven : ¬ text.length % 2 ≠ 0 := by
      rw [hspells.length_eq]
      omega
    have hlength : ¬ (adu.header.unit :: adu.pdu ++ [lrc (adu.header.unit :: adu.pdu)]).length < 3 := by
      simp only [List.length_append, List.length_cons, List.length_nil]
      omega
    unfold decodeText
    rw [if_neg heven, Hex.decode_eq_some_iff.mpr hspells]
    simp only [if_neg hlength, List.dropLast_concat, List.getLast?_concat, ne_eq, not_true_eq_false, if_false]
    obtain ⟨⟨_, unit⟩, pdu⟩ := adu
    cases hheader
    rfl

end Ascii

end Modbus
