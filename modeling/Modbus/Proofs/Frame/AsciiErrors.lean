import Modbus.Proofs.Frame.AsciiStream

/-!
# Errors in ASCII frames

A character that is replaced between the colon and the end of a frame does not move the end. If the text can still be
read, one byte of it has changed, and the sum of the bytes is no longer a multiple of 256. Only the lower case of a
digit goes unnoticed, and it says the same.
-/

namespace Modbus

namespace Hex

theorem IsDigit.lt {c : UInt8} {n : Nat} (h : IsDigit c n) : n < 16 := by
  rcases h with h | h <;> omega

theorem IsDigit.value_eq {c : UInt8} {m n : Nat} (hm : IsDigit c m) (hn : IsDigit c n) : m = n :=
  Option.some.inj ((value?_eq_some_iff.mpr hm).symm.trans (value?_eq_some_iff.mpr hn))

theorem Spells.bytes_eq {text bytes bytes' : Bytes} (h : Spells text bytes) (h' : Spells text bytes') :
    bytes = bytes' :=
  Option.some.inj ((decode_eq_some_iff.mpr h).symm.trans (decode_eq_some_iff.mpr h'))

theorem mem_encode {c : UInt8} {bytes : Bytes} (h : c ∈ encode bytes) : ∃ n, n < 16 ∧ c = digit n := by
  induction bytes with
  | nil => cases h
  | cons b bytes ih =>
      have hb := b.toNat_lt
      rw [encode, List.mem_cons, List.mem_cons] at h
      obtain rfl | rfl | h := h
      · exact ⟨_, by omega, rfl⟩
      · exact ⟨_, by omega, rfl⟩
      · exact ih h

/-- The second character is the first, one of the digits `A` to `F`, in lower case. -/
def IsLowered (c d : UInt8) : Prop := 'A'.toNat ≤ c.toNat ∧ c.toNat ≤ 'F'.toNat ∧ d.toNat = c.toNat + 32

theorem toNat_digit {n : Nat} (h : n < 16) : (digit n).toNat = if n < 10 then 48 + n else 55 + n := by
  unfold digit
  split <;> exact UInt8.toNat_ofNat_of_lt' (by simp [UInt8.size]; omega)

theorem isDigit_iff {n : Nat} (h : n < 16) {d : UInt8} : IsDigit d n ↔ d = digit n ∨ IsLowered (digit n) d := by
  have hdigit := toNat_digit h
  have h0 : '0'.toNat = 48 := rfl
  have hA : 'A'.toNat = 65 := rfl
  have hF : 'F'.toNat = 70 := rfl
  have ha : 'a'.toNat = 97 := rfl
  unfold IsDigit IsLowered
  rw [← UInt8.toNat_inj, h0, hA, hF, ha]
  split at hdigit <;> omega

/-! ## One character replaced -/

section
variable {front back : Bytes} {c d : UInt8}

theorem ofNat_pair_inj {m n m' n' : Nat} (hm : m < 16) (hn : n < 16) (hm' : m' < 16) (hn' : n' < 16)
    (h : UInt8.ofNat (16 * m + n) = UInt8.ofNat (16 * m' + n')) : m = m' ∧ n = n' := by
  have := congrArg UInt8.toNat h
  simp only [UInt8.toNat_ofNat'] at this
  omega

theorem Spells.exists_changed {bytes bytes' : Bytes} (h : Spells (front ++ c :: back) bytes)
    (h' : Spells (front ++ d :: back) bytes') :
    ∃ before b b' after m n, bytes = before ++ b :: after ∧ bytes' = before ++ b' :: after ∧
      IsDigit c m ∧ IsDigit d n ∧ (b = b' → m = n) := by
  generalize htext : front ++ c :: back = text at h
  induction h generalizing front bytes' with
  | nil => simp at htext
  | cons hx hy hspells ih =>
      rcases front with _ | ⟨x, _ | ⟨y, front⟩⟩
      · cases htext
        cases h' with
        | cons hx' hy' hspells' =>
            obtain rfl := hspells.bytes_eq hspells'
            refine ⟨[], _, _, _, _, _, rfl, rfl, hx, hx', fun heq => ?_⟩
            exact (ofNat_pair_inj hx.lt hy.lt hx'.lt hy'.lt heq).1
      · cases htext
        cases h' with
        | cons hx' hy' hspells' =>
            obtain rfl := hspells.bytes_eq hspells'
            refine ⟨[], _, _, _, _, _, rfl, rfl, hy, hy', fun heq => ?_⟩
            exact (ofNat_pair_inj hx.lt hy.lt hx'.lt hy'.lt heq).2
      · cases htext
        cases h' with
        | cons hx' hy' hspells' =>
            obtain ⟨before, b, b', after, m, n, rfl, rfl, hm, hn, hinj⟩ := ih hspells' rfl
            obtain rfl := hx.value_eq hx'
            obtain rfl := hy.value_eq hy'
            exact ⟨_ :: before, b, b', after, m, n, rfl, rfl, hm, hn, hinj⟩

theorem Spells.replace {bytes : Bytes} {n : Nat} (h : Spells (front ++ c :: back) bytes) (hc : IsDigit c n)
    (hd : IsDigit d n) : Spells (front ++ d :: back) bytes := by
  generalize htext : front ++ c :: back = text at h
  induction h generalizing front with
  | nil => simp at htext
  | cons hx hy hspells ih =>
      rcases front with _ | ⟨x, _ | ⟨y, front⟩⟩
      · cases htext
        obtain rfl := hx.value_eq hc
        exact .cons hd hy hspells
      · cases htext
        obtain rfl := hy.value_eq hc
        exact .cons hx hd hspells
      · cases htext
        exact .cons hx hy (ih rfl)

end

end Hex

namespace Ascii

/-- Two texts that both carry a message and differ in one character carry the same, and the character says the same. -/
theorem Carries.eq_of_changed {front back : Bytes} {c d : UInt8} {adu other : Adu}
    (h : Carries (front ++ c :: back) adu) (h' : Carries (front ++ d :: back) other) :
    other = adu ∧ ∃ n, Hex.IsDigit c n ∧ Hex.IsDigit d n := by
  obtain ⟨hheader, _, check, hspells, hsum⟩ := h
  obtain ⟨hheader', _, check', hspells', hsum'⟩ := h'
  obtain ⟨before, b, b', after, m, n, hbytes, hbytes', hc, hd, hinj⟩ := hspells.exists_changed hspells'
  have hb : b = b' := by
    have hlt := b.toNat_lt
    have hlt' := b'.toNat_lt
    rw [hbytes, total_append, total_cons] at hsum
    rw [hbytes', total_append, total_cons] at hsum'
    exact UInt8.toNat_inj.mp (by omega)
  obtain rfl := hinj hb
  obtain ⟨⟨transaction, unit⟩, pdu⟩ := adu
  obtain ⟨⟨transaction', unit'⟩, pdu'⟩ := other
  have hsame := hbytes'.trans (hb ▸ hbytes.symm)
  obtain ⟨hfront, -⟩ := List.append_inj' hsame rfl
  cases hheader
  cases hheader'
  cases hfront
  exact ⟨rfl, m, hc, hd⟩

/-! ## Frames -/

section
variable {adu : Adu} {front back : Bytes} {c d : UInt8}

theorem unended_replaced (htext : text adu = front ++ c :: back) : ¬ ending <:+: front ++ d :: back := by
  intro hinside
  have hchar (x : UInt8) (hx : x ∈ front ++ d :: back) : x = d ∨ 48 ≤ x.toNat := by
    by_cases hd : x = d
    · exact .inl hd
    · have hmem : x ∈ text adu := by
        rw [htext]
        simp only [List.mem_append, List.mem_cons, hd, false_or] at hx ⊢
        exact hx.imp_right .inr
      obtain ⟨n, hn, rfl⟩ := Hex.mem_encode hmem
      have hdigit := Hex.toNat_digit hn
      split at hdigit <;> omega
  have hreturn := hchar 13 (hinside.subset (by simp [ending]))
  have hfeed := hchar 10 (hinside.subset (by simp [ending]))
  obtain rfl : 13 = d := hreturn.resolve_right (by decide)
  exact absurd (hfeed.resolve_right (by decide)) (by decide)

theorem start_not_mem_replaced (htext : text adu = front ++ c :: back) (hd : d ≠ start) :
    ∀ x ∈ front ++ d :: back, x ≠ start := by
  have hquiet (x : UInt8) (hx : x ∈ front ++ c :: back) : x ≠ start := text_quiet adu x (htext ▸ hx)
  simp only [List.mem_append, List.mem_cons] at hquiet ⊢
  rintro x (hx | rfl | hx)
  · exact hquiet x (.inl hx)
  · exact hd
  · exact hquiet x (.inr (.inr hx))

/-- A frame with one character replaced is found whole. It is the message if the character has become lower case, and
is discarded if anything else has happened to it. -/
theorem collect_replaced (h : adu.IsSendable) (hencode : encode adu = segment (front ++ c :: back)) (hd : d ≠ start) :
    ∃ frame, (∀ pieces, pieces.flatten = segment (front ++ d :: back) → envelope.collect pieces = ([frame], [])) ∧
      (frame = .ok adu.anonymous ∨ ∃ reason, frame = .error reason) ∧
      (frame = .ok adu.anonymous ↔ d = c ∨ Hex.IsLowered c d) := by
  have htext : text adu = front ++ c :: back := by
    rw [← segment_text] at hencode
    exact List.append_cancel_right (List.cons.inj hencode).2
  have unended := unended_replaced (d := d) htext
  have hread : read (front ++ d :: back) = decodeText (front ++ d :: back) :=
    congrArg decodeText (afterStart_cons (start_not_mem_replaced htext hd))
  have hcarries : Carries (front ++ c :: back) adu.anonymous := by
    rw [← decodeText_eq_ok_iff, ← htext]
    exact decodeText_encode h
  obtain ⟨n, hn, rfl⟩ : ∃ n, n < 16 ∧ c = Hex.digit n :=
    Hex.mem_encode (show c ∈ text adu by rw [htext]; simp)
  have hc : Hex.IsDigit (Hex.digit n) n := (Hex.isDigit_iff hn).mpr (.inl rfl)
  refine ⟨read (front ++ d :: back), fun pieces hpieces => ?_, ?_, ?_⟩
  · have segments : Segments pieces.flatten [front ++ d :: back] [] := by
      have := Segments.line List.not_mem_nil unended (.noise List.not_mem_nil)
      rwa [List.nil_append, List.append_nil, ← hpieces] at this
    have fit : Fit [front ++ d :: back] [] := by
      have hlength : (segment (front ++ d :: back)).length = (segment (text adu)).length := by simp [htext, segment]
      exact ⟨List.forall_mem_singleton.mpr (hlength ▸ length_segment_text h), Nat.zero_le _⟩
    exact collect_eq segments fit
  · rw [hread]
    cases hdecode : decodeText (front ++ d :: back) with
    | error reason => exact .inr ⟨reason, rfl⟩
    | ok other => exact .inl (congrArg _ (hcarries.eq_of_changed (decodeText_eq_ok_iff.mp hdecode)).1)
  · rw [hread, decodeText_eq_ok_iff, ← Hex.isDigit_iff hn]
    constructor
    · intro hchanged
      obtain ⟨-, m, hm, hdigit⟩ := hcarries.eq_of_changed hchanged
      exact hc.value_eq hm ▸ hdigit
    · intro hdigit
      obtain ⟨hheader, hpdu, check, hspells, hsum⟩ := hcarries
      exact ⟨hheader, hpdu, check, hspells.replace hc hdigit, hsum⟩

end

/-- Of the message `03` to the unit 1 the second digit of the checksum `FC` is turned into lower case, and into a
carriage return. -/
theorem collect_replaced_last_digit :
    envelope.collect [[58, 48, 49, 48], [51, 70, 99, 13, 10]] = ([.ok ⟨⟨0, 1⟩, [3]⟩], []) ∧
      ∃ reason, envelope.collect [[58, 48, 49, 48, 51, 70, 13, 13], [10]] = ([.error reason], []) := by
  have sendable : Adu.IsSendable ⟨⟨0, 1⟩, [3]⟩ := ⟨by decide, by decide⟩
  have hencode : encode ⟨⟨0, 1⟩, [3]⟩ = segment ([48, 49, 48, 51, 70] ++ 67 :: []) := by decide
  obtain ⟨frame, hcollect, -, hiff⟩ := collect_replaced (d := 99) sendable hencode (by decide)
  obtain ⟨frame', hcollect', hframe', hiff'⟩ := collect_replaced (d := 13) sendable hencode (by decide)
  have hsame : frame = .ok ⟨⟨0, 1⟩, [3]⟩ := hiff.mpr (.inr ⟨by decide, by decide, by decide⟩)
  have hother : ¬ ((13 : UInt8) = 67 ∨ Hex.IsLowered 67 13) := by
    rintro (heq | ⟨-, -, heq⟩) <;> exact absurd heq (by decide)
  obtain ⟨reason, hreason⟩ := hframe'.resolve_left (mt hiff'.mp hother)
  exact ⟨hsame ▸ hcollect _ rfl, reason, hreason ▸ hcollect' _ rfl⟩

end Ascii

end Modbus
