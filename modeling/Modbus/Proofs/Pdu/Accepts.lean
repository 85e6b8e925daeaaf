import Modbus.Proofs.Pdu.Fields

/-!
# What a reader accepts

`Accepts r P` is the other side of `Reads`: whenever a reader makes a value of what is left, it took some bytes off the
front for it, and the value and these bytes satisfy `P`. Readers that are put together accept what is put together, so
what a reader accepts is found field by field, whatever the bytes are.
-/

namespace Modbus.Pdu

variable {α β : Type} {r : Reader α} {f : α → Reader β} {P : α → Bytes → Prop} {Q : β → Bytes → Prop}

theorem Reader.bind_eq_ok {s rest : Bytes} {b : β} (h : (r >>= f) s = .ok (b, rest)) :
    ∃ a t, r s = .ok (a, t) ∧ f a t = .ok (b, rest) := by
  have h' : (r s >>= fun p => f p.1 p.2) = .ok (b, rest) := h
  cases hr : r s with
  | error e =>
      rw [hr] at h'
      cases h'
  | ok p =>
      rw [hr] at h'
      exact ⟨p.1, p.2, rfl, h'⟩

theorem Reader.need_eq_ok {n : Nat} {s t : Bytes} {u : Unit} (h : Reader.need n s = .ok (u, t)) :
    t = s ∧ n ≤ s.length := by
  unfold Reader.need at h
  split at h
  · cases h
  · cases h
    exact ⟨rfl, Nat.le_of_not_lt ‹_›⟩

/-- Every value that the reader gives stands for the bytes that it took, in the sense of `P`. -/
def Accepts (r : Reader α) (P : α → Bytes → Prop) : Prop :=
  ∀ ⦃s : Bytes⦄ ⦃a : α⦄ ⦃rest : Bytes⦄, r s = .ok (a, rest) → ∃ bs, s = bs ++ rest ∧ P a bs

namespace Accepts

theorem pure {a : α} (h : P a []) : Accepts (pure a) P := by
  rintro s _ _ ⟨⟩
  exact ⟨[], rfl, h⟩

theorem bind (h : Accepts r P) (hf : ∀ a bs, P a bs → Accepts (f a) fun b cs => Q b (bs ++ cs)) :
    Accepts (r >>= f) Q := by
  intro s b rest hs
  obtain ⟨a, t, ha, hb⟩ := Reader.bind_eq_ok hs
  obtain ⟨bs, rfl, hP⟩ := h ha
  obtain ⟨cs, rfl, hQ⟩ := hf a bs hP hb
  exact ⟨bs ++ cs, (List.append_assoc bs cs rest).symm, hQ⟩

theorem mono {P' : α → Bytes → Prop} (h : Accepts r P) (hP : ∀ a bs, P a bs → P' a bs) : Accepts r P' := by
  intro s a rest hs
  obtain ⟨bs, rfl, hbs⟩ := h hs
  exact ⟨bs, rfl, hP a bs hbs⟩

theorem andThen {g : α → Bytes} (h : Accepts r fun a bs => bs = g a)
    (hf : ∀ a, Accepts (f a) fun b cs => Q b (g a ++ cs)) : Accepts (r >>= f) Q := by
  refine h.bind ?_
  rintro a _ rfl
  exact hf a

theorem map {g : α → β} (h : Accepts r P) (hg : ∀ a bs, P a bs → Q (g a) bs) :
    Accepts (r >>= fun a => Pure.pure (g a)) Q := by
  refine h.bind fun a bs hP => .pure ?_
  rw [List.append_nil]
  exact hg a bs hP

theorem andReturn {g : α → Bytes} {v : α → β} (h : Accepts r fun a bs => bs = g a) (hv : ∀ a, Q (v a) (g a)) :
    Accepts (r >>= fun a => Pure.pure (v a)) Q := by
  refine h.map ?_
  rintro a _ rfl
  exact hv a

theorem fail {e : Error} : Accepts (Reader.fail e) P := nofun

theorem ite {c : Prop} [Decidable c] {x : Reader α} (ht : c → Accepts x P) (he : ¬ c → Accepts r P) :
    Accepts (if c then x else r) P := by
  split
  · exact ht ‹c›
  · exact he ‹¬ c›

theorem guard {c : Prop} [Decidable c] {e : Error} {k : β → Reader α} (h : ¬ c → Accepts r P) :
    Accepts (if c then Reader.fail e >>= k else r) P :=
  .ite (fun _ => fail.bind (P := fun _ _ => False) fun _ _ h => h.elim) h

theorem need {n : Nat} (h : Accepts r P) : Accepts (do Reader.need n; r) P := by
  intro s a rest hs
  obtain ⟨_, t, hn, ht⟩ := Reader.bind_eq_ok hs
  obtain ⟨rfl, _⟩ := Reader.need_eq_ok hn
  exact h ht

theorem whole (h : Accepts r P) {trailing : Error} {s : Bytes} {a : α} (hs : r.whole trailing s = .ok a) : P a s := by
  unfold Reader.whole at hs
  split at hs
  · cases hs
  · rename_i hr
    cases hs
    obtain ⟨bs, rfl, hP⟩ := h hr
    rwa [List.append_nil]
  · cases hs

/-! ## Fields -/

theorem byte : Accepts Reader.byte fun b bs => bs = [b] := by
  intro s b rest hs
  cases s with
  | nil => cases hs
  | cons b s =>
      cases hs
      exact ⟨[b], rfl, rfl⟩

theorem word : Accepts Reader.word fun w bs => bs = Bytes.ofWord w := by
  intro s w rest hs
  match s, hs with
  | hi :: lo :: s, rfl => exact ⟨[hi, lo], rfl, by simp [Bytes.ofWord]⟩

theorem rest : Accepts Reader.rest fun a bs => bs = a := by
  rintro s _ _ ⟨⟩
  exact ⟨s, (List.append_nil s).symm, rfl⟩

theorem bytes (n : Nat) : Accepts (Reader.bytes n) fun a bs => bs = a ∧ a.length = n := by
  intro s a rest hs
  obtain ⟨_, t, hn, ht⟩ := Reader.bind_eq_ok hs
  obtain ⟨rfl, hlength⟩ := Reader.need_eq_ok hn
  cases ht
  exact ⟨t.take n, (List.take_append_drop n t).symm, rfl, List.length_take_of_le hlength⟩

theorem wordsOf_spec {n : Nat} {bs : Bytes} (h : bs.length = 2 * n) :
    bs = Bytes.ofWords (Reader.wordsOf bs) ∧ (Reader.wordsOf bs).length = n := by
  induction n generalizing bs with
  | zero =>
      rw [List.length_eq_zero_iff.mp h]
      exact ⟨rfl, rfl⟩
  | succ n ih =>
      match bs, h with
      | hi :: lo :: bs, h =>
          have hlength : bs.length = 2 * n := by simpa [Nat.mul_succ] using h
          obtain ⟨hbs, hn⟩ := ih hlength
          refine ⟨?_, congrArg (· + 1) hn⟩
          rw [Reader.wordsOf, Bytes.ofWords_cons, high_word, low_word, ← hbs]

theorem words (n : Nat) : Accepts (Reader.words n) fun ws bs => bs = Bytes.ofWords ws ∧ ws.length = n := by
  refine (bytes (2 * n)).map ?_
  rintro bs _ ⟨rfl, h⟩
  exact wordsOf_spec h

theorem coil : Accepts Reader.coil fun value bs => bs = Bytes.ofWord (if value then 0xFF00 else 0) := by
  refine word.andThen fun w => ?_
  exact .ite (fun hon => .pure (by simp [hon])) fun _ => .ite (fun hoff => .pure (by simp [hoff])) fun _ => fail

theorem reference : Accepts Reader.reference fun _ bs => bs = [fileReference] := by
  refine byte.andThen fun b => .ite (fun _ => fail) fun h => .pure ?_
  rw [List.append_nil, Decidable.not_not.mp h]

/-! ## Repeated fields -/

variable {g : α → Bytes}

theorem many (h : Accepts r fun a bs => bs = g a) {stop fuel : Nat} {s rest : Bytes} {as : List α}
    (hs : r.many stop fuel s = .ok (as, rest)) : s = as.flatMap g ++ rest := by
  -- Whether the loop comes to its mark or is out of fuel, what it has read so far is in front.
  induction fuel generalizing s as with
  | zero =>
      cases hs
      rfl
  | succ fuel ih =>
      unfold Reader.many at hs
      split at hs
      · have hread : (r >>= fun a => r.many stop fuel >>= fun as => Pure.pure (a :: as)) s = .ok (as, rest) := hs
        obtain ⟨a, t, ha, hrest⟩ := Reader.bind_eq_ok hread
        obtain ⟨as, _, has, ⟨⟩⟩ := Reader.bind_eq_ok hrest
        obtain ⟨_, rfl, rfl⟩ := h ha
        rw [ih has, List.flatMap_cons, List.append_assoc]
      · cases hs
        rfl

theorem counted (h : Accepts r fun a bs => bs = g a) :
    Accepts r.counted fun as bs => ∃ count : UInt8, bs = count :: as.flatMap g ∧ count.toNat = (as.flatMap g).length := by
  refine byte.andThen fun count => ?_
  intro s as rest hs
  obtain ⟨_, _, hneed, hread⟩ := Reader.bind_eq_ok hs
  obtain ⟨rfl, hcount⟩ := Reader.need_eq_ok hneed
  obtain ⟨_, _, ⟨⟩, hfill⟩ := Reader.bind_eq_ok hread
  obtain ⟨as', left, hmany, hleft⟩ := Reader.bind_eq_ok hfill
  obtain ⟨_, _, ⟨⟩, hcheck⟩ := Reader.bind_eq_ok hleft
  split at hcheck
  · cases hcheck
  · rename_i hstop
    cases hcheck
    -- A value may be read beyond the count: only the check behind the loop tells how many bytes were taken.
    have hbytes := many h hmany
    have hlength := congrArg List.length hbytes
    rw [List.length_append] at hlength
    exact ⟨as.flatMap g, hbytes, count, rfl, by omega⟩

end Accepts

end Modbus.Pdu

namespace Modbus.Coils

/-! ## Packed coils -/

theorem getElem?_bits (b : UInt8) (i : Nat) : (bits b)[i]?.getD false = b.toNat.testBit i := by
  unfold bits
  rcases Nat.lt_or_ge i 8 with hi | hi
  · simp [hi]
  · have hlt : b.toNat < 2 ^ i :=
      Nat.lt_of_lt_of_le b.toNat_lt (Nat.pow_le_pow_right (by decide) hi)
    simp [hi, Nat.testBit_lt_two_pow hlt]

theorem value_take_bits (b : UInt8) (m : Nat) : value ((bits b).take m) = b.toNat % (1 <<< m) := by
  apply Nat.eq_of_testBit_eq
  intro i
  rw [testBit_value, Nat.one_shiftLeft, Nat.testBit_mod_two_pow, List.getElem?_take]
  split
  · rw [getElem?_bits]
    simp [*]
  · simp [*]

theorem value_bits (b : UInt8) : value (bits b) = b.toNat := by
  have h := value_take_bits b 8
  rwa [List.take_of_length_le (Nat.le_of_eq (length_bits b)), Nat.one_shiftLeft,
    Nat.mod_eq_of_lt b.toNat_lt] at h

theorem pack_bits_append (b : UInt8) (cs : List Bool) : pack (bits b ++ cs) = b :: pack cs := by
  have hsize : size (bits b ++ cs).length = size cs.length + 1 := by
    simp only [size, List.length_append, length_bits]
    omega
  have hhead : (bits b ++ cs).take 8 = bits b := List.take_left' (length_bits b)
  have htail (i : Nat) : (bits b ++ cs).drop (8 * (i + 1)) = cs.drop (8 * i) := by
    rw [Nat.mul_succ, Nat.add_comm, ← List.drop_drop, List.drop_left' (length_bits b)]
  unfold pack
  rw [hsize, List.range_succ_eq_map, List.map_cons, List.map_map]
  simp only [Function.comp_def, Nat.succ_eq_add_one, htail, Nat.mul_zero, List.drop_zero, hhead, value_bits,
    UInt8.ofNat_toNat]

theorem pack_unpack_append (bs : Bytes) (cs : List Bool) : pack (unpack bs ++ cs) = bs ++ pack cs := by
  induction bs with
  | nil => rfl
  | cons b bs ih =>
      have hunpack : unpack (b :: bs) = bits b ++ unpack bs := List.flatMap_cons
      rw [hunpack, List.append_assoc, pack_bits_append, ih, List.cons_append]

theorem pack_unpack (bs : Bytes) : pack (unpack bs) = bs := by
  have h := pack_unpack_append bs []
  rwa [List.append_nil, show pack [] = [] from rfl, List.append_nil] at h

theorem pack_take_bits (b : UInt8) {m : Nat} (hpos : 0 < m) (hle : m ≤ 8) :
    pack ((bits b).take m) = [UInt8.ofNat (b.toNat % (1 <<< m))] := by
  have hlength : ((bits b).take m).length = m := by
    rw [List.length_take, length_bits, Nat.min_eq_left hle]
  have hsize : size m = 1 := by
    unfold size
    omega
  unfold pack
  rw [hlength, hsize, List.range_one, List.map_singleton, Nat.mul_zero, List.drop_zero,
    List.take_of_length_le (by omega), value_take_bits]

/-- Coils that fill their last byte come back as they were. Of a last byte that is not filled the unused bits come back
switched off, and they are its upper ones. -/
theorem pack_take_unpack {bs : Bytes} {n : Nat} (h : bs.length = size n) :
    pack ((unpack bs).take n) = bs ∨
      n % 8 ≠ 0 ∧ ∃ front last, bs = front ++ [last] ∧
        pack ((unpack bs).take n) = front ++ [UInt8.ofNat (last.toNat % (1 <<< (n % 8)))] := by
  unfold size at h
  by_cases hn : n % 8 = 0
  · left
    rw [List.take_of_length_le (by rw [length_unpack]; omega), pack_unpack]
  · right
    obtain ⟨front, last, rfl⟩ : ∃ front last, bs = front ++ [last] :=
      ⟨bs.dropLast, bs.getLast (List.ne_nil_of_length_pos (by omega)), (List.dropLast_concat_getLast _).symm⟩
    rw [List.length_append, List.length_singleton] at h
    -- The coils in front fill whole bytes; the others are the lower bits of the last one.
    have hunpack : unpack (front ++ [last]) = unpack front ++ bits last := by
      simp [unpack]
    have htake : n - (unpack front).length = n % 8 := by
      rw [length_unpack]
      omega
    refine ⟨hn, front, last, rfl, ?_⟩
    rw [hunpack, List.take_append, List.take_of_length_le (by rw [length_unpack]; omega), htake, pack_unpack_append,
      pack_take_bits last (Nat.pos_of_ne_zero hn) (by omega)]

end Modbus.Coils
