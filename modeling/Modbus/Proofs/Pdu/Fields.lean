import Modbus.Pdu.Coils
import Modbus.Pdu.Reader

/-!
# Reading back what was written

`Reads r bs a` says that a reader takes exactly the bytes `bs` off the front of what is left, whatever is behind them,
and makes `a` of them. Readers that are put together read what is put together.
-/

namespace Modbus.Pdu

/-- The reader takes these bytes for this value. -/
def Reads {α : Type} (r : Reader α) (bs : Bytes) (a : α) : Prop := ∀ rest, r (bs ++ rest) = .ok (a, rest)

namespace Reads

variable {α β : Type} {r : Reader α} {bs : Bytes} {a : α}

theorem pure (a : α) : Reads (pure a) [] a := fun _ => rfl

theorem bind {f : α → Reader β} {cs : Bytes} {b : β} (h : Reads r bs a) (hf : Reads (f a) cs b) :
    Reads (r >>= f) (bs ++ cs) b := by
  intro rest
  show (r (bs ++ cs ++ rest) >>= fun p => f p.1 p.2) = _
  rw [List.append_assoc, h]
  exact hf rest

theorem map {f : α → β} (h : Reads r bs a) : Reads (r >>= fun a => Pure.pure (f a)) bs (f a) := by
  rw [← List.append_nil bs]
  exact h.bind (.pure _)

theorem guard {c : Prop} [Decidable c] {x : Reader α} (hc : ¬ c) (h : Reads r bs a) :
    Reads (if c then x else r) bs a := by rwa [if_neg hc]

theorem need {n : Nat} (hn : n ≤ bs.length) (h : Reads r bs a) : Reads (do Reader.need n; r) bs a := by
  intro rest
  have hlt : ¬ (bs ++ rest).length < n := by
    rw [List.length_append]
    omega
  show (Reader.need n (bs ++ rest) >>= fun p => r p.2) = _
  rw [Reader.need, if_neg hlt]
  exact h rest

theorem whole (h : Reads r bs a) (trailing : Error) : r.whole trailing bs = .ok a := by
  have := h []
  rw [List.append_nil] at this
  simp only [Reader.whole, this]

/-! ## Fields -/

theorem byte (b : UInt8) : Reads Reader.byte [b] b := fun _ => rfl

theorem word (w : Word) : Reads Reader.word (Bytes.ofWord w) w := fun rest => Reader.word_cons w rest

theorem bytes (bs : Bytes) {n : Nat} (hn : n = bs.length) : Reads (Reader.bytes n) bs bs := by
  refine Reads.need (Nat.le_of_eq hn) ?_
  intro rest
  subst hn
  simp

theorem words (ws : List Word) {n : Nat} (hn : n = ws.length) : Reads (Reader.words n) (Bytes.ofWords ws) ws := by
  have h := (Reads.bytes (Bytes.ofWords ws) (n := 2 * n) (by simp [hn])).map (f := Reader.wordsOf)
  rwa [Reader.wordsOf_ofWords] at h

theorem coil (value : Bool) : Reads Reader.coil (Bytes.ofWord (if value then 0xFF00 else 0)) value := by
  intro rest
  cases value <;> rfl

theorem reference : Reads Reader.reference [fileReference] () := fun _ => rfl

/-! ## Repeated fields -/

variable {f : α → Bytes} {as : List α}

theorem many (h : ∀ a ∈ as, Reads r (f a) a ∧ 0 < (f a).length) (rest : Bytes) {fuel : Nat}
    (hfuel : as.length ≤ fuel) : r.many rest.length fuel (as.flatMap f ++ rest) = .ok (as, rest) := by
  induction as generalizing fuel with
  | nil =>
      cases fuel with
      | zero => rfl
      | succ fuel => exact if_neg (Nat.lt_irrefl _)
  | cons a as ih =>
      obtain ⟨⟨ha, hpos⟩, has⟩ := List.forall_mem_cons.mp h
      cases fuel with
      | zero => cases hfuel
      | succ fuel =>
          have hlt : rest.length < (f a ++ (as.flatMap f ++ rest)).length := by
            simp only [List.length_append]
            omega
          rw [List.flatMap_cons, List.append_assoc, Reader.many, if_pos hlt, ha]
          show (r.many rest.length fuel (as.flatMap f ++ rest) >>= fun p => Except.ok (a :: p.1, p.2)) = _
          rw [ih has (Nat.le_of_succ_le_succ hfuel)]
          rfl

theorem length_le_flatMap (h : ∀ a ∈ as, 0 < (f a).length) : as.length ≤ (as.flatMap f).length := by
  induction as with
  | nil => exact Nat.zero_le _
  | cons a as ih =>
      obtain ⟨ha, has⟩ := List.forall_mem_cons.mp h
      have := ih has
      simp only [List.flatMap_cons, List.length_append, List.length_cons]
      omega

theorem counted (h : ∀ a ∈ as, Reads r (f a) a ∧ 0 < (f a).length) {n : Nat} (hn : n = (as.flatMap f).length)
    (hbyte : n < 256) : Reads r.counted (UInt8.ofNat n :: as.flatMap f) as := by
  have hcount := UInt8.toNat_ofNat_of_lt' hbyte
  rw [← List.singleton_append]
  refine Reads.bind (Reads.byte _) ?_
  rw [hcount]
  refine Reads.need (Nat.le_of_eq hn) ?_
  intro rest
  have hstop : (as.flatMap f ++ rest).length - n = rest.length := by
    rw [List.length_append]
    omega
  have hfuel : as.length ≤ (as.flatMap f ++ rest).length := by
    have := length_le_flatMap fun a ha => (h a ha).2
    rw [List.length_append]
    omega
  simp only [get, getThe, MonadStateOf.get, StateT.get, Bind.bind, StateT.bind, Except.bind, Pure.pure, Except.pure]
  rw [hstop, many h rest hfuel]
  simp only [ne_eq, not_true_eq_false, if_false]
  rfl

end Reads

end Modbus.Pdu

namespace Modbus.Coils

/-! ## Packed coils -/

theorem testBit_value (cs : List Bool) (i : Nat) : (value cs).testBit i = cs[i]?.getD false := by
  induction cs generalizing i with
  | nil => simp [value]
  | cons c cs ih =>
      cases i with
      | zero =>
          rw [Nat.testBit_zero]
          cases c <;> simp [value]
      | succ i =>
          have hdiv : value (c :: cs) / 2 = value cs := by
            cases c <;> simp only [value, Bool.toNat_true, Bool.toNat_false] <;> omega
          rw [Nat.testBit_succ, hdiv, ih]
          rfl

theorem value_lt (cs : List Bool) : value cs < 1 <<< cs.length := by
  induction cs with
  | nil => exact Nat.one_pos
  | cons c cs ih =>
      have := Bool.toNat_le c
      simp only [value, List.length_cons, Nat.shiftLeft_succ]
      omega

/-- The coils as they come out of whole bytes. -/
def pad (cs : List Bool) : List Bool := cs ++ List.replicate (8 * size cs.length - cs.length) false

theorem length_le (n : Nat) : n ≤ 8 * size n := by
  unfold size
  omega

theorem take_pad (cs : List Bool) : (pad cs).take cs.length = cs := by
  simp [pad]

theorem map_range_getD (cs : List Bool) {n : Nat} (h : cs.length ≤ n) :
    (List.range n).map (fun i => cs[i]?.getD false) = cs ++ List.replicate (n - cs.length) false := by
  apply List.ext_getElem
  · simp only [List.length_map, List.length_range, List.length_append, List.length_replicate]
    omega
  · intro i h₁ h₂
    rw [List.getElem_map, List.getElem_range, List.getElem_append]
    split
    · rename_i hi
      simp [List.getElem?_eq_getElem hi]
    · rename_i hi
      simp [List.getElem?_eq_none (Nat.le_of_not_lt hi)]

theorem flatMap_range {α : Type} (f : Nat → α) (m n : Nat) :
    (List.range n).flatMap (fun i => (List.range m).map fun j => f (m * i + j)) = (List.range (m * n)).map f := by
  induction n with
  | zero => simp
  | succ n ih =>
      rw [List.range_succ, List.flatMap_append, ih, Nat.mul_succ, List.range_add, List.map_append,
        List.flatMap_singleton, List.map_map]
      rfl

theorem bits_value {cs : List Bool} (h : cs.length ≤ 8) :
    bits (UInt8.ofNat (value cs)) = (List.range 8).map fun j => cs[j]?.getD false := by
  have hv := value_lt cs
  have hp : 2 ^ cs.length ≤ 2 ^ 8 := Nat.pow_le_pow_right (by decide) h
  rw [Nat.one_shiftLeft] at hv
  have hn := UInt8.toNat_ofNat_of_lt' (show value cs < 256 by omega)
  unfold bits
  rw [hn]
  exact List.map_congr_left fun j _ => testBit_value cs j

theorem unpack_pack (cs : List Bool) : unpack (pack cs) = pad cs := by
  have hbyte (i : Nat) : bits (UInt8.ofNat (value ((cs.drop (8 * i)).take 8))) =
      (List.range 8).map fun j => cs[8 * i + j]?.getD false := by
    rw [bits_value (List.length_take_le 8 _)]
    refine List.map_congr_left fun j hj => ?_
    rw [List.getElem?_take_of_lt (List.mem_range.mp hj), List.getElem?_drop]
  calc unpack (pack cs)
      = (List.range (size cs.length)).flatMap fun i => bits (UInt8.ofNat (value ((cs.drop (8 * i)).take 8))) := by
        rw [unpack, pack, List.flatMap_map]
    _ = (List.range (size cs.length)).flatMap fun i => (List.range 8).map fun j => cs[8 * i + j]?.getD false := by
        simp only [hbyte]
    _ = (List.range (8 * size cs.length)).map fun k => cs[k]?.getD false :=
        flatMap_range (fun k => cs[k]?.getD false) 8 _
    _ = pad cs := map_range_getD cs (length_le _)

end Modbus.Coils
