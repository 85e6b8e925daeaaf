import Mathlib.Data.Set.Card
import Modbus.Proofs.History
import Modbus.Proofs.Image.Effects

/-!
# Banks as sparse maps

Whatever is done to a bank, and whatever of it is refused, its content is told by the changes that were granted: each of
them has the last word on its address until the next one that concerns it. What is refused, which addresses are listed
and what a read of a range gives depend on that content alone.
-/

namespace Modbus

theorem Address.mem_span_self (addr : Address) (n : Nat) : addr ∈ addr.span (n + 1) := ⟨Nat.le_refl _, by omega⟩

theorem Address.eq_add_of_mem_span {addr a : Address} {n : Nat} (h : a ∈ addr.span n) :
    ∃ i < n, a = addr + UInt16.ofNat i := by
  obtain ⟨hle, hlt⟩ := h
  have ha := a.toNat_lt
  refine ⟨a.toNat - addr.toNat, by omega, ?_⟩
  rw [← UInt16.toNat_inj, UInt16.toNat_add, UInt16.toNat_ofNat']
  omega

namespace Bank

variable {α : Type}

/-! ## Changes -/

inductive Change (α : Type)
  | add (addr : Address) (value : α) (writable : Bool)
  | set (addr : Address) (value : α)
  | setWritable (addr : Address) (writable : Bool)
  | write (addr : Address) (value : α)
  | remove (addr : Address)

/-- What comes of a change: a removal tells the value that there was. -/
abbrev Outcome (α : Type) := Except ImageError (Option α)

namespace Change

/-- What the change leaves at an address, if it decides about the value there. -/
def leaves (addr : Address) : Change α → Option (Option α)
  | add a value _ | set a value | write a value => if a = addr then some (some value) else none
  | setWritable .. => none
  | remove a => if a = addr then some none else none

def opens (addr : Address) : Change α → Option (Option Bool)
  | add a _ writable | setWritable a writable => if a = addr then some (some writable) else none
  | set .. | write .. => none
  | remove a => if a = addr then some none else none

/-- What comes of a change in view of the values and access rights that there are. -/
def outcome (values : Address → Option α) (rights : Address → Option Bool) : Change α → Outcome α
  | add a .. => if (values a).isSome then .error (.duplicateAddress a) else .ok none
  | set a _ | setWritable a _ => if (values a).isNone then .error (.illegalAddress a) else .ok none
  | write a _ =>
    if (values a).isNone then .error (.illegalAddress a)
    else if rights a = some true then .ok none
    else .error (.readOnly a)
  | remove a => .ok (values a)

end Change

variable {b b' : Bank α} {addr : Address} {c : Change α}

def perform (b : Bank α) : Change α → Outcome α × Bank α
  | .add addr value writable => History.attempt b (b.add addr value writable)
  | .set addr value => History.attempt b (b.set addr value)
  | .setWritable addr writable => History.attempt b (b.setWritable addr writable)
  | .write addr value => History.attempt b (b.write addr value)
  | .remove addr => (.ok (b.value? addr), b.remove addr)

def writable? (b : Bank α) (addr : Address) : Option Bool := b.cells[addr]?.map (·.writable)

theorem value?_insert (b : Bank α) (addr a : Address) (cell : Cell α) :
    value? ⟨b.cells.insert addr cell⟩ a = if addr = a then some cell.value else b.value? a := by
  unfold value?
  rw [cells_insert]
  split <;> rfl

theorem writable?_insert (b : Bank α) (addr a : Address) (cell : Cell α) :
    writable? ⟨b.cells.insert addr cell⟩ a = if addr = a then some cell.writable else b.writable? a := by
  unfold writable?
  rw [cells_insert]
  split <;> rfl

theorem cells_erase (b : Bank α) (addr a : Address) :
    (b.cells.erase addr)[a]? = if addr = a then none else b.cells[a]? := by
  simp only [Std.ExtTreeMap.getElem?_erase, Std.compare_eq_iff_eq]

theorem mem_cells_iff : addr ∈ b.cells ↔ (b.value? addr).isSome := by
  rw [value?, Option.isSome_map, Std.ExtTreeMap.mem_iff_isSome_getElem?]

/-- What a change that is granted decides about. -/
structure Changes (b : Bank α) (c : Change α) (b' : Bank α) : Prop where
  values (addr : Address) : b'.value? addr = (c.leaves addr).getD (b.value? addr)
  rights (addr : Address) : b'.writable? addr = (c.opens addr).getD (b.writable? addr)

theorem change_value {a : Address} {cell : Cell α} (hcell : b.cells[a]? = some cell) (value : α) :
    b.Changes (.set a value) ⟨b.cells.insert a { cell with value }⟩ := by
  refine ⟨fun addr => ?_, fun addr => ?_⟩
  · rw [value?_insert, Change.leaves]
    split <;> rfl
  · rw [writable?_insert]
    split
    · rename_i ha
      rw [← ha, writable?, hcell]
      rfl
    · rfl

theorem change_writable {a : Address} {cell : Cell α} (hcell : b.cells[a]? = some cell) (writable : Bool) :
    b.Changes (.setWritable a writable) ⟨b.cells.insert a { cell with writable }⟩ := by
  refine ⟨fun addr => ?_, fun addr => ?_⟩
  · rw [value?_insert]
    split
    · rename_i ha
      rw [← ha, value?, hcell]
      rfl
    · rfl
  · rw [writable?_insert, Change.opens]
    split <;> rfl

theorem perform_refused {e : ImageError} (h : (b.perform c).1 = .error e) : (b.perform c).2 = b := by
  cases c with
  | remove a => exact nomatch h
  | add a v w | set a v | setWritable a w | write a v => exact History.attempt_refused h

/-- What comes of a change is told by what the bank holds, and a change that is granted decides about its own address
only. -/
theorem perform_spec (b : Bank α) (c : Change α) :
    (b.perform c).1 = c.outcome b.value? b.writable? ∧
      ∀ told, (b.perform c).1 = .ok told → b.Changes c (b.perform c).2 := by
  cases c with
  | add a v w =>
      simp only [perform, add, mem_cells_iff, Change.outcome]
      by_cases hvalue : (b.value? a).isSome = true
      · simp only [if_pos hvalue]
        exact ⟨rfl, by rintro _ ⟨⟩⟩
      · simp only [if_neg hvalue]
        refine ⟨rfl, fun _ _ => ⟨fun addr => ?_, fun addr => ?_⟩⟩
        · refine (value?_insert ..).trans ?_
          rw [Change.leaves]
          split <;> rfl
        · refine (writable?_insert ..).trans ?_
          rw [Change.opens]
          split <;> rfl
  | set a v =>
      cases hcell : b.cells[a]? with
      | none =>
          simp only [perform, set, Change.outcome, value?, hcell]
          exact ⟨rfl, by rintro _ ⟨⟩⟩
      | some cell =>
          simp only [perform, set, Change.outcome, value?, hcell]
          exact ⟨rfl, fun _ _ => change_value hcell v⟩
  | setWritable a w =>
      cases hcell : b.cells[a]? with
      | none =>
          simp only [perform, setWritable, Change.outcome, value?, hcell]
          exact ⟨rfl, by rintro _ ⟨⟩⟩
      | some cell =>
          simp only [perform, setWritable, Change.outcome, value?, hcell]
          exact ⟨rfl, fun _ _ => change_writable hcell w⟩
  | write a v =>
      cases hcell : b.cells[a]? with
      | none =>
          simp only [perform, write, Change.outcome, value?, hcell]
          exact ⟨rfl, by rintro _ ⟨⟩⟩
      | some cell =>
          simp only [perform, write, Change.outcome, value?, writable?, hcell, Option.map_some, Option.some.injEq]
          by_cases hopen : cell.writable = true
          · have granted := change_value hcell v
            simp only [if_pos hopen]
            exact ⟨rfl, fun _ _ => ⟨granted.values, granted.rights⟩⟩
          · simp only [if_neg hopen]
            exact ⟨rfl, by rintro _ ⟨⟩⟩
  | remove a =>
      refine ⟨rfl, fun _ _ => ⟨fun addr => ?_, fun addr => ?_⟩⟩
      · simp only [perform, remove, value?, cells_erase, Change.leaves]
        split <;> rfl
      · simp only [perform, remove, writable?, cells_erase, Change.opens]
        split <;> rfl

/-! ## Histories -/

/-- What a history tells last, or how it was before if it tells nothing. -/
def told {β : Type} (tells : Change α → Option β) (history : List (Change α)) (before : β) : β :=
  (History.latest? tells history).getD before

theorem told_snoc {β : Type} (tells : Change α → Option β) (history : List (Change α)) (c : Change α) (before : β) :
    told tells (history ++ [c]) before = (tells c).getD (told tells history before) := by
  rw [told, told, History.latest?_snoc]
  cases tells c <;> rfl

structure Follows (start : Bank α) (history : List (Change α)) (b : Bank α) : Prop where
  values (addr : Address) : b.value? addr = told (·.leaves addr) history (start.value? addr)
  rights (addr : Address) : b.writable? addr = told (·.opens addr) history (start.writable? addr)

theorem follows_run (start : Bank α) (changes : List (Change α)) :
    start.Follows (History.granted (History.run perform start changes).1) (History.run perform start changes).2 := by
  refine History.granted_induction (P := start.Follows) (fun b c e => perform_refused) ⟨fun _ => rfl, fun _ => rfl⟩
    (fun history b c out follows hout => ?_) changes
  have changed := (b.perform_spec c).2 out hout
  refine ⟨fun addr => ?_, fun addr => ?_⟩
  · rw [changed.values, follows.values, told_snoc]
  · rw [changed.rights, follows.rights, told_snoc]

/-! ## Addresses -/

theorem pairwise_addresses (b : Bank α) : b.addresses.Pairwise (· < ·) :=
  Std.ExtTreeMap.ordered_keys.imp Std.compare_eq_lt.mp

theorem mem_addresses : addr ∈ b.addresses ↔ (b.value? addr).isSome :=
  Std.ExtTreeMap.mem_keys.trans mem_cells_iff

theorem count_eq_ncard (b : Bank α) : b.count = {addr | (b.value? addr).isSome}.ncard := by
  have hset : {addr | (b.value? addr).isSome} = (b.addresses.toFinset : Set Address) := by
    rw [List.coe_toFinset]
    exact Set.ext fun addr => mem_addresses.symm
  have hnodup : b.addresses.Nodup := Std.ExtTreeMap.nodup_keys
  rw [hset, Set.ncard_coe_finset, List.toFinset_card_of_nodup hnodup]
  exact Std.ExtTreeMap.length_keys.symm

/-! ## Ranges -/

/-- What reading a range of addresses with these values has to give. -/
structure ReadsRange (values : Address → Option α) (addr : Address) (qty : Quantity)
    (read : Except ImageError (List α)) : Prop where
  ok_iff : (∃ found, read = .ok found) ↔
    qty = 0 ∨ addr.toNat + qty.toNat - 1 ≤ 65535 ∧ ∀ a ∈ addr.span qty.toNat, (values a).isSome
  found (found : List α) : read = .ok found →
    found.map some = (List.range qty.toNat).map fun i => values (addr + UInt16.ofNat i)
  beyond (e : ImageError) : read = .error e → 65535 < addr.toNat + qty.toNat - 1 → e = .illegalAddress addr
  missing (e : ImageError) : read = .error e → addr.toNat + qty.toNat - 1 ≤ 65535 →
    ∃ a, e = .illegalAddress a ∧ IsLeast {a | a ∈ addr.span qty.toNat ∧ values a = none} a

theorem get_eq (b : Bank α) (addr : Address) :
    b.get addr = match b.value? addr with
      | some value => .ok value
      | none => .error (.illegalAddress addr) := by
  unfold get value?
  cases b.cells[addr]? <;> rfl

theorem getEach_spec {n : Nat} (room : addr.toNat + n ≤ 65536) :
    match b.getEach addr n with
    | .ok found => found.map some = (List.range n).map fun i => b.value? (addr + UInt16.ofNat i)
    | .error e => ∃ a, e = .illegalAddress a ∧ IsLeast {a | a ∈ addr.span n ∧ b.value? a = none} a := by
  induction n generalizing addr with
  | zero => exact rfl
  | succ n ih =>
      have rest := ih (Address.room_succ room)
      have hnext : (fun i => b.value? (addr + UInt16.ofNat i)) ∘ Nat.succ =
          fun i => b.value? (addr + 1 + UInt16.ofNat i) :=
        funext fun i => congrArg b.value? (addr.add_ofNat_succ i)
      rw [getEach, get_eq]
      cases hvalue : b.value? addr with
      | none =>
          exact ⟨addr, rfl, ⟨Address.mem_span_self addr n, hvalue⟩, fun a ha => ha.1.1⟩
      | some value =>
          cases heach : b.getEach (addr + 1) n with
          | ok found =>
              rw [heach] at rest
              show some value :: found.map some = _
              rw [List.range_succ_eq_map, List.map_cons, List.map_map, hnext, Address.add_ofNat_zero, hvalue, rest]
          | error e =>
              rw [heach] at rest
              obtain ⟨a, he, hmissing, hleast⟩ := rest
              refine ⟨a, he, ⟨?_, hmissing.2⟩, fun a' ha' => ?_⟩
              · rw [Address.span_succ room]
                exact .inr hmissing.1
              · have hspan := ha'.1
                rw [Address.span_succ room] at hspan
                obtain rfl | hspan := hspan
                · exact absurd (hvalue.symm.trans ha'.2) (Option.some_ne_none value)
                · exact hleast ⟨hspan, ha'.2⟩

theorem getRange_spec (b : Bank α) (addr : Address) (qty : Quantity) :
    ReadsRange b.value? addr qty (b.getRange addr qty) := by
  unfold getRange
  split
  · rename_i hqty
    subst hqty
    exact ⟨iff_of_true ⟨[], rfl⟩ (.inl rfl), fun found h => by cases h; rfl, nofun, nofun⟩
  rename_i hqty
  have hpos : 0 < qty.toNat := Nat.pos_of_ne_zero fun h => hqty (UInt16.toNat_inj.mp h)
  split
  · rename_i beyond
    refine ⟨iff_of_false (fun ⟨_, h⟩ => nomatch h) ?_, nofun, fun e h _ => (Except.error.inj h).symm,
      fun e _ room => ?_⟩
    · rintro (h | ⟨room, -⟩)
      · exact hqty h
      · omega
    · omega
  · rename_i room
    have spec := getEach_spec (b := b) (Nat.le_of_not_lt room)
    cases heach : b.getEach addr qty.toNat with
    | ok found =>
        rw [heach] at spec
        have occupied (a : Address) (ha : a ∈ addr.span qty.toNat) : (b.value? a).isSome := by
          obtain ⟨i, hi, rfl⟩ := Address.eq_add_of_mem_span ha
          have hat := congrArg (·[i]?) spec
          simp only [List.getElem?_map, List.getElem?_range hi, Option.map_some, Option.map_eq_some_iff] at hat
          obtain ⟨value, -, hvalue⟩ := hat
          rw [← hvalue, Option.isSome_some]
        exact ⟨iff_of_true ⟨found, rfl⟩ (.inr ⟨by omega, occupied⟩), fun _ h => Except.ok.inj h ▸ spec, nofun, nofun⟩
    | error e =>
        rw [heach] at spec
        obtain ⟨a, he, missing⟩ := spec
        refine ⟨iff_of_false (fun ⟨_, h⟩ => nomatch h) ?_, nofun, fun _ _ beyond => by omega, fun _ h _ => ?_⟩
        · rintro (h | ⟨-, occupied⟩)
          · exact hqty h
          · have hsome := occupied a missing.1.1
            rw [missing.1.2] at hsome
            exact Bool.noConfusion hsome
        · exact ⟨a, (Except.error.inj h).symm.trans he, missing⟩

/-! ## What a bank is after any changes -/

/-- A bank is the sparse map that its granted changes make: what is refused leaves it as it is, its addresses are those
that hold a value, and ranges are read exactly. -/
theorem run_sparse (start : Bank α) (changes : List (Change α)) :
    let log := (History.run perform start changes).1
    let b := (History.run perform start changes).2
    let values (addr : Address) := told (·.leaves addr) (History.granted log) (start.value? addr)
    let rights (addr : Address) := told (·.opens addr) (History.granted log) (start.writable? addr)
    log.map (·.1) = changes ∧
    History.run perform start (History.granted log) = (log.filter (·.2.isOk), b) ∧
    (∀ c, (b.perform c).1 = c.outcome values rights ∧ ∀ e, (b.perform c).1 = .error e → (b.perform c).2 = b) ∧
    b.count = {addr | (values addr).isSome}.ncard ∧
    b.addresses.Pairwise (· < ·) ∧ (∀ addr, addr ∈ b.addresses ↔ (values addr).isSome) ∧
    ∀ addr qty, ReadsRange values addr qty (b.getRange addr qty) := by
  intro log b values rights
  have follows : start.Follows (History.granted log) b := start.follows_run changes
  have hvalues : b.value? = values := funext follows.values
  have hrights : b.writable? = rights := funext follows.rights
  rw [← hvalues, ← hrights]
  exact ⟨History.log_run start changes, History.run_granted (fun b c e => perform_refused) start changes,
    fun c => ⟨(b.perform_spec c).1, fun e => perform_refused⟩, b.count_eq_ncard, b.pairwise_addresses,
    fun addr => mem_addresses, b.getRange_spec⟩

end Bank

end Modbus
