import Modbus.Proofs.Image.Rejections
import Modbus.Proofs.Image.Views

/-!
# What writes of several values store

A write of several values goes from address to address, or from block to block, up to the first one that refuses. What
stood in front of that one has been written and stays: the values for the addresses that are open to clients without a
gap, and the blocks in front of the first that is not within a file. Nothing else changes.
-/

namespace Modbus

theorem Address.add_ofNat_zero (addr : Address) : addr + UInt16.ofNat 0 = addr := UInt16.add_zero addr

theorem Address.add_ofNat_succ (addr : Address) (i : Nat) :
    addr + UInt16.ofNat (i + 1) = addr + 1 + UInt16.ofNat i := by
  rw [UInt16.ofNat_add, UInt16.add_assoc, UInt16.add_comm (UInt16.ofNat i)]
  rfl

/-! ## Banks -/

namespace Bank

variable {α : Type} {b b' : Bank α} {addr : Address} {value : α} {values : List α}

def isOpen (b : Bank α) (addr : Address) : Bool := (b.cells[addr]?.map (·.writable)).getD false

/-- How many of `n` addresses from `addr` on are open, up to the first that is not. -/
def openRun (b : Bank α) (addr : Address) (n : Nat) : Nat :=
  (((List.range n).map fun i => addr + UInt16.ofNat i).takeWhile b.isOpen).length

/-- The values stand from `addr` on, open to clients, and all else is as it was. -/
structure Stored (b : Bank α) (addr : Address) (values : List α) (b' : Bank α) : Prop where
  within {i : Nat} {value : α} : values[i]? = some value → b'.cells[addr + UInt16.ofNat i]? = some ⟨value, true⟩
  elsewhere : ∀ a ∉ addr.span values.length, b'.cells[a]? = b.cells[a]?

/-- What comes of writing the values from `addr` on, if `answer` is what is said to all of them: what is said, and the
bank afterwards. -/
structure Writes (b : Bank α) (addr : Address) (values : List α) (answer : Response) (served : Served)
    (b' : Bank α) : Prop where
  beyond : 65536 < addr.toNat + values.length → served = .error .illegalDataAddress ∧ b' = b
  within : addr.toNat + values.length ≤ 65536 →
    b.Stored addr (values.take (b.openRun addr values.length)) b' ∧
      served = if b.openRun addr values.length = values.length then .ok answer else .error .illegalDataAddress

theorem openRun_succ (b : Bank α) (addr : Address) (n : Nat) :
    b.openRun addr (n + 1) = if b.isOpen addr then b.openRun (addr + 1) n + 1 else 0 := by
  have hnext : (fun i => addr + UInt16.ofNat i) ∘ Nat.succ = fun i => addr + 1 + UInt16.ofNat i :=
    funext addr.add_ofNat_succ
  simp only [openRun, List.range_succ_eq_map, List.map_cons, List.map_map, hnext, addr.add_ofNat_zero,
    List.takeWhile_cons]
  split <;> rfl

theorem Keeps.openRun_eq (h : b.Keeps b') : b'.openRun = b.openRun := by
  have hopen : b'.isOpen = b.isOpen := funext fun a => congrArg (·.getD false) (h.writable a)
  unfold openRun
  rw [hopen]

theorem Stored.nil (b : Bank α) (addr : Address) : b.Stored addr [] b := ⟨nofun, fun _ _ => rfl⟩

theorem Stored.cons {cell : Cell α} (room : addr.toNat + (values.length + 1) ≤ 65536) (hopen : cell.writable = true)
    (h : Stored ⟨b.cells.insert addr { cell with value }⟩ (addr + 1) values b') :
    b.Stored addr (value :: values) b' := by
  have hnext : addr ∉ Address.span (addr + 1) values.length := by
    have hlt : (addr + 1).toNat = (addr.toNat + 1) % 65536 := UInt16.toNat_add addr 1
    intro hmem
    have hle : (addr + 1).toNat ≤ addr.toNat := hmem.1
    have hlt' : addr.toNat < (addr + 1).toNat + values.length := hmem.2
    omega
  refine ⟨fun {i v} hi => ?_, fun a ha => ?_⟩
  · cases i with
    | zero =>
        cases hi
        rw [Address.add_ofNat_zero, h.elsewhere addr hnext, cells_insert, if_pos rfl, ← hopen]
    | succ i =>
        rw [Address.add_ofNat_succ]
        exact h.within hi
  · rw [List.length_cons, Address.span_succ room, Set.mem_union, not_or] at ha
    rw [h.elsewhere a ha.2, cells_insert, if_neg fun heq => ha.1 heq.symm]

theorem isOpen_iff : b.isOpen addr = true ↔ ∃ cell, b.cells[addr]? = some cell ∧ cell.writable = true := by
  unfold isOpen
  cases b.cells[addr]? <;> simp

theorem write_of_not_isOpen (h : ¬ b.isOpen addr = true) (value : α) : ∃ e, b.write addr value = .error e := by
  rw [isOpen_iff, not_exists] at h
  unfold write
  split
  · rename_i cell hcell
    rw [if_neg fun hopen => h cell ⟨hcell, hopen⟩]
    exact ⟨_, rfl⟩
  · exact ⟨_, rfl⟩

theorem stored_writeEach (room : addr.toNat + values.length ≤ 65536) :
    b.Stored addr (values.take (b.openRun addr values.length)) (b.writeEach addr values).2 ∧
      ((b.writeEach addr values).1 = none ↔ b.openRun addr values.length = values.length) := by
  induction values generalizing b addr with
  | nil => exact ⟨.nil b addr, iff_of_true rfl rfl⟩
  | cons v vs ih =>
      rw [List.length_cons] at room ⊢
      rw [openRun_succ, writeEach]
      by_cases hopen : b.isOpen addr = true
      · obtain ⟨cell, hcell, hwritable⟩ := isOpen_iff.mp hopen
        have hwrite : b.write addr v = .ok ⟨b.cells.insert addr { cell with value := v }⟩ := by
          simp only [write, hcell, if_pos hwritable]
        have keeps : b.Keeps ⟨b.cells.insert addr { cell with value := v }⟩ := .insert hcell hwritable v
        obtain ⟨stored, hnone⟩ := ih (b := ⟨b.cells.insert addr { cell with value := v }⟩) (Address.room_succ room)
        rw [keeps.openRun_eq] at stored hnone
        have hlength : (vs.take (b.openRun (addr + 1) vs.length)).length ≤ vs.length := List.length_take_le' ..
        rw [if_pos hopen, hwrite, List.take_succ_cons, Nat.add_right_cancel_iff]
        exact ⟨stored.cons (by omega) hwritable, hnone⟩
      · obtain ⟨e, hwrite⟩ := write_of_not_isOpen hopen v
        rw [if_neg hopen, hwrite]
        exact ⟨.nil b addr, iff_of_false (Option.some_ne_none e) (Nat.succ_ne_zero vs.length).symm⟩

theorem writes_writeRange (b : Bank α) (addr : Address) (values : List α) (answer : Response) :
    b.Writes addr values answer (Image.written (b.writeRange addr values).1 answer) (b.writeRange addr values).2 := by
  have leaves := b.leaves_writeRange addr values
  unfold writeRange at leaves ⊢
  refine ⟨fun beyond => ?_, fun room => ?_⟩
  · rw [if_pos beyond]
    exact ⟨rfl, rfl⟩
  · rw [if_neg (Nat.not_lt.mpr room)] at leaves ⊢
    obtain ⟨stored, hnone⟩ := stored_writeEach (b := b) room
    refine ⟨stored, ?_⟩
    cases hrefused : (b.writeEach addr values).1 with
    | none => rw [if_pos (hnone.mp hrefused), Image.written]
    | some e =>
        rw [if_neg fun hall => Option.some_ne_none e (hrefused.symm.trans (hnone.mpr hall))]
        exact congrArg Except.error (leaves.1 e hrefused)

end Bank

/-! ## Files -/

def FileRecord.word? (r : FileRecord) (place : UInt16 × Nat) : Option Word :=
  if r.file = place.1 ∧ r.record.toNat ≤ place.2 then r.data[place.2 - r.record.toNat]? else none

/-- The word that the last of the blocks with one has for a place of a file. -/
def FileRecord.latest? (records : List FileRecord) (place : UInt16 × Nat) : Option Word :=
  records.reverse.findSome? (·.word? place)

namespace Files

variable {fs fs' fs'' : Files} {r : FileRecord} {records : List FileRecord}

/-- The block begins at the number of a record and does not go beyond the end of its file. -/
def holds (fs : Files) (r : FileRecord) : Bool :=
  (fs.lengths r.file).any fun length => r.record.toNat ≤ maxRecord && r.record.toNat + r.data.length ≤ length

/-- Each place has the word of the last block with one for it, and otherwise the word that it had. -/
structure Stored (fs : Files) (records : List FileRecord) (fs' : Files) : Prop where
  lengths : fs'.lengths = fs.lengths
  words (place : UInt16 × Nat) : fs'.word? place = (FileRecord.latest? records place).or (fs.word? place)

structure Writes (fs : Files) (records : List FileRecord) (served : Served) (fs' : Files) : Prop where
  stored : fs.Stored (records.takeWhile fs.holds) fs'
  served : served =
    if ∀ r ∈ records, fs.holds r then
      if (Response.writeFileRecord records).Fits then .ok (.writeFileRecord records) else .error .illegalDataValue
    else .error .illegalDataAddress

theorem Stored.nil (fs : Files) : fs.Stored [] fs := ⟨rfl, fun _ => rfl⟩

theorem Stored.cons (h : fs.Stored [r] fs') (h' : fs'.Stored records fs'') : fs.Stored (r :: records) fs'' where
  lengths := h'.lengths.trans h.lengths
  words place := by
    rw [h'.words, h.words, ← Option.or_assoc]
    simp only [FileRecord.latest?, List.reverse_cons, List.reverse_nil, List.nil_append, List.findSome?_append]

theorem holds_iff : fs.holds r = true ↔ ∃ records, fs.records? r.file = some records ∧
    r.record.toNat ≤ maxRecord ∧ r.record.toNat + r.data.length ≤ records.length := by
  unfold holds lengths
  cases fs.records? r.file <;> simp

theorem write_of_not_holds (h : ¬ fs.holds r = true) : ∃ e, fs.write r.file r.record r.data = .error e := by
  rw [holds_iff] at h
  unfold write
  rw [span_eq]
  cases hfile : fs.records? r.file with
  | none => exact ⟨_, rfl⟩
  | some records =>
      have hroom : maxRecord < r.record.toNat ∨ records.length < r.record.toNat + r.data.length := by
        by_contra hroom
        exact h ⟨records, hfile, by omega, by omega⟩
      dsimp only
      rw [if_pos hroom]
      exact ⟨_, rfl⟩

theorem write_of_holds (h : fs.holds r = true) :
    ∃ fs', fs.write r.file r.record r.data = .ok fs' ∧ fs.Stored [r] fs' := by
  obtain ⟨records, hfile, hnumber, hroom⟩ := holds_iff.mp h
  have hspan : fs.span r.file r.record r.data.length = .ok records := by
    rw [span_eq, hfile]
    exact if_neg (by omega)
  have hwrite : fs.write r.file r.record r.data = .ok ⟨fs.files.insert r.file
      (records.take r.record.toNat ++ r.data ++ records.drop (r.record.toNat + r.data.length))⟩ := by
    unfold write
    rw [hspan]
    rfl
  have keeps := fs.grants_write r.file r.record r.data
  rw [hwrite] at keeps
  refine ⟨_, hwrite, funext keeps, fun place => ?_⟩
  rw [word?_insert hfile hroom]
  simp only [FileRecord.latest?, List.reverse_singleton, List.findSome?_singleton, FileRecord.word?]
  by_cases hplace : r.file = place.1 ∧ r.record.toNat ≤ place.2
  · rw [if_pos hplace]
    obtain hend | hend := Nat.lt_or_ge place.2 (r.record.toNat + r.data.length)
    · rw [if_pos ⟨hplace.1.symm, hplace.2, hend⟩, List.getElem?_eq_getElem (by omega), Option.some_or]
    · rw [if_neg (by omega), List.getElem?_eq_none (by omega), Option.none_or]
  · rw [if_neg hplace, if_neg fun h => hplace ⟨h.1.symm, h.2.1⟩, Option.none_or]

theorem stored_writeRecords (fs : Files) (records : List FileRecord) :
    fs.Stored (records.takeWhile fs.holds) (Image.writeRecords fs records).2 ∧
      ((Image.writeRecords fs records).1 = none ↔ ∀ r ∈ records, fs.holds r) := by
  induction records generalizing fs with
  | nil => exact ⟨.nil fs, iff_of_true rfl (List.forall_mem_nil _)⟩
  | cons r rs ih =>
      rw [Image.writeRecords, List.takeWhile_cons, List.forall_mem_cons]
      by_cases hr : fs.holds r = true
      · obtain ⟨fs', hwrite, stored⟩ := write_of_holds hr
        have hholds : fs'.holds = fs.holds := by
          unfold holds
          rw [stored.lengths]
        obtain ⟨rest, hnone⟩ := ih fs'
        rw [hholds] at rest hnone
        rw [if_pos hr, hwrite]
        exact ⟨stored.cons rest, hnone.trans (and_iff_right hr).symm⟩
      · obtain ⟨e, hwrite⟩ := write_of_not_holds hr
        rw [if_neg hr, hwrite]
        exact ⟨.nil fs, iff_of_false (Option.some_ne_none e) fun h => hr h.1⟩

end Files

/-! ## Requests -/

namespace Image

variable (img : Image)

theorem writes_writeRecords (records : List FileRecord) :
    img.files.Writes records (img.handle (.writeFileRecord records)).1 (writeRecords img.files records).2 := by
  have leaves := img.files.leaves_writeRecords records
  obtain ⟨stored, hnone⟩ := img.files.stored_writeRecords records
  refine ⟨stored, ?_⟩
  simp only [handle_eq, carryOut]
  cases hrefused : (writeRecords img.files records).1 with
  | none =>
      rw [if_pos (hnone.mp hrefused)]
      rfl
  | some e =>
      rw [if_neg fun hall => Option.some_ne_none e (hrefused.symm.trans (hnone.mpr hall))]
      exact congrArg Except.error (leaves.1 e hrefused)

theorem handle_writeMultipleRegisters (addr : Address) {words : List Word}
    (admits : Admits maxWriteRegisters words.length) :
    img.handle (.writeMultipleRegisters addr words) =
      (written (img.holdingRegisters.writeRange addr words).1
          (.writeMultipleRegisters addr (UInt16.ofNat words.length)),
        { img with holdingRegisters := (img.holdingRegisters.writeRange addr words).2 }) := by
  rw [img.handle_eq_carryOut (r := .writeMultipleRegisters ..) nofun nofun nofun, carryOut, if_pos admits]

theorem handle_writeMultipleCoils (addr : Address) {coils : List Bool} (admits : Admits maxWriteCoils coils.length) :
    img.handle (.writeMultipleCoils addr coils) =
      (written (img.coils.writeRange addr coils).1 (.writeMultipleCoils addr (UInt16.ofNat coils.length)),
        { img with coils := (img.coils.writeRange addr coils).2 }) := by
  rw [img.handle_eq_carryOut (r := .writeMultipleCoils ..) nofun nofun nofun, carryOut, if_pos admits]

end Image

namespace ImageService

/-- A write of several values stores those in front of the first that cannot be stored, and is granted exactly if there
is none. -/
theorem handle_stores (img : Image) (unit : Option UnitId) :
    let service (img : Image) : ImageService := { image := some img, unit }
    (∀ addr words, 1 ≤ words.length → words.length ≤ 123 → ∃ served holdingRegisters,
      img.holdingRegisters.Writes addr words (.writeMultipleRegisters addr (UInt16.ofNat words.length)) served
          holdingRegisters ∧
        (service img).handle (.writeMultipleRegisters addr words) =
          (served, service { img with holdingRegisters })) ∧
    (∀ addr coils, 1 ≤ coils.length → coils.length ≤ 1968 → ∃ served bank,
      img.coils.Writes addr coils (.writeMultipleCoils addr (UInt16.ofNat coils.length)) served bank ∧
        (service img).handle (.writeMultipleCoils addr coils) = (served, service { img with coils := bank })) ∧
    ∀ records, ∃ served files, img.files.Writes records served files ∧
      (service img).handle (.writeFileRecord records) = (served, service { img with files }) := by
  intro service
  have hhandle (r : Request) : (service img).handle r = ((img.handle r).1, service (img.handle r).2) :=
    handle_of_image rfl r
  refine ⟨fun addr words some most => ?_, fun addr coils some most => ?_, fun records => ?_⟩
  · refine ⟨_, _, img.holdingRegisters.writes_writeRange addr words _, ?_⟩
    rw [hhandle, img.handle_writeMultipleRegisters addr ⟨some, most⟩]
  · refine ⟨_, _, img.coils.writes_writeRange addr coils _, ?_⟩
    rw [hhandle, img.handle_writeMultipleCoils addr ⟨some, most⟩]
  · refine ⟨_, _, img.writes_writeRecords records, ?_⟩
    rw [hhandle, Image.handle_eq]
    rfl

/-- Of three values the second is refused, and so the third is not written either. -/
theorem handle_stores_partly :
    let bank : Bank Word := ⟨((Std.ExtTreeMap.insert ∅ 10 ⟨0, true⟩).insert 11 ⟨0, false⟩).insert 12 ⟨0, true⟩⟩
    let service (img : Image) : ImageService := { image := some img }
    ∃ bank', (service { holdingRegisters := bank }).handle (.writeMultipleRegisters 10 [1, 2, 3]) =
        (.error .illegalDataAddress, service { holdingRegisters := bank' }) ∧
      bank'.cells[(10 : Address)]? = some ⟨1, true⟩ ∧ bank'.cells[(11 : Address)]? = some ⟨0, false⟩ ∧
      bank'.cells[(12 : Address)]? = some ⟨0, true⟩ := by
  intro bank service
  obtain ⟨served, bank', writes, hhandle⟩ :=
    (handle_stores { holdingRegisters := bank } none).1 10 [1, 2, 3] (by decide) (by decide)
  have hrun : bank.openRun 10 3 = 1 := by rfl
  obtain ⟨stored, hserved⟩ := writes.within (by decide)
  change bank.Stored 10 ([1, 2, 3].take (bank.openRun 10 3)) bank' at stored
  change served = if bank.openRun 10 3 = 3 then _ else _ at hserved
  rw [hrun] at stored hserved
  obtain rfl := hserved
  have helsewhere (a : Address) (ha : 11 ≤ a.toNat) : bank'.cells[a]? = bank.cells[a]? :=
    stored.elsewhere a fun hmem => absurd hmem.2 (Nat.not_lt.mpr ha)
  exact ⟨bank', hhandle, stored.within (i := 0) rfl, (helsewhere 11 (by decide)).trans rfl,
    (helsewhere 12 (by decide)).trans rfl⟩

end ImageService

end Modbus
