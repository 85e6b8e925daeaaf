import Modbus.Proofs.Image.Confined
import Modbus.Proofs.Image.Outcomes

/-!
# Accesses and their places

Accesses to banks, files and queues are confined to the addresses or records that they name, whether they are granted or
refused part-way. For a file its length is part of the shape: it decides what is refused, and no access changes it.
-/

namespace Modbus

/-- Consecutive addresses, as far as there are any. -/
def Address.span (addr : Address) (n : Nat) : Set Address := {a | addr.toNat ≤ a.toNat ∧ a.toNat < addr.toNat + n}

theorem Address.span_succ {addr : Address} {n : Nat} (room : addr.toNat + (n + 1) ≤ 65536) :
    addr.span (n + 1) = {addr} ∪ Address.span (addr + 1) n := by
  ext a
  simp only [Address.span, Set.mem_ofPred_eq, Set.mem_union, Set.mem_singleton_iff, ← UInt16.toNat_inj, UInt16.toNat_add,
    UInt16.reduceToNat]
  omega

theorem Address.room_succ {addr : Address} {n : Nat} (room : addr.toNat + (n + 1) ≤ 65536) :
    (addr + 1).toNat + n ≤ 65536 := by
  have hnext : (addr + 1).toNat = (addr.toNat + 1) % 65536 := UInt16.toNat_add addr 1
  omega

namespace Bank

variable {α : Type} {b b' : Bank α} {addr : Address}

def view : View (Bank α) Address (Option (Cell α)) Unit := ⟨fun b addr => b.cells[addr]?, fun _ => ()⟩

theorem eq_of_alike (h : view.Alike Set.univ b b') : b = b' :=
  congrArg Bank.mk (Std.ExtTreeMap.ext_getElem? fun {addr} => h.content addr trivial)

theorem get_alike (h : view.Alike {addr} b b') : b.get addr = b'.get addr := by
  unfold get
  rw [show b.cells[addr]? = b'.cells[addr]? from h.content addr rfl]

theorem getEach_alike {n : Nat} (room : addr.toNat + n ≤ 65536) (h : view.Alike (addr.span n) b b') :
    b.getEach addr n = b'.getEach addr n := by
  induction n generalizing addr with
  | zero => rfl
  | succ n ih =>
      rw [Address.span_succ room] at h
      simp only [getEach]
      rw [get_alike (h.mono Set.subset_union_left), ih (Address.room_succ room) (h.mono Set.subset_union_right)]

theorem getRange_alike {qty : Quantity} (h : view.Alike (addr.span qty.toNat) b b') :
    b.getRange addr qty = b'.getRange addr qty := by
  unfold getRange
  split
  · rfl
  split
  · rfl
  · rename_i room
    exact getEach_alike (Nat.le_of_not_lt room) h

theorem readRange_alike {most : Nat} {qty : Quantity} {answer : List α → Response}
    (h : view.Alike (addr.span qty.toNat) b b') :
    Image.readRange b most addr qty answer = Image.readRange b' most addr qty answer := by
  unfold Image.readRange
  rw [getRange_alike h]

theorem writeEach_singleton (b : Bank α) (addr : Address) (value : α) :
    b.writeEach addr [value] =
      match b.cells[addr]? with
      | some cell =>
        if cell.writable then (none, ⟨b.cells.insert addr { cell with value }⟩) else (some (.readOnly addr), b)
      | none => (some (.illegalAddress addr), b) := by
  unfold writeEach write
  cases b.cells[addr]? with
  | none => rfl
  | some cell =>
      by_cases hopen : cell.writable = true
      · simp only [if_pos hopen, writeEach]
      · simp only [if_neg hopen]

theorem writeEach_cons (addr : Address) (value : α) (values : List α) :
    (fun b : Bank α => b.writeEach addr (value :: values)) =
      unlessRefused (fun b => b.writeEach addr [value]) fun b => b.writeEach (addr + 1) values := by
  funext b
  simp only [unlessRefused, writeEach]
  split <;> rfl

theorem confined_write (value : α) : Confined view {addr} fun b : Bank α => b.writeEach addr [value] where
  elsewhere b := by
    refine ⟨rfl, fun a ha => ?_⟩
    show b.cells[a]? = (b.writeEach addr [value]).2.cells[a]?
    rw [writeEach_singleton]
    split
    · split
      · rw [cells_insert, if_neg fun heq => ha heq.symm]
      · rfl
    · rfl
  within {b b'} alike := by
    have hcell : b.cells[addr]? = b'.cells[addr]? := alike.content addr rfl
    simp only [writeEach_singleton, hcell]
    split
    · split
      · refine ⟨rfl, rfl, ?_⟩
        rintro _ rfl
        show (b.cells.insert _ _)[_]? = (b'.cells.insert _ _)[_]?
        rw [cells_insert, cells_insert, if_pos rfl, if_pos rfl]
      · exact ⟨rfl, alike⟩
    · exact ⟨rfl, alike⟩

theorem confined_writeEach {values : List α} (room : addr.toNat + values.length ≤ 65536) :
    Confined view (addr.span values.length) fun b : Bank α => b.writeEach addr values := by
  induction values generalizing addr with
  | nil => exact .pure none
  | cons value values ih =>
      rw [List.length_cons] at room ⊢
      rw [writeEach_cons, Address.span_succ room]
      exact .unlessRefused ((confined_write value).mono Set.subset_union_left)
        ((ih (Address.room_succ room)).mono Set.subset_union_right)

theorem confined_writeRange (addr : Address) (values : List α) :
    Confined view (addr.span values.length) fun b : Bank α => b.writeRange addr values := by
  unfold writeRange
  split
  · exact .pure _
  · rename_i room
    exact confined_writeEach (Nat.le_of_not_lt room)

def mask (b : Bank Word) (addr : Address) (andMask orMask : Word) : Option ImageError × Bank Word :=
  match b.get addr with
  | .error e => (some e, b)
  | .ok current => b.writeEach addr [(current &&& andMask) ||| (orMask &&& ~~~andMask)]

theorem confined_mask (andMask orMask : Word) :
    Confined view {addr} fun b : Bank Word => b.mask addr andMask orMask := by
  have hread : Confined view {addr} fun b : Bank Word => (b.get addr, b) := .reads get_alike
  refine hread.bind (g := fun (current : Except ImageError Word) b => match current with
    | .error e => (some e, b)
    | .ok current => b.writeEach addr [(current &&& andMask) ||| (orMask &&& ~~~andMask)]) fun current => ?_
  cases current with
  | error e => exact .pure (some e)
  | ok current => exact confined_write _

end Bank

namespace Files

variable {fs fs' : Files}

def word? (fs : Files) (place : UInt16 × Nat) : Option Word := (fs.records? place.1).bind (·[place.2]?)

def lengths (fs : Files) (file : UInt16) : Option Nat := (fs.records? file).map List.length

def view : View Files (UInt16 × Nat) (Option Word) (UInt16 → Option Nat) := ⟨word?, lengths⟩

def stretch (file record : UInt16) (n : Nat) : Set (UInt16 × Nat) :=
  {p | p.1 = file ∧ record.toNat ≤ p.2 ∧ p.2 < record.toNat + n}

theorem records?_alike {places : Set (UInt16 × Nat)} (h : view.Alike places fs fs') (file : UInt16) :
    (fs.records? file = none ∧ fs'.records? file = none) ∨
      ∃ records records', fs.records? file = some records ∧ fs'.records? file = some records' ∧
        records.length = records'.length ∧ ∀ n, (file, n) ∈ places → records[n]? = records'[n]? := by
  have hlength : (fs.records? file).map List.length = (fs'.records? file).map List.length := congrFun h.shape file
  cases hfile : fs.records? file with
  | none =>
      rw [hfile, Option.map_none, eq_comm, Option.map_eq_none_iff] at hlength
      exact .inl ⟨rfl, hlength⟩
  | some records =>
      rw [hfile, Option.map_some, eq_comm, Option.map_eq_some_iff] at hlength
      obtain ⟨records', hfile', hlength⟩ := hlength
      refine .inr ⟨records, records', rfl, hfile', hlength.symm, fun n hn => ?_⟩
      have hword : (fs.records? file).bind (·[n]?) = (fs'.records? file).bind (·[n]?) := h.content (file, n) hn
      rwa [hfile, hfile'] at hword

theorem eq_of_alike (h : view.Alike Set.univ fs fs') : fs = fs' := by
  refine congrArg Files.mk (Std.ExtTreeMap.ext_getElem? fun {file} => ?_)
  show fs.records? file = fs'.records? file
  obtain ⟨hfile, hfile'⟩ | ⟨records, records', hfile, hfile', _, hword⟩ := records?_alike h file
  · rw [hfile, hfile']
  · rw [hfile, hfile', Option.some.injEq]
    exact List.ext_getElem? fun n => hword n trivial

theorem span_eq (fs : Files) (file record : UInt16) (n : Nat) :
    fs.span file record n =
      match fs.records? file with
      | none => .error (.illegalAddress file)
      | some records =>
        if maxRecord < record.toNat ∨ records.length < record.toNat + n then .error (.illegalAddress record)
        else .ok records := rfl

theorem read_alike {file record length : UInt16} (h : view.Alike (stretch file record length.toNat) fs fs') :
    fs.read file record length = fs'.read file record length := by
  unfold read
  rw [span_eq, span_eq]
  obtain ⟨hfile, hfile'⟩ | ⟨records, records', hfile, hfile', hlength, hword⟩ := records?_alike h file
  · rw [hfile, hfile']
  · rw [hfile, hfile']
    simp only [hlength]
    split
    · rfl
    · refine congrArg Except.ok (List.ext_getElem? fun n => ?_)
      rw [List.getElem?_take, List.getElem?_take, List.getElem?_drop, List.getElem?_drop]
      split
      · exact hword _ ⟨rfl, by simp, by simp; omega⟩
      · rfl

theorem writeRecords_singleton (fs : Files) (r : FileRecord) :
    Image.writeRecords fs [r] =
      match fs.records? r.file with
      | none => (some (.illegalAddress r.file), fs)
      | some records =>
        if maxRecord < r.record.toNat ∨ records.length < r.record.toNat + r.data.length then
          (some (.illegalAddress r.record), fs)
        else
          (none, ⟨fs.files.insert r.file
            (records.take r.record.toNat ++ r.data ++ records.drop (r.record.toNat + r.data.length))⟩) := by
  unfold Image.writeRecords write
  rw [span_eq]
  cases fs.records? r.file with
  | none => rfl
  | some records =>
      dsimp only
      by_cases hroom : maxRecord < r.record.toNat ∨ records.length < r.record.toNat + r.data.length
      · rw [if_pos hroom, if_pos hroom]
        rfl
      · rw [if_neg hroom, if_neg hroom]
        rfl

theorem writeRecords_cons (r : FileRecord) (rs : List FileRecord) :
    (fun fs => Image.writeRecords fs (r :: rs)) =
      unlessRefused (fun fs => Image.writeRecords fs [r]) fun fs => Image.writeRecords fs rs := by
  funext fs
  simp only [unlessRefused, Image.writeRecords]
  split <;> rfl

theorem word?_insert {file record : UInt16} {records data : List Word} (hfile : fs.records? file = some records)
    (hroom : record.toNat + data.length ≤ records.length) (p : UInt16 × Nat) :
    word? ⟨fs.files.insert file
        (records.take record.toNat ++ data ++ records.drop (record.toNat + data.length))⟩ p =
      if p.1 = file ∧ record.toNat ≤ p.2 ∧ p.2 < record.toNat + data.length then data[p.2 - record.toNat]?
      else fs.word? p := by
  obtain ⟨other, n⟩ := p
  simp only [word?, records?, Std.ExtTreeMap.getElem?_insert, Std.compare_eq_iff_eq]
  by_cases hother : file = other
  · subst hother
    rw [if_pos rfl, show fs.files[file]? = some records from hfile, Option.bind_some, Option.bind_some]
    have htake : (records.take record.toNat).length = record.toNat := List.length_take_of_le (by omega)
    rw [List.append_assoc]
    obtain hn | hn := Nat.lt_or_ge n record.toNat
    · rw [List.getElem?_append_left (by omega), List.getElem?_take_of_lt hn, if_neg (by omega)]
    · rw [List.getElem?_append_right (by omega), htake]
      obtain hn' | hn' := Nat.lt_or_ge n (record.toNat + data.length)
      · rw [List.getElem?_append_left (by omega), if_pos ⟨rfl, hn, hn'⟩]
      · rw [List.getElem?_append_right (by omega), List.getElem?_drop, if_neg (by omega)]
        congr 1
        omega
  · rw [if_neg hother, if_neg fun h => hother h.1.symm]

theorem lengths_writeRecords (fs : Files) (rs : List FileRecord) :
    fs.lengths = (Image.writeRecords fs rs).2.lengths :=
  funext fun file => ((fs.leaves_writeRecords rs).2 file).symm

theorem confined_write (r : FileRecord) :
    Confined view (stretch r.file r.record r.data.length) fun fs => Image.writeRecords fs [r] where
  elsewhere fs := by
    refine ⟨fs.lengths_writeRecords [r], fun p hp => ?_⟩
    show fs.word? p = (Image.writeRecords fs [r]).2.word? p
    rw [writeRecords_singleton]
    split
    · rfl
    · rename_i records hfile
      split
      · rfl
      · rename_i hroom
        rw [word?_insert hfile (by omega)]
        exact (if_neg hp).symm
  within {fs fs'} alike := by
    have hshape := (fs.lengths_writeRecords [r]).symm.trans (alike.shape.trans (fs'.lengths_writeRecords [r]))
    obtain ⟨hfile, hfile'⟩ | ⟨records, records', hfile, hfile', hlength, -⟩ := records?_alike alike r.file
    · rw [writeRecords_singleton, writeRecords_singleton, hfile, hfile']
      exact ⟨rfl, alike⟩
    · rw [writeRecords_singleton, writeRecords_singleton, hfile, hfile'] at hshape ⊢
      dsimp only at hshape ⊢
      rw [hlength] at hshape ⊢
      split
      · exact ⟨rfl, alike⟩
      · rename_i hroom
        rw [if_neg hroom, if_neg hroom] at hshape
        refine ⟨rfl, hshape, fun p hp => ?_⟩
        show word? _ p = word? _ p
        rw [word?_insert hfile (by omega), word?_insert hfile' (by omega)]
        exact (if_pos hp).trans (if_pos hp).symm

theorem confined_writeRecords (rs : List FileRecord) :
    Confined view {p | ∃ r ∈ rs, p ∈ stretch r.file r.record r.data.length} fun fs => Image.writeRecords fs rs := by
  induction rs with
  | nil => exact .pure none
  | cons r rs ih =>
      rw [writeRecords_cons]
      refine .unlessRefused ((confined_write r).mono fun p hp => ⟨r, List.mem_cons_self, hp⟩) (ih.mono ?_)
      rintro p ⟨r', hr', hp⟩
      exact ⟨r', List.mem_cons_of_mem r hr', hp⟩

theorem readAll_alike {spans : List FileSpan}
    (h : view.Alike {p | ∃ s ∈ spans, p ∈ stretch s.file s.record s.length.toNat} fs fs') :
    (spans.mapM fun s => fs.read s.file s.record s.length) = spans.mapM fun s => fs'.read s.file s.record s.length := by
  induction spans with
  | nil => rfl
  | cons s spans ih =>
      rw [List.mapM_cons, List.mapM_cons, read_alike (h.mono fun p hp => ⟨s, List.mem_cons_self, hp⟩), ih (h.mono ?_)]
      rintro p ⟨s', hs', hp⟩
      exact ⟨s', List.mem_cons_of_mem s hs', hp⟩

end Files

namespace Fifos

def view : View Fifos Address (Option (List Word)) Unit := ⟨queue?, fun _ => ()⟩

theorem eq_of_alike {fs fs' : Fifos} (h : view.Alike Set.univ fs fs') : fs = fs' :=
  congrArg Fifos.mk (Std.ExtTreeMap.ext_getElem? fun {addr} => h.content addr trivial)

theorem read_alike {fs fs' : Fifos} {addr : Address} (h : view.Alike {addr} fs fs') : fs.read addr = fs'.read addr := by
  unfold read
  rw [show fs.queues[addr]? = fs'.queues[addr]? from h.content addr rfl]

end Fifos

end Modbus
