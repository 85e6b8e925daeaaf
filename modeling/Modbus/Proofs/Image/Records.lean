import Modbus.Proofs.History
import Modbus.Proofs.Image.Effects

/-!
# Files and what has been written to them

Whatever is done to the files of an image, and whatever of it is refused, each file keeps the length that it was added
with, and each of its records has the word that was written there last since then, or zero. What a read gives and what
is refused depends on that alone, and no access that is granted goes beyond the records that there are.
-/

namespace Modbus.Files

/-! ## Operations -/

inductive Operation
  | add (file length : UInt16)
  | remove (file : UInt16)
  | write (r : FileRecord)
  | read (s : FileSpan)

abbrev Outcome := Except ImageError (Option (List Word))

def perform (fs : Files) : Operation → Outcome × Files
  | .add file length => History.attempt fs (fs.add file length)
  | .remove file => (.ok (fs.records? file), fs.remove file)
  | .write r => History.attempt fs (fs.write r.file r.record r.data)
  | .read s => ((fs.read s.file s.record s.length).map some, fs)

namespace Operation

/-- The number of records that a file has from now on, if the operation decides about that. -/
def sizes (file : UInt16) : Operation → Option (Option Nat)
  | add f length => if f = file then some (some length.toNat) else none
  | remove f => if f = file then some none else none
  | write _ | read _ => none

/-- The word that the operation puts at a place of a file. -/
def puts (place : UInt16 × Nat) : Operation → Option Word
  | add file _ => if file = place.1 then some 0 else none
  | write r => r.word? place
  | remove _ | read _ => none

end Operation

/-- A file has `n` records from `record` on, the first of which has a number that may be used. -/
def Spans (length : UInt16 → Option Nat) (file record : UInt16) (n : Nat) : Prop :=
  ∃ size, length file = some size ∧ record.toNat ≤ 9999 ∧ record.toNat + n ≤ size

variable {fs fs' : Files} {file record length : UInt16} {n : Nat} {records : List Word}

/-! ## Accesses -/

theorem span_eq_ok_iff : fs.span file record n = .ok records ↔
    fs.records? file = some records ∧ record.toNat ≤ 9999 ∧ record.toNat + n ≤ records.length := by
  rw [span_eq]
  cases fs.records? file with
  | none => exact iff_of_false nofun fun h => nomatch h.1
  | some found =>
      dsimp only
      by_cases beyond : maxRecord < record.toNat ∨ found.length < record.toNat + n
      · rw [if_pos beyond]
        refine iff_of_false nofun ?_
        rintro ⟨⟨⟩, hnumber, hroom⟩
        exact beyond.elim (Nat.not_lt.mpr hnumber) (Nat.not_lt.mpr hroom)
      · rw [if_neg beyond]
        rw [not_or, Nat.not_lt, Nat.not_lt] at beyond
        refine ⟨fun h => ?_, fun h => congrArg Except.ok (Option.some.inj h.1)⟩
        cases h
        exact ⟨rfl, beyond⟩

theorem spans_iff : Spans fs.lengths file record n ↔ ∃ records, fs.span file record n = .ok records := by
  simp only [span_eq_ok_iff, Spans, lengths]
  cases fs.records? file <;> simp

theorem read_eq_ok_iff {found : List Word} : fs.read file record length = .ok found ↔
    ∃ records, fs.span file record length.toNat = .ok records ∧
      found = (records.drop record.toNat).take length.toNat := by
  unfold read
  cases fs.span file record length.toNat with
  | ok records =>
      refine ⟨fun h => ⟨records, rfl, (Except.ok.inj h).symm⟩, ?_⟩
      rintro ⟨_, ⟨⟩, rfl⟩
      rfl
  | error e => exact iff_of_false nofun fun ⟨_, h, _⟩ => nomatch h

theorem accepts_read_iff : (∃ found, fs.read file record length = .ok found) ↔
    Spans fs.lengths file record length.toNat := by
  simp only [spans_iff, read_eq_ok_iff]
  exact ⟨fun ⟨_, records, h, _⟩ => ⟨records, h⟩, fun ⟨records, h⟩ => ⟨_, records, h, rfl⟩⟩

theorem words_of_read {found : List Word} (h : fs.read file record length = .ok found) :
    found.map some = (List.range length.toNat).map fun i => fs.word? (file, record.toNat + i) := by
  obtain ⟨records, hspan, rfl⟩ := read_eq_ok_iff.mp h
  obtain ⟨hfile, -, hroom⟩ := span_eq_ok_iff.mp hspan
  refine List.ext_getElem? fun i => ?_
  simp only [List.getElem?_map, List.getElem?_take, List.getElem?_drop, word?, hfile, Option.bind_some]
  obtain hi | hi := Nat.lt_or_ge i length.toNat
  · rw [if_pos hi, List.getElem?_range hi, Option.map_some, List.getElem?_eq_getElem (by omega), Option.map_some]
  · rw [if_neg (Nat.not_lt.mpr hi), List.getElem?_eq_none (by rwa [List.length_range]), Option.map_none, Option.map_none]

theorem exists_word (h : Spans fs.lengths file record n) {i : Nat} (hi : i < n) :
    ∃ w, fs.word? (file, record.toNat + i) = some w := by
  obtain ⟨records, hspan⟩ := spans_iff.mp h
  obtain ⟨hfile, -, hroom⟩ := span_eq_ok_iff.mp hspan
  have hplace : fs.word? (file, record.toNat + i) = records[record.toNat + i]? := by rw [word?, hfile, Option.bind_some]
  exact ⟨_, hplace.trans (List.getElem?_eq_getElem (by omega))⟩

theorem accepts_write_iff {r : FileRecord} : (∃ fs', fs.write r.file r.record r.data = .ok fs') ↔
    Spans fs.lengths r.file r.record r.data.length := by
  unfold write
  rw [spans_iff]
  cases fs.span r.file r.record r.data.length with
  | ok records => exact iff_of_true ⟨_, rfl⟩ ⟨records, rfl⟩
  | error e => exact iff_of_false (fun ⟨_, h⟩ => nomatch h) fun ⟨_, h⟩ => nomatch h

theorem stored_of_write {r : FileRecord} (h : fs.write r.file r.record r.data = .ok fs') : fs.Stored [r] fs' := by
  by_cases holds : fs.holds r = true
  · obtain ⟨fs'', hwrite, stored⟩ := write_of_holds holds
    rw [h] at hwrite
    cases hwrite
    exact stored
  · obtain ⟨e, hwrite⟩ := write_of_not_holds holds
    rw [h] at hwrite
    cases hwrite

theorem word?_of_write {r : FileRecord} (h : fs.write r.file r.record r.data = .ok fs') (place : UInt16 × Nat) :
    fs'.word? place = (r.word? place).or (fs.word? place) := by
  rw [(stored_of_write h).words, FileRecord.latest?, List.reverse_singleton, List.findSome?_singleton]

theorem kept_by_write {r : FileRecord} (h : fs.write r.file r.record r.data = .ok fs') {place : UInt16 × Nat}
    (outside : place ∉ stretch r.file r.record r.data.length) : fs'.word? place = fs.word? place := by
  have hnone : r.word? place = none := by
    unfold FileRecord.word?
    split
    · rename_i hplace
      refine List.getElem?_eq_none (Nat.le_of_not_lt fun hlt => outside ⟨hplace.1.symm, hplace.2, ?_⟩)
      omega
    · rfl
  rw [word?_of_write h, hnone, Option.none_or]

/-! ## Steps -/

theorem records?_insert (fs : Files) (file f : UInt16) (records : List Word) :
    records? ⟨fs.files.insert file records⟩ f = if file = f then some records else fs.records? f := by
  simp only [records?, Std.ExtTreeMap.getElem?_insert, Std.compare_eq_iff_eq]

theorem records?_remove (fs : Files) (file f : UInt16) :
    (fs.remove file).records? f = if file = f then none else fs.records? f := by
  simp only [records?, remove, Std.ExtTreeMap.getElem?_erase, Std.compare_eq_iff_eq]

theorem add_eq_ok (h : fs.add file length = .ok fs') :
    length.toNat ≤ 10000 ∧ fs' = ⟨fs.files.insert file (List.replicate length.toNat 0)⟩ := by
  unfold add at h
  split at h
  · cases h
  · rename_i most
    split at h
    · cases h
    · cases h
      exact ⟨Nat.not_lt.mp most, rfl⟩

theorem perform_refused {op : Operation} {e : ImageError} (h : (fs.perform op).1 = .error e) :
    (fs.perform op).2 = fs := by
  cases op with
  | remove file => exact nomatch h
  | read s => rfl
  | add file length | write r => exact History.attempt_refused h

/-- What an operation that is granted changes: the lengths that it decides about, and the words that it puts. -/
structure Changes (fs : Files) (op : Operation) (fs' : Files) : Prop where
  lengths (file : UInt16) : fs'.lengths file = (op.sizes file).getD (fs.lengths file)
  most (file : UInt16) (n : Nat) : op.sizes file = some (some n) → n ≤ 10000
  words (place : UInt16 × Nat) (w : Word) : fs'.word? place = some w → (op.puts place).or (fs.word? place) = some w

theorem changes_add (h : fs.add file length = .ok fs') : fs.Changes (.add file length) fs' := by
  obtain ⟨most, rfl⟩ := add_eq_ok h
  refine ⟨fun f => ?_, fun f n hn => ?_, fun place w hw => ?_⟩
  · simp only [lengths, records?_insert, Operation.sizes]
    split
    · rw [Option.map_some, List.length_replicate, Option.getD_some]
    · rfl
  · rw [Operation.sizes] at hn
    split at hn
    · cases hn
      exact most
    · cases hn
  · simp only [word?, records?_insert, Operation.puts] at hw ⊢
    by_cases hfile : file = place.1
    · rw [if_pos hfile, Option.bind_some, List.getElem?_replicate] at hw
      rw [if_pos hfile, Option.some_or]
      split at hw
      · exact hw
      · cases hw
    · rw [if_neg hfile] at hw ⊢
      exact hw

theorem changes_remove (fs : Files) (file : UInt16) : fs.Changes (.remove file) (fs.remove file) := by
  refine ⟨fun f => ?_, fun f n hn => ?_, fun place w hw => ?_⟩
  · simp only [lengths, records?_remove, Operation.sizes]
    split <;> rfl
  · rw [Operation.sizes] at hn
    split at hn <;> cases hn
  · simp only [word?, records?_remove] at hw
    split at hw
    · cases hw
    · exact hw

theorem changes_write {r : FileRecord} (h : fs.write r.file r.record r.data = .ok fs') : fs.Changes (.write r) fs' := by
  refine ⟨congrFun (stored_of_write h).lengths, nofun, fun place w hw => ?_⟩
  rw [word?_of_write h] at hw
  exact hw

theorem changes_perform {op : Operation} {out : Option (List Word)} (h : (fs.perform op).1 = .ok out) :
    fs.Changes op (fs.perform op).2 := by
  cases op with
  | add file length =>
      rw [perform] at h ⊢
      cases hadd : fs.add file length with
      | ok fs' => exact changes_add hadd
      | error e => rw [hadd] at h; cases h
  | remove file => exact fs.changes_remove file
  | write r =>
      rw [perform] at h ⊢
      cases hwrite : fs.write r.file r.record r.data with
      | ok fs' => exact changes_write hwrite
      | error e => rw [hwrite] at h; cases h
  | read s => exact ⟨fun _ => rfl, nofun, fun _ _ hw => hw⟩

/-! ## Histories -/

def lengthTold (history : List Operation) (file : UInt16) : Option Nat := (History.latest? (·.sizes file) history).join

def wordTold (history : List Operation) (place : UInt16 × Nat) : Option Word := History.latest? (·.puts place) history

/-- The files are what the history tells. -/
structure Follows (history : List Operation) (fs : Files) : Prop where
  lengths : fs.lengths = lengthTold history
  most (file : UInt16) (n : Nat) : fs.lengths file = some n → n ≤ 10000
  words (place : UInt16 × Nat) (w : Word) : fs.word? place = some w → wordTold history place = some w

theorem Follows.step {history : List Operation} {op : Operation} {out : Option (List Word)} (h : Follows history fs)
    (hout : (fs.perform op).1 = .ok out) : Follows (history ++ [op]) (fs.perform op).2 := by
  have changes := changes_perform hout
  refine ⟨funext fun file => ?_, fun file n hn => ?_, fun place w hw => ?_⟩
  · rw [changes.lengths, h.lengths, lengthTold, lengthTold, History.latest?_snoc]
    cases op.sizes file <;> rfl
  · rw [changes.lengths] at hn
    cases hsizes : op.sizes file with
    | none =>
        rw [hsizes] at hn
        exact h.most file n hn
    | some size =>
        rw [hsizes, Option.getD_some] at hn
        rw [hn] at hsizes
        exact changes.most file n hsizes
  · have hput := changes.words place w hw
    rw [wordTold, History.latest?_snoc]
    cases hputs : op.puts place with
    | none =>
        rw [hputs, Option.none_or] at hput
        exact h.words place w hput
    | some word => rwa [hputs] at hput

theorem follows_run (operations : List Operation) :
    Follows (History.granted (History.run perform {} operations).1) (History.run perform {} operations).2 := by
  have empty (file : UInt16) : records? {} file = none := Std.ExtTreeMap.getElem?_empty
  refine History.granted_induction (P := Follows) (fun fs op e => perform_refused) ⟨?_, ?_, ?_⟩
    (fun history fs op out follows hout => follows.step hout) operations
  · funext file
    rw [Files.lengths, empty]
    rfl
  · intro file n hn
    rw [Files.lengths, empty] at hn
    cases hn
  · intro place w hw
    rw [word?, empty] at hw
    cases hw

/-- Whatever is done to files, each keeps the length that it was added with, at most 10000, and each record has the word
that was put there last. Reads and writes are granted for the records that there are and for no others; a write changes
nothing else, and what is refused nothing at all. -/
theorem run_keeps_latest (operations : List Operation) :
    let log := (History.run perform {} operations).1
    let fs := (History.run perform {} operations).2
    let length := lengthTold (History.granted log)
    let word := wordTold (History.granted log)
    fs.lengths = length ∧ (∀ file n, length file = some n → n ≤ 10000) ∧
    (∀ file record n, (∃ found, fs.read file record n = .ok found) ↔ Spans length file record n.toNat) ∧
    (∀ file record n found, fs.read file record n = .ok found →
      found.map some = (List.range n.toNat).map fun i => word (file, record.toNat + i)) ∧
    (∀ file record data, (∃ fs', fs.write file record data = .ok fs') ↔ Spans length file record data.length) ∧
    (∀ file record data fs', fs.write file record data = .ok fs' →
      fs'.lengths = fs.lengths ∧ ∀ place ∉ stretch file record data.length, fs'.word? place = fs.word? place) ∧
    (∀ op e, (fs.perform op).1 = .error e → (fs.perform op).2 = fs) ∧
    ∀ file record n records, fs.span file record n = .ok records →
      fs.records? file = some records ∧ record.toNat + n ≤ records.length := by
  intro log fs length word
  have follows : Follows (History.granted log) fs := follows_run operations
  have hlength : length = fs.lengths := follows.lengths.symm
  rw [hlength]
  refine ⟨rfl, follows.most, fun file record n => accepts_read_iff, fun file record n found h => ?_,
    fun file record data => accepts_write_iff (r := ⟨file, record, data⟩), fun file record data fs' h => ?_,
    fun op e => perform_refused, fun file record n records h => ?_⟩
  · refine (words_of_read h).trans (List.map_congr_left fun i hi => ?_)
    obtain ⟨w, hw⟩ := exists_word (accepts_read_iff.mp ⟨found, h⟩) (List.mem_range.mp hi)
    rw [hw]
    exact (follows.words _ w hw).symm
  · have hwrite : fs.write (⟨file, record, data⟩ : FileRecord).file record data = .ok fs' := h
    exact ⟨(stored_of_write hwrite).lengths, fun place outside => kept_by_write hwrite outside⟩
  · obtain ⟨hfile, -, hroom⟩ := span_eq_ok_iff.mp h
    exact ⟨hfile, hroom⟩

end Modbus.Files
