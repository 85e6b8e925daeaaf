import Mathlib.Data.List.Forall2
import Modbus.Image.Service

/-!
# What comes of a request

Carrying out a request on an image ends in one of three ways: it is turned away before anything is done, an access is
refused for its address, or there is an answer of the shape that was asked for. Whatever the end, what does not belong
to clients is left alone. `carries_carryOut` says so for all requests; whatever else holds of them is derived from it.
-/

namespace Modbus

/-! ## What is left alone -/

theorem Bank.cells_insert {α : Type} (b : Bank α) (addr a : Address) (cell : Cell α) :
    (b.cells.insert addr cell)[a]? = if addr = a then some cell else b.cells[a]? := by
  simp only [Std.ExtTreeMap.getElem?_insert, Std.compare_eq_iff_eq]

/-- What clients cannot change in a bank: which addresses are occupied, which of them are open to clients, and the cells
that are not. -/
structure Bank.Keeps {α : Type} (b b' : Bank α) : Prop where
  occupied (addr : Address) : addr ∈ b'.cells ↔ addr ∈ b.cells
  writable (addr : Address) : b'.cells[addr]?.map (·.writable) = b.cells[addr]?.map (·.writable)
  locked {addr : Address} {cell : Cell α} : b.cells[addr]? = some cell → cell.writable = false →
    b'.cells[addr]? = some cell

namespace Bank.Keeps

variable {α : Type} {b b' b'' : Bank α}

theorem refl (b : Bank α) : b.Keeps b := ⟨fun _ => Iff.rfl, fun _ => rfl, fun h _ => h⟩

theorem trans (h : b.Keeps b') (h' : b'.Keeps b'') : b.Keeps b'' where
  occupied addr := (h'.occupied addr).trans (h.occupied addr)
  writable addr := (h'.writable addr).trans (h.writable addr)
  locked hcell hlocked := h'.locked (h.locked hcell hlocked) hlocked

theorem insert {addr : Address} {cell : Cell α} (hcell : b.cells[addr]? = some cell) (hopen : cell.writable = true)
    (value : α) : b.Keeps ⟨b.cells.insert addr { cell with value }⟩ := by
  have hwritable (a : Address) : (b.cells.insert addr { cell with value })[a]?.map (·.writable) =
      b.cells[a]?.map (·.writable) := by
    rw [cells_insert]
    split
    · rename_i ha
      simp [← ha, hcell]
    · rfl
  refine ⟨fun a => ?_, hwritable, fun {a old} hold hlocked => ?_⟩
  · have hsome := congrArg Option.isSome (hwritable a)
    rw [Option.isSome_map, Option.isSome_map] at hsome
    rw [Std.ExtTreeMap.mem_iff_isSome_getElem?, Std.ExtTreeMap.mem_iff_isSome_getElem?, hsome]
  · rw [cells_insert, if_neg]
    · exact hold
    · rintro rfl
      rw [hcell, Option.some.injEq] at hold
      rw [hold, hlocked] at hopen
      cases hopen

end Bank.Keeps

/-- What clients cannot change in files: which there are, and their lengths. -/
def Files.Keeps (fs fs' : Files) : Prop :=
  ∀ file, (fs'.records? file).map List.length = (fs.records? file).map List.length

/-- What clients cannot change in an image. -/
structure Image.Keeps (img img' : Image) : Prop where
  coils : img.coils.Keeps img'.coils
  discreteInputs : img'.discreteInputs = img.discreteInputs
  inputRegisters : img'.inputRegisters = img.inputRegisters
  holdingRegisters : img.holdingRegisters.Keeps img'.holdingRegisters
  files : img.files.Keeps img'.files
  fifos : img'.fifos = img.fifos

namespace Image.Keeps

variable {img img' img'' : Image}

theorem refl (img : Image) : img.Keeps img := ⟨.refl _, rfl, rfl, .refl _, fun _ => rfl, rfl⟩

theorem trans (h : img.Keeps img') (h' : img'.Keeps img'') : img.Keeps img'' where
  coils := h.coils.trans h'.coils
  discreteInputs := h'.discreteInputs.trans h.discreteInputs
  inputRegisters := h'.inputRegisters.trans h.inputRegisters
  holdingRegisters := h.holdingRegisters.trans h'.holdingRegisters
  files file := (h'.files file).trans (h.files file)
  fifos := h'.fifos.trans h.fifos

theorem withCoils {coils : Bank Bool} (h : img.coils.Keeps coils) : img.Keeps { img with coils } :=
  { refl img with coils := h }

theorem withRegisters {holdingRegisters : Bank Word} (h : img.holdingRegisters.Keeps holdingRegisters) :
    img.Keeps { img with holdingRegisters } :=
  { refl img with holdingRegisters := h }

theorem withFiles {files : Files} (h : img.files.Keeps files) : img.Keeps { img with files } :=
  { refl img with files := h }

end Image.Keeps

/-! ## Accesses -/

/-- The access gives a value of this kind, or is refused for its address. -/
def Grants {α : Type} (kind : α → Prop) : Except ImageError α → Prop
  | .ok a => kind a
  | .error e => e.exception = .illegalDataAddress

namespace Grants

variable {α β : Type} {kind : α → Prop} {x : Except ImageError α}

theorem bind {kind' : β → Prop} {f : α → Except ImageError β} (h : Grants kind x)
    (hf : ∀ a, kind a → Grants kind' (f a)) : Grants kind' (x >>= f) := by
  cases x with
  | ok a => exact hf a h
  | error e => exact h

theorem mapM {kind : α → β → Prop} {f : α → Except ImageError β} (h : ∀ a, Grants (kind a) (f a)) (as : List α) :
    Grants (List.Forall₂ kind as) (as.mapM f) := by
  induction as with
  | nil => exact List.Forall₂.nil
  | cons a as ih =>
      rw [List.mapM_cons]
      exact (h a).bind fun b hb => ih.bind fun bs hbs => List.Forall₂.cons hb hbs

end Grants

/-- Some accesses were made one after the other, up to the first that was refused for its address. -/
def Leaves {α : Type} (kind : α → Prop) (made : Option ImageError × α) : Prop :=
  (∀ e, made.1 = some e → e.exception = .illegalDataAddress) ∧ kind made.2

theorem Leaves.refused {α : Type} {kind : α → Prop} {e : ImageError} {a : α} (he : e.exception = .illegalDataAddress)
    (h : kind a) : Leaves kind (some e, a) :=
  ⟨fun _ heq => Option.some.inj heq ▸ he, h⟩

theorem Leaves.mono {α : Type} {kind kind' : α → Prop} {made : Option ImageError × α} (h : Leaves kind made)
    (hk : ∀ a, kind a → kind' a) : Leaves kind' made :=
  ⟨h.1, hk _ h.2⟩

namespace Bank

variable {α : Type} (b : Bank α) (addr : Address)

theorem grants_get : Grants (fun _ => True) (b.get addr) := by
  unfold get
  split
  · trivial
  · rfl

theorem grants_getEach (n : Nat) : Grants (·.length = n) (b.getEach addr n) := by
  induction n generalizing addr with
  | zero => exact List.length_nil
  | succ n ih =>
      refine (b.grants_get addr).bind fun v _ => (ih (addr + 1)).bind fun vs hvs => ?_
      show (v :: vs).length = n + 1
      rw [List.length_cons, hvs]

theorem grants_getRange (qty : Quantity) : Grants (·.length = qty.toNat) (b.getRange addr qty) := by
  unfold getRange
  split
  · rename_i h
    subst h
    exact List.length_nil
  · split
    · rfl
    · exact b.grants_getEach addr qty.toNat

theorem grants_write (value : α) : Grants b.Keeps (b.write addr value) := by
  unfold write
  split
  · rename_i cell hcell
    split
    · rename_i hopen
      exact .insert hcell hopen value
    · rfl
  · rfl

theorem leaves_writeEach (values : List α) : Leaves b.Keeps (b.writeEach addr values) := by
  induction values generalizing b addr with
  | nil => exact ⟨nofun, .refl b⟩
  | cons v vs ih =>
      have h := b.grants_write addr v
      unfold writeEach
      split <;> rename_i hwrite <;> rw [hwrite] at h
      · exact (ih _ (addr + 1)).mono fun _ => h.trans
      · exact .refused h (.refl b)

theorem leaves_writeRange (values : List α) : Leaves b.Keeps (b.writeRange addr values) := by
  unfold writeRange
  split
  · exact .refused rfl (.refl b)
  · exact b.leaves_writeEach addr values

end Bank

namespace Files

variable (fs : Files) (file record : UInt16)

theorem grants_span (n : Nat) :
    Grants (fun records => fs.records? file = some records ∧ record.toNat + n ≤ records.length) (fs.span file record n) := by
  unfold span
  split
  · rfl
  · rename_i records hfile
    split
    · rfl
    · rename_i hroom
      rw [not_or, Nat.not_lt, Nat.not_lt] at hroom
      exact ⟨hfile, hroom.2⟩

theorem grants_read (length : UInt16) : Grants (·.length = length.toNat) (fs.read file record length) := by
  refine (fs.grants_span file record length.toNat).bind fun records ⟨_, hroom⟩ => ?_
  show ((records.drop record.toNat).take length.toNat).length = length.toNat
  rw [List.length_take, List.length_drop]
  omega

theorem grants_write (data : List Word) : Grants fs.Keeps (fs.write file record data) := by
  refine (fs.grants_span file record data.length).bind fun records ⟨hfile, hroom⟩ other => ?_
  unfold records? at hfile ⊢
  rw [Std.ExtTreeMap.getElem?_insert]
  split
  · rename_i heq
    rw [← Std.compare_eq_iff_eq.mp heq, hfile, Option.map_some, Option.map_some, List.length_append, List.length_append,
      List.length_take, List.length_drop]
    congr 1
    omega
  · rfl

theorem leaves_writeRecords (records : List FileRecord) : Leaves fs.Keeps (Image.writeRecords fs records) := by
  induction records generalizing fs with
  | nil => exact ⟨nofun, fun _ => rfl⟩
  | cons r rs ih =>
      have h := fs.grants_write r.file r.record r.data
      unfold Image.writeRecords
      split <;> rename_i hwrite <;> rw [hwrite] at h
      · exact (ih _).mono fun _ hrest file => (hrest file).trans (h file)
      · exact .refused h fun _ => rfl

end Files

theorem Fifos.grants_read (fs : Fifos) (addr : Address) : Grants (fun _ => True) (fs.read addr) := by
  unfold read
  split
  · trivial
  · rfl

/-! ## Answers -/

/-- The answer has the shape that the request asks for, and the quantity is one that is admitted. -/
inductive Request.AnsweredBy : Request → Response → Prop
  | readCoils {addr : Address} {qty : Quantity} {coils : List Bool} (admits : Image.Admits Image.maxReadBits qty.toNat)
      (length : coils.length = qty.toNat) : AnsweredBy (.readCoils addr qty) (.readCoils coils)
  | readDiscreteInputs {addr : Address} {qty : Quantity} {coils : List Bool}
      (admits : Image.Admits Image.maxReadBits qty.toNat) (length : coils.length = qty.toNat) :
      AnsweredBy (.readDiscreteInputs addr qty) (.readDiscreteInputs coils)
  | readHoldingRegisters {addr : Address} {qty : Quantity} {words : List Word}
      (admits : Image.Admits Image.maxReadRegisters qty.toNat) (length : words.length = qty.toNat) :
      AnsweredBy (.readHoldingRegisters addr qty) (.readHoldingRegisters words)
  | readInputRegisters {addr : Address} {qty : Quantity} {words : List Word}
      (admits : Image.Admits Image.maxReadRegisters qty.toNat) (length : words.length = qty.toNat) :
      AnsweredBy (.readInputRegisters addr qty) (.readInputRegisters words)
  | writeSingleCoil {addr : Address} {value : Bool} :
      AnsweredBy (.writeSingleCoil addr value) (.writeSingleCoil addr value)
  | writeSingleRegister {addr : Address} {value : Word} :
      AnsweredBy (.writeSingleRegister addr value) (.writeSingleRegister addr value)
  | writeMultipleCoils {addr : Address} {coils : List Bool} {qty : Quantity}
      (admits : Image.Admits Image.maxWriteCoils coils.length) (length : qty.toNat = coils.length) :
      AnsweredBy (.writeMultipleCoils addr coils) (.writeMultipleCoils addr qty)
  | writeMultipleRegisters {addr : Address} {words : List Word} {qty : Quantity}
      (admits : Image.Admits Image.maxWriteRegisters words.length) (length : qty.toNat = words.length) :
      AnsweredBy (.writeMultipleRegisters addr words) (.writeMultipleRegisters addr qty)
  | readFileRecord {spans : List FileSpan} {blocks : List (List Word)}
      (lengths : List.Forall₂ (fun span block => block.length = span.length.toNat) spans blocks) :
      AnsweredBy (.readFileRecord spans) (.readFileRecord blocks)
  | writeFileRecord {records : List FileRecord} : AnsweredBy (.writeFileRecord records) (.writeFileRecord records)
  | maskWriteRegister {addr : Address} {andMask orMask : Word} :
      AnsweredBy (.maskWriteRegister addr andMask orMask) (.maskWriteRegister addr andMask orMask)
  | readWriteMultipleRegisters {addr : Address} {qty : Quantity} {writeAddr : Address} {words values : List Word}
      (admits : Image.Admits Image.maxReadRegisters qty.toNat) (length : values.length = qty.toNat) :
      AnsweredBy (.readWriteMultipleRegisters addr qty writeAddr words) (.readWriteMultipleRegisters values)
  | readFifoQueue {addr : Address} {words : List Word} : AnsweredBy (.readFifoQueue addr) (.readFifoQueue words)

theorem Request.AnsweredBy.function {r : Request} {answer : Response} (h : r.AnsweredBy answer) :
    answer.function = r.function := by
  cases h <;> rfl

namespace Image

/-- What comes of a request: the answer, and the image afterwards. -/
inductive Carries (img : Image) (r : Request) : Served → Image → Prop
  | turnedAway {e : ExceptionCode} (h : e = .illegalFunction ∨ e = .illegalDataValue) : Carries img r (.error e) img
  | refused {img' : Image} (keeps : img.Keeps img') : Carries img r (.error .illegalDataAddress) img'
  | answered {answer : Response} {img' : Image} (keeps : img.Keeps img') (h : r.AnsweredBy answer) :
      Carries img r (.ok answer) img'

section
variable {img img' : Image} {r : Request}

theorem Carries.keeps {served : Served} (h : img.Carries r served img') : img.Keeps img' := by
  cases h with
  | turnedAway _ => exact .refl img
  | refused keeps => exact keeps
  | answered keeps _ => exact keeps

theorem Carries.of_refused {e : ImageError} (he : e.exception = .illegalDataAddress) (keeps : img.Keeps img') :
    img.Carries r (.error e.exception) img' :=
  he ▸ .refused keeps

theorem carries_readRange {α : Type} {b : Bank α} {most : Nat} {addr : Address} {qty : Quantity}
    {answer : List α → Response} (h : img' = img ∨ Admits most qty.toNat) (keeps : img.Keeps img')
    (shape : ∀ values, Admits most qty.toNat → values.length = qty.toNat → r.AnsweredBy (answer values)) :
    img.Carries r (readRange b most addr qty answer) img' := by
  unfold readRange
  split
  · rename_i admits
    have hread := b.grants_getRange addr qty
    split <;> rename_i hget <;> rw [hget] at hread
    · exact .answered keeps (shape _ admits hread)
    · exact .of_refused hread keeps
  · rename_i hqty
    obtain rfl | admits := h
    · exact .turnedAway (.inr rfl)
    · exact absurd admits hqty

theorem carries_written {α : Type} {made : Option ImageError × α} {kind : α → Prop} {answer : Response}
    (h : Leaves kind made) (keeps : img.Keeps img') (shape : r.AnsweredBy answer) :
    img.Carries r (written made.1 answer) img' := by
  unfold written
  split
  · exact .answered keeps shape
  · rename_i e he
    exact .of_refused (h.1 e he) keeps

end

theorem toNat_ofNat_of_admits {most n : Nat} (hmost : most < 65536) (h : Admits most n) : (UInt16.ofNat n).toNat = n :=
  UInt16.toNat_ofNat_of_lt' (Nat.lt_of_le_of_lt h.2 hmost)

theorem carries_carryOut (img : Image) (r : Request) : img.Carries r (img.carryOut r).1 (img.carryOut r).2 := by
  cases r with
  | readCoils addr qty => exact carries_readRange (.inl rfl) (.refl img) fun _ => .readCoils
  | readDiscreteInputs addr qty => exact carries_readRange (.inl rfl) (.refl img) fun _ => .readDiscreteInputs
  | readHoldingRegisters addr qty => exact carries_readRange (.inl rfl) (.refl img) fun _ => .readHoldingRegisters
  | readInputRegisters addr qty => exact carries_readRange (.inl rfl) (.refl img) fun _ => .readInputRegisters
  | writeSingleCoil addr value =>
      have h := img.coils.grants_write addr value
      simp only [carryOut]
      split <;> rename_i hwrite <;> rw [hwrite] at h
      · exact .answered (.withCoils h) .writeSingleCoil
      · exact .of_refused h (.refl img)
  | writeSingleRegister addr value =>
      have h := img.holdingRegisters.grants_write addr value
      simp only [carryOut]
      split <;> rename_i hwrite <;> rw [hwrite] at h
      · exact .answered (.withRegisters h) .writeSingleRegister
      · exact .of_refused h (.refl img)
  | writeMultipleCoils addr values =>
      have h := img.coils.leaves_writeRange addr values
      simp only [carryOut]
      split
      · rename_i admits
        exact carries_written h (.withCoils h.2)
          (.writeMultipleCoils admits (toNat_ofNat_of_admits (by decide) admits))
      · exact .turnedAway (.inr rfl)
  | writeMultipleRegisters addr values =>
      have h := img.holdingRegisters.leaves_writeRange addr values
      simp only [carryOut]
      split
      · rename_i admits
        exact carries_written h (.withRegisters h.2)
          (.writeMultipleRegisters admits (toNat_ofNat_of_admits (by decide) admits))
      · exact .turnedAway (.inr rfl)
  | maskWriteRegister addr andMask orMask =>
      have hget := img.holdingRegisters.grants_get addr
      simp only [carryOut]
      split <;> rename_i hcurrent <;> rw [hcurrent] at hget
      · exact .of_refused hget (.refl img)
      · rename_i current
        have h := img.holdingRegisters.grants_write addr ((current &&& andMask) ||| (orMask &&& ~~~andMask))
        split <;> rename_i hwrite <;> rw [hwrite] at h
        · exact .answered (.withRegisters h) .maskWriteRegister
        · exact .of_refused h (.refl img)
  | readWriteMultipleRegisters addr qty writeAddr values =>
      have h := img.holdingRegisters.leaves_writeRange writeAddr values
      simp only [carryOut]
      split
      · rename_i admits
        split <;> rename_i hwrite <;> rw [hwrite] at h
        · exact .of_refused (h.1 _ rfl) (.withRegisters h.2)
        · exact carries_readRange (.inr admits.1) (.withRegisters h.2) fun _ => .readWriteMultipleRegisters
      · exact .turnedAway (.inr rfl)
  | readFileRecord spans =>
      have h := Grants.mapM (fun s : FileSpan => img.files.grants_read s.file s.record s.length) spans
      simp only [carryOut]
      split <;> rename_i hread <;> rw [hread] at h
      · exact .answered (.refl img) (.readFileRecord h)
      · exact .of_refused h (.refl img)
  | writeFileRecord records =>
      have h := img.files.leaves_writeRecords records
      exact carries_written h (.withFiles h.2) .writeFileRecord
  | readFifoQueue addr =>
      have h := img.fifos.grants_read addr
      simp only [carryOut]
      split <;> rename_i hread <;> rw [hread] at h
      · exact .answered (.refl img) .readFifoQueue
      · exact .of_refused h (.refl img)
  | custom code data => exact .turnedAway (.inl rfl)

/-- An answer that is too long is replaced, but what was done stays. -/
theorem handle_eq (img : Image) (r : Request) :
    img.handle r = ((img.carryOut r).1.bind fun answer => if answer.Fits then .ok answer else .error .illegalDataValue,
      (img.carryOut r).2) := by
  unfold handle
  split <;> rename_i heq <;> rw [heq] <;> rfl

theorem keeps_handle (img : Image) (r : Request) : img.Keeps (img.handle r).2 := by
  rw [handle_eq]
  exact (carries_carryOut img r).keeps

theorem carryOut_of_answer {img : Image} {r : Request} {answer : Response} (h : (img.handle r).1 = .ok answer) :
    (img.carryOut r).1 = .ok answer ∧ answer.Fits := by
  rw [handle_eq] at h
  cases hserved : (img.carryOut r).1 with
  | error e =>
      rw [hserved] at h
      cases h
  | ok response =>
      simp only [hserved, Except.bind] at h
      split at h
      · rename_i fits
        cases h
        exact ⟨rfl, fits⟩
      · cases h

theorem carryOut_of_exception {img : Image} {r : Request} {e : ExceptionCode} (h : (img.handle r).1 = .error e) :
    (img.carryOut r).1 = .error e ∨
      ∃ answer, (img.carryOut r).1 = .ok answer ∧ ¬ answer.Fits ∧ e = .illegalDataValue := by
  rw [handle_eq] at h
  cases hserved : (img.carryOut r).1 with
  | error e' =>
      rw [hserved] at h
      exact .inl h
  | ok response =>
      simp only [hserved, Except.bind] at h
      split at h
      · cases h
      · rename_i fits
        cases h
        exact .inr ⟨response, rfl, fits, rfl⟩

end Image

namespace ImageService

theorem handle_of_image {s : ImageService} {img : Image} (h : s.image = some img) (r : Request) :
    s.handle r = ((img.handle r).1, { s with image := some (img.handle r).2 }) := by
  unfold handle
  rw [h]

theorem handle_of_none {s : ImageService} (h : s.image = none) (r : Request) :
    s.handle r = (.error .illegalFunction, s) := by
  unfold handle
  rw [h]

end ImageService

/-! ## Requests that change nothing -/

/-- The request is for values only, or for a function that no image has. -/
def Request.IsIdle : Request → Prop
  | readCoils .. | readDiscreteInputs .. | readHoldingRegisters .. | readInputRegisters .. | readFileRecord _
  | readFifoQueue _ | custom .. => True
  | _ => False

theorem Image.handle_of_isIdle (img : Image) {r : Request} (idle : r.IsIdle) : (img.handle r).2 = img := by
  rw [handle_eq]
  cases r with
  | readCoils _ _ | readDiscreteInputs _ _ | readHoldingRegisters _ _ | readInputRegisters _ _ | custom _ _ => rfl
  | readFileRecord _ | readFifoQueue _ =>
      simp only [carryOut]
      split <;> rfl
  | _ => exact idle.elim

end Modbus
