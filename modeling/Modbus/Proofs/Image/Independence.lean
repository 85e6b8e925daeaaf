import Modbus.Proofs.Image.Views

/-!
# Independent requests

Each request has a footprint, the places of an image that it reads or writes. It is confined to them, also when it fails
part-way, so clients whose requests have separate footprints do not notice in which order they are served.
-/

namespace Modbus

inductive Place
  | coil (addr : Address)
  | discreteInput (addr : Address)
  | inputRegister (addr : Address)
  | holdingRegister (addr : Address)
  | record (place : UInt16 × Nat)
  | fifo (addr : Address)

inductive Content
  | coil (cell : Option (Cell Bool))
  | register (cell : Option (Cell Word))
  | record (word : Option Word)
  | fifo (queue : Option (List Word))

namespace Image

def content (img : Image) : Place → Content
  | .coil addr => .coil img.coils.cells[addr]?
  | .discreteInput addr => .coil img.discreteInputs.cells[addr]?
  | .inputRegister addr => .register img.inputRegisters.cells[addr]?
  | .holdingRegister addr => .register img.holdingRegisters.cells[addr]?
  | .record place => .record (img.files.word? place)
  | .fifo addr => .fifo (img.fifos.queue? addr)

def view : View Image Place Content (UInt16 → Option Nat) := ⟨content, fun img => img.files.lengths⟩

def coilPart : view.Part (@Bank.view Bool) where
  get := coils
  set img coils := { img with coils }
  place := .coil
  get_set _ _ := rfl
  shape_get _ := rfl
  shape_set _ := rfl
  content_get := Content.coil.injEq .. |>.to_iff
  content_set {img coils p} hp := by
    cases p with
    | coil addr => exact absurd ⟨addr, rfl⟩ hp
    | _ => rfl

def discreteInputPart : view.Part (@Bank.view Bool) where
  get := discreteInputs
  set img discreteInputs := { img with discreteInputs }
  place := .discreteInput
  get_set _ _ := rfl
  shape_get _ := rfl
  shape_set _ := rfl
  content_get := Content.coil.injEq .. |>.to_iff
  content_set {img discreteInputs p} hp := by
    cases p with
    | discreteInput addr => exact absurd ⟨addr, rfl⟩ hp
    | _ => rfl

def inputRegisterPart : view.Part (@Bank.view Word) where
  get := inputRegisters
  set img inputRegisters := { img with inputRegisters }
  place := .inputRegister
  get_set _ _ := rfl
  shape_get _ := rfl
  shape_set _ := rfl
  content_get := Content.register.injEq .. |>.to_iff
  content_set {img inputRegisters p} hp := by
    cases p with
    | inputRegister addr => exact absurd ⟨addr, rfl⟩ hp
    | _ => rfl

def holdingRegisterPart : view.Part (@Bank.view Word) where
  get := holdingRegisters
  set img holdingRegisters := { img with holdingRegisters }
  place := .holdingRegister
  get_set _ _ := rfl
  shape_get _ := rfl
  shape_set _ := rfl
  content_get := Content.register.injEq .. |>.to_iff
  content_set {img holdingRegisters p} hp := by
    cases p with
    | holdingRegister addr => exact absurd ⟨addr, rfl⟩ hp
    | _ => rfl

def recordPart : view.Part Files.view where
  get := files
  set img files := { img with files }
  place := .record
  get_set _ _ := rfl
  shape_get h := h
  shape_set h := h
  content_get := Content.record.injEq .. |>.to_iff
  content_set {img files p} hp := by
    cases p with
    | record place => exact absurd ⟨place, rfl⟩ hp
    | _ => rfl

def fifoPart : view.Part Fifos.view where
  get := fifos
  set img fifos := { img with fifos }
  place := .fifo
  get_set _ _ := rfl
  shape_get _ := rfl
  shape_set _ := rfl
  content_get := Content.fifo.injEq .. |>.to_iff
  content_set {img fifos p} hp := by
    cases p with
    | fifo addr => exact absurd ⟨addr, rfl⟩ hp
    | _ => rfl

theorem eq_of_alike {img img' : Image} (h : view.Alike Set.univ img img') : img = img' := by
  have hcoils := Bank.eq_of_alike (coilPart.alike_univ h)
  have hdiscreteInputs := Bank.eq_of_alike (discreteInputPart.alike_univ h)
  have hinputRegisters := Bank.eq_of_alike (inputRegisterPart.alike_univ h)
  have hholdingRegisters := Bank.eq_of_alike (holdingRegisterPart.alike_univ h)
  have hfiles := Files.eq_of_alike (recordPart.alike_univ h)
  have hfifos := Fifos.eq_of_alike (fifoPart.alike_univ h)
  cases img
  cases img'
  exact (Image.mk.injEq ..).mpr ⟨hcoils, hdiscreteInputs, hinputRegisters, hholdingRegisters, hfiles, hfifos⟩

end Image

/-- The places that a request reads or writes. -/
def Request.footprint : Request → Set Place
  | readCoils addr qty => .coil '' addr.span qty.toNat
  | readDiscreteInputs addr qty => .discreteInput '' addr.span qty.toNat
  | readHoldingRegisters addr qty => .holdingRegister '' addr.span qty.toNat
  | readInputRegisters addr qty => .inputRegister '' addr.span qty.toNat
  | writeSingleCoil addr _ => .coil '' {addr}
  | writeSingleRegister addr _ => .holdingRegister '' {addr}
  | writeMultipleCoils addr coils => .coil '' addr.span coils.length
  | writeMultipleRegisters addr words => .holdingRegister '' addr.span words.length
  | readFileRecord spans => .record '' {p | ∃ s ∈ spans, p ∈ Files.stretch s.file s.record s.length.toNat}
  | writeFileRecord records => .record '' {p | ∃ r ∈ records, p ∈ Files.stretch r.file r.record r.data.length}
  | maskWriteRegister addr _ _ => .holdingRegister '' {addr}
  | readWriteMultipleRegisters addr qty writeAddr words =>
    .holdingRegister '' (addr.span qty.toNat ∪ writeAddr.span words.length)
  | readFifoQueue addr => .fifo '' {addr}
  | custom .. => ∅

namespace Image

theorem carryOut_writeSingleCoil (img : Image) (addr : Address) (value : Bool) :
    img.carryOut (.writeSingleCoil addr value) =
      (written (img.coils.writeEach addr [value]).1 (.writeSingleCoil addr value),
        { img with coils := (img.coils.writeEach addr [value]).2 }) := by
  simp only [carryOut, Bank.writeEach]
  cases img.coils.write addr value <;> rfl

theorem carryOut_writeSingleRegister (img : Image) (addr : Address) (value : Word) :
    img.carryOut (.writeSingleRegister addr value) =
      (written (img.holdingRegisters.writeEach addr [value]).1 (.writeSingleRegister addr value),
        { img with holdingRegisters := (img.holdingRegisters.writeEach addr [value]).2 }) := by
  simp only [carryOut, Bank.writeEach]
  cases img.holdingRegisters.write addr value <;> rfl

theorem carryOut_maskWriteRegister (img : Image) (addr : Address) (andMask orMask : Word) :
    img.carryOut (.maskWriteRegister addr andMask orMask) =
      (written (img.holdingRegisters.mask addr andMask orMask).1 (.maskWriteRegister addr andMask orMask),
        { img with holdingRegisters := (img.holdingRegisters.mask addr andMask orMask).2 }) := by
  simp only [carryOut, Bank.mask, Bank.writeEach]
  cases img.holdingRegisters.get addr with
  | error e => rfl
  | ok current =>
      dsimp only
      cases img.holdingRegisters.write addr _ <;> rfl

/-- A write and then a read, as far as the bank is concerned. -/
def exchange (b : Bank Word) (addr : Address) (qty : Quantity) (writeAddr : Address) (values : List Word) :
    Served × Bank Word :=
  let (refused, b) := b.writeRange writeAddr values
  (refused.elim (readRange b maxReadRegisters addr qty .readWriteMultipleRegisters) fun e => .error e.exception, b)

theorem carryOut_readWriteMultipleRegisters (img : Image) {addr writeAddr : Address} {qty : Quantity}
    {values : List Word} (admits : Admits maxReadRegisters qty.toNat ∧ Admits maxExchangeWrite values.length) :
    img.carryOut (.readWriteMultipleRegisters addr qty writeAddr values) =
      ((exchange img.holdingRegisters addr qty writeAddr values).1,
        { img with holdingRegisters := (exchange img.holdingRegisters addr qty writeAddr values).2 }) := by
  simp only [carryOut, exchange, if_pos admits]
  obtain ⟨refused, holdingRegisters⟩ := img.holdingRegisters.writeRange writeAddr values
  cases refused <;> rfl

theorem confined_exchange (addr : Address) (qty : Quantity) (writeAddr : Address) (values : List Word) :
    Confined Bank.view (addr.span qty.toNat ∪ writeAddr.span values.length) fun b =>
      exchange b addr qty writeAddr values := by
  have hwrite := (Bank.confined_writeRange writeAddr values).mono
    (Set.subset_union_right (s := addr.span qty.toNat))
  have hread (refused : Option ImageError) : Confined Bank.view (addr.span qty.toNat ∪ writeAddr.span values.length)
      fun b => (refused.elim (readRange b maxReadRegisters addr qty .readWriteMultipleRegisters)
        fun e => .error e.exception, b) :=
    .reads fun alike => by rw [Bank.readRange_alike (alike.mono Set.subset_union_left)]
  exact hwrite.bind hread

def answered {α : Type} (values : Except ImageError α) (answer : α → Response) : Served :=
  match values with
  | .ok values => .ok (answer values)
  | .error e => .error e.exception

theorem carryOut_readFileRecord (img : Image) (spans : List FileSpan) :
    img.carryOut (.readFileRecord spans) =
      (answered (spans.mapM fun s => img.files.read s.file s.record s.length) .readFileRecord, img) := by
  simp only [carryOut]
  split <;> rename_i hread <;> rw [hread] <;> rfl

theorem carryOut_readFifoQueue (img : Image) (addr : Address) :
    img.carryOut (.readFifoQueue addr) = (answered (img.fifos.read addr) .readFifoQueue, img) := by
  simp only [carryOut]
  split <;> rename_i hread <;> rw [hread] <;> rfl

theorem confined_carryOut (r : Request) : Confined view r.footprint fun img => img.carryOut r := by
  cases r with
  | readCoils addr qty => exact .reads fun alike => Bank.readRange_alike (coilPart.alike alike)
  | readDiscreteInputs addr qty => exact .reads fun alike => Bank.readRange_alike (discreteInputPart.alike alike)
  | readHoldingRegisters addr qty => exact .reads fun alike => Bank.readRange_alike (holdingRegisterPart.alike alike)
  | readInputRegisters addr qty => exact .reads fun alike => Bank.readRange_alike (inputRegisterPart.alike alike)
  | writeSingleCoil addr value =>
      simp only [carryOut_writeSingleCoil]
      exact (coilPart.confined (Bank.confined_write value)).map fun refused => written refused _
  | writeSingleRegister addr value =>
      simp only [carryOut_writeSingleRegister]
      exact (holdingRegisterPart.confined (Bank.confined_write value)).map fun refused => written refused _
  | writeMultipleCoils addr values =>
      by_cases admits : Admits maxWriteCoils values.length
      · simp only [carryOut, if_pos admits]
        exact (coilPart.confined (Bank.confined_writeRange addr values)).map fun refused => written refused _
      · simp only [carryOut, if_neg admits]
        exact .pure _
  | writeMultipleRegisters addr values =>
      by_cases admits : Admits maxWriteRegisters values.length
      · simp only [carryOut, if_pos admits]
        exact (holdingRegisterPart.confined (Bank.confined_writeRange addr values)).map fun refused => written refused _
      · simp only [carryOut, if_neg admits]
        exact .pure _
  | maskWriteRegister addr andMask orMask =>
      simp only [carryOut_maskWriteRegister]
      exact (holdingRegisterPart.confined (Bank.confined_mask andMask orMask)).map fun refused => written refused _
  | readWriteMultipleRegisters addr qty writeAddr values =>
      by_cases admits : Admits maxReadRegisters qty.toNat ∧ Admits maxExchangeWrite values.length
      · simp only [carryOut_readWriteMultipleRegisters _ admits]
        exact holdingRegisterPart.confined (confined_exchange addr qty writeAddr values)
      · simp only [carryOut, if_neg admits]
        exact .pure _
  | readFileRecord spans =>
      simp only [carryOut_readFileRecord]
      exact .reads fun alike => congrArg (answered · .readFileRecord) (Files.readAll_alike (recordPart.alike alike))
  | writeFileRecord records =>
      exact (recordPart.confined (Files.confined_writeRecords records)).map fun refused => written refused _
  | readFifoQueue addr =>
      simp only [carryOut_readFifoQueue]
      exact .reads fun alike => congrArg (answered · .readFifoQueue) (Fifos.read_alike (fifoPart.alike alike))
  | custom code data => exact .pure _

/-- What comes of a request depends on its footprint, and what it does stays there. -/
theorem confined_handle (r : Request) : Confined view r.footprint fun img => img.handle r := by
  simp only [handle_eq]
  exact (confined_carryOut r).map fun served => served.bind _

end Image

namespace ImageService

/-- Requests with separate footprints, and requests that only read, can be handled in either order: each is answered the
same, and the same is left. -/
theorem handle_commutes (s : ImageService) {r r' : Request}
    (independent : (∀ p ∈ r.footprint, p ∉ r'.footprint) ∨ r.IsIdle ∧ r'.IsIdle) :
    ((s.handle r').2.handle r).1 = (s.handle r).1 ∧ ((s.handle r).2.handle r').1 = (s.handle r').1 ∧
      ((s.handle r).2.handle r').2 = ((s.handle r').2.handle r).2 := by
  cases himg : s.image with
  | none => simp only [handle_of_none himg, and_self]
  | some img =>
      obtain ⟨hr, hr', himage⟩ : ((img.handle r').2.handle r).1 = (img.handle r).1 ∧
          ((img.handle r).2.handle r').1 = (img.handle r').1 ∧
          ((img.handle r).2.handle r').2 = ((img.handle r').2.handle r).2 := by
        obtain separate | ⟨idle, idle'⟩ := independent
        · exact (Image.confined_handle r).commutes (Image.confined_handle r') separate Image.eq_of_alike img
        · simp only [img.handle_of_isIdle idle, img.handle_of_isIdle idle', and_self]
      simp only [handle_of_image himg, handle_of_image (s := { s with image := some _ }) rfl]
      exact ⟨hr, hr', by rw [himage]⟩

/-- A write that is refused half-way, and a write with a read behind it. -/
theorem handle_commutes_refused :
    let bank : Bank Word := ⟨((Std.ExtTreeMap.insert ∅ 0 ⟨7, true⟩).insert 1 ⟨0, false⟩).insert 2 ⟨9, true⟩⟩
    let service : ImageService := { image := some { holdingRegisters := bank } }
    let r : Request := .writeMultipleRegisters 0 [1, 2]
    let r' : Request := .readWriteMultipleRegisters 2 1 2 [5]
    (∀ p ∈ r.footprint, p ∉ r'.footprint) ∧ ((service.handle r').2.handle r).1 = .error .illegalDataAddress ∧
      ((service.handle r).2.handle r').1 = .ok (.readWriteMultipleRegisters [5]) ∧
      ((service.handle r).2.handle r').2 = ((service.handle r').2.handle r).2 := by
  intro bank service r r'
  have separate : ∀ p ∈ r.footprint, p ∉ r'.footprint := by
    rintro _ ⟨a, ha, rfl⟩ ⟨a', ha', heq⟩
    cases heq
    have hlt : a.toNat < 2 := ha.2
    have hle : 2 ≤ a.toNat := ha'.elim And.left And.left
    omega
  obtain ⟨hr, hr', himage⟩ := handle_commutes service (.inl separate)
  exact ⟨separate, hr.trans rfl, hr'.trans rfl, himage⟩

end ImageService

end Modbus
