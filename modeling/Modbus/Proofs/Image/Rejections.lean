import Modbus.Proofs.Image.Answers

/-!
# Rejected requests

A request that is rejected for its function or for a value in it should leave the image as it was. Quantities are checked
before anything is done, but the length of an answer only afterwards. That makes a difference for the one request that
changes something and can have an answer that is too long: a list of record blocks, which the answer repeats.
-/

namespace Modbus

theorem Request.AnsweredBy.fits_or {r : Request} {answer : Response} (h : r.AnsweredBy answer) :
    answer.Fits ∨ (∃ spans, r = .readFileRecord spans) ∨ (∃ records, r = .writeFileRecord records) ∨
      ∃ addr, r = .readFifoQueue addr := by
  cases h with
  | readFileRecord _ => exact .inr (.inl ⟨_, rfl⟩)
  | writeFileRecord => exact .inr (.inr (.inl ⟨_, rfl⟩))
  | readFifoQueue => exact .inr (.inr (.inr ⟨_, rfl⟩))
  | readCoils admits length | readDiscreteInputs admits length =>
      have most := admits.2
      simp only [Image.maxReadBits] at most
      refine .inl ?_
      simp only [Response.Fits, Response.size, Coils.size, Pdu.maxSize]
      omega
  | readHoldingRegisters admits length | readInputRegisters admits length
  | readWriteMultipleRegisters admits length =>
      have most := admits.2
      simp only [Image.maxReadRegisters] at most
      refine .inl ?_
      simp only [Response.Fits, Response.size, Pdu.maxSize]
      omega
  | _ => exact .inl (by simp [Response.Fits, Response.size, Pdu.maxSize])

namespace Image

theorem handle_eq_carryOut (img : Image) {r : Request} (spans : ∀ spans, r ≠ .readFileRecord spans)
    (records : ∀ records, r ≠ .writeFileRecord records) (queue : ∀ addr, r ≠ .readFifoQueue addr) :
    img.handle r = img.carryOut r := by
  rw [handle_eq]
  refine Prod.ext ?_ rfl
  have carries := carries_carryOut img r
  cases hserved : (img.carryOut r).1 with
  | error e => rfl
  | ok answer =>
      rw [hserved] at carries
      obtain _ | _ | ⟨_, shape⟩ := carries
      obtain fits | ⟨_, hr⟩ | ⟨_, hr⟩ | ⟨_, hr⟩ := shape.fits_or
      · exact if_pos fits
      · exact absurd hr (spans _)
      · exact absurd hr (records _)
      · exact absurd hr (queue _)

/-- The request is a list of blocks that take more than a PDU, all of which can be written, and these are the files
then. -/
def Overfills (img : Image) (r : Request) (files : Files) : Prop :=
  ∃ records, r = .writeFileRecord records ∧ Pdu.maxSize < r.size ∧ writeRecords img.files records = (none, files)

variable {img img' : Image} {r : Request}

theorem Overfills.handle {files : Files} (h : img.Overfills r files) :
    img.handle r = (.error .illegalDataValue, { img with files }) := by
  obtain ⟨records, rfl, long, hwrite⟩ := h
  have hcarry : img.carryOut (.writeFileRecord records) = (.ok (.writeFileRecord records), { img with files }) := by
    simp only [carryOut, hwrite, written]
  have hfits : ¬ (Response.writeFileRecord records).Fits := Nat.not_le.mpr long
  rw [handle_eq, hcarry]
  simp only [Except.bind, if_neg hfits]

theorem Carries.eq_of_error {e : ExceptionCode} (h : img.Carries r (.error e) img') (he : e ≠ .illegalDataAddress) :
    img' = img := by
  cases h with
  | turnedAway _ => rfl
  | refused _ => exact absurd rfl he

/-- What has been done for an answer that is too long. -/
theorem overfills_of_not_fits {answer : Response} (h : (img.carryOut r).1 = .ok answer) (long : ¬ answer.Fits) :
    (img.handle r).2 = img ∨ ∃ files, img.Overfills r files := by
  have carries := carries_carryOut img r
  rw [h] at carries
  obtain _ | _ | ⟨_, shape⟩ := carries
  obtain fits | ⟨spans, rfl⟩ | ⟨records, rfl⟩ | ⟨addr, rfl⟩ := shape.fits_or
  · exact absurd fits long
  · exact .inl (img.handle_of_isIdle trivial)
  · cases shape
    refine .inr ⟨(writeRecords img.files records).2, records, rfl, Nat.not_le.mp long, Prod.ext ?_ rfl⟩
    simp only [carryOut, written] at h
    split at h
    · assumption
    · cases h
  · exact .inl (img.handle_of_isIdle trivial)

theorem image_of_rejected {e : ExceptionCode} (h : (img.handle r).1 = .error e) (he : e ≠ .illegalDataAddress) :
    (img.handle r).2 = img ∨ ∃ files, img.Overfills r files := by
  obtain hserved | ⟨answer, hserved, long, _⟩ := carryOut_of_exception h
  · have carries := carries_carryOut img r
    rw [hserved] at carries
    exact .inl ((congrArg Prod.snd (handle_eq img r)).trans (carries.eq_of_error he))
  · exact overfills_of_not_fits hserved long

end Image

theorem Files.write_whole {fs : Files} {file : UInt16} {records data : List Word} (hfile : fs.records? file = some records)
    (hlength : data.length = records.length) : fs.write file 0 data = .ok ⟨fs.files.insert file data⟩ := by
  have hspan : fs.span file 0 data.length = .ok records := by
    unfold Files.span
    rw [show fs.files[file]? = some records from hfile]
    exact if_neg (by simp [Files.maxRecord, hlength])
  unfold Files.write
  rw [hspan]
  simp [bind, Except.bind, pure, Except.pure, hlength]

namespace ImageService

/-- A request that is rejected for its function or for a value leaves everything as it was, unless it is a list of blocks
that are too long for a PDU and change the files: those have been written. -/
theorem handle_rejected {s : ImageService} {r : Request}
    (rejected : (s.handle r).1 = .error .illegalDataValue ∨ (s.handle r).1 = .error .illegalFunction) :
    (s.handle r).2 = s ↔ ∀ img files, s.image = some img → img.Overfills r files → files = img.files := by
  cases himg : s.image with
  | none =>
      rw [handle_of_none himg]
      exact ⟨fun _ => nofun, fun _ => rfl⟩
  | some img =>
      rw [handle_of_image himg] at rejected ⊢
      have himage : (img.handle r).2 = img ∨ ∃ files, img.Overfills r files :=
        rejected.elim (Image.image_of_rejected · nofun) (Image.image_of_rejected · nofun)
      constructor
      · rintro unchanged _ files ⟨⟩ overfills
        rw [overfills.handle] at unchanged
        have hsame := (congrArg ImageService.image unchanged).trans himg
        exact congrArg Image.files (Option.some.inj hsame)
      · intro hfiles
        obtain hsame | ⟨files, overfills⟩ := himage
        · rw [hsame, ← himg]
        · rw [overfills.handle, hfiles img files rfl overfills, ← himg]

/-- Nothing is written for a request that wants to read more registers than it may. -/
theorem handle_rejected_exchange :
    let bank : Bank Word := ⟨Std.ExtTreeMap.insert ∅ 0 ⟨7, true⟩⟩
    let service : ImageService := { image := some { holdingRegisters := bank } }
    let r : Request := .readWriteMultipleRegisters 0 126 0 [1]
    (service.handle r).1 = .error .illegalDataValue ∧ (service.handle r).2 = service := by
  intro bank service r
  have rejected : (service.handle r).1 = .error .illegalDataValue := by rfl
  refine ⟨rejected, (handle_rejected (.inl rejected)).mpr ?_⟩
  rintro img files _ ⟨records, hr, _⟩
  exact Request.noConfusion hr

/-- A block of 123 words is written, although the request is rejected for its length. -/
theorem rejected_block_written :
    let img : Image := { files := ⟨Std.ExtTreeMap.insert ∅ 1 (List.replicate 123 0)⟩ }
    let service : ImageService := { image := some img }
    let r : Request := .writeFileRecord [⟨1, 0, List.replicate 123 1⟩]
    service.Reachable ∧ (service.handle r).1 = .error .illegalDataValue ∧ (service.handle r).2 ≠ service := by
  intro img service r
  have reachable : service.Reachable := by
    rintro _ ⟨⟩
    exact .files .empty (@Files.Edit.add _ 1 123 _ rfl)
  have overfills : img.Overfills r ⟨Std.ExtTreeMap.insert img.files.files 1 (List.replicate 123 1)⟩ := by
    refine ⟨_, rfl, by decide +kernel, ?_⟩
    have hwrite : img.files.write 1 0 (List.replicate 123 1) = _ :=
      Files.write_whole Std.ExtTreeMap.getElem?_insert_self (by rw [List.length_replicate, List.length_replicate])
    simp only [Image.writeRecords, hwrite]
  rw [handle_of_image (show service.image = some img from rfl), overfills.handle]
  refine ⟨reachable, rfl, fun hsame => ?_⟩
  have himage := Option.some.inj (congrArg ImageService.image hsame)
  have hfile := congrArg (fun img : Image => img.files.records? 1) himage
  simp only [Files.records?, Std.ExtTreeMap.getElem?_insert_self, img, Option.some.injEq] at hfile
  exact absurd hfile (by decide)

end ImageService

end Modbus
