import Modbus.Proofs.Image.Outcomes

/-!
# What is not theirs

Whatever clients demand of a service, in whatever order and with whatever outcome, its image keeps what does not belong
to them. A demand that is for another unit, or that asks for nothing that an image could do, leaves all of it as it is.
-/

namespace Modbus.ImageService

/-- A request as it comes to a service: to be handled, or for a unit that may be another. -/
inductive Demand
  | handle (r : Request)
  | call (unit : UnitId) (r : Request)

def meet (s : ImageService) : Demand → ImageService
  | .handle r => (s.handle r).2
  | .call unit r => (s.call unit r).2

def meetAll (s : ImageService) (demands : List Demand) : ImageService := demands.foldl meet s

/-- Nothing is done for the demand. -/
def IsIdle (s : ImageService) : Demand → Prop
  | .handle r => r.IsIdle
  | .call unit r => s.accepts unit = false ∨ r.IsIdle

/-- The service is for the same unit, and its image, if there is one, is as far as clients cannot change it. -/
structure Keeps (s s' : ImageService) : Prop where
  unit : s'.unit = s.unit
  without : s.image = none → s'.image = none
  image {img : Image} : s.image = some img → ∃ img', s'.image = some img' ∧ img.Keeps img'

namespace Keeps

variable {s s' s'' : ImageService}

theorem refl (s : ImageService) : s.Keeps s := ⟨rfl, id, fun h => ⟨_, h, .refl _⟩⟩

theorem trans (h : s.Keeps s') (h' : s'.Keeps s'') : s.Keeps s'' where
  unit := h'.unit.trans h.unit
  without hnone := h'.without (h.without hnone)
  image himg := by
    obtain ⟨img', himg', keeps⟩ := h.image himg
    obtain ⟨img'', himg'', keeps'⟩ := h'.image himg'
    exact ⟨img'', himg'', keeps.trans keeps'⟩

theorem accepts_eq (h : s.Keeps s') (unit : UnitId) : s'.accepts unit = s.accepts unit := by
  unfold accepts
  rw [h.unit]

theorem isIdle_iff (h : s.Keeps s') (demand : Demand) : s'.IsIdle demand ↔ s.IsIdle demand := by
  cases demand with
  | handle r => exact Iff.rfl
  | call unit r =>
      show s'.accepts unit = false ∨ r.IsIdle ↔ s.accepts unit = false ∨ r.IsIdle
      rw [h.accepts_eq]

end Keeps

theorem keeps_handle (s : ImageService) (r : Request) : s.Keeps (s.handle r).2 := by
  cases himg : s.image with
  | none =>
      rw [handle_of_none himg]
      exact .refl s
  | some img =>
      rw [handle_of_image himg]
      refine ⟨rfl, fun hnone => ?_, fun {old} hold => ⟨_, rfl, ?_⟩⟩
      · rw [himg] at hnone
        cases hnone
      · rw [himg] at hold
        cases hold
        exact img.keeps_handle r

theorem handle_of_isIdle (s : ImageService) {r : Request} (idle : r.IsIdle) : (s.handle r).2 = s := by
  cases himg : s.image with
  | none => rw [handle_of_none himg]
  | some img =>
      rw [handle_of_image himg, img.handle_of_isIdle idle, ← himg]

theorem keeps_meet (s : ImageService) (demand : Demand) : s.Keeps (s.meet demand) := by
  cases demand with
  | handle r => exact s.keeps_handle r
  | call unit r =>
      simp only [meet, call]
      split
      · exact s.keeps_handle r
      · exact .refl s

theorem meet_of_isIdle {s : ImageService} {demand : Demand} (idle : s.IsIdle demand) : s.meet demand = s := by
  cases demand with
  | handle r => exact s.handle_of_isIdle idle
  | call unit r =>
      simp only [meet, call]
      split
      · rename_i accepted
        obtain foreign | idle := idle
        · rw [foreign] at accepted
          cases accepted
        · exact s.handle_of_isIdle idle
      · rfl

theorem keeps_meetAll (s : ImageService) (demands : List Demand) : s.Keeps (s.meetAll demands) := by
  induction demands generalizing s with
  | nil => exact .refl s
  | cons demand demands ih => exact (s.keeps_meet demand).trans (ih (s.meet demand))

/-- Whatever has been demanded, what does not belong to clients is as it was, and an idle demand changes nothing. -/
theorem meetAll_protects (s : ImageService) (demands : List Demand) :
    s.Keeps (s.meetAll demands) ∧
      ∀ demand, s.IsIdle demand → (s.meetAll demands).meet demand = s.meetAll demands := by
  have keeps := s.keeps_meetAll demands
  exact ⟨keeps, fun demand idle => meet_of_isIdle ((keeps.isIdle_iff demand).mpr idle)⟩

end Modbus.ImageService
