import Mathlib.Data.Set.Image

/-!
# Operations confined to places

A store is looked at place by place, and through a shape that no operation changes. An operation is confined to some
places if it changes nothing elsewhere and nothing elsewhere makes a difference to it. Two operations that are confined
to separate places can be carried out in either order.
-/

namespace Modbus

/-- How a store is looked at: what stands at each place, and what is fixed. -/
structure View (σ Place Content Shape : Type) where
  content : σ → Place → Content
  shape : σ → Shape

variable {σ Place Content Shape β γ : Type} {view : View σ Place Content Shape} {places others : Set Place}

/-- The stores are the same as far as these places show. -/
structure View.Alike (view : View σ Place Content Shape) (places : Set Place) (s s' : σ) : Prop where
  shape : view.shape s = view.shape s'
  content : ∀ p ∈ places, view.content s p = view.content s' p

namespace View.Alike

variable {s s' s'' : σ}

theorem refl (s : σ) : view.Alike places s s := ⟨rfl, fun _ _ => rfl⟩

theorem symm (h : view.Alike places s s') : view.Alike places s' s :=
  ⟨h.shape.symm, fun p hp => (h.content p hp).symm⟩

theorem trans (h : view.Alike places s s') (h' : view.Alike places s' s'') : view.Alike places s s'' :=
  ⟨h.shape.trans h'.shape, fun p hp => (h.content p hp).trans (h'.content p hp)⟩

theorem mono (h : view.Alike places s s') (hsub : others ⊆ places) : view.Alike others s s' :=
  ⟨h.shape, fun p hp => h.content p (hsub hp)⟩

theorem union (h : view.Alike places s s') (h' : view.Alike others s s') : view.Alike (places ∪ others) s s' :=
  ⟨h.shape, fun p hp => hp.elim (h.content p) (h'.content p)⟩

end View.Alike

/-- The operation changes nothing outside of the places and goes the same way wherever they are the same. -/
structure Confined (view : View σ Place Content Shape) (places : Set Place) (f : σ → β × σ) : Prop where
  elsewhere (s : σ) : view.Alike placesᶜ s (f s).2
  within {s s' : σ} : view.Alike places s s' → (f s).1 = (f s').1 ∧ view.Alike places (f s).2 (f s').2

def unlessRefused {ε : Type} (f g : σ → Option ε × σ) (s : σ) : Option ε × σ :=
  match (f s).1 with
  | none => g (f s).2
  | some e => (some e, (f s).2)

namespace Confined

variable {f : σ → β × σ}

theorem alike (h : Confined view places f) (hsub : places ⊆ others) {s s' : σ} (alike : view.Alike others s s') :
    (f s).1 = (f s').1 ∧ view.Alike others (f s).2 (f s').2 := by
  obtain ⟨hresult, hinside⟩ := h.within (alike.mono hsub)
  have houtside : view.Alike (others \ places) (f s).2 (f s').2 :=
    (((h.elsewhere s).mono fun _ hp => hp.2).symm.trans (alike.mono fun _ hp => hp.1)).trans
      ((h.elsewhere s').mono fun _ hp => hp.2)
  rw [← Set.union_sdiff_cancel hsub]
  exact ⟨hresult, hinside.union houtside⟩

theorem mono (h : Confined view places f) (hsub : places ⊆ others) : Confined view others f where
  elsewhere s := (h.elsewhere s).mono (Set.compl_subset_compl.mpr hsub)
  within := h.alike hsub

theorem reads {g : σ → β} (h : ∀ {s s'}, view.Alike places s s' → g s = g s') :
    Confined view places fun s => (g s, s) where
  elsewhere s := .refl s
  within alike := ⟨h alike, alike⟩

theorem pure (b : β) : Confined view places fun s => (b, s) := reads fun _ => rfl

theorem map (h : Confined view places f) (g : β → γ) : Confined view places fun s => (g (f s).1, (f s).2) where
  elsewhere := h.elsewhere
  within alike := ⟨congrArg g (h.within alike).1, (h.within alike).2⟩

/-- One operation after the other, which may depend on the result of the first. -/
theorem bind {g : β → σ → γ × σ} (h : Confined view places f) (hg : ∀ b, Confined view places (g b)) :
    Confined view places fun s => g (f s).1 (f s).2 where
  elsewhere s := (h.elsewhere s).trans ((hg (f s).1).elsewhere (f s).2)
  within {s s'} alike := by
    obtain ⟨hresult, hafter⟩ := h.within alike
    rw [← hresult]
    exact (hg (f s).1).within hafter

theorem unlessRefused {ε : Type} {f g : σ → Option ε × σ} (h : Confined view places f) (hg : Confined view places g) :
    Confined view places (Modbus.unlessRefused f g) := by
  refine h.bind (g := fun refused s => match refused with | none => g s | some e => (some e, s)) fun refused => ?_
  cases refused with
  | none => exact hg
  | some e => exact pure (some e)

/-- Operations on separate places give the same results and leave the same store in either order. -/
theorem commutes {g : σ → γ × σ} (hf : Confined view places f) (hg : Confined view others g)
    (separate : ∀ p ∈ places, p ∉ others) (ext : ∀ {s s'}, view.Alike Set.univ s s' → s = s') (s : σ) :
    (f (g s).2).1 = (f s).1 ∧ (g (f s).2).1 = (g s).1 ∧ (g (f s).2).2 = (f (g s).2).2 := by
  have hsub : places ⊆ othersᶜ := separate
  have hsub' : others ⊆ placesᶜ := fun p hp hplaces => separate p hplaces hp
  obtain ⟨hresult, hinside⟩ := hf.within ((hg.elsewhere s).mono hsub)
  obtain ⟨hresult', houtside⟩ := hg.alike hsub' (hf.elsewhere s)
  refine ⟨hresult.symm, hresult'.symm, ext ?_⟩
  rw [← Set.union_compl_self places]
  exact (((hg.elsewhere (f s).2).mono hsub).symm.trans hinside).union
    (houtside.symm.trans (hf.elsewhere (g s).2))

end Confined

/-! ## Parts of a store -/

/-- A part of a store with a view of its own, whose places are among those of the store. -/
structure View.Part {τ Place' Content' Shape' : Type} (view : View σ Place Content Shape)
    (view' : View τ Place' Content' Shape') where
  get : σ → τ
  set : σ → τ → σ
  place : Place' → Place
  get_set : ∀ s t, get (set s t) = t
  shape_get : ∀ {s s'}, view.shape s = view.shape s' → view'.shape (get s) = view'.shape (get s')
  shape_set : ∀ {s t}, view'.shape (get s) = view'.shape t → view.shape s = view.shape (set s t)
  content_get : ∀ {s s' p},
    view.content s (place p) = view.content s' (place p) ↔ view'.content (get s) p = view'.content (get s') p
  content_set : ∀ {s t p}, p ∉ Set.range place → view.content s p = view.content (set s t) p

namespace View.Part

variable {τ Place' Content' Shape' : Type} {view' : View τ Place' Content' Shape'} {inner : Set Place'} {s s' : σ}

theorem alike (part : view.Part view') (h : view.Alike (part.place '' inner) s s') :
    view'.Alike inner (part.get s) (part.get s') :=
  ⟨part.shape_get h.shape, fun p hp => part.content_get.mp (h.content _ ⟨p, hp, rfl⟩)⟩

theorem alike_univ (part : view.Part view') (h : view.Alike Set.univ s s') :
    view'.Alike Set.univ (part.get s) (part.get s') :=
  part.alike (h.mono (Set.subset_univ _))

theorem confined (part : view.Part view') {f : τ → β × τ} (h : Confined view' inner f) :
    Confined view (part.place '' inner) fun s => ((f (part.get s)).1, part.set s (f (part.get s)).2) where
  elsewhere s := by
    have hpart := h.elsewhere (part.get s)
    refine ⟨part.shape_set hpart.shape, fun p hp => ?_⟩
    by_cases hrange : p ∈ Set.range part.place
    · obtain ⟨p, rfl⟩ := hrange
      rw [part.content_get, part.get_set]
      exact hpart.content p fun hinner => hp ⟨p, hinner, rfl⟩
    · exact part.content_set hrange
  within {s s'} alike := by
    obtain ⟨hresult, hpart⟩ := h.within (part.alike alike)
    refine ⟨hresult, ?_, ?_⟩
    · have hs := part.shape_set (h.elsewhere (part.get s)).shape
      have hs' := part.shape_set (h.elsewhere (part.get s')).shape
      exact (hs.symm.trans alike.shape).trans hs'
    · rintro _ ⟨p, hp, rfl⟩
      rw [part.content_get, part.get_set, part.get_set]
      exact hpart.content p hp

end View.Part

end Modbus
