import Mathlib

namespace VDLinux.Base.Authority

/-- What a subject uses, what it may use, what it may keep across a change of program, and the bound of
what a program may give it. -/
@[ext]
structure Sets (α : Type*) where
  effective : α
  permitted : α
  inheritable : α
  bounding : α

variable {α : Type*} [Lattice α]

def Sets.authority (s : Sets α) : α := s.permitted ⊔ s.inheritable ⊔ s.bounding

/-- A step that creates no authority: the bound does not grow, what is inherited comes from what was
inherited or from the bound, and nothing is used that is not permitted. -/
structure Attenuates (s t : Sets α) : Prop where
  effective_le : t.effective ≤ t.permitted
  permitted_le : t.permitted ≤ s.authority
  inheritable_le : t.inheritable ≤ s.inheritable ⊔ s.bounding
  bounding_le : t.bounding ≤ s.bounding

variable {s t u : Sets α}

theorem Attenuates.refl (h : s.effective ≤ s.permitted) : Attenuates s s :=
  ⟨h, le_sup_left.trans le_sup_left, le_sup_left, le_rfl⟩

theorem Attenuates.authority_le (h : Attenuates s t) : t.authority ≤ s.authority := by
  have hinheritable : s.inheritable ⊔ s.bounding ≤ s.authority :=
    sup_le (le_sup_right.trans le_sup_left) le_sup_right
  exact sup_le (sup_le h.permitted_le (h.inheritable_le.trans hinheritable))
    (h.bounding_le.trans le_sup_right)

theorem Attenuates.trans (h₁ : Attenuates s t) (h₂ : Attenuates t u) : Attenuates s u where
  effective_le := h₂.effective_le
  permitted_le := h₂.permitted_le.trans h₁.authority_le
  inheritable_le := h₂.inheritable_le.trans
    (sup_le h₁.inheritable_le (h₁.bounding_le.trans le_sup_right))
  bounding_le := h₂.bounding_le.trans h₁.bounding_le

theorem foldl_attenuates {σ κ : Type*} {step : σ → κ → σ} {view : σ → Sets α}
    (hstep : ∀ s c, (view s).effective ≤ (view s).permitted → Attenuates (view s) (view (step s c)))
    {s : σ} (h : (view s).effective ≤ (view s).permitted) (calls : List κ) :
    Attenuates (view s) (view (calls.foldl step s)) := by
  induction calls generalizing s with
  | nil => exact .refl h
  | cons c calls ih =>
    have hfirst := hstep s c h
    exact hfirst.trans (ih hfirst.effective_le)

end VDLinux.Base.Authority
