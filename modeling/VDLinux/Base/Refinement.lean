import Mathlib

namespace VDLinux.Base.Refinement

variable {σ τ κ ρ : Type*}

/-- The calls in order, with the state they end in and what they return. -/
def run (step : σ → κ → σ × ρ) : σ → List κ → σ × List ρ
  | s, [] => (s, [])
  | s, c :: cs => ((run step (step s c).1 cs).1, (step s c).2 :: (run step (step s c).1 cs).2)

/-- Two step functions that agree on one call, from related states to related states, agree on every
sequence of calls. -/
theorem run_refines {step : σ → κ → σ × ρ} {spec : τ → κ → τ × ρ} {R : σ → τ → Prop}
    (hstep : ∀ s t c, R s t → R (step s c).1 (spec t c).1 ∧ (step s c).2 = (spec t c).2)
    {s : σ} {t : τ} (h : R s t) (cs : List κ) :
    R (run step s cs).1 (run spec t cs).1 ∧ (run step s cs).2 = (run spec t cs).2 := by
  induction cs generalizing s t with
  | nil => exact ⟨h, rfl⟩
  | cons c cs ih =>
    obtain ⟨hr, hout⟩ := hstep s t c h
    obtain ⟨hr', hout'⟩ := ih hr
    refine ⟨hr', ?_⟩
    rw [run, run, hout, hout']

end VDLinux.Base.Refinement
