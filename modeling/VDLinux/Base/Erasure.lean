import Mathlib

namespace VDLinux.Base.Erasure

open Finset

section Horner

variable {R : Type} [CommRing R]

/-- The polynomial with coefficients `d 0` to `d (n - 1)` under `acc`, from the top. -/
def horner (x : R) (d : ℕ → R) : ℕ → R → R
  | 0, acc => acc
  | n + 1, acc => horner x d n (x * acc + d n)

theorem horner_eq (x : R) (d : ℕ → R) (n : ℕ) (acc : R) :
    horner x d n acc = x ^ n * acc + ∑ i ∈ range n, x ^ i * d i := by
  induction n generalizing acc with
  | zero => simp [horner]
  | succ n ih =>
    rw [horner, ih, sum_range_succ, pow_succ]
    ring

end Horner

section Recover

variable {K : Type} [Field K] [CharP K 2]

theorem sum_add_sum_erased {c d d' : ℕ → K} {n : ℕ} {s : Finset ℕ} (hs : s ⊆ range n)
    (hzero : ∀ i ∈ s, d' i = 0) (hrest : ∀ i < n, i ∉ s → d' i = d i) :
    ∑ i ∈ range n, c i * d i + ∑ i ∈ range n, c i * d' i = ∑ i ∈ s, c i * d i := by
  rw [← sum_add_distrib, ← sum_sdiff hs]
  have hout : ∑ i ∈ range n \ s, (c i * d i + c i * d' i) = 0 := by
    apply sum_eq_zero
    intro i hi
    obtain ⟨hin, his⟩ := mem_sdiff.mp hi
    rw [hrest i (mem_range.mp hin) his, CharTwo.add_self_eq_zero]
  rw [hout, zero_add]
  apply sum_congr rfl
  intro i hi
  rw [hzero i hi, mul_zero, add_zero]

theorem solve_second {α γ : K} (hα : α ≠ 0) (hγ : γ ≠ 1) (x y : K) :
    (γ + 1)⁻¹ * (x + y) + (α + α * γ)⁻¹ * (α * x + α * γ * y) = y := by
  have hsum : γ + 1 ≠ 0 := fun h => hγ (by rwa [CharTwo.add_eq_zero] at h)
  have hden : α + α * γ = α * (γ + 1) := by ring
  have hnum : α * x + α * γ * y = α * (x + γ * y) := by ring
  rw [hden, hnum, mul_inv, mul_mul_mul_comm, inv_mul_cancel₀ hα, one_mul, ← mul_add]
  have hx : x + y + (x + γ * y) = (γ + 1) * y + (x + x) := by ring
  rw [hx, CharTwo.add_self_eq_zero, add_zero, ← mul_assoc, inv_mul_cancel₀ hsum, one_mul]

end Recover

end VDLinux.Base.Erasure
