import Mathlib

namespace VDLinux.Base.BitPolynomial

open Polynomial Finset

/-- The polynomial over the field of two elements that has the first `n` of these bits for
coefficients. -/
noncomputable def bitPoly (n : ℕ) (f : ℕ → Bool) : (ZMod 2)[X] :=
  ∑ i ∈ range n, if f i then X ^ i else 0

variable {n : ℕ} (f g : ℕ → Bool)

theorem coeff_bitPoly (i : ℕ) : (bitPoly n f).coeff i = if i < n ∧ f i then 1 else 0 := by
  simp only [bitPoly, finsetSum_coeff, apply_ite (fun p : (ZMod 2)[X] => p.coeff i), coeff_X_pow,
    coeff_zero]
  by_cases hi : i < n
  · rw [sum_eq_single i (fun j _ hj => by simp [Ne.symm hj]) (fun h => absurd (mem_range.2 hi) h)]
    simp [hi]
  · rw [sum_eq_zero, if_neg (fun h => hi h.1)]
    intro j hj
    have hij : i ≠ j := fun h => hi (h ▸ mem_range.1 hj)
    simp [hij]

theorem degree_bitPoly_lt : (bitPoly n f).degree < n := by
  rw [degree_lt_iff_coeff_zero]
  intro i hi
  rw [coeff_bitPoly, if_neg (fun h => absurd h.1 (Nat.not_lt.2 hi))]

variable {f g}

theorem bitPoly_congr (h : ∀ i < n, f i = g i) : bitPoly n f = bitPoly n g :=
  sum_congr rfl fun i hi => by rw [h i (mem_range.1 hi)]

theorem bitPoly_injective (h : bitPoly n f = bitPoly n g) {i : ℕ} (hi : i < n) : f i = g i := by
  have hcoeff := congrArg (fun p => coeff p i) h
  cases hf : f i <;> cases hg : g i <;> simp [coeff_bitPoly, hi, hf, hg] at hcoeff ⊢

theorem bitPoly_xor : bitPoly n (fun i => f i ^^ g i) = bitPoly n f + bitPoly n g := by
  rw [bitPoly, bitPoly, bitPoly, ← sum_add_distrib]
  refine sum_congr rfl fun i _ => ?_
  cases f i <;> cases g i <;> simp [CharTwo.add_self_eq_zero]

theorem bitPoly_single {k : ℕ} (hk : k < n) : bitPoly n (fun i => decide (i = k)) = X ^ k := by
  rw [bitPoly, sum_eq_single k (fun j _ hj => by simp [hj]) (fun h => absurd (mem_range.2 hk) h)]
  simp

/-- The polynomial block by block. -/
theorem bitPoly_blocks (w : ℕ) : bitPoly (w * n) f =
    ∑ j ∈ range n, X ^ (w * j) * bitPoly w (fun k => f (w * j + k)) := by
  induction n with
  | zero => rfl
  | succ n ih =>
    rw [sum_range_succ, ← ih, bitPoly, Nat.mul_succ, sum_range_add]
    congr 1
    rw [bitPoly, mul_sum]
    refine sum_congr rfl fun k _ => ?_
    rw [mul_ite, mul_zero, pow_add]

end VDLinux.Base.BitPolynomial
