import Mathlib

namespace VDLinux.Base.Euclid

open Nat

/-- The state of an extended Euclid on `m` and `a` that keeps the magnitudes of the cofactors of `a`
only: that of `g₁` counts positive and that of `g₀` negative. -/
structure Cofactors (m a g₀ g₁ v₀ v₁ : ℕ) : Prop where
  gcd_eq : Nat.gcd g₀ g₁ = Nat.gcd m a
  det : v₀ * g₁ + v₁ * g₀ = m
  pos : (m : ℤ) ∣ v₁ * a - g₁
  neg : (m : ℤ) ∣ v₀ * a + g₀

variable {m a g₀ g₁ v₀ v₁ : ℕ}

theorem Cofactors.init (m a : ℕ) : Cofactors m a m (a % m) 0 1 where
  gcd_eq := by rw [Nat.gcd_comm, ← gcd_rec]
  det := by simp
  pos := by
    rw [cast_one, one_mul, Int.natCast_mod]
    exact Int.dvd_self_sub_emod
  neg := by simp

theorem cast_mod (x y : ℕ) : ((x % y : ℕ) : ℤ) = x - y * (x / y : ℕ) := by
  have h := div_add_mod x y
  have hc : ((y * (x / y) + x % y : ℕ) : ℤ) = x := by rw [h]
  push_cast at hc ⊢
  linarith

theorem Cofactors.reduce₀ (h : Cofactors m a g₀ g₁ v₀ v₁) :
    Cofactors m a (g₀ % g₁) g₁ (v₀ + g₀ / g₁ * v₁) v₁ where
  gcd_eq := by
    rw [← h.gcd_eq, Nat.gcd_comm g₀ g₁]
    exact (gcd_rec g₁ g₀).symm
  det := by
    have hd := h.det
    have hm := div_add_mod g₀ g₁
    linear_combination hd + v₁ * hm
  pos := h.pos
  neg := by
    obtain ⟨x, hx⟩ := h.pos
    obtain ⟨y, hy⟩ := h.neg
    refine ⟨y + (g₀ / g₁ : ℕ) * x, ?_⟩
    rw [cast_mod]
    push_cast
    linear_combination hy + (g₀ / g₁ : ℤ) * hx

theorem Cofactors.reduce₁ (h : Cofactors m a g₀ g₁ v₀ v₁) :
    Cofactors m a g₀ (g₁ % g₀) v₀ (v₁ + g₁ / g₀ * v₀) where
  gcd_eq := by
    rw [← h.gcd_eq, Nat.gcd_comm g₀ (g₁ % g₀)]
    exact (gcd_rec g₀ g₁).symm
  det := by
    have hd := h.det
    have hm := div_add_mod g₁ g₀
    linear_combination hd + v₀ * hm
  pos := by
    obtain ⟨x, hx⟩ := h.pos
    obtain ⟨y, hy⟩ := h.neg
    refine ⟨x + (g₁ / g₀ : ℕ) * y, ?_⟩
    rw [cast_mod]
    push_cast
    linear_combination hx + (g₁ / g₀ : ℤ) * hy
  neg := h.neg

theorem Cofactors.inverse₁ (h : Cofactors m a g₀ 1 v₀ v₁) (hm : 1 < m) (hg : 1 < g₀) :
    v₁ < m ∧ v₁ * a % m = 1 := by
  have hd := h.det
  have hv : v₁ * a ≡ 1 [MOD m] := by
    rw [← Int.natCast_modEq_iff]
    exact ((Int.modEq_iff_dvd).mpr (by simpa using h.pos)).symm
  have hone : v₁ * a % m = 1 := by
    rw [hv, mod_eq_of_lt hm]
  have hlt : v₁ * 2 ≤ v₁ * g₀ := Nat.mul_le_mul_left v₁ hg
  exact ⟨by omega, hone⟩

theorem Cofactors.inverse₀ (h : Cofactors m a 1 g₁ v₀ v₁) (hm : 1 < m) (hg : 0 < g₁) :
    v₀ ≤ m ∧ m - v₀ < m ∧ (m - v₀) * a % m = 1 := by
  have hd := h.det
  have hle : v₀ ≤ m := by
    have hmul : v₀ * 1 ≤ v₀ * g₁ := Nat.mul_le_mul_left v₀ hg
    omega
  have hpos : 0 < v₀ := by
    rcases Nat.eq_zero_or_pos v₀ with h0 | h0
    · have hn := h.neg
      rw [h0] at hn
      have hdvd : m ∣ 1 := by
        rw [← Int.natCast_dvd_natCast]
        simpa using hn
      have := le_of_dvd Nat.one_pos hdvd
      omega
    · exact h0
  refine ⟨hle, by omega, ?_⟩
  have hv : (m - v₀) * a ≡ 1 [MOD m] := by
    rw [← Int.natCast_modEq_iff]
    apply Int.ModEq.symm
    apply Int.modEq_iff_dvd.mpr
    obtain ⟨x, hx⟩ := h.neg
    refine ⟨a - x, ?_⟩
    rw [cast_mul, cast_sub hle]
    linear_combination -hx
  rw [hv, mod_eq_of_lt hm]

end VDLinux.Base.Euclid
