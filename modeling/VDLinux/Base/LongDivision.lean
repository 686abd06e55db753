import Mathlib

namespace VDLinux.Base.LongDivision

theorem div_two_steps {x c y d : ℕ} (hd : 0 < d) :
    (x * c + y) / d = x / d * c + (x % d * c + y) / d := by
  have hx := Nat.div_add_mod x d
  have hs : x * c + y = x % d * c + y + d * (x / d * c) := by
    linear_combination c * hx.symm
  rw [hs, Nat.add_mul_div_left _ _ hd]
  omega

section Estimate

variable {b p top v u w : ℕ}

theorem quotient_le_estimate (hv : top * p ≤ v) (hw : w < (u + 1) * p) (ht : 0 < top) :
    w / v ≤ u / top := by
  rw [Nat.le_div_iff_mul_le ht]
  have h1 : w / v * top * p < (u + 1) * p := by
    calc w / v * top * p ≤ w / v * v := by
          rw [Nat.mul_assoc]
          exact Nat.mul_le_mul_left _ hv
      _ ≤ w := Nat.div_mul_le_self w v
      _ < (u + 1) * p := hw
  exact Nat.lt_succ_iff.mp (Nat.lt_of_mul_lt_mul_right h1)

theorem estimate_le_add_two {q : ℕ} (hv : top * p ≤ v) (hv' : v < (top + 1) * p) (hw : u * p ≤ w)
    (hn : b ≤ 2 * top) (hq : q * top ≤ u) (hb : q < b) : q ≤ w / v + 2 := by
  by_contra hc
  have hp : 0 < p := by
    rcases Nat.eq_zero_or_pos p with h0 | h0
    · subst h0
      omega
    · exact h0
  have hvpos : 0 < v := lt_of_lt_of_le (Nat.mul_pos (by omega) hp) hv
  have h1 : (w / v + 3) * v ≤ w + q * p := by
    calc (w / v + 3) * v ≤ q * v := Nat.mul_le_mul_right v (by omega)
      _ ≤ q * ((top + 1) * p) := Nat.mul_le_mul_left q hv'.le
      _ = q * top * p + q * p := by ring
      _ ≤ u * p + q * p := by gcongr
      _ ≤ w + q * p := by gcongr
  have h2 : w < (w / v + 1) * v := by
    rw [Nat.mul_comm]
    exact Nat.lt_mul_div_succ w hvpos
  have h3 : q * p < 2 * v := by
    calc q * p < b * p := Nat.mul_lt_mul_of_pos_right hb hp
      _ ≤ 2 * top * p := Nat.mul_le_mul_right p hn
      _ = 2 * (top * p) := by ring
      _ ≤ 2 * v := Nat.mul_le_mul_left 2 hv
  have h4 : (w / v + 3) * v = (w / v + 1) * v + 2 * v := by ring
  omega

end Estimate

end VDLinux.Base.LongDivision
