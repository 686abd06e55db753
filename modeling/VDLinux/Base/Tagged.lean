import Mathlib

namespace VDLinux.Base.Tagged

open Nat

variable {w k r m : ℕ}

theorem testBit_eq_false (hm : m < 2 ^ w) {i : ℕ} (hi : w ≤ i) : m.testBit i = false :=
  testBit_lt_two_pow (lt_of_lt_of_le hm (Nat.pow_le_pow_right (by decide) hi))

theorem and_tag (hr : r < 2 ^ w) (hm : m < 2 ^ w) : (2 ^ w * k + r) &&& m = r &&& m := by
  apply eq_of_testBit_eq
  intro i
  rw [testBit_and, testBit_and, testBit_two_pow_mul_add _ hr]
  by_cases hi : i < w
  · rw [if_pos hi]
  · rw [testBit_eq_false hm (by omega), Bool.and_false, Bool.and_false]

theorem or_tag (hr : r < 2 ^ w) (hm : m < 2 ^ w) : (2 ^ w * k + r) ||| m = 2 ^ w * k + (r ||| m) := by
  apply eq_of_testBit_eq
  intro i
  rw [testBit_or, testBit_two_pow_mul_add _ hr,
    testBit_two_pow_mul_add _ (or_lt_two_pow hr hm), testBit_or]
  by_cases hi : i < w
  · rw [if_pos hi, if_pos hi]
  · rw [if_neg hi, if_neg hi, testBit_eq_false hm (by omega), Bool.or_false]

theorem ldiff_tag (hr : r < 2 ^ w) (hm : m < 2 ^ w) :
    Nat.ldiff (2 ^ w * k + r) m = 2 ^ w * k + Nat.ldiff r m := by
  have hlt : Nat.ldiff r m < 2 ^ w := by
    apply lt_pow_two_of_testBit
    intro i hi
    rw [testBit_ldiff, testBit_eq_false hr hi, Bool.false_and]
  apply eq_of_testBit_eq
  intro i
  rw [testBit_ldiff, testBit_two_pow_mul_add _ hr, testBit_two_pow_mul_add _ hlt,
    testBit_ldiff]
  by_cases hi : i < w
  · rw [if_pos hi, if_pos hi]
  · rw [if_neg hi, if_neg hi, testBit_eq_false hm (by omega), Bool.not_false, Bool.and_true]

end VDLinux.Base.Tagged
