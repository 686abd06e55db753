import Mathlib

namespace VDLinux.Base.Radix

open Nat

/-- The digit of `x` at the place `l`, in base `2 ^ b`. -/
def place (b x l : ℕ) : ℕ := x / 2 ^ (b * l) % 2 ^ b

/-- The least number with the leading digits of `x` and the digit `m` at the place `l`. -/
def skipTo (b x l m : ℕ) : ℕ := (x / 2 ^ (b * (l + 1)) * 2 ^ b + m) * 2 ^ (b * l)

variable {b x y l m : ℕ}

theorem place_lt (b x l : ℕ) : place b x l < 2 ^ b := mod_lt _ (Nat.two_pow_pos b)

theorem div_succ (b x l : ℕ) : x / 2 ^ (b * (l + 1)) = x / 2 ^ (b * l) / 2 ^ b := by
  rw [Nat.div_div_eq_div_mul, ← Nat.pow_add, Nat.mul_add, Nat.mul_one]

theorem div_add (b x l k : ℕ) : x / 2 ^ (b * (l + k)) = x / 2 ^ (b * l) / 2 ^ (b * k) := by
  rw [Nat.div_div_eq_div_mul, ← Nat.pow_add, Nat.mul_add]

theorem place_congr (h : x / 2 ^ (b * l) = y / 2 ^ (b * l)) {k : ℕ} (hk : l ≤ k) :
    place b x k = place b y k := by
  obtain ⟨j, rfl⟩ := Nat.exists_eq_add_of_le hk
  rw [place, place, div_add, div_add, h]

theorem div_congr (h : x / 2 ^ (b * l) = y / 2 ^ (b * l)) {k : ℕ} (hk : l ≤ k) :
    x / 2 ^ (b * k) = y / 2 ^ (b * k) := by
  obtain ⟨j, rfl⟩ := Nat.exists_eq_add_of_le hk
  rw [div_add, div_add, h]

theorem eq_of_place_eq {n : ℕ} (hx : x < 2 ^ (b * n)) (hy : y < 2 ^ (b * n))
    (h : ∀ k < n, place b x k = place b y k) : x = y := by
  have hdiv : ∀ k ≤ n, x / 2 ^ (b * (n - k)) = y / 2 ^ (b * (n - k)) := by
    intro k hk
    induction k with
    | zero => rw [Nat.sub_zero, div_eq_of_lt hx, div_eq_of_lt hy]
    | succ k ih =>
      obtain ⟨j, hj⟩ := Nat.exists_eq_add_of_le hk
      have hlow : n - (k + 1) = j := by omega
      have hhigh : n - k = j + 1 := by omega
      have hquot := ih (by omega)
      rw [hhigh, div_succ, div_succ] at hquot
      rw [hlow, ← div_add_mod (x / 2 ^ (b * j)) (2 ^ b), hquot, ← place, h j (by omega), place,
        div_add_mod]
  simpa using hdiv n (le_refl n)

theorem lt_iff_place_eq_zero (h : x < 2 ^ (b * (l + 1))) : x < 2 ^ (b * l) ↔ place b x l = 0 := by
  have hlt : x / 2 ^ (b * l) < 2 ^ b := by
    rw [Nat.div_lt_iff_lt_mul (Nat.two_pow_pos _), ← Nat.pow_add]
    rwa [Nat.mul_add, Nat.mul_one, Nat.add_comm] at h
  rw [place, mod_eq_of_lt hlt, div_eq_zero_iff_lt (Nat.two_pow_pos _)]

theorem skipTo_window (hx : x ≤ y) (hy : y < skipTo b x l m) (hm : m ≤ 2 ^ b) :
    y / 2 ^ (b * (l + 1)) = x / 2 ^ (b * (l + 1)) ∧ place b x l ≤ place b y l ∧ place b y l < m := by
  rw [skipTo, div_succ, ← Nat.div_lt_iff_lt_mul (Nat.two_pow_pos _)] at hy
  have hle : x / 2 ^ (b * l) ≤ y / 2 ^ (b * l) := Nat.div_le_div_right hx
  rw [div_succ, div_succ, place, place]
  generalize x / 2 ^ (b * l) = q at *
  generalize y / 2 ^ (b * l) = r at *
  have hq := div_add_mod' q (2 ^ b)
  have hr := div_add_mod' r (2 ^ b)
  have heq : r / 2 ^ b = q / 2 ^ b := by
    apply Nat.div_eq_of_lt_le
    · omega
    · rw [Nat.add_mul, Nat.one_mul]
      omega
  rw [heq] at hr ⊢
  exact ⟨rfl, by omega, by omega⟩

theorem skipTo_div (hm : m < 2 ^ b) : skipTo b x l m / 2 ^ (b * (l + 1)) = x / 2 ^ (b * (l + 1)) := by
  rw [div_succ, skipTo, Nat.mul_div_cancel _ (Nat.two_pow_pos _),
    Nat.mul_comm _ (2 ^ b), mul_add_div (Nat.two_pow_pos b), div_eq_of_lt hm, Nat.add_zero]

theorem place_skipTo (hm : m < 2 ^ b) : place b (skipTo b x l m) l = m := by
  rw [place, skipTo, Nat.mul_div_cancel _ (Nat.two_pow_pos _), mul_add_mod_of_lt hm]

theorem lt_skipTo (h : place b x l < m) : x < skipTo b x l m := by
  rw [skipTo, div_succ, ← Nat.div_lt_iff_lt_mul (Nat.two_pow_pos _)]
  rw [place] at h
  have hq := div_add_mod' (x / 2 ^ (b * l)) (2 ^ b)
  omega

theorem skipTo_size (b x l : ℕ) :
    skipTo b x l (2 ^ b) = (x / 2 ^ (b * (l + 1)) + 1) * 2 ^ (b * (l + 1)) := by
  rw [skipTo, Nat.mul_add b, Nat.pow_add]
  ring

theorem skipTo_size_le {n : ℕ} (hx : x < 2 ^ (b * n)) (hl : l < n) :
    skipTo b x l (2 ^ b) ≤ 2 ^ (b * n) := by
  obtain ⟨k, rfl⟩ := Nat.exists_eq_add_of_le (succ_le_of_lt hl)
  rw [Nat.mul_add, Nat.pow_add] at hx ⊢
  rw [skipTo_size, Nat.mul_comm (2 ^ (b * (l + 1)))]
  exact Nat.mul_le_mul_right _ (Nat.div_lt_of_lt_mul hx)

theorem or_mask_succ (x k : ℕ) : (x ||| (2 ^ k - 1)) + 1 = (x / 2 ^ k + 1) * 2 ^ k := by
  have hpos := Nat.two_pow_pos k
  have hor : x % 2 ^ k ||| (2 ^ k - 1) = 2 ^ k - 1 := by
    apply eq_of_testBit_eq
    intro i
    by_cases hi : i < k <;> simp [hi]
  have hx : x = 2 ^ k * (x / 2 ^ k) ||| x % 2 ^ k := by
    rw [← two_pow_add_eq_or_of_lt (mod_lt x hpos), div_add_mod]
  have hsplit : x ||| (2 ^ k - 1) = 2 ^ k * (x / 2 ^ k) + (2 ^ k - 1) := by
    calc x ||| (2 ^ k - 1) = 2 ^ k * (x / 2 ^ k) ||| (x % 2 ^ k ||| (2 ^ k - 1)) := by
          rw [← Nat.or_assoc, ← hx]
      _ = 2 ^ k * (x / 2 ^ k) + (2 ^ k - 1) := by
          rw [hor, two_pow_add_eq_or_of_lt (by omega)]
  rw [hsplit, Nat.add_mul, Nat.one_mul, Nat.mul_comm (x / 2 ^ k)]
  omega

theorem xor_xor_place (hm : m < 2 ^ b) : x ^^^ x % 2 ^ b ^^^ m = x / 2 ^ b * 2 ^ b + m := by
  have hclear : x ^^^ x % 2 ^ b = 2 ^ b * (x / 2 ^ b) := by
    apply eq_of_testBit_eq
    intro i
    rw [testBit_xor, testBit_mod_two_pow, testBit_two_pow_mul, testBit_div_two_pow]
    by_cases hi : i < b
    · simp [hi]
    · have hle : b ≤ i := by omega
      simp [hi, hle]
  rw [hclear, Nat.mul_comm (x / 2 ^ b), two_pow_add_eq_or_of_lt hm]
  apply eq_of_testBit_eq
  intro i
  rw [testBit_xor, testBit_or, testBit_two_pow_mul]
  by_cases hi : b ≤ i
  · rw [testBit_lt_two_pow (hm.trans_le (Nat.pow_le_pow_right (by omega) hi))]
    simp
  · simp [hi]

end VDLinux.Base.Radix
