import VDLinux.SecureBoot.DigitSpec

namespace VDLinux.SecureBoot.Digit

open Base.Words Nat

theorem cmpDigits_append (xs ys : List (UInt32 × UInt32)) :
    cmpDigits (xs ++ ys) = (cmpDigits xs).then (cmpDigits ys) := by
  induction xs with
  | nil => rfl
  | cons p xs ih =>
    simp only [List.cons_append, cmpDigits]
    split_ifs
    · exact ih
    · rfl
    · rfl

theorem compare_digits (a b : UInt32) (x y : ℕ) :
    compare (a.toNat + radix * x) (b.toNat + radix * y) =
      (compare x y).then (compare a.toNat b.toNat) := by
  have ha := toNat_lt_radix a
  have hb := toNat_lt_radix b
  rcases lt_trichotomy x y with h | h | h
  · have hm : radix * (x + 1) ≤ radix * y := Nat.mul_le_mul_left radix h
    rw [Nat.compare_eq_lt.mpr h]
    apply Nat.compare_eq_lt.mpr
    rw [Nat.mul_add] at hm
    omega
  · subst h
    have hs : compare x x = .eq := Nat.compare_eq_eq.mpr rfl
    simp only [hs, Ordering.eq_then, compare_eq_ite_lt, Nat.add_lt_add_iff_right]
  · have hm : radix * (y + 1) ≤ radix * x := Nat.mul_le_mul_left radix h
    rw [Nat.compare_eq_gt.mpr h]
    apply Nat.compare_eq_gt.mpr
    rw [Nat.mul_add] at hm
    omega

theorem cmpDigits_zip {as bs : List UInt32} (h : as.length = bs.length) :
    cmpDigits (as.zip bs).reverse = compare (val as) (val bs) := by
  induction as generalizing bs with
  | nil =>
    have hb : bs = [] := List.length_eq_zero_iff.mp h.symm
    subst hb
    rfl
  | cons a as ih =>
    cases bs with
    | nil => simp at h
    | cons b bs =>
      rw [List.zip_cons_cons, List.reverse_cons, cmpDigits_append, ih (by simpa using h), val_cons,
        val_cons, compare_digits]
      congr 1
      simp only [cmpDigits, ← UInt32.toNat_inj, UInt32.lt_iff_toNat_lt]
      split_ifs with h1 h2
      · rw [h1]
        simp
      · exact (Nat.compare_eq_gt.mpr h2).symm
      · exact (Nat.compare_eq_lt.mpr (by omega)).symm

theorem any_ne_zero {ds : List UInt32} : ds.any (· ≠ 0) = true ↔ 0 < val ds := by
  rw [Nat.pos_iff_ne_zero, Ne, val_eq_zero]
  simp

theorem val_lt_of_excess {xs ys : List UInt32} (h : (xs.drop ys.length).any (· ≠ 0) = true) :
    val ys < val xs := by
  rw [any_ne_zero] at h
  rw [val_take_add_drop xs ys.length]
  have hm := Nat.le_mul_of_pos_right (radix ^ ys.length) h
  have hy := val_lt ys
  omega

theorem val_take_of_no_excess {xs ys : List UInt32} (h : ¬(xs.drop ys.length).any (· ≠ 0) = true) :
    val (xs.take ys.length) = val xs := by
  rw [any_ne_zero, Nat.pos_iff_ne_zero, not_not] at h
  rw [val_take_add_drop xs ys.length, h, Nat.mul_zero, Nat.add_zero]

theorem dwdCmp_eq (src1 src2 : List UInt32) : dwdCmp src1 src2 = compare (val src1) (val src2) := by
  unfold dwdCmp
  split_ifs with hl h1 h2
  · exact (Nat.compare_eq_gt.mpr (val_lt_of_excess h1)).symm
  · rw [cmpDigits_zip (by simp [hl]), val_take_of_no_excess h1]
  · exact (Nat.compare_eq_lt.mpr (val_lt_of_excess h2)).symm
  · rw [cmpDigits_zip (by simp; omega), val_take_of_no_excess h2]

theorem xor_of_lt {x y k : ℕ} (hy : y < 2 ^ k) : 2 ^ k * x ^^^ y = 2 ^ k * x + y := by
  apply eq_of_testBit_eq
  intro j
  rw [testBit_xor, testBit_two_pow_mul_add x hy, testBit_two_pow_mul]
  by_cases hj : j < k
  · simp [hj, Nat.not_le.mpr hj]
  · have hy' : y.testBit j = false :=
      Nat.testBit_lt_two_pow (hy.trans_le (Nat.pow_le_pow_right (by decide) (by omega)))
    simp [hj, hy', Nat.le_of_not_lt hj]

theorem toNat_toUInt32 {b : ℕ} (hb : b < 32) : b.toUInt32.toNat = b :=
  UInt32.toNat_ofNat_of_lt (hb.trans (by decide))

section Shifts

variable {t : UInt32} (h32 : t.toNat < 32)
include h32

theorem toNat_shr (d : UInt32) : (d >>> t).toNat = d.toNat / 2 ^ t.toNat := by
  rw [UInt32.toNat_shiftRight, mod_eq_of_lt h32, shiftRight_eq_div_pow]

theorem toNat_shl (d : UInt32) : (d <<< t).toNat = 2 ^ t.toNat * (d.toNat % 2 ^ (32 - t.toNat)) := by
  rw [UInt32.toNat_shiftLeft, mod_eq_of_lt h32, shiftLeft_eq, Nat.mul_comm, ← mul_mod_mul_left,
    ← pow_add, Nat.add_sub_cancel' h32.le]

theorem toNat_sub_shift : (32 - t).toNat = 32 - t.toNat :=
  UInt32.toNat_sub_of_le _ _ (UInt32.le_iff_toNat_le.mpr h32.le)

theorem radix_split : radix = 2 ^ (32 - t.toNat) * 2 ^ t.toNat := by
  rw [← pow_add, Nat.sub_add_cancel h32.le]
  rfl

variable (h0 : 0 < t.toNat)
include h0

theorem toNat_shr_sub (d : UInt32) : (d >>> (32 - t)).toNat = d.toNat / 2 ^ (32 - t.toNat) := by
  have hsub := toNat_sub_shift h32
  rw [toNat_shr (by omega), hsub]

theorem shlDigit_spec (d prev : UInt32) :
    (d <<< t ^^^ prev >>> (32 - t)).toNat + radix * (d >>> (32 - t)).toNat =
      d.toNat * 2 ^ t.toNat + (prev >>> (32 - t)).toNat := by
  have hlow : (prev >>> (32 - t)).toNat < 2 ^ t.toNat := by
    rw [toNat_shr_sub h32 h0]
    apply Nat.div_lt_of_lt_mul
    rw [← radix_split h32]
    exact toNat_lt_radix prev
  rw [UInt32.toNat_xor, toNat_shl h32, xor_of_lt hlow, toNat_shr_sub h32 h0 d, radix_split h32]
  have hsplit := div_add_mod d.toNat (2 ^ (32 - t.toNat))
  linear_combination 2 ^ t.toNat * hsplit

theorem shlDigits_spec (prev : UInt32) (ds : List UInt32) :
    (shlDigits t prev ds).length = ds.length ∧
    val (shlDigits t prev ds) + radix ^ ds.length * (ds.getLastD prev >>> (32 - t)).toNat =
      val ds * 2 ^ t.toNat + (prev >>> (32 - t)).toNat := by
  induction ds generalizing prev with
  | nil => simp [shlDigits]
  | cons d ds ih =>
    obtain ⟨hl, hv⟩ := ih d
    refine ⟨by simp [shlDigits, hl], ?_⟩
    have hd := shlDigit_spec h32 h0 d prev
    simp only [shlDigits, val_cons, List.length_cons, List.getLastD_cons, pow_succ]
    linear_combination hd + radix * hv

theorem dwdShl_spec {src : List UInt32} (hs : src ≠ []) :
    ∃ rs c, dwdShl src t = .ok (rs, c) ∧ rs.length = src.length ∧
      val rs + radix ^ src.length * c.toNat = val src * 2 ^ t.toNat := by
  obtain ⟨hl, hv⟩ := shlDigits_spec h32 h0 0 src
  have ht : ¬ (32 : UInt32) ≤ t := by
    exact Nat.not_le.mpr h32
  have hlast : src.getLast? = some (src.getLastD 0) := by
    cases src with
    | nil => exact absurd rfl hs
    | cons d ds => simp [List.getLast?_cons]
  have hz : ((0 : UInt32) >>> (32 - t)).toNat = 0 := by
    simp
  refine ⟨shlDigits t 0 src, src.getLastD 0 >>> (32 - t), by rw [dwdShl, if_neg ht, hlast], hl, ?_⟩
  rw [hv, hz, Nat.add_zero]

theorem shrDigit_spec (d : UInt32) (v : ℕ) (e : UInt32) (hv : v % radix = e.toNat) :
    (d >>> t ^^^ e <<< (32 - t)).toNat + radix * (v / 2 ^ t.toNat) =
      (d.toNat + radix * v) / 2 ^ t.toNat := by
  have hsub := toNat_sub_shift h32
  have hpow := radix_split h32
  rw [Nat.mul_comm] at hpow
  have hlt : d.toNat / 2 ^ t.toNat < 2 ^ (32 - t.toNat) := by
    apply Nat.div_lt_of_lt_mul
    rw [← hpow]
    exact toNat_lt_radix d
  have hmod : e.toNat % 2 ^ t.toNat = v % 2 ^ t.toNat := by
    rw [← hv, hpow, mod_mul_right_mod]
  rw [UInt32.toNat_xor, toNat_shr h32, toNat_shl (t := 32 - t) (by omega), hsub, Nat.sub_sub_self h32.le, hmod,
    Nat.xor_comm, xor_of_lt hlt]
  have hsplit := div_add_mod v (2 ^ t.toNat)
  have htotal : d.toNat + radix * v = d.toNat + 2 ^ t.toNat * (2 ^ (32 - t.toNat) * v) := by
    rw [hpow]
    ring
  rw [htotal, add_mul_div_left _ _ (Nat.two_pow_pos _), hpow]
  linear_combination 2 ^ (32 - t.toNat) * hsplit

theorem shrDigits_spec (ds : List UInt32) :
    (shrDigits t ds).length = ds.length ∧ val (shrDigits t ds) = val ds / 2 ^ t.toNat := by
  induction ds with
  | nil => simp [shrDigits]
  | cons d ds ih =>
    cases ds with
    | nil =>
      refine ⟨rfl, ?_⟩
      simp only [shrDigits, val_singleton]
      rw [toNat_shr h32]
    | cons e ds =>
      obtain ⟨hl, hv⟩ := ih
      refine ⟨by simp only [shrDigits, List.length_cons, hl], ?_⟩
      have hmod : val (e :: ds) % radix = e.toNat := by
        rw [val_cons, add_mul_mod_self_left, mod_eq_of_lt (toNat_lt_radix e)]
      rw [shrDigits, val_cons, hv, val_cons d, shrDigit_spec h32 h0 d _ e hmod]

theorem dwdShr_spec {src : List UInt32} (hs : src ≠ []) :
    ∃ rs c, dwdShr src t = .ok (rs, c) ∧ rs.length = src.length ∧
      val rs = val src / 2 ^ t.toNat := by
  obtain ⟨hl, hv⟩ := shrDigits_spec h32 h0 src
  have ht : ¬ (32 : UInt32) ≤ t := by
    exact Nat.not_le.mpr h32
  cases src with
  | nil => exact absurd rfl hs
  | cons d ds => exact ⟨_, _, by rw [dwdShr, if_neg ht], hl, hv⟩

end Shifts

theorem clearBits_spec {d : UInt32} {i : ℕ} (hi : i ≤ 32) (hd : d ≠ 0) (hlt : d.toNat < 2 ^ i) :
    clearBits d i < i ∧ 2 ^ i ≤ d.toNat * 2 ^ clearBits d i * 2 ∧
      d.toNat * 2 ^ clearBits d i < 2 ^ i := by
  induction i with
  | zero =>
    have hz : d.toNat = 0 := by simpa using hlt
    exact absurd (UInt32.toNat_inj.mp hz) hd
  | succ i ih =>
    have hshift : (d >>> i.toUInt32).toNat = d.toNat / 2 ^ i := by
      have hmod := toNat_toUInt32 hi
      rw [toNat_shr (by omega), hmod]
    have hbit : ((d >>> i.toUInt32) &&& 1 = 1) ↔ 2 ^ i ≤ d.toNat := by
      rw [← UInt32.toNat_inj, UInt32.toNat_and, hshift, UInt32.toNat_one, and_one_is_mod]
      have hq : d.toNat / 2 ^ i < 2 := by
        apply Nat.div_lt_of_lt_mul
        rwa [← pow_succ]
      rw [mod_eq_of_lt hq, ← Nat.one_le_div_iff (Nat.two_pow_pos i)]
      omega
    rw [clearBits]
    by_cases hb : 2 ^ i ≤ d.toNat
    · rw [if_pos (hbit.mpr hb)]
      refine ⟨by omega, ?_, by simpa using hlt⟩
      omega
    · rw [if_neg (fun hc => hb (hbit.mp hc))]
      obtain ⟨h1, h2, h3⟩ := ih (by omega) (Nat.lt_of_not_le hb)
      refine ⟨by omega, ?_, ?_⟩
      · rw [pow_succ, pow_succ]
        linarith
      · rw [pow_succ, pow_succ]
        linarith

end VDLinux.SecureBoot.Digit
