import VDLinux.Base.LongDivision
import VDLinux.SecureBoot.DigitShift

namespace VDLinux.SecureBoot.Digit

open Base.Words Base.LongDivision List Nat UInt32

theorem hl_toNat (a : UInt32) : (hl a).toNat = a.toNat / 2 ^ 16 := by
  have ha := a.toNat_lt
  have hm : (0xffff : UInt32).toNat = 2 ^ 16 - 1 := rfl
  rw [hl, UInt32.toNat_and, hm, and_two_pow_sub_one_eq_mod, UInt32.toNat_shiftRight,
    shiftRight_eq_div_pow]
  simp only [UInt32.reduceToNat, Nat.reduceMod]
  omega

theorem ll_toNat (a : UInt32) : (ll a).toNat = a.toNat % 2 ^ 16 := by
  have hm : (0xffff : UInt32).toNat = 2 ^ 16 - 1 := rfl
  rw [ll, UInt32.toNat_and, hm, and_two_pow_sub_one_eq_mod]

theorem lh_toNat (a : UInt32) : (lh a).toNat = a.toNat % 2 ^ 16 * 2 ^ 16 := by
  have hl := ll_toNat a
  rw [ll] at hl
  rw [lh, UInt32.toNat_shiftLeft, hl, shiftLeft_eq]
  simp only [UInt32.reduceToNat, Nat.reduceMod]
  omega

theorem digitDivCorrect_spec {div : UInt32} (hdiv : 0 < div.toNat) {n : ℕ} {dx dr dq : UInt32}
    (hn : (dx.toNat * radix + dr.toNat) / div.toNat < n)
    (hq : dq.toNat + (dx.toNat * radix + dr.toNat) / div.toNat < radix) :
    ∃ q r, digitDivCorrect div n dx dr dq = .ok (q, r) ∧
      q.toNat = dq.toNat + (dx.toNat * radix + dr.toNat) / div.toNat ∧
      r.toNat = (dx.toNat * radix + dr.toNat) % div.toNat := by
  induction n generalizing dx dr dq with
  | zero => exact absurd hn (Nat.not_lt_zero _)
  | succ n ih =>
    have hd := toNat_lt_radix div
    have hr := toNat_lt_radix dr
    have hcond : (0 < dx ∨ dx = 0 ∧ div ≤ dr) ↔ div.toNat ≤ dx.toNat * radix + dr.toNat := by
      rw [radix] at *
      simp only [lt_iff_toNat_lt, le_iff_toNat_le, ← UInt32.toNat_inj, UInt32.toNat_zero]
      omega
    simp only [digitDivCorrect, hcond]
    by_cases hc : div.toNat ≤ dx.toNat * radix + dr.toNat
    · -- one subtraction of the divisor, with the borrow taken from the high half
      have hstep : (if ~~~div < dr - div then dx - 1 else dx).toNat * radix + (dr - div).toNat +
          div.toNat = dx.toNat * radix + dr.toNat := by
        simp only [lt_iff_toNat_lt, toNat_not, UInt32.toNat_sub, UInt32.size,
          apply_ite UInt32.toNat, toNat_one, radix] at *
        have hx := dx.toNat_lt
        split_ifs <;> omega
      have hdec : (dx.toNat * radix + dr.toNat) / div.toNat =
          ((if ~~~div < dr - div then dx - 1 else dx).toNat * radix + (dr - div).toNat) / div.toNat
            + 1 := by
        rw [← hstep, add_div_right _ hdiv]
      rw [hdec] at hn hq ⊢
      have hq1 : (dq + 1).toNat = dq.toNat + 1 := by
        have hlt : dq.toNat + 1 < radix := lt_of_le_of_lt (by simp) hq
        exact mod_eq_of_lt hlt
      obtain ⟨q, r, he, hqv, hrv⟩ := ih (lt_of_succ_lt_succ hn) (by rw [hq1]; omega)
      refine ⟨q, r, by rw [if_pos hc]; exact he, by omega, ?_⟩
      rw [hrv, ← hstep, add_mod_right]
    · have hx : dx.toNat = 0 := by
        rw [radix] at *
        omega
      rw [hx, Nat.zero_mul, Nat.zero_add, not_le] at hc
      rw [hx, Nat.zero_mul, Nat.zero_add, div_eq_of_lt hc, mod_eq_of_lt hc]
      exact ⟨dq, dr, by rw [if_neg (not_le.mpr hc)], rfl, rfl⟩

theorem digitDivHalf_spec (half : UInt32) {src1 div : UInt32} (hn : 2 ^ 31 ≤ div.toNat)
    (hs : src1.toNat < div.toNat) (hh : half.toNat < 2 ^ 16) :
    ∃ q r, digitDivHalf src1 half div = .ok (q, r) ∧
      q.toNat = (src1.toNat * 2 ^ 16 + half.toNat) / div.toNat ∧
      r.toNat = (src1.toNat * 2 ^ 16 + half.toNat) % div.toNat ∧ q.toNat < 2 ^ 16 := by
  have hdlt := div.toNat_lt
  have hdiv := div_add_mod div.toNat (2 ^ 16)
  have hlo := mod_lt div.toNat (Nat.two_pow_pos 16)
  have hq : (src1 / (hl div + 1)).toNat = src1.toNat / (div.toNat / 2 ^ 16 + 1) := by
    rw [UInt32.toNat_div, UInt32.toNat_add, hl_toNat, toNat_one, mod_eq_of_lt (by omega)]
  have hH := hl_toNat div
  have hL := ll_toNat div
  rw [digitDivHalf]
  generalize hdq : src1 / (hl div + 1) = dq at hq ⊢
  generalize hHv : div.toNat / 2 ^ 16 = H at *
  generalize hLv : div.toNat % 2 ^ 16 = L at *
  -- the estimate divides by one more than the high half, so it is never too high
  have hq1 : dq.toNat * (H + 1) ≤ src1.toNat := by
    rw [hq]
    exact div_mul_le_self _ _
  have hq2 : dq.toNat < 2 ^ 16 := by
    rw [hq]
    apply Nat.div_lt_of_lt_mul
    omega
  have hp1 : H * dq.toNat + dq.toNat ≤ src1.toNat := by
    linarith [Nat.mul_comm dq.toNat H, mul_succ dq.toNat H]
  have hp3 : L * dq.toNat ≤ 2 ^ 16 * dq.toNat := Nat.mul_le_mul_right _ hlo.le
  have hprod : dq.toNat * div.toNat = 2 ^ 16 * (H * dq.toNat) + L * dq.toNat := by
    rw [← hdiv]
    ring
  have hm1 : (hl div * dq).toNat = H * dq.toNat := by
    rw [UInt32.toNat_mul, hH]
    exact mod_eq_of_lt (by omega)
  have hm2 : (ll div * dq).toNat = L * dq.toNat := by
    rw [UInt32.toNat_mul, hL]
    exact mod_eq_of_lt (by omega)
  have hdr : (src1 - hl div * dq).toNat = src1.toNat - H * dq.toNat := by
    rw [UInt32.toNat_sub, hm1]
    omega
  have hdx := hl_toNat (src1 - hl div * dq)
  have hdy : (lh (src1 - hl div * dq) + half).toNat =
      (src1.toNat - H * dq.toNat) % 2 ^ 16 * 2 ^ 16 + half.toNat := by
    rw [UInt32.toNat_add, lh_toNat, hdr]
    omega
  generalize lh (src1 - hl div * dq) + half = dy at hdy ⊢
  generalize hl (src1 - hl div * dq) = dx at hdx ⊢
  have hx : (if dy < dy - ll div * dq then dx - 1 else dx).toNat * radix +
      (dy - ll div * dq).toNat + dq.toNat * div.toNat = src1.toNat * 2 ^ 16 + half.toNat := by
    simp only [lt_iff_toNat_lt, apply_ite UInt32.toNat, UInt32.toNat_sub, toNat_one,
      hm2, radix]
    split_ifs <;> omega
  have hdpos : 0 < div.toNat := by omega
  have hquot : dq.toNat + ((if dy < dy - ll div * dq then dx - 1 else dx).toNat * radix +
      (dy - ll div * dq).toNat) / div.toNat =
      (src1.toNat * 2 ^ 16 + half.toNat) / div.toNat := by
    rw [← hx, add_mul_div_right _ _ hdpos]
    omega
  have hsmall : (src1.toNat * 2 ^ 16 + half.toNat) / div.toNat < 2 ^ 16 := by
    apply Nat.div_lt_of_lt_mul
    omega
  have hr : (2 : ℕ) ^ 16 ≤ radix := by decide
  obtain ⟨q, r, he, hqv, hrv⟩ := digitDivCorrect_spec (n := 2 ^ 64) hdpos
    (lt_of_le_of_lt (Nat.le_add_left _ _) (hquot ▸ hsmall.trans (by norm_num)))
    (hquot ▸ hsmall.trans_le hr)
  rw [hquot] at hqv
  refine ⟨q, r, he, hqv, ?_, hqv ▸ hsmall⟩
  rw [hrv, ← hx, add_mul_mod_self_right]

theorem digitDiv_spec (src2 : UInt32) {src1 div : UInt32} (hn : 2 ^ 31 ≤ div.toNat)
    (hs : src1.toNat < div.toNat) :
    ∃ q, digitDiv src1 src2 div = .ok q ∧
      q.toNat = (src1.toNat * radix + src2.toNat) / div.toNat := by
  have hdpos : 0 < div.toNat := by omega
  have hh := hl_toNat src2
  have hll := ll_toNat src2
  have hlt := src2.toNat_lt
  obtain ⟨q1, r1, he1, hq1, hr1, hb1⟩ := digitDivHalf_spec (hl src2) hn hs (by omega)
  have hr1lt : r1.toNat < div.toNat := by
    rw [hr1]
    exact mod_lt _ hdpos
  obtain ⟨q2, r2, he2, hq2, -, hb2⟩ := digitDivHalf_spec (ll src2) hn hr1lt (by omega)
  refine ⟨lh q1 + q2, by simp only [digitDiv, he1, ok_bind, he2]; rfl, ?_⟩
  have hsplit : src1.toNat * radix + src2.toNat =
      (src1.toNat * 2 ^ 16 + (hl src2).toNat) * 2 ^ 16 + (ll src2).toNat := by
    rw [hh, hll, radix]
    omega
  rw [hsplit, div_two_steps hdpos, ← hq1, ← hr1, ← hq2, UInt32.toNat_add, lh_toNat]
  omega

/-- Both loops end, and no wrap of a 32-bit value reaches the quotient. -/
theorem digitDiv_exact (src1 src2 div : UInt32) (htop : 2 ^ 31 ≤ div.toNat) (hlt : src1 < div) :
    ∃ q, digitDiv src1 src2 div = .ok q ∧
      q.toNat = (src1.toNat * 2 ^ 32 + src2.toNat) / div.toNat :=
  digitDiv_spec src2 htop (lt_iff_toNat_lt.mp hlt)

theorem digitDiv_exact_top : ∃ q, digitDiv 0xfffffffe 0xffffffff 0xffffffff = .ok q ∧
    q.toNat = (0xfffffffe * 2 ^ 32 + 0xffffffff) / 0xffffffff :=
  digitDiv_exact 0xfffffffe 0xffffffff 0xffffffff (by decide) (by decide)

theorem top_digit_bounds {v : List UInt32} (hv : v ≠ []) :
    (v.getD (v.length - 1) 0).toNat = val v / radix ^ (v.length - 1) ∧
      (v.getD (v.length - 1) 0).toNat * radix ^ (v.length - 1) ≤ val v ∧
      val v < ((v.getD (v.length - 1) 0).toNat + 1) * radix ^ (v.length - 1) := by
  have hlen : 0 < v.length := length_pos_iff.mpr hv
  have hdiv : val v / radix ^ (v.length - 1) < radix := by
    apply Nat.div_lt_of_lt_mul
    rw [← pow_succ, Nat.sub_add_cancel hlen]
    exact val_lt v
  have he : (v.getD (v.length - 1) 0).toNat = val v / radix ^ (v.length - 1) := by
    rw [val_getD, mod_eq_of_lt hdiv]
  refine ⟨he, ?_, ?_⟩
  · rw [he]
    exact div_mul_le_self _ _
  · rw [he, Nat.mul_comm]
    exact lt_mul_div_succ _ (radix_pow_pos _)

section Quotient

variable {v C : List UInt32} {i : ℕ}

theorem quotientEstimate_spec (hv : v ≠ []) (hn : 2 ^ 31 ≤ (v.getD (v.length - 1) 0).toNat)
    (hi : v.length + i < C.length) (hw : val (C.drop i) < val v * radix) :
    ∃ q, quotientEstimate v C i = .ok q ∧
      val (C.drop i) / val v ≤ q.toNat ∧ q.toNat ≤ val (C.drop i) / val v + 2 := by
  have hlen : 0 < v.length := length_pos_iff.mpr hv
  rw [quotientEstimate, digitAt_eq hi, digitAt_eq (show v.length - 1 < v.length by omega),
    digitAt_eq (show v.length + i - 1 < C.length by omega)]
  simp only [ok_bind]
  obtain ⟨htop, hv1, hv2⟩ := top_digit_bounds hv
  generalize v.getD (v.length - 1) 0 = top at *
  have hpow : radix ^ v.length = radix ^ (v.length - 1) * radix := by
    rw [← pow_succ, Nat.sub_add_cancel hlen]
  have hW : val (C.drop i) / radix ^ v.length < radix := by
    apply Nat.div_lt_of_lt_mul
    calc val (C.drop i) < val v * radix := hw
      _ < radix ^ v.length * radix := Nat.mul_lt_mul_of_pos_right (val_lt v) radix_pos
  have hhi : (C.getD (v.length + i) 0).toNat = val (C.drop i) / radix ^ v.length := by
    rw [val_getD, val_drop, Nat.div_div_eq_div_mul, ← pow_add, Nat.add_comm i] at *
    exact mod_eq_of_lt hW
  have hlo : (C.getD (v.length + i - 1) 0).toNat = val (C.drop i) / radix ^ (v.length - 1) % radix := by
    rw [val_getD, val_drop, Nat.div_div_eq_div_mul, ← pow_add]
    congr 3
    omega
  generalize C.getD (v.length + i) 0 = hi at *
  generalize C.getD (v.length + i - 1) 0 = lo at *
  generalize val (C.drop i) = W at *
  have hu : W / radix ^ (v.length - 1) = hi.toNat * radix + lo.toNat := by
    rw [hhi, hlo, hpow, ← Nat.div_div_eq_div_mul, Nat.mul_comm, div_add_mod]
  have hle : hi.toNat ≤ top.toNat := by
    rw [hhi, htop, hpow, Nat.mul_comm, ← Nat.div_div_eq_div_mul]
    apply Nat.div_le_div_right
    exact Nat.le_of_lt (Nat.div_lt_of_lt_mul (by rwa [Nat.mul_comm]))
  have hupper : ∀ q : UInt32, q.toNat * top.toNat ≤ hi.toNat * radix + lo.toNat →
      q.toNat ≤ W / val v + 2 := by
    intro q hq
    refine estimate_le_add_two (b := radix) hv1 hv2 ?_ (by rw [radix]; omega) (hu ▸ hq)
      (toNat_lt_radix q)
    exact div_mul_le_self W (radix ^ (v.length - 1))
  by_cases he : hi = top
  · refine ⟨-1, by rw [if_pos he]; rfl, ?_, ?_⟩
    · have hlt : W / val v < radix := Nat.div_lt_of_lt_mul hw
      have hm : (-1 : UInt32).toNat = radix - 1 := rfl
      omega
    · apply hupper
      have hm : (-1 : UInt32).toNat ≤ radix := by decide
      calc (-1 : UInt32).toNat * top.toNat ≤ radix * top.toNat := Nat.mul_le_mul_right _ hm
        _ = hi.toNat * radix := by rw [he, Nat.mul_comm]
        _ ≤ hi.toNat * radix + lo.toNat := Nat.le_add_right _ _
  · have hlt : hi.toNat < top.toNat := lt_of_le_of_ne hle fun hc => he (UInt32.toNat_inj.mp hc)
    obtain ⟨q, heq, hqv⟩ := digitDiv_spec lo hn hlt
    refine ⟨q, by rw [if_neg he, heq], ?_, ?_⟩
    · rw [hqv, ← hu]
      refine quotient_le_estimate hv1 ?_ (by omega)
      rw [Nat.mul_comm]
      exact lt_mul_div_succ W (radix_pow_pos _)
    · apply hupper
      rw [hqv]
      exact div_mul_le_self _ _

theorem toNat_sub_one {q : UInt32} (h : 0 < q.toNat) : (q - 1).toNat = q.toNat - 1 := by
  have hq := q.toNat_lt
  rw [UInt32.toNat_sub, toNat_one]
  omega

theorem val_append_drop {w w' : List UInt32} {n : ℕ} (hl : w'.length = n) (hw : val w < radix ^ n) :
    val (w' ++ w.drop n) = val w' := by
  rw [val_append, hl, val_drop_of_lt hw, Nat.mul_zero, Nat.add_zero]

/-- From an estimate within two of the quotient digit, the window becomes its remainder and the
digit is returned. -/
theorem subtractMultiple_spec {q : UInt32} (hi : v.length + i < C.length) (hV : 0 < val v)
    (hw : val (C.drop i) < val v * radix) (hq1 : val (C.drop i) / val v ≤ q.toNat)
    (hq2 : q.toNat ≤ val (C.drop i) / val v + 2) :
    ∃ w q', subtractMultiple v C i q = .ok (C.take i ++ w, q') ∧ w.length = (C.drop i).length ∧
      val w = val (C.drop i) % val v ∧ q'.toNat = val (C.drop i) / val v := by
  have hWlt : val (C.drop i) < radix ^ (v.length + 1) := by
    exact hw.trans (Nat.mul_lt_mul_of_pos_right (val_lt v) radix_pos)
  have hdlen : v.length < (C.drop i).length := by
    rw [length_drop]
    omega
  obtain ⟨w, c, hms, hwl, hc1, hdrop, hms'⟩ := dwdMulSub_spec q hdlen
  have hdm := div_add_mod (val (C.drop i)) (val v)
  simp only [subtractMultiple, hms, ok_bind]
  generalize hW : val (C.drop i) = W at *
  generalize hQ : W / val v = Q at *
  have hmod := mod_lt W hV
  obtain ⟨e, he, hqe⟩ : ∃ e ≤ 2, q.toNat = Q + e := ⟨q.toNat - Q, by omega, by omega⟩
  -- the window is the remainder up to the borrow and the multiples taken too many
  have hoff : val w + e * val v = W % val v + radix ^ (v.length + 1) * c.toNat := by
    rw [hqe] at hms'
    linarith [Nat.add_mul Q e (val v), Nat.mul_comm Q (val v)]
  have hcases : e = 0 ∨ e = 1 ∨ e = 2 := by omega
  by_cases h0 : c = 0
  · -- no borrow: the estimate was the digit
    rw [h0, UInt32.toNat_zero, Nat.mul_zero] at hoff
    obtain rfl : e = 0 := by rcases hcases with rfl | rfl | rfl <;> omega
    exact ⟨w, q, by rw [if_pos h0]; rfl, hwl, by omega, hqe⟩
  rw [toNat_eq_one hc1 h0, Nat.mul_one] at hoff
  have hwlt : val w < radix ^ (v.length + 1) := by
    rw [val_take_add_drop w (v.length + 1), hdrop, val_drop_of_lt (hW.symm ▸ hWlt)]
    simpa using val_take_lt w (v.length + 1)
  have htake : val (w.take (v.length + 1)) = val w := val_take_of_lt hwlt
  have htlen : (w.take (v.length + 1)).length = v.length + 1 := by
    rw [length_take]
    omega
  obtain ⟨w1, c1, ha1, hl1, hv1⟩ := dwdAdd_spec (w.take (v.length + 1)) v (by omega)
  rw [htlen] at hl1 hv1
  -- a window that is the remainder up to the digit carried out
  have hmem : ∀ (x : List UInt32) (c : ℕ), x.length = v.length + 1 →
      val x + radix ^ (v.length + 1) * c = W % val v + radix ^ (v.length + 1) →
      (x ++ w.drop (v.length + 1)).length = (C.drop i).length ∧
        val (x ++ w.drop (v.length + 1)) = W % val v := by
    intro x c hx htotal
    constructor
    · rw [length_append, length_drop, hx, hwl]
      omega
    · have hlt := val_lt x
      rw [hx] at hlt
      have hrlt : W % val v < radix ^ (v.length + 1) := (mod_le W _).trans_lt hWlt
      rw [val_append_drop hx hwlt]
      have hr := congrArg (· % radix ^ (v.length + 1)) htotal
      simpa [mod_eq_of_lt hlt, mod_eq_of_lt hrlt] using hr
  simp only [if_neg h0, ha1, ok_bind]
  by_cases h1 : c1 = 0
  · -- two too high: a second addition carries out
    rw [h1, UInt32.toNat_zero, Nat.mul_zero, Nat.add_zero] at hv1
    have hlt1 := val_lt w1
    rw [hl1] at hlt1
    obtain rfl : e = 2 := by rcases hcases with rfl | rfl | rfl <;> omega
    obtain ⟨w2, c2, ha2, hl2, hv2⟩ := dwdAdd_spec w1 v (by omega)
    rw [hl1] at hv2 hl2
    obtain ⟨hm1, hm2⟩ := hmem w2 c2.toNat hl2 (by omega)
    refine ⟨w2 ++ w.drop (v.length + 1), q - 1 - 1, ?_, hm1, hm2, ?_⟩
    · rw [if_neg (not_not.mpr h1), ha2]
      rfl
    · have hq1' : (q - 1).toNat = q.toNat - 1 := toNat_sub_one (by omega)
      rw [toNat_sub_one (by omega), hq1']
      omega
  · -- one too high: the addition carries out
    have hcm : radix ^ (v.length + 1) ≤ radix ^ (v.length + 1) * c1.toNat :=
      Nat.le_mul_of_pos_right _ (toNat_pos h1)
    obtain rfl : e = 1 := by rcases hcases with rfl | rfl | rfl <;> omega
    obtain ⟨hm1, hm2⟩ := hmem w1 c1.toNat hl1 (by omega)
    refine ⟨w1 ++ w.drop (v.length + 1), q - 1, ?_, hm1, hm2, ?_⟩
    · rw [if_pos h1]
      rfl
    · rw [toNat_sub_one (by omega), hqe]
      rfl

theorem quotientStep_spec (hv : v ≠ []) (hn : 2 ^ 31 ≤ (v.getD (v.length - 1) 0).toNat)
    (hi : v.length + i < C.length) (hw : val (C.drop i) < val v * radix) :
    ∃ w q, quotientStep v C i = .ok (C.take i ++ w, q) ∧ w.length = (C.drop i).length ∧
      val w = val (C.drop i) % val v ∧ q.toNat = val (C.drop i) / val v := by
  have hV : 0 < val v := by
    have h1 := (top_digit_bounds hv).2.1
    have h2 : 0 < (v.getD (v.length - 1) 0).toNat * radix ^ (v.length - 1) :=
      Nat.mul_pos (by omega) (radix_pow_pos _)
    omega
  obtain ⟨q, he, hq1, hq2⟩ := quotientEstimate_spec hv hn hi hw
  rw [quotientStep, he, ok_bind]
  exact subtractMultiple_spec hi hV hw hq1 hq2

theorem quotientLoop_spec (hv : v ≠ []) (hn : 2 ^ 31 ≤ (v.getD (v.length - 1) 0).toNat) {k : ℕ}
    (hk : v.length + k ≤ C.length) (hC : val C < val v * radix ^ k) :
    ∃ C' qs, quotientLoop v k C = .ok (C', qs) ∧ C'.length = C.length ∧ qs.length = k ∧
      val C' = val C % val v ∧ val qs = val C / val v := by
  induction k generalizing C with
  | zero =>
    rw [pow_zero, Nat.mul_one] at hC
    exact ⟨C, [], rfl, rfl, rfl, (mod_eq_of_lt hC).symm, (div_eq_of_lt hC).symm⟩
  | succ k ih =>
    have hV : 0 < val v := Nat.pos_of_mul_pos_right (zero_lt_of_lt hC)
    have hw : val (C.drop k) < val v * radix := by
      rw [val_drop]
      apply Nat.div_lt_of_lt_mul
      calc val C < val v * radix ^ (k + 1) := hC
        _ = radix ^ k * (val v * radix) := by ring
    obtain ⟨w, q, he, hwl, hwv, hqv⟩ := quotientStep_spec hv hn (by omega) hw
    have hct : (C.take k).length = k := by
      rw [length_take]
      omega
    have hlen : (C.take k ++ w).length = C.length := by
      rw [length_append, hct, hwl, length_drop]
      omega
    have hval : val (C.take k ++ w) = val (C.take k) + radix ^ k * (val (C.drop k) % val v) := by
      rw [val_append, hct, hwv]
    have hsum : val C = val (C.take k ++ w) + val v * (radix ^ k * (val (C.drop k) / val v)) := by
      have hdm := div_add_mod (val (C.drop k)) (val v)
      rw [hval, val_take_add_drop C k]
      linear_combination radix ^ k * hdm.symm
    have hlt : val (C.take k ++ w) < val v * radix ^ k := by
      have ht := val_take_lt C k
      have hm : (val (C.drop k) % val v + 1) * radix ^ k ≤ val v * radix ^ k :=
        Nat.mul_le_mul_right _ (mod_lt _ hV)
      linarith [Nat.mul_comm (radix ^ k) (val (C.drop k) % val v)]
    obtain ⟨C', qs, he', hl', hq', hm', hd'⟩ := ih (C := C.take k ++ w) (by omega) hlt
    refine ⟨C', qs ++ [q], by simp only [quotientLoop, he, ok_bind, he']; rfl, by omega,
      by simp [hq'], ?_, ?_⟩
    · rw [hm', hsum, add_mul_mod_self_left]
    · rw [val_append, val_singleton, hq', hd', hqv]
      conv_rhs => rw [hsum, add_mul_div_left _ _ hV]

end Quotient

section Divide

variable {C v : List UInt32}

theorem normShift_spec (hv : v ≠ []) (htop : v.getD (v.length - 1) 0 ≠ 0) :
    ∃ t, normShift v = .ok t ∧ t.toNat < 32 ∧
      2 ^ 31 ≤ (v.getD (v.length - 1) 0).toNat * 2 ^ t.toNat ∧
      val v * 2 ^ t.toNat < radix ^ v.length := by
  have hlen : 0 < v.length := length_pos_iff.mpr hv
  obtain ⟨h1, h2, h3⟩ := clearBits_spec le_rfl htop (v.getD (v.length - 1) 0).toNat_lt
  have ht := toNat_toUInt32 h1
  refine ⟨(clearBits (v.getD (v.length - 1) 0) 32).toUInt32, ?_, by omega, ?_, ?_⟩
  · rw [normShift, digitAt_eq (by omega), ok_bind]
    rfl
  · rw [ht]
    omega
  · rw [ht]
    generalize clearBits (v.getD (v.length - 1) 0) 32 = s at h1 h3
    have hb := (top_digit_bounds hv).2.2
    generalize (v.getD (v.length - 1) 0).toNat = top at h3 hb
    -- the digit below the next multiple of the shift leaves room for what the lower digits add
    have hs : 2 ^ 32 = 2 ^ (32 - s) * 2 ^ s := by
      rw [← pow_add, Nat.sub_add_cancel h1.le]
    have htl : top + 1 ≤ 2 ^ (32 - s) := by
      rw [hs] at h3
      exact Nat.lt_of_mul_lt_mul_right h3
    calc val v * 2 ^ s < (top + 1) * radix ^ (v.length - 1) * 2 ^ s :=
          Nat.mul_lt_mul_of_pos_right hb (Nat.two_pow_pos s)
      _ ≤ 2 ^ (32 - s) * radix ^ (v.length - 1) * 2 ^ s := by gcongr
      _ = 2 ^ 32 * radix ^ (v.length - 1) := by rw [hs]; ring
      _ = radix ^ v.length := by
          rw [show (2 : ℕ) ^ 32 = radix from rfl, ← pow_succ' radix, Nat.sub_add_cancel hlen]

theorem normalise_spec (ds : List UInt32) {t : UInt32} (h32 : t.toNat < 32) (hds : ds ≠ [])
    (hfit : val ds * 2 ^ t.toNat < radix ^ ds.length) :
    ∃ rs, normalise t ds = .ok rs ∧ rs.length = ds.length ∧ val rs = val ds * 2 ^ t.toNat := by
  by_cases h0 : t = 0
  · exact ⟨ds, by rw [normalise, if_pos h0], rfl, by simp [h0]⟩
  · obtain ⟨rs, c, he, hl, hv⟩ := dwdShl_spec h32 (toNat_pos h0) hds
    refine ⟨rs, by rw [normalise, if_neg h0, he]; rfl, hl, ?_⟩
    rcases Nat.eq_zero_or_pos c.toNat with hc | hc
    · rw [hc] at hv
      simpa using hv
    · have hm := Nat.le_mul_of_pos_right (radix ^ ds.length) hc
      omega

theorem denormalise_spec (ds : List UInt32) {t : UInt32} (h32 : t.toNat < 32) (hds : ds ≠ []) :
    ∃ rs, denormalise t ds = .ok rs ∧ rs.length = ds.length ∧ val rs = val ds / 2 ^ t.toNat := by
  by_cases h0 : t = 0
  · exact ⟨ds, by rw [denormalise, if_pos h0], rfl, by simp [h0]⟩
  · obtain ⟨rs, c, he, hl, hv⟩ := dwdShr_spec h32 (toNat_pos h0) hds
    exact ⟨rs, by rw [denormalise, if_neg h0, he]; rfl, hl, hv⟩

theorem normalisedDivide_spec {t : UInt32} (hv : v ≠ []) (h32 : t.toNat < 32)
    (htop : 2 ^ 31 ≤ (v.getD (v.length - 1) 0).toNat * 2 ^ t.toNat)
    (hfit : val v * 2 ^ t.toNat < radix ^ v.length) (hl : v.length ≤ C.length)
    (hC : val C < val v * radix ^ (C.length - v.length)) :
    ∃ rem qs, normalisedDivide t C v = .ok (rem, qs) ∧ rem.length = v.length ∧
      qs.length = C.length - v.length ∧ val rem = val C % val v ∧ val qs = val C / val v := by
  have hlen : 0 < v.length := length_pos_iff.mpr hv
  have hCne : C ≠ [] := length_pos_iff.mp (by omega)
  have hpow : radix ^ C.length = radix ^ v.length * radix ^ (C.length - v.length) := by
    rw [← pow_add]
    congr 1
    omega
  have hCt : val C * 2 ^ t.toNat < val v * 2 ^ t.toNat * radix ^ (C.length - v.length) := by
    calc val C * 2 ^ t.toNat < val v * radix ^ (C.length - v.length) * 2 ^ t.toNat :=
          Nat.mul_lt_mul_of_pos_right hC (Nat.two_pow_pos _)
      _ = val v * 2 ^ t.toNat * radix ^ (C.length - v.length) := by ring
  obtain ⟨C', he1, hl1, hv1⟩ := normalise_spec C h32 hCne (by
    rw [hpow]
    exact hCt.trans (Nat.mul_lt_mul_of_pos_right hfit (radix_pow_pos _)))
  obtain ⟨v', he2, hl2, hv2⟩ := normalise_spec _ h32 hv hfit
  have hv'ne : v' ≠ [] := length_pos_iff.mp (by omega)
  have hntop : 2 ^ 31 ≤ (v'.getD (v'.length - 1) 0).toNat := by
    rw [(top_digit_bounds hv'ne).1, hv2, hl2, Nat.le_div_iff_mul_le (radix_pow_pos _)]
    have hb := (top_digit_bounds hv).2.1
    calc 2 ^ 31 * radix ^ (v.length - 1)
        ≤ (v.getD (v.length - 1) 0).toNat * 2 ^ t.toNat * radix ^ (v.length - 1) := by gcongr
      _ = (v.getD (v.length - 1) 0).toNat * radix ^ (v.length - 1) * 2 ^ t.toNat := by ring
      _ ≤ val v * 2 ^ t.toNat := by gcongr
  obtain ⟨C'', qs, he3, hl3, hq3, hm3, hd3⟩ := quotientLoop_spec (C := C') hv'ne hntop
    (k := C.length - v.length) (by omega) (by rw [hv1, hv2]; exact hCt)
  have hshift : val C'' = val C % val v * 2 ^ t.toNat := by
    rw [hm3, hv1, hv2, mul_mod_mul_right]
  have hVpos : 0 < val v := Nat.pos_of_mul_pos_right (zero_lt_of_lt hC)
  have hsmall : val C'' < radix ^ v.length := by
    rw [hshift]
    refine lt_of_le_of_lt ?_ hfit
    exact Nat.mul_le_mul_right _ (mod_lt _ hVpos).le
  have htlen : (C''.take v.length).length = v.length := by
    rw [length_take]
    omega
  obtain ⟨rem, he4, hl4, hv4⟩ := denormalise_spec (C''.take v.length) h32
    (length_pos_iff.mp (by omega))
  refine ⟨rem, qs, ?_, hl4.trans htlen, hq3, ?_, ?_⟩
  · simp only [normalisedDivide, he1, ok_bind, he2, he3, he4]
    rfl
  · rw [hv4, val_take_of_lt hsmall, hshift, Nat.mul_div_cancel _ (Nat.two_pow_pos _)]
  · rw [hd3, hv1, hv2, Nat.mul_div_mul_right _ _ (Nat.two_pow_pos _)]

/-- The zero digit on top makes room for a quotient of one digit more. -/
theorem extendedDivide_spec (C : List UInt32) {t : UInt32} (hv : v ≠ [])
    (hnz : v.getD (v.length - 1) 0 ≠ 0) (h32 : t.toNat < 32)
    (htop : 2 ^ 31 ≤ (v.getD (v.length - 1) 0).toNat * 2 ^ t.toNat)
    (hfit : val v * 2 ^ t.toNat < radix ^ v.length) (hl : v.length ≤ C.length) :
    ∃ rem qs, normalisedDivide t (C ++ [0]) v = .ok (rem, qs) ∧ rem.length = v.length ∧
      qs.length = C.length + 1 - v.length ∧ val rem = val C % val v ∧ val qs = val C / val v := by
  have hlen : 0 < v.length := length_pos_iff.mpr hv
  have hval : val (C ++ [0]) = val C := by simp [val_append]
  have hclen : (C ++ [0]).length = C.length + 1 := by simp
  have hge : radix ^ (v.length - 1) ≤ val v := by
    exact (Nat.le_mul_of_pos_left _ (toNat_pos hnz)).trans (top_digit_bounds hv).2.1
  have hC : val (C ++ [0]) < val v * radix ^ ((C ++ [0]).length - v.length) := by
    calc val (C ++ [0]) < radix ^ C.length := hval ▸ val_lt C
      _ = radix ^ (v.length - 1) * radix ^ ((C ++ [0]).length - v.length) := by
          rw [← pow_add, hclen]
          congr 1
          omega
      _ ≤ _ := by gcongr
  have h := normalisedDivide_spec hv h32 htop hfit (by omega) hC
  rwa [hval, hclen] at h

theorem dwdDivide_spec (src1 : List UInt32) {src2 : List UInt32} (hs : src2 ≠ [])
    (htop : src2.getD (src2.length - 1) 0 ≠ 0) (hl : src2.length ≤ src1.length) :
    ∃ rem qs, dwdDivide src1 src2 = .ok (rem, qs) ∧ rem.length = src2.length ∧
      qs.length = src1.length + 1 - src2.length ∧ val rem = val src1 % val src2 ∧
      val qs = val src1 / val src2 := by
  obtain ⟨t, ht, h32, h31, hfit⟩ := normShift_spec hs htop
  rw [dwdDivide, ht, ok_bind, if_neg (by omega)]
  exact extendedDivide_spec src1 hs htop h32 h31 hfit hl

theorem classicalRedc_spec (dest : List UInt32) {modulus : List UInt32} (hm : modulus ≠ [])
    (htop : modulus.getD (modulus.length - 1) 0 ≠ 0) (hl : modulus.length ≤ dest.length) :
    ∃ rem, classicalRedc dest modulus = .ok rem ∧ rem.length = modulus.length ∧
      val rem = val dest % val modulus := by
  have hlen : 0 < modulus.length := length_pos_iff.mpr hm
  have hdne : dest ≠ [] := length_pos_iff.mp (by omega)
  obtain ⟨t, ht, h32, h31, hfit⟩ := normShift_spec hm htop
  obtain ⟨-, hm1, -⟩ := top_digit_bounds hm
  obtain ⟨-, -, hd2⟩ := top_digit_bounds hdne
  have hunfold : classicalRedc dest modulus = (do
      let divided ← normalisedDivide t
        (if modulus.getD (modulus.length - 1) 0 ≤ dest.getD (dest.length - 1) 0 then dest ++ [0]
          else dest) modulus
      return divided.1) := by
    simp only [classicalRedc, if_neg (Nat.not_lt.mpr hl), ht, ok_bind,
      digitAt_eq (show modulus.length - 1 < modulus.length by omega),
      digitAt_eq (show dest.length - 1 < dest.length by omega)]
  rw [hunfold]
  split_ifs with hflag
  · obtain ⟨rem, qs, he, h1, -, h3, -⟩ := extendedDivide_spec dest hm htop h32 h31 hfit hl
    exact ⟨rem, by rw [he]; rfl, h1, h3⟩
  · have hC : val dest < val modulus * radix ^ (dest.length - modulus.length) := by
      rw [UInt32.not_le, lt_iff_toNat_lt] at hflag
      calc val dest < ((dest.getD (dest.length - 1) 0).toNat + 1) * radix ^ (dest.length - 1) := hd2
        _ ≤ (modulus.getD (modulus.length - 1) 0).toNat * radix ^ (dest.length - 1) := by
            gcongr
            omega
        _ = (modulus.getD (modulus.length - 1) 0).toNat * radix ^ (modulus.length - 1) *
              radix ^ (dest.length - modulus.length) := by
            rw [Nat.mul_assoc, ← pow_add]
            congr 2
            omega
        _ ≤ _ := by gcongr
    obtain ⟨rem, qs, he, h1, -, h3, -⟩ := normalisedDivide_spec hm h32 h31 hfit hl hC
    exact ⟨rem, by rw [he]; rfl, h1, h3⟩

end Divide

end VDLinux.SecureBoot.Digit
