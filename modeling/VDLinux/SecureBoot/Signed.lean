import VDLinux.SecureBoot.BigNumSpec

namespace VDLinux.SecureBoot

open Digit Base.Words Base.Outcome

/-- `SDRM_BN_Sub` with one number as both operands: the pointers are compared, and the destination is
cleared. -/
def bnSubSelf (dst src : BigNum) : Run BigNum := do
  if !(← kmalloc) then return dst
  let _ ← bnCopy (bnAlloc src.size) src
  let _ ← bnCopy (bnAlloc src.size) src
  return bnClr dst

/-- With memory for the copies the routine returns a number of this signed value. -/
def Computes (run : Run BigNum) (z : ℤ) : Prop :=
  Yields run ample fun r => r.length ≤ r.size ∧ r.signed = z

section Signed

variable {x y dst : BigNum}

theorem signed_of_sign {r : BigNum} {z : ℤ} (hs : r.sign = true ↔ z < 0) (hv : r.value = z.natAbs) :
    r.signed = z := by
  rw [BigNum.signed, hv]
  split_ifs with h
  · have := hs.mp h
    omega
  · have : ¬ z < 0 := fun hz => h (hs.mpr hz)
    omega

theorem signed_of_nonneg (h : x.sign = false) : x.signed = x.value := by
  rw [BigNum.signed, h]
  rfl

theorem value_eq_natAbs (r : BigNum) : r.value = r.signed.natAbs := by
  rw [BigNum.signed]
  split_ifs <;> simp

theorem value_eq_zero (h : x.length = 0) : x.value = 0 := by
  have hlt := value_lt x
  rw [h, pow_zero] at hlt
  omega

theorem signed_eq_zero (h : x.length = 0) : x.signed = 0 := by
  rw [BigNum.signed, value_eq_zero h]
  simp

variable (hx : x.length ≤ x.size)
include hx

theorem bnCopy_signed (hd : x.length ≤ dst.size) : Computes (bnCopy dst x) x.signed := by
  refine (bnCopy_digits dst x hx hd).mono ?_
  rintro r ⟨hz, hl, hs, hdig, -⟩
  refine ⟨by rw [hl, hz]; exact hd, ?_⟩
  rw [BigNum.signed, BigNum.signed, hs, BigNum.value, BigNum.value, hdig]

theorem bnAdd_signed (hy : y.length ≤ y.size) (hxd : x.length ≤ dst.size)
    (hyd : y.length ≤ dst.size) (hsum : x.value + y.value < radix ^ dst.size) :
    Computes (bnAdd dst x y) (x.signed + y.signed) := by
  by_cases h0 : x.length = 0
  · apply kmalloc_yields
    rw [if_pos h0, signed_eq_zero h0, zero_add]
    exact bnCopy_signed hy hyd
  by_cases h1 : y.length = 0
  · apply kmalloc_yields
    rw [if_neg h0, if_pos h1, signed_eq_zero h1, add_zero]
    exact bnCopy_signed hx hxd
  by_cases hs : x.sign = y.sign
  · refine (bnAdd_same dst hx hy h0 h1 hs hxd hyd hsum).mono ?_
    rintro r ⟨hr, hrs⟩
    refine ⟨hr.length_le_size, ?_⟩
    have hrv : r.value = x.value + y.value := hr.value
    rw [BigNum.signed, BigNum.signed, BigNum.signed, hrs, hrv, ← hs]
    cases x.sign with
    | false => simp
    | true =>
      simp only [if_true]
      omega
  apply kmalloc_yields
  rw [if_neg h0, if_neg h1]
  apply bnCopy_both hx (hx.trans (le_max_left _ _)) hy (hy.trans (le_max_right _ _))
  intro t1 t2 ht1 ht2
  have hmax : max x.length y.length ≤ max x.size y.size := max_le_max hx hy
  have hd : max x.length y.length ≤ dst.size := max_le hxd hyd
  rw [if_pos (by rw [ht1.sign_eq, ht2.sign_eq]; exact hs), ht1.sign_eq, BigNum.signed, BigNum.signed]
  cases hsx : x.sign with
  | false =>
    obtain ⟨r, he, hz, hl, hsign, hv⟩ := subMagnitudes_spec dst ht1 ht2 hmax hd
    refine Yields.lift he ⟨hz.symm ▸ hl, signed_of_sign (hsign.trans ?_) (hv.trans ?_)⟩ <;> grind
  | true =>
    obtain ⟨r, he, hz, hl, hsign, hv⟩ := subMagnitudes_spec dst ht2 ht1 (max_comm x.length _ ▸ hmax)
      (max_comm x.length _ ▸ hd)
    refine Yields.lift he ⟨hz.symm ▸ hl, signed_of_sign (hsign.trans ?_) (hv.trans ?_)⟩ <;> grind

/-- With different signs the magnitudes are subtracted where they should be added: the copies keep their
signs when they are handed to the addition. -/
theorem bnSub_mixed (hy : y.length ≤ y.size) (hxd : x.length ≤ dst.size)
    (hyd : y.length ≤ dst.size) (hsum : x.value + y.value < radix ^ dst.size) (hs : x.sign ≠ y.sign) :
    Computes (bnSub dst x y)
      (if x.sign then -((x.signed + y.signed).natAbs : ℤ) else (x.signed + y.signed).natAbs) := by
  apply kmalloc_yields
  have hxm : x.length ≤ max x.size y.size := hx.trans (le_max_left _ _)
  have hym : y.length ≤ max x.size y.size := hy.trans (le_max_right _ _)
  apply bnCopy_both hx hxm hy hym
  intro t1 t2 h1 h2
  rw [if_pos (by rw [h1.sign_eq, h2.sign_eq]; exact hs)]
  have hadd := @bnAdd_signed t1 t2 dst
    (h1.length_le_size hxm) (h2.length_le_size hym) (h1.length_eq ▸ hxd) (h2.length_eq ▸ hyd)
    (by rw [h1.value_eq, h2.value_eq]; exact hsum)
  rw [h1.signed_eq, h2.signed_eq] at hadd
  apply Yields.bind hadd
  rintro r ⟨hl, hsum⟩
  apply Yields.pure
  refine ⟨hl, ?_⟩
  have hv := value_eq_natAbs r
  rw [hsum] at hv
  rw [BigNum.signed, ← hv, h1.sign_eq]
  rfl

omit hx

theorem mixed_difference_iff (hs : x.sign ≠ y.sign) : (x.signed - y.signed =
        if x.sign then -((x.signed + y.signed).natAbs : ℤ) else (x.signed + y.signed).natAbs) ↔
      x.value = 0 ∨ y.value = 0 := by
  rw [BigNum.signed, BigNum.signed]
  cases hsx : x.sign <;> cases hsy : y.sign
  · exact absurd (hsx.trans hsy.symm) hs
  · simp only [Bool.false_eq_true, if_false, if_true]
    omega
  · simp only [Bool.false_eq_true, if_false, if_true]
    omega
  · exact absurd (hsx.trans hsy.symm) hs

theorem bnSubSelf_signed (hx : x.length ≤ x.size) : Computes (bnSubSelf dst x) (x.signed - x.signed) := by
  apply kmalloc_yields
  apply bnCopy_both hx hx hx hx
  intro t1 t2 _ _
  apply Yields.pure
  refine ⟨Nat.zero_le _, ?_⟩
  rw [sub_self]
  rfl

end Signed

/-- The sum is right for all signs. The difference is right exactly if the operands have the same sign or
one of them is zero. -/
theorem add_sub_signed_iff (dst x y : BigNum) (hx : x.length ≤ x.size) (hy : y.length ≤ y.size)
    (hxd : x.length ≤ dst.size) (hyd : y.length ≤ dst.size) (hsum : x.value + y.value < radix ^ dst.size) :
    (Computes (bnAdd dst x y) (x.signed + y.signed) ∧ Computes (bnSub dst x y) (x.signed - y.signed) ∧
        Computes (bnSubSelf dst x) (x.signed - x.signed)) ↔
      x.sign = y.sign ∨ x.value = 0 ∨ y.value = 0 := by
  refine ⟨fun ⟨_, hsub, _⟩ => ?_, fun hcase => ⟨bnAdd_signed hx hy hxd hyd hsum, ?_, bnSubSelf_signed hx⟩⟩
  · by_cases hs : x.sign = y.sign
    · exact Or.inl hs
    · obtain ⟨r, ⟨-, hwant⟩, -, hgot⟩ := hsub.both (bnSub_mixed hx hy hxd hyd hsum hs)
      exact Or.inr ((mixed_difference_iff hs).mp (hwant.symm.trans hgot))
  · by_cases hs : x.sign = y.sign
    · refine (bnSub_same dst hx hy (max_le hxd hyd) hs).mono ?_
      rintro r ⟨hcut, hsign⟩
      exact ⟨hcut.length_le_size, signed_of_sign (hsign.trans (by omega)) hcut.value⟩
    · rw [(mixed_difference_iff hs).mpr (hcase.resolve_left hs)]
      exact bnSub_mixed hx hy hxd hyd hsum hs

theorem add_sub_signed_iff_five : ¬ Computes (bnSub (bnAlloc 2) ⟨false, 1, [5]⟩ ⟨true, 1, [3]⟩) 8 ∧
      Computes (bnAdd (bnAlloc 2) ⟨true, 1, [5]⟩ ⟨false, 2, [0, 0]⟩) (-5) := by
  refine ⟨fun hsub => ?_, ?_⟩
  · have hadd : Computes (bnAdd (bnAlloc 2) ⟨false, 1, [5]⟩ ⟨true, 1, [3]⟩) 2 :=
      bnAdd_signed (by decide) (by decide) (by decide) (by decide) (by decide)
    have hself : Computes (bnSubSelf (bnAlloc 2) ⟨false, 1, [5]⟩) 0 := bnSubSelf_signed (by decide)
    exact absurd ((add_sub_signed_iff (bnAlloc 2) ⟨false, 1, [5]⟩ ⟨true, 1, [3]⟩ (by decide) (by decide)
      (by decide) (by decide) (by decide)).mp ⟨hadd, hsub, hself⟩) (by decide)
  · exact ((add_sub_signed_iff (bnAlloc 2) ⟨true, 1, [5]⟩ ⟨false, 2, [0, 0]⟩ (by decide) (by decide)
      (by decide) (by decide) (by decide)).mpr (by decide)).1

/-- Five minus minus three comes out as two. -/
theorem bnSub_five_minus_three :
    (((bnSub (bnAlloc 2) ⟨false, 1, [5]⟩ ⟨true, 1, [3]⟩) ample).toOption.map fun p =>
        (p.1.signed, p.2.tooSmall)) = some (2, false) ∧
      (⟨false, 1, [5]⟩ : BigNum).signed - (⟨true, 1, [3]⟩ : BigNum).signed = 8 := by
  decide

end VDLinux.SecureBoot
