import VDLinux.SecureBoot.Signed

namespace VDLinux.SecureBoot

open Digit Base.Words Base.Outcome

/-- The divisor as `SDRM_DWD_Div` leaves it: shifted in its own array and back, once there is memory to
work in. -/
def restored (worked : Bool) (src2 : List UInt32) : Checked (List UInt32) :=
  if worked then do
    let t ← normShift src2
    denormalise t (← normalise t src2)
  else .ok src2

/-- `SDRM_BN_Div` with both outputs: quotient, remainder and the divisor that was worked on. The working
copies are only compared; the division reads the operands themselves. -/
def bnDivRem (quotient remainder dividend divisor : BigNum) : Run (BigNum × BigNum × BigNum) := do
  let dSize := max quotient.size dividend.size
  if !(← kmalloc) then return (quotient, remainder, divisor)
  let temp1 ← bnCopy (bnAlloc dSize) dividend
  let temp2 ← bnCopy (bnAlloc dSize) divisor
  if (← bnCmp temp1 temp2) = .lt then return (quotient, ← bnCopy remainder temp1, divisor)
  let ds1 ← dividend.digits
  let ds2 ← divisor.digits
  let divided ← dwdDiv ds1 ds2
  let (rem, qs) := divided.getD ([], [])
  let divisor' ← divisor.store (← restored divided.isSome ds2)
  let quotient ← quotient.store qs
  let remainder ← remainder.store rem
  let quotient ← optimizeLength
    ⟨dividend.sign != divisor.sign, temp1.length - temp2.length + 1, quotient.pData⟩
  let remainder ← optimizeLength ⟨dividend.sign, temp2.length, remainder.pData⟩
  return (quotient, remainder, divisor')

section DivRem

variable {q r x y dst : BigNum}

theorem restored_spec {v : List UInt32} (hv : v ≠ []) (htop : v.getD (v.length - 1) 0 ≠ 0) :
    restored true v = .ok v := by
  obtain ⟨t, ht, h32, -, hfit⟩ := normShift_spec hv htop
  obtain ⟨up, hup, hupl, hupv⟩ := normalise_spec v h32 hv hfit
  have hupne : up ≠ [] := List.length_pos_iff.mp (hupl.symm ▸ List.length_pos_iff.mpr hv)
  obtain ⟨down, hdown, hdownl, hdownv⟩ := denormalise_spec up h32 hupne
  rw [hupv, Nat.mul_div_cancel _ (Nat.two_pow_pos _)] at hdownv
  rw [restored, if_pos rfl, ht, ok_bind, hup, ok_bind, hdown, val_inj (hdownl.trans hupl) hdownv]

structure DivRoom (q r x y : BigNum) : Prop where
  quotient : x.length + 1 - y.length ≤ q.size
  remainder : y.length ≤ r.size
  copy : x.value < y.value → x.length ≤ r.size

theorem bnDivRem_small (hx : x.length ≤ x.size) (hy : y.length ≤ y.size) (hlt : x.value < y.value)
    (hfits : y.length ≤ max q.size x.size) (hr : x.length ≤ r.size) :
    Yields (bnDivRem q r x y) ample fun o =>
      o.1 = q ∧ o.2.2 = y ∧ o.2.1.signed = x.signed ∧ o.2.1.length ≤ o.2.1.size := by
  apply kmalloc_yields
  have hxd : x.length ≤ max q.size x.size := hx.trans (le_max_right _ _)
  apply bnCopy_both hx hxd hy hfits
  intro t1 t2 h1 h2
  have hl1 := h1.length_le_size hxd
  apply Yields.bind_lift (bnCmp_value hl1 (h2.length_le_size hfits))
  rw [if_pos (by rw [h1.value_eq, h2.value_eq]; exact Nat.compare_eq_lt.mpr hlt)]
  apply Yields.bind (bnCopy_signed hl1 (h1.length_eq ▸ hr))
  rintro rem ⟨hl, hv⟩
  exact Yields.pure ⟨rfl, rfl, hv.trans h1.signed_eq, hl⟩

theorem bnDivRem_large (hx : x.length ≤ x.size) (hy : Mag y y.size y.value) (hpos : 0 < y.value)
    (hle : y.value ≤ x.value) (hq : x.length + 1 - y.length ≤ q.size) (hr : y.length ≤ r.size) :
    Yields (bnDivRem q r x y) ample fun o =>
      (o.1.sign = (x.sign != y.sign) ∧ o.1.value = x.value / y.value ∧ o.1.length ≤ o.1.size) ∧
      (o.2.1.sign = x.sign ∧ o.2.1.value = x.value % y.value ∧ o.2.1.length ≤ o.2.1.size) ∧ o.2.2 = y := by
  have hyx := hy.length_le_of_le hpos hle
  have hyl := hy.length_le_size
  have hxd : x.length ≤ max q.size x.size := hx.trans (le_max_right _ _)
  have hyd : y.length ≤ max q.size x.size := hyx.trans hxd
  apply kmalloc_yields
  apply bnCopy_both hx hxd hyl hyd
  intro t1 t2 h1 h2
  apply Yields.bind_lift (bnCmp_value (h1.length_le_size hxd) (h2.length_le_size hyd))
  rw [if_neg (by rw [h1.value_eq, h2.value_eq, Nat.compare_eq_lt]; omega), h1.length_eq, h2.length_eq]
  apply Yields.bind_lift (digits_eq hx)
  apply Yields.bind_lift (digits_eq hyl)
  apply Yields.bind (dwdDiv_yields hx hy hpos hyx)
  rintro _ ⟨rem, qs, rfl, hrl, hql, hrv, hqv⟩
  -- the divisor comes back as it was
  apply Yields.bind_lift (restored_spec (hy.digits_ne_nil hpos)
    (by rw [hy.digits_length]; exact hy.top_ne_zero hpos))
  have hback : y.store (y.pData.take y.length) = .ok y := by
    rw [store_eq (by rw [digits_length hyl]; exact hyl), digits_length hyl, List.take_append_drop]
  apply Yields.bind_lift hback
  have hqlen : qs.length = x.length - y.length + 1 := by omega
  have hqd : x.length - y.length + 1 ≤ q.size := by omega
  apply Yields.bind_lift (store_eq (hqlen.trans_le hqd))
  apply Yields.bind_lift (store_eq (hrl.trans_le hr))
  obtain ⟨zq, hzq, hcutq, hsq, -⟩ := stored_cut q (x.sign != y.sign) hqlen hqd hqv
  obtain ⟨zr, hzr, hcutr, hsr, -⟩ := stored_cut r x.sign hrl hr hrv
  apply Yields.bind_lift hzq
  apply Yields.bind_lift hzr
  exact Yields.pure ⟨⟨hsq, hcutq.value, hcutq.length_le_size⟩, ⟨hsr, hcutr.value, hcutr.length_le_size⟩,
    rfl⟩

theorem value_pos_of_top (hpos : 0 < y.length) (htop : y.pData.getD (y.length - 1) 0 ≠ 0) :
    0 < y.value := by
  apply Nat.pos_of_ne_zero
  intro h0
  have hdigit := val_getD (y.pData.take y.length) (y.length - 1)
  rw [BigNum.value] at h0
  rw [getD_take (by omega), h0, Nat.zero_div, Nat.zero_mod] at hdigit
  exact htop (UInt32.toNat_inj.mp hdigit)

theorem store_size {ds : List UInt32} {z : BigNum} (h : x.store ds = .ok z) : z.size = x.size := by
  rw [BigNum.store] at h
  split_ifs at h with hle
  obtain rfl := Except.ok.inj h
  exact stored_size hle

theorem dwdDivide_short {src1 src2 : List UInt32} (h : src1.length + 1 < src2.length) :
    ∃ e, dwdDivide src1 src2 = .error e := by
  rw [dwdDivide]
  cases normShift src2 with
  | error e => exact ⟨e, rfl⟩
  | ok t =>
    refine ⟨.outOfBounds, ?_⟩
    rw [ok_bind, if_pos h]
    rfl

/-- A divisor that does not fit the working copy is compared as zero, and the division then leaves its
arrays. -/
theorem bnDivRem_fails (hx : x.length ≤ x.size) (hy : y.length ≤ y.size)
    (hfits : max q.size x.size < y.length) :
    Fails (bnDivRem q r x y) ample := by
  have hxd : x.length ≤ max q.size x.size := hx.trans (le_max_right _ _)
  refine Fails.bind_ok (show kmalloc ample = .ok (true, ample) from rfl) ?_
  obtain ⟨t1, ht1, h1⟩ := bnCopy_fresh (w := ample) x hx hxd
  apply Fails.bind_ok ht1
  have hrefused : bnCopy (bnAlloc (max q.size x.size)) y ample =
      .ok (bnAlloc (max q.size x.size), { ample with tooSmall := true }) := by
    rw [bnCopy, if_pos (by rw [size_bnAlloc]; exact hfits)]
    rfl
  apply Fails.bind_ok hrefused
  apply Fails.bind_lift (bnCmp_value (h1.length_le_size hxd)
    (show (bnAlloc (max q.size x.size)).length ≤ _ from Nat.zero_le _))
  rw [if_neg (by rw [Nat.compare_eq_lt]; exact Nat.not_lt_zero _)]
  apply Fails.bind_lift (digits_eq hx)
  apply Fails.bind_lift (digits_eq hy)
  by_cases hshort : x.length + 1 < y.length
  · obtain ⟨e, he⟩ := @dwdDivide_short (x.pData.take x.length) (y.pData.take y.length)
      (by rw [digits_length hx, digits_length hy]; exact hshort)
    exact Fails.bind (Fails.bind_ok (show kmalloc _ = .ok (true, _) from rfl) (Fails.lift he).bind)
  · -- one digit more than the dividend: the quotient gets a length beyond its array
    refine Fails.of_rest fun divided w _ => ?_
    refine Fails.of_lift_rest fun left _ => Fails.of_lift_rest fun y' _ => ?_
    refine Fails.of_lift_rest fun q' hq' => Fails.of_lift_rest fun r' _ => ?_
    have hsize : q'.pData.length = q.size := store_size hq'
    refine (Fails.lift (e := .outOfBounds) ?_).bind
    rw [optimizeLength, BigNum.digits, if_neg]
    · rfl
    · have hlen := h1.length_eq
      simp only [BigNum.size, hsize]
      change ¬ t1.length - 0 + 1 ≤ q.size
      omega

end DivRem

/-- What `SDRM_BN_Div` with both outputs and `SDRM_BN_ModRed` are for. -/
structure Divides (q r x y dst : BigNum) : Prop where
  divRem : ∃ q' r' w, bnDivRem q r x y ample = .ok ((q', r', y), w) ∧
    x.signed = q'.signed * y.signed + r'.signed ∧ 0 ≤ r'.signed ∧ r'.signed < y.signed
  modRed : Computes (bnModRed dst x y) (x.value % y.value : ℕ)

/-- A division of a number that is not negative by one without leading zeros is right exactly if the
divisor is positive and, unless it is at most the dividend, the quotient was zero before and the divisor
fits the working copy. -/
theorem divides_iff (q r x y dst : BigNum) (hs : x.sign = false) (hx : x.length ≤ x.size)
    (hy : y.length ≤ y.size)
    (hpos : 0 < y.length) (htop : y.pData.getD (y.length - 1) 0 ≠ 0) (hroom : DivRoom q r x y)
    (hdst : y.length ≤ dst.size) (hcopy : x.value < y.value → x.length ≤ dst.size) :
    Divides q r x y dst ↔ y.sign = false ∧
      (y.value ≤ x.value ∨ q.value = 0 ∧ y.length ≤ max q.size x.size) := by
  have hmag := mag_of_top hy htop
  have hypos := value_pos_of_top hpos htop
  have hxs := signed_of_nonneg hs
  have hmod : y.sign = false → Computes (bnModRed dst x y) (x.value % y.value : ℕ) := by
    intro hys
    refine (bnModRed_spec dst hx hmag hypos hcopy hdst).mono ?_
    rintro z ⟨hz, hsmall, hlarge⟩
    by_cases hlt : x.value < y.value
    · obtain ⟨hl, hzs, hzv⟩ := hsmall hlt
      rw [Nat.mod_eq_of_lt hlt, BigNum.signed, hzs, hs, hzv, hl, hz]
      exact ⟨hcopy hlt, rfl⟩
    · obtain ⟨hcut, hzs⟩ := hlarge (Nat.le_of_not_lt hlt)
      refine ⟨hcut.length_le_size, ?_⟩
      rw [BigNum.signed, hzs, hys, BigNum.value, hcut.value]
      rfl
  constructor
  · rintro ⟨⟨q', r', w, hrun, heq, hr0, hrlt⟩, -⟩
    have hys : y.sign = false := by
      by_contra hneg
      have hysigned : y.signed = -(y.value : ℤ) := if_pos (Bool.eq_true_of_not_eq_false hneg)
      omega
    refine ⟨hys, ?_⟩
    by_cases hle : y.value ≤ x.value
    · exact Or.inl hle
    · right
      have hlt := Nat.lt_of_not_le hle
      by_cases hfits : y.length ≤ max q.size x.size
      · refine ⟨?_, hfits⟩
        obtain ⟨o, ho, hq, -, hr, -⟩ := bnDivRem_small hx hy hlt hfits (hroom.copy hlt)
        obtain ⟨rfl, -⟩ := Prod.mk.inj (Except.ok.inj (ho.symm.trans hrun))
        simp only at hq hr
        rw [hq, hr, signed_of_nonneg hys] at heq
        have hprod : q.signed * y.value = 0 := by omega
        rw [value_eq_natAbs, (mul_eq_zero.mp hprod).resolve_right (by omega)]
        rfl
      · obtain ⟨e, he⟩ := bnDivRem_fails (r := r) hx hy (Nat.lt_of_not_le hfits)
        cases hrun.symm.trans he
  · rintro ⟨hys, hcase⟩
    refine ⟨?_, hmod hys⟩
    by_cases hle : y.value ≤ x.value
    · obtain ⟨⟨q', r', y'⟩, ho, ⟨hqs, hqv, -⟩, ⟨hrs, hrv, -⟩, hback⟩ :=
        bnDivRem_large hx hmag hypos hle hroom.quotient hroom.remainder
      subst hback
      refine ⟨q', r', ample, ho, ?_⟩
      rw [hs, hys] at hqs
      rw [hs] at hrs
      rw [signed_of_nonneg hqs, signed_of_nonneg hrs, signed_of_nonneg hys, hxs, hqv, hrv]
      have hmodlt := Nat.mod_lt x.value hypos
      refine ⟨?_, by omega, by omega⟩
      exact_mod_cast (Nat.div_add_mod' x.value y'.value).symm
    · obtain ⟨hq0, hfits⟩ := hcase.resolve_left hle
      have hlt := Nat.lt_of_not_le hle
      obtain ⟨⟨q', r', y'⟩, ho, hq, hback, hr, -⟩ := bnDivRem_small hx hy hlt hfits (hroom.copy hlt)
      simp only at hq hr hback
      subst hback
      refine ⟨q', r', ample, ho, ?_⟩
      have hqz : q.signed = 0 := by
        rw [BigNum.signed, hq0]
        simp
      rw [hr, hq, hqz, hxs, signed_of_nonneg hys]
      exact ⟨by omega, by omega, by omega⟩

/-- Three divided by five with a quotient of seven from before. -/
theorem old_quotient_left :
    ((bnDivRem ⟨false, 1, [7, 0]⟩ (bnAlloc 2) ⟨false, 1, [3]⟩ ⟨false, 1, [5]⟩ ample).toOption.map
      fun p => (p.1.1.signed, p.1.2.1.signed)) = some (7, 3) := by
  decide

theorem divides_iff_seventeen :
    Divides (bnAlloc 2) (bnAlloc 2) ⟨false, 1, [17]⟩ ⟨false, 1, [5]⟩ (bnAlloc 2) :=
  (divides_iff (bnAlloc 2) (bnAlloc 2) ⟨false, 1, [17]⟩ ⟨false, 1, [5]⟩ (bnAlloc 2) rfl (by decide)
    (by decide)
    (by decide) (by decide) ⟨by decide, by decide, fun _ => by decide⟩ (by decide) (fun _ => by decide)).mpr
    (by decide)

end VDLinux.SecureBoot
