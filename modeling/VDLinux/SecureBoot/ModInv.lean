import VDLinux.Base.Euclid
import VDLinux.SecureBoot.BigNumSpec
import VDLinux.SecureBoot.Montgomery

namespace VDLinux.SecureBoot

open Digit Base.Words Base.Outcome Base.Euclid

section Euclid

variable {d : ℕ} {g h v u : BigNum} {vg vh vv vu : ℕ}

theorem addLargerFirst_yields (dst : BigNum) (hv : Rep v d vv) (hu : Rep u d vu)
    (hvd : v.length ≤ dst.size) (hud : u.length ≤ dst.size) (hsum : vv + vu < radix ^ dst.size) :
    Yields (addLargerFirst dst v u) ample fun r => Rep r dst.size (vv + vu) := by
  apply Yields.bind_lift (bnCmp_eq hv.toMag hu.toMag)
  split_ifs
  · have hadd := bnAdd_yields dst hu hv hud hvd (by rwa [Nat.add_comm])
    rwa [Nat.add_comm] at hadd
  · exact bnAdd_yields _ hv hu hvd hud hsum

theorem mul_lengths_le (hv : Mag v d vv) (hu : Mag u d vu) (h1 : 0 < vv) (h2 : 0 < vu) {k : ℕ}
    (hb : vv * vu < radix ^ k) : v.length + u.length ≤ k + 1 := by
  have hlt : radix ^ (v.length - 1 + (u.length - 1)) < radix ^ k := by
    rw [pow_add]
    exact lt_of_le_of_lt (Nat.mul_le_mul (hv.pow_le h1) (hu.pow_le h2)) hb
  have := radix_pow_lt.mp hlt
  omega

theorem euclidStep_yields (hg : Rep g d vg) (hh : Rep h d vh) (hv : Rep v d vv) (hu : Rep u d vu)
    (hpos : 0 < vh) (hle : vh ≤ vg) (hupos : 0 < vu) (hd : 0 < d) (hb : vv + vg / vh * vu < radix ^ d) :
    Yields (euclidStep d g h v u) ample fun r =>
      Rep r.1 d (vg % vh) ∧ Rep r.2 d (vv + vg / vh * vu) := by
  have hgpos : 0 < vg := by omega
  have hlen : h.length ≤ g.length := hh.length_mono hg.toMag hle hgpos
  have hhpos := hh.length_pos hpos
  have hgl := hg.length_le
  have hypos : 0 < vg / vh := Nat.div_pos hle hpos
  apply Yields.bind_lift hg.digits_eq
  apply Yields.bind_lift hh.digits_eq
  apply Yields.bind (dwdDiv_yields hg.length_le_size hh.toMag hpos hlen)
  rintro _ ⟨rem, qs, rfl, hrl, hql, hrv, hqv⟩
  have hgv : g.value = vg := hg.value
  rw [hgv] at hrv hqv
  -- the quotient
  have hqst : qs.length ≤ (bnAlloc d).size := by
    rw [size_bnAlloc]
    omega
  have hqz := (stored_size hqst).trans (size_bnAlloc d)
  apply Yields.bind_lift (store_eq hqst)
  obtain ⟨y, hy, hycut, hys, -⟩ := optimizeLength_spec (v := vg / vh)
    (x := { bnAlloc d with length := g.length, pData := qs ++ (bnAlloc d).pData.drop qs.length })
    (hgl.trans_eq hqz.symm)
    (by
      rw [val_store_alloc, hqv]
      rw [hqv]
      exact (Nat.div_le_self vg vh).trans_lt hg.lt)
  rw [BigNum.size, hqz] at hycut
  have hyrep : Rep y d (vg / vh) := ⟨hycut.toMag, hys⟩
  apply Yields.bind_lift hy
  -- the remainder
  have hrst : rem.length ≤ (bnAlloc d).size := by
    rw [size_bnAlloc]
    omega
  apply Yields.bind_lift (store_eq hrst)
  have hhd : h.length ≤ d := hh.length_le
  apply Yields.bind (bnCopy_digits g
    { bnAlloc d with length := h.length, pData := rem ++ (bnAlloc d).pData.drop rem.length }
    (hhd.trans_eq ((stored_size hrst).trans (size_bnAlloc d)).symm) (hg.size_eq.symm ▸ hhd))
  rintro g' ⟨hg'z, hg'l, hg's, hg'd, -⟩
  obtain ⟨g'', hg'', hgcut, hg''s, -⟩ := optimizeLength_spec (x := g') (v := vg % vh) (by
      rw [hg'z, hg.size_eq, hg'l]
      exact hhd)
    (by rw [hg'd, val_stored _ _ hrl, hrv])
  rw [hg'z, hg.size_eq] at hgcut
  apply Yields.bind_lift hg''
  -- the new cofactor
  have hprod : vg / vh * vu < radix ^ d := lt_of_le_of_lt (Nat.le_add_left _ _) hb
  have hylu : y.length + u.length ≤ d + 1 := mul_lengths_le hyrep.toMag hu.toMag hypos hupos hprod
  apply Yields.bind_lift hyrep.digits_eq
  apply Yields.bind_lift hu.digits_eq
  obtain ⟨product, hp, hpl, hpv⟩ := dwdMul_spec ((bnAlloc (d + 1)).pData) (y.pData.take y.length)
    (u.pData.take u.length)
    (by
      rw [hyrep.digits_length, hu.digits_length]
      exact le_of_le_of_eq hylu (size_bnAlloc (d + 1)).symm)
  rw [hyrep.digits_length, hu.digits_length, hyrep.value, hu.value] at hpv
  have hpd : product.length = d + 1 := hpl.trans (size_bnAlloc (d + 1))
  apply Yields.bind_lift hp
  obtain ⟨t, ht, htcut, hts, htp⟩ := optimizeLength_spec (v := vg / vh * vu)
    (x := ⟨false, y.length + u.length, product⟩) (le_of_le_of_eq hylu hpd.symm) hpv
  apply Yields.bind_lift ht
  have htl : t.length ≤ d := htcut.tight d hd hprod
  have htrep : Rep { t with pData := t.pData.take d } d (vg / vh * vu) := by
    refine ⟨⟨?_, htl, ?_, htcut.tight⟩, hts⟩
    · rw [BigNum.size]
      simp only [List.length_take, htp, hpd]
      omega
    · simp only [List.take_take, Nat.min_eq_left htl]
      exact htcut.value
  have hadd := addLargerFirst_yields (bnAlloc d) hv htrep
    (by rw [size_bnAlloc]; exact hv.length_le) (by rw [size_bnAlloc]; exact htl)
    (by rw [size_bnAlloc]; exact hb)
  rw [size_bnAlloc] at hadd
  apply Yields.bind hadd
  intro sum hsum
  apply Yields.bind (bnCopy_yields hsum.toMag (by rw [hv.size_eq]; exact hsum.length_le))
  rintro v' ⟨hv', -, hv's⟩
  rw [hv.size_eq] at hv'
  exact Yields.pure ⟨⟨hgcut.toMag, hg''s.trans hg's⟩, ⟨hv', hv's.trans hsum.sign⟩⟩

end Euclid

/-- What `SDRM_BN_ModInv` leaves: the inverse of `a` if there is one, otherwise zero. -/
structure Inverted (m a d : ℕ) (r : CryptoRe × BigNum) : Prop where
  found : Nat.Coprime m a → r.1 = .success ∧ ∃ i, Rep r.2 d i ∧ i < m ∧ i * a % m = 1
  none : ¬ Nat.Coprime m a → r.1 = .inverseNotExist ∧ Rep r.2 d 0

section Inverse

variable {m a d dm : ℕ} {dest modulus : BigNum}

theorem copyZero_yields (hd : dest.size = d) (hpos : 0 < d) :
    Yields (bnCopy dest bnZero) ample fun r => Rep r d 0 := by
  refine (bnCopy_yields rep_bnZero.toMag (show bnZero.length ≤ dest.size from hd ▸ hpos)).mono ?_
  rintro r ⟨h1, -, h3⟩
  exact ⟨hd ▸ h1, h3⟩

theorem notCoprime_yields (hd : dest.size = d) (hpos : 0 < d) (hc : ¬ Nat.Coprime m a) :
    Yields (do return (CryptoRe.inverseNotExist, ← bnCopy dest bnZero)) ample (Inverted m a d) := by
  apply Yields.bind (copyZero_yields hd hpos)
  intro r hr
  exact Yields.pure ⟨fun h => absurd h hc, fun _ => ⟨rfl, hr⟩⟩

theorem coprime_yields {r : BigNum} {i : ℕ} (hr : Rep r d i) (hlt : i < m) (hi : i * a % m = 1)
    (hc : Nat.Coprime m a) :
    Yields (do return (CryptoRe.success, ← (optimizeLength r : Run BigNum))) ample (Inverted m a d) := by
  obtain ⟨z, hz, hcut, hzs, -⟩ := hr.cut
  apply Yields.bind_lift hz
  exact Yields.pure ⟨fun _ => ⟨rfl, i, ⟨hcut.toMag, hzs.trans hr.sign⟩, hlt, hi⟩, fun h => absurd hc h⟩

/-- One step and the induction over the rounds: a round keeps the cofactors, lowers `g₁`, and leaves
the loop only with a remainder of zero or one. -/
theorem modInvLoop_yields (hmod : Rep modulus dm m) (hdest : modulus.length ≤ dest.size) (hm : 1 < m)
    (hmd : m < radix ^ d) (hd : 0 < d) {n : ℕ} {g0 g1 v0 v1 : BigNum} {x0 x1 y0 y1 : ℕ}
    (hg0 : Rep g0 d x0) (hg1 : Rep g1 d x1) (hv0 : Rep v0 d y0) (hv1 : Rep v1 d y1)
    (hco : Cofactors m a x0 x1 y0 y1) (hlt : x1 < x0) (hx0 : 1 < x0) (hy1 : 0 < y1) (hn : x1 < n) :
    Yields (modInvLoop d dest modulus n g0 g1 v0 v1) ample (Inverted m a dest.size) := by
  have hml : 0 < modulus.length := hmod.length_pos (by omega)
  induction n generalizing g0 g1 v0 v1 x0 x1 y0 y1 with
  | zero => omega
  | succ n ih =>
    apply Yields.bind_lift (bnCmp_eq hg1.toMag rep_bnZero.toMag)
    by_cases h10 : x1 = 0
    · rw [if_pos (Nat.compare_eq_eq.mpr h10)]
      apply notCoprime_yields rfl (by omega)
      rw [Nat.Coprime, ← hco.gcd_eq, h10, Nat.gcd_zero_right]
      omega
    rw [if_neg (fun hc => h10 (Nat.compare_eq_eq.mp hc))]
    apply Yields.bind_lift (bnCmp_eq hg1.toMag rep_bnOne.toMag)
    by_cases h11 : x1 = 1
    · subst h11
      obtain ⟨hi1, hi2⟩ := hco.inverse₁ hm hx0
      apply Yields.bind (bnCopy_yields hv1.toMag ((hv1.tight _ hml (hi1.trans hmod.lt)).trans hdest))
      rintro r ⟨hr, -, hrs⟩
      apply coprime_yields ⟨hr, hrs.trans hv1.sign⟩ hi1 hi2
      rw [Nat.Coprime, ← hco.gcd_eq, Nat.gcd_one_right]
    rw [if_neg (fun hc => h11 (Nat.compare_eq_eq.mp hc))]
    have hx1 : 0 < x1 := by omega
    have hco0 := hco.reduce₀
    have hbound : y0 + x0 / x1 * y1 ≤ m := by
      have hd0 := hco0.det
      have := Nat.le_mul_of_pos_right (y0 + x0 / x1 * y1) hx1
      omega
    apply Yields.bind (euclidStep_yields hg0 hg1 hv0 hv1 hx1 hlt.le hy1 hd (by omega))
    rintro ⟨g0', v0'⟩ ⟨hg0', hv0'⟩
    have hylt : x0 % x1 < x1 := Nat.mod_lt _ hx1
    have hy0pos : 0 < y0 + x0 / x1 * y1 :=
      Nat.add_pos_right _ (Nat.mul_pos (Nat.div_pos hlt.le hx1) hy1)
    generalize hx0' : x0 % x1 = x0' at *
    generalize hy0' : y0 + x0 / x1 * y1 = y0' at *
    apply Yields.bind_lift (bnCmp_eq hg0'.toMag rep_bnZero.toMag)
    by_cases h00 : x0' = 0
    · rw [if_pos (Nat.compare_eq_eq.mpr h00)]
      apply notCoprime_yields rfl (by omega)
      rw [Nat.Coprime, ← hco0.gcd_eq, h00, Nat.gcd_zero_left]
      omega
    rw [if_neg (fun hc => h00 (Nat.compare_eq_eq.mp hc))]
    apply Yields.bind_lift (bnCmp_eq hg0'.toMag rep_bnOne.toMag)
    by_cases h01 : x0' = 1
    · subst h01
      obtain ⟨hi1, hi2, hi3⟩ := hco0.inverse₀ hm hx1
      apply Yields.bind (bnSub_yields _ hmod hv0' hbound
        (hv0'.length_mono hmod.toMag hbound (by omega)) hdest)
      rintro r ⟨hr, -⟩
      apply coprime_yields hr hi2 hi3
      rw [Nat.Coprime, ← hco0.gcd_eq, Nat.gcd_one_left]
    rw [if_neg (fun hc => h01 (Nat.compare_eq_eq.mp hc))]
    have hx0pos : 0 < x0' := by omega
    have hco1 := hco0.reduce₁
    have hbound1 : y1 + x1 / x0' * y0' ≤ m := by
      have hd1 := hco1.det
      have := Nat.le_mul_of_pos_right (y1 + x1 / x0' * y0') hx0pos
      omega
    apply Yields.bind (euclidStep_yields hg1 hg0' hv1 hv0' hx0pos hylt.le hy0pos hd (by omega))
    rintro ⟨g1', v1'⟩ ⟨hg1', hv1'⟩
    have hmlt1 : x1 % x0' < x0' := Nat.mod_lt _ hx0pos
    exact ih hg0' hg1' hv0' hv1' hco1 hmlt1 (by omega) (Nat.add_pos_left hy1 _) (by omega)

theorem bnModInv_start {src : BigNum} {sd : ℕ} {P : CryptoRe × BigNum → Prop} (hsrc : Rep src sd a)
    (hmod : Rep modulus dm m) (hm : 0 < m) (hd : max src.size modulus.size = d)
    (hloop : ∀ g0 g1 v0 v1, Rep g0 d m → Rep g1 d (a % m) → Rep v0 d 0 → Rep v1 d 1 →
      Yields (modInvLoop d (bnClr dest) modulus (val modulus.pData + 1) g0 g1 v0 v1) ample P) :
    Yields (bnModInv dest src modulus) ample P := by
  have hml := hmod.length_pos hm
  have hmd := hmod.length_le
  have hsd := hsrc.length_le
  rw [hsrc.size_eq, hmod.size_eq] at hd
  have hone : (bnAlloc d).size = d := size_bnAlloc d
  apply kmalloc_yields
  simp only [hsrc.sign, hsrc.size_eq, hmod.size_eq, hd]
  apply Yields.bind (bnCopy_yields hmod.toMag (by omega))
  rintro g0 ⟨hg0, -, hs0⟩
  apply Yields.bind (bnModRed_yields (bnAlloc d) hsrc hmod hm (fun _ => by omega) (by omega))
  rintro g1 ⟨hg1, -⟩
  apply Yields.bind (copyZero_yields hone (by omega))
  intro v0 hv0
  apply Yields.bind (bnCopy_yields rep_bnOne.toMag (show 1 ≤ (bnAlloc d).size by omega))
  rintro v1 ⟨hv1, -, hs1⟩
  rw [hone] at hg0 hg1 hv1
  exact hloop g0 g1 v0 v1 ⟨hg0, hs0.trans hmod.sign⟩ hg1 hv0 ⟨hv1, hs1.trans rep_bnOne.sign⟩

theorem bnModInv_yields {src : BigNum} {sd : ℕ} (hsrc : Rep src sd a) (hmod : Rep modulus dm m)
    (hdest : modulus.length ≤ dest.size) (hm : 1 < m) :
    Yields (bnModInv dest src modulus) ample (Inverted m a dest.size) := by
  have hml : 0 < modulus.length := hmod.length_pos (by omega)
  have hmd := hmod.length_le
  rw [← hmod.size_eq] at hmd
  have hval : m ≤ val modulus.pData := by
    rw [← hmod.value, val_take]
    exact Nat.mod_le _ _
  have hmodlt := Nat.mod_lt a (show 0 < m by omega)
  have hclr : (bnClr dest).size = dest.size := size_bnAlloc _
  refine bnModInv_start hsrc hmod (by omega) rfl fun g0 g1 v0 v1 hg0 hg1 hv0 hv1 => ?_
  rw [← hclr]
  exact modInvLoop_yields hmod (hclr.symm ▸ hdest) hm (hmod.lt.trans_le (radix_pow_mono (by omega)))
    (by omega) hg0 hg1 hv0 hv1 (Cofactors.init m a) hmodlt hm Nat.one_pos (by omega)

/-- The inverse for numbers without leading zeros and a destination that the modulus fits. -/
theorem bnModInv_inverse {src : BigNum} {sd : ℕ} (hsrc : Rep src sd a) (hmod : Rep modulus dm m)
    (hm : 2 ≤ m) (hdest : modulus.length ≤ dest.size) :
    Yields (bnModInv dest src modulus) ample fun r =>
      (Nat.gcd a m = 1 → r.1 = .success ∧ ∃ i : ℕ, r.2.signed = i ∧ 0 < i ∧ i < m ∧ i * a % m = 1) ∧
      (Nat.gcd a m ≠ 1 → r.1 = .inverseNotExist) := by
  refine (bnModInv_yields hsrc hmod hdest hm).mono fun r hr => ⟨fun hgcd => ?_, fun hgcd => ?_⟩
  · obtain ⟨hre, i, hi, hlt, hinv⟩ := hr.found (Nat.Coprime.symm hgcd)
    refine ⟨hre, i, hi.signed_eq, Nat.pos_of_ne_zero fun h0 => ?_, hlt, hinv⟩
    rw [h0, Nat.zero_mul, Nat.zero_mod] at hinv
    omega
  · exact (hr.none fun hc => hgcd (Nat.Coprime.symm hc)).1

theorem bnModInv_inverse_seven : Yields (bnModInv (bnAlloc 1) ⟨false, 1, [3]⟩ ⟨false, 1, [7]⟩) ample
    fun r =>
    r.1 = .success ∧ ∃ i : ℕ, r.2.signed = i ∧ 0 < i ∧ i < 7 ∧ i * 3 % 7 = 1 := by
  have h3 : Rep ⟨false, 1, [3]⟩ 1 3 := rep_of_top rfl (by decide) (by decide)
  have h7 : Rep ⟨false, 1, [7]⟩ 1 7 := rep_of_top rfl (by decide) (by decide)
  exact (bnModInv_inverse h3 h7 (by decide) (by decide)).mono fun r hr => hr.1 (by decide)

theorem bnModInv_one {src : BigNum} (hsrc : Rep src d a) (hmod : Rep modulus d 1)
    (hdest : dest.size = d) (hd : 1 < d) :
    Yields (bnModInv dest src modulus) ample fun r => r.1 = .inverseNotExist ∧ Rep r.2 d 0 := by
  have hmax : max src.size modulus.size = d := by
    rw [hsrc.size_eq, hmod.size_eq, Nat.max_self]
  refine bnModInv_start hsrc hmod Nat.one_pos hmax fun g0 g1 v0 v1 hg0 hg1 hv0 hv1 => ?_
  rw [Nat.mod_one] at hg1
  apply Yields.bind_lift (bnCmp_eq hg1.toMag rep_bnZero.toMag)
  apply Yields.bind (copyZero_yields (by rw [bnClr, size_bnAlloc, hdest]) (by omega))
  intro r hr
  exact Yields.pure ⟨rfl, hr⟩

end Inverse

end VDLinux.SecureBoot
