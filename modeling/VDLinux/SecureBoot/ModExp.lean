import VDLinux.SecureBoot.Redc

namespace VDLinux.SecureBoot

open Digit Base.Words Base.Outcome Base.Montgomery Nat

/-- Every reduction of the exponentiation, with `k` for `N0`, keeps its digits. -/
def ReductionsKeep (n k len g e : ℕ) : Prop :=
  let r := radix ^ (2 * len) % n
  g = 0 ∨ Keeps radix n k len (g * r) ∧ Keeps radix n k len (1 * r) ∧
    LadderKeeps radix n k len (redc radix n k len (g * r)) e (Nat.size e)
      (redc radix n k len (1 * r))

instance (n k len g e : ℕ) : Decidable (ReductionsKeep n k len g e) :=
  inferInstanceAs (Decidable (_ ∨ _))

theorem reductionsKeep_of_le_two {n k len g e : ℕ} (hn : n < radix ^ len) (hl : len ≤ 2) :
    ReductionsKeep n k len g e := by
  have hall : ∀ x, Keeps radix n k len x := fun x => keeps_of_le_two one_lt_radix hn hl
  exact Or.inr ⟨hall _, hall _, ladderKeeps_of_forall hall _ _⟩

/-- What the exponentiation computes as long as its reductions keep their digits. -/
def modExpValue (n k len g e : ℕ) : ℕ :=
  let r := radix ^ (2 * len) % n
  if g = 0 then 0
  else redc radix n k len (ladder radix n k len (redc radix n k len (g * r)) e (Nat.size e)
    (redc radix n k len (1 * r)))

theorem modExpValue_eq {n k len g e : ℕ} (hlt : n < radix ^ len) (hn : 1 < n)
    (hk : (k * n + 1) % radix = 0) (hg : g < n) (he : 1 ≤ e) :
    modExpValue n k len g e = g ^ e % n := by
  rw [modExpValue]
  split_ifs with h0
  · rw [h0, zero_pow (by omega), zero_mod]
  · rw [redc_square radix_pos hlt hk hg, redc_square radix_pos hlt hk hn]
    exact redc_ladder radix_pos (by omega) hlt hk (lt_size_self e)

theorem checkBit_eq {x : BigNum} {size v i : ℕ} (hx : Mag x size v) (hi : i < Nat.size v) :
    checkBit x i = .ok (v.testBit i) := by
  have hbits : Nat.size v ≤ x.length * 32 := size_le.mpr (hx.lt.trans_eq (radix_pow_eq x.length))
  have hin : i / 32 < x.length := by omega
  have hsize : x.pData.length = size := hx.size_eq
  have hlen := hx.length_le
  have hdigit : (x.pData.getD (i / 32) 0).toNat = v / 2 ^ (i / 32 * 32) % 2 ^ 32 := by
    rw [← getD_take hin, val_getD, hx.value, radix_pow_eq]
    rfl
  have hshift : ((i % 32).toUInt32).toNat = i % 32 := by
    rw [Nat.toUInt32, UInt32.toNat_ofNat']
    omega
  have hbit : (x.pData.getD (i / 32) 0).toNat.testBit (i % 32) = v.testBit i := by
    rw [hdigit, testBit_mod_two_pow, testBit_div_two_pow, mod_add_div']
    simp [mod_lt]
  have hand : (x.pData.getD (i / 32) 0 >>> (i % 32).toUInt32 &&& 1).toNat =
      (x.pData.getD (i / 32) 0).toNat / 2 ^ (i % 32) % 2 := by
    rw [UInt32.toNat_and, UInt32.toNat_shiftRight, hshift, mod_mod, shiftRight_eq_div_pow]
    exact and_one_is_mod _
  rw [checkBit, digitAt_eq (by omega), ok_bind, ← hbit, testBit_eq_decide_div_mod_eq, ← hand]
  exact congrArg Except.ok (decide_eq_decide.mpr UInt32.toNat_inj.symm)

section Exponentiation

variable {a c exponent : BigNum} {mont : BigMont} {d n len e va vc : ℕ}

variable (hp : Parameters mont d n len)
include hp

theorem montMul_inPlace_yields (hd : 2 * len + 1 ≤ d)
    (hc : Reduced c d vc) (ha : Rep a d va) (hvc : vc < n) (hva : va < n)
    (hk : Keeps radix n mont.n0.toNat len (vc * va)) :
    Yields (montMul true c c a mont) ample fun r =>
      Reduced r d (redc radix n mont.n0.toNat len (vc * va)) := by
  have hlt : n < radix ^ len := hp.mod_length ▸ hp.mod.lt
  have hlen : 0 < len := hp.mod_length ▸ hp.mod.length_pos (zero_lt_of_lt hvc)
  have hcl := hc.tight len hlen (hvc.trans hlt)
  have hal := ha.tight len hlen (hva.trans hlt)
  have hcs := hc.size_eq
  have hprod : vc * va < n * radix ^ len := Nat.mul_lt_mul'' hvc (hva.trans hlt)
  have hfit : vc * va < radix ^ c.size := by
    have h1 : n * radix ^ len ≤ radix ^ (len + len) := by
      rw [pow_add]
      exact Nat.mul_le_mul_right _ hlt.le
    exact hprod.trans_le (h1.trans (radix_pow_mono (by omega)))
  apply Yields.bind (bnMul_inPlace_yields hc.toRep ha hc.sign (by omega) (by omega) hfit)
  rintro p ⟨hp1, hp2⟩
  rw [hcs] at hp1
  have hps := hp1.size_eq
  have hred := montRzn2zn_yields p hp ⟨hp1, hp2⟩ hprod hk hp1.sign (by omega) (by omega)
  rwa [hps] at hred

theorem montZn2rzn_yields {src : BigNum} {size v : ℕ}
    (hd : 2 * len + 1 ≤ d) (hsrc : Rep src size v) (hv : v < n)
    (hk : Keeps radix n mont.n0.toNat len (v * (radix ^ (2 * len) % n))) :
    Yields (montZn2rzn (bnAlloc d) src mont) ample fun r =>
      Reduced r d (redc radix n mont.n0.toNat len (v * (radix ^ (2 * len) % n))) := by
  have hlt : n < radix ^ len := hp.mod_length ▸ hp.mod.lt
  have hn : 0 < n := zero_lt_of_lt hv
  have hlen : 0 < len := hp.mod_length ▸ hp.mod.length_pos hn
  have hr := mod_lt (radix ^ (2 * len)) hn
  have hsl := hsrc.tight len hlen (hv.trans hlt)
  have hrl := hp.r.tight len hlen (hr.trans hlt)
  apply Yields.bind (bnMul_yields hsrc hp.r (by rw [size_bnAlloc]; omega))
  rintro p ⟨hp1, hp2⟩
  rw [size_bnAlloc] at hp1
  have hps := hp1.size_eq
  have hred := montRzn2zn_yields p hp ⟨hp1, hp2⟩ (Nat.mul_lt_mul'' hv (hr.trans hlt)) hk
    hp1.sign (by omega) (by omega)
  rwa [hps] at hred

theorem modExpLoop_yields {size i : ℕ} (hd : 2 * len + 1 ≤ d)
    (he : Mag exponent size e) (ha : Rep a d va) (hva : va < n) (hi : i ≤ Nat.size e)
    (hc : Reduced c d vc) (hvc : vc < n)
    (hk : LadderKeeps radix n mont.n0.toNat len va e i vc) :
    Yields (modExpLoop a exponent mont i c) ample fun r =>
      Reduced r d (ladder radix n mont.n0.toNat len va e i vc) := by
  have hlt : n < radix ^ len := hp.mod_length ▸ hp.mod.lt
  induction i generalizing c vc with
  | zero => exact Yields.pure hc
  | succ i ih =>
    obtain ⟨hsq, hmul, hrest⟩ := hk
    have hs : redc radix n mont.n0.toNat len (vc * vc) < n :=
      redc_lt radix_pos (Nat.mul_lt_mul'' hvc (hvc.trans hlt))
    apply Yields.bind (montMul_inPlace_yields hp hd hc hc.toRep hvc hvc hsq)
    intro s hs1
    apply Yields.bind_lift (checkBit_eq he (by omega))
    rw [ladder]
    cases hbit : e.testBit i with
    | false =>
      simp only [hbit, Bool.false_eq_true, if_false] at hrest ⊢
      exact ih (by omega) hs1 hs hrest
    | true =>
      simp only [hbit, if_true] at hrest ⊢
      apply Yields.bind (montMul_inPlace_yields hp hd hs1 ha hs hva (hmul hbit))
      intro t ht
      exact ih (by omega) ht (redc_lt radix_pos (Nat.mul_lt_mul'' hs (hva.trans hlt))) hrest

omit hp

theorem reduceBase_yields {base modulus : BigNum} {sb sn b : ℕ} (hb : Rep base sb b)
    (hn : Rep modulus sn n) (hpos : 0 < n) (hd : modulus.length ≤ d) :
    Yields (reduceBase d base modulus) ample fun r => ∃ s, Rep r s (b % n) := by
  apply Yields.bind_lift (bnCmp_eq hb.toMag hn.toMag)
  by_cases hlt : b < n
  · rw [if_pos (Nat.compare_eq_lt.mpr hlt)]
    exact Yields.pure ⟨sb, (mod_eq_of_lt hlt).symm ▸ hb⟩
  · rw [if_neg (fun h => hlt (Nat.compare_eq_lt.mp h))]
    have hred := bnModRed_yields (bnAlloc d) hb hn hpos (fun h => absurd h hlt)
      (by rw [size_bnAlloc]; exact hd)
    exact hred.mono fun r hr => ⟨_, hr.1⟩

theorem bnModExp_yields (dst : BigNum) {base modulus : BigNum} {sb se sn b : ℕ} (hn : Rep modulus sn n)
    (hb : Rep base sb b) (he : Mag exponent se e) (hdst : dst.sign = false)
    (hroom : modulus.length + 1 ≤ dst.size) (hsn : 2 * modulus.length + 1 ≤ sn) (hpos : 0 < n)
    (hset : montSet (freshMont (max base.size (max exponent.size modulus.size))) modulus ample =
      .ok (mont, ample))
    (hp : Parameters mont (max base.size (max exponent.size modulus.size)) n modulus.length)
    (hk : ReductionsKeep n mont.n0.toNat modulus.length (b % n) e) :
    Yields (bnModExp dst base exponent modulus) ample fun r =>
      r.1 = .success ∧ Rep r.2 dst.size (modExpValue n mont.n0.toNat modulus.length (b % n) e) := by
  have hlt : n < radix ^ modulus.length := hn.lt
  have hd : 2 * modulus.length + 1 ≤ max base.size (max exponent.size modulus.size) := by
    have := hn.size_eq
    omega
  apply kmalloc_yields
  generalize max base.size (max exponent.size modulus.size) = d at *
  have hinit : Yields (montInit d) ample (· = some (freshMont d)) := ⟨_, rfl, rfl⟩
  apply Yields.bind hinit
  rintro _ rfl
  have hmont : Yields (montSet (freshMont d) modulus) ample (· = mont) := ⟨_, hset, rfl⟩
  apply Yields.bind hmont
  intro m hm
  rw [hm]
  apply Yields.bind (reduceBase_yields hb hn hpos (by omega))
  rintro temp ⟨s, htemp⟩
  apply Yields.bind_lift (bnCmp_eq htemp.toMag rep_bnZero.toMag)
  rw [modExpValue]
  by_cases h0 : b % n = 0
  · rw [if_pos (Nat.compare_eq_eq.mpr h0), if_pos h0]
    apply Yields.bind (bnCopy_yields rep_bnZero.toMag (show bnZero.length ≤ dst.size by
      change 1 ≤ dst.size
      omega))
    rintro r ⟨hr, -, hrs⟩
    exact Yields.pure ⟨rfl, hr, hrs⟩
  rw [if_neg (fun h => h0 (Nat.compare_eq_eq.mp h)), if_neg h0]
  obtain h | ⟨hk1, hk2, hk3⟩ := hk
  · exact absurd h h0
  have hg : b % n < n := mod_lt _ hpos
  have h1 : 1 < n := by omega
  have hr := mod_lt (radix ^ (2 * modulus.length)) hpos
  have hconv : ∀ {v : ℕ}, v < n →
      redc radix n mont.n0.toNat modulus.length (v * (radix ^ (2 * modulus.length) % n)) < n :=
    fun hv => redc_lt radix_pos (Nat.mul_lt_mul'' hv (hr.trans hlt))
  apply Yields.bind (montZn2rzn_yields hp hd htemp hg hk1)
  intro a ha
  apply Yields.bind (montZn2rzn_yields hp hd rep_bnOne h1 hk2)
  intro c hc
  apply Yields.bind_lift (bnNumBits_eq he)
  apply Yields.bind (modExpLoop_yields hp hd he ha.toRep (hconv hg) le_rfl hc (hconv h1) hk3)
  intro r hr'
  have hfin := ladder_lt (k := mont.n0.toNat) (e := e) (i := Nat.size e) radix_pos hlt (hconv hg)
    (hconv h1)
  have hbound := hfin.trans_le (Nat.le_mul_of_pos_right n (radix_pow_pos modulus.length))
  apply Yields.bind (montRzn2zn_yields dst hp hr' hbound hk3.keeps hdst hroom (by omega))
  intro out hout
  exact Yields.pure ⟨rfl, hout.toRep⟩

end Exponentiation

end VDLinux.SecureBoot
