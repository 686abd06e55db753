import VDLinux.SecureBoot.ModInv

namespace VDLinux.SecureBoot

open Digit Base.Words Base.Outcome Nat

theorem size_half {n : ℕ} (h : n ≠ 0) : Nat.size n = Nat.size (n / 2) + 1 := by
  rw [← bit_bodd_div2 n] at h
  rw [← div2_val, ← succ_eq_add_one, ← size_bit h, bit_bodd_div2]

theorem uint32NumBits_eq {n : ℕ} {t : UInt32} (h : t.toNat < 2 ^ n) :
    uint32NumBits n t = Nat.size t.toNat := by
  induction n generalizing t with
  | zero =>
    have hz : t.toNat = 0 := by simpa using h
    rw [hz]
    rfl
  | succ n ih =>
    rw [uint32NumBits]
    by_cases h0 : t = 0
    · rw [if_pos h0, h0]
      rfl
    · have hshift : (t >>> 1).toNat = t.toNat / 2 := by
        rfl
      rw [if_neg h0, ih (by rw [pow_succ] at h; omega), hshift]
      exact (size_half (toNat_pos h0).ne').symm

theorem radix_pow_eq (k : ℕ) : radix ^ k = 2 ^ (k * 32) := by
  rw [Nat.mul_comm, pow_mul]
  rfl

theorem size_of_top {t m v : ℕ} (ht : t ≠ 0) (hle : t * 2 ^ m ≤ v) (hlt : v < (t + 1) * 2 ^ m) :
    Nat.size v = m + Nat.size t := by
  have hpos : 0 < Nat.size t := Nat.size_pos.mpr (Nat.pos_of_ne_zero ht)
  apply Nat.le_antisymm
  · apply size_le.mpr
    rw [Nat.add_comm, pow_add]
    exact hlt.trans_le (Nat.mul_le_mul_right _ (lt_size_self t))
  · have hlow : 2 ^ (Nat.size t - 1) ≤ t := lt_size.mp (by omega)
    have h : m + (Nat.size t - 1) < Nat.size v := by
      apply lt_size.mpr
      rw [Nat.add_comm, pow_add]
      exact (Nat.mul_le_mul_right _ hlow).trans hle
    omega

theorem bnNumBits_eq {x : BigNum} {size v : ℕ} (hx : Mag x size v) :
    bnNumBits x = .ok (Nat.size v) := by
  by_cases h0 : x.length = 0
  · rw [bnNumBits, if_pos h0, hx.eq_zero h0, size_zero]
  have hlen := hx.digits_length
  have hne : x.pData.take x.length ≠ [] := List.length_pos_iff.mp (by omega)
  have hin : x.length - 1 < x.pData.length := by
    have h1 := hx.size_eq
    have h2 := hx.length_le
    rw [BigNum.size] at h1
    omega
  have htop : x.pData.getD (x.length - 1) 0 = (x.pData.take x.length).getD (x.length - 1) 0 :=
    (getD_take (by omega)).symm
  have hrun : bnNumBits x =
      .ok ((x.length - 1) * 32 + Nat.size (x.pData.getD (x.length - 1) 0).toNat) := by
    rw [bnNumBits, if_neg h0, digitAt_eq hin, ok_bind,
      uint32NumBits_eq (x.pData.getD (x.length - 1) 0).toNat_lt]
    rfl
  obtain ⟨hq, ha, hb⟩ := top_digit_bounds hne
  rw [hlen, hx.value, ← htop, radix_pow_eq] at ha hb hq
  rw [hrun]
  rcases Nat.eq_zero_or_pos v with hv | hv
  · -- zero has at most one digit
    have h1 := hx.tight 1 Nat.one_pos (by rw [hv]; exact radix_pow_pos 1)
    have hl : x.length - 1 = 0 := by omega
    rw [hl, hv, Nat.zero_div] at hq
    rw [hl, hv, hq, Nat.zero_mul, Nat.zero_add]
  · have hne0 : (x.pData.getD (x.length - 1) 0).toNat ≠ 0 := by
      rw [htop]
      exact (toNat_pos (hx.top_ne_zero hv)).ne'
    rw [size_of_top hne0 ha hb]

section Constants

variable {modulus : BigNum} {d n : ℕ}

theorem bnShl_zero_yields {x : BigNum} (hx : Rep x d 0) (hd : 1 < d) :
    Yields (bnShl true x x 32) ample fun r => Rep r d 0 := by
  by_cases h0 : x.length = 0
  · rw [bnShl, if_pos h0]
    exact copyZero_yields hx.size_eq (by omega)
  · have h1 := hx.tight 1 Nat.one_pos (radix_pow_pos 1)
    refine (bnShl_word_inPlace_yields hx (by omega) (by omega)).mono ?_
    rintro r ⟨hr, -⟩
    rwa [Nat.zero_mul] at hr

theorem coprime_radix {k : ℕ} : Nat.Coprime k radix ↔ k % 2 = 1 := by
  rw [show radix = 2 ^ 32 from rfl, coprime_pow_right_iff (by decide), coprime_comm,
    coprime_two_left, odd_iff]

/-- The constant the division leaves: minus the inverse of the modulus if its lowest digit has an
inverse and is not one, otherwise one. -/
structure IsN0 (n k : ℕ) : Prop where
  odd : k % 2 = 1
  lt : k < radix
  inverse : n % radix ≠ 1 → n % 2 = 1 → (k * n + 1) % radix = 0
  one : n % radix = 1 ∨ n % 2 = 0 → k = 1

theorem IsN0.of_one (h : n % radix = 1 ∨ n % 2 = 0) : IsN0 n 1 where
  odd := rfl
  lt := by decide
  inverse := fun h1 h2 => by
    rcases h with h | h
    · exact absurd h h1
    · omega
  one := fun _ => rfl

theorem IsN0.of_inverse {i : ℕ} (hlow : 1 < n % radix) (hi : i < n % radix)
    (hinv : i * radix % (n % radix) = 1) : IsN0 n ((i * radix - 1) / (n % radix)) := by
  generalize hlv : n % radix = low at *
  have hdm := div_add_mod (i * radix) low
  rw [hinv] at hdm
  have hk : (i * radix - 1) / low = i * radix / low := by
    rw [← hdm, Nat.add_sub_cancel, Nat.mul_div_cancel_left _ (by omega),
      mul_add_div (by omega), div_eq_of_lt hlow, Nat.add_zero]
  rw [hk]
  generalize i * radix / low = k at hdm
  have hmod : (k * n + 1) % radix = 0 := by
    have hn : k * n ≡ k * low [MOD radix] := by
      rw [← hlv]
      exact (mod_modEq n radix).symm.mul_left k
    have h1 : (k * n + 1) % radix = (k * low + 1) % radix := hn.add_right 1
    rw [h1, Nat.mul_comm k low, hdm, mul_mod_left]
  have heven : (k * n + 1) % 2 = 0 := by
    have hd : 2 ∣ k * n + 1 := (by decide : 2 ∣ radix).trans (dvd_of_mod_eq_zero hmod)
    exact mod_eq_zero_of_dvd hd
  refine ⟨?_, ?_, fun _ _ => hmod, ?_⟩
  · rcases mod_two_eq_zero_or_one k with h | h
    · have := mul_mod k n 2
      rw [h, Nat.zero_mul, zero_mod] at this
      omega
    · exact h
  · have h1 : low * k < low * radix := by
      have h2 : i * radix < low * radix := Nat.mul_lt_mul_of_pos_right hi radix_pos
      omega
    exact Nat.lt_of_mul_lt_mul_left h1
  · rintro (h | h)
    · omega
    · have := mul_mod k n 2
      rw [h, Nat.mul_zero, zero_mod] at this
      omega

theorem rep_lowDigit (low : UInt32) (hd : 0 < d) :
    (bnAlloc d).store [low] = .ok { bnAlloc d with pData := [low] ++ (bnAlloc d).pData.drop 1 } ∧
      Rep ⟨false, 1, [low] ++ (bnAlloc d).pData.drop 1⟩ d low.toNat := by
  have hst : ([low] : List UInt32).length ≤ (bnAlloc d).size := by
    rw [size_bnAlloc]
    exact hd
  refine ⟨store_eq hst, ⟨?_, hd, ?_, fun m hm _ => hm⟩, rfl⟩
  · exact (stored_size hst).trans (size_bnAlloc d)
  · exact (val_stored [low] _ rfl).trans (val_singleton low)

theorem montN0_yields (hn : Rep modulus d n) (hd : 2 < d) (hlow : 0 < n % radix) :
    Yields (montN0 d modulus) ample fun r => ∃ k, Mag r d k ∧ IsN0 n k := by
  have hlen := hn.length_pos (hlow.trans_le (mod_le _ _))
  have hone : bnOne.length = 1 := rfl
  have hshl := bnShl_words_yields (bnAlloc d) rep_bnOne (by decide) (t := 1) Nat.one_pos
    (by rw [size_bnAlloc, hone]; omega)
  rw [size_bnAlloc, Nat.one_mul, pow_one, Nat.mul_one] at hshl
  apply Yields.bind hshl
  rintro r ⟨hr, -⟩
  obtain ⟨hlow1, hlow2⟩ := hn.toMag.low_digit hlen
  apply Yields.bind_lift hlow1
  obtain ⟨ht1, ht2⟩ := rep_lowDigit (d := d) (modulus.pData.getD 0 0) (by omega)
  rw [hlow2] at ht2
  apply Yields.bind_lift ht1
  simp only [hn.sign]
  generalize (⟨false, 1, [modulus.pData.getD 0 0] ++ (bnAlloc d).pData.drop 1⟩ : BigNum) = temp at ht2 ⊢
  have htl : temp.length ≤ 1 := ht2.tight 1 Nat.one_pos (by
    exact mod_lt n radix_pos)
  -- without an inverse zero goes through the shift, and the subtraction leaves minus one
  have hfail : ∀ x, Rep x d 0 → (n % radix = 1 ∨ n % 2 = 0) → Yields (do
      let ri ← bnShl true x x 32
      let ri ← bnSub ri ri bnOne
      bnDiv ri ri temp) ample fun r => ∃ k, Mag r d k ∧ IsN0 n k := by
    intro x hx hcase
    apply Yields.bind (bnShl_zero_yields hx (by omega))
    intro y hy
    have hyl := hy.tight 1 Nat.one_pos (radix_pow_pos 1)
    apply Yields.bind (bnSub_neg_yields y hy rep_bnOne Nat.one_pos hyl
      (by rw [hy.size_eq, hone]; omega))
    intro z hz
    rw [hy.size_eq] at hz
    have hzl := hz.tight 1 Nat.one_pos (by exact one_lt_radix)
    have hzs : z.size = d := hz.size_eq
    refine (bnDiv_yields z hz ht2.toMag hlow (by omega) (by omega)).mono fun r hr => ?_
    obtain hlt | heq := Nat.lt_or_eq_of_le hlow
    · exact ⟨1, hr.1 hlt ▸ hz, IsN0.of_one hcase⟩
    · have hdiv := hr.2 heq.ge
      rw [hzs, ← heq] at hdiv
      exact ⟨1, hdiv, IsN0.of_one hcase⟩
  by_cases hlow1' : n % radix = 1
  · rw [hlow1'] at ht2
    apply Yields.bind (bnModInv_one hr ht2 (size_bnAlloc d) (by omega))
    rintro ⟨c, x⟩ ⟨-, hx⟩
    exact hfail x hx (Or.inl hlow1')
  have hdest : temp.length ≤ (bnAlloc d).size := by
    rw [size_bnAlloc]
    omega
  apply Yields.bind (bnModInv_yields hr ht2 hdest (by omega))
  rintro ⟨c, x⟩ hinv
  rw [size_bnAlloc] at hinv
  have hpar : n % radix % 2 = n % 2 := mod_mod_of_dvd n (by decide)
  by_cases hodd : n % 2 = 1
  · obtain ⟨-, i, hx, hi1, hi2⟩ := hinv.found (coprime_radix.mpr (hpar.trans hodd))
    have hn0 := IsN0.of_inverse (by omega) hi1 hi2
    have hipos : 0 < i := by
      apply Nat.pos_of_ne_zero
      rintro rfl
      simp at hi2
    have hilt : i < radix ^ 1 := by
      exact hi1.trans (mod_lt n radix_pos)
    have hxl := hx.tight 1 Nat.one_pos hilt
    apply Yields.bind (bnShl_word_inPlace_yields hx (hx.length_pos hipos) (by omega))
    rintro y ⟨hy, -⟩
    have hbig : radix ≤ i * radix := Nat.le_mul_of_pos_left radix hipos
    have hylen := hy.length_pos (Nat.lt_of_lt_of_le radix_pos hbig)
    apply Yields.bind (bnSub_yields y hy rep_bnOne (radix_pos.trans_le hbig) hylen
      (by rw [hy.size_eq]; exact hy.length_le))
    rintro z ⟨hz, -⟩
    rw [hy.size_eq] at hz
    have hzs := hz.size_eq
    have hzl := hz.length_le
    have hlowlt := mod_lt n radix_pos
    have htpos := ht2.length_pos hlow
    have hdiv := bnDiv_yields z hz.toMag ht2.toMag hlow (by omega) (by omega)
    rw [hzs] at hdiv
    exact hdiv.mono fun r hr => ⟨_, hr.2 (by omega), hn0⟩
  · obtain ⟨-, hx⟩ := hinv.none fun hc => hodd (hpar ▸ coprime_radix.mp hc)
    exact hfail x hx (Or.inr (by omega))

structure Parameters (mont : BigMont) (d n len : ℕ) : Prop where
  mod : Rep mont.mod d n
  mod_length : mont.mod.length = len
  ri : mont.ri = 32 * len
  r : Rep mont.r d (radix ^ (2 * len) % n)
  r_zero : radix ^ (2 * len) % n = 0 → mont.r.length = 0
  n0 : IsN0 n mont.n0.toNat

def freshMont (d : ℕ) : BigMont := ⟨0, bnAlloc d, bnAlloc d, bnAlloc d, 0⟩

theorem montSet_yields {size : ℕ} (hn : Rep modulus size n) (hlow : 0 < n % radix)
    (hsize : 2 * modulus.length + 1 ≤ size) (hd : size ≤ d) :
    Yields (montSet (freshMont d) modulus) ample fun m => Parameters m d n modulus.length := by
  have hpos : 0 < n := hlow.trans_le (mod_le _ _)
  have hlen := hn.length_pos hpos
  have hfresh : Mag (freshMont d).mod d 0 :=
    ⟨size_bnAlloc d, Nat.zero_le _, rfl, fun m _ _ => Nat.zero_le m⟩
  have hfs : (freshMont d).mod.size = d := size_bnAlloc d
  have hfi : (freshMont d).invMod.size = d := size_bnAlloc d
  apply Yields.bind_lift (bnCmp_eq hfresh hn.toMag)
  rw [if_neg (fun hc => hpos.ne (Nat.compare_eq_eq.mp hc))]
  apply kmalloc_yields
  apply Yields.bind (bnCopy_yields hn.toMag (by omega))
  rintro mod ⟨hm, hml, hms⟩
  rw [hfs] at hm
  have hmod : Rep mod d n := ⟨hm, hms.trans hn.sign⟩
  have hri : (Nat.size n + 31) / 32 * 32 = 32 * modulus.length := by
    have h1 : Nat.size n ≤ modulus.length * 32 :=
      size_le.mpr (hn.lt.trans_eq (radix_pow_eq modulus.length))
    have h2 : (modulus.length - 1) * 32 < Nat.size n :=
      lt_size.mpr (le_of_eq_of_le (radix_pow_eq _).symm (hn.pow_le hpos))
    omega
  apply Yields.bind_lift (bnNumBits_eq hn.toMag)
  rw [hn.size_eq]
  apply Yields.bind (montN0_yields hn (by omega) hlow)
  rintro inv ⟨k, hk, hk0⟩
  have hkpos : 0 < k := by
    have := hk0.odd
    omega
  have hkl := hk.tight 1 Nat.one_pos (by exact hk0.lt)
  apply Yields.bind (bnCopy_yields hk (by omega))
  rintro invMod -
  obtain ⟨hd1, hd2⟩ := hk.low_digit (hk.length_pos hkpos)
  rw [mod_eq_of_lt hk0.lt] at hd2
  apply Yields.bind_lift hd1
  rw [hri]
  have hshift : 2 * (32 * modulus.length) = 32 * (2 * modulus.length) := by ring
  have hfr : (freshMont d).r.size = d := size_bnAlloc d
  have hone : bnOne.length = 1 := rfl
  have hshl := bnShl_words_yields ((freshMont d).r) rep_bnOne (by decide)
    (t := 2 * modulus.length) (by omega) (by omega)
  rw [hfr, Nat.one_mul] at hshl
  rw [hshift]
  apply Yields.bind hshl
  rintro r ⟨hr, -⟩
  have hge : n ≤ radix ^ (2 * modulus.length) := by
    refine hn.lt.le.trans (radix_pow_mono (by omega))
  have hred := bnModRed_yields r hr hmod hpos
    (fun hc => absurd hge (Nat.not_le.mpr hc)) (by rw [hr.size_eq]; omega)
  rw [hr.size_eq] at hred
  apply Yields.bind hred
  rintro r' ⟨hr', hz⟩
  exact Yields.pure ⟨hmod, hml, rfl, hr', hz hge, hd2 ▸ hk0⟩

end Constants

def Established (mont : BigMont) (modulus : BigNum) : Prop :=
  mont.n0.toNat * modulus.value % 2 ^ 32 = 2 ^ 32 - 1 ∧ mont.ri = 32 * modulus.length ∧
    mont.r.value = 2 ^ (2 * mont.ri) % modulus.value

theorem Parameters.established {mont : BigMont} {modulus : BigNum} {d : ℕ}
    (h : Parameters mont d modulus.value modulus.length) :
    Established mont modulus ↔ (mont.n0.toNat * modulus.value + 1) % radix = 0 := by
  have hmod : mont.n0.toNat * modulus.value % 2 ^ 32 = 2 ^ 32 - 1 ↔
      (mont.n0.toNat * modulus.value + 1) % radix = 0 := by
    rw [radix]
    omega
  have hr : mont.r.value = 2 ^ (2 * mont.ri) % modulus.value := by
    rw [BigNum.value, h.r.value, h.ri, radix_pow_eq]
    congr 2
    omega
  rw [Established, hmod]
  exact and_iff_left ⟨h.ri, hr⟩

instance (mont : BigMont) (modulus : BigNum) : Decidable (Established mont modulus) :=
  inferInstanceAs (Decidable (_ ∧ _ ∧ _))

theorem montSet_establishes {modulus : BigNum} {d size n : ℕ} (hn : Rep modulus size n)
    (hodd : n % 2 = 1) (hlow : n % radix ≠ 1) (hsize : 2 * modulus.length + 1 ≤ size) (hd : size ≤ d) :
    ∃ mont, montSet (freshMont d) modulus ample = .ok (mont, ample) ∧ Established mont modulus := by
  have hpar : n % radix % 2 = 1 := by rw [mod_mod_of_dvd _ (by decide), hodd]
  obtain ⟨mont, hrun, hp⟩ := montSet_yields hn (by omega) hsize hd
  obtain rfl : modulus.value = n := hn.value
  exact ⟨mont, hrun, hp.established.mpr (hp.n0.inverse hlow hodd)⟩

/-- The constants of an odd modulus come out right unless its lowest digit is one. -/
theorem montSet_established_iff {modulus : BigNum} {d : ℕ} (hsign : modulus.sign = false)
    (hlen : modulus.length ≤ modulus.size)
    (htop : modulus.pData.getD (modulus.length - 1) 0 ≠ 0) (hodd : modulus.value % 2 = 1)
    (hroom : 2 * modulus.length + 1 ≤ modulus.size) (hd : modulus.size ≤ d) :
    ∃ mont, montSet (freshMont d) modulus ample = .ok (mont, ample) ∧
      (Established mont modulus ↔ modulus.pData.getD 0 0 ≠ 1) := by
  have hrep := rep_of_top hsign hlen htop
  have hpar : modulus.value % radix % 2 = 1 := by
    rw [mod_mod_of_dvd _ (by decide), hodd]
  obtain ⟨mont, hrun, hp⟩ := montSet_yields hrep (by omega) hroom hd
  refine ⟨mont, hrun, ?_⟩
  have hpos : 0 < modulus.value := by omega
  have hlow := (hrep.toMag.low_digit (hrep.length_pos hpos)).2
  rw [hp.established, Ne, ← UInt32.toNat_inj, hlow]
  constructor
  · intro h0 h1
    have h2 : modulus.value % radix = 1 := h1
    rw [hp.n0.one (Or.inl h2), Nat.one_mul] at h0
    simp only [radix] at h0 h2
    omega
  · intro h1
    exact hp.n0.inverse h1 hodd

theorem montSet_established_seven : (⟨false, 1, [7, 0, 0]⟩ : BigNum).pData.getD 0 0 ≠ 1 ∧
      ∃ mont, montSet (freshMont 3) ⟨false, 1, [7, 0, 0]⟩ ample = .ok (mont, ample) ∧
        Established mont ⟨false, 1, [7, 0, 0]⟩ := by
  obtain ⟨mont, hrun, hiff⟩ := @montSet_established_iff ⟨false, 1, [7, 0, 0]⟩ 3 rfl
    (by decide) (by decide) (by decide) (by decide) (by decide)
  exact ⟨by decide, mont, hrun, hiff.mpr (by decide)⟩

/-- For `2 ^ 32 + 1`, whose lowest digit is one, the run ends with `N0 = 1`. -/
theorem lowDigit_one_not_established :
    ∃ mont, montSet (freshMont 5) ⟨false, 2, [1, 1, 0, 0, 0]⟩ ample = .ok (mont, ample) ∧
      mont.n0 = 1 ∧ ¬ Established mont ⟨false, 2, [1, 1, 0, 0, 0]⟩ := by
  have hrep := rep_of_top (x := ⟨false, 2, [1, 1, 0, 0, 0]⟩) rfl (by decide) (by decide)
  obtain ⟨mont, hrun, hp⟩ := montSet_yields hrep (by decide) (by decide) (le_refl 5)
  have h1 : mont.n0.toNat = 1 := hp.n0.one (Or.inl (by decide))
  refine ⟨mont, hrun, UInt32.toNat_inj.mp h1, ?_⟩
  rw [hp.established, h1]
  decide

end VDLinux.SecureBoot
