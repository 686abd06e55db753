import VDLinux.SecureBoot.Signed

namespace VDLinux.SecureBoot

open Digit Base.Words Base.Outcome List Nat

/-- The array after `n` digits from `s` on have been moved to `d`. -/
def moved (a : List UInt32) (d s n : ℕ) : List UInt32 := a.take d ++ ((a.drop s).take n ++ a.drop (d + n))

/-- What `memcpy` does inside one array. Only areas that do not overlap, and an area onto itself, are
copied for certain. -/
structure Memcpy where
  copy : List UInt32 → ℕ → ℕ → ℕ → List UInt32
  length_copy : ∀ a d s n, (copy a d s n).length = a.length
  copy_apart : ∀ a d s n, d + n ≤ a.length → s + n ≤ a.length → (d + n ≤ s ∨ s + n ≤ d ∨ d = s) →
    copy a d s n = moved a d s n

section InPlace

variable (mem : Memcpy)

def shlWordsInPlace (x : BigNum) (t : ℕ) : Checked BigNum :=
  if t = 0 then .ok x
  else if x.size < x.length + t then .error .outOfBounds
  else
    let data := mem.copy x.pData t 0 x.length
    .ok { x with length := x.length + t, pData := List.replicate t 0 ++ data.drop t }

def bnShlInPlace (x : BigNum) (numOfShift : ℕ) : Run BigNum := do
  if x.length = 0 then bnCopy x bnZero
  else
    let x ← shlBits x x (numOfShift % 32)
    let x ← shlWordsInPlace mem x (numOfShift / 32)
    optimizeLength x

def bnShrInPlace (x : BigNum) (numOfShift : ℕ) : Run BigNum := do
  let t := numOfShift / 32
  if x.length = 0 then bnCopy x x
  else if t = 0 then
    let x ← bnCopy x x
    let x ← shrBits x (numOfShift % 32)
    optimizeLength x
  else if x.length ≤ t then bnCopy x bnZero
  else if x.size < x.length then throw .outOfBounds
  else
    let x ← optimizeLength { x with length := x.length - t, pData := mem.copy x.pData 0 t (x.length - t) }
    let x ← shrBits x (numOfShift % 32)
    optimizeLength x

end InPlace

section Shift

variable {x dst : BigNum} {k : ℕ}

theorem optimizeLength_computes {z : ℕ} (hs : x.sign = false) (hl : x.length ≤ x.size) (hv : x.value = z) :
    Computes (liftM (optimizeLength x)) z := by
  obtain ⟨y, hy, hcut, hys, -⟩ := optimizeLength_spec hl hv
  refine Yields.lift hy ⟨hcut.length_le_size, ?_⟩
  rw [signed_of_nonneg (hys.trans hs), BigNum.value, hcut.value]

theorem copyZero_computes (hd : 0 < dst.size) : Computes (bnCopy dst bnZero) 0 :=
  bnCopy_signed (x := bnZero) (by decide) hd

theorem Computes.iff {run : Run BigNum} {z z' : ℤ} (h : Computes run z) : Computes run z' ↔ z = z' := by
  constructor
  · intro h'
    obtain ⟨r, ⟨-, hr⟩, -, hr'⟩ := h.both h'
    exact hr.symm.trans hr'
  · rintro rfl
    exact h

/-- The number a shift to the left into another number leaves: the words are taken from the source again,
so only one of the two parts of the shift is seen, and a shift by zero leaves what was there. -/
def shlLeaves (dst x : BigNum) (k : ℕ) : ℕ :=
  if k / 32 ≠ 0 then x.value * radix ^ (k / 32)
  else if k % 32 ≠ 0 then x.value * 2 ^ (k % 32)
  else dst.value

theorem two_pow_split (k : ℕ) : 2 ^ k = radix ^ (k / 32) * 2 ^ (k % 32) := by
  rw [show radix = 2 ^ 32 from rfl, ← pow_mul, ← pow_add, div_add_mod]

theorem bits_fit {size : ℕ} (hfit : x.value * 2 ^ k < radix ^ size) :
    x.value * 2 ^ (k % 32) < radix ^ size := by
  refine lt_of_le_of_lt (Nat.mul_le_mul_left _ ?_) hfit
  exact Nat.pow_le_pow_right (by decide) (mod_le k 32)

theorem bnShl_computes (hs : x.sign = false) (hx : x.length ≤ x.size) (h0 : x.length ≠ 0)
    (hl : x.length + k / 32 ≤ dst.size) (hfit : x.value * 2 ^ k < radix ^ dst.size)
    (hdst : k = 0 → dst.length ≤ dst.size) : Computes (bnShl false dst x k) (shlLeaves dst x k) := by
  have hbits : ∃ y, shlBits { dst with sign := x.sign } x (k % 32) = .ok y ∧ y.sign = x.sign ∧
      y.size = dst.size ∧ (k / 32 = 0 → y.length ≤ dst.size ∧ y.value = shlLeaves dst x k) := by
    by_cases hb : k % 32 = 0
    · rw [hb]
      refine ⟨_, rfl, rfl, rfl, fun ht => ?_⟩
      rw [shlLeaves, if_neg (not_not.mpr ht), if_neg (not_not.mpr hb)]
      exact ⟨hdst (by omega), rfl⟩
    · obtain ⟨y, hy, hys, hyz, -, hyl, hyv⟩ := shlBits_spec { dst with sign := x.sign } hx
        (Nat.pos_of_ne_zero h0)
        (show x.length ≤ dst.size by omega) hb (mod_lt k (by decide)) (bits_fit hfit)
      refine ⟨y, hy, hys, hyz, fun ht => ⟨hyl, ?_⟩⟩
      rw [shlLeaves, if_neg (not_not.mpr ht), if_pos hb]
      exact hyv
  obtain ⟨y, hy, hys, hyz, hyv⟩ := hbits
  rw [bnShl, if_neg h0]
  apply Yields.bind_lift hy
  by_cases ht : k / 32 = 0
  · obtain ⟨hyl, hyv⟩ := hyv ht
    rw [ht]
    apply Yields.bind_lift (show shlWords y x 0 = .ok y from rfl)
    exact optimizeLength_computes (hys.trans hs) (hyz.symm ▸ hyl) hyv
  · obtain ⟨z, hz, hzs, hzz, hzl, hzv⟩ := shlWords_spec y hx ht (hyz.symm ▸ hl)
    apply Yields.bind_lift hz
    refine optimizeLength_computes (hzs.trans (hys.trans hs)) (by omega) ?_
    rw [shlLeaves, if_pos ht]
    exact hzv

theorem shrBits_spec (hx : x.length ≤ x.size) (h0 : 0 < x.length) {b : ℕ} (hb : b < 32) :
    ∃ y, shrBits x b = .ok y ∧ y.sign = x.sign ∧ y.size = x.size ∧ y.length = x.length ∧
      y.value = x.value / 2 ^ b := by
  by_cases hb0 : b = 0
  · subst hb0
    exact ⟨x, rfl, rfl, rfl, rfl, by rw [pow_zero, Nat.div_one]⟩
  have hdl := digits_length hx
  have hne : x.pData.take x.length ≠ [] := length_pos_iff.mp (hdl.symm ▸ h0)
  have ht := toNat_toUInt32 hb
  obtain ⟨rs, c, he, hl, hv⟩ := dwdShr_spec (t := b.toUInt32) (by omega) (by omega) hne
  rw [ht] at hv
  rw [hdl] at hl
  have hst : rs.length ≤ x.size := hl.symm ▸ hx
  simp only [shrBits, if_neg hb0, digits_eq hx, ok_bind, he, store_eq hst]
  exact ⟨_, rfl, rfl, stored_size hst, rfl, (val_stored _ _ hl).trans hv⟩

/-- What follows in a shift to the right when the words have been moved. The bits need a digit to work
on. -/
theorem shrRest_iff (hs : x.sign = false) (hx : x.length ≤ x.size) {n : ℕ} : Computes (do
      let x ← optimizeLength x
      let x ← shrBits x (k % 32)
      optimizeLength x) n ↔ x.value / 2 ^ (k % 32) = n ∧ (x.value = 0 → k % 32 = 0) := by
  obtain ⟨y, hy, hcut, hys, -⟩ := optimizeLength_spec hx rfl
  have hyv : y.value = x.value := hcut.value
  refine (Yields.bind_lift_iff hy).trans ?_
  by_cases h0 : y.length = 0
  · have hv0 : x.value = 0 := hyv.symm.trans (value_eq_zero h0)
    by_cases hb : k % 32 = 0
    · rw [hb]
      refine (Yields.bind_lift_iff (show shrBits y 0 = .ok y from rfl)).trans ?_
      refine (optimizeLength_computes (hys.trans hs) hcut.length_le_size hyv).iff.trans ?_
      simp
    · refine iff_of_false (Fails.not_yields ?_) fun h => hb (h.2 hv0)
      have hdig : y.digits = .ok [] := by
        rw [digits_eq hcut.length_le_size, h0]
        rfl
      have ht : ¬ (32 : UInt32) ≤ (k % 32).toUInt32 := by
        have hlt := mod_lt k (show 0 < 32 by decide)
        rw [UInt32.le_iff_toNat_le, toNat_toUInt32 hlt]
        exact Nat.not_le.mpr hlt
      have hbits : shrBits y (k % 32) = .error .outOfBounds := by
        rw [shrBits, if_neg hb, hdig, ok_bind, dwdShr, if_neg ht]
        rfl
      exact (Fails.lift hbits).bind
  · obtain ⟨z, hz, hzs, hzz, hzl, hzv⟩ := shrBits_spec hcut.length_le_size (Nat.pos_of_ne_zero h0)
      (mod_lt k (show 0 < 32 by decide))
    refine (Yields.bind_lift_iff hz).trans ?_
    have hzle : z.length ≤ z.size := by
      rw [hzl, hzz]
      exact hcut.length_le_size
    refine (optimizeLength_computes (hzs.trans (hys.trans hs)) hzle hzv).iff.trans ?_
    rw [hyv, Nat.cast_inj]
    exact ⟨fun h => ⟨h, fun hv0 => absurd (hcut.zero hv0) h0⟩, fun h => h.1⟩

/-- The words of a shift to the right are gone and the digits left are all zero, so that no digit is left
for the bits of the shift. -/
def NothingLeft (x : BigNum) (k : ℕ) : Prop :=
  0 < k / 32 ∧ k / 32 < x.length ∧ k % 32 ≠ 0 ∧ x.value < radix ^ (k / 32)

theorem shr_split (v k : ℕ) : v / radix ^ (k / 32) / 2 ^ (k % 32) = v / 2 ^ k := by
  rw [Nat.div_div_eq_div_mul, ← two_pow_split]

theorem not_nothingLeft_iff (ht : k / 32 ≠ 0) (hle : ¬ x.length ≤ k / 32) :
    (x.value / radix ^ (k / 32) = 0 → k % 32 = 0) ↔ ¬ NothingLeft x k := by
  have hzero : x.value / radix ^ (k / 32) = 0 ↔ x.value < radix ^ (k / 32) := by
    rw [Nat.div_eq_zero_iff]
    exact or_iff_right (radix_pow_pos _).ne'
  rw [hzero]
  constructor
  · intro h hnone
    exact hnone.2.2.1 (h hnone.2.2.2)
  · intro h hlt
    by_contra hb
    exact h ⟨Nat.pos_of_ne_zero ht, Nat.lt_of_not_le hle, hb, hlt⟩

/-- The three cases before words are moved: no digit, a shift by less than a word, a shift by all words. -/
theorem shrStart_computes {run : Run BigNum} {d : BigNum} (hs : x.sign = false) (hx : x.length ≤ x.size)
    (hd : x.length ≤ d.size) (hd0 : 0 < d.size) (hcase : x.length = 0 ∨ k / 32 = 0 ∨ x.length ≤ k / 32) :
    Computes (if x.length = 0 then bnCopy d x else if k / 32 = 0 then do
        let y ← bnCopy d x
        let y ← shrBits y (k % 32)
        optimizeLength y
      else if x.length ≤ k / 32 then bnCopy d bnZero
      else run) (x.value / 2 ^ k : ℕ) := by
  by_cases h0 : x.length = 0
  · rw [if_pos h0]
    have hcopy := bnCopy_signed hx hd
    rw [signed_eq_zero h0] at hcopy
    rw [value_eq_zero h0, Nat.zero_div]
    exact hcopy
  rw [if_neg h0]
  by_cases ht : k / 32 = 0
  · rw [if_pos ht]
    apply Yields.bind (bnCopy_digits d x hx hd)
    rintro y ⟨hyz, hyl, hys, hyd, -⟩
    have hyv : y.value = x.value := congrArg val hyd
    obtain ⟨z, hz, hzs, hzz, hzl, hzv⟩ := shrBits_spec (x := y) (by omega) (by omega)
      (mod_lt k (show 0 < 32 by decide))
    apply Yields.bind_lift hz
    refine optimizeLength_computes (hzs.trans (hys.trans hs)) (by omega) ?_
    rw [hzv, hyv, ← shr_split x.value k, ht, pow_zero, Nat.div_one]
  · have hle : x.length ≤ k / 32 := (hcase.resolve_left h0).resolve_left ht
    rw [if_neg ht, if_pos hle, ← shr_split,
      div_eq_of_lt ((value_lt x).trans_le (radix_pow_mono hle)), Nat.zero_div]
    exact copyZero_computes hd0

theorem bnShr_iff (hs : x.sign = false) (hx : x.length ≤ x.size) (hd : x.length ≤ dst.size)
    (hd0 : 0 < dst.size) :
    Computes (bnShr dst x k) (x.value / 2 ^ k : ℕ) ↔ ¬ NothingLeft x k := by
  by_cases hcase : x.length = 0 ∨ k / 32 = 0 ∨ x.length ≤ k / 32
  · refine iff_of_true (shrStart_computes hs hx hd hd0 hcase) fun h => ?_
    obtain ⟨h1, h2, -, -⟩ := h
    omega
  · obtain ⟨h0, ht, hle⟩ : x.length ≠ 0 ∧ k / 32 ≠ 0 ∧ ¬ x.length ≤ k / 32 := by
      simpa only [not_or] using hcase
    rw [bnShr, if_neg h0, if_neg ht, if_neg hle]
    have hlen : ((x.pData.take x.length).drop (k / 32)).length = x.length - k / 32 := by
      rw [length_drop, digits_length hx]
    have hst : ((x.pData.take x.length).drop (k / 32)).length ≤ dst.size := by omega
    have hsz := stored_size hst
    have hval := (val_stored _ (dst.pData.drop ((x.pData.take x.length).drop (k / 32)).length) hlen).trans
      (val_drop (x.pData.take x.length) (k / 32))
    refine (Yields.bind_lift_iff (digits_eq hx)).trans ((Yields.bind_lift_iff (store_eq hst)).trans ?_)
    refine (shrRest_iff (x := ⟨x.sign, x.length - k / 32, (x.pData.take x.length).drop (k / 32) ++
      dst.pData.drop ((x.pData.take x.length).drop (k / 32)).length⟩) hs
      (le_of_le_of_eq ((sub_le _ _).trans hd) hsz.symm)).trans ?_
    rw [BigNum.value, hval, ← not_nothingLeft_iff ht hle]
    exact ⟨fun h => h.2, fun h => ⟨shr_split x.value k, h⟩⟩

/-- The value of the digits that a copy inside the array leaves at the bottom, and at the word `t`. -/
def movedDown (mem : Memcpy) (x : BigNum) (t : ℕ) : ℕ :=
  val ((mem.copy x.pData 0 t (x.length - t)).take (x.length - t))

def movedUp (mem : Memcpy) (x : BigNum) (t : ℕ) : ℕ :=
  val (((mem.copy x.pData t 0 x.length).drop t).take x.length)

theorem movedUp_apart (mem : Memcpy) {t : ℕ} (hx : x.length + t ≤ x.size) (ht : x.length ≤ t) :
    movedUp mem x t = x.value := by
  rw [BigNum.size] at hx
  have htl : (x.pData.take t).length = t := by
    rw [length_take]
    omega
  have hlen : (x.pData.take x.length).length = x.length := by
    rw [length_take]
    omega
  rw [movedUp, mem.copy_apart _ _ _ _ (by omega) (by omega) (by omega), moved, drop_left' htl,
    drop_zero, take_left' hlen]
  rfl

/-- The shift to the right in place is right if the words come out right up to the bits that the shift
drops, and a digit is left for them. -/
def ShrMoves (mem : Memcpy) (x : BigNum) (k : ℕ) : Prop :=
  x.length ≤ k / 32 ∨ k / 32 = 0 ∨
    movedDown mem x (k / 32) / 2 ^ (k % 32) = x.value / 2 ^ k ∧ (movedDown mem x (k / 32) = 0 → k % 32 = 0)

theorem bnShrInPlace_iff (mem : Memcpy) (hs : x.sign = false) (hx : x.length ≤ x.size) (h1 : 0 < x.size) :
    Computes (bnShrInPlace mem x k) (x.value / 2 ^ k : ℕ) ↔ ShrMoves mem x k := by
  by_cases hcase : x.length = 0 ∨ k / 32 = 0 ∨ x.length ≤ k / 32
  · refine iff_of_true (shrStart_computes hs hx hx h1 hcase) ?_
    rw [ShrMoves]
    omega
  · obtain ⟨h0, ht, hle⟩ : x.length ≠ 0 ∧ k / 32 ≠ 0 ∧ ¬ x.length ≤ k / 32 := by
      simpa only [not_or] using hcase
    rw [bnShrInPlace, if_neg h0, if_neg ht, if_neg hle, if_neg (Nat.not_lt.mpr hx)]
    refine (shrRest_iff (x := ⟨x.sign, x.length - k / 32, mem.copy x.pData 0 (k / 32) (x.length - k / 32)⟩)
      hs ?_).trans ?_
    · refine le_of_le_of_eq ((sub_le _ _).trans hx) ?_
      rw [BigNum.size, BigNum.size, mem.length_copy]
    · rw [ShrMoves, or_iff_right hle, or_iff_right ht]
      rfl

/-- The shift to the left in place is right if the words, after the shift of the bits, come out right. -/
def ShlMoves (mem : Memcpy) (x : BigNum) (k : ℕ) : Prop :=
  x.length = 0 ∨ k / 32 = 0 ∨ ∃ y, shlBits x x (k % 32) = .ok y ∧ movedUp mem y (k / 32) = y.value

theorem shlBits_inPlace (hx : x.length ≤ x.size) (h0 : x.length ≠ 0) (hl : x.length + k / 32 ≤ x.size)
    (hfit : x.value * 2 ^ k < radix ^ x.size) :
    ∃ y, shlBits x x (k % 32) = .ok y ∧ y.sign = x.sign ∧ y.size = x.size ∧
      y.length + k / 32 ≤ x.size ∧ y.value = x.value * 2 ^ (k % 32) := by
  by_cases hb : k % 32 = 0
  · rw [hb, pow_zero, Nat.mul_one]
    exact ⟨x, rfl, rfl, rfl, hl, rfl⟩
  · obtain ⟨y, hy, hys, hyz, hyl, -, hyv⟩ := shlBits_spec x hx (Nat.pos_of_ne_zero h0) hx hb
      (mod_lt k (by decide)) (bits_fit hfit)
    refine ⟨y, hy, hys, hyz, ?_, hyv⟩
    rcases hyl with hyl | ⟨hyl, hlarge⟩
    · rw [hyl]
      exact hl
    · have hpow : radix ^ (x.length + k / 32) < radix ^ x.size := by
        refine lt_of_le_of_lt ?_ hfit
        rw [pow_add, two_pow_split k, Nat.mul_left_comm, Nat.mul_comm (radix ^ x.length), ← hyv]
        exact Nat.mul_le_mul_left _ hlarge
      have := radix_pow_lt.mp hpow
      omega

theorem shlWordsInPlace_spec (mem : Memcpy) {t : ℕ} (hl : x.length + t ≤ x.size) (ht : t ≠ 0) :
    ∃ y, shlWordsInPlace mem x t = .ok y ∧ y.sign = x.sign ∧ y.length ≤ y.size ∧
      y.value = movedUp mem x t * radix ^ t := by
  rw [shlWordsInPlace, if_neg ht, if_neg (Nat.not_lt.mpr hl)]
  refine ⟨_, rfl, rfl, ?_, ?_⟩
  · rw [BigNum.size] at hl ⊢
    simp only [length_append, length_replicate, length_drop, mem.length_copy]
    omega
  · have hrep : (List.replicate t (0 : UInt32)).take (x.length + t) = List.replicate t 0 :=
      take_of_length_le (by rw [length_replicate]; omega)
    rw [BigNum.value, movedUp]
    rw [take_append, hrep, length_replicate, Nat.add_sub_cancel, val_append, val_replicate_zero,
      length_replicate, Nat.zero_add, Nat.mul_comm]

theorem bnShlInPlace_iff (mem : Memcpy) (hs : x.sign = false) (hx : x.length ≤ x.size) (h1 : 0 < x.size)
    (hl : x.length + k / 32 ≤ x.size) (hfit : x.value * 2 ^ k < radix ^ x.size) :
    Computes (bnShlInPlace mem x k) (x.value * 2 ^ k : ℕ) ↔ ShlMoves mem x k := by
  rw [bnShlInPlace, ShlMoves]
  split_ifs with h0
  · rw [value_eq_zero h0, Nat.zero_mul]
    exact iff_of_true (copyZero_computes h1) (Or.inl h0)
  rw [or_iff_right h0]
  obtain ⟨y, hy, hys, hyz, hyl, hyv⟩ := shlBits_inPlace hx h0 hl hfit
  refine (Yields.bind_lift_iff hy).trans ?_
  have hprod : x.value * 2 ^ k = y.value * radix ^ (k / 32) := by
    rw [hyv, two_pow_split, Nat.mul_assoc, Nat.mul_comm (radix ^ _)]
  by_cases ht : k / 32 = 0
  · rw [ht] at hprod ⊢
    rw [pow_zero, Nat.mul_one] at hprod
    refine iff_of_true (Yields.bind_lift (show shlWordsInPlace mem y 0 = .ok y from rfl) ?_) (Or.inl rfl)
    exact optimizeLength_computes (hys.trans hs) (by omega) hprod.symm
  · obtain ⟨z, hz, hzs, hzl, hzv⟩ := shlWordsInPlace_spec mem (hyz.symm ▸ hyl) ht
    refine (Yields.bind_lift_iff hz).trans ?_
    refine (optimizeLength_computes (hzs.trans (hys.trans hs)) hzl hzv).iff.trans ?_
    rw [hprod, Nat.cast_inj, Nat.mul_left_inj (radix_pow_pos _).ne', or_iff_right ht]
    constructor
    · exact fun h => ⟨y, hy, h⟩
    · rintro ⟨z, hz, h⟩
      obtain rfl : y = z := Except.ok.inj (hy.symm.trans hz)
      exact h

end Shift

def ShlApart (dst x : BigNum) (k : ℕ) : Prop :=
  x.length = 0 ∨ (k = 0 ∧ dst.length ≤ dst.size ∧ dst.value = x.value) ∨
    0 < k ∧ (k < 32 ∨ k % 32 = 0 ∨ x.value = 0)

theorem shlLeaves_iff {dst x : BigNum} {k : ℕ} (h0 : x.length ≠ 0) (hdst : k = 0 → dst.length ≤ dst.size) :
    shlLeaves dst x k = x.value * 2 ^ k ↔ ShlApart dst x k := by
  rw [ShlApart, or_iff_right h0, shlLeaves, two_pow_split k]
  by_cases ht : k / 32 = 0
  · rw [if_neg (not_not.mpr ht), ht, pow_zero, Nat.one_mul]
    by_cases hb : k % 32 = 0
    · obtain rfl : k = 0 := by omega
      simp only [zero_mod, ne_eq, not_true_eq_false, if_false, pow_zero, Nat.mul_one, true_and,
        lt_irrefl, false_and, or_false]
      exact ⟨fun h => ⟨hdst rfl, h⟩, fun h => h.2⟩
    · rw [if_pos hb]
      exact iff_of_true rfl (Or.inr ⟨by omega, Or.inl (by omega)⟩)
  · rw [if_pos ht, ← Nat.mul_assoc]
    rcases Nat.eq_zero_or_pos x.value with hv | hv
    · rw [hv, Nat.zero_mul, Nat.zero_mul]
      exact iff_of_true rfl (Or.inr ⟨by omega, Or.inr (Or.inr rfl)⟩)
    · have hpos : 0 < x.value * radix ^ (k / 32) := Nat.mul_pos hv (radix_pow_pos _)
      rw [eq_comm, Nat.mul_eq_left hpos.ne', Nat.pow_eq_one, or_iff_right (by decide)]
      constructor
      · exact fun h => Or.inr ⟨by omega, Or.inr (Or.inl h)⟩
      · rintro (h | ⟨-, h⟩) <;> omega

theorem bnShl_iff {dst x : BigNum} {k : ℕ} (hs : x.sign = false) (hx : x.length ≤ x.size)
    (h1 : 0 < dst.size) (hl : x.length + k / 32 ≤ dst.size) (hfit : x.value * 2 ^ k < radix ^ dst.size) :
    Computes (bnShl false dst x k) (x.value * 2 ^ k : ℕ) ↔ ShlApart dst x k := by
  by_cases h0 : x.length = 0
  · rw [bnShl, if_pos h0, value_eq_zero h0, Nat.zero_mul]
    exact iff_of_true (copyZero_computes h1) (Or.inl h0)
  by_cases hdst : k = 0 → dst.length ≤ dst.size
  · rw [← shlLeaves_iff h0 hdst, (bnShl_computes hs hx h0 hl hfit hdst).iff, Nat.cast_inj]
  · obtain ⟨rfl, hlong⟩ := Classical.not_imp.mp hdst
    have hdig : ({ dst with sign := x.sign } : BigNum).digits = .error .outOfBounds := if_neg hlong
    have hopt : optimizeLength { dst with sign := x.sign } = .error .outOfBounds := by
      rw [optimizeLength, hdig]
      rfl
    refine iff_of_false ?_ ?_
    · rw [bnShl, if_neg h0]
      exact (Fails.lift hopt).not_yields
    · rintro (h | ⟨-, h, -⟩ | ⟨h, -⟩)
      · exact h0 h
      · exact hlong h
      · exact absurd h (lt_irrefl 0)

structure Room (dst x : BigNum) (k : ℕ) : Prop where
  pos : 0 < dst.size
  words : x.length + k / 32 ≤ dst.size
  fits : x.value * 2 ^ k < radix ^ dst.size

/-- The shifts of a number into another one and in place, with room for the result: exactly when they are
right, whatever `memcpy` does with areas that overlap. -/
theorem shift_exact_iff (mem : Memcpy) (dst x : BigNum) (k : ℕ) (hs : x.sign = false)
    (hx : x.length ≤ x.size) :
    (Room dst x k → (Computes (bnShl false dst x k) (x.value * 2 ^ k : ℕ) ↔ ShlApart dst x k) ∧
      (Computes (bnShr dst x k) (x.value / 2 ^ k : ℕ) ↔ ¬ NothingLeft x k)) ∧
    (Room x x k → (Computes (bnShlInPlace mem x k) (x.value * 2 ^ k : ℕ) ↔ ShlMoves mem x k) ∧
      (Computes (bnShrInPlace mem x k) (x.value / 2 ^ k : ℕ) ↔ ShrMoves mem x k)) := by
  refine ⟨fun ⟨h1, hl, hfit⟩ => ⟨bnShl_iff hs hx h1 hl hfit, bnShr_iff hs hx (by omega) h1⟩, ?_⟩
  exact fun ⟨h1, hl, hfit⟩ => ⟨bnShlInPlace_iff mem hs hx h1 hl hfit, bnShrInPlace_iff mem hs hx h1⟩

/-- The `memcpy` of `lib/string.c`, which copies upwards, here by whole digits. -/
def copyUpwards (a : List UInt32) (d s : ℕ) : ℕ → List UInt32
  | 0 => a
  | n + 1 => (copyUpwards a d s n).set (d + n) ((copyUpwards a d s n).getD (s + n) 0)

theorem length_copyUpwards (a : List UInt32) (d s n : ℕ) : (copyUpwards a d s n).length = a.length := by
  induction n with
  | zero => rfl
  | succ n ih => rw [copyUpwards, length_set, ih]

theorem getElem?_copyUpwards {a : List UInt32} {d s n : ℕ} (hd : d + n ≤ a.length) (hs : s + n ≤ a.length)
    (h : d + n ≤ s ∨ s + n ≤ d ∨ d = s) (i : ℕ) :
    (copyUpwards a d s n)[i]? = if d ≤ i ∧ i < d + n then a[s + (i - d)]? else a[i]? := by
  induction n generalizing i with
  | zero => rw [copyUpwards, if_neg (by omega)]
  | succ n ih =>
    have ih := ih (by omega) (by omega) (by omega)
    have hsrc : (copyUpwards a d s n).getD (s + n) 0 = a.getD (s + n) 0 := by
      rw [getD_eq_getElem?_getD, getD_eq_getElem?_getD, ih]
      split_ifs with hin
      · rw [show s + (s + n - d) = s + n by omega]
      · rfl
    rw [copyUpwards, hsrc, List.getElem?_set, length_copyUpwards, ih]
    by_cases hi : d + n = i
    · subst hi
      rw [if_pos rfl, if_pos (by omega), if_pos (by omega), Nat.add_sub_cancel_left,
        getD_eq_getElem?_getD, List.getElem?_eq_getElem (by omega), Option.getD_some]
    · split_ifs with h1 h2 h2
      · rfl
      · omega
      · omega
      · rfl

theorem getElem?_moved {a : List UInt32} {d s n : ℕ} (hd : d + n ≤ a.length) (hs : s + n ≤ a.length)
    (i : ℕ) : (moved a d s n)[i]? = if d ≤ i ∧ i < d + n then a[s + (i - d)]? else a[i]? := by
  have h1 : (a.take d).length = d := by
    rw [length_take]
    omega
  have h2 : ((a.drop s).take n).length = n := by
    rw [length_take, length_drop]
    omega
  rw [moved, List.getElem?_append, h1, List.getElem?_append, h2, List.getElem?_take, List.getElem?_take,
    List.getElem?_drop, List.getElem?_drop]
  split_ifs <;> first | rfl | omega | (congr 1; omega)

def upwards : Memcpy where
  copy := copyUpwards
  length_copy := length_copyUpwards
  copy_apart a d s n hd hs h := ext_getElem? fun i => by
    rw [getElem?_copyUpwards hd hs h, getElem?_moved hd hs]

/-- One shifted by 33 into another number comes out shifted by 32, and two digits shifted by 32 in their own
array come out as the lower one twice. -/
theorem shifts_wrong :
    (((bnShl false (bnAlloc 4) ⟨false, 1, [1]⟩ 33) ample).toOption.map fun p => p.1.value) = some (2 ^ 32) ∧
      (((bnShlInPlace upwards ⟨false, 2, [1, 2, 0]⟩ 32) ample).toOption.map fun p => p.1.pData) =
        some [0, 1, 1] := by
  decide

theorem shift_exact_iff_byte : Computes (bnShl false (bnAlloc 4) ⟨false, 1, [1, 0]⟩ 8) 256 ∧
      Computes (bnShlInPlace upwards ⟨false, 1, [1, 0]⟩ 32) (2 ^ 32) := by
  have hroom : Room (bnAlloc 4) ⟨false, 1, [1, 0]⟩ 8 := ⟨by decide, by decide, by decide⟩
  have hroom' : Room ⟨false, 1, [1, 0]⟩ ⟨false, 1, [1, 0]⟩ 32 := ⟨by decide, by decide, by decide⟩
  have h8 := shift_exact_iff upwards (bnAlloc 4) ⟨false, 1, [1, 0]⟩ 8 rfl (by decide)
  have h32 := shift_exact_iff upwards (bnAlloc 4) ⟨false, 1, [1, 0]⟩ 32 rfl (by decide)
  refine ⟨(h8.1 hroom).1.mpr (Or.inr (Or.inr ⟨by decide, Or.inl (by decide)⟩)), ?_⟩
  refine (h32.2 hroom').1.mpr (Or.inr (Or.inr ⟨⟨false, 1, [1, 0]⟩, rfl, ?_⟩))
  exact movedUp_apart upwards (by decide) (by decide)

end VDLinux.SecureBoot
