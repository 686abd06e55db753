import VDLinux.Crypto.Gf128mul

namespace VDLinux.Crypto

open Polynomial Function

/-- The 256 entries of a `gf128mul_4k`. -/
abbrev Table := ℕ → Be128

/-- The index of the byte that stands for `x^k`. -/
def BitOrder.index : BitOrder → ℕ → ℕ
  | .lle, k => 128 >>> k
  | .bbe, k => 1 <<< k

/-- The first `k` rounds of the loop that fills the entries of the powers of `x`. -/
def powerLoop (o : BitOrder) (g : Be128) : ℕ → Table
  | 0 => Function.update (fun _ => 0) (o.index 0) g
  | k + 1 =>
    let t := powerLoop o g k
    Function.update t (o.index (k + 1)) (gf128mulX o (t (o.index k)))

/-- The inner loop of the closure, for the first `k` values of its counter. -/
def xorRow (t : Table) (j : ℕ) : ℕ → Table
  | 0 => t
  | k + 1 =>
    let t := xorRow t j k
    Function.update t (j + (k + 1)) (t j ^^^ t (k + 1))

/-- The outer loop, for `j` up to `2 ^ m`. -/
def xorRows (t : Table) : ℕ → Table
  | 0 => t
  | m + 1 => xorRow (xorRows t m) (2 ^ (m + 1)) (2 ^ (m + 1) - 1)

def gf128mulInit4k (o : BitOrder) (g : Be128) : Table := xorRows (powerLoop o g 7) 7

def gf128mulInit4kLle : Be128 → Table := gf128mulInit4k .lle

def gf128mulInit4kBbe : Be128 → Table := gf128mulInit4k .bbe

def gf128mul4k (o : BitOrder) (a : Be128) (t : Table) : Be128 :=
  horner o (fun ch r => r ^^^ t ch.toNat) a 15 (t (a.byte (o.place 15)).toNat)

def gf128mul4kLle : Be128 → Table → Be128 := gf128mul4k .lle

def gf128mul4kBbe : Be128 → Table → Be128 := gf128mul4k .bbe

/-- The entries of the powers of `x` in the next of the sixteen tables. -/
def nextPowers (o : BitOrder) (t : Table) : Table :=
  (List.range 8).foldl
    (fun next k => Function.update next (128 >>> k) (gf128mulX8 o (t (128 >>> k)))) (fun _ => 0)

def gf128mulInit64k (o : BitOrder) (g : Be128) : ℕ → Table
  | 0 => xorRows (powerLoop o g 7) 7
  | i + 1 => xorRows (nextPowers o (gf128mulInit64k o g i)) 7

def gf128mulInit64kLle : Be128 → ℕ → Table := gf128mulInit64k .lle

def gf128mulInit64kBbe : Be128 → ℕ → Table := gf128mulInit64k .bbe

/-- The sum over the first `i + 1` tables. -/
def sumLoop (o : BitOrder) (a : Be128) (t : ℕ → Table) : ℕ → Be128
  | 0 => t 0 (a.byte (o.place 0)).toNat
  | i + 1 => sumLoop o a t i ^^^ t (i + 1) (a.byte (o.place (i + 1))).toNat

def gf128mul64k (o : BitOrder) (a : Be128) (t : ℕ → Table) : Be128 := sumLoop o a t 15

def gf128mul64kLle : Be128 → (ℕ → Table) → Be128 := gf128mul64k .lle

def gf128mul64kBbe : Be128 → (ℕ → Table) → Be128 := gf128mul64k .bbe

variable {o : BitOrder} {G : AdjoinRoot modulus} {t : Table}

/-- Each entry below `n` is the multiple of its index. -/
def Filled (o : BitOrder) (G : AdjoinRoot modulus) (t : Table) (n : ℕ) : Prop :=
  ∀ i < n, val o (t i) = val o (BitVec.ofNat 8 i) * G

/-- The entries that the closure starts from. -/
structure Seeded (o : BitOrder) (G : AdjoinRoot modulus) (t : Table) : Prop where
  zero : t 0 = 0
  pow : ∀ m < 8, val o (t (2 ^ m)) = val o (BitVec.ofNat 8 (2 ^ m)) * G

theorem xorRow_apply (t : Table) (j k i : ℕ) (hk : k < j) :
    xorRow t j k i = if j < i ∧ i ≤ j + k then t j ^^^ t (i - j) else t i := by
  induction k generalizing i with
  | zero => rw [if_neg (by omega), xorRow]
  | succ k ih =>
    have hj : ¬ (j < j ∧ j ≤ j + k) := by omega
    have hlow : ¬ (j < k + 1 ∧ k + 1 ≤ j + k) := by omega
    rw [xorRow]
    by_cases hi : i = j + (k + 1)
    · subst hi
      rw [update_self, ih j (by omega), ih (k + 1) (by omega), if_neg hj, if_neg hlow,
        if_pos (by omega), Nat.add_sub_cancel_left]
    · rw [update_of_ne hi, ih i (by omega)]
      exact if_congr (by omega) rfl rfl

theorem ofNat_add_eq_xor : ∀ m < 8, ∀ k < 2 ^ m,
    BitVec.ofNat 8 (2 ^ m + k) = BitVec.ofNat 8 (2 ^ m) ^^^ BitVec.ofNat 8 k := by
  decide +kernel

/-- The closure makes the rest of the table out of the powers, one more of them in each row. -/
theorem Seeded.filled (h : Seeded o G t) (m : ℕ) (hm : m < 8) :
    Filled o G (xorRows t m) (2 ^ (m + 1)) ∧ ∀ i, 2 ^ (m + 1) ≤ i → xorRows t m i = t i := by
  induction m with
  | zero =>
    refine ⟨fun i hi => ?_, fun _ _ => rfl⟩
    cases i with
    | zero =>
      rw [xorRows, h.zero, val_zero, show BitVec.ofNat 8 0 = 0 from rfl, val_zero, zero_mul]
    | succ i =>
      obtain rfl : i = 0 := by omega
      exact h.pow 0 (by decide)
  | succ m ih =>
    obtain ⟨hfilled, hrest⟩ := ih (Nat.lt_of_succ_lt hm)
    have hpos : 0 < 2 ^ (m + 1) := by positivity
    have hrow := xorRow_apply (xorRows t m) (2 ^ (m + 1)) (2 ^ (m + 1) - 1)
    refine ⟨fun i hi => ?_, fun i hi => ?_⟩
    · rw [xorRows, hrow i (by omega)]
      split
      · next hin =>
        obtain ⟨k, rfl⟩ := Nat.exists_eq_add_of_le hin.1.le
        rw [Nat.add_sub_cancel_left, val_xor, hrest _ le_rfl, h.pow (m + 1) hm,
          hfilled k (by omega), ofNat_add_eq_xor (m + 1) hm k (by omega), val_xor, add_mul]
      · next hout =>
        rcases (show i < 2 ^ (m + 1) ∨ i = 2 ^ (m + 1) by omega) with hlt | rfl
        · exact hfilled i hlt
        · rw [hrest _ le_rfl]
          exact h.pow (m + 1) hm
    · rw [xorRows, hrow i (by omega), if_neg (by omega), hrest i (by omega)]

theorem Seeded.val_apply (h : Seeded o G t) (ch : BitVec 8) :
    val o (xorRows t 7 ch.toNat) = val o ch * G := by
  rw [(h.filled 7 (by decide)).1 ch.toNat ch.isLt, BitVec.ofNat_toNat, BitVec.setWidth_eq]

theorem index_facts (o : BitOrder) : (∀ i < 8, BitVec.ofNat 8 (o.index i) = o.unit 8 i) ∧
    (∀ i < 8, o.index i ≠ 0) ∧ (∀ i < 8, ∀ j < 8, o.index i = o.index j → i = j) ∧
    ∀ m < 8, ∃ i < 8, 2 ^ m = o.index i := by
  cases o <;> decide

theorem powerLoop_spec (o : BitOrder) (g : Be128) (k : ℕ) (hk : k < 8) :
    powerLoop o g k 0 = 0 ∧ ∀ i ≤ k, val o (powerLoop o g k (o.index i)) = x ^ i * val o g := by
  obtain ⟨-, hzero, hinj, -⟩ := index_facts o
  induction k with
  | zero =>
    refine ⟨update_of_ne (hzero 0 hk).symm _ _, fun i hi => ?_⟩
    obtain rfl : i = 0 := by omega
    rw [powerLoop, update_self, pow_zero, one_mul]
  | succ k ih =>
    obtain ⟨hz, hval⟩ := ih (Nat.lt_of_succ_lt hk)
    refine ⟨(update_of_ne (hzero _ hk).symm _ _).trans hz, fun i hi => ?_⟩
    rw [powerLoop]
    by_cases he : i = k + 1
    · subst he
      rw [update_self, val_gf128mulX, hval k le_rfl, pow_succ', mul_assoc]
    · rw [update_of_ne (fun h => he (hinj i (by omega) _ hk h)), hval i (by omega)]

theorem seeded_powerLoop (o : BitOrder) (g : Be128) : Seeded o (val o g) (powerLoop o g 7) := by
  obtain ⟨hunit, -, -, hpow⟩ := index_facts o
  obtain ⟨hzero, hval⟩ := powerLoop_spec o g 7 (by decide)
  refine ⟨hzero, fun m hm => ?_⟩
  obtain ⟨i, hi, he⟩ := hpow m hm
  rw [he, hval i (by omega), hunit i hi, val_unit o hi]

theorem nextPowers_apply (t : Table) :
    nextPowers o t 0 = 0 ∧ ∀ m < 8, nextPowers o t (2 ^ m) = gf128mulX8 o (t (2 ^ m)) := by
  refine ⟨by simp [nextPowers, List.range_succ, Function.update], fun m hm => ?_⟩
  interval_cases m <;> simp [nextPowers, List.range_succ, Function.update]

/-- The sixteen tables are those of the multiples by the powers of `x^8`. -/
theorem val_init64k (o : BitOrder) (g : Be128) (i : ℕ) (ch : BitVec 8) :
    val o (gf128mulInit64k o g i ch.toNat) = val o ch * (x ^ (8 * i) * val o g) := by
  induction i generalizing ch with
  | zero =>
    rw [gf128mulInit64k, (seeded_powerLoop o g).val_apply, Nat.mul_zero, pow_zero, one_mul]
  | succ i ih =>
    have hseeded : Seeded o (x ^ (8 * (i + 1)) * val o g)
        (nextPowers o (gf128mulInit64k o g i)) := by
      obtain ⟨hzero, hpow⟩ := nextPowers_apply (o := o) (gf128mulInit64k o g i)
      refine ⟨hzero, fun m hm => ?_⟩
      have hval := ih (BitVec.ofNat 8 (2 ^ m))
      rw [BitVec.toNat_ofNat, Nat.mod_eq_of_lt (Nat.pow_lt_pow_right (by decide) hm)] at hval
      rw [hpow m hm, val_gf128mulX8, hval]
      ring
    exact hseeded.val_apply ch

theorem val_sumLoop {t : ℕ → Table}
    (ht : ∀ i (ch : BitVec 8), val o (t i ch.toNat) = val o ch * (x ^ (8 * i) * G)) (a : Be128) (i : ℕ) :
    val o (sumLoop o a t i) =
      (∑ n ∈ Finset.range (i + 1), x ^ (8 * n) * val o (a.byte (o.place n))) * G := by
  induction i with
  | zero =>
    rw [sumLoop, ht, Finset.sum_range_one]
    ring
  | succ i ih =>
    rw [sumLoop, val_xor, ih, ht, Finset.sum_range_succ _ (i + 1)]
    ring

/-- Both kinds of tables give the product. -/
theorem gf128mulTables_eq (o : BitOrder) (g a : Be128) :
    gf128mul4k o a (gf128mulInit4k o g) = gf128mul64k o a (gf128mulInit64k o g) ∧
      poly o (gf128mul4k o a (gf128mulInit4k o g)) = (poly o a * poly o g) %ₘ modulus := by
  have hadd : ∀ ch r, val o (r ^^^ gf128mulInit4k o g ch.toNat) = val o r + val o ch * val o g :=
    fun ch r => by rw [val_xor, gf128mulInit4k, (seeded_powerLoop o g).val_apply]
  have h4k : val o (gf128mul4k o a (gf128mulInit4k o g)) = val o a * val o g := by
    have hzero : ∀ y : Be128, 0 ^^^ y = y := fun _ => BitVec.zero_xor
    have h := val_scheme o hadd a 0
    rwa [hzero, val_zero, mul_zero, zero_add] at h
  have h64k : val o (gf128mul64k o a (gf128mulInit64k o g)) = val o a * val o g := by
    rw [gf128mul64k, val_sumLoop (val_init64k o g), ← val_bytes]
  refine ⟨val_injective o (h4k.trans h64k.symm), ?_⟩
  rw [poly_eq_modByMonic_iff, h4k, map_mul]
  rfl

end VDLinux.Crypto
