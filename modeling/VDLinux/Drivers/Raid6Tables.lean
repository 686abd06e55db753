import VDLinux.Base.XorLinear
import VDLinux.Base.ByteLanes

namespace VDLinux.Drivers.Raid6

open Base.XorLinear Base.ByteLanes

abbrev Byte := BitVec 8

def double (a : Byte) : Byte := (a <<< 1) ^^^ (if a &&& 0x80 ≠ 0 then 0x1d else 0)

/-- The loop of `gfmul`; `b` has eight bits, so eight rounds use it up. -/
def gfmulLoop : ℕ → Byte → Byte → Byte → Byte
  | 0, _, _, v => v
  | n + 1, a, b, v =>
    if b = 0 then v else gfmulLoop n (double a) (b >>> 1) (if b &&& 1 ≠ 0 then v ^^^ a else v)

def gfmul (a b : Byte) : Byte := gfmulLoop 8 a b 0

def gfpowLoop : ℕ → Byte → ℕ → Byte → Byte
  | 0, _, _, v => v
  | n + 1, a, b, v =>
    if b = 0 then v else gfpowLoop n (gfmul a a) (b / 2) (if b % 2 = 1 then gfmul v a else v)

/-- The exponent is below 255, so it has eight bits. -/
def gfpow (a : Byte) (b : ℤ) : Byte :=
  let b := b.tmod 255
  gfpowLoop 8 a (if b < 0 then b + 255 else b).toNat 1

/-- The table `raid6_gfexp`, whose entry 255 is zero. -/
def gfexp : ℕ → Byte
  | 0 => 1
  | i + 1 => if gfmul (gfexp i) 2 = 1 then 0 else gfmul (gfexp i) 2

def gfinv (i : Byte) : Byte := gfpow i 254

def gfexi (i : ℕ) : Byte := gfinv (gfexp i ^^^ 1)

section Linear

theorem double_additive : Additive double := by
  have hmsb : ∀ a : Byte, (a &&& 0x80 ≠ 0) ↔ a.getLsbD 7 = true := by decide
  intro a b
  simp only [double, hmsb, BitVec.getLsbD_xor, BitVec.shiftLeft_xor_distrib, ite_xor]
  ac_rfl

variable (n : ℕ)

theorem gfmulLoop_zero (a v : Byte) : gfmulLoop n a 0 v = v := by
  cases n <;> rfl

theorem gfmulLoop_succ (a b v : Byte) : gfmulLoop (n + 1) a b v =
      gfmulLoop n (double a) (b >>> 1) (v ^^^ if b.getLsbD 0 then a else 0) := by
  have hlow : ∀ b : Byte, (b &&& 1 ≠ 0) ↔ b.getLsbD 0 = true := by decide
  rw [gfmulLoop]
  by_cases hb : b = 0
  · subst hb
    have hv : (v ^^^ if (0 : Byte).getLsbD 0 then a else 0) = v := BitVec.xor_zero
    rw [hv]
    exact (gfmulLoop_zero n (double a) v).symm
  · rw [if_neg hb]
    congr 1
    by_cases hbit : b.getLsbD 0 = true
    · rw [if_pos ((hlow b).mpr hbit), if_pos hbit]
    · rw [if_neg (fun h => hbit ((hlow b).mp h)), if_neg hbit]
      exact BitVec.xor_zero.symm

theorem gfmulLoop_left (a a' b v v' : Byte) :
    gfmulLoop n (a ^^^ a') b (v ^^^ v') = gfmulLoop n a b v ^^^ gfmulLoop n a' b v' := by
  induction n generalizing a a' b v v' with
  | zero => rfl
  | succ n ih =>
    simp only [gfmulLoop_succ, double_additive a a', ← ih]
    congr 1
    cases b.getLsbD 0
    · simp
    · ac_rfl

theorem gfmulLoop_right (a b b' v v' : Byte) :
    gfmulLoop n a (b ^^^ b') (v ^^^ v') = gfmulLoop n a b v ^^^ gfmulLoop n a b' v' := by
  induction n generalizing a b b' v v' with
  | zero => rfl
  | succ n ih =>
    simp only [gfmulLoop_succ, BitVec.ushiftRight_xor_distrib, BitVec.getLsbD_xor, ite_xor, ← ih]
    congr 1
    ac_rfl

theorem gfmul_left (b : Byte) : Additive fun a => gfmul a b := by
  intro a a'
  exact gfmulLoop_left 8 a a' b 0 0

theorem gfmul_right (a : Byte) : Additive (gfmul a) := by
  intro b b'
  exact gfmulLoop_right 8 a b b' 0 0

theorem gfmul_comm (a b : Byte) : gfmul a b = gfmul b a := by
  refine (gfmul_left b).ext (gfmul_right b) (fun i hi => ?_) a
  refine (gfmul_right _).ext (gfmul_left _) (fun j hj => ?_) b
  revert i j
  decide

theorem gfmul_assoc (a b c : Byte) : gfmul (gfmul a b) c = gfmul a (gfmul b c) := by
  refine ((gfmul_left c).comp (gfmul_left b)).ext (gfmul_left (gfmul b c)) (fun i hi => ?_) a
  refine ((gfmul_left c).comp (gfmul_right _)).ext ((gfmul_right _).comp (gfmul_left c)) (fun j hj => ?_) b
  refine (gfmul_right _).ext ((gfmul_right _).comp (gfmul_right _)) (fun k hk => ?_) c
  revert i j k
  decide +kernel

theorem gfmul_one (a : Byte) : gfmul a 1 = a := by
  have hid : Additive fun a : Byte => a := fun _ _ => rfl
  refine (gfmul_left 1).ext hid (fun i hi => ?_) a
  revert i
  decide

theorem gfmul_two (a : Byte) : gfmul a 2 = double a := by
  refine (gfmul_left 2).ext double_additive (fun i hi => ?_) a
  revert i
  decide

end Linear

-- from here on products and inverses are known by their laws only
attribute [irreducible] gfmul gfinv

/-- The elements of the field in which `gfmul` multiplies. -/
@[ext]
structure Gf where
  byte : Byte
deriving DecidableEq

namespace Gf

instance : Zero Gf := ⟨⟨0⟩⟩

instance : One Gf := ⟨⟨1⟩⟩

instance : Add Gf := ⟨fun x y => ⟨x.byte ^^^ y.byte⟩⟩

instance : Neg Gf := ⟨fun x => x⟩

instance : Mul Gf := ⟨fun x y => ⟨gfmul x.byte y.byte⟩⟩

instance : Inv Gf := ⟨fun x => ⟨gfinv x.byte⟩⟩

@[simp] theorem one_byte : (1 : Gf).byte = 1 := rfl

@[simp] theorem add_byte (x y : Gf) : (x + y).byte = x.byte ^^^ y.byte := rfl

@[simp] theorem mul_byte (x y : Gf) : (x * y).byte = gfmul x.byte y.byte := rfl

@[simp] theorem inv_byte (x : Gf) : x⁻¹.byte = gfinv x.byte := rfl

instance : CommRing Gf where
  add_assoc x y z := Gf.ext (BitVec.xor_assoc ..)
  zero_add x := Gf.ext (BitVec.zero_xor ..)
  add_zero x := Gf.ext (BitVec.xor_zero ..)
  add_comm x y := Gf.ext (BitVec.xor_comm ..)
  neg_add_cancel x := Gf.ext (BitVec.xor_self ..)
  mul_assoc x y z := Gf.ext (gfmul_assoc ..)
  mul_comm x y := Gf.ext (gfmul_comm ..)
  one_mul x := Gf.ext ((gfmul_comm ..).trans (gfmul_one _))
  mul_one x := Gf.ext (gfmul_one _)
  left_distrib x y z := Gf.ext (gfmul_right _ _ _)
  right_distrib x y z := Gf.ext (gfmul_left _ _ _)
  zero_mul x := Gf.ext (gfmul_left x.byte).zero
  mul_zero x := Gf.ext (gfmul_right x.byte).zero
  nsmul := nsmulRec
  zsmul := zsmulRec

instance : Nontrivial Gf := ⟨0, 1, fun h => absurd (congrArg byte h) (by decide)⟩

section Powers

theorem gfpowLoop_eq (n : ℕ) (a v : Gf) {b : ℕ} (hb : b < 2 ^ n) :
    gfpowLoop n a.byte b v.byte = (v * a ^ b).byte := by
  induction n generalizing a v b with
  | zero =>
    obtain rfl : b = 0 := by omega
    rw [pow_zero, mul_one, gfpowLoop]
  | succ n ih =>
    rw [gfpowLoop]
    by_cases h0 : b = 0
    · rw [if_pos h0, h0, pow_zero, mul_one]
    rw [if_neg h0, ← mul_byte]
    have hhalf : b / 2 < 2 ^ n := by omega
    -- the square is raised to half the exponent
    have hpow : a ^ b = a ^ (b % 2) * (a * a) ^ (b / 2) := by
      rw [← sq, ← pow_mul, ← pow_add, Nat.mod_add_div]
    rcases Nat.mod_two_eq_zero_or_one b with hbit | hbit
    · rw [if_neg (by omega), ih (a * a) v hhalf, hpow, hbit, pow_zero, one_mul]
    · rw [if_pos hbit, ← mul_byte, ih (a * a) (v * a) hhalf, hpow, hbit, pow_one, mul_assoc]

theorem inv_eq_pow (x : Gf) : x⁻¹ = x ^ 254 := by
  apply Gf.ext
  rw [inv_byte, gfinv, gfpow]
  have hpow := gfpowLoop_eq 8 x 1 (show 254 < 2 ^ 8 by decide)
  rw [one_mul] at hpow
  exact hpow

def two : Gf := ⟨2⟩

theorem orderOf_two : orderOf two = 255 := by
  apply orderOf_eq_of_pow_and_pow_div_prime (by decide)
  · apply Gf.ext
    decide +kernel
  · intro p hp hdvd h1
    have hbyte := congrArg byte h1
    have hcases : p = 3 ∨ p = 5 ∨ p = 17 := by
      rcases (Nat.Prime.dvd_mul hp).mp (show p ∣ 3 * 85 from hdvd) with h | h
      · exact Or.inl ((Nat.prime_dvd_prime_iff_eq hp Nat.prime_three).mp h)
      rcases (Nat.Prime.dvd_mul hp).mp (show p ∣ 5 * 17 from h) with h | h
      · exact Or.inr (Or.inl ((Nat.prime_dvd_prime_iff_eq hp Nat.prime_five).mp h))
      · exact Or.inr (Or.inr ((Nat.prime_dvd_prime_iff_eq hp (by decide)).mp h))
    rcases hcases with rfl | rfl | rfl
    all_goals
      revert hbyte
      decide +kernel

theorem two_pow_ne_one {k : ℕ} (hpos : k ≠ 0) (hk : k < 255) : two ^ k ≠ 1 :=
  pow_ne_one_of_lt_orderOf hpos (orderOf_two ▸ hk)

theorem two_pow_eq_one : two ^ 255 = 1 := orderOf_two ▸ pow_orderOf_eq_one two

theorem isUnit_two : IsUnit two := IsUnit.of_pow_eq_one two_pow_eq_one (by decide)

instance : Fintype Gf :=
  Fintype.ofEquiv (Fin (2 ^ 8)) ⟨fun i => ⟨⟨i⟩⟩, fun x => x.byte.toFin, fun _ => rfl, fun _ => rfl⟩

theorem card_eq : Fintype.card Gf = 256 := (Fintype.ofEquiv_card _).trans (Fintype.card_fin _)

theorem exists_two_pow {x : Gf} (hx : x ≠ 0) : ∃ k, two ^ k = x := by
  let f : Fin 255 → { y : Gf // y ≠ 0 } := fun k => ⟨two ^ (k : ℕ), (isUnit_two.pow k).ne_zero⟩
  have hinj : Function.Injective f := by
    intro i j hij
    obtain ⟨u, hu⟩ := isUnit_two
    have hpow : two ^ (i : ℕ) = two ^ (j : ℕ) := congrArg Subtype.val hij
    rw [← hu, ← Units.val_pow_eq_pow_val, ← Units.val_pow_eq_pow_val] at hpow
    have hmod := pow_eq_pow_iff_modEq.mp (Units.ext hpow)
    rw [← orderOf_units, hu, orderOf_two] at hmod
    exact Fin.ext (hmod.eq_of_lt_of_lt i.2 j.2)
  have hcard : Fintype.card (Fin 255) = Fintype.card { y : Gf // y ≠ 0 } := by
    rw [Fintype.card_fin, Fintype.card_subtype_compl, card_eq, Fintype.card_unique]
  obtain ⟨k, hk⟩ := ((Fintype.bijective_iff_injective_and_card f).mpr ⟨hinj, hcard⟩).2 ⟨x, hx⟩
  exact ⟨k, congrArg Subtype.val hk⟩

end Powers

instance : Field Gf where
  inv_zero := by rw [inv_eq_pow, zero_pow (by decide)]
  mul_inv_cancel x hx := by
    obtain ⟨k, rfl⟩ := exists_two_pow hx
    rw [inv_eq_pow, ← pow_succ', ← pow_mul, Nat.mul_comm, pow_mul, two_pow_eq_one, one_pow]
  nnqsmul := _
  qsmul := _
  nnqsmul_def := fun _ _ => rfl
  qsmul_def := fun _ _ => rfl

instance : CharP Gf 2 := by
  apply CharTwo.of_one_ne_zero_of_two_eq_zero one_ne_zero
  rw [← one_add_one_eq_two]
  exact Gf.ext BitVec.xor_self

theorem gfexp_eq {i : ℕ} (hi : i < 255) : gfexp i = (two ^ i).byte := by
  induction i with
  | zero => rfl
  | succ i ih =>
    have hnext : gfmul (gfexp i) 2 = (two ^ (i + 1)).byte := by
      rw [ih (by omega), pow_succ, mul_byte, two]
    -- the powers come back to one at 255 only
    have hne : (two ^ (i + 1)).byte ≠ 1 := fun h => two_pow_ne_one (Nat.succ_ne_zero i) hi (Gf.ext h)
    rw [gfexp, hnext, if_neg hne]

theorem gfexi_eq {k : ℕ} (hk : k < 255) : gfexi k = ((two ^ k + 1)⁻¹ : Gf).byte := by
  rw [gfexi, gfexp_eq hk, inv_byte, add_byte, one_byte]

end Gf

variable {n : ℕ}

def nbytes (n : ℕ) (x : Byte) : BitVec (8 * n) := x.setWidth (8 * n) * ofBytes n (fun _ => 1) n

example : ofBytes 4 (fun _ => 1) 4 = 0x01010101#32 := by decide

example : ofBytes 8 (fun _ => 1) 8 = 0x0101010101010101#64 := by decide

def shlbyte (v : BitVec (8 * n)) : BitVec (8 * n) := (v <<< 1) &&& nbytes n 0xfe

def mask (v : BitVec (8 * n)) : BitVec (8 * n) :=
  let vv := v &&& nbytes n 0x80
  (vv <<< 1) - (vv >>> 7)

theorem nbytes_eq (x : Byte) : nbytes n x = ofBytes n (fun _ => x) n :=
  mul_ofBytes x (fun _ => true) n

theorem byteAt_nbytes (x : Byte) {i : ℕ} (hi : i < n) : byteAt (nbytes n x) i = x := by
  rw [nbytes_eq, byteAt_ofBytes _ hi]

theorem getLsbD_nbytes (x : Byte) {j : ℕ} (hj : j < 8 * n) :
    (nbytes n x).getLsbD j = x.getLsbD (j % 8) := by
  rw [nbytes_eq, getLsbD_ofBytes _ hj]
  simp [hj]

variable (v : BitVec (8 * n))

theorem byteAt_shlbyte {i : ℕ} (hi : i < n) : byteAt (shlbyte v) i = byteAt v i <<< 1 := by
  have hfe : ∀ j < 8, (0xfe : Byte).getLsbD j = decide (j ≠ 0) := by decide
  apply BitVec.eq_of_getLsbD_eq
  intro j hj
  have hj8 : 8 * i + j < 8 * n := by omega
  rw [getLsbD_byteAt, shlbyte, BitVec.getLsbD_and, getLsbD_nbytes _ hj8, BitVec.getLsbD_shiftLeft,
    BitVec.getLsbD_shiftLeft, getLsbD_byteAt, Nat.mul_add_mod, Nat.mod_eq_of_lt hj, hfe j hj]
  cases j with
  | zero => simp
  | succ j =>
    have hsub : 8 * i + (j + 1) - 1 = 8 * i + j := by omega
    simp [hj, hj8, hsub, show j < 8 by omega, -Nat.add_sub_cancel]

theorem and_shiftRight_eq :
    (v &&& nbytes n 0x80) >>> 7 = ofBytes n (fun i => if (byteAt v i).getLsbD 7 then 1 else 0) n := by
  have h80 : ∀ j < 8, (0x80 : Byte).getLsbD j = decide (j = 7) := by decide
  apply BitVec.eq_of_getLsbD_eq
  intro j hj
  rw [getLsbD_ofBytes _ hj, BitVec.getLsbD_ushiftRight, BitVec.getLsbD_and, getLsbD_byteAt]
  by_cases hend : 7 + j < 8 * n
  · rw [getLsbD_nbytes _ hend, h80 _ (by omega)]
    by_cases hlow : j % 8 = 0
    · have hpos : 8 * (j / 8) + 7 = 7 + j := by omega
      rw [hpos]
      cases v.getLsbD (7 + j) <;> simp [hlow, hj, show (7 + j) % 8 = 7 by omega]
    · cases v.getLsbD (8 * (j / 8) + 7) <;> simp [hlow, show (7 + j) % 8 ≠ 7 by omega]
  · have hout : j % 8 ≠ 0 := by omega
    rw [BitVec.getLsbD_of_ge v (7 + j) (by omega)]
    cases v.getLsbD (8 * (j / 8) + 7) <;> simp [hout]

theorem mask_eq : mask v = ofBytes n (fun i => if (byteAt v i).getLsbD 7 then 0xff else 0) n := by
  have h80 : ∀ j < 8, (0x80 : Byte).getLsbD j = decide (j = 7) := by decide
  have hshift : (v &&& nbytes n 0x80) <<< 1 = ((v &&& nbytes n 0x80) >>> 7) <<< 8 := by
    apply BitVec.eq_of_getLsbD_eq
    intro j hj
    rw [BitVec.getLsbD_shiftLeft, BitVec.getLsbD_shiftLeft, BitVec.getLsbD_ushiftRight]
    by_cases hlow : j < 8
    · by_cases h0 : j = 0
      · simp [h0]
      · rw [BitVec.getLsbD_and, getLsbD_nbytes _ (show j - 1 < 8 * n by omega), h80 _ (by omega)]
        simp [hlow, show (j - 1) % 8 ≠ 7 by omega]
    · simp [hlow, hj, show ¬ j < 1 by omega, show 7 + (j - 8) = j - 1 by omega]
  have hff : (0xff : Byte).setWidth (8 * n) = 255 := by
    apply BitVec.eq_of_toNat_eq
    simp
  have h256 : BitVec.twoPow (8 * n) 8 = 256 := by
    apply BitVec.eq_of_toNat_eq
    simp
  rw [← mul_ofBytes, ← and_shiftRight_eq, mask, hshift, BitVec.shiftLeft_eq_mul_twoPow, hff, h256]
  ring

theorem byteAt_mask {i : ℕ} (hi : i < n) :
    byteAt (mask v) i = if (byteAt v i).getLsbD 7 then 0xff else 0 := by
  rw [mask_eq, byteAt_ofBytes _ hi]

theorem byteAt_double {i : ℕ} (hi : i < n) :
    byteAt (shlbyte v ^^^ (mask v &&& nbytes n 0x1d)) i = double (byteAt v i) := by
  have hmsb : ∀ a : Byte, (a &&& 0x80 ≠ 0) ↔ a.getLsbD 7 = true := by decide
  rw [byteAt_xor, byteAt_and, byteAt_shlbyte v hi, byteAt_mask v hi, byteAt_nbytes _ hi, double]
  simp only [hmsb]
  cases (byteAt v i).getLsbD 7 <;> rfl

end VDLinux.Drivers.Raid6
