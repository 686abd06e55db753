import VDLinux.Base.BitPolynomial
import VDLinux.Base.XorLinear

namespace VDLinux.Crypto

open VDLinux.Base.XorLinear VDLinux.Base.BitPolynomial Finset

/-- The sixteen bytes of a `be128` in memory, the first one in the highest place. -/
abbrev Be128 := BitVec 128

/-- `be64_to_cpu(x->a)`, `be64_to_cpu(x->b)` and the bytes of the value. -/
def Be128.a (x : Be128) : BitVec 64 := x.extractLsb' 64 64

def Be128.b (x : Be128) : BitVec 64 := x.extractLsb' 0 64

def Be128.byte (x : Be128) (i : ℕ) : BitVec 8 := (x >>> (120 - 8 * i)).setWidth 8

/-- Whether the bits in a byte and the bytes are in the little or in the big endian order. -/
inductive BitOrder where
  | lle | bbe
  deriving DecidableEq, Repr

def xdaBbe (i : BitVec 8) : BitVec 16 :=
  (if i.getLsbD 7 then 0x4380 else 0) ^^^ (if i.getLsbD 6 then 0x21c0 else 0) ^^^
  (if i.getLsbD 5 then 0x10e0 else 0) ^^^ (if i.getLsbD 4 then 0x0870 else 0) ^^^
  (if i.getLsbD 3 then 0x0438 else 0) ^^^ (if i.getLsbD 2 then 0x021c else 0) ^^^
  (if i.getLsbD 1 then 0x010e else 0) ^^^ (if i.getLsbD 0 then 0x0087 else 0)

def xdaLle (i : BitVec 8) : BitVec 16 :=
  (if i.getLsbD 7 then 0xe100 else 0) ^^^ (if i.getLsbD 6 then 0x7080 else 0) ^^^
  (if i.getLsbD 5 then 0x3840 else 0) ^^^ (if i.getLsbD 4 then 0x1c20 else 0) ^^^
  (if i.getLsbD 3 then 0x0e10 else 0) ^^^ (if i.getLsbD 2 then 0x0708 else 0) ^^^
  (if i.getLsbD 1 then 0x0384 else 0) ^^^ (if i.getLsbD 0 then 0x01c2 else 0)

/-- The functions that multiply by `x` and by `x^8` shift by one bit and by eight. -/
def shiftLle (k : ℕ) (x : Be128) : Be128 :=
  let tt := (xdaLle ((x.b <<< (8 - k)).setWidth 8)).setWidth 64
  (x.a >>> k ^^^ tt <<< 48) ++ (x.b >>> k ||| x.a <<< (64 - k))

def shiftBbe (k : ℕ) (x : Be128) : Be128 :=
  let tt := (xdaBbe ((x.a >>> (64 - k)).setWidth 8)).setWidth 64
  (x.a <<< k ||| x.b >>> (64 - k)) ++ (x.b <<< k ^^^ tt)

def gf128mulXLle : Be128 → Be128 := shiftLle 1

def gf128mulXBbe : Be128 → Be128 := shiftBbe 1

def gf128mulX8Lle : Be128 → Be128 := shiftLle 8

def gf128mulX8Bbe : Be128 → Be128 := shiftBbe 8

def gf128mulX : BitOrder → Be128 → Be128
  | .lle => gf128mulXLle
  | .bbe => gf128mulXBbe

def gf128mulX8 : BitOrder → Be128 → Be128
  | .lle => gf128mulX8Lle
  | .bbe => gf128mulX8Bbe

/-- The byte in memory that has the coefficients from `8 * n` on. -/
def BitOrder.place : BitOrder → ℕ → ℕ
  | .lle, n => n
  | .bbe, n => 15 - n

/-- The index of the power that goes with the `k`-th mask, of which `0x80` is the first. -/
def BitOrder.slot : BitOrder → ℕ → ℕ
  | .lle, k => k
  | .bbe, k => 7 - k

def powers (o : BitOrder) (r : Be128) : ℕ → Be128
  | 0 => r
  | i + 1 => gf128mulX o (powers o r i)

def addByte (o : BitOrder) (p : ℕ → Be128) (ch : BitVec 8) (r : Be128) : Be128 :=
  (List.range 8).foldl (fun r k => if ch.getMsbD k then r ^^^ p (o.slot k) else r) r

/-- The bytes from the highest coefficients down; the first one is added before the loop. -/
def horner (o : BitOrder) (add : BitVec 8 → Be128 → Be128) (b : Be128) : ℕ → Be128 → Be128
  | 0, r => r
  | n + 1, r => horner o add b n (add (b.byte (o.place n)) (gf128mulX8 o r))

/-- `memset(r, 0, n)`. -/
def clear (n : ℕ) (r : Be128) : Be128 := (r.setWidth (128 - 8 * n)).setWidth 128

/-- The size of `r` that is cleared is that of the pointer. -/
def gf128mul (o : BitOrder) (sizeofPtr : ℕ) (r b : Be128) : Be128 :=
  let add := addByte o (powers o r)
  horner o add b 15 (add (b.byte (o.place 15)) (clear sizeofPtr r))

def gf128mulLle : ℕ → Be128 → Be128 → Be128 := gf128mul .lle

def gf128mulBbe : ℕ → Be128 → Be128 → Be128 := gf128mul .bbe

theorem xdaLle_xor (x y : BitVec 8) : xdaLle (x ^^^ y) = xdaLle x ^^^ xdaLle y := by
  simp only [xdaLle, BitVec.getLsbD_xor, ite_xor]
  ac_rfl

theorem xdaBbe_xor (x y : BitVec 8) : xdaBbe (x ^^^ y) = xdaBbe x ^^^ xdaBbe y := by
  simp only [xdaBbe, BitVec.getLsbD_xor, ite_xor]
  ac_rfl

theorem ushiftRight_or_shiftLeft (u v : BitVec 64) {k m : ℕ} (h : 64 ≤ k + m) :
    u >>> k ||| v <<< m = u >>> k ^^^ v <<< m := by
  apply BitVec.eq_of_getLsbD_eq
  intro i hi
  rw [BitVec.getLsbD_or, BitVec.getLsbD_xor, BitVec.getLsbD_ushiftRight, BitVec.getLsbD_shiftLeft]
  by_cases hm : i < m
  · simp [hm]
  · rw [BitVec.getLsbD_of_ge u _ (by omega), Bool.false_or, Bool.false_xor]

theorem additive_a : Additive Be128.a := fun _ _ => BitVec.extractLsb'_xor

theorem additive_b : Additive Be128.b := fun _ _ => BitVec.extractLsb'_xor

theorem additive_shiftLle (k : ℕ) : Additive (shiftLle k) := by
  have htable := Additive.comp xdaLle_xor
    (additive_setWidth.comp ((additive_shiftLeft (8 - k)).comp additive_b))
  have hfunnel : ∀ x : Be128, x.b >>> k ||| x.a <<< (64 - k) = x.b >>> k ^^^ x.a <<< (64 - k) :=
    fun x => ushiftRight_or_shiftLeft _ _ (by omega)
  unfold shiftLle
  simp only [hfunnel]
  exact (((additive_ushiftRight k).comp additive_a).xor
      ((additive_shiftLeft 48).comp (additive_setWidth.comp htable))).append
    (((additive_ushiftRight k).comp additive_b).xor ((additive_shiftLeft (64 - k)).comp additive_a))

theorem additive_shiftBbe (k : ℕ) : Additive (shiftBbe k) := by
  have htable := Additive.comp xdaBbe_xor
    (additive_setWidth.comp ((additive_ushiftRight (64 - k)).comp additive_a))
  have hfunnel : ∀ x : Be128, x.a <<< k ||| x.b >>> (64 - k) = x.b >>> (64 - k) ^^^ x.a <<< k :=
    fun x => (BitVec.or_comm ..).trans (ushiftRight_or_shiftLeft _ _ (by omega))
  unfold shiftBbe
  simp only [hfunnel]
  exact (((additive_ushiftRight (64 - k)).comp additive_b).xor
      ((additive_shiftLeft k).comp additive_a)).append
    (((additive_shiftLeft k).comp additive_b).xor (additive_setWidth.comp htable))

/-! The field the values stand for. -/

open Polynomial

/-- The bit that is the coefficient of `x^i`. -/
def BitOrder.bit {w : ℕ} : BitOrder → BitVec w → ℕ → Bool
  | .lle, v => v.getMsbD
  | .bbe, v => v.getLsbD

def BitOrder.unit (o : BitOrder) (w i : ℕ) : BitVec w :=
  BitVec.twoPow w (match o with
    | .lle => w - 1 - i
    | .bbe => i)

noncomputable def poly (o : BitOrder) {w : ℕ} (v : BitVec w) : (ZMod 2)[X] := bitPoly w (o.bit v)

@[irreducible] noncomputable def modulus : (ZMod 2)[X] := X ^ 128 + X ^ 7 + X ^ 2 + X + 1

/-- The class of a value in the field. -/
noncomputable def val (o : BitOrder) {w : ℕ} (v : BitVec w) : AdjoinRoot modulus :=
  AdjoinRoot.mk modulus (poly o v)

noncomputable def x : AdjoinRoot modulus := AdjoinRoot.root modulus

variable (o : BitOrder) {w : ℕ}

theorem bit_unit {i j : ℕ} (hi : i < w) (hj : j < w) : o.bit (o.unit w i) j = decide (j = i) := by
  cases o with
  | lle =>
    have hplace : w - 1 - i < w ∧ (w - 1 - i = w - 1 - j ↔ j = i) := by omega
    simp [BitOrder.bit, BitOrder.unit, BitVec.getMsbD_eq_getLsbD, hj, hplace]
  | bbe =>
    simp [BitOrder.bit, BitOrder.unit, hi, eq_comm]

theorem val_xor (u v : BitVec w) : val o (u ^^^ v) = val o u + val o v := by
  have hbit : o.bit (u ^^^ v) = fun i => o.bit u i ^^ o.bit v i := by
    funext i
    cases o with
    | lle => exact BitVec.getMsbD_xor
    | bbe => exact BitVec.getLsbD_xor
  rw [val, poly, hbit, bitPoly_xor, map_add]
  rfl

theorem val_unit {i : ℕ} (hi : i < w) : val o (o.unit w i) = x ^ i := by
  rw [val, poly, bitPoly_congr (fun j hj => bit_unit o hi hj), bitPoly_single hi, map_pow,
    AdjoinRoot.mk_X, x]

theorem val_zero : val o (0 : BitVec w) = 0 := by
  simpa using val_xor o (0 : BitVec w) 0

theorem modulus_eq : modulus = X ^ 128 + X ^ 7 + X ^ 2 + X + 1 := by
  delta modulus
  rfl

theorem two_eq_zero : (2 : AdjoinRoot modulus) = 0 := by
  rw [← map_ofNat (AdjoinRoot.of modulus) 2, show (OfNat.ofNat 2 : ZMod 2) = 0 from rfl, map_zero]

theorem x_pow : x ^ 128 = x ^ 7 + x ^ 2 + x + 1 := by
  have h := (congrArg (AdjoinRoot.mk modulus) modulus_eq).symm.trans AdjoinRoot.mk_self
  simp only [map_add, map_pow, map_one, AdjoinRoot.mk_X] at h
  change x ^ 128 + x ^ 7 + x ^ 2 + x + 1 = 0 at h
  linear_combination h - (x ^ 7 + x ^ 2 + x + 1) * two_eq_zero

def shift : BitOrder → ℕ → Be128 → Be128
  | .lle => shiftLle
  | .bbe => shiftBbe

theorem additive_shift (k : ℕ) : Additive (shift o k) := by
  cases o with
  | lle => exact additive_shiftLle k
  | bbe => exact additive_shiftBbe k

theorem shift_unit : ∀ k ∈ [1, 8],
    (∀ i < 128 - k, shift o k (o.unit 128 i) = o.unit 128 (i + k)) ∧
    ∀ m < k, shift o k (o.unit 128 (m + 128 - k)) =
      o.unit 128 (m + 7) ^^^ o.unit 128 (m + 2) ^^^ o.unit 128 (m + 1) ^^^ o.unit 128 m := by
  cases o <;> decide +kernel

theorem twoPow_eq_unit {i : ℕ} (hi : i < w) : ∃ j < w, BitVec.twoPow w i = o.unit w j := by
  cases o with
  | lle => exact ⟨w - 1 - i, by omega, congrArg _ (by dsimp only; omega)⟩
  | bbe => exact ⟨i, hi, rfl⟩

theorem val_shift {k : ℕ} (hk : k ∈ [1, 8]) (v : Be128) : val o (shift o k v) = x ^ k * val o v := by
  induction v using xor_induction with
  | hzero => rw [(additive_shift o k).zero, val_zero, mul_zero]
  | hxor u v hu hv => rw [additive_shift o k, val_xor, val_xor, hu, hv, mul_add]
  | hpow i hi =>
    obtain ⟨j, hj, hij⟩ := twoPow_eq_unit o hi
    have hbound : k ≤ 8 := by revert k; decide
    obtain ⟨hlow, hhigh⟩ := shift_unit o k hk
    rw [hij, val_unit o hj, ← pow_add]
    by_cases hlt : j < 128 - k
    · rw [hlow j hlt, val_unit o (by omega), Nat.add_comm]
    · obtain ⟨m, hm, rfl⟩ : ∃ m < k, j = m + 128 - k := ⟨j + k - 128, by omega, by omega⟩
      have hpow : k + (m + 128 - k) = m + 128 := by omega
      rw [hhigh m hm, val_xor, val_xor, val_xor, hpow, pow_add, x_pow]
      repeat rw [val_unit o (by omega)]
      ring

theorem val_gf128mulX (v : Be128) : val o (gf128mulX o v) = x * val o v := by
  have h := val_shift o (k := 1) (by decide) v
  rw [pow_one] at h
  cases o <;> exact h

theorem val_gf128mulX8 (v : Be128) : val o (gf128mulX8 o v) = x ^ 8 * val o v := by
  have h := val_shift o (k := 8) (by decide) v
  cases o <;> exact h

theorem val_powers (r : Be128) (k : ℕ) : val o (powers o r k) = x ^ k * val o r := by
  induction k with
  | zero => rw [powers, pow_zero, one_mul]
  | succ k ih => rw [powers, val_gf128mulX, ih, pow_succ', mul_assoc]

theorem val_eq_sum (v : BitVec w) :
    val o v = ∑ k ∈ Finset.range w, if o.bit v k then x ^ k else 0 := by
  rw [val, poly, bitPoly, map_sum]
  refine sum_congr rfl fun k _ => ?_
  rw [apply_ite (AdjoinRoot.mk modulus), map_pow, AdjoinRoot.mk_X, map_zero, x]

theorem val_addByte {p : ℕ → Be128} {G : AdjoinRoot modulus} (hp : ∀ k, val o (p k) = x ^ k * G)
    (ch : BitVec 8) (r : Be128) : val o (addByte o p ch r) = val o r + val o ch * G := by
  have hstep : ∀ n, val o ((List.range n).foldl
      (fun r k => if ch.getMsbD k then r ^^^ p (o.slot k) else r) r) =
      val o r + ∑ k ∈ Finset.range n, if ch.getMsbD k then x ^ o.slot k * G else 0 := by
    intro n
    induction n with
    | zero => simp
    | succ n ih =>
      rw [List.range_succ, List.foldl_append, List.foldl_cons, List.foldl_nil, sum_range_succ,
        ← add_assoc, ← ih]
      split
      · rw [val_xor, hp]
      · rw [add_zero]
  rw [addByte, hstep, val_eq_sum o ch, sum_mul]
  simp only [ite_mul, zero_mul]
  congr 1
  cases o with
  | lle => rfl
  | bbe =>
    rw [← sum_range_reflect]
    refine sum_congr rfl fun k hk => ?_
    have hk : k < 8 := mem_range.1 hk
    have hslot : 7 - (7 - k) = k := by omega
    refine if_congr ?_ (congrArg (x ^ · * G) hslot) rfl
    simp [BitOrder.bit, BitVec.getMsbD_eq_getLsbD, hslot, Nat.lt_succ_of_le]

theorem bit_byte {n k : ℕ} (hn : n < 16) (hk : k < 8) (v : Be128) :
    o.bit v (8 * n + k) = o.bit (v.byte (o.place n)) k := by
  cases o with
  | lle =>
    have hplace : 128 - 1 - (8 * n + k) = 120 - 8 * n + (8 - 1 - k) := by omega
    have hrange : 8 * n + k < 128 ∧ 8 - 1 - k < 8 := by omega
    simp only [BitOrder.bit, BitOrder.place, Be128.byte, BitVec.getMsbD_eq_getLsbD, hplace, hk, hrange,
      BitVec.getLsbD_setWidth, BitVec.getLsbD_ushiftRight, decide_true, Bool.true_and]
  | bbe =>
    have hplace : 120 - 8 * (15 - n) = 8 * n := by omega
    simp [BitOrder.bit, BitOrder.place, Be128.byte, hplace, hk]

/-- The value is that of its bytes. -/
theorem val_bytes (v : Be128) :
    val o v = ∑ n ∈ Finset.range 16, x ^ (8 * n) * val o (v.byte (o.place n)) := by
  rw [val, poly, bitPoly_blocks (n := 16) 8, map_sum]
  refine sum_congr rfl fun n hn => ?_
  rw [map_mul, map_pow, AdjoinRoot.mk_X,
    bitPoly_congr fun k hk => bit_byte o (mem_range.1 hn) hk v]
  rfl

theorem val_horner {add : BitVec 8 → Be128 → Be128} {G : AdjoinRoot modulus}
    (hadd : ∀ ch r, val o (add ch r) = val o r + val o ch * G) (b : Be128) (n : ℕ) (r : Be128) :
    val o (horner o add b n r) = x ^ (8 * n) * val o r +
      (∑ j ∈ Finset.range n, x ^ (8 * j) * val o (b.byte (o.place j))) * G := by
  induction n generalizing r with
  | zero => simp [horner]
  | succ n ih =>
    rw [horner, ih, hadd, val_gf128mulX8, sum_range_succ, Nat.mul_succ, pow_add]
    ring

/-- The whole scheme over the bytes of `b`. -/
theorem val_scheme {add : BitVec 8 → Be128 → Be128} {G : AdjoinRoot modulus}
    (hadd : ∀ ch r, val o (add ch r) = val o r + val o ch * G) (b r : Be128) :
    val o (horner o add b 15 (add (b.byte (o.place 15)) r)) = x ^ 120 * val o r + val o b * G := by
  rw [val_horner o hadd, hadd, val_bytes o b, sum_range_succ _ 15]
  ring

theorem val_gf128mul (n : ℕ) (r b : Be128) :
    val o (gf128mul o n r b) = x ^ 120 * val o (clear n r) + val o b * val o r :=
  val_scheme o (val_addByte o (val_powers o r)) b _

theorem monic_modulus : modulus.Monic := by
  rw [modulus_eq]
  monicity!

theorem degree_modulus : modulus.degree = 128 := by
  rw [modulus_eq]
  compute_degree!

/-- A value is the remainder of the polynomial whose class it has. -/
theorem poly_eq_modByMonic_iff (v : Be128) (p : (ZMod 2)[X]) :
    poly o v = p %ₘ modulus ↔ val o v = AdjoinRoot.mk modulus p := by
  have hself : poly o v %ₘ modulus = poly o v := by
    rw [modByMonic_eq_self_iff monic_modulus, degree_modulus]
    exact degree_bitPoly_lt _
  constructor
  · intro h
    rw [val, h, AdjoinRoot.mk_eq_mk, modByMonic_eq_sub_mul_div, sub_sub_cancel_left, dvd_neg]
    exact dvd_mul_right _ _
  · intro h
    rw [← hself, modByMonic_eq_of_dvd_sub monic_modulus (AdjoinRoot.mk_eq_mk.1 h)]

theorem val_injective : Function.Injective fun v : Be128 => val o v := by
  intro u v h
  have hpoly : poly o u = poly o v := ((poly_eq_modByMonic_iff o u (poly o v)).2 h).trans
    ((poly_eq_modByMonic_iff o v (poly o v)).2 rfl).symm
  cases o with
  | lle => exact BitVec.eq_of_getMsbD_eq fun i hi => bitPoly_injective hpoly hi
  | bbe => exact BitVec.eq_of_getLsbD_eq fun i hi => bitPoly_injective hpoly hi

theorem val_eq_zero_iff (v : Be128) : val o v = 0 ↔ v = 0 := (val_injective o).eq_iff' (val_zero o)

theorem isUnit_x : IsUnit x :=
  IsUnit.of_mul_eq_one (x ^ 127 + x ^ 6 + x + 1)
    (by linear_combination x_pow + (x ^ 7 + x ^ 2 + x) * two_eq_zero)

/-- The product is right if nothing of the factor is left by the `memset`. -/
theorem gf128mul_eq_iff (o : BitOrder) (sizeofPtr : ℕ) (a b : Be128) :
    poly o (gf128mul o sizeofPtr a b) = (poly o a * poly o b) %ₘ modulus ↔ clear sizeofPtr a = 0 := by
  rw [poly_eq_modByMonic_iff, map_mul, val_gf128mul, mul_comm (val o b), ← val_eq_zero_iff o]
  change _ + val o a * val o b = val o a * val o b ↔ _
  rw [add_eq_right, (isUnit_x.pow 120).mul_right_eq_zero]

theorem gf128mulLle_leftover :
    poly .lle (gf128mulLle 8 1 0) ≠ (poly .lle (1 : Be128) * poly .lle (0 : Be128)) %ₘ modulus := by
  rw [Ne, poly_eq_modByMonic_iff, map_mul]
  change ¬ val .lle _ = val .lle (1 : Be128) * val .lle (0 : Be128)
  rw [val_zero, mul_zero, val_eq_zero_iff]
  decide +kernel

end VDLinux.Crypto
