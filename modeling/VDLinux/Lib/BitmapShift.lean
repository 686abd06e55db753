import Mathlib

namespace VDLinux.Lib.BitmapShift

open Function List

variable {w : ℕ}

/-- An array of longs of `w` bits. -/
abbrev Words (w : ℕ) := ℕ → BitVec w

def bitsToLongs (w bits : ℕ) : ℕ := (bits + w - 1) / w

/-- The mask for word number `k`, if it is the last one and not full. -/
def trim (bits k : ℕ) (x : BitVec w) : BitVec w :=
  if bits % w ≠ 0 ∧ k = bitsToLongs w bits - 1 then x &&& (1#w <<< (bits % w) - 1#w) else x

def memset (dst : Words w) (first n : ℕ) : Words w :=
  fun k => if first ≤ k ∧ k < first + n then 0 else dst k

def rightWord (src : Words w) (shift bits k : ℕ) : BitVec w :=
  let off := shift / w
  let rem := shift % w
  let upper := if rem = 0 ∨ bitsToLongs w bits ≤ off + k + 1 then 0
    else trim bits (off + k + 1) (src (off + k + 1))
  let lower := trim bits (off + k) (src (off + k))
  trim bits k (upper <<< (w - rem) ||| lower >>> rem)

/-- The first `n` words. Without a `src` the bitmap is shifted in place. -/
def rightLoop (src : Option (Words w)) (shift bits n : ℕ) (dst : Words w) : Words w :=
  (range n).foldl (fun dst k => update dst k (rightWord (src.getD dst) shift bits k)) dst

def bitmapShiftRight (dst : Words w) (src : Option (Words w)) (shift bits : ℕ) : Words w :=
  let lim := bitsToLongs w bits
  let off := shift / w
  let dst := rightLoop src shift bits (lim - off) dst
  if off ≠ 0 then memset dst (lim - off) off else dst

def leftWord (src : Words w) (shift bits k : ℕ) : BitVec w :=
  let rem := shift % w
  let lower := if rem ≠ 0 ∧ 0 < k then src (k - 1) else 0
  let upper := trim bits k (src k)
  trim bits (k + shift / w) (lower >>> (w - rem) ||| upper <<< rem)

/-- The words go up by `off`, the last one first. -/
def leftLoop (src : Option (Words w)) (shift bits off n : ℕ) (dst : Words w) : Words w :=
  (range n).foldr (fun k dst => update dst (k + off) (leftWord (src.getD dst) shift bits k)) dst

def bitmapShiftLeft (dst : Words w) (src : Option (Words w)) (shift bits : ℕ) : Words w :=
  let lim := bitsToLongs w bits
  let off := shift / w
  let dst := leftLoop src shift bits off (lim - off) dst
  if off ≠ 0 then memset dst 0 off else dst

def bit (a : Words w) (i : ℕ) : Bool := (a (i / w)).getLsbD (i % w)

section Loops

variable {shift bits : ℕ} {src : Option (Words w)}

theorem rightWord_congr {a b : Words w} {k : ℕ} (h : ∀ j, k ≤ j → a j = b j) :
    rightWord (src.getD a) shift bits k = rightWord (src.getD b) shift bits k := by
  cases src with
  | some s => rfl
  | none =>
    have hlow : k ≤ shift / w + k := Nat.le_add_left k _
    simp only [Option.getD_none, rightWord, h _ hlow, h _ (Nat.le_succ_of_le hlow)]

theorem leftWord_congr {a b : Words w} {k : ℕ} (h : ∀ j ≤ k, a j = b j) :
    leftWord (src.getD a) shift bits k = leftWord (src.getD b) shift bits k := by
  cases src with
  | some s => rfl
  | none => simp only [Option.getD_none, leftWord, h k (Nat.le_refl k), h (k - 1) (Nat.sub_le k 1)]

/-- In place, every word is read before it is overwritten. -/
theorem rightLoop_apply (dst : Words w) (n j : ℕ) : rightLoop src shift bits n dst j =
      if j < n then rightWord (src.getD dst) shift bits j else dst j := by
  induction n generalizing j with
  | zero => rfl
  | succ n ih =>
    have hread := @rightWord_congr w shift bits src _ dst n fun i hi => (ih i).trans (if_neg (by omega))
    rw [rightLoop, range_succ, foldl_append, ← rightLoop, foldl_cons, foldl_nil, hread, update_apply, ih]
    by_cases hj : j = n
    · rw [if_pos hj, if_pos (by omega), hj]
    · have hlt : j < n + 1 ↔ j < n := by omega
      rw [if_neg hj, if_congr hlt rfl rfl]

theorem leftLoop_apply (off n : ℕ) (dst : Words w) (j : ℕ) : leftLoop src shift bits off n dst j =
      if off ≤ j ∧ j < n + off then leftWord (src.getD dst) shift bits (j - off) else dst j := by
  induction n generalizing dst with
  | zero => exact (if_neg (by omega)).symm
  | succ n ih =>
    rw [leftLoop, range_succ, foldr_append, ← leftLoop, foldr_cons, foldr_nil, ih, update_apply]
    by_cases hj : off ≤ j ∧ j < n + off
    · rw [if_pos hj, if_pos (by omega)]
      exact leftWord_congr fun i hi => update_of_ne (by omega) ..
    · rw [if_neg hj]
      by_cases hlast : j = n + off
      · rw [if_pos hlast, if_pos (by omega), hlast, Nat.add_sub_cancel]
      · rw [if_neg hlast, if_neg (by omega)]

theorem ite_memset (a : Words w) (first n : ℕ) :
    (if n ≠ 0 then memset a first n else a) = memset a first n := by
  by_cases hn : n = 0
  · funext k
    rw [if_neg (not_not.mpr hn), memset, if_neg (by omega)]
  · rw [if_pos hn]

end Loops

section Bits

variable {shift bits k j : ℕ} (hw : 0 < w) (hj : j < w)
include hw

theorem lt_bitsToLongs : k < bitsToLongs w bits ↔ w * k < bits := by
  rw [bitsToLongs, Nat.lt_div_iff_mul_lt hw, Nat.mul_comm]
  omega

omit hw in
theorem getLsbD_mask {l : ℕ} (hl : l < w) : (1#w <<< l - 1#w).getLsbD j = decide (j < l) := by
  have hlt : 2 ^ l < 2 ^ w := Nat.pow_lt_pow_right (by decide) hl
  have hone : (1#w).toNat = 1 := Nat.mod_eq_of_lt (Nat.one_lt_two_pow (Nat.ne_zero_of_lt hl))
  have hpow : (1#w <<< l).toNat = 2 ^ l := by
    rw [BitVec.toNat_shiftLeft, hone, Nat.one_shiftLeft, Nat.mod_eq_of_lt hlt]
  have hle : 1#w ≤ 1#w <<< l := by
    rw [BitVec.le_def, hone, hpow]
    exact Nat.two_pow_pos l
  rw [BitVec.getLsbD, BitVec.toNat_sub_of_le hle, hpow, hone, Nat.testBit_two_pow_sub_one]

include hj

/-- In a word that has bits below the width, those above it are cut off. -/
theorem getLsbD_trim (hk : k < bitsToLongs w bits) (x : BitVec w) :
    (trim bits k x).getLsbD j = (decide (w * k + j < bits) && x.getLsbD j) := by
  have hlow := (lt_bitsToLongs hw).mp hk
  have hnext := @lt_bitsToLongs w bits (k + 1) hw
  rw [Nat.mul_add, Nat.mul_one] at hnext
  by_cases hfull : w * k + w ≤ bits
  · have hno : ¬ (bits % w ≠ 0 ∧ k = bitsToLongs w bits - 1) := by
      rintro ⟨hrest, hlast⟩
      have heq : bits = w * (k + 1) := by
        rw [Nat.mul_add]
        omega
      exact hrest (heq ▸ Nat.mul_mod_right w (k + 1))
    rw [trim, if_neg hno, decide_eq_true (by omega), Bool.true_and]
  · -- the last word, with `bits % w` bits
    have hdiv : bits / w = k := Nat.div_eq_of_lt_le (by rw [Nat.mul_comm]; omega)
      (by rw [Nat.add_mul, Nat.mul_comm]; omega)
    have hmod := Nat.div_add_mod bits w
    rw [hdiv] at hmod
    have hiff : j < bits % w ↔ w * k + j < bits := by omega
    rw [trim, if_pos (by omega), BitVec.getLsbD_and, getLsbD_mask (Nat.mod_lt bits hw), Bool.and_comm,
      decide_eq_decide.mpr hiff]

omit hw in
theorem bit_split (a : Words w) (k : ℕ) : bit a (w * k + j) = (a k).getLsbD j := by
  rw [bit, Nat.mul_add_div (by omega), Nat.div_eq_of_lt hj, Nat.mul_add_mod, Nat.mod_eq_of_lt hj, Nat.add_zero]

theorem getLsbD_rightWord (src : Words w) (hk : w * k + j < bits)
    (hin : shift / w + k < bitsToLongs w bits) : (rightWord src shift bits k).getLsbD j =
      (decide (w * k + j + shift < bits) && bit src (w * k + j + shift)) := by
  have hdiv := Nat.div_add_mod shift w
  have hrem := Nat.mod_lt shift hw
  have hfirst : k < bitsToLongs w bits := (lt_bitsToLongs hw).mpr (by omega)
  simp only [rightWord]
  rw [getLsbD_trim hw hj hfirst, decide_eq_true hk, Bool.true_and, BitVec.getLsbD_or,
    BitVec.getLsbD_shiftLeft, BitVec.getLsbD_ushiftRight]
  generalize shift / w = off at *
  generalize shift % w = rem at *
  by_cases hcross : rem + j < w
  · -- the bit comes from the lower word
    have hsum : w * k + j + shift = w * (off + k) + (rem + j) := by
      rw [Nat.mul_add]
      omega
    rw [getLsbD_trim hw hcross hin, hsum, bit_split hcross]
    simp [show j < w - rem by omega]
  · have hsum : w * k + j + shift = w * (off + k + 1) + (rem + j - w) := by
      rw [Nat.mul_add, Nat.mul_add]
      omega
    have htop := @lt_bitsToLongs w bits (off + k + 1) hw
    rw [hsum, bit_split (by omega), BitVec.getLsbD_of_ge _ (rem + j) (by omega), Bool.or_false,
      decide_eq_true hj, decide_eq_false (show ¬ j < w - rem by omega),
      show j - (w - rem) = rem + j - w by omega]
    by_cases hlast : bitsToLongs w bits ≤ off + k + 1
    · rw [if_pos (.inr hlast), decide_eq_false (by omega)]
      simp
    · rw [if_neg (by omega), getLsbD_trim hw (by omega) (by omega)]
      simp

theorem getLsbD_leftWord (src : Words w) (hk : w * (k + shift / w) + j < bits) :
    (leftWord src shift bits k).getLsbD j =
      (decide (shift ≤ w * (k + shift / w) + j) && bit src (w * (k + shift / w) + j - shift)) := by
  have hdiv := Nat.div_add_mod shift w
  have hrem := Nat.mod_lt shift hw
  have hlast : k + shift / w < bitsToLongs w bits := (lt_bitsToLongs hw).mpr (by omega)
  simp only [leftWord]
  rw [getLsbD_trim hw hj hlast, decide_eq_true hk, Bool.true_and, BitVec.getLsbD_or,
    BitVec.getLsbD_shiftLeft, BitVec.getLsbD_ushiftRight]
  generalize shift / w = off at *
  generalize shift % w = rem at *
  rw [Nat.mul_add] at *
  by_cases hcross : rem ≤ j
  · -- the bit comes from the upper word
    rw [show w * k + w * off + j - shift = w * k + (j - rem) by omega, bit_split (by omega),
      getLsbD_trim hw (by omega) (by omega), BitVec.getLsbD_of_ge _ (w - rem + j) (by omega)]
    simp [hj, hcross, show shift ≤ w * k + w * off + j by omega, show w * k + (j - rem) < bits by omega]
  · have hlt : j < rem := by omega
    cases k with
    | zero => simp [hlt, show ¬ shift ≤ w * off + j by omega]
    | succ k =>
      rw [Nat.mul_add] at *
      rw [show w * k + w * 1 + w * off + j - shift = w * k + (w - rem + j) by omega, bit_split (by omega)]
      simp [hlt, show rem ≠ 0 by omega, show shift ≤ w * k + w + w * off + j by omega]

end Bits

/-- Whatever the source has above the width, and also in place. -/
theorem bitmapShift_exact (hw : 0 < w) {shift bits k : ℕ} (_ : shift ≤ bits) (hk : k < bits)
    (dst : Words w) (src : Option (Words w)) :
    bit (bitmapShiftRight dst src shift bits) k =
        (decide (k + shift < bits) && bit (src.getD dst) (k + shift)) ∧
      bit (bitmapShiftLeft dst src shift bits) k =
        (decide (shift ≤ k) && bit (src.getD dst) (k - shift)) := by
  obtain ⟨q, j, hj, rfl⟩ : ∃ q j, j < w ∧ w * q + j = k :=
    ⟨k / w, k % w, Nat.mod_lt k hw, Nat.div_add_mod k w⟩
  have hq : q < bitsToLongs w bits := (lt_bitsToLongs hw).mpr (by omega)
  have hdiv := Nat.div_add_mod shift w
  have hend := @lt_bitsToLongs w bits (shift / w + q) hw
  simp only [bit_split hj, bitmapShiftRight, bitmapShiftLeft, ite_memset, memset, rightLoop_apply,
    leftLoop_apply]
  constructor
  · by_cases hin : shift / w + q < bitsToLongs w bits
    · rw [if_neg (by omega), if_pos (by omega), getLsbD_rightWord hw hj _ hk hin]
    · rw [Nat.mul_add] at hend
      rw [if_pos (by omega), decide_eq_false (by omega)]
      simp
  · by_cases hlow : q < shift / w
    · have hle : w * (q + 1) ≤ w * (shift / w) := Nat.mul_le_mul_left w hlow
      rw [Nat.mul_add] at hle
      rw [if_pos (by omega), decide_eq_false (by omega)]
      simp
    · have heq : q - shift / w + shift / w = q := Nat.sub_add_cancel (by omega)
      rw [if_neg (by omega), if_pos (by omega), getLsbD_leftWord hw hj _ (by rwa [heq]), heq]

theorem bitmapShift_exact_inPlace : bit (bitmapShiftLeft (fun _ => 0xffff#16) none 17 40) 20 =
    (decide (17 ≤ 20) && bit (fun _ => 0xffff#16) (20 - 17)) :=
  (bitmapShift_exact (by decide) (by decide) (by decide) _ none).2

end VDLinux.Lib.BitmapShift
