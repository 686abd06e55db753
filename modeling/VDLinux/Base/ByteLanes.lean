import Mathlib

namespace VDLinux.Base.ByteLanes

open BitVec

variable {n : ℕ}

/-- Byte `i` of a word of `n` bytes, the lowest first. -/
def byteAt (v : BitVec (8 * n)) (i : ℕ) : BitVec 8 := v.extractLsb' (8 * i) 8

def ofBytes (n : ℕ) (f : ℕ → BitVec 8) : ℕ → BitVec (8 * n)
  | 0 => 0
  | k + 1 => ofBytes n f k ||| (f k).setWidth (8 * n) <<< (8 * k)

theorem getLsbD_byteAt (v : BitVec (8 * n)) (i j : ℕ) :
    (byteAt v i).getLsbD j = (decide (j < 8) && v.getLsbD (8 * i + j)) :=
  getLsbD_extractLsb' ..

theorem byteAt_xor (v w : BitVec (8 * n)) (i : ℕ) :
    byteAt (v ^^^ w) i = byteAt v i ^^^ byteAt w i := by
  apply eq_of_getLsbD_eq
  intro j hj
  simp only [getLsbD_byteAt, getLsbD_xor, hj, decide_true, Bool.true_and]

theorem byteAt_and (v w : BitVec (8 * n)) (i : ℕ) :
    byteAt (v &&& w) i = byteAt v i &&& byteAt w i := by
  apply eq_of_getLsbD_eq
  intro j hj
  simp only [getLsbD_byteAt, getLsbD_and, hj, decide_true, Bool.true_and]

variable (f : ℕ → BitVec 8)

theorem getLsbD_ofBytes {k j : ℕ} (hj : j < 8 * n) :
    (ofBytes n f k).getLsbD j = (decide (j < 8 * k) && (f (j / 8)).getLsbD (j % 8)) := by
  induction k with
  | zero => simp [ofBytes]
  | succ k ih =>
    rw [ofBytes, getLsbD_or, ih, getLsbD_shiftLeft, getLsbD_setWidth]
    by_cases hlow : j < 8 * k
    · simp [hlow, show j < 8 * (k + 1) by omega]
    · by_cases hin : j < 8 * (k + 1)
      · have hdiv : j / 8 = k := by omega
        have hmod : j % 8 = j - 8 * k := by omega
        simp [hlow, hin, hdiv, hmod, hj, show j - 8 * k < 8 * n by omega]
      · have hzero : (f k).getLsbD (j - 8 * k) = false := getLsbD_of_ge _ _ (by omega)
        simp [hlow, hin, hzero]

theorem byteAt_ofBytes {i : ℕ} (hi : i < n) : byteAt (ofBytes n f n) i = f i := by
  apply eq_of_getLsbD_eq
  intro j hj
  rw [getLsbD_byteAt, getLsbD_ofBytes f (by omega)]
  have hdiv : (8 * i + j) / 8 = i := by omega
  have hmod : (8 * i + j) % 8 = j := by omega
  simp [hdiv, hmod, hj, show 8 * i + j < 8 * n by omega]

theorem ofBytes_succ (k : ℕ) :
    ofBytes n f (k + 1) = ofBytes n f k + (f k).setWidth (8 * n) <<< (8 * k) := by
  rw [ofBytes, add_eq_or_of_and_eq_zero]
  apply eq_of_getLsbD_eq
  intro j hj
  rw [getLsbD_and, getLsbD_ofBytes f hj, getLsbD_shiftLeft]
  by_cases hlow : j < 8 * k <;> simp [hlow]

theorem mul_ofBytes (c : BitVec 8) (b : ℕ → Bool) (k : ℕ) :
    c.setWidth (8 * n) * ofBytes n (fun i => if b i then 1 else 0) k =
      ofBytes n (fun i => if b i then c else 0) k := by
  induction k with
  | zero => exact mul_zero
  | succ k ih =>
    rw [ofBytes_succ, ofBytes_succ, BitVec.mul_add, ih]
    congr 1
    cases b k with
    | false => simp
    | true =>
      have hone : (1 : BitVec 8).setWidth (8 * n) = 1 := by
        apply eq_of_getLsbD_eq
        intro j hj
        have h8 : (1 : BitVec 8).getLsbD j = decide (j = 0) := by
          simp
        have hn : (1 : BitVec (8 * n)).getLsbD j = decide (j = 0) := by
          simp [show 0 < n by omega]
        rw [getLsbD_setWidth, h8, hn, decide_eq_true hj, Bool.true_and]
      simp only [if_true]
      rw [hone, shiftLeft_eq_mul_twoPow, shiftLeft_eq_mul_twoPow]
      ring

end VDLinux.Base.ByteLanes
