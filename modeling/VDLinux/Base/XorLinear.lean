import Mathlib

namespace VDLinux.Base.XorLinear

open BitVec

variable {w v : ℕ}

def lowBits (x : BitVec w) (k : ℕ) : BitVec w := x &&& BitVec.ofNat w (2 ^ k - 1)

theorem getLsbD_lowBits (x : BitVec w) (k i : ℕ) :
    (lowBits x k).getLsbD i = (x.getLsbD i && decide (i < k)) := by
  rw [lowBits, getLsbD_and, getLsbD_ofNat, Nat.testBit_two_pow_sub_one]
  cases hx : x.getLsbD i with
  | false => rfl
  | true =>
    have hi : i < w := lt_of_getLsbD hx
    simp [hi]

theorem lowBits_succ (x : BitVec w) (k : ℕ) :
    lowBits x (k + 1) = lowBits x k ^^^ if x.getLsbD k then BitVec.twoPow w k else 0 := by
  apply eq_of_getLsbD_eq
  intro i hi
  rw [getLsbD_xor, getLsbD_lowBits, getLsbD_lowBits]
  by_cases hik : i = k
  · subst hik
    cases hx : x.getLsbD i <;> simp [hi]
  · have hlt : i < k + 1 ↔ i < k := by omega
    have hki : ¬ k = i := fun h => hik h.symm
    cases hx : x.getLsbD k <;> simp [hlt, hki]

/-- What holds of zero and of the powers of two, and of a sum if it holds of both parts, holds of every
word. -/
theorem xor_induction {P : BitVec w → Prop} (hzero : P 0) (hpow : ∀ i < w, P (BitVec.twoPow w i))
    (hxor : ∀ x y, P x → P y → P (x ^^^ y)) (x : BitVec w) : P x := by
  have hlow : ∀ k ≤ w, P (lowBits x k) := by
    intro k hk
    induction k with
    | zero =>
      have : lowBits x 0 = 0 := by
        apply eq_of_getLsbD_eq
        intro i hi
        rw [getLsbD_lowBits]
        simp
      rwa [this]
    | succ k ih =>
      rw [lowBits_succ]
      apply hxor _ _ (ih (by omega))
      split_ifs
      · exact hpow k (by omega)
      · exact hzero
  have hall : lowBits x w = x := by
    apply eq_of_getLsbD_eq
    intro i hi
    rw [getLsbD_lowBits]
    simp [hi]
  exact hall ▸ hlow w le_rfl

theorem ite_xor (p q : Bool) (x : BitVec w) :
    (if (p ^^ q) = true then x else 0) = (if p then x else 0) ^^^ (if q then x else 0) := by
  cases p <;> cases q <;> simp

def Additive (f : BitVec w → BitVec v) : Prop := ∀ x y, f (x ^^^ y) = f x ^^^ f y

theorem Additive.zero {f : BitVec w → BitVec v} (hf : Additive f) : f 0 = 0 := by
  have h := hf 0 0
  rwa [BitVec.xor_self, BitVec.xor_self] at h

theorem Additive.comp {u : ℕ} {f : BitVec v → BitVec u} {g : BitVec w → BitVec v} (hf : Additive f)
    (hg : Additive g) : Additive fun x => f (g x) :=
  fun x y => (congrArg f (hg x y)).trans (hf _ _)

theorem Additive.xor {f g : BitVec w → BitVec v} (hf : Additive f) (hg : Additive g) :
    Additive fun x => f x ^^^ g x := by
  intro x y
  dsimp only
  rw [hf, hg]
  ac_rfl

theorem Additive.append {u : ℕ} {f : BitVec w → BitVec v} {g : BitVec w → BitVec u} (hf : Additive f)
    (hg : Additive g) : Additive fun x => f x ++ g x := by
  intro x y
  dsimp only
  rw [hf, hg, xor_append]

theorem additive_shiftLeft (k : ℕ) : Additive fun x : BitVec w => x <<< k :=
  fun x y => shiftLeft_xor_distrib x y k

theorem additive_ushiftRight (k : ℕ) : Additive fun x : BitVec w => x >>> k :=
  fun x y => ushiftRight_xor_distrib x y k

theorem additive_setWidth : Additive fun x : BitVec w => x.setWidth v :=
  fun _ _ => setWidth_xor

theorem Additive.ext {f g : BitVec w → BitVec v} (hf : Additive f) (hg : Additive g)
    (h : ∀ i < w, f (BitVec.twoPow w i) = g (BitVec.twoPow w i)) (x : BitVec w) : f x = g x := by
  induction x using xor_induction with
  | hzero => exact hf.zero.trans hg.zero.symm
  | hpow i hi => exact h i hi
  | hxor x y hx hy => rw [hf, hg, hx, hy]

end VDLinux.Base.XorLinear
