import Mathlib

namespace VDLinux.Base.Serial

variable {w : ℕ}

/-- The number that a `w`-bit serial number stands for, seen from the point `c`: of all numbers with
these lower bits the one that is nearest to `c`. -/
def unwrap (c : ℤ) (t : BitVec w) : ℤ := c + (t - BitVec.ofInt w c).toInt

theorem ofInt_sub (a b : ℤ) : BitVec.ofInt w (a - b) = BitVec.ofInt w a - BitVec.ofInt w b := by
  rw [eq_comm, BitVec.sub_eq_iff_eq_add, ← BitVec.ofInt_add, sub_add_cancel]

theorem ofInt_unwrap (c : ℤ) (t : BitVec w) : BitVec.ofInt w (unwrap c t) = t := by
  rw [unwrap, BitVec.ofInt_add, BitVec.ofInt_toInt, BitVec.add_comm, BitVec.sub_add_cancel]

theorem unwrap_ofInt {c n : ℤ} (hw : 0 < w) (hlo : -2 ^ (w - 1) ≤ n - c) (hhi : n - c < 2 ^ (w - 1)) :
    unwrap c (BitVec.ofInt w n) = n := by
  rw [unwrap, ← ofInt_sub, BitVec.toInt_ofInt_eq_self hw hlo hhi]
  omega

theorem unwrap_bounds (c : ℤ) (t : BitVec w) :
    -2 ^ (w - 1) ≤ unwrap c t - c ∧ unwrap c t - c < 2 ^ (w - 1) := by
  have hlo := BitVec.le_toInt (t - BitVec.ofInt w c)
  have hhi := BitVec.toInt_lt (x := t - BitVec.ofInt w c)
  unfold unwrap
  omega

/-- The point up to which a set of numbers has no hole. -/
noncomputable def watermark (R : Set ℤ) : ℤ := sSup { c | Set.Iic c ⊆ R }

variable {R : Set ℤ} {c : ℤ}

theorem isGreatest_watermark (hlow : Set.Iic c ⊆ R) (hnext : c + 1 ∉ R) :
    IsGreatest { c | Set.Iic c ⊆ R } c := by
  refine ⟨hlow, fun d hd => ?_⟩
  by_contra hlt
  exact hnext (hd (show c + 1 ≤ d by omega))

theorem watermark_eq (hlow : Set.Iic c ⊆ R) (hnext : c + 1 ∉ R) : watermark R = c :=
  (isGreatest_watermark hlow hnext).csSup_eq

end VDLinux.Base.Serial
