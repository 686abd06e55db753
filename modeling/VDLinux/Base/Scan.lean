import Mathlib

namespace VDLinux.Base.Scan

variable (p : Nat → Bool)

/-- Look at `n` cells from `i` upwards and stop at the first one satisfying
`p`; without a hit the position behind the last cell is returned. -/
def scanFrom : Nat → Nat → Nat
  | 0, i => i
  | n + 1, i => if p i then i else scanFrom n (i + 1)

/-- The first hit in `[start, size)`, or `size`. -/
def scan (size start : Nat) : Nat :=
  if size ≤ start then size else scanFrom p (size - start) start

variable {p}

theorem scanFrom_bounds (n i : Nat) : i ≤ scanFrom p n i ∧ scanFrom p n i ≤ i + n := by
  induction n generalizing i with
  | zero => simp [scanFrom]
  | succ n ih =>
    have h := ih (i + 1)
    by_cases hp : p i = true
    · simp [scanFrom, hp]
    · simp only [scanFrom, hp]
      constructor <;> simp <;> omega

theorem scanFrom_miss (n i j : Nat) (hi : i ≤ j) (hj : j < scanFrom p n i) : p j = false := by
  induction n generalizing i with
  | zero => simp only [scanFrom] at hj; omega
  | succ n ih =>
    by_cases hp : p i = true
    · simp only [scanFrom, hp, if_true] at hj
      omega
    · simp only [scanFrom, hp] at hj
      rcases Nat.eq_or_lt_of_le hi with rfl | hlt
      · simpa using hp
      · exact ih (i + 1) hlt (by simpa using hj)

theorem scanFrom_hit (n i : Nat) (h : scanFrom p n i < i + n) : p (scanFrom p n i) = true := by
  induction n generalizing i with
  | zero => simp only [scanFrom] at h; omega
  | succ n ih =>
    by_cases hp : p i = true
    · simp [scanFrom, hp]
    · simp only [scanFrom, hp, Bool.false_eq_true, if_false] at h ⊢
      exact ih (i + 1) (by omega)

theorem scan_le (size start : Nat) : scan p size start ≤ size := by
  have h := scanFrom_bounds (p := p) (size - start) start
  unfold scan
  split <;> omega

theorem le_scan {size start : Nat} (hs : start ≤ size) : start ≤ scan p size start := by
  have h := scanFrom_bounds (p := p) (size - start) start
  unfold scan
  split <;> omega

theorem scan_miss {size start j : Nat} (hi : start ≤ j) (hj : j < scan p size start) :
    p j = false := by
  unfold scan at hj
  split at hj
  · omega
  · exact scanFrom_miss _ _ _ hi hj

theorem scan_hit {size start : Nat} (h : scan p size start < size) :
    p (scan p size start) = true := by
  unfold scan at h ⊢
  split at h
  · omega
  · rename_i hs
    rw [if_neg hs]
    exact scanFrom_hit _ _ (by omega)

end VDLinux.Base.Scan
