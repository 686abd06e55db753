import Mathlib

namespace VDLinux.Base.Settling

open Function

variable {α : Type*} [DecidableEq α]

/-- Apply `f` until a value stays as it is, at most `fuel` times. -/
def settle (f : α → α) : ℕ → α → Option α
  | 0, _ => none
  | fuel + 1, x => if f x = x then some x else settle f fuel (f x)

variable {f : α → α} {x y : α}

theorem settle_eq_some {fuel : ℕ} (h : settle f fuel x = some y) : f y = y ∧ ∃ k, y = f^[k] x := by
  induction fuel generalizing x with
  | zero => cases h
  | succ fuel ih =>
    rw [settle] at h
    split at h
    · rename_i hfix
      cases h
      exact ⟨hfix, 0, rfl⟩
    · obtain ⟨hfix, k, hk⟩ := ih h
      exact ⟨hfix, k + 1, hk⟩

theorem settle_iterate {k : ℕ} (h : f (f^[k] x) = f^[k] x) : settle f (k + 1) x = some (f^[k] x) := by
  induction k generalizing x with
  | zero => exact if_pos h
  | succ k ih =>
    rw [settle, ih h]
    by_cases hfix : f x = x
    · rw [if_pos hfix, iterate_fixed hfix]
    · exact if_neg hfix

omit [DecidableEq α] in
theorem iterate_of_fixed {k j : ℕ} (h : f (f^[k] x) = f^[k] x) (hj : k ≤ j) : f^[j] x = f^[k] x := by
  obtain ⟨d, rfl⟩ := Nat.exists_eq_add_of_le' hj
  rw [iterate_add_apply, iterate_fixed h]

/-- A walk through finitely many values settles, unless it runs into a loop of more than one value. -/
theorem settles_iff (hfin : (Set.range fun k => f^[k] x).Finite) :
    (∃ fuel y, settle f fuel x = some y) ↔
      ∀ k p, 0 < p → Function.IsPeriodicPt f p (f^[k] x) → f (f^[k] x) = f^[k] x := by
  constructor
  · rintro ⟨fuel, y, hy⟩ k p hp hper
    obtain ⟨hfix, m, rfl⟩ := settle_eq_some hy
    -- going round often enough, the periodic value is met behind the fixed point
    have hround : f^[k] x = f^[m] x := by
      have hle : m ≤ p * m + k := Nat.le_add_right_of_le (Nat.le_mul_of_pos_left m hp)
      calc f^[k] x = f^[p * m] (f^[k] x) := (hper.mul_const m).eq.symm
        _ = f^[p * m + k] x := (iterate_add_apply f _ _ x).symm
        _ = f^[m] x := iterate_of_fixed hfix hle
    rw [hround, hfix]
  · intro h
    obtain ⟨i, -, j, -, hne, heq⟩ := Set.infinite_univ.exists_ne_map_eq_of_mapsTo
      (fun k _ => Set.mem_range_self (f := fun k => f^[k] x) k) hfin
    wlog hlt : i < j generalizing i j
    · exact this j i hne.symm heq.symm (by omega)
    have hper : Function.IsPeriodicPt f (j - i) (f^[i] x) := by
      rw [Function.IsPeriodicPt, Function.IsFixedPt, ← iterate_add_apply,
        Nat.sub_add_cancel hlt.le, heq]
    exact ⟨i + 1, _, settle_iterate (h i (j - i) (by omega) hper)⟩

end VDLinux.Base.Settling
