import Mathlib

namespace VDLinux.Base.FreeRuns

open Nat

variable {seg : ℕ} {used : ℕ → Prop} {f : ℕ → ℕ} {i n : ℕ}

/-- The cells `i` to `i + n - 1` are not used and lie in one segment. -/
structure FreeRun (seg : ℕ) (used : ℕ → Prop) (i n : ℕ) : Prop where
  free : ∀ j, i ≤ j → j < i + n → ¬ used j
  inside : i % seg + n ≤ seg

/-- The entry of a cell follows from the entry of the next cell: zero in a used cell, one more than the next
entry in another one, and one at the end of a segment. -/
structure Counts (seg : ℕ) (used : ℕ → Prop) (f : ℕ → ℕ) (i : ℕ) : Prop where
  of_used : used i → f i = 0
  of_last : ¬ used i → (i + 1) % seg = 0 → f i = 1
  of_next : ¬ used i → (i + 1) % seg ≠ 0 → f i = f (i + 1) + 1

variable (h : Counts seg used f i)
include h

theorem Counts.pos (hi : ¬ used i) : 0 < f i := by
  by_cases hlast : (i + 1) % seg = 0
  · rw [h.of_last hi hlast]
    exact Nat.one_pos
  · rw [h.of_next hi hlast]
    exact succ_pos _

theorem Counts.eq_zero_iff : f i = 0 ↔ used i := by
  constructor
  · intro h0
    by_contra hi
    exact absurd h0 (h.pos hi).ne'
  · exact h.of_used

theorem Counts.congr {used' : ℕ → Prop} {f' : ℕ → ℕ} (hu : used' i ↔ used i)
    (hi : f' i = f i) (hnext : (i + 1) % seg ≠ 0 → f' (i + 1) = f (i + 1)) : Counts seg used' f' i where
  of_used h' := hi.trans (h.of_used (hu.mp h'))
  of_last h' hl := hi.trans (h.of_last (fun h0 => h' (hu.mpr h0)) hl)
  of_next h' hl := by rw [hi, hnext hl, h.of_next (fun h0 => h' (hu.mpr h0)) hl]

omit h

theorem mod_succ (hseg : 0 < seg) (h : (i + 1) % seg ≠ 0) : (i + 1) % seg = i % seg + 1 := by
  have hlt := mod_lt i hseg
  rw [add_mod] at h ⊢
  rcases Nat.eq_or_lt_of_le (succ_le_of_lt hlt) with heq | hlt'
  · exfalso
    apply h
    rcases Nat.lt_or_ge 1 seg with h1 | h1
    · rw [mod_eq_of_lt h1, ← succ_eq_add_one, heq, mod_self]
    · obtain rfl : seg = 1 := by omega
      exact mod_one _
  · rw [mod_eq_of_lt (show 1 < seg by omega), mod_eq_of_lt hlt']

theorem mod_last (hseg : 0 < seg) (h : (i + 1) % seg = 0) : i % seg + 1 = seg := by
  have hlt := mod_lt i hseg
  by_contra hne
  have hlt' : i % seg + 1 < seg := by omega
  rw [add_mod, mod_eq_of_lt (show 1 < seg by omega), mod_eq_of_lt hlt'] at h
  omega

theorem freeRun_succ (hseg : 0 < seg) : FreeRun seg used i (n + 1) ↔
      ¬ used i ∧ (((i + 1) % seg = 0 ∧ n = 0) ∨ ((i + 1) % seg ≠ 0 ∧ FreeRun seg used (i + 1) n)) := by
  constructor
  · rintro ⟨hfree, hin⟩
    refine ⟨hfree i le_rfl (by omega), ?_⟩
    by_cases hlast : (i + 1) % seg = 0
    · have := mod_last hseg hlast
      exact Or.inl ⟨hlast, by omega⟩
    · have := mod_succ hseg hlast
      exact Or.inr ⟨hlast, ⟨fun j hj hjn => hfree j (by omega) (by omega), by omega⟩⟩
  · rintro ⟨hi, ⟨hlast, rfl⟩ | ⟨hlast, hrun⟩⟩
    · have := mod_last hseg hlast
      refine ⟨fun j hj hjn => ?_, by omega⟩
      obtain rfl : j = i := by omega
      exact hi
    · have := mod_succ hseg hlast
      have hin := hrun.inside
      refine ⟨fun j hj hjn => ?_, by omega⟩
      rcases Nat.eq_or_lt_of_le hj with rfl | hlt
      · exact hi
      · exact hrun.free j hlt (by omega)

theorem le_iff_freeRun (hseg : 0 < seg) (h : ∀ j, i ≤ j → j / seg = i / seg → Counts seg used f j) :
    n ≤ f i ↔ FreeRun seg used i n := by
  induction n generalizing i with
  | zero => exact ⟨fun _ => ⟨fun j hj hjn => by omega, (mod_lt i hseg).le⟩, fun _ => Nat.zero_le _⟩
  | succ n ih =>
    rw [freeRun_succ hseg]
    have hi := h i le_rfl rfl
    by_cases hu : used i
    · rw [hi.of_used hu]
      exact ⟨fun h0 => absurd h0 (not_succ_le_zero n), fun h0 => absurd hu h0.1⟩
    by_cases hlast : (i + 1) % seg = 0
    · rw [hi.of_last hu hlast]
      constructor
      · intro h1
        exact ⟨hu, Or.inl ⟨hlast, by omega⟩⟩
      · rintro ⟨-, ⟨-, rfl⟩ | ⟨hl, -⟩⟩
        · exact le_rfl
        · exact absurd hlast hl
    · have hdiv : (i + 1) / seg = i / seg := by
        have h1 := mod_succ hseg hlast
        have h2 := div_add_mod i seg
        have h3 := div_add_mod (i + 1) seg
        refine Nat.eq_of_mul_eq_mul_left hseg ?_
        omega
      rw [hi.of_next hu hlast, succ_le_succ_iff,
        ih fun j hj hjd => h j (by omega) (hjd.trans hdiv)]
      exact ⟨fun hr => ⟨hu, Or.inr ⟨hlast, hr⟩⟩, fun hr => (hr.2.resolve_left fun h0 => hlast h0.1).2⟩

end VDLinux.Base.FreeRuns
