import Mathlib

namespace VDLinux.Base.Fragments

open Finset

open Classical in
/-- The numbers below `n` that begin a run of a set. -/
noncomputable def starts (Z : Set ℕ) (n : ℕ) : Finset ℕ :=
  (Finset.range n).filter fun x => x ∈ Z ∧ (x = 0 ∨ x - 1 ∉ Z)

open Classical in
noncomputable def members (Z : Set ℕ) (n : ℕ) : Finset ℕ := (Finset.range n).filter fun x => x ∈ Z

variable {Z : Set ℕ} {n s e x : ℕ}

theorem mem_starts : x ∈ starts Z n ↔ x < n ∧ x ∈ Z ∧ (x = 0 ∨ x - 1 ∉ Z) := by
  simp only [starts, mem_filter, mem_range]

theorem mem_members : x ∈ members Z n ↔ x < n ∧ x ∈ Z := by
  simp only [members, mem_filter, mem_range]

theorem card_starts_union (hse : s < e) (hen : e ≤ n) (hgap : ∀ x, s ≤ x → x < e → x ∉ Z) :
    (starts (Z ∪ Set.Ico s e) n).card + (if e ∈ starts Z n then 1 else 0) =
      (starts Z n).card + (if s ∈ starts (Z ∪ Set.Ico s e) n then 1 else 0) := by
  have hsame : (starts (Z ∪ Set.Ico s e) n).erase s = (starts Z n).erase e := by
    ext x
    simp only [Finset.mem_erase, mem_starts, Set.mem_union, Set.mem_Ico]
    constructor
    · rintro ⟨hne, hlt, hmem, hfirst⟩
      have hxZ : x ∈ Z := by
        cases hmem with
        | inl h => exact h
        | inr h =>
          -- inside the interval its predecessor is a member
          cases hfirst with
          | inl hzero => omega
          | inr hpred => exact absurd (.inr ⟨by omega, by omega⟩) hpred
      refine ⟨?_, hlt, hxZ, hfirst.imp_right fun h hpred => h (.inl hpred)⟩
      rintro rfl
      cases hfirst with
      | inl hzero => omega
      | inr hpred => exact hpred (.inr ⟨by omega, by omega⟩)
    · rintro ⟨hne, hlt, hxZ, hfirst⟩
      have hout : ¬ (s ≤ x ∧ x < e) := fun h => hgap x h.1 h.2 hxZ
      refine ⟨fun heq => hout ⟨by omega, by omega⟩, hlt, .inl hxZ, hfirst.imp_right ?_⟩
      rintro h (hpred | hpred)
      · exact h hpred
      · omega
  have hcard := congrArg Finset.card hsame
  rw [card_erase_eq_ite, card_erase_eq_ite] at hcard
  have hpos : ∀ {t : Finset ℕ} {y : ℕ}, y ∈ t → 0 < t.card := fun h => card_pos.mpr ⟨_, h⟩
  split_ifs at hcard ⊢ with h₁ h₂ h₂
  · have := hpos h₁
    have := hpos h₂
    omega
  · have := hpos h₁
    omega
  · have := hpos h₂
    omega
  · exact congrArg (· + 0) hcard

theorem card_members_union (hen : e ≤ n) (hgap : ∀ x, s ≤ x → x < e → x ∉ Z) :
    (members (Z ∪ Set.Ico s e) n).card = (members Z n).card + (e - s) := by
  have hset : members (Z ∪ Set.Ico s e) n = members Z n ∪ Finset.Ico s e := by
    ext x
    simp only [mem_members, mem_union, mem_Ico, Set.mem_union, Set.mem_Ico]
    constructor
    · rintro ⟨hlt, h⟩
      exact h.imp_left fun hx => ⟨hlt, hx⟩
    · rintro (⟨hlt, hx⟩ | hx)
      · exact ⟨hlt, .inl hx⟩
      · exact ⟨by omega, .inr hx⟩
  rw [hset, card_union_of_disjoint, Nat.card_Ico]
  rw [disjoint_left]
  intro x hx hx'
  rw [mem_Ico] at hx'
  exact hgap x hx'.1 hx'.2 (mem_members.mp hx).2

end VDLinux.Base.Fragments
