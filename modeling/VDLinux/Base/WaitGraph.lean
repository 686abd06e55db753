import Mathlib

namespace VDLinux.Base.WaitGraph

open Relation Option

variable {α : Type*}

def Acyclic (R : α → α → Prop) : Prop := ∀ a, ¬TransGen R a a

variable {R S : α → α → Prop}

theorem Acyclic.mono (h : Acyclic S) (hle : ∀ a b, R a b → S a b) : Acyclic R :=
  fun a ha => h a (TransGen.mono hle a a ha)

theorem transGen_insert {p q : α}
    (hS : ∀ a b, S a b → R a b ∨ a = p ∧ b = q) {a b : α} (h : TransGen S a b) :
    TransGen R a b ∨ ReflTransGen R a p ∧ ReflTransGen R q b := by
  induction h with
  | single hab =>
    obtain hR | ⟨rfl, rfl⟩ := hS _ _ hab
    · exact .inl (.single hR)
    · exact .inr ⟨.refl, .refl⟩
  | tail _ hbc ih =>
    obtain hR | ⟨rfl, rfl⟩ := hS _ _ hbc
    · cases ih with
      | inl hab => exact .inl (hab.tail hR)
      | inr hpq => exact .inr ⟨hpq.1, hpq.2.tail hR⟩
    · cases ih with
      | inl hab => exact .inr ⟨hab.to_reflTransGen, .refl⟩
      | inr hpq => exact .inr ⟨hpq.1, .refl⟩

theorem Acyclic.insert {p q : α} (h : Acyclic R)
    (hS : ∀ a b, S a b → R a b ∨ a = p ∧ b = q) (hback : ¬ReflTransGen R q p) : Acyclic S := by
  intro a ha
  obtain hR | ⟨hap, hqa⟩ := transGen_insert hS ha
  · exact h a hR
  · exact hback (hqa.trans hap)

section Functional

variable (next : α → Option α)

def after : ℕ → α → Option α
  | 0, a => some a
  | n + 1, a => (next a).bind (after n)

variable {next}

theorem after_trans {m n : ℕ} {a b : α} (h : after next m a = some b) :
    after next (m + n) a = after next n b := by
  induction m generalizing a with
  | zero =>
    obtain rfl := Option.some.inj h
    rw [Nat.zero_add]
  | succ m ih =>
    obtain ⟨c, hac, hcb⟩ := bind_eq_some_iff.mp h
    rw [Nat.succ_add, after, hac, bind_some, ih hcb]

theorem transGen_iff_after {a b : α} :
    TransGen (fun a b => next a = some b) a b ↔ ∃ n, after next (n + 1) a = some b := by
  constructor
  · intro h
    induction h with
    | single hab => exact ⟨0, by rw [after, hab]; rfl⟩
    | tail _ hbc ih =>
      obtain ⟨n, hn⟩ := ih
      exact ⟨n + 1, by rw [after_trans hn, after, hbc]; rfl⟩
  · rintro ⟨n, hn⟩
    induction n generalizing a with
    | zero =>
      obtain ⟨c, hac, hcb⟩ := bind_eq_some_iff.mp hn
      exact .single (hac.trans hcb)
    | succ n ih =>
      obtain ⟨c, hac, hcb⟩ := bind_eq_some_iff.mp hn
      exact .head hac (ih hcb)

theorem after_of_le {m n : ℕ} {a b : α} (h : after next n a = some b) (hle : m ≤ n) :
    ∃ c, after next m a = some c := by
  induction m generalizing n a with
  | zero => exact ⟨a, rfl⟩
  | succ m ih =>
    obtain ⟨k, rfl⟩ : ∃ k, n = k + 1 := ⟨n - 1, by omega⟩
    obtain ⟨d, had, hdb⟩ := bind_eq_some_iff.mp h
    rw [after, had]
    exact ih hdb (by omega)

theorem length_lt_card {O : Finset α} (hacyc : Acyclic fun a b => next a = some b)
    {n : ℕ} {a b : α} (h : after next n a = some b)
    (hO : ∀ i ≤ n, ∀ c, after next i a = some c → c ∈ O) : n < O.card := by
  have hplace : ∀ i ≤ n, after next i a = some ((after next i a).getD a) := by
    intro i hi
    obtain ⟨c, hc⟩ := after_of_le h hi
    rw [hc, getD_some]
  have hne : ∀ i j, i < j → j ≤ n → (after next i a).getD a ≠ (after next j a).getD a := by
    intro i j hij hj heq
    have hi := hplace i (by omega)
    have hloop : after next (j - i - 1 + 1) ((after next i a).getD a) =
        some ((after next i a).getD a) := by
      rw [← after_trans hi, show i + (j - i - 1 + 1) = j by omega, heq]
      exact hplace j hj
    exact hacyc _ (transGen_iff_after.mpr ⟨_, hloop⟩)
  have hcard := Finset.card_le_card_of_injOn (s := Finset.range (n + 1)) (t := O)
    (fun i => (after next i a).getD a)
    (fun i hi => by
      have hi' : i ≤ n := by simpa [Nat.lt_succ_iff] using hi
      exact hO i hi' _ (hplace i hi'))
    (fun i hi j hj heq => by
      have hi' : i ≤ n := by simpa [Nat.lt_succ_iff] using hi
      have hj' : j ≤ n := by simpa [Nat.lt_succ_iff] using hj
      by_contra hij
      cases Nat.lt_or_gt_of_ne hij with
      | inl hlt => exact hne i j hlt hj' heq
      | inr hgt => exact hne j i hgt hi' heq.symm)
  rw [Finset.card_range] at hcard
  omega

end Functional

end VDLinux.Base.WaitGraph
