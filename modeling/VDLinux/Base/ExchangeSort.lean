import Mathlib

namespace VDLinux.Base.ExchangeSort

open Function

variable {α : Type} (key : α → Nat)

def swapAt (m : Nat → α) (i j : Nat) : Nat → α :=
  Function.update (Function.update m i (m j)) j (m i)

/-- One comparison. The state is the memory with the least key seen so far. -/
def exchange (i : Nat) (s : (Nat → α) × Nat) (j : Nat) : (Nat → α) × Nat :=
  if key (s.1 j) < s.2 then (swapAt s.1 i j, key (s.1 j)) else s

def passFrom (i : Nat) : Nat → Nat → (Nat → α) × Nat → (Nat → α) × Nat
  | 0, _, s => s
  | c + 1, j, s => passFrom i c (j + 1) (exchange key i s j)

def sortFrom (n : Nat) : Nat → Nat → (Nat → α) → Nat → α
  | 0, _, m => m
  | c + 1, i, m => sortFrom n c (i + 1) (passFrom key i (n - (i + 1)) (i + 1) (m, key (m i))).1

def exchangeSort (n : Nat) (m : Nat → α) : Nat → α := sortFrom key n n 0 m

/-- The cells of `[lo, hi)` have been permuted and no other cell has changed. -/
def Rearranged (lo hi : Nat) (m m' : Nat → α) : Prop :=
  ∃ σ : Equiv.Perm Nat, (∀ k, k < lo ∨ hi ≤ k → σ k = k) ∧ ∀ k, m' k = m (σ k)

variable {key} {lo hi : Nat} {m m' m'' : Nat → α}

theorem Rearranged.refl : Rearranged lo hi m m := ⟨Equiv.refl Nat, fun _ _ => rfl, fun _ => rfl⟩

variable (h : Rearranged lo hi m m')
include h

theorem Rearranged.trans (h' : Rearranged lo hi m' m'') : Rearranged lo hi m m'' := by
  obtain ⟨σ, hσ, hm⟩ := h
  obtain ⟨τ, hτ, hm'⟩ := h'
  refine ⟨τ.trans σ, ?_, fun k => by rw [hm', hm, Equiv.trans_apply]⟩
  intro k hk
  rw [Equiv.trans_apply, hτ k hk, hσ k hk]

theorem Rearranged.mono {lo' : Nat} (hlo : lo' ≤ lo) : Rearranged lo' hi m m' := by
  obtain ⟨σ, hσ, hm⟩ := h
  exact ⟨σ, fun k hk => hσ k (by omega), hm⟩

theorem Rearranged.below {k : Nat} (hk : k < lo) : m' k = m k := by
  obtain ⟨σ, hσ, hm⟩ := h
  rw [hm, hσ k (.inl hk)]

omit h

theorem fixes_outside {σ : Equiv.Perm Nat} (hσ : ∀ k, k < lo ∨ hi ≤ k → σ k = k) {k : Nat}
    (hlo : lo ≤ k) (hhi : k < hi) : lo ≤ σ k ∧ σ k < hi := by
  by_contra hout
  have hfix := σ.injective (hσ (σ k) (by omega))
  omega

theorem Rearranged.inside (h : Rearranged lo hi m m') {k : Nat} (hlo : lo ≤ k) (hhi : k < hi) :
    ∃ j, lo ≤ j ∧ j < hi ∧ m' k = m j := by
  obtain ⟨σ, hσ, hm⟩ := h
  have hin := fixes_outside hσ hlo hhi
  exact ⟨σ k, hin.1, hin.2, hm k⟩

theorem Rearranged.distinct {β : Type} {f : α → β} (h : Rearranged 0 hi m m')
    (hd : ∀ i j, i < hi → j < hi → f (m i) = f (m j) → i = j) {i j : Nat} (hi' : i < hi)
    (hj : j < hi) (he : f (m' i) = f (m' j)) : i = j := by
  obtain ⟨σ, hσ, hm⟩ := h
  rw [hm, hm] at he
  exact σ.injective (hd _ _ (fixes_outside hσ (Nat.zero_le i) hi').2
    (fixes_outside hσ (Nat.zero_le j) hj).2 he)

theorem Rearranged.symm (h : Rearranged lo hi m m') : Rearranged lo hi m' m := by
  obtain ⟨σ, hσ, hm⟩ := h
  refine ⟨σ.symm, ?_, ?_⟩
  · intro k hk
    rw [Equiv.symm_apply_eq, hσ k hk]
  · intro k
    rw [hm, Equiv.apply_symm_apply]

theorem rearranged_swapAt {i j : Nat} (hi' : lo ≤ i ∧ i < hi) (hj : lo ≤ j ∧ j < hi) :
    Rearranged lo hi m (swapAt m i j) := by
  refine ⟨Equiv.swap i j, ?_, ?_⟩
  · intro k hk
    exact Equiv.swap_apply_of_ne_of_ne (by omega) (by omega)
  · intro k
    rw [swapAt, update_apply, update_apply, Equiv.swap_apply_def]
    split <;> split <;> simp_all

/-- What a pass has established when it reaches cell `j`. -/
structure PassInv (key : α → Nat) (i n j : Nat) (m : Nat → α) (s : (Nat → α) × Nat) : Prop where
  rearranged : Rearranged i n m s.1
  least : s.2 = key (s.1 i)
  le : ∀ k, i ≤ k → k < j → s.2 ≤ key (s.1 k)

theorem PassInv.exchange {i n j : Nat} {s : (Nat → α) × Nat} (h : PassInv key i n j m s)
    (hij : i < j) (hj : j < n) : PassInv key i n (j + 1) m (exchange key i s j) := by
  unfold ExchangeSort.exchange
  split
  · rename_i hlt
    have hi' : swapAt s.1 i j i = s.1 j := by simp [swapAt, Nat.ne_of_lt hij]
    refine ⟨h.rearranged.trans (rearranged_swapAt ⟨Nat.le_refl i, by omega⟩ ⟨by omega, hj⟩), ?_, ?_⟩
    · dsimp only
      rw [hi']
    · intro k hk hkj
      dsimp only
      by_cases hki : k = i
      · subst hki
        exact Nat.le_of_eq (congrArg key hi').symm
      · by_cases hkj' : k = j
        · rw [hkj', swapAt, update_self, ← h.least]
          exact Nat.le_of_lt hlt
        · rw [swapAt, update_of_ne hkj', update_of_ne hki]
          exact Nat.le_of_lt (Nat.lt_of_lt_of_le hlt (h.le k hk (by omega)))
  · rename_i hle
    refine ⟨h.rearranged, h.least, ?_⟩
    intro k hk hkj
    by_cases hkj' : k = j
    · rw [hkj']
      exact Nat.le_of_not_lt hle
    · exact h.le k hk (by omega)

theorem passFrom_inv {i n : Nat} (c j : Nat) (s : (Nat → α) × Nat) (h : PassInv key i n j m s)
    (hij : i < j) (hn : j + c = n) : PassInv key i n n m (passFrom key i c j s) := by
  induction c generalizing j s with
  | zero =>
    subst hn
    exact h
  | succ c ih => exact ih (j + 1) _ (h.exchange hij (by omega)) (by omega) (by omega)

theorem pass_inv {i n : Nat} (hn : i < n) :
    PassInv key i n n m (passFrom key i (n - (i + 1)) (i + 1) (m, key (m i))) := by
  refine passFrom_inv _ _ _ ⟨.refl, rfl, ?_⟩ (Nat.lt_succ_self i) (by omega)
  intro k hk hk'
  obtain rfl : k = i := by omega
  exact Nat.le_refl _

theorem PassInv.sorted_front {i n : Nat} {s : (Nat → α) × Nat} (hp : PassInv key i n n m s)
    (h : ∀ a b, a < i → a ≤ b → b < n → key (m a) ≤ key (m b)) :
    ∀ a b, a < i + 1 → a ≤ b → b < n → key (s.1 a) ≤ key (s.1 b) := by
  intro a b ha hab hb
  by_cases hai : a = i
  · rw [hai, ← hp.least]
    exact hp.le b (by omega) hb
  · rw [hp.rearranged.below (k := a) (by omega)]
    by_cases hbi : b < i
    · rw [hp.rearranged.below hbi]
      exact h a b (by omega) hab hb
    · obtain ⟨j, hj, hjn, he⟩ := hp.rearranged.inside (Nat.le_of_not_lt hbi) hb
      rw [he]
      exact h a j (by omega) (by omega) hjn

theorem sortFrom_sorted {n : Nat} (c i : Nat) (hn : i + c = n)
    (h : ∀ a b, a < i → a ≤ b → b < n → key (m a) ≤ key (m b)) :
    Rearranged 0 n m (sortFrom key n c i m) ∧
      ∀ a b, a ≤ b → b < n → key (sortFrom key n c i m a) ≤ key (sortFrom key n c i m b) := by
  induction c generalizing i m with
  | zero => exact ⟨.refl, fun a b hab hb => h a b (by omega) hab hb⟩
  | succ c ih =>
    have hp : PassInv key i n n m _ := pass_inv (by omega)
    obtain ⟨hr, hsorted⟩ := ih (i + 1) (by omega) (hp.sorted_front h)
    exact ⟨(hp.rearranged.mono (Nat.zero_le i)).trans hr, hsorted⟩

theorem exchangeSort_sorted (key : α → Nat) (n : Nat) (m : Nat → α) :
    Rearranged 0 n m (exchangeSort key n m) ∧
      ∀ a b, a ≤ b → b < n → key (exchangeSort key n m a) ≤ key (exchangeSort key n m b) :=
  sortFrom_sorted n 0 (Nat.zero_add n) (fun a _ ha => absurd ha (Nat.not_lt_zero a))

end VDLinux.Base.ExchangeSort
