import VDLinux.Base.ExchangeSort

namespace VDLinux.Base.Intervals

open Base.ExchangeSort Function Nat Set

/-- The first `n` intervals are not empty, and each ends before the next begins. -/
structure Separated (n : ℕ) (f : ℕ → ℕ × ℕ) : Prop where
  pos : ∀ i < n, (f i).1 < (f i).2
  gap : ∀ i j, i < j → j < n → (f i).2 < (f j).1

/-- The numbers in the first `n` intervals. -/
def covered (n : ℕ) (f : ℕ → ℕ × ℕ) : Set ℕ := {x | ∃ i < n, (f i).1 ≤ x ∧ x < (f i).2}

def eraseAt {α : Type} (f : ℕ → α) (r i : ℕ) : α := if i < r then f i else f (i + 1)

def insertAt {α : Type} (f : ℕ → α) (k : ℕ) (e : α) (i : ℕ) : α :=
  if i < k then f i else if i = k then e else f (i - 1)

variable {n : ℕ} {f g : ℕ → ℕ × ℕ}

theorem covered_congr (h : ∀ i < n, f i = g i) : covered n f = covered n g := by
  ext x
  constructor
  · rintro ⟨i, hi, hx⟩
    exact ⟨i, hi, h i hi ▸ hx⟩
  · rintro ⟨i, hi, hx⟩
    exact ⟨i, hi, (h i hi).symm ▸ hx⟩

namespace Separated

variable (hs : Separated n f)
include hs

theorem congr (h : ∀ i < n, f i = g i) : Separated n g where
  pos i hi := h i hi ▸ hs.pos i hi
  gap i j hij hj := h i (hij.trans hj) ▸ h j hj ▸ hs.gap i j hij hj

theorem eq_of_mem {i j x : ℕ} (hi : i < n) (hj : j < n)
    (hxi : (f i).1 ≤ x ∧ x < (f i).2) (hxj : (f j).1 ≤ x ∧ x < (f j).2) : i = j := by
  rcases Nat.lt_trichotomy i j with hlt | heq | hlt
  · have := hs.gap i j hlt hj
    omega
  · exact heq
  · have := hs.gap j i hlt hi
    omega

theorem lo_lt {i j : ℕ} (hij : i < j) (hj : j < n) : (f i).1 < (f j).1 :=
  (hs.pos i (hij.trans hj)).trans (hs.gap i j hij hj)

theorem eraseAt (r : ℕ) : Separated (n - 1) (eraseAt f r) where
  pos i hi := by
    rw [Intervals.eraseAt]
    split_ifs
    · exact hs.pos i (by omega)
    · exact hs.pos (i + 1) (by omega)
  gap i j hij hj := by
    rw [Intervals.eraseAt, Intervals.eraseAt]
    split_ifs
    · exact hs.gap i j hij (by omega)
    · exact hs.gap i (j + 1) (by omega) (by omega)
    · omega
    · exact hs.gap (i + 1) (j + 1) (by omega) (by omega)

theorem insertAt {k : ℕ} {e : ℕ × ℕ} (hk : k ≤ n) (he : e.1 < e.2)
    (hbelow : ∀ i < k, (f i).2 < e.1) (habove : ∀ i, k ≤ i → i < n → e.2 < (f i).1) :
    Separated (n + 1) (insertAt f k e) where
  pos i hi := by
    rw [Intervals.insertAt]
    split_ifs
    · exact hs.pos i (by omega)
    · exact he
    · exact hs.pos (i - 1) (by omega)
  gap i j hij hj := by
    rw [Intervals.insertAt, Intervals.insertAt]
    split_ifs
    · exact hs.gap i j hij (by omega)
    · exact hbelow i (by omega)
    · exact hs.gap i (j - 1) (by omega) (by omega)
    · omega
    · omega
    · exact habove (j - 1) (by omega) (by omega)
    · omega
    · omega
    · exact hs.gap (i - 1) (j - 1) (by omega) (by omega)

theorem update {r : ℕ} {e : ℕ × ℕ} (he : e.1 < e.2)
    (hbelow : ∀ i < r, (f i).2 < e.1) (habove : ∀ i, r < i → i < n → e.2 < (f i).1) :
    Separated n (Function.update f r e) where
  pos i hi := by
    rw [update_apply]
    split_ifs
    · exact he
    · exact hs.pos i hi
  gap i j hij hj := by
    rw [update_apply, update_apply]
    split_ifs with hi hj'
    · omega
    · exact habove j (by omega) hj
    · exact hbelow i (by omega)
    · exact hs.gap i j hij hj

theorem exists_position (x : ℕ) :
    ∃ k ≤ n, (∀ i < k, (f i).1 ≤ x) ∧ ∀ i, k ≤ i → i < n → x < (f i).1 := by
  by_cases hall : ∀ i < n, (f i).1 ≤ x
  · exact ⟨n, le_rfl, hall, fun i hi hin => absurd hin (by omega)⟩
  · have hex : ∃ k, k < n ∧ x < (f k).1 := by
      by_contra hno
      exact hall fun i hi => Nat.le_of_not_lt fun h => hno ⟨i, hi, h⟩
    -- the first interval that begins above the number
    refine ⟨Nat.find hex, (Nat.find_spec hex).1.le, ?_, ?_⟩
    · intro i hi
      have hmin := Nat.find_min hex hi
      have hin := hi.trans (Nat.find_spec hex).1
      exact Nat.le_of_not_lt fun h => hmin ⟨hin, h⟩
    · intro i hki hin
      have hfirst := (Nat.find_spec hex).2
      rcases Nat.eq_or_lt_of_le hki with heq | hlt
      · exact heq ▸ hfirst
      · exact hfirst.trans (hs.lo_lt hlt hin)

theorem apart {lo hi : ℕ} (hne : lo < hi)
    (hd : Disjoint (Ico lo hi) (covered n f)) {i : ℕ} (hi' : i < n) : (f i).2 ≤ lo ∨ hi ≤ (f i).1 := by
  by_contra hno
  have hpos := hs.pos i hi'
  have hmem : max lo (f i).1 ∈ Ico lo hi := ⟨le_max_left _ _, by omega⟩
  exact Set.disjoint_left.mp hd hmem ⟨i, hi', by omega⟩

theorem covered_eraseAt {r : ℕ} (hr : r < n) :
    covered (n - 1) (Intervals.eraseAt f r) = covered n f \ Ico (f r).1 (f r).2 := by
  ext x
  constructor
  · rintro ⟨i, hi, hx⟩
    rw [Intervals.eraseAt] at hx
    split_ifs at hx with hir
    · refine ⟨⟨i, by omega, hx⟩, fun hxr => ?_⟩
      have := hs.eq_of_mem (by omega) hr hx hxr
      omega
    · refine ⟨⟨i + 1, by omega, hx⟩, fun hxr => ?_⟩
      have := hs.eq_of_mem (by omega) hr hx hxr
      omega
  · rintro ⟨⟨i, hi, hx⟩, hxr⟩
    have hir : i ≠ r := fun h => hxr (h ▸ hx)
    by_cases hlt : i < r
    · exact ⟨i, by omega, by rwa [Intervals.eraseAt, if_pos hlt]⟩
    · refine ⟨i - 1, by omega, ?_⟩
      rwa [Intervals.eraseAt, if_neg (by omega), Nat.sub_add_cancel (by omega)]

theorem covered_update {r : ℕ} (hr : r < n) (e : ℕ × ℕ) :
    covered n (Function.update f r e) = covered n f \ Ico (f r).1 (f r).2 ∪ Ico e.1 e.2 := by
  ext x
  constructor
  · rintro ⟨i, hi, hx⟩
    rw [update_apply] at hx
    split_ifs at hx with hir
    · exact Or.inr hx
    · exact Or.inl ⟨⟨i, hi, hx⟩, fun hxr => hir (hs.eq_of_mem hi hr hx hxr)⟩
  · rintro (⟨⟨i, hi, hx⟩, hxr⟩ | hx)
    · have hir : i ≠ r := fun h => hxr (h ▸ hx)
      exact ⟨i, hi, by rwa [update_of_ne hir]⟩
    · exact ⟨r, hr, by rwa [update_self]⟩

end Separated

theorem covered_insertAt {k : ℕ} (hk : k ≤ n) (e : ℕ × ℕ) :
    covered (n + 1) (insertAt f k e) = covered n f ∪ Ico e.1 e.2 := by
  ext x
  constructor
  · rintro ⟨i, hi, hx⟩
    rw [insertAt] at hx
    split_ifs at hx
    · exact Or.inl ⟨i, by omega, hx⟩
    · exact Or.inr hx
    · exact Or.inl ⟨i - 1, by omega, hx⟩
  · rintro (⟨i, hi, hx⟩ | hx)
    · by_cases hik : i < k
      · exact ⟨i, by omega, by rwa [insertAt, if_pos hik]⟩
      · refine ⟨i + 1, by omega, ?_⟩
        rwa [insertAt, if_neg (by omega), if_neg (by omega), Nat.add_sub_cancel]
    · exact ⟨k, by omega, by rwa [insertAt, if_neg (lt_irrefl k), if_pos rfl]⟩

theorem Ico_subset_covered {r : ℕ} (hr : r < n) : Ico (f r).1 (f r).2 ⊆ covered n f :=
  fun _ hx => ⟨r, hr, hx⟩

section Replace

variable {s : Set ℕ} {lo hi lo' hi' a b : ℕ}

theorem replace_grown (hs : Ico lo hi ⊆ s)
    (h : ∀ x, lo' ≤ x ∧ x < hi' ↔ (lo ≤ x ∧ x < hi) ∨ (a ≤ x ∧ x < b)) :
    s \ Ico lo hi ∪ Ico lo' hi' = s ∪ Ico a b := by
  ext x
  constructor
  · rintro (⟨hx, -⟩ | hx)
    · exact Or.inl hx
    · rcases (h x).mp hx with hin | hin
      · exact Or.inl (hs hin)
      · exact Or.inr hin
  · rintro (hx | hx)
    · by_cases hin : lo ≤ x ∧ x < hi
      · exact Or.inr ((h x).mpr (Or.inl hin))
      · exact Or.inl ⟨hx, hin⟩
    · exact Or.inr ((h x).mpr (Or.inr hx))

theorem replace_shrunk (hs : Ico lo hi ⊆ s)
    (h : ∀ x, lo' ≤ x ∧ x < hi' ↔ (lo ≤ x ∧ x < hi) ∧ ¬ (a ≤ x ∧ x < b)) (ha : lo ≤ a) (hb : b ≤ hi) :
    s \ Ico lo hi ∪ Ico lo' hi' = s \ Ico a b := by
  ext x
  constructor
  · rintro (⟨hx, hout⟩ | hx)
    · exact ⟨hx, fun hin => hout ⟨ha.trans hin.1, hin.2.trans_le hb⟩⟩
    · exact ⟨hs ((h x).mp hx).1, ((h x).mp hx).2⟩
  · rintro ⟨hx, hout⟩
    by_cases hin : lo ≤ x ∧ x < hi
    · exact Or.inr ((h x).mpr ⟨hin, hout⟩)
    · exact Or.inl ⟨hx, hin⟩

end Replace

theorem eraseAt_update {α : Type} (f : ℕ → α) (r : ℕ) (e : α) :
    eraseAt (Function.update f r e) (r + 1) = Function.update (eraseAt f (r + 1)) r e := by
  funext i
  simp only [eraseAt, update_apply]
  split_ifs <;> first | rfl | omega

/-- No two of the first `n` intervals have a number in common. -/
def Apart (n : ℕ) (f : ℕ → ℕ × ℕ) : Prop :=
  ∀ i < n, ∀ j < n, i ≠ j → Disjoint (Set.Ico (f i).1 (f i).2) (Set.Ico (f j).1 (f j).2)

/-- Each of the first `n` intervals ends where the next begins. -/
def Joined (n : ℕ) (f : ℕ → ℕ × ℕ) : Prop := ∀ i, i + 1 < n → (f i).2 = (f (i + 1)).1

section Order

variable {n : ℕ} {f : ℕ → ℕ × ℕ} (hpos : ∀ i < n, (f i).1 < (f i).2)
include hpos

theorem Joined.stop_le (h : Joined n f) {i j : ℕ} (hij : i < j) (hj : j < n) : (f i).2 ≤ (f j).1 := by
  induction j with
  | zero => exact absurd hij (Nat.not_lt_zero i)
  | succ j ih =>
    rcases Nat.lt_succ_iff_lt_or_eq.mp hij with hlt | rfl
    · exact (ih hlt (by omega)).trans ((hpos j (by omega)).le.trans (h j hj).le)
    · exact (h i hj).le

theorem Joined.apart (h : Joined n f) : Apart n f := by
  intro i hi j hj hne
  rw [Set.disjoint_left]
  rintro x ⟨hxi, hxi'⟩ ⟨hxj, hxj'⟩
  rcases Nat.lt_or_gt_of_ne hne with hlt | hlt
  · have := h.stop_le hpos hlt hj
    omega
  · have := h.stop_le hpos hlt hi
    omega

theorem Joined.start_lt_stop (h : Joined n f) (hn : 0 < n) : (f 0).1 < (f (n - 1)).2 := by
  rcases Nat.eq_zero_or_pos (n - 1) with hz | hz
  · rw [hz]
    exact hpos 0 hn
  · have := h.stop_le hpos hz (by omega)
    have := hpos 0 hn
    have := hpos (n - 1) (by omega)
    omega

theorem Joined.covered_eq (h : Joined n f) (hn : 0 < n) : covered n f = Ico (f 0).1 (f (n - 1)).2 := by
  obtain ⟨n, rfl⟩ := exists_eq_succ_of_ne_zero hn.ne'
  rw [succ_sub_one]
  induction n with
  | zero =>
    ext x
    exact ⟨fun ⟨i, hi, hx⟩ => by rwa [lt_one_iff.mp hi] at hx, fun hx => ⟨0, Nat.one_pos, hx⟩⟩
  | succ n ih =>
    have hpos' : ∀ i < n + 1, (f i).1 < (f i).2 := fun i hi => hpos i (by omega)
    have hprev := ih hpos' (fun i hi => h i (by omega)) (succ_pos n)
    have hlo := Joined.start_lt_stop hpos' (fun i hi => h i (by omega)) (succ_pos n)
    have hlast := h n (lt_succ_self _)
    have hne := hpos (n + 1) (lt_succ_self _)
    have hsplit : covered (n + 2) f = covered (n + 1) f ∪ Ico (f (n + 1)).1 (f (n + 1)).2 := by
      ext x
      constructor
      · rintro ⟨i, hi, hx⟩
        rcases Nat.lt_succ_iff_lt_or_eq.mp hi with hlt | rfl
        · exact .inl ⟨i, hlt, hx⟩
        · exact .inr hx
      · rintro (⟨i, hi, hx⟩ | hx)
        · exact ⟨i, by omega, hx⟩
        · exact ⟨n + 1, lt_succ_self _, hx⟩
    rw [succ_sub_one] at hlo
    rw [hsplit, hprev, hlast, Set.Ico_union_Ico_eq_Ico (by omega) (by omega)]

theorem joined_of_filled (hsorted : ∀ i j, i ≤ j → j < n → (f i).1 ≤ (f j).1) (hapart : Apart n f) {lo hi : ℕ}
    (hfill : covered n f = Ico lo hi) : Joined n f := by
  have hstop : ∀ i j, i < j → j < n → (f i).2 ≤ (f j).1 := by
    intro i j hij hj
    by_contra hlt
    have hle := hsorted i j hij.le hj
    exact Set.disjoint_left.mp (hapart i (by omega) j hj hij.ne) ⟨hle, by omega⟩ ⟨le_rfl, hpos j hj⟩
  intro i hi'
  apply Nat.le_antisymm (hstop i (i + 1) (lt_succ_self i) hi')
  by_contra hgap
  -- the number behind the interval is in the filled one, so in some interval: it is in none
  have hlo : (f i).1 ∈ Ico lo hi := hfill ▸ ⟨i, by omega, le_rfl, hpos i (by omega)⟩
  have hhi : (f (i + 1)).1 ∈ Ico lo hi := hfill ▸ ⟨i + 1, hi', le_rfl, hpos (i + 1) hi'⟩
  have hmem : (f i).2 ∈ covered n f := by
    rw [hfill]
    exact ⟨hlo.1.trans (hpos i (by omega)).le, by have := hhi.2; omega⟩
  obtain ⟨j, hj, hxj, hxj'⟩ := hmem
  rcases Nat.lt_trichotomy j i with hlt | rfl | hlt
  · have := hstop j i hlt (by omega)
    have := hpos i (by omega)
    omega
  · exact absurd hxj' (Nat.lt_irrefl _)
  · have := hsorted (i + 1) j hlt hj
    omega

end Order

section Rearranged

variable {α : Type} {n : ℕ} {m m' : ℕ → α} (span : α → ℕ × ℕ)

variable (h : Rearranged 0 n m m')
include h

theorem covered_subset_of_rearranged :
    covered n (fun i => span (m' i)) ⊆ covered n (fun i => span (m i)) := by
  rintro x ⟨i, hi, hx⟩
  obtain ⟨j, -, hj, heq⟩ := h.inside (Nat.zero_le i) hi
  refine ⟨j, hj, ?_⟩
  simpa only [heq] using hx

theorem covered_rearranged : covered n (fun i => span (m' i)) = covered n (fun i => span (m i)) :=
  (covered_subset_of_rearranged span h).antisymm (covered_subset_of_rearranged span h.symm)

theorem Apart.rearranged (hapart : Apart n fun i => span (m i)) : Apart n fun i => span (m' i) := by
  obtain ⟨σ, hσ, hm⟩ := h
  intro i hi j hj hne
  simp only [hm]
  exact hapart _ (fixes_outside hσ (Nat.zero_le i) hi).2 _ (fixes_outside hσ (Nat.zero_le j) hj).2
    fun heq => hne (σ.injective heq)

end Rearranged

end VDLinux.Base.Intervals
