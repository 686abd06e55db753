import VDLinux.Base.Dyadic

namespace VDLinux.Base.Dyadic

open Block

section Nth

variable {b c : Block} {k j x : ℕ}

theorem div_eq_of_le {y : ℕ} (hk : k ≤ j) (h : y / 2 ^ k = x / 2 ^ k) : y / 2 ^ j = x / 2 ^ j := by
  obtain ⟨d, rfl⟩ := Nat.exists_eq_add_of_le hk
  rw [Nat.pow_add, ← Nat.div_div_eq_div_mul, ← Nat.div_div_eq_div_mul, h]

theorem pages_subset (hb : b.Aligned) (hc : c.Aligned) (hxb : x ∈ b.pages) (hxc : x ∈ c.pages)
    (ho : b.order ≤ c.order) : b.pages ⊆ c.pages := by
  intro y hy
  rw [nth_of_mem hb hxb, mem_nth] at hy
  rw [nth_of_mem hc hxc, mem_nth]
  exact div_eq_of_le ho hy

theorem order_le_of_subset (h : b.pages ⊆ c.pages) : b.order ≤ c.order := by
  have hends := (Set.Ico_subset_Ico_iff (Nat.lt_add_of_pos_right b.size_pos)).mp h
  have hsize : b.size ≤ c.size := by omega
  exact (Nat.pow_le_pow_iff_right Nat.one_lt_two).mp hsize

theorem start_mem_parent (hb : b.Aligned) : b.start ∈ b.parent.pages := by
  rw [pages_parent hb]
  exact .inl b.start_mem

end Nth

section Change

variable {T : Set Block} {Z : Set ℕ} {b : Block}

theorem Tiles.notMem_of_disjoint (h : Tiles T Z) (hdis : Disjoint b.pages Z) : b ∉ T := fun hb =>
  Set.disjoint_left.mp hdis b.start_mem (h.subset hb b.start_mem)

end Change

section Maximal

variable {T : Set Block} {Z : Set ℕ} {b : Block} {M : ℕ}

/-- No tile below the highest order has its buddy for a tile. -/
def Lonely (M : ℕ) (T : Set Block) : Prop := ∀ b ∈ T, b.order < M → b.buddy ∉ T

/-- The blocks in a set that are part of no larger one. -/
def maximal (M : ℕ) (Z : Set ℕ) : Set Block :=
  {b | b.Aligned ∧ b.order ≤ M ∧ b.pages ⊆ Z ∧ (b.order < M → ¬ b.parent.pages ⊆ Z)}

theorem tiles_maximal (M : ℕ) (Z : Set ℕ) : Tiles (maximal M Z) Z := by
  classical
  -- a smaller block has its parent inside the larger one
  have hlt : ∀ b ∈ maximal M Z, ∀ c ∈ maximal M Z, ∀ x ∈ b.pages, x ∈ c.pages → ¬ b.order < c.order := by
    rintro b ⟨hb, -, -, hbmax⟩ c ⟨hc, hcM, hcZ, -⟩ x hxb hxc ho
    refine hbmax (by omega) (subset_trans ?_ hcZ)
    have hx : x ∈ b.parent.pages := by
      rw [pages_parent hb]
      exact .inl hxb
    exact pages_subset hb.parent hc hx hxc ho
  refine ⟨fun b hb => hb.1, fun b hb c hc hne => ?_, fun x => ⟨fun hx => ?_, ?_⟩⟩
  · rw [Set.disjoint_left]
    intro x hxb hxc
    have h₁ := hlt b hb c hc x hxb hxc
    have h₂ := hlt c hc b hb x hxc hxb
    exact hne (eq_of_order_eq hb.1 hc.1 hxb hxc (by omega))
  · -- the largest block around the number
    have hzero : (nth 0 (x / 2 ^ 0)).pages ⊆ Z := by
      intro y hy
      rw [mem_nth] at hy
      simp only [Nat.pow_zero, Nat.div_one] at hy
      exact hy ▸ hx
    have hspec := Nat.findGreatest_spec (P := fun k => (nth k (x / 2 ^ k)).pages ⊆ Z) (Nat.zero_le M) hzero
    refine ⟨_, ⟨nth_aligned _ _, Nat.findGreatest_le M, hspec, fun ho hparent => ?_⟩, mem_nth.mpr rfl⟩
    rw [parent_nth, Nat.div_div_eq_div_mul, ← Nat.pow_succ] at hparent
    exact Nat.findGreatest_is_greatest (Nat.lt_succ_self _) ho hparent
  · rintro ⟨b, hb, hx⟩
    exact hb.2.2.1 hx

theorem lonely_maximal (M : ℕ) (Z : Set ℕ) : Lonely M (maximal M Z) := by
  rintro b ⟨hb, -, hbZ, hbmax⟩ ho ⟨-, -, hbuddyZ, -⟩
  refine hbmax ho ?_
  rw [pages_parent hb]
  exact Set.union_subset hbZ hbuddyZ

theorem Tiles.covered (h : Tiles T Z) (hl : Lonely M T) {k i : ℕ} (hk : k ≤ M) (hZ : (nth k i).pages ⊆ Z) :
    ∃ c ∈ T, (nth k i).pages ⊆ c.pages := by
  induction k generalizing i with
  | zero =>
    have hx : 2 ^ 0 * i ∈ (nth 0 i).pages := (nth 0 i).start_mem
    obtain ⟨c, hc, hxc⟩ := (h.cover _).mp (hZ hx)
    exact ⟨c, hc, pages_subset (nth_aligned 0 i) (h.aligned c hc) hx hxc (Nat.zero_le _)⟩
  | succ k ih =>
    have hpages := pages_nth_succ k i
    rw [hpages] at hZ
    obtain ⟨c, hc, hcsub⟩ := ih (by omega) (Set.union_subset_iff.mp hZ).1
    obtain ⟨d, hd, hdsub⟩ := ih (by omega) (Set.union_subset_iff.mp hZ).2
    have hxc := hcsub (nth k (2 * i)).start_mem
    have hxd := hdsub (nth k (2 * i + 1)).start_mem
    have hlow : (nth k (2 * i)).start ∈ (nth (k + 1) i).pages := by
      rw [hpages]
      exact .inl (start_mem _)
    have hhigh : (nth k (2 * i + 1)).start ∈ (nth (k + 1) i).pages := by
      rw [hpages]
      exact .inr (start_mem _)
    by_cases hco : k + 1 ≤ c.order
    · exact ⟨c, hc, pages_subset (nth_aligned _ _) (h.aligned c hc) hlow hxc hco⟩
    by_cases hdo : k + 1 ≤ d.order
    · exact ⟨d, hd, pages_subset (nth_aligned _ _) (h.aligned d hd) hhigh hxd hdo⟩
    -- otherwise both halves are tiles
    have hcn : k = c.order := Nat.le_antisymm (order_le_of_subset hcsub) (by omega)
    have hdn : k = d.order := Nat.le_antisymm (order_le_of_subset hdsub) (by omega)
    have hceq : nth k (2 * i) = c :=
      eq_of_order_eq (nth_aligned _ _) (h.aligned c hc) (start_mem _) hxc hcn
    have hdeq : nth k (2 * i + 1) = d :=
      eq_of_order_eq (nth_aligned _ _) (h.aligned d hd) (start_mem _) hxd hdn
    refine absurd ?_ (hl (nth k (2 * i)) (hceq ▸ hc) hk)
    rw [buddy_nth]
    exact hdeq ▸ hd

theorem Tiles.eq_maximal (h : Tiles T Z) (ho : ∀ b ∈ T, b.order ≤ M) (hl : Lonely M T) : T = maximal M Z := by
  have hcovered : ∀ b : Block, b.Aligned → b.order ≤ M → b.pages ⊆ Z → ∃ c ∈ T, b.pages ⊆ c.pages := by
    intro b hb hbM hbZ
    rw [nth_of_mem hb b.start_mem] at hbZ ⊢
    exact h.covered hl hbM hbZ
  ext b
  constructor
  · intro hb
    have hal := h.aligned b hb
    refine ⟨hal, ho b hb, h.subset hb, fun hbM hparent => ?_⟩
    obtain ⟨c, hc, hsub⟩ := hcovered b.parent hal.parent hbM hparent
    have hle : b.order + 1 ≤ c.order := order_le_of_subset hsub
    have hbc := h.eq_of_mem hb hc b.start_mem (hsub (start_mem_parent hal))
    rw [← hbc] at hle
    omega
  · rintro ⟨hal, hbM, hbZ, hbmax⟩
    obtain ⟨c, hc, hsub⟩ := hcovered b hal hbM hbZ
    have hcal := h.aligned c hc
    have hxc := hsub b.start_mem
    have hle := order_le_of_subset hsub
    by_cases heq : b.order = c.order
    · exact eq_of_order_eq hal hcal b.start_mem hxc heq ▸ hc
    · have hlt : b.order + 1 ≤ c.order := by omega
      have := ho c hc
      exact absurd ((pages_subset hal.parent hcal (start_mem_parent hal) hxc hlt).trans (h.subset hc))
        (hbmax (by omega))

end Maximal

section Census

open Classical in
/-- How many of the first `n` blocks of an order are tiles. -/
noncomputable def census (T : Set Block) (n k : ℕ) : ℕ :=
  ((Finset.range n).filter fun i => nth k i ∈ T).card

variable {T : Set Block} {n k j i : ℕ}

theorem census_insert (hi : i < n) (hnot : nth k i ∉ T) :
    census (insert (nth k i) T) n k = census T n k + 1 := by
  classical
  rw [census, census]
  have hset : (Finset.range n).filter (fun a => nth k a ∈ insert (nth k i) T) =
      insert i ((Finset.range n).filter fun a => nth k a ∈ T) := by
    ext a
    simp only [Finset.mem_filter, Finset.mem_insert, Finset.mem_range, Set.mem_insert_iff, nth_inj]
    constructor
    · rintro ⟨ha, rfl | hmem⟩
      · exact .inl rfl
      · exact .inr ⟨ha, hmem⟩
    · rintro (rfl | ⟨ha, hmem⟩)
      · exact ⟨hi, .inl rfl⟩
      · exact ⟨ha, .inr hmem⟩
  rw [Finset.filter_congr_decidable, hset, Finset.card_insert_of_notMem (by simp [hnot]),
    Finset.filter_congr_decidable]

theorem census_eq_of_ne {T' : Set Block} (h : k ≠ j) (hold : ∀ b ≠ nth j i, b ∈ T' ↔ b ∈ T) :
    census T' n k = census T n k := by
  have hne : ∀ a, nth k a ≠ nth j i := fun a heq => h (congrArg Block.order heq)
  rw [census, census]
  congr 1
  ext a
  simp [hold _ (hne a)]

theorem census_remove (hi : i < n) (hmem : nth k i ∈ T) : census (T \ {nth k i}) n k + 1 = census T n k := by
  rw [← census_insert hi (fun h => h.2 rfl), Set.insert_sdiff_singleton, Set.insert_eq_of_mem hmem]

end Census

end VDLinux.Base.Dyadic
