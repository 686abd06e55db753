import VDLinux.Tfsr.BlockMap

namespace VDLinux.Tfsr.BlockMapIndex

open Base.ExchangeSort BlockMap List

/-- The unit of bucket `b` covers exactly those of the first `k` fields that
fall into the bucket. -/
structure Covers (β : Nat → Nat) (k b : Nat) (u : BmlBadUnit) : Prop where
  bound : 0 < u.nNumOfBMFs → u.n1stBMFIdx + u.nNumOfBMFs ≤ k
  iff : ∀ j, j < k → (β j = b ↔ u.n1stBMFIdx ≤ j ∧ j < u.n1stBMFIdx + u.nNumOfBMFs)

variable {β : Nat → Nat} {k b : Nat}

theorem Covers.skip {u : BmlBadUnit} (h : Covers β k b u) (hb : β k ≠ b) : Covers β (k + 1) b u := by
  refine ⟨fun hp => Nat.le_succ_of_le (h.bound hp), ?_⟩
  intro j hj
  by_cases hjk : j = k
  · subst hjk
    refine ⟨fun he => absurd he hb, fun hin => ?_⟩
    have hbound := h.bound (by omega)
    omega
  · exact h.iff j (by omega)

theorem Covers.adjacent {u : BmlBadUnit} (h : Covers β k (β k) u) (hp : 0 < u.nNumOfBMFs)
    (hmono : ∀ i j, i ≤ j → j ≤ k → β i ≤ β j) : u.n1stBMFIdx + u.nNumOfBMFs = k := by
  have hbound := h.bound hp
  have hfirst := (h.iff u.n1stBMFIdx (by omega)).mpr (by omega)
  have hlast : β (k - 1) = β k := Nat.le_antisymm (hmono _ _ (by omega) (by omega))
      (hfirst ▸ hmono u.n1stBMFIdx (k - 1) (by omega) (by omega))
  have hin := (h.iff (k - 1) (by omega)).mp hlast
  omega

theorem countBMF_covers {pBUMap : Nat → BmlBadUnit} (hk : k + 1 < 2 ^ 16)
    (hmono : ∀ i j, i ≤ j → j ≤ k → β i ≤ β j) (h : Covers β k b (pBUMap b)) :
    Covers β (k + 1) b (countBMF (β k) k pBUMap b) := by
  by_cases hb : b = β k
  · subst hb
    rw [countBMF, Function.update_self]
    by_cases hz : (pBUMap (β k)).nNumOfBMFs = 0
    · simp only [hz, if_true, uint16, Nat.mod_eq_of_lt (Nat.lt_of_succ_lt hk)]
      refine ⟨fun _ => Nat.le_refl _, ?_⟩
      intro j hj
      by_cases hjk : j = k
      · subst hjk
        simp
      · have hiff := h.iff j (by omega)
        constructor
        · intro he
          omega
        · intro hin
          dsimp only at hin
          omega
    · have hadj := h.adjacent (Nat.pos_of_ne_zero hz) hmono
      simp only [hz, if_false, uint16, Nat.mod_eq_of_lt (show (pBUMap (β k)).nNumOfBMFs + 1 < 2 ^ 16 by omega)]
      refine ⟨fun _ => by dsimp only; omega, ?_⟩
      intro j hj
      dsimp only
      by_cases hjk : j = k
      · subst hjk
        omega
      · have hiff := h.iff j (by omega)
        omega
  · rw [countBMF, Function.update_of_ne hb]
    exact h.skip (Ne.symm hb)

theorem countAll_covers (n : Nat) (hn : n < 2 ^ 16) {pBUMap : Nat → BmlBadUnit}
    (hmono : ∀ i j, i ≤ j → j < n → β i ≤ β j) (h0 : (pBUMap b).nNumOfBMFs = 0) :
    Covers β n b ((List.range n).foldl (fun m nIdx => countBMF (β nIdx) nIdx m) pBUMap b) := by
  induction n with
  | zero => exact ⟨fun hp => by simp [h0] at hp, fun j hj => by omega⟩
  | succ n ih =>
    rw [range_succ, foldl_append]
    exact countBMF_covers (by omega) (fun i j hij hj => hmono i j hij (by omega))
      (ih (by omega) (fun i j hij hj => hmono i j hij (by omega)))

theorem getOnePlane_cases (pstBMF : Nat → BmlBMF) (nSbn left i : Nat) (d : BmlDieCxt) :
    (∀ r ∈ (getOnePlane pstBMF nSbn left i d).2, i ≤ r ∧ r < i + left) ∧
    ((∃ j, i ≤ j ∧ j < i + left ∧ (pstBMF j).nSbn.toNat = nSbn ∧
        (getOnePlane pstBMF nSbn left i d).1 = { d with nCurPbn0 := (pstBMF j).nRbn }) ∨
      (∀ j, i ≤ j → j < i + left → (pstBMF j).nSbn.toNat ≠ nSbn) ∧
        (getOnePlane pstBMF nSbn left i d).1 = d) := by
  induction left generalizing i with
  | zero => exact ⟨by simp [getOnePlane], .inr ⟨fun j hj hj' => by omega, rfl⟩⟩
  | succ left ih =>
    rw [getOnePlane]
    split_ifs with hm
    · exact ⟨forall_mem_singleton.mpr (by omega), .inl ⟨i, Nat.le_refl i, by omega, hm, rfl⟩⟩
    · obtain ⟨hread, hres⟩ := ih (i + 1)
      constructor
      · refine forall_mem_cons.mpr ⟨by omega, fun r hr => ?_⟩
        have hr' := hread r hr
        omega
      · obtain ⟨j, hj, hj', he, hd⟩ | ⟨hno, hd⟩ := hres
        · exact .inl ⟨j, by omega, by omega, he, hd⟩
        · refine .inr ⟨?_, hd⟩
          intro j hj hj'
          by_cases hji : j = i
          · rw [hji]
            exact hm
          · exact hno j (by omega) (by omega)

theorem getTwoPlane_cases (pstBMF : Nat → BmlBMF) {nSbn : Nat} (heven : nSbn % 2 = 0) (left i : Nat) (d : BmlDieCxt) :
    (∃ j, i ≤ j ∧ j < i + left ∧
      (∀ l, i ≤ l → l < j → (pstBMF l).nSbn.toNat ≠ nSbn ∧ (pstBMF l).nSbn.toNat ≠ nSbn + 1) ∧
      ((pstBMF j).nSbn.toNat = nSbn + 1 ∧ (getTwoPlane pstBMF nSbn left i d).1 =
            { d with nCurPbn1 := (pstBMF j).nRbn, nNumOfLLDOp := 1 } ∧
          (∀ r ∈ (getTwoPlane pstBMF nSbn left i d).2, r ≤ j) ∨
        (pstBMF j).nSbn.toNat = nSbn ∧
          (getTwoPlane pstBMF nSbn left i d).1 = getPair pstBMF nSbn j d ∧
          (∀ r ∈ (getTwoPlane pstBMF nSbn left i d).2, r ≤ j + 1) ∧
          j + 1 ∈ (getTwoPlane pstBMF nSbn left i d).2)) ∨
    (∀ l, i ≤ l → l < i + left → (pstBMF l).nSbn.toNat ≠ nSbn ∧ (pstBMF l).nSbn.toNat ≠ nSbn + 1) ∧
      (getTwoPlane pstBMF nSbn left i d).1 = d ∧
      ∀ r ∈ (getTwoPlane pstBMF nSbn left i d).2, r < i + left := by
  induction left generalizing i with
  | zero => exact .inr ⟨fun l hl hl' => by omega, rfl, by simp [getTwoPlane]⟩
  | succ left ih =>
    rw [getTwoPlane]
    by_cases h1 : (pstBMF i).nSbn.toNat = nSbn + 1
    · rw [if_pos (.inr h1), if_pos (by omega)]
      refine .inl ⟨i, Nat.le_refl i, by omega, fun l hl hl' => by omega, .inl ⟨h1, rfl, ?_⟩⟩
      intro r hr
      exact Nat.le_of_eq (mem_singleton.mp hr)
    by_cases h0 : (pstBMF i).nSbn.toNat = nSbn
    · rw [if_pos (.inl h0), if_neg (by omega)]
      refine .inl ⟨i, Nat.le_refl i, by omega, fun l hl hl' => by omega, .inr ⟨h0, rfl, ?_, by simp⟩⟩
      intro r hr
      simp only [mem_cons, not_mem_nil, or_false] at hr
      omega
    rw [if_neg (not_or.mpr ⟨h0, h1⟩)]
    have hskip : ∀ j, (∀ l, i + 1 ≤ l → l < j →
          (pstBMF l).nSbn.toNat ≠ nSbn ∧ (pstBMF l).nSbn.toNat ≠ nSbn + 1) →
        ∀ l, i ≤ l → l < j → (pstBMF l).nSbn.toNat ≠ nSbn ∧ (pstBMF l).nSbn.toNat ≠ nSbn + 1 := by
      intro j hj l hl hlj
      by_cases hli : l = i
      · rw [hli]
        exact ⟨h0, h1⟩
      · exact hj l (by omega) hlj
    obtain ⟨j, hj, hj', hno, ⟨hs, hd, hr⟩ | ⟨hs, hd, hr, hp⟩⟩ | ⟨hno, hd, hr⟩ := ih (i + 1)
    · refine .inl ⟨j, by omega, by omega, hskip j hno, .inl ⟨hs, hd, ?_⟩⟩
      exact forall_mem_cons.mpr ⟨by omega, hr⟩
    · refine .inl ⟨j, by omega, by omega, hskip j hno, .inr ⟨hs, hd, ?_, mem_cons_of_mem _ hp⟩⟩
      exact forall_mem_cons.mpr ⟨by omega, hr⟩
    · refine .inr ⟨?_, hd, ?_⟩
      · rw [show i + (left + 1) = i + 1 + left by omega]
        exact hskip _ hno
      · refine forall_mem_cons.mpr ⟨by omega, fun r hr' => ?_⟩
        have hlt := hr r hr'
        omega

end VDLinux.Tfsr.BlockMapIndex
