import VDLinux.Base.Intervals
import VDLinux.Mm.Memblock

namespace VDLinux.Mm.BootRegions

open Base.Intervals Function Set

def MemblockProperty.range (p : MemblockProperty) : ℕ × ℕ := (p.base, p.base + p.size)

namespace MemblockRegion

variable (rgn : MemblockRegion)

def ranges (i : ℕ) : ℕ × ℕ := (rgn.region i).range

def recorded : Set ℕ := covered rgn.cnt rgn.ranges

/-- The table with its first region: sorted, apart from each other, not wrapping. -/
structure Good : Prop where
  cnt_le : rgn.cnt ≤ maxMemblockRegions
  separated : Separated rgn.cnt rgn.ranges
  fits : ∀ i < rgn.cnt, (rgn.ranges i).2 < 2 ^ 64

def Records (S : Set ℕ) : Prop := rgn.Good ∧ rgn.recorded = S

def Dummy : Prop := rgn.cnt = 1 ∧ rgn.region 0 = ⟨0, 0⟩

end MemblockRegion

section Words

variable {a b : ℕ}

theorem add64_eq (h : a + b < 2 ^ 64) : add64 a b = a + b := Nat.mod_eq_of_lt h

theorem sub64_eq (ha : a < 2 ^ 64) (hb : b ≤ a) : sub64 a b = a - b := by
  rw [sub64, show a + (2 ^ 64 - b) = a - b + 2 ^ 64 by omega, Nat.add_mod_right, Nat.mod_eq_of_lt
    (by omega)]

end Words

section Loops

variable {u : Ulong} {region : ℕ → MemblockProperty}

theorem removeLoop_eq (rounds i : ℕ) (h : i + rounds ≤ maxMemblockRegions) :
    ∃ region', removeLoop rounds i region = some region' ∧
      ∀ j, region' j = if i ≤ j ∧ j < i + rounds then region (j + 1) else region j := by
  induction rounds generalizing i region with
  | zero => exact ⟨region, rfl, fun j => (if_neg (by omega)).symm⟩
  | succ rounds ih =>
    obtain ⟨region', heq, hat⟩ := @ih (update region i (region (i + 1))) (i + 1) (by omega)
    refine ⟨region', ?_, fun j => ?_⟩
    · rw [removeLoop, if_pos (by omega), heq]
    · rw [hat, update_apply, update_apply]
      split_ifs <;> first | omega | rfl | (subst_vars; rfl)

theorem removeLoop_none (rounds i : ℕ) (hpos : 0 < rounds) (h : maxMemblockRegions < i + rounds) :
    removeLoop rounds i region = none := by
  induction rounds generalizing i region with
  | zero => omega
  | succ rounds ih =>
    rw [removeLoop]
    split_ifs with hin
    · exact ih (i + 1) (by omega) (by omega)
    · rfl

theorem memblockRemoveRegion_eq {rgn : MemblockRegion} {r : ℕ} (hr : r < rgn.cnt)
    (hcnt : rgn.cnt ≤ maxMemblockRegions) :
    ∃ region', memblockRemoveRegion u rgn r = some ⟨rgn.cnt - 1, region'⟩ ∧
      ∀ i < rgn.cnt - 1, region' i = eraseAt rgn.region r i := by
  have hpred : u.pred rgn.cnt = rgn.cnt - 1 := if_neg (by omega)
  obtain ⟨region', heq, hat⟩ := @removeLoop_eq rgn.region (rgn.cnt - 1 - r) r (by omega)
  refine ⟨region', ?_, fun i hi => ?_⟩
  · rw [memblockRemoveRegion, hpred, heq, Option.map_some]
  · rw [hat, eraseAt]
    split_ifs <;> first | rfl | omega

theorem insertLoop_eq (base size : ℕ) {n k : ℕ} (hk : k ≤ n) (hbelow : ∀ i < k, (region i).base ≤ base)
    (habove : ∀ i, k ≤ i → i < n → base < (region i).base) (j : ℕ) :
    insertLoop base size n region j = if n < j then region j else if k < j then region (j - 1)
      else if j = k ∧ 0 < k then ⟨base, size⟩ else region j := by
  induction n generalizing region with
  | zero =>
    split_ifs <;> first | rfl | omega
  | succ n ih =>
    rw [insertLoop]
    rcases Nat.eq_or_lt_of_le hk with heq | hlt
    · have hle := hbelow n (by omega)
      rw [if_neg (by omega), update_apply]
      split_ifs <;> first | rfl | omega
    · have hgt := habove n (by omega) (by omega)
      have hsame : ∀ i < n + 1, update region (n + 1) (region n) i = region i :=
        fun i hi => update_of_ne (by omega) _ _
      rw [if_pos hgt, ih (by omega) (fun i hi => by rw [hsame i (by omega)]; exact hbelow i hi)
        (fun i hki hi => by rw [hsame i (by omega)]; exact habove i hki (by omega))]
      by_cases htop : j = n + 1
      · subst htop
        rw [if_pos (by omega), if_neg (by omega), if_pos (by omega), update_self]
        rfl
      · rw [update_of_ne htop, update_apply]
        split_ifs <;> first | rfl | omega

end Loops

section Add

variable {u : Ulong} {rgn : MemblockRegion} {base size : ℕ}

theorem range_fst (p : MemblockProperty) : p.range.1 = p.base := rfl

theorem range_snd (p : MemblockProperty) : p.range.2 = p.base + p.size := rfl

theorem ranges_eq (rgn : MemblockRegion) (i : ℕ) : rgn.ranges i = (rgn.region i).range := rfl

theorem ranges_update (cnt : ℕ) (region : ℕ → MemblockProperty) (i : ℕ) (p : MemblockProperty) :
    (⟨cnt, update region i p⟩ : MemblockRegion).ranges =
      update (⟨cnt, region⟩ : MemblockRegion).ranges i p.range := by
  funext j
  simp only [ranges_eq, update_apply]
  split_ifs <;> rfl

structure New (rgn : MemblockRegion) (base size : ℕ) : Prop where
  pos : 0 < size
  fits : base + size < 2 ^ 64
  apart : ∀ i < rgn.cnt, (rgn.ranges i).2 ≤ base ∨ base + size ≤ (rgn.ranges i).1

def Touches (rgn : MemblockRegion) (base size i : ℕ) : Prop :=
  (rgn.ranges i).1 = base + size ∨ (rgn.ranges i).2 = base

theorem addrsAdjacent_eq {base1 size1 base2 size2 : ℕ} (h1 : base1 + size1 < 2 ^ 64)
    (h2 : base2 + size2 < 2 ^ 64) : addrsAdjacent base1 size1 base2 size2 =
      if base2 = base1 + size1 then 1 else if base1 = base2 + size2 then -1 else 0 := by
  rw [addrsAdjacent, add64_eq h1, add64_eq h2]

theorem coalesceLoop_eq (hg : rgn.Good) (hnew : New rgn base size) (rounds i : ℕ)
    (hi : i + rounds = rgn.cnt) (hno : ∀ j < i, ¬ Touches rgn base size j) :
    (∀ j < rgn.cnt, ¬ Touches rgn base size j) ∧
      coalesceLoop base size rgn.region rounds i = some (rgn.region, rgn.cnt, 0) ∨
    ∃ k < rgn.cnt, (∀ j < k, ¬ Touches rgn base size j) ∧
      ((rgn.ranges k).1 = base + size ∧ coalesceLoop base size rgn.region rounds i =
        some (update rgn.region k ⟨base, (rgn.region k).size + size⟩, k, 1) ∨
      (rgn.ranges k).2 = base ∧ coalesceLoop base size rgn.region rounds i =
        some (update rgn.region k ⟨(rgn.region k).base, (rgn.region k).size + size⟩, k, 1)) := by
  induction rounds generalizing i with
  | zero =>
    obtain rfl : i = rgn.cnt := by omega
    exact Or.inl ⟨hno, rfl⟩
  | succ rounds ih =>
    have hin : i < rgn.cnt := by omega
    have hfits := hg.fits i hin
    have hpos := hg.separated.pos i hin
    have hap := hnew.apart i hin
    have hend := hnew.fits
    simp only [ranges_eq, range_fst, range_snd] at hfits hpos hap
    have hdiff : ¬ ((rgn.region i).base = base ∧ (rgn.region i).size = size) := by omega
    simp only [coalesceLoop, if_neg hdiff, addrsAdjacent_eq hnew.fits hfits]
    by_cases hlow : (rgn.region i).base = base + size
    · refine Or.inr ⟨i, hin, hno, Or.inl ⟨hlow, ?_⟩⟩
      rw [if_pos hlow, if_pos Int.one_pos, sub64_eq (by omega) (by omega), add64_eq (by omega), hlow,
        Nat.add_sub_cancel]
    rw [if_neg hlow]
    by_cases hhigh : base = (rgn.region i).base + (rgn.region i).size
    · refine Or.inr ⟨i, hin, hno, Or.inr ⟨hhigh.symm, ?_⟩⟩
      rw [if_pos hhigh, if_neg (by decide), if_pos (by decide), add64_eq (by omega)]
    rw [if_neg hhigh, if_neg (by decide), if_neg (by decide)]
    refine ih (i + 1) (by omega) fun j hj => ?_
    rcases Nat.lt_succ_iff_lt_or_eq.mp hj with hlt | rfl
    · exact hno j hlt
    · rintro (h | h)
      · exact hlow h
      · exact hhigh h.symm

variable {region : ℕ → MemblockProperty}

theorem good_of {cnt : ℕ} {f : ℕ → ℕ × ℕ}
    (h : ∀ i < cnt, (region i).range = f i) (hcnt : cnt ≤ maxMemblockRegions) (hf : Separated cnt f)
    (hfits : ∀ i < cnt, (f i).2 < 2 ^ 64) :
    MemblockRegion.Records ⟨cnt, region⟩ (covered cnt f) :=
  ⟨⟨hcnt, hf.congr fun i hi => (h i hi).symm, fun i hi =>
    (congrArg Prod.snd (h i hi)).trans_lt (hfits i hi)⟩, covered_congr h⟩

variable (hg : rgn.Good)
include hg

theorem inserted_good (hnew : New rgn base size) (hpos : 0 < rgn.cnt)
    (hroom : rgn.cnt < maxMemblockRegions) (hno : ∀ j < rgn.cnt, ¬ Touches rgn base size j) :
    let region := insertLoop base size rgn.cnt rgn.region
    let region := if base < (region 0).base then update region 0 ⟨base, size⟩ else region
    MemblockRegion.Records ⟨rgn.cnt + 1, region⟩ (rgn.recorded ∪ Ico base (base + size)) := by
  obtain ⟨k, hk, hbelow, habove⟩ := hg.separated.exists_position base
  have hsize := hnew.pos
  have hend := hnew.fits
  have hbelow' : ∀ i < k, (rgn.ranges i).2 < base := by
    intro i hi
    have hap := hnew.apart i (by omega)
    have hlo := hbelow i hi
    have ht := hno i (by omega)
    rw [Touches] at ht
    omega
  have habove' : ∀ i, k ≤ i → i < rgn.cnt → base + size < (rgn.ranges i).1 := by
    intro i hki hi
    have hap := hnew.apart i hi
    have hlo := habove i hki hi
    have hp := hg.separated.pos i hi
    have ht := hno i hi
    rw [Touches] at ht
    omega
  have hloop := insertLoop_eq base size hk hbelow habove
  intro region region'
  have hfirst : region 0 = rgn.region 0 := by
    refine (hloop 0).trans ?_
    rw [if_neg (by omega), if_neg (by omega), if_neg (by omega)]
  have hat : ∀ i < rgn.cnt + 1, (region' i).range = insertAt rgn.ranges k (base, base + size) i := by
    intro i hi
    -- only a base below all others reaches the first entry
    have hlow : base < (region 0).base ↔ k = 0 := by
      rw [hfirst]
      constructor
      · intro h
        by_contra hk0
        exact absurd (hbelow 0 (by omega)) (Nat.not_le.mpr h)
      · intro h
        exact habove 0 (by omega) hpos
    simp only [region', hlow, insertAt]
    by_cases hk0 : k = 0
    · rw [if_pos hk0, if_neg (by omega), update_apply, hk0]
      by_cases hi0 : i = 0
      · rw [if_pos hi0, if_pos hi0]
        rfl
      · rw [if_neg hi0, if_neg hi0, ranges_eq]
        refine congrArg _ ((hloop i).trans ?_)
        rw [if_neg (by omega), if_pos (by omega)]
    · rw [if_neg hk0]
      refine (congrArg _ (hloop i)).trans ?_
      split_ifs <;> first | rfl | omega
  have hsep := hg.separated.insertAt (e := (base, base + size)) hk (show base < base + size by omega)
    hbelow' habove'
  obtain ⟨hgood, hrec⟩ := good_of hat hroom hsep (by
    intro i hi
    rw [insertAt]
    split_ifs
    · exact hg.fits i (by omega)
    · exact hend
    · exact hg.fits (i - 1) (by omega))
  exact ⟨hgood, hrec.trans (covered_insertAt hk _)⟩

theorem updated_good {k : ℕ} (hk : k < rgn.cnt) {p : MemblockProperty} (hp : 0 < p.size)
    (hfits : p.base + p.size < 2 ^ 64) (hbelow : ∀ i < k, (rgn.ranges i).2 < p.base)
    (habove : ∀ i, k < i → i < rgn.cnt → p.base + p.size < (rgn.ranges i).1) :
    MemblockRegion.Records ⟨rgn.cnt, update rgn.region k p⟩
      (rgn.recorded \ Ico (rgn.ranges k).1 (rgn.ranges k).2 ∪ Ico p.base (p.base + p.size)) := by
  have hat : ∀ i < rgn.cnt, (update rgn.region k p i).range = update rgn.ranges k
    p.range i :=
    fun i _ => congrFun (ranges_update rgn.cnt rgn.region k p) i
  have hsep := hg.separated.update (e := p.range) (Nat.lt_add_of_pos_right hp) hbelow habove
  obtain ⟨hgood, hrec⟩ := good_of hat hg.cnt_le hsep (by
    intro i hi
    rw [update_apply]
    split_ifs
    · exact hfits
    · exact hg.fits i hi)
  exact ⟨hgood, hrec.trans (hg.separated.covered_update hk _)⟩

theorem grown_low_good (hnew : New rgn base size) {k : ℕ} (hk : k < rgn.cnt)
    (hlow : (rgn.ranges k).1 = base + size) (hno : ∀ j < k, ¬ Touches rgn base size j) :
    let region := update rgn.region k ⟨base, (rgn.region k).size + size⟩
    MemblockRegion.Records ⟨rgn.cnt, region⟩ (rgn.recorded ∪ Ico base (base + size)) := by
  have hend := hg.fits k hk
  have hpos := hg.separated.pos k hk
  have hsum : base + ((rgn.region k).size + size) = (rgn.ranges k).2 := by
    rw [ranges_eq, range_fst] at hlow
    rw [ranges_eq, range_snd, hlow]
    omega
  obtain ⟨hgood, hrec⟩ := @updated_good rgn hg k hk ⟨base, (rgn.region k).size + size⟩ (by simp only; omega)
    (hsum.trans_lt hend) (by
      intro i hi
      have hap := hnew.apart i (by omega)
      have hgap := hg.separated.gap i k hi hk
      have hp := hg.separated.pos i (by omega)
      have ht := hno i hi
      rw [Touches] at ht
      simp only
      omega)
    (by
      intro i hki hi
      simp only [hsum]
      exact hg.separated.gap k i hki hi)
  refine ⟨hgood, hrec.trans ?_⟩
  simp only [hsum]
  refine replace_grown (Ico_subset_covered hk) fun x => ?_
  omega

theorem grown_high_good (hsize : 0 < size) (hend : base + size < 2 ^ 64) {k : ℕ} (hk : k < rgn.cnt)
    (hhigh : (rgn.ranges k).2 = base) (hnext : ∀ i, k < i → i < rgn.cnt → base + size < (rgn.ranges i).1) :
    let region := update rgn.region k ⟨(rgn.region k).base, (rgn.region k).size + size⟩
    MemblockRegion.Records ⟨rgn.cnt, region⟩ (rgn.recorded ∪ Ico base (base + size)) := by
  have hpos := hg.separated.pos k hk
  have hsum : (rgn.region k).base + ((rgn.region k).size + size) = base + size := by
    rw [ranges_eq, range_snd] at hhigh
    omega
  obtain ⟨hgood, hrec⟩ := @updated_good rgn hg k hk ⟨(rgn.region k).base, (rgn.region k).size + size⟩
    (by simp only; omega) (hsum.trans_lt hend) (fun i hi => hg.separated.gap i k hi hk)
    (fun i hki hi => hsum.trans_lt (hnext i hki hi))
  refine ⟨hgood, hrec.trans ?_⟩
  simp only [hsum]
  refine replace_grown (Ico_subset_covered hk) fun x => ?_
  rw [ranges_eq, range_fst, ← ranges_eq] at hpos ⊢
  omega

theorem erased_good {r : ℕ} (hr : r < rgn.cnt)
    (hat : ∀ i < rgn.cnt - 1, region i = eraseAt rgn.region r i) :
    MemblockRegion.Records ⟨rgn.cnt - 1, region⟩ (rgn.recorded \ Ico (rgn.ranges r).1 (rgn.ranges r).2) := by
  have hranges : ∀ i < rgn.cnt - 1, (region i).range = eraseAt rgn.ranges r i := by
    intro i hi
    rw [hat i hi, eraseAt, eraseAt]
    split_ifs <;> rfl
  obtain ⟨hgood, hrec⟩ := good_of hranges (by have := hg.cnt_le; omega) (hg.separated.eraseAt r) (by
    intro i hi
    rw [eraseAt]
    split_ifs
    · exact hg.fits i (by omega)
    · exact hg.fits (i + 1) (by omega))
  exact ⟨hgood, hrec.trans (hg.separated.covered_eraseAt hr)⟩

theorem joined_good {k : ℕ} (hk : k + 1 < rgn.cnt) (hsize : 0 < size) (hhigh : (rgn.ranges k).2 = base)
    (hlow : (rgn.ranges (k + 1)).1 = base + size)
    (hat : ∀ i < rgn.cnt - 1, region i = eraseAt (update rgn.region k
      ⟨(rgn.region k).base, (rgn.region k).size + size + (rgn.region (k + 1)).size⟩) (k + 1) i) :
    MemblockRegion.Records ⟨rgn.cnt - 1, region⟩ (rgn.recorded ∪ Ico base (base + size)) := by
  have hend : base + (size + (rgn.region (k + 1)).size) = (rgn.ranges (k + 1)).2 := by
    rw [← Nat.add_assoc, ← hlow]
    rfl
  have hself : eraseAt rgn.region (k + 1) k = rgn.region k := if_pos (Nat.lt_succ_self k)
  -- without the region above, the one below takes in the range and that region
  obtain ⟨hgood, hrec⟩ := erased_good hg hk (fun i _ => rfl)
  obtain ⟨hgood', hrec'⟩ := grown_high_good hgood (Nat.add_pos_left hsize (rgn.region (k + 1)).size)
    (hend.trans_lt (hg.fits (k + 1) hk)) (k := k) (by simp only; omega)
    ((congrArg (fun p : MemblockProperty => p.range.2) hself).trans hhigh)
    (fun i hki hi => by
      have habove : eraseAt rgn.region (k + 1) i = rgn.region (i + 1) := if_neg (by omega)
      simp only [ranges_eq, habove, hend] at hi ⊢
      exact hg.separated.gap (k + 1) (i + 1) (by omega) (by omega))
  simp only [hself, ← Nat.add_assoc, ← eraseAt_update] at hgood' hrec'
  obtain ⟨hgood'', hrec''⟩ := good_of (fun i hi => congrArg _ (hat i hi)) hgood'.cnt_le hgood'.separated
    hgood'.fits
  refine ⟨hgood'', hrec''.trans (hrec'.trans ?_)⟩
  rw [hrec, Nat.add_assoc, hend, ← Set.Ico_union_Ico_eq_Ico (Nat.le_add_right base size) (by omega), ← hlow,
    Set.union_comm (Ico base _), ← Set.union_assoc]
  exact congrArg (· ∪ _) (Set.sdiff_union_of_subset (Ico_subset_covered hk))

theorem regionsAdjacent_eq_zero {i : ℕ} (hi : i + 1 < rgn.cnt) :
    regionsAdjacent rgn i (i + 1) = 0 := by
  have hgap := hg.separated.gap i (i + 1) (Nat.lt_succ_self i) hi
  have hpos := hg.separated.pos (i + 1) hi
  have hfits := hg.fits i (by omega)
  have hfits1 := hg.fits (i + 1) hi
  simp only [ranges_eq, range_fst, range_snd] at hgap hpos hfits hfits1
  rw [regionsAdjacent, addrsAdjacent_eq hfits hfits1, if_neg (by omega), if_neg (by omega)]

omit hg

structure AddOutcome (rgn : MemblockRegion) (base size : ℕ) (code : ℤ) (rgn' : MemblockRegion) : Prop where
  full_iff : code = -1 ↔ rgn.cnt = maxMemblockRegions ∧ ∀ j < rgn.cnt, ¬ Touches rgn base size j
  full : code = -1 → rgn' = rgn
  good : code ≠ -1 → rgn'.Good ∧ rgn'.recorded = rgn.recorded ∪ Set.Ico base (base + size)

theorem addOutcome_of_good {rgn' : MemblockRegion} {code : ℤ} (hcode : code ≠ -1)
    (hroom : rgn.cnt < maxMemblockRegions ∨ ∃ j < rgn.cnt, Touches rgn base size j)
    (h : rgn'.Records (rgn.recorded ∪ Ico base (base + size))) :
    AddOutcome rgn base size code rgn' where
  full_iff := by
    refine ⟨fun h => absurd h hcode, ?_⟩
    rintro ⟨hfull, hno⟩
    rcases hroom with hlt | ⟨j, hj, ht⟩
    · omega
    · exact absurd ht (hno j hj)
  full h := absurd h hcode
  good _ := h

theorem memblockAddRegion_outcome (hg : rgn.Good) (hpos : 0 < rgn.cnt) (hnew : New rgn base size) :
    ∃ code rgn', memblockAddRegion u rgn base size = some (code, rgn') ∧
      AddOutcome rgn base size code rgn' := by
  have hpred : u.pred rgn.cnt = rgn.cnt - 1 := if_neg (by omega)
  have hfirst : ¬ (rgn.cnt = 1 ∧ (rgn.region 0).size = 0) := by
    have := hg.separated.pos 0 hpos
    rw [ranges_eq, range_fst, range_snd] at this
    omega
  rw [memblockAddRegion, if_neg hfirst]
  rcases coalesceLoop_eq hg hnew rgn.cnt 0 (Nat.zero_add _) (fun j hj => absurd hj (Nat.not_lt_zero j)) with
    ⟨hno, heq⟩ | ⟨k, hk, hno, ⟨hlow, heq⟩ | ⟨hhigh, heq⟩⟩
  · -- nothing to join with
    simp only [heq, addBehindLoop, hpred]
    rw [if_neg (by omega), if_neg (by decide)]
    by_cases hfull : maxMemblockRegions ≤ rgn.cnt
    · rw [if_pos hfull]
      have hcnt := hg.cnt_le
      exact ⟨-1, rgn, rfl, ⟨⟨fun _ => ⟨by omega, hno⟩, fun _ => rfl⟩, fun _ => rfl, fun h => absurd rfl h⟩⟩
    · rw [if_neg hfull]
      exact ⟨0, _, rfl, addOutcome_of_good (by decide) (Or.inl (by omega))
        (inserted_good hg hnew hpos (by omega) hno)⟩
  · -- the region above takes the new range in
    simp only [heq, addBehindLoop, hpred]
    have hgood := grown_low_good hg hnew hk hlow hno
    rw [if_neg fun h => h.2 (regionsAdjacent_eq_zero hgood.1 (by simp only; omega)), if_pos (by decide)]
    exact ⟨1, _, rfl, addOutcome_of_good (by decide) (Or.inr ⟨k, hk, Or.inl hlow⟩) hgood⟩
  · simp only [heq, addBehindLoop, hpred]
    have hpos1 : ∀ i, k < i → i < rgn.cnt → base + size ≤ (rgn.ranges i).1 := by
      intro i hki hi
      have hap := hnew.apart i hi
      have hgap := hg.separated.gap k i hki hi
      have hp := hg.separated.pos i hi
      omega
    by_cases hjoin : k + 1 < rgn.cnt ∧ (rgn.ranges (k + 1)).1 = base + size
    · -- and closes the gap to the next region
      obtain ⟨region', hrem, hat⟩ := @memblockRemoveRegion_eq u ⟨rgn.cnt, update rgn.region k
        ⟨(rgn.region k).base, (rgn.region k).size + size + (rgn.region (k + 1)).size⟩⟩
          (k + 1) hjoin.1 hg.cnt_le
      have hfits1 := hg.fits (k + 1) hjoin.1
      simp only [ranges_eq, range_fst, range_snd] at hhigh hjoin hfits1
      have hadj : regionsAdjacent ⟨rgn.cnt, update rgn.region k
          ⟨(rgn.region k).base, (rgn.region k).size + size⟩⟩ k (k + 1) = 1 := by
        simp only [regionsAdjacent, update_self, update_of_ne (Nat.succ_ne_self k)]
        rw [addrsAdjacent_eq (by omega) hfits1, if_pos (by omega)]
      rw [if_pos ⟨by omega, by rw [hadj]; decide⟩]
      simp only [memblockCoalesceRegions, update_self, update_of_ne (Nat.succ_ne_self k),
        update_idem,
          add64_eq (show (rgn.region k).size + size + (rgn.region (k + 1)).size < 2 ^ 64 by
          omega), hrem, Option.map_some]
      refine ⟨_, _, rfl, addOutcome_of_good (by decide) (Or.inr ⟨k, hk, Or.inr hhigh⟩) ?_⟩
      exact joined_good hg hjoin.1 hnew.pos hhigh hjoin.2 hat
    · have hgood := grown_high_good hg hnew.pos hnew.fits hk hhigh fun i hki hi => by
        have hle := hpos1 i hki hi
        rcases Nat.eq_or_lt_of_le hki with rfl | hlt
        · exact lt_of_le_of_ne hle fun h => hjoin ⟨hi, h.symm⟩
        · have := hpos1 (k + 1) (Nat.lt_succ_self k) (by omega)
          exact this.trans_lt (hg.separated.lo_lt hlt hi)
      rw [if_neg fun h => h.2 (regionsAdjacent_eq_zero hgood.1 (by simp only; omega)), if_pos (by decide)]
      exact ⟨1, _, rfl, addOutcome_of_good (by decide) (Or.inr ⟨k, hk, Or.inr hhigh⟩) hgood⟩

end Add

end VDLinux.Mm.BootRegions
