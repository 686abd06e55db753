import VDLinux.Mm.MemblockSets

namespace VDLinux.Mm.BootRegions

open Base.Intervals Function Option Set

section Tables

variable {u : Ulong} {rgn rgn' : MemblockRegion} {base size : ℕ}

/-- The regions are sorted by base and pairwise disjoint, and `S` is their union. -/
structure Exact (rgn : MemblockRegion) (S : Set ℕ) : Prop where
  sorted : ∀ i j, i < j → j < rgn.cnt → (rgn.region i).base ≤ (rgn.region j).base
  disjoint : ∀ i j, i < j → j < rgn.cnt →
    Disjoint (Set.Ico (rgn.ranges i).1 (rgn.ranges i).2) (Set.Ico (rgn.ranges j).1 (rgn.ranges j).2)
  union : rgn.recorded = S

def Inv (rgn : MemblockRegion) : Prop := rgn.Dummy ∨ rgn.Good

theorem single_recorded (hcnt : rgn.cnt = 1) :
    rgn.recorded = Ico (rgn.region 0).base ((rgn.region 0).base + (rgn.region 0).size) := by
  ext x
  constructor
  · rintro ⟨i, hi, hx⟩
    obtain rfl : i = 0 := by omega
    exact hx
  · exact fun hx => ⟨0, by omega, hx⟩

theorem Dummy.recorded_eq (h : rgn.Dummy) : rgn.recorded = ∅ := by
  rw [single_recorded h.1, h.2]
  exact Set.Ico_self 0

theorem Inv.exact (h : Inv rgn) : Exact rgn rgn.recorded := by
  rcases h with h | h
  · have hcnt := h.1
    exact ⟨fun i j hij hj => by omega, fun i j hij hj => by omega, rfl⟩
  · refine ⟨fun i j hij hj => (h.separated.lo_lt hij hj).le, fun i j hij hj => ?_, rfl⟩
    rw [Set.disjoint_left]
    intro x hx hx'
    have hgap := h.separated.gap i j hij hj
    exact absurd (hx.2.trans hgap) (Nat.not_lt.mpr hx'.1)

/-- A call gives the set `S'`, or `-1` and the set is still `S`. -/
def Right (result : Option (ℤ × MemblockRegion)) (S S' : Set ℕ) : Prop :=
  ∃ code rgn', result = some (code, rgn') ∧ Exact rgn' (if code = -1 then S else S')

structure AddAllowed (rgn : MemblockRegion) (base size : ℕ) : Prop where
  pos : 0 < size
  fits : base + size < 2 ^ 64
  disjoint : Disjoint (Set.Ico base (base + size)) rgn.recorded

structure RemoveAllowed (rgn : MemblockRegion) (base size : ℕ) : Prop where
  fits : base + size < 2 ^ 64
  inside : ∃ i < rgn.cnt, (rgn.ranges i).1 ≤ base ∧ base + size ≤ (rgn.ranges i).2

/-- A table that has been emptied takes the range only if the entries left over from before do not touch
each other and the first one is overwritten, or is the range already. -/
def AddSafe (rgn : MemblockRegion) (base size : ℕ) : Prop :=
  rgn.cnt = 0 → regionsAdjacent rgn 0 1 = 0 ∧ (base < (rgn.region 0).base ∨ rgn.region 0 = ⟨base, size⟩)

/-- A hole in the middle of a region needs a free entry. -/
def RemoveSafe (rgn : MemblockRegion) (base size : ℕ) : Prop :=
  ¬ (size ≠ 0 ∧ rgn.cnt = maxMemblockRegions ∧
    ∃ i < rgn.cnt, (rgn.ranges i).1 < base ∧ base + size < (rgn.ranges i).2)

instance : Decidable (AddSafe rgn base size) := inferInstanceAs (Decidable (_ → _))

theorem Good.of_cnt_zero (h : rgn.cnt = 0) : rgn.Good :=
  ⟨by omega, ⟨fun i hi => by omega, fun i j hij hj => by omega⟩, fun i hi => by omega⟩

theorem recorded_of_cnt_zero (h : rgn.cnt = 0) : rgn.recorded = ∅ := by
  ext x
  constructor
  · rintro ⟨i, hi, -⟩
    omega
  · exact fun hx => hx.elim

theorem single_good (hcnt : rgn.cnt = 1) (hp : rgn.region 0 = ⟨base, size⟩) (hpos : 0 < size)
    (hfits : base + size < 2 ^ 64) : rgn.Records (Ico base (base + size)) := by
  have hat : ∀ i < rgn.cnt, rgn.ranges i = (base, base + size) := by
    intro i hi
    obtain rfl : i = 0 := by omega
    rw [ranges_eq, hp]
    rfl
  refine ⟨⟨by rw [hcnt]; decide, ⟨fun i hi => ?_, fun i j hij hj => by omega⟩, fun i hi => ?_⟩, ?_⟩
  · rw [hat i hi]
    exact Nat.lt_add_of_pos_right hpos
  · rw [hat i hi]
    exact hfits
  · rw [single_recorded hcnt, hp]

theorem memblockAddRegion_empty (hcnt : rgn.cnt = 0) : memblockAddRegion u rgn base size =
      if regionsAdjacent rgn 0 1 ≠ 0 then none
      else some (0, ⟨1, if base < (rgn.region 0).base then update rgn.region 0 ⟨base, size⟩
        else rgn.region⟩) := by
  have hmax := u.max_ge
  rw [memblockAddRegion, if_neg (by omega), hcnt]
  simp only [coalesceLoop, addBehindLoop, Ulong.pred, if_true]
  have hpos : 0 < u.max := by omega
  by_cases hadj : regionsAdjacent rgn 0 1 = 0
  · have hadj' : ¬ (0 < u.max ∧ regionsAdjacent ⟨0, rgn.region⟩ 0 (0 + 1) ≠ 0) := fun h => h.2 hadj
    rw [if_neg hadj', if_neg (by decide), if_neg (by decide), if_neg (not_not.mpr hadj)]
    rfl
  · have hadj' : 0 < u.max ∧ regionsAdjacent ⟨0, rgn.region⟩ 0 (0 + 1) ≠ 0 := ⟨hpos, hadj⟩
    have hloop : ∀ region, removeLoop (u.max - 1) 1 region = none := fun region =>
      removeLoop_none (u.max - 1) 1 (by omega) (by rw [maxMemblockRegions]; omega)
    rw [if_pos hadj', if_pos hadj]
    simp only [memblockCoalesceRegions, memblockRemoveRegion, Ulong.pred, if_true, Nat.zero_add, hloop,
      map_none]

theorem AddAllowed.new (h : AddAllowed rgn base size) (hg : rgn.Good) : New rgn base size :=
  ⟨h.pos, h.fits, fun _ hi => hg.separated.apart (Nat.lt_add_of_pos_right h.pos) h.disjoint hi⟩

def Sound (result : Option (ℤ × MemblockRegion)) (S S' : Set ℕ) : Prop :=
  ∃ code rgn', result = some (code, rgn') ∧ Inv rgn' ∧ rgn'.recorded = if code = -1 then S else S'

theorem add_sound (hinv : Inv rgn) (hall : AddAllowed rgn base size) (hsafe : AddSafe rgn base size) :
    Sound (memblockAddRegion u rgn base size) rgn.recorded
      (rgn.recorded ∪ Ico base (base + size)) := by
  have hsingle : ∀ rgn' : MemblockRegion, rgn.recorded = ∅ → rgn'.cnt = 1 → rgn'.region 0 = ⟨base, size⟩ →
      Inv rgn' ∧ rgn'.recorded = rgn.recorded ∪ Ico base (base + size) := by
    intro rgn' hempty hcnt hreg
    obtain ⟨hgood, hrec⟩ := single_good hcnt hreg hall.pos hall.fits
    exact ⟨Or.inr hgood, by rw [hrec, hempty, Set.empty_union]⟩
  rcases hinv with hd | hg
  · rw [memblockAddRegion, if_pos ⟨hd.1, by rw [hd.2]⟩]
    exact ⟨0, _, rfl, hsingle _ (Dummy.recorded_eq hd) hd.1 (by simp only [update_self])⟩
  by_cases hcnt : rgn.cnt = 0
  · obtain ⟨hadj, hfirst⟩ := hsafe hcnt
    rw [memblockAddRegion_empty hcnt, if_neg (not_not.mpr hadj)]
    refine ⟨0, _, rfl, hsingle _ (recorded_of_cnt_zero hcnt) rfl ?_⟩
    split_ifs with hlow
    · simp only [update_self]
    · exact hfirst.resolve_left hlow
  · obtain ⟨code, rgn', heq, hout⟩ := @memblockAddRegion_outcome u rgn base size hg (by omega) (hall.new hg)
    refine ⟨code, rgn', heq, ?_⟩
    split_ifs with hcode
    · rw [hout.full hcode]
      exact ⟨Or.inr hg, rfl⟩
    · exact ⟨Or.inr (hout.good hcode).1, (hout.good hcode).2⟩

theorem addSafe_of_right (hall : AddAllowed rgn base size)
    (h : Right (memblockAddRegion u rgn base size) rgn.recorded
      (rgn.recorded ∪ Ico base (base + size))) : AddSafe rgn base size := by
  intro hcnt
  obtain ⟨code, rgn', heq, hexact⟩ := h
  rw [memblockAddRegion_empty hcnt] at heq
  by_cases hadj : regionsAdjacent rgn 0 1 = 0
  · refine ⟨hadj, ?_⟩
    by_cases hlow : base < (rgn.region 0).base
    · exact Or.inl hlow
    rw [if_neg (not_not.mpr hadj), if_neg hlow] at heq
    obtain ⟨rfl, rfl⟩ := Prod.mk.inj (Option.some.inj heq)
    -- the entry left over is what is recorded
    have hunion := hexact.union
    rw [if_neg (by decide), recorded_of_cnt_zero hcnt, Set.empty_union] at hunion
    rw [single_recorded rfl, Set.Ico_eq_Ico_iff (.inr (Nat.lt_add_of_pos_right hall.pos))] at hunion
    obtain ⟨hb, hs⟩ := hunion
    right
    rcases hreg : rgn.region 0 with ⟨b, s⟩
    rw [hreg] at hb hs
    simp only at hb hs
    rw [hb, show s = size by omega]
  · rw [if_pos hadj] at heq
    exact absurd heq (by simp)

end Tables

section Remove

variable {u : Ulong} {rgn : MemblockRegion} {base size : ℕ}

theorem findLoop_eq (hg : rgn.Good) {k : ℕ} (hk : k < rgn.cnt) (hlo : (rgn.ranges k).1 ≤ base)
    (hhi : base + size ≤ (rgn.ranges k).2) (rounds i : ℕ) (hik : i ≤ k) (hkr : k < i + rounds) :
    findLoop base (base + size) rgn.region rounds i = some k := by
  induction rounds generalizing i with
  | zero => omega
  | succ rounds ih =>
    have hend : add64 (rgn.region i).base (rgn.region i).size = (rgn.ranges i).2 :=
      add64_eq (hg.fits i (by omega))
    rw [findLoop, hend]
    rcases Nat.eq_or_lt_of_le hik with rfl | hlt
    · rw [if_pos ⟨hlo, hhi⟩]
    · have hgap := hg.separated.gap i k hlt hk
      rw [if_neg (by omega)]
      exact ih (i + 1) hlt (by omega)

/-- What `__memblock_remove` does with a range inside region `k`. -/
structure RemoveOutcome (rgn : MemblockRegion) (base size k : ℕ) (code : ℤ) (rgn' : MemblockRegion) :
    Prop where
  full_iff : code = -1 ↔ size ≠ 0 ∧ rgn.cnt = maxMemblockRegions ∧ (rgn.ranges k).1 < base ∧
    base + size < (rgn.ranges k).2
  lost : code = -1 → rgn'.recorded ≠ rgn.recorded
  good : code ≠ -1 → rgn'.Good ∧ rgn'.recorded = rgn.recorded \ Set.Ico base (base + size)

theorem removeOutcome_of_good {rgn' : MemblockRegion} {k : ℕ}
    (hedge : ¬ ((rgn.ranges k).1 < base ∧ base + size < (rgn.ranges k).2))
    (h : rgn'.Records (rgn.recorded \ Ico base (base + size))) :
    RemoveOutcome rgn base size k 0 rgn' :=
  ⟨⟨fun h => absurd h (by decide), fun h => absurd h.2.2 hedge⟩, fun h => absurd h (by decide), fun _ => h⟩

theorem shrunk_good (hg : rgn.Good) {k : ℕ} (hk : k < rgn.cnt) {p : MemblockProperty} {a b : ℕ}
    (hpos : 0 < p.size) (hlo : (rgn.ranges k).1 ≤ p.base) (hhi : p.base + p.size ≤ (rgn.ranges k).2)
    (ha : (rgn.ranges k).1 ≤ a) (hb : b ≤ (rgn.ranges k).2)
    (hp : ∀ x, p.base ≤ x ∧ x < p.base + p.size ↔
      ((rgn.ranges k).1 ≤ x ∧ x < (rgn.ranges k).2) ∧ ¬ (a ≤ x ∧ x < b)) :
    MemblockRegion.Records ⟨rgn.cnt, update rgn.region k p⟩ (rgn.recorded \ Ico a b) := by
  obtain ⟨hgood, hrec⟩ := updated_good hg hk hpos (hhi.trans_lt (hg.fits k hk))
    (fun i hi => (hg.separated.gap i k hi hk).trans_le hlo)
    (fun i hki hi => hhi.trans_lt (hg.separated.gap k i hki hi))
  exact ⟨hgood, hrec.trans (replace_shrunk (Ico_subset_covered hk) hp ha hb)⟩

theorem split_outcome (hg : rgn.Good) {k : ℕ} (hk : k < rgn.cnt) (hlo : (rgn.ranges k).1 < base)
    (hhi : base + size < (rgn.ranges k).2) :
    ∃ code rgn', memblockAddRegion u ⟨rgn.cnt, update rgn.region k
        ⟨(rgn.region k).base, base - (rgn.region k).base⟩⟩ (base + size)
          ((rgn.ranges k).2 - (base + size)) =
          some (code, rgn') ∧ RemoveOutcome rgn base size k code rgn' := by
  have hfits := hg.fits k hk
  have hlow : (rgn.region k).base < base := hlo
  have hsum : (rgn.region k).base + (base - (rgn.region k).base) = base := by omega
  have hend : base + size + ((rgn.ranges k).2 - (base + size)) = (rgn.ranges k).2 := by omega
  -- the table with the lower part only
  obtain ⟨hgood, hrec⟩ := shrunk_good hg hk
    (p := ⟨(rgn.region k).base, base - (rgn.region k).base⟩) (b := (rgn.ranges k).2)
    (by simp only; omega) le_rfl (by simp only; omega) hlo.le le_rfl
    (fun x => by
      have hb : (rgn.region k).base = (rgn.ranges k).1 := rfl
      simp only [hb]
      omega)
  generalize hrgn1 : (⟨rgn.cnt, update rgn.region k
    ⟨(rgn.region k).base, base - (rgn.region k).base⟩⟩ : MemblockRegion) = rgn1 at hgood hrec ⊢
  have hcnt1 : rgn1.cnt = rgn.cnt := by rw [← hrgn1]
  have hat : ∀ i, rgn1.ranges i = if i = k then ((rgn.ranges k).1, base) else rgn.ranges i := by
    intro i
    rw [← hrgn1, ranges_update, update_apply]
    split_ifs
    · exact Prod.ext rfl hsum
    · rfl
  have hnew : New rgn1 (base + size) ((rgn.ranges k).2 - (base + size)) := by
    refine ⟨by omega, by omega, fun i hi => ?_⟩
    rw [hat, hend]
    rw [hcnt1] at hi
    split_ifs with hik
    · exact Or.inl (Nat.le_add_right base size)
    · rcases Nat.lt_or_gt_of_ne hik with hlt | hgt
      · have := hg.separated.gap i k hlt hk
        exact Or.inl (by omega)
      · exact Or.inr (hg.separated.gap k i hgt hi).le
  obtain ⟨code, rgn', heq, hout⟩ := @memblockAddRegion_outcome u rgn1 _ _ hgood (by omega) hnew
  refine ⟨code, rgn', heq, ?_, ?_, ?_⟩
  · rw [hout.full_iff, hcnt1]
    constructor
    · rintro ⟨hfull, hno⟩
      refine ⟨?_, hfull, hlo, hhi⟩
      rintro rfl
      refine hno k hk (Or.inr ?_)
      rw [hat, if_pos rfl, Nat.add_zero]
    · rintro ⟨hsize, hfull, -, -⟩
      refine ⟨hfull, fun j hj => ?_⟩
      rw [Touches, hat, hend]
      have hpos := hg.separated.pos j hj
      split_ifs with hjk
      · omega
      · rcases Nat.lt_or_gt_of_ne hjk with hlt | hgt
        · have := hg.separated.gap j k hlt hk
          omega
        · have := hg.separated.gap k j hgt hj
          omega
  · intro hcode hsame
    have hin : base + size ∈ rgn.recorded := ⟨k, hk, by omega, by omega⟩
    rw [← hsame, hout.full hcode, hrec] at hin
    exact hin.2 ⟨Nat.le_add_right base size, hhi⟩
  · intro hcode
    refine ⟨(hout.good hcode).1, ?_⟩
    rw [(hout.good hcode).2, hend, hrec]
    ext x
    constructor
    · rintro (⟨hx, hout⟩ | hx)
      · exact ⟨hx, fun h => hout ⟨h.1, h.2.trans hhi⟩⟩
      · exact ⟨⟨k, hk, by have := hx.1; omega, hx.2⟩, fun h => absurd h.2 (Nat.not_lt.mpr hx.1)⟩
    · rintro ⟨hx, hout⟩
      by_cases hin : base + size ≤ x ∧ x < (rgn.ranges k).2
      · exact Or.inr hin
      · refine Or.inl ⟨hx, ?_⟩
        simp only [Set.mem_Ico] at hout ⊢
        omega

theorem removeFrom_outcome (hg : rgn.Good) (hfits : base + size < 2 ^ 64) {k : ℕ} (hk : k < rgn.cnt)
    (hlo : (rgn.ranges k).1 ≤ base) (hhi : base + size ≤ (rgn.ranges k).2) :
    ∃ code rgn', removeFrom u rgn base size = some (code, rgn') ∧
      RemoveOutcome rgn base size k code rgn' := by
  have hend : add64 (rgn.region k).base (rgn.region k).size = (rgn.ranges k).2 := add64_eq (hg.fits k hk)
  have hb : (rgn.region k).base = (rgn.ranges k).1 := rfl
  have hs : (rgn.region k).base + (rgn.region k).size = (rgn.ranges k).2 := rfl
  have hfitsk := hg.fits k hk
  simp only [removeFrom, add64_eq hfits, findLoop_eq hg hk hlo hhi rgn.cnt 0 (Nat.zero_le k) (by omega),
    hend]
  by_cases hall : (rgn.region k).base = base ∧ (rgn.ranges k).2 = base + size
  · obtain ⟨region', hrem, hat⟩ := @memblockRemoveRegion_eq u rgn k hk hg.cnt_le
    rw [if_pos hall, hrem, map_some]
    refine ⟨0, _, rfl, removeOutcome_of_good (by omega) ?_⟩
    obtain ⟨hgood, hrec⟩ := erased_good hg hk hat
    rw [← hb, hall.1, hall.2] at hrec
    exact ⟨hgood, hrec⟩
  rw [if_neg hall]
  by_cases hfront : (rgn.region k).base = base
  · rw [if_pos hfront, sub64_eq (by omega) (by omega)]
    refine ⟨0, _, rfl, removeOutcome_of_good (by omega) (shrunk_good hg hk ?_ ?_ ?_ hlo hhi fun x => ?_)⟩
    all_goals
      simp only
      omega
  split_ifs with hback
  · rw [sub64_eq (by omega) (by omega)]
    refine ⟨0, _, rfl, removeOutcome_of_good (by omega) (shrunk_good hg hk ?_ ?_ ?_ hlo hhi fun x => ?_)⟩
    all_goals
      simp only
      omega
  · rw [sub64_eq (by omega) (by omega), sub64_eq (by omega) (by omega)]
    exact split_outcome hg hk (by omega) (by omega)

theorem remove_sound (hinv : Inv rgn) (hall : RemoveAllowed rgn base size)
    (hsafe : RemoveSafe rgn base size) :
    Sound (removeFrom u rgn base size) rgn.recorded (rgn.recorded \ Ico base (base + size)) := by
  obtain ⟨k, hk, hlo, hhi⟩ := hall.inside
  rcases hinv with hd | hg
  · -- only the empty range at zero is inside the dummy region
    obtain rfl : k = 0 := by
      have := hd.1
      omega
    simp only [ranges_eq, hd.2, range_fst, range_snd] at hlo hhi
    obtain rfl : base = 0 := by omega
    obtain rfl : size = 0 := by omega
    obtain ⟨region', hrem, -⟩ := @memblockRemoveRegion_eq u rgn 0 hk (by rw [hd.1]; decide)
    have hfind : findLoop 0 (add64 0 0) rgn.region rgn.cnt 0 = some 0 := by
      rw [hd.1, findLoop, hd.2]
      rfl
    simp only [removeFrom, hfind]
    rw [if_pos (by rw [hd.2]; exact ⟨rfl, rfl⟩), hrem, hd.1]
    refine ⟨0, _, rfl, Or.inr (Good.of_cnt_zero rfl), ?_⟩
    rw [if_neg (by decide), recorded_of_cnt_zero rfl, Dummy.recorded_eq hd, Set.empty_sdiff]
  · obtain ⟨code, rgn', heq, hout⟩ := @removeFrom_outcome u rgn base size hg hall.fits k hk hlo hhi
    have hcode : code ≠ -1 := by
      intro h
      obtain ⟨hsize, hfull, hl, hh⟩ := hout.full_iff.mp h
      exact hsafe ⟨hsize, hfull, k, hk, hl, hh⟩
    refine ⟨code, rgn', heq, Or.inr (hout.good hcode).1, ?_⟩
    rw [if_neg hcode, (hout.good hcode).2]

theorem removeSafe_of_right (hinv : Inv rgn) (hall : RemoveAllowed rgn base size)
    (h : Right (removeFrom u rgn base size) rgn.recorded (rgn.recorded \ Ico base (base + size))) :
    RemoveSafe rgn base size := by
  rintro ⟨hsize, hfull, k, hk, hlo, hhi⟩
  rcases hinv with hd | hg
  · rw [hd.1] at hfull
    exact absurd hfull (by decide)
  obtain ⟨code, rgn', heq, hout⟩ := @removeFrom_outcome u rgn base size hg hall.fits k hk hlo.le hhi.le
  obtain ⟨code', rgn'', heq', hexact⟩ := h
  obtain ⟨rfl, rfl⟩ := Prod.mk.inj (Option.some.inj (heq.symm.trans heq'))
  have hcode := hout.full_iff.mpr ⟨hsize, hfull, hlo, hhi⟩
  have hunion := hexact.union
  rw [if_pos hcode] at hunion
  exact hout.lost hcode hunion

end Remove

section Runs

variable (u : Ulong)

inductive Op where
  | add (base size : ℕ)
  | remove (base size : ℕ)
  | reserve (base size : ℕ)
  | free (base size : ℕ)

def step (m : Memblock) : Op → Option (ℤ × Memblock)
  | .add base size => memblockAdd u m base size
  | .remove base size => memblockRemove u m base size
  | .reserve base size => memblockReserve u m base size
  | .free base size => memblockFree u m base size

def Allowed (m : Memblock) : Op → Prop
  | .add base size => AddAllowed m.memory base size
  | .remove base size => RemoveAllowed m.memory base size
  | .reserve base size => AddAllowed m.reserved base size
  | .free base size => RemoveAllowed m.reserved base size

def Safe (m : Memblock) : Op → Prop
  | .add base size => AddSafe m.memory base size
  | .remove base size => RemoveSafe m.memory base size
  | .reserve base size => AddSafe m.reserved base size
  | .free base size => RemoveSafe m.reserved base size

@[ext]
structure Sets where
  memory : Set ℕ
  reserved : Set ℕ

def Sets.after (S : Sets) : Op → Sets
  | .add base size => { S with memory := S.memory ∪ Set.Ico base (base + size) }
  | .remove base size => { S with memory := S.memory \ Set.Ico base (base + size) }
  | .reserve base size => { S with reserved := S.reserved ∪ Set.Ico base (base + size) }
  | .free base size => { S with reserved := S.reserved \ Set.Ico base (base + size) }

/-- A call that returns `-1` has no effect on the sets. -/
def Sets.next (S : Sets) (op : Op) (code : ℤ) : Sets := if code = -1 then S else S.after op

structure Matches (m : Memblock) (S : Sets) : Prop where
  memory : Exact m.memory S.memory
  reserved : Exact m.reserved S.reserved

/-- The calls made since `memblock_init`, all of them allowed and safe, the state they lead to and the sets
that belong to it. -/
inductive SafeRun (m₀ : Memblock) : List Op → Memblock → Sets → Prop
  | init : SafeRun m₀ [] (memblockInit m₀) ⟨∅, ∅⟩
  | call {ops : List Op} {m m' : Memblock} {S : Sets} {op : Op} {code : ℤ} :
    SafeRun m₀ ops m S → Allowed m op → Safe m op → step u m op = some (code, m') →
      SafeRun m₀ (ops ++ [op]) m' (S.next op code)

theorem memblockInit_inv (m₀ : Memblock) :
    (memblockInit m₀).memory.Dummy ∧ (memblockInit m₀).reserved.Dummy :=
  ⟨⟨rfl, by simp only [memblockInit, update_self]⟩, rfl,
    by simp only [memblockInit, update_self]⟩

variable {u} {m₀ m : Memblock} {S : Sets} {ops : List Op}

theorem step_sound (hm : Inv m.memory) (hr : Inv m.reserved)
    (hS : S = ⟨m.memory.recorded, m.reserved.recorded⟩)
    {op : Op} (hall : Allowed m op) (hsafe : Safe m op) :
    ∃ code m', step u m op = some (code, m') ∧ Inv m'.memory ∧ Inv m'.reserved ∧
      S.next op code = ⟨m'.memory.recorded, m'.reserved.recorded⟩ := by
  subst hS
  cases op with
  | add base size =>
    obtain ⟨code, rgn', heq, hinv, hrec⟩ := @add_sound u _ _ _ hm hall hsafe
    refine ⟨code, ⟨_, rgn', m.reserved⟩, by rw [step, memblockAdd, heq, map_some], hinv, hr, ?_⟩
    simp only [Sets.next, Sets.after, hrec]
    split_ifs <;> rfl
  | remove base size =>
    obtain ⟨code, rgn', heq, hinv, hrec⟩ := @remove_sound u _ _ _ hm hall hsafe
    refine ⟨code, ⟨_, rgn', m.reserved⟩, by rw [step, memblockRemove, heq, map_some], hinv, hr, ?_⟩
    simp only [Sets.next, Sets.after, hrec]
    split_ifs <;> rfl
  | reserve base size =>
    obtain ⟨code, rgn', heq, hinv, hrec⟩ := @add_sound u _ _ _ hr hall hsafe
    have hpos : size ≠ 0 := (AddAllowed.pos hall).ne'
    refine ⟨code, ⟨_, m.memory, rgn'⟩, by rw [step, memblockReserve, if_neg hpos, heq, map_some],
      hm, hinv, ?_⟩
    simp only [Sets.next, Sets.after, hrec]
    split_ifs <;> rfl
  | free base size =>
    obtain ⟨code, rgn', heq, hinv, hrec⟩ := @remove_sound u _ _ _ hr hall hsafe
    refine ⟨code, ⟨_, m.memory, rgn'⟩, by rw [step, memblockFree, heq, map_some], hm, hinv, ?_⟩
    simp only [Sets.next, Sets.after, hrec]
    split_ifs <;> rfl

theorem SafeRun.inv (h : SafeRun u m₀ ops m S) :
    Inv m.memory ∧ Inv m.reserved ∧ S = ⟨m.memory.recorded, m.reserved.recorded⟩ := by
  induction h with
  | init =>
    obtain ⟨hm, hr⟩ := memblockInit_inv m₀
    exact ⟨Or.inl hm, Or.inl hr, Sets.ext (Dummy.recorded_eq hm).symm (Dummy.recorded_eq hr).symm⟩
  | call _ hall hsafe hstep ih =>
    obtain ⟨hm, hr, hS⟩ := ih
    obtain ⟨code', m'', hstep', hm', hr', hS'⟩ := step_sound hm hr hS hall hsafe
    obtain ⟨rfl, rfl⟩ := Prod.mk.inj (Option.some.inj (hstep.symm.trans hstep'))
    exact ⟨hm', hr', hS'⟩

/-- The call finishes, and the tables match the sets behind it. -/
def Keeps (u : Ulong) (m : Memblock) (S : Sets) (op : Op) : Prop :=
  ∃ code m', step u m op = some (code, m') ∧ Matches m' (S.next op code)

theorem right_of_next {r : Option (ℤ × MemblockRegion)} {code : ℤ} {m' : Memblock} {op : Op}
    (put : MemblockRegion → Memblock) (get : Memblock → MemblockRegion) (part : Sets → Set ℕ)
    (hget : ∀ rgn, get (put rgn) = rgn) (hstep : r.map (fun p => (p.1, put p.2)) = some (code, m'))
    (hexact : Exact (get m') (part (S.next op code))) : Right r (part S) (part (S.after op)) := by
  obtain ⟨⟨c, rgn'⟩, heq, hpair⟩ := map_eq_some_iff.mp hstep
  obtain ⟨rfl, rfl⟩ := Prod.mk.inj hpair
  rw [hget, Sets.next, apply_ite part] at hexact
  exact ⟨c, rgn', heq, hexact⟩

theorem safe_of_keeps (hm : Inv m.memory) (hr : Inv m.reserved)
    (hS : S = ⟨m.memory.recorded, m.reserved.recorded⟩) {op : Op} (hall : Allowed m op)
    (h : Keeps u m S op) : Safe m op := by
  subst hS
  obtain ⟨code, m', hstep, hmatch⟩ := h
  cases op with
  | add base size =>
    exact addSafe_of_right hall <|
      right_of_next (⟨_, ·, m.reserved⟩) Memblock.memory Sets.memory (fun _ => rfl) hstep hmatch.memory
  | remove base size =>
    exact removeSafe_of_right hm hall <|
      right_of_next (⟨_, ·, m.reserved⟩) Memblock.memory Sets.memory (fun _ => rfl) hstep hmatch.memory
  | reserve base size =>
    rw [step, memblockReserve, if_neg (AddAllowed.pos hall).ne'] at hstep
    exact addSafe_of_right hall <|
      right_of_next (⟨_, m.memory, ·⟩) Memblock.reserved Sets.reserved (fun _ => rfl) hstep hmatch.reserved
  | free base size =>
    exact removeSafe_of_right hr hall <|
      right_of_next (⟨_, m.memory, ·⟩) Memblock.reserved Sets.reserved (fun _ => rfl) hstep hmatch.reserved

/-- As long as every call is safe the tables match the sets, and an allowed call keeps that exactly if it is
safe. -/
theorem memblock_exact_iff (m₀ : Memblock) (ops : List Op) (h : SafeRun u m₀ ops m S) :
    Matches m S ∧ ∀ op, Allowed m op → (Keeps u m S op ↔ Safe m op) := by
  obtain ⟨hm, hr, hS⟩ := h.inv
  refine ⟨?_, fun op hall => ⟨safe_of_keeps hm hr hS hall, fun hsafe => ?_⟩⟩
  · subst hS
    exact ⟨hm.exact, hr.exact⟩
  · obtain ⟨code, m', hstep, hm', hr', hS'⟩ := @step_sound u _ _ hm hr hS op hall hsafe
    refine ⟨code, m', hstep, ?_⟩
    rw [hS']
    exact ⟨hm'.exact, hr'.exact⟩

end Runs

section Refill

def ulong32 : Ulong := ⟨2 ^ 32 - 1, le_rfl⟩

def zeroed : Memblock := ⟨0, ⟨0, fun _ => ⟨0, 0⟩⟩, ⟨0, fun _ => ⟨0, 0⟩⟩⟩

def oneReserved : Memblock :=
  { memblockInit zeroed with
    reserved := ⟨1, Function.update (memblockInit zeroed).reserved.region 0 ⟨10, 10⟩⟩ }

/-- The state after `memblock_free(10, 10)`: the entry is still there. -/
def emptied : Memblock := { oneReserved with reserved := ⟨0, oneReserved.reserved.region⟩ }

theorem oneReserved_run : SafeRun ulong32 zeroed [.reserve 10 10] oneReserved ⟨∅, ∅ ∪ Ico 10 20⟩ := by
  have hempty := Dummy.recorded_eq (memblockInit_inv zeroed).2
  have hall : Allowed (memblockInit zeroed) (.reserve 10 10) :=
    ⟨by decide, by decide, by rw [hempty]; exact Set.disjoint_empty _⟩
  have hstep : step ulong32 (memblockInit zeroed) (.reserve 10 10) = some (0, oneReserved) := rfl
  exact SafeRun.call SafeRun.init hall (fun h => absurd h (by decide)) hstep

theorem emptied_run : SafeRun ulong32 zeroed [.reserve 10 10, .free 10 10] emptied
    ⟨∅, (∅ ∪ Ico 10 20) \ Ico 10 20⟩ := by
  have hall : Allowed oneReserved (.free 10 10) := ⟨by decide, 0, by decide, by decide, by decide⟩
  have hsafe : Safe oneReserved (.free 10 10) := fun h => absurd h.2.1 (by decide)
  have hstep : step ulong32 oneReserved (.free 10 10) = some (0, emptied) := rfl
  exact SafeRun.call oneReserved_run hall hsafe hstep

theorem emptied_allowed : Allowed emptied (.reserve 50 10) :=
  ⟨by decide, by decide, by rw [recorded_of_cnt_zero rfl]; exact Set.disjoint_empty _⟩

theorem memblock_exact_iff_emptied : Matches emptied ⟨∅, (∅ ∪ Set.Ico 10 20) \ Set.Ico 10 20⟩ ∧
      (Keeps ulong32 emptied ⟨∅, (∅ ∪ Set.Ico 10 20) \ Set.Ico 10 20⟩ (.reserve 50 10) ↔
        Safe emptied (.reserve 50 10)) :=
  have h := memblock_exact_iff zeroed _ emptied_run
  ⟨h.1, h.2 _ emptied_allowed⟩

/-- A table that was emptied: the range that was removed comes back in place of the one that is added. -/
theorem refill_lost : SafeRun ulong32 zeroed [.reserve 10 10, .free 10 10] emptied
      ⟨∅, (∅ ∪ Set.Ico 10 20) \ Set.Ico 10 20⟩ ∧
    Allowed emptied (.reserve 50 10) ∧
    ∃ m, step ulong32 emptied (.reserve 50 10) = some (0, m) ∧ 10 ∈ m.reserved.recorded ∧
      50 ∉ m.reserved.recorded := by
  refine ⟨emptied_run, emptied_allowed, { emptied with reserved := oneReserved.reserved }, rfl, ?_, ?_⟩
  · exact ⟨0, by decide, by decide, by decide⟩
  · rintro ⟨i, hi, hx⟩
    obtain rfl : i = 0 := Nat.lt_one_iff.mp hi
    revert hx
    decide

end Refill

end VDLinux.Mm.BootRegions
