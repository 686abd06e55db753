import VDLinux.Fs.MballocBits

namespace VDLinux.Fs.Mballoc

open Base.Dyadic Set

variable {e4b : Ext4Buddy} {grp grp' : GroupInfo} {T : Set Block} {Z : Set ℕ} {k i x : ℕ}

/-- The free blocks `Z` of a group are cut into the buddies `T` that its bits show. -/
structure Tracks (e4b : Ext4Buddy) (grp : GroupInfo) (T : Set Block) (Z : Set ℕ) : Prop where
  shown : Shown e4b grp T
  tiles : Tiles T Z
  order_le : ∀ b ∈ T, b.order ≤ e4b.top
  lt_width : ∀ x ∈ Z, x < e4b.width 0

theorem width_mul (hk : k ≤ e4b.top) : 2 ^ k * e4b.width k = e4b.width 0 := by
  rw [Ext4Buddy.top] at hk
  rw [Ext4Buddy.width, Ext4Buddy.width, ← Nat.pow_add]
  congr 1
  omega

theorem width_succ (hk : k < e4b.top) : e4b.width k = 2 * e4b.width (k + 1) := by
  rw [Ext4Buddy.top] at hk
  rw [Ext4Buddy.width, Ext4Buddy.width, ← Nat.pow_succ']
  congr 1
  omega

namespace Tracks

variable (h : Tracks e4b grp T Z)
include h

theorem congr (hbuddy : grp'.buddy = grp.buddy)
    (hcounters : grp'.bbCounters = grp.bbCounters) : Tracks e4b grp' T Z :=
  ⟨h.shown.congr hbuddy hcounters, h.tiles, h.order_le, h.lt_width⟩

theorem le_top (hmem : nth k i ∈ T) : k ≤ e4b.top := h.order_le _ hmem

theorem index_lt (hmem : nth k i ∈ T) : i < e4b.width k := by
  have hstart : 2 ^ k * i < e4b.width 0 := h.lt_width _ (h.tiles.subset hmem (Block.start_mem _))
  rw [← width_mul (h.le_top hmem)] at hstart
  exact Nat.lt_of_mul_lt_mul_left hstart

theorem exists_tile (hx : x ∈ Z) : ∃ k, nth k (x / 2 ^ k) ∈ T := by
  obtain ⟨b, hb, hxb⟩ := (h.tiles.cover x).mp hx
  refine ⟨b.order, ?_⟩
  rw [← nth_of_mem (h.tiles.aligned b hb) hxb]
  exact hb

theorem tile_unique {k' i' : ℕ} (hmem : nth k i ∈ T) (hmem' : nth k' i' ∈ T)
    (hx : x / 2 ^ k = i) (hx' : x / 2 ^ k' = i') : k = k' :=
  congrArg Block.order (h.tiles.eq_of_mem hmem hmem' (mem_nth.mpr hx) (mem_nth.mpr hx'))

end Tracks

section Find

theorem findOrderLoop_spec (grp : GroupInfo) (x : ℕ) {rounds order : ℕ} (hrounds : order + rounds = e4b.top) :
    ∃ k, findOrderLoop e4b.blkbits grp rounds (order + 1) (x >>> order) (initOffset e4b.blkbits (order + 1)) = k ∧
      (order < k ∧ k ≤ e4b.top ∧ grp.buddy (e4b.place k (x >>> k)) = false ∨
        k = 0 ∧ ∀ k', order < k' → k' ≤ e4b.top → grp.buddy (e4b.place k' (x >>> k')) = true) := by
  induction rounds generalizing order with
  | zero => exact ⟨0, rfl, .inr ⟨rfl, fun k' hlt hle => by omega⟩⟩
  | succ rounds ih =>
    have hplace : 8 * initOffset e4b.blkbits (order + 1) + x >>> order >>> 1 =
        e4b.place (order + 1) (x >>> (order + 1)) := by
      rw [Ext4Buddy.place, Ext4Buddy.addr, if_neg (Nat.succ_ne_zero _), sMbOffsets_eq (by omega),
        Nat.shiftRight_add]
    simp only [findOrderLoop, mbTestBit, GroupInfo.area, hplace]
    split_ifs with hclear
    · exact ⟨order + 1, rfl, .inl ⟨Nat.lt_succ_self _, by omega, hclear⟩⟩
    · obtain ⟨k, hk, hcase⟩ := @ih (order + 1) (by omega)
      refine ⟨k, hk, hcase.imp (fun h => ⟨by omega, h.2⟩) fun h => ⟨h.1, fun k' hlt hle => ?_⟩⟩
      rcases Nat.eq_or_lt_of_le hlt with rfl | hgt
      · simpa using hclear
      · exact h.2 k' hgt hle

theorem mbFindOrderForBlock_eq (h : Tracks e4b grp T Z) (hx : x ∈ Z) :
    ∃ k, mbFindOrderForBlock e4b grp x = .ok k ∧ nth k (x / 2 ^ k) ∈ T := by
  have hlt := h.lt_width x hx
  have hbound : ¬ 1 <<< (e4b.blkbits + 3) ≤ x := by
    rw [Nat.one_shiftLeft]
    exact Nat.not_le.mpr hlt
  obtain ⟨k, hk, hcase⟩ := findOrderLoop_spec grp x (Nat.zero_add e4b.top)
  refine ⟨k, ?_, ?_⟩
  · rw [mbFindOrderForBlock, if_neg hbound]
    exact congrArg _ hk
  obtain ⟨j, hj⟩ := h.exists_tile hx
  have hindex : ∀ k' ≤ e4b.top, x / 2 ^ k' < e4b.width k' := by
    intro k' hk'
    rw [Nat.div_lt_iff_lt_mul (Nat.two_pow_pos k'), Nat.mul_comm, width_mul hk']
    exact hlt
  cases hcase with
  | inl hfound =>
    obtain ⟨hpos, hle, hclear⟩ := hfound
    rw [Nat.shiftRight_eq_div_pow] at hclear
    exact (h.shown.clear_iff k _ hpos hle (hindex k hle)).mp hclear
  | inr hnone =>
    -- the tile of the block has no bit, so its order is 0
    have hzero : j = 0 := by
      by_contra hne
      have hset := hnone.2 j (by omega) (h.le_top hj)
      rw [Nat.shiftRight_eq_div_pow] at hset
      have hclear := (h.shown.clear_iff j _ (by omega) (h.le_top hj) (h.index_lt hj)).mpr hj
      rw [hclear] at hset
      exact absurd hset (by decide)
    rw [hnone.1, ← hzero]
    exact hj

end Find

section Merge

/-- The tiles that could be merged all have to do with one tile. -/
def MergeableAt (M : ℕ) (T : Set Block) (b : Block) : Prop :=
  ∀ c ∈ T, c.order < M → c.buddy ∈ T → c = b ∨ c.buddy = b

def Mapped (e4b : Ext4Buddy) (grp : GroupInfo) (Z : Set ℕ) : Prop :=
  ∀ x < e4b.width 0, (grp.bitmap x = false ↔ x ∈ Z)

theorem pair_lt_width (hk : k ≤ e4b.top) (hi : i < e4b.width k) : 2 * (i / 2) + 1 < e4b.width k := by
  have heven : e4b.width k = 2 * 2 ^ (e4b.blkbits + 2 - k) := by
    rw [Ext4Buddy.top] at hk
    rw [Ext4Buddy.width, ← Nat.pow_succ']
    congr 1
    omega
  omega

theorem Tracks.single (h : Tracks e4b grp T Z) (hmem : nth 0 i ∈ T) (hx : x ∈ Z) (hpair : x / 2 = i / 2) :
    nth 0 x ∈ T := by
  obtain ⟨k, hk⟩ := h.exists_tile hx
  cases k with
  | zero => simpa using hk
  | succ k =>
    have hi : i / 2 ^ (k + 1) = x / 2 ^ (k + 1) := by
      refine div_eq_of_le (Nat.le_add_left 1 k) ?_
      simpa using hpair.symm
    exact absurd (h.tile_unique hmem hk (by simp) hi) (by omega)

theorem pair_clear_iff (h : Tracks e4b grp T Z) (hmap : Mapped e4b grp Z) (hmem : nth k i ∈ T) :
    (mbTestBit grp (i >>> 1 <<< 1) (e4b.addr k) || mbTestBit grp (i >>> 1 <<< 1 + 1) (e4b.addr k)) = false ↔
      nth k (2 * (i / 2)) ∈ T ∧ nth k (2 * (i / 2) + 1) ∈ T := by
  have hk := h.le_top hmem
  have hhigh := pair_lt_width hk (h.index_lt hmem)
  have hlow : 2 * (i / 2) < e4b.width k := by omega
  have hround : i >>> 1 <<< 1 = 2 * (i / 2) := by
    omega
  rw [hround, Bool.or_eq_false_iff]
  by_cases hzero : k = 0
  · subst hzero
    have hsingle : ∀ y, y / 2 = i / 2 → (y ∈ Z ↔ nth 0 y ∈ T) := fun y hy =>
      ⟨fun hyZ => h.single hmem hyZ hy, fun hyT => h.tiles.subset hyT (mem_nth.mpr (by simp))⟩
    rw [addr_zero, test_bitmap, test_bitmap, hmap _ hlow, hmap _ hhigh, hsingle _ (by omega),
      hsingle _ (by omega)]
  · have hpos : 1 ≤ k := Nat.one_le_iff_ne_zero.mpr hzero
    rw [test_buddy hpos, test_buddy hpos, h.shown.clear_iff k _ hpos hk hlow, h.shown.clear_iff k _ hpos hk hhigh]

def merged (e4b : Ext4Buddy) (grp : GroupInfo) (k j : ℕ) : GroupInfo :=
  Shown.put e4b (Shown.put e4b (Shown.put e4b grp k (2 * j) true) k (2 * j + 1) true) (k + 1) j false

theorem parent_half {j : ℕ} (hi : i / 2 = j) : (nth k i).parent = nth (k + 1) j := hi ▸ parent_nth k i

/-- A half is no tile where the whole is one. -/
theorem Tracks.half_notMem {j : ℕ} (h : Tracks e4b grp T Z) (hmem : nth (k + 1) j ∈ T) (hi : i / 2 = j) :
    nth k i ∉ T := by
  intro hcon
  have := h.tile_unique hmem hcon (x := 2 ^ k * i) ?_ ?_
  · omega
  · rw [Nat.pow_succ, ← Nat.div_div_eq_div_mul, Nat.mul_div_cancel_left _ (Nat.two_pow_pos k), hi]
  · exact Nat.mul_div_cancel_left _ (Nat.two_pow_pos k)

theorem Tracks.merge (h : Tracks e4b grp T Z) {j : ℕ} (hk : k < e4b.top) (hlow : nth k (2 * j) ∈ T)
    (hhigh : nth k (2 * j + 1) ∈ T) :
    Tracks e4b (merged e4b grp k j) (insert (nth (k + 1) j) ((T \ {nth k (2 * j)}) \ {nth k (2 * j + 1)})) Z := by
  have hparent : (nth k (2 * j)).parent = nth (k + 1) j := parent_half (by omega)
  have hne : nth k (2 * j + 1) ≠ nth k (2 * j) := by
    rw [Ne, nth_inj]
    omega
  have hj : j < e4b.width (k + 1) := by
    have := h.index_lt hlow
    rw [width_succ hk] at this
    omega
  have hnot : nth (k + 1) j ∉ (T \ {nth k (2 * j)}) \ {nth k (2 * j + 1)} := by
    rintro ⟨⟨hmem, -⟩, -⟩
    exact h.half_notMem hmem (by omega) hlow
  refine ⟨?_, ?_, ?_, h.lt_width⟩
  · refine Shown.insert ?_ hk hj hnot
    refine Shown.remove ?_ hk.le (h.index_lt hhigh) ⟨hhigh, hne⟩
    exact h.shown.remove hk.le (h.index_lt hlow) hlow
  · refine h.tiles.merge hlow (by rwa [buddy_nth]) fun c => ?_
    rw [buddy_nth, hparent]
    simp only [mem_insert_iff, mem_sdiff, mem_singleton_iff, and_assoc]
    exact or_comm
  · rintro b (rfl | ⟨⟨hb, -⟩, -⟩)
    · exact hk
    · exact h.order_le b hb

theorem lonely_of_mergeableAt {M : ℕ} {b : Block} (h : MergeableAt M T b) (hnot : b ∈ T → b.order < M → b.buddy ∉ T) :
    Lonely M T := by
  intro c hc ho hbuddy
  cases h c hc ho hbuddy with
  | inl heq => exact hnot (heq ▸ hc) (heq ▸ ho) (heq ▸ hbuddy)
  | inr heq =>
    have hcb : b.buddy = c := by rw [← heq, Block.buddy_buddy]
    exact hnot (heq ▸ hbuddy) (heq ▸ ho) (hcb ▸ hc)

theorem MergeableAt.merge {M : ℕ} (h : MergeableAt M T (nth k i)) :
    MergeableAt M (insert (nth (k + 1) (i / 2)) ((T \ {nth k (2 * (i / 2))}) \ {nth k (2 * (i / 2) + 1)}))
      (nth (k + 1) (i / 2)) := by
  have hsides : i = 2 * (i / 2) ∨ i = 2 * (i / 2) + 1 := by omega
  have hgone : nth k i ∉ (T \ {nth k (2 * (i / 2))}) \ {nth k (2 * (i / 2) + 1)} := by
    rintro ⟨⟨-, hlow⟩, hhigh⟩
    cases hsides with
    | inl hi => exact hlow (congrArg (nth k) hi)
    | inr hi => exact hhigh (congrArg (nth k) hi)
  intro c hc ho hbuddy
  by_cases hnew : c = nth (k + 1) (i / 2) ∨ c.buddy = nth (k + 1) (i / 2)
  · exact hnew
  obtain ⟨hcnew, hbnew⟩ := not_or.mp hnew
  have hc' := hc.resolve_left hcnew
  have hbuddy' := hbuddy.resolve_left hbnew
  cases h c hc'.1.1 ho hbuddy'.1.1 with
  | inl heq => exact absurd (heq ▸ hc') hgone
  | inr heq => exact absurd (heq ▸ hbuddy') hgone

theorem merged_eq (e4b : Ext4Buddy) (grp : GroupInfo) (k j : ℕ) :
    mbClearBit ((((if 0 < k then mbSetBit (mbSetBit grp (2 * j) (e4b.addr k)) (2 * j + 1) (e4b.addr k)
      else grp).count k (-1)).count k (-1)).count (k + 1) 1) j (e4b.addr (k + 1)) = merged e4b grp k j := by
  rw [clear_buddy (Nat.le_add_left 1 k)]
  by_cases hk : 0 < k
  · rw [if_pos hk, set_buddy hk, set_buddy hk]
    simp only [merged, Shown.put, GroupInfo.count, if_neg (show k ≠ 0 by omega), if_neg (Nat.succ_ne_zero k),
      if_true, Bool.false_eq_true, if_false]
  · obtain rfl : k = 0 := by omega
    rfl

theorem coalesce_spec (h : Tracks e4b grp T Z) (hmap : Mapped e4b grp Z) (hmem : nth k i ∈ T)
    (honly : MergeableAt e4b.top T (nth k i)) {fuel : ℕ} (hfuel : e4b.top < k + fuel) :
    ∃ grp' T', coalesce e4b fuel grp k i (e4b.addr k) = .ok grp' ∧ Tracks e4b grp' T' Z ∧
      Lonely e4b.top T' ∧ grp' = { grp with buddy := grp'.buddy, bbCounters := grp'.bbCounters } := by
  induction fuel generalizing grp T k i with
  | zero => exact absurd (h.le_top hmem) (by omega)
  | succ fuel ih =>
    have hpair := pair_clear_iff h hmap hmem
    have hround : i >>> 1 <<< 1 = 2 * (i / 2) := by
      omega
    have hhalf : (2 * (i / 2)) >>> 1 = i / 2 := by
      omega
    have hsides : i = 2 * (i / 2) ∨ i = 2 * (i / 2) + 1 := by omega
    rw [hround] at hpair
    simp only [coalesce, hround]
    by_cases hboth : nth k (2 * (i / 2)) ∈ T ∧ nth k (2 * (i / 2) + 1) ∈ T
    · rw [if_neg (by rw [hpair.mpr hboth]; decide)]
      by_cases htop : k = e4b.top
      · subst htop
        rw [mbFindBuddy_top]
        refine ⟨grp, T, rfl, h, lonely_of_mergeableAt honly fun _ ho => absurd ho (Nat.lt_irrefl _), rfl⟩
      · have hk : k < e4b.top := lt_of_le_of_ne (h.le_top hmem) htop
        rw [mbFindBuddy_eq (show k + 1 ≤ e4b.top from hk)]
        dsimp only
        rw [hhalf, merged_eq]
        have hnext := h.merge hk hboth.1 hboth.2
        obtain ⟨grp', T', hrun, htracks, hlonely, hsame⟩ := ih hnext hmap (.inl rfl) honly.merge (by omega)
        exact ⟨grp', T', hrun, htracks, hlonely, hsame⟩
    · rw [if_pos (Bool.eq_true_of_not_eq_false (mt hpair.mp hboth))]
      refine ⟨grp, T, rfl, h, lonely_of_mergeableAt honly fun hb _ hbuddy => hboth ?_, rfl⟩
      cases hsides with
      | inl hi =>
        rw [hi, buddy_nth] at hbuddy
        exact ⟨hi ▸ hmem, hbuddy⟩
      | inr hi =>
        rw [hi, ← buddy_nth, Block.buddy_buddy] at hbuddy
        exact ⟨hbuddy, hi ▸ hmem⟩

end Merge

section Free

theorem Tracks.addBlock (h : Tracks e4b grp T Z) (hx : x ∉ Z) (hlt : x < e4b.width 0) :
    Tracks e4b ((mbClearBit grp x bitmapAddr).count 0 1) (insert (nth 0 x) T) (insert x Z) := by
  have hpages : (nth 0 x).pages = {x} := by
    ext y
    rw [mem_nth]
    simp
  have hdis : Disjoint (nth 0 x).pages Z := by
    rw [hpages]
    exact disjoint_singleton_left.mpr hx
  refine ⟨?_, ?_, ?_, ?_⟩
  · exact (h.shown.insert (Nat.zero_le _) hlt (h.tiles.notMem_of_disjoint hdis)).congr rfl rfl
  · have hadd := h.tiles.add (nth_aligned 0 x) hdis
    rwa [hpages, union_singleton] at hadd
  · rintro b (rfl | hb)
    · exact Nat.zero_le _
    · exact h.order_le b hb
  · rintro y (rfl | hy)
    · exact hlt
    · exact h.lt_width y hy

theorem Mapped.addBlock (h : Mapped e4b grp Z) :
    Mapped e4b ((mbClearBit grp x bitmapAddr).count 0 1) (insert x Z) := by
  intro y hy
  rw [clear_bitmap]
  simp only [GroupInfo.count, Function.update_apply, mem_insert_iff]
  by_cases heq : y = x
  · simp [heq]
  · rw [if_neg heq, h y hy]
    simp [heq]

theorem mergeableAt_insert {M : ℕ} {b : Block} (h : Lonely M T) : MergeableAt M (insert b T) b := by
  intro c hc ho hbuddy
  by_cases hcb : c = b
  · exact .inl hcb
  · exact .inr (hbuddy.resolve_right (h c (hc.resolve_left hcb) ho))

theorem freeLoop_spec {count first : ℕ} (h : Tracks e4b grp T Z) (hlonely : Lonely e4b.top T)
    (hmap : Mapped e4b grp Z) (hused : ∀ x, first ≤ x → x < first + count → x ∉ Z)
    (hbound : first + count ≤ e4b.width 0) :
    ∃ grp' T', freeLoop e4b count grp first = .ok grp' ∧
      Tracks e4b grp' T' (Z ∪ Ico first (first + count)) ∧ Lonely e4b.top T' ∧
      Mapped e4b grp' (Z ∪ Ico first (first + count)) ∧
      (∀ x ∉ Ico first (first + count), grp'.bitmap x = grp.bitmap x) ∧
      grp' = { grp with bitmap := grp'.bitmap, buddy := grp'.buddy, bbCounters := grp'.bbCounters } := by
  induction count generalizing grp T Z first with
  | zero =>
    rw [Nat.add_zero, Set.Ico_self, union_empty]
    exact ⟨grp, T, rfl, h, hlonely, hmap, fun _ _ => rfl, rfl⟩
  | succ count ih =>
    have hfirst : first ∉ Z := hused first le_rfl (by omega)
    have hadd := h.addBlock hfirst (by omega)
    have hmap' : Mapped e4b ((mbClearBit grp first bitmapAddr).count 0 1) (insert first Z) := hmap.addBlock
    have hfuel : e4b.top < 0 + (e4b.blkbits + 2) := by
      rw [Ext4Buddy.top]
      omega
    obtain ⟨grp₁, T₁, hrun, htracks, hlonely', hsame⟩ :=
      coalesce_spec hadd hmap' (.inl rfl) (mergeableAt_insert hlonely) hfuel
    have hmap₁ : Mapped e4b grp₁ (insert first Z) := by
      rw [hsame]
      exact hmap'
    have hused' : ∀ x, first + 1 ≤ x → x < first + 1 + count → x ∉ insert first Z := by
      rintro x hlo hhi (rfl | hx)
      · omega
      · exact hused x (by omega) (by omega) hx
    obtain ⟨grp₂, T₂, hloop, htracks₂, hlonely₂, hmap₂, hrest, hsame₂⟩ := ih htracks hlonely' hmap₁ hused' (by omega)
    have hset : insert first Z ∪ Ico (first + 1) (first + 1 + count) =
        Z ∪ Ico first (first + (count + 1)) := by
      ext y
      simp only [mem_union, mem_insert_iff, mem_Ico]
      by_cases hy : y ∈ Z
      · simp [hy]
      · simp only [hy, or_false, false_or]
        omega
    rw [hset] at htracks₂ hmap₂
    refine ⟨grp₂, T₂, ?_, htracks₂, hlonely₂, hmap₂, fun x hx => ?_, ?_⟩
    · rw [addr_zero] at hrun
      simp only [freeLoop, theBuddy_eq (Nat.zero_le _), addr_zero, hrun, bind, Except.bind]
      exact hloop
    · have hne : x ≠ first := fun heq => hx ⟨by omega, by omega⟩
      have hout : x ∉ Ico (first + 1) (first + 1 + count) := fun h =>
        hx ⟨by have := h.1; omega, by have := h.2; omega⟩
      rw [hrest x hout, hsame, clear_bitmap]
      exact Function.update_of_ne hne _ _
    · rw [hsame₂, hsame]
      rfl

end Free

end VDLinux.Fs.Mballoc
