import VDLinux.Fs.MballocSteps

namespace VDLinux.Fs.Mballoc

open Base.Dyadic Set

variable {e4b : Ext4Buddy} {grp grp' : GroupInfo} {T : Set Block} {Z : Set ℕ} {k i x start len : ℕ}

/-- The tiles that could be merged are a pair with the block `x`. -/
def MergeableOver (M : ℕ) (T : Set Block) (x : ℕ) : Prop :=
  ∀ c ∈ T, c.order < M → c.buddy ∈ T → x ∈ c.parent.pages

section Take

def taken (e4b : Ext4Buddy) (grp : GroupInfo) (k i : ℕ) : GroupInfo :=
  (mbSetBit grp i (e4b.addr k)).count k (-1)

theorem taken_put (e4b : Ext4Buddy) (grp : GroupInfo) (k i : ℕ) : taken e4b grp k i =
    { Shown.put e4b grp k i true with
      bitmap := if k = 0 then Function.update grp.bitmap i true else grp.bitmap } := by
  cases k with
  | zero =>
    rw [taken, addr_zero, set_bitmap]
    rfl
  | succ k =>
    rfl

theorem taken_bitmap (e4b : Ext4Buddy) (grp : GroupInfo) (k i : ℕ) (hx : x ∉ (nth k i).pages) :
    (taken e4b grp k i).bitmap x = grp.bitmap x := by
  rw [taken_put]
  split_ifs with hk
  · subst hk
    exact Function.update_of_ne (fun heq => hx (mem_nth.mpr (by simp [heq]))) _ _
  · rfl

theorem Tracks.take (h : Tracks e4b grp T Z) (hmem : nth k i ∈ T) :
    Tracks e4b (taken e4b grp k i) (T \ {nth k i}) (Z \ (nth k i).pages) := by
  rw [taken_put]
  refine ⟨?_, h.tiles.remove hmem, fun b hb => h.order_le b hb.1, fun x hx => h.lt_width x hx.1⟩
  exact (h.shown.remove (h.le_top hmem) (h.index_lt hmem) hmem).congr rfl rfl

theorem MergeableOver.take (h : Tracks e4b grp T Z) (hover : MergeableOver e4b.top T x) (hmem : nth k i ∈ T)
    (hx : x / 2 ^ k = i) : Lonely e4b.top (T \ {nth k i}) := by
  intro c hc ho hbuddy
  have hparent := hover c hc.1 ho hbuddy.1
  rw [Block.pages_parent (h.tiles.aligned c hc.1)] at hparent
  cases hparent with
  | inl hxc => exact hc.2 (h.tiles.eq_of_mem hc.1 hmem hxc (mem_nth.mpr hx))
  | inr hxc => exact hbuddy.2 (h.tiles.eq_of_mem hbuddy.1 hmem hxc (mem_nth.mpr hx))

end Take

section Split

def halved (e4b : Ext4Buddy) (grp : GroupInfo) (k j : ℕ) : GroupInfo :=
  let grp := taken e4b grp (k + 1) j
  let grp := mbClearBit (mbClearBit grp (2 * j) (e4b.addr k)) (2 * j + 1) (e4b.addr k)
  (grp.count k 1).count k 1

theorem halved_put (e4b : Ext4Buddy) (grp : GroupInfo) (k j : ℕ) : halved e4b grp k j =
    { Shown.put e4b (Shown.put e4b (Shown.put e4b grp (k + 1) j true) k (2 * j) false) k (2 * j + 1) false with
      bitmap := if k = 0 then Function.update (Function.update grp.bitmap (2 * j) false) (2 * j + 1) false
        else grp.bitmap } := by
  cases k with
  | zero =>
    simp only [halved, taken, addr_zero, clear_bitmap, set_buddy (Nat.le_refl 1)]
    rfl
  | succ k =>
    rfl

theorem halved_bitmap (e4b : Ext4Buddy) {j : ℕ} (hfree : ∀ x ∈ (nth (k + 1) j).pages, grp.bitmap x = false) :
    (halved e4b grp k j).bitmap = grp.bitmap := by
  rw [halved_put]
  split_ifs with hk
  · subst hk
    have hlow : grp.bitmap (2 * j) = false := hfree _ (mem_nth.mpr (by omega))
    have hhigh : grp.bitmap (2 * j + 1) = false := hfree _ (mem_nth.mpr (by omega))
    rw [(Function.update_eq_self_iff (a := 2 * j)).mpr hlow.symm, Function.update_eq_self_iff.mpr hhigh.symm]
  · rfl

def halves (T : Set Block) (k j : ℕ) : Set Block :=
  insert (nth k (2 * j + 1)) (insert (nth k (2 * j)) (T \ {nth (k + 1) j}))

theorem Tracks.split {j : ℕ} (h : Tracks e4b grp T Z) (hmem : nth (k + 1) j ∈ T) :
    Tracks e4b (halved e4b grp k j) (halves T k j) Z := by
  have hk : k < e4b.top := h.le_top hmem
  have hj := h.index_lt hmem
  have hwidth := width_succ hk
  have hparent : (nth k (2 * j)).parent = nth (k + 1) j := parent_half (by omega)
  have hlow := (h.shown.remove hk hj hmem).insert hk.le (show 2 * j < e4b.width k by omega)
    fun hcon => h.half_notMem hmem (by omega) hcon.1
  rw [halved_put]
  refine ⟨(hlow.insert hk.le (show 2 * j + 1 < e4b.width k by omega) ?_).congr rfl rfl, ?_, ?_, h.lt_width⟩
  · rintro (heq | hcon)
    · rw [nth_inj] at heq
      omega
    · exact h.half_notMem hmem (by omega) hcon.1
  · refine h.tiles.split (nth_aligned k (2 * j)) (hparent ▸ hmem) fun c => ?_
    rw [buddy_nth, hparent, halves]
    simp only [Set.mem_insert_iff, Set.mem_sdiff, Set.mem_singleton_iff]
    tauto
  · rintro b (rfl | rfl | ⟨hb, -⟩)
    · exact hk.le
    · exact hk.le
    · exact h.order_le b hb

theorem MergeableOver.split {M j : ℕ} (h : MergeableOver M T x) (hx : x / 2 ^ (k + 1) = j) :
    MergeableOver M (halves T k j) x := by
  have hpair : ∀ c, c = nth k (2 * j) ∨ c = nth k (2 * j + 1) → c.parent = nth (k + 1) j := by
    rintro c (rfl | rfl)
    · exact parent_half (by omega)
    · exact parent_half (by omega)
  intro c hc ho hbuddy
  by_cases hhalf : c = nth k (2 * j) ∨ c = nth k (2 * j + 1)
  · rw [hpair c hhalf]
    exact mem_nth.mpr hx
  · obtain ⟨hlow, hhigh⟩ := not_or.mp hhalf
    have hcT := ((hc.resolve_left hhigh).resolve_left hlow).1
    have hbhigh : c.buddy ≠ nth k (2 * j + 1) := fun heq => hlow (by
      rw [← Block.buddy_buddy c, heq, ← buddy_nth, Block.buddy_buddy])
    have hblow : c.buddy ≠ nth k (2 * j) := fun heq => hhigh (by
      rw [← Block.buddy_buddy c, heq, buddy_nth])
    exact h c hcT ho ((hbuddy.resolve_left hbhigh).resolve_left hblow).1

end Split

section Loop

theorem pages_whole (hstart : start >>> k <<< k = start) :
    (nth k (start / 2 ^ k)).pages = Ico start (start + 2 ^ k) := by
  have heq : 2 ^ k * (start / 2 ^ k) = start := by
    rwa [Nat.shiftLeft_eq, Nat.shiftRight_eq_div_pow, Nat.mul_comm] at hstart
  change Ico (2 ^ k * (start / 2 ^ k)) (2 ^ k * (start / 2 ^ k) + 2 ^ k) = _
  rw [heq]

theorem markLoop_take {fuel ret : ℕ} (hlen : len ≠ 0) (hk : k ≤ e4b.top)
    (hord : mbFindOrderForBlock e4b grp start = .ok k) (hi : start / 2 ^ k < e4b.width k)
    (hwhole : start >>> k <<< k = start ∧ 1 <<< k ≤ len) :
    markLoop e4b (fuel + 1) grp start len ret =
      markLoop e4b fuel (taken e4b grp k (start / 2 ^ k)) (start + 2 ^ k) (len - 2 ^ k) ret := by
  have hindex : ¬ e4b.width k ≤ start >>> k := by
    omega
  simp only [markLoop, if_neg hlen, hord, theBuddy_eq hk, if_pos hwhole, if_neg hindex, bind, Except.bind]
  rw [Nat.shiftRight_eq_div_pow, Nat.one_shiftLeft]
  rfl

theorem markLoop_split {fuel ret : ℕ} (hlen : len ≠ 0) (hk : k + 1 ≤ e4b.top)
    (hord : mbFindOrderForBlock e4b grp start = .ok (k + 1))
    (hpart : ¬ (start >>> (k + 1) <<< (k + 1) = start ∧ 1 <<< (k + 1) ≤ len)) :
    ∃ ret', markLoop e4b (fuel + 1) grp start len ret =
      markLoop e4b fuel (halved e4b grp k (start / 2 ^ (k + 1))) start len ret' := by
  have hcur : start >>> k >>> 1 <<< 1 = 2 * (start / 2 ^ (k + 1)) := by
    rw [← Nat.shiftRight_add, Nat.shiftRight_eq_div_pow, Nat.shiftLeft_eq, Nat.mul_comm, Nat.pow_one]
  refine ⟨if ret = 0 then len ||| (k + 1) <<< 16 else ret, ?_⟩
  simp only [markLoop, if_neg hlen, hord, theBuddy_eq hk, if_neg hpart, if_neg (Nat.succ_ne_zero k),
    Nat.add_sub_cancel, theBuddy_eq (show k ≤ e4b.top by omega), hcur, bind, Except.bind]
  rw [Nat.shiftRight_eq_div_pow]
  rfl

theorem markLoop_spec {fuel ret : ℕ} (h : Tracks e4b grp T Z) (hover : MergeableOver e4b.top T start)
    (hdone : len = 0 → Lonely e4b.top T) (hfree : Ico start (start + len) ⊆ Z)
    (hmap : ∀ x ∈ Z, grp.bitmap x = false) (hend : len = 0 → 0 < fuel)
    (hfuel : ∀ k, nth k (start / 2 ^ k) ∈ T → len * (e4b.top + 1) + k < fuel) :
    ∃ ret' grp' T', markLoop e4b fuel grp start len ret = .ok (ret', grp') ∧
      Tracks e4b grp' T' (Z \ Ico start (start + len)) ∧ Lonely e4b.top T' ∧
      (∀ x ∉ Ico start (start + len), grp'.bitmap x = grp.bitmap x) ∧
      grp' = { grp with bitmap := grp'.bitmap, buddy := grp'.buddy, bbCounters := grp'.bbCounters } := by
  induction fuel generalizing grp T Z start len ret with
  | zero =>
    by_cases hlen : len = 0
    · exact absurd (hend hlen) (Nat.lt_irrefl 0)
    · obtain ⟨k, hk⟩ := h.exists_tile (hfree ⟨le_rfl, by omega⟩)
      exact absurd (hfuel k hk) (Nat.not_lt_zero _)
  | succ fuel ih =>
    by_cases hlen : len = 0
    · subst hlen
      have hset : Z \ Ico start (start + 0) = Z := by
        rw [Nat.add_zero, Set.Ico_self, Set.sdiff_empty]
      rw [hset]
      exact ⟨ret, grp, T, rfl, h, hdone rfl, fun _ _ => rfl, rfl⟩
    have hstart : start ∈ Z := hfree ⟨le_rfl, by omega⟩
    obtain ⟨k, hord, hmem⟩ := mbFindOrderForBlock_eq h hstart
    have hk := h.le_top hmem
    have hrounds := hfuel k hmem
    by_cases hwhole : start >>> k <<< k = start ∧ 1 <<< k ≤ len
    · have hpages := pages_whole hwhole.1
      have hpos := Nat.two_pow_pos k
      have hlonely := hover.take h hmem rfl
      have hnext := h.take hmem
      rw [hpages] at hnext
      have hset : (Z \ Ico start (start + 2 ^ k)) \ Ico (start + 2 ^ k) (start + 2 ^ k + (len - 2 ^ k)) =
          Z \ Ico start (start + len) := by
        ext x
        simp only [Set.mem_sdiff, Set.mem_Ico, and_assoc]
        refine and_congr_right fun _ => ?_
        omega
      have hmap' : ∀ x ∈ Z \ Ico start (start + 2 ^ k), (taken e4b grp k (start / 2 ^ k)).bitmap x = false := by
        intro x hx
        rw [taken_bitmap e4b grp k _ (hpages ▸ hx.2)]
        exact hmap x hx.1
      have hfree' : Ico (start + 2 ^ k) (start + 2 ^ k + (len - 2 ^ k)) ⊆
          Z \ Ico start (start + 2 ^ k) := by
        rintro x ⟨hlo, hhi⟩
        refine ⟨hfree ⟨by omega, by omega⟩, fun hcon => ?_⟩
        have := hcon.2
        omega
      have hless : (len - 2 ^ k) * (e4b.top + 1) + (e4b.top + 1) ≤ len * (e4b.top + 1) := by
        rw [← Nat.succ_mul]
        exact Nat.mul_le_mul_right _ (by omega)
      obtain ⟨ret', grp', T', hrun, htracks, hlonely', hbitmap, hsame⟩ := @ih _ _ _ _ _ ret hnext
        (fun c hc ho hb => absurd hb (hlonely c hc ho)) (fun _ => hlonely) hfree' hmap' (fun _ => by omega)
        (fun k' hk' => by have := hnext.le_top hk'; omega)
      rw [hset] at htracks
      refine ⟨ret', grp', T', ?_, htracks, hlonely', fun x hx => ?_, ?_⟩
      · rw [markLoop_take hlen hk hord (h.index_lt hmem) hwhole]
        exact hrun
      · have hnot : x ∉ (nth k (start / 2 ^ k)).pages := by
          rw [hpages]
          exact fun hcon => hx ⟨hcon.1, by have := hcon.2; omega⟩
        rw [hbitmap x fun hcon => hx ⟨by have := hcon.1; omega, by have := hcon.2; omega⟩,
          taken_bitmap e4b grp k _ hnot]
      · rw [hsame, taken_put]
        rfl
    · cases k with
      | zero =>
        refine absurd ⟨rfl, ?_⟩ hwhole
        exact Nat.one_le_iff_ne_zero.mpr hlen
      | succ k =>
        have hnext := h.split hmem
        have hpagesZ := h.tiles.subset hmem
        have hbitmap' := halved_bitmap e4b (fun x hx => hmap x (hpagesZ hx))
        obtain ⟨ret₁, hround⟩ := @markLoop_split e4b grp k start len fuel ret hlen hk hord hwhole
        have hchild : nth k (start / 2 ^ k) ∈ halves T k (start / 2 ^ (k + 1)) := by
          have hdiv : start / 2 ^ (k + 1) = start / 2 ^ k / 2 := by
            rw [Nat.pow_succ, Nat.div_div_eq_div_mul]
          have hside : start / 2 ^ k = 2 * (start / 2 ^ (k + 1)) ∨
              start / 2 ^ k = 2 * (start / 2 ^ (k + 1)) + 1 := by omega
          cases hside with
          | inl heq => exact .inr (.inl (congrArg (nth k) heq))
          | inr heq => exact .inl (congrArg (nth k) heq)
        have hfuel' : ∀ k', nth k' (start / 2 ^ k') ∈ halves T k (start / 2 ^ (k + 1)) →
            len * (e4b.top + 1) + k' < fuel := by
          intro k' hk'
          have hsame := hnext.tile_unique hk' hchild rfl rfl
          omega
        obtain ⟨ret', grp', T', hrun, htracks, hlonely', hbitmap, hsame⟩ := @ih _ _ _ _ _ ret₁ hnext
          (hover.split rfl) (fun hno => absurd hno hlen) hfree (by rw [hbitmap']; exact hmap)
          (fun hno => absurd hno hlen) hfuel'
        refine ⟨ret', grp', T', hround.trans hrun, htracks, hlonely', fun x hx => ?_, ?_⟩
        · rw [hbitmap x hx, hbitmap']
        · rw [hsame, halved_put]
          rfl

end Loop

end VDLinux.Fs.Mballoc
