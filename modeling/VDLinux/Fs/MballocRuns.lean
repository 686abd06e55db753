import VDLinux.Fs.MballocOps

namespace VDLinux.Fs.Mballoc

open Base.Dyadic Base.Fragments Finset List

variable {e4b : Ext4Buddy} {grp grp' : GroupInfo} {T : Set Block} {Z : Set ℕ} {k i x : ℕ}

section Extent

theorem Tracks.begins_behind (h : Tracks e4b grp T Z) {k' : ℕ} (hmem : nth k i ∈ T)
    (hnext : nth k' (2 ^ k * (i + 1) / 2 ^ k') ∈ T) :
    2 ^ k' * (2 ^ k * (i + 1) / 2 ^ k') = 2 ^ k * (i + 1) := by
  have hpos := Nat.two_pow_pos k
  have hend : 2 ^ k * (i + 1) = 2 ^ k * i + 2 ^ k := Nat.mul_succ _ _
  have hle : 2 ^ k' * (2 ^ k * (i + 1) / 2 ^ k') ≤ 2 ^ k * (i + 1) := Nat.mul_div_le _ _
  by_contra hne
  -- otherwise both tiles have the block before the end
  have hlast : 2 ^ k * (i + 1) - 1 ∈ (nth k i).pages := by
    change 2 ^ k * i ≤ _ ∧ _ < 2 ^ k * i + 2 ^ k
    omega
  have hbefore : 2 ^ k * (i + 1) - 1 ∈ (nth k' (2 ^ k * (i + 1) / 2 ^ k')).pages := by
    have hin : 2 ^ k * (i + 1) ∈ (nth k' (2 ^ k * (i + 1) / 2 ^ k')).pages := mem_nth.mpr rfl
    have hhi := hin.2
    exact ⟨show 2 ^ k' * (2 ^ k * (i + 1) / 2 ^ k') ≤ _ by omega, by omega⟩
  have heq := h.tiles.eq_of_mem hmem hnext hlast hbefore
  obtain ⟨rfl, hi⟩ := nth_eq_iff.mp heq
  rw [Nat.mul_div_cancel_left _ hpos] at hi
  omega

theorem extendLoop_spec {needed : ℤ} {fuel start : ℕ} {ex : FreeExtent} (h : Tracks e4b grp T Z)
    (hmap : Mapped e4b grp Z) (hmem : nth k i ∈ T) (hstart : ex.feStart = start)
    (hend : ex.feStart + ex.feLen = (2 ^ k * (i + 1) : ℕ))
    (hfree : Set.Ico start (2 ^ k * (i + 1)) ⊆ Z) (hfuel : e4b.width 0 < 2 ^ k * (i + 1) + fuel) :
    ∃ ex' stop, extendLoop e4b grp needed fuel k i ex = .ok ex' ∧ ex'.feStart = start ∧
      ex'.feGroup = ex.feGroup ∧ ex'.feStart + ex'.feLen = (stop : ℕ) ∧ 2 ^ k * (i + 1) ≤ stop ∧
      stop ≤ e4b.width 0 ∧ Set.Ico start stop ⊆ Z := by
  have hk := h.le_top hmem
  have hi := h.index_lt hmem
  have hbound : 2 ^ k * (i + 1) ≤ e4b.width 0 := by
    rw [← width_mul hk]
    exact Nat.mul_le_mul_left _ hi
  induction fuel generalizing k i ex with
  | zero => omega
  | succ fuel ih =>
    have hstop : ∃ ex' stop, (.ok ex : Except Fault FreeExtent) = .ok ex' ∧ ex'.feStart = start ∧
        ex'.feGroup = ex.feGroup ∧ ex'.feStart + ex'.feLen = (stop : ℕ) ∧ 2 ^ k * (i + 1) ≤ stop ∧
        stop ≤ e4b.width 0 ∧ Set.Ico start stop ⊆ Z :=
      ⟨ex, _, rfl, hstart, rfl, hend, le_rfl, hbound, hfree⟩
    have hnext : (i + 1) * 1 <<< k = 2 ^ k * (i + 1) := by
      rw [Nat.one_shiftLeft, Nat.mul_comm]
    simp only [extendLoop, mbFindBuddy_eq hk, hnext, test_bitmap]
    split
    · split
      · exact hstop
      · split
        · exact hstop
        · rename_i hclear
          have hlt : 2 ^ k * (i + 1) < e4b.width 0 := by
            rw [← width_mul hk]
            exact Nat.mul_lt_mul_of_pos_left (by omega) (Nat.two_pow_pos k)
          have hin : 2 ^ k * (i + 1) ∈ Z := (hmap _ hlt).mp (by simpa using hclear)
          obtain ⟨k', hord, hmem'⟩ := mbFindOrderForBlock_eq h hin
          have hbegin := h.begins_behind hmem hmem'
          have hpos := Nat.two_pow_pos k'
          have hend' : 2 ^ k' * (2 ^ k * (i + 1) / 2 ^ k' + 1) = 2 ^ k * (i + 1) + 2 ^ k' := by
            rw [Nat.mul_succ, hbegin]
          have htile : Set.Ico (2 ^ k * (i + 1)) (2 ^ k * (i + 1) + 2 ^ k') ⊆ Z := by
            rw [← hbegin]
            exact h.tiles.subset hmem'
          have hfree' : Set.Ico start (2 ^ k' * (2 ^ k * (i + 1) / 2 ^ k' + 1)) ⊆ Z := by
            rw [hend']
            rintro x ⟨hlo, hhi⟩
            by_cases hx : x < 2 ^ k * (i + 1)
            · exact hfree ⟨hlo, hx⟩
            · exact htile ⟨by omega, hhi⟩
          have hk' := h.le_top hmem'
          have hi' := h.index_lt hmem'
          have hbound' : 2 ^ k' * (2 ^ k * (i + 1) / 2 ^ k' + 1) ≤ e4b.width 0 := by
            rw [← width_mul hk']
            exact Nat.mul_le_mul_left _ hi'
          obtain ⟨ex', stop, hrun, hs, hg, he, hle, hrest⟩ :=
            @ih k' _ { ex with feLen := ex.feLen + (2 ^ k' : ℕ) } hmem' hstart
              (by rw [hend']; push_cast at hend ⊢; omega) hfree' (by omega) hk' hi' hbound'
          simp only [hord, bind, Except.bind, Nat.shiftRight_eq_div_pow, Nat.one_shiftLeft]
          exact ⟨ex', stop, hrun, hs, hg, he, by omega, hrest⟩
    · exact hstop

def firstExtent (e4b : Ext4Buddy) (k x : ℕ) : FreeExtent :=
  { feStart := (x >>> k <<< k : ℕ) + ((x : ℤ) - (x >>> k <<< k : ℕ))
    feGroup := e4b.group
    feLen := (1 <<< k : ℕ) - ((x : ℤ) - (x >>> k <<< k : ℕ)) }

theorem firstExtent_start (e4b : Ext4Buddy) (k x : ℕ) : (firstExtent e4b k x).feStart = x := by
  simp only [firstExtent]
  omega

theorem firstExtent_end (e4b : Ext4Buddy) (k x : ℕ) :
    (firstExtent e4b k x).feStart + (firstExtent e4b k x).feLen = (2 ^ k * (x / 2 ^ k + 1) : ℕ) := by
  simp only [firstExtent, Nat.mul_succ, Nat.shiftLeft_eq, Nat.shiftRight_eq_div_pow]
  rw [Nat.mul_comm (x / 2 ^ k)]
  omega

theorem mbFindExtent_eq (hlt : x < e4b.width 0) (hclear : grp.bitmap x = false)
    (hord : mbFindOrderForBlock e4b grp x = .ok k) (needed : ℤ) :
    mbFindExtent e4b grp 0 x needed =
      (extendLoop e4b grp needed (e4b.width 0) k (x / 2 ^ k) (firstExtent e4b k x)).bind fun ex =>
        if (e4b.width 0 : ℕ) < ex.feStart + ex.feLen then .error .bug else .ok ex := by
  have hsize : 1 <<< (e4b.blkbits + 3) = e4b.width 0 := Nat.one_shiftLeft _
  simp only [mbFindExtent, mbFindBuddy_eq (Nat.zero_le _), addr_zero, test_bitmap, hclear,
    if_neg (Nat.not_le.mpr hlt), if_true, Bool.false_eq_true, if_false, hord, bind, Except.bind, hsize]
  rw [← Nat.shiftRight_eq_div_pow]
  rfl

theorem mbFindExtent_free (h : Tracks e4b grp T Z) (hmap : Mapped e4b grp Z) (hx : x ∈ Z) (needed : ℤ) :
    ∃ ex stop, mbFindExtent e4b grp 0 x needed = .ok ex ∧ ex.feStart = x ∧ ex.feGroup = e4b.group ∧
      ex.feStart + ex.feLen = (stop : ℕ) ∧ x < stop ∧ stop ≤ e4b.width 0 ∧ Set.Ico x stop ⊆ Z := by
  have hlt := h.lt_width x hx
  obtain ⟨k, hord, hmem⟩ := mbFindOrderForBlock_eq h hx
  have hin : x ∈ (nth k (x / 2 ^ k)).pages := mem_nth.mpr rfl
  have hend : 2 ^ k * (x / 2 ^ k + 1) = 2 ^ k * (x / 2 ^ k) + 2 ^ k := Nat.mul_succ _ _
  have hhi : x < 2 ^ k * (x / 2 ^ k + 1) := by
    exact hin.2
  have hfree : Set.Ico x (2 ^ k * (x / 2 ^ k + 1)) ⊆ Z := by
    exact fun y hy => h.tiles.subset hmem ⟨le_trans hin.1 hy.1, hy.2⟩
  obtain ⟨ex, stop, hrun, hs, hg, he, hle, hstop, hZ⟩ := @extendLoop_spec e4b grp T Z k (x / 2 ^ k) needed
    (e4b.width 0) x (firstExtent e4b k x) h hmap hmem (firstExtent_start e4b k x) (firstExtent_end e4b k x)
    hfree (by omega)
  refine ⟨ex, stop, ?_, hs, hg, he, by omega, hstop, hZ⟩
  have hfit : ¬ ((e4b.width 0 : ℕ) : ℤ) < ex.feStart + ex.feLen := by
    omega
  rw [mbFindExtent_eq hlt ((hmap x hlt).mpr hx) hord, hrun]
  exact if_neg hfit

end Extent

section Check

theorem countP_range (n : ℕ) (p : ℕ → Bool) :
    (List.range n).countP p = ((Finset.range n).filter fun i => p i = true).card := by
  rw [countP_eq_length_filter]
  exact congrArg List.length (List.filter_congr fun i _ => Bool.decide_eq_true.symm)

theorem countFragments_eq (grp : GroupInfo) {rounds : ℕ} {inside : Bool}
    (hinside : inside = true ↔ i ≠ 0 ∧ grp.bitmap (i - 1) = false) :
    countFragments grp rounds i inside = ((Finset.Ico i (i + rounds)).filter fun x =>
      grp.bitmap x = false ∧ (x = 0 ∨ grp.bitmap (x - 1) = true)).card := by
  induction rounds generalizing i inside with
  | zero => simp [countFragments]
  | succ rounds ih =>
    have hsplit : Finset.Ico i (i + (rounds + 1)) = insert i (Finset.Ico (i + 1) (i + 1 + rounds)) := by
      ext y
      simp only [mem_Ico, Finset.mem_insert]
      omega
    rw [countFragments, test_bitmap, hsplit, filter_insert]
    cases hbit : grp.bitmap i with
    | true =>
      rw [if_pos rfl, ih (by simp [hbit]), if_neg (by simp)]
    | false =>
      rw [if_neg (by decide), ih (by simp [hbit])]
      -- a fragment starts here unless the block before is free too
      have hstart : (i = 0 ∨ grp.bitmap (i - 1) = true) ↔ ¬ inside = true := by
        rw [hinside, not_and_or, not_not, Bool.not_eq_false]
      simp only [hstart, true_and]
      cases inside with
      | true => rw [if_pos rfl, Nat.zero_add, if_neg (by simp)]
      | false =>
        rw [if_neg (by decide), if_pos (by decide), card_insert_of_notMem (by simp), Nat.add_comm]

theorem addr_ne (hk : 1 ≤ k) (hkM : k + 1 ≤ e4b.top) : e4b.addr (k + 1) ≠ e4b.addr k := by
  intro heq
  have hplace : e4b.place (k + 1) 0 = e4b.place k 0 := by rw [Ext4Buddy.place, heq, Ext4Buddy.place]
  exact (place_lt hk (Nat.lt_succ_self k) hkM (Nat.two_pow_pos _)).ne' hplace

/-- A buddy of the order above has no free half; no pair of buddies is free without it. -/
theorem checkOrder_of (hk : 1 ≤ k) (hkM : k + 1 ≤ e4b.top)
    (hset : ∀ i < e4b.width (k + 1), mbTestBit grp i (e4b.addr (k + 1)) = true →
      mbTestBit grp (2 * i) (e4b.addr k) = true ∨ mbTestBit grp (2 * i + 1) (e4b.addr k) = true)
    (hclear : ∀ i < e4b.width (k + 1), mbTestBit grp i (e4b.addr (k + 1)) = false →
      FreeRun grp (k + 1) i ∧ ∀ j < e4b.width k, j / 2 = i → mbTestBit grp j (e4b.addr k) = true)
    (hcount : grp.bbCounters (k + 1) = ((Finset.range (e4b.width (k + 1))).filter fun i =>
      mbTestBit grp i (e4b.addr (k + 1)) = false).card) : checkOrder e4b grp (k + 1) = true := by
  have hwidth := width_succ (show k < e4b.top from hkM)
  simp only [checkOrder, mbFindBuddy_eq hkM, Nat.add_sub_cancel, mbFindBuddy_eq (show k ≤ e4b.top by omega),
    Bool.and_eq_true, all_eq_true, List.mem_range, beq_iff_eq, decide_eq_true_eq]
  refine ⟨⟨⟨by simpa using addr_ne hk hkM, by omega⟩, fun i hi => ?_⟩, ?_⟩
  · rw [show i <<< 1 = 2 * i by omega]
    cases hbit : mbTestBit grp i (e4b.addr (k + 1)) with
    | true =>
      obtain hlow | hhigh := hset i hi hbit
      · simp [hlow]
      · simp [hhigh]
    | false =>
      obtain ⟨hfree, hhalf⟩ := hclear i hi hbit
      rw [if_neg (by decide), hhalf (2 * i) (by omega) (by omega), hhalf (2 * i + 1) (by omega) (by omega)]
      simp only [Bool.and_self, Bool.true_and, all_eq_true, List.mem_range, Nat.one_shiftLeft,
        test_bitmap]
      intro j hj
      rw [Nat.mul_comm, hfree j hj]
      rfl
  · rw [countP_range, hcount]
    simp only [Bool.not_eq_true']

theorem Exact.checkOrder (h : Exact e4b grp) (hk : 1 ≤ k) (hkM : k + 1 ≤ e4b.top) :
    checkOrder e4b grp (k + 1) = true := by
  have htracks := h.tracks
  have hwidth := width_succ (show k < e4b.top from hkM)
  have hlow : ∀ i < e4b.width k, (mbTestBit grp i (e4b.addr k) = false ↔
      nth k i ∈ maximal e4b.top (freeSet e4b grp)) := fun i hi => by
    rw [h.bits k i hk (by omega) hi, isBuddy_iff (by omega) hi]
  refine checkOrder_of hk hkM (fun i hi _ => ?_) (fun i hi hbit => ?_) ?_
  · by_contra hpair
    rw [not_or, Bool.not_eq_true, Bool.not_eq_true, hlow _ (by omega), hlow _ (by omega), ← buddy_nth] at hpair
    exact lonely_maximal e4b.top (freeSet e4b grp) _ hpair.1 hkM hpair.2
  · have hmem : nth (k + 1) i ∈ maximal e4b.top (freeSet e4b grp) := by
      rwa [h.bits (k + 1) i (by omega) hkM hi, isBuddy_iff hkM hi] at hbit
    refine ⟨(freeRun_iff hkM hi).mpr (htracks.tiles.subset hmem), fun j hj hji => ?_⟩
    refine Bool.eq_true_of_not_eq_false fun hclear => ?_
    exact htracks.half_notMem hmem hji ((hlow j hj).mp hclear)
  · rw [h.counters (k + 1) hkM]
    congr 2
    ext i
    simp only [Finset.mem_filter, Finset.mem_range]
    exact and_congr_right fun hi => (h.bits (k + 1) i (by omega) hkM hi).symm

theorem checkBlock_of (hx : x < e4b.width 0) (hfirst : grp.bitmap x = false → grp.bbFirstFree ≤ x)
    (hused : grp.bitmap x = true → ∀ j, 1 ≤ j → j ≤ e4b.top → x / 2 ^ j < e4b.width j →
      mbTestBit grp (x / 2 ^ j) (e4b.addr j) = true) : checkBlock e4b grp x = true := by
  rw [Mballoc.checkBlock, test_bitmap]
  cases hbit : grp.bitmap x with
  | false =>
    exact decide_eq_true (hfirst hbit)
  | true =>
    simp only [if_true, all_eq_true, List.mem_range]
    intro j hj
    have hjM : j ≤ e4b.top := by
      rw [Ext4Buddy.top]
      omega
    have hlt : x / 2 ^ j < e4b.width j := by
      rw [Nat.div_lt_iff_lt_mul (Nat.two_pow_pos j), Nat.mul_comm, width_mul hjM]
      exact hx
    rw [mbFindBuddy_eq hjM, Nat.shiftRight_eq_div_pow]
    simp only [Bool.and_eq_true, decide_eq_true_eq]
    refine ⟨hlt, ?_⟩
    by_cases hzero : j = 0
    · subst hzero
      rw [addr_zero, test_bitmap]
      simpa using hbit
    · exact hused hbit j (by omega) hjM hlt

theorem Exact.checkBlock (h : Exact e4b grp) (hx : x < e4b.width 0) : checkBlock e4b grp x = true := by
  refine checkBlock_of hx (h.firstFree x hx) fun hbit j hj hjM hlt => ?_
  refine Bool.eq_true_of_not_eq_false fun hclear => ?_
  rw [h.bits j _ hj hjM hlt, isBuddy_iff hjM hlt] at hclear
  have hfree := (h.tracks.tiles.subset hclear (mem_nth.mpr rfl)).2
  rw [hbit] at hfree
  exact absurd hfree (by decide)

theorem Exact.mbCheckBuddy (h : Exact e4b grp) : mbCheckBuddy e4b grp = true := by
  have hsize : 1 <<< (e4b.blkbits + 3) = e4b.width 0 := Nat.one_shiftLeft _
  simp only [Mballoc.mbCheckBuddy, hsize, Bool.and_eq_true, all_eq_true, List.mem_range, beq_iff_eq]
  refine ⟨⟨⟨⟨fun k hk => ?_, fun x hx => h.checkBlock hx⟩, ?_⟩, ?_⟩, fun pa hpa => ?_⟩
  · refine h.checkOrder (Nat.le_add_left 1 k) ?_
    rw [Ext4Buddy.top]
    omega
  · rw [h.init]
    rfl
  · rw [h.fragments, countFragments_eq grp (by simp), Nat.zero_add, range_eq_Ico]
  · refine ⟨(h.preallocs pa hpa).1, fun j hj => ?_⟩
    rw [test_bitmap]
    exact (h.preallocs pa hpa).2 j hj

end Check

/-- An extent to be marked is free; one to be freed is used and in no preallocation. -/
def Allowed (e4b : Ext4Buddy) (grp : GroupInfo) : Op → Prop
  | .markUsed start len => 0 < len ∧ start + len ≤ e4b.width 0 ∧
      ∀ x, start ≤ x → x < start + len → grp.bitmap x = false
  | .freeBlocks first count => 0 < count ∧ first + count ≤ e4b.width 0 ∧
      (∀ x, first ≤ x → x < first + count → grp.bitmap x = true) ∧
      ∀ pa ∈ grp.preallocList, ∀ j < pa.len, ¬ (first ≤ pa.start + j ∧ pa.start + j < first + count)

def AllowedRun (e4b : Ext4Buddy) : GroupInfo → List Op → Prop
  | _, [] => True
  | grp, op :: ops => Allowed e4b grp op ∧ ∀ grp', step e4b grp op = .ok grp' → AllowedRun e4b grp' ops

def run (e4b : Ext4Buddy) (grp : GroupInfo) (ops : List Op) : Except Fault GroupInfo :=
  ops.foldlM (step e4b) grp

theorem step_exact {op : Op} (h : Exact e4b grp) (hop : Allowed e4b grp op) :
    ∃ grp', step e4b grp op = .ok grp' ∧ Exact e4b grp' := by
  cases op with
  | markUsed start len =>
    obtain ⟨hpos, hbound, hfree⟩ := hop
    obtain ⟨ret, grp', hrun, hexact⟩ := mbMarkUsed_exact h hpos hbound hfree
    exact ⟨grp', by rw [step, hrun]; rfl, hexact⟩
  | freeBlocks first count =>
    obtain ⟨hpos, hbound, hused, hpreallocs⟩ := hop
    exact mbFreeBlocks_exact h hpos hbound hused hpreallocs

theorem run_exact {ops : List Op} (h : Exact e4b grp) (hops : AllowedRun e4b grp ops) :
    ∃ grp', run e4b grp ops = .ok grp' ∧ Exact e4b grp' := by
  induction ops generalizing grp with
  | nil => exact ⟨grp, rfl, h⟩
  | cons op ops ih =>
    obtain ⟨grp₁, hstep, hexact⟩ := step_exact h hops.1
    obtain ⟨grp', hrun, hexact'⟩ := ih hexact (hops.2 grp₁ hstep)
    refine ⟨grp', ?_, hexact'⟩
    rw [run, foldlM_cons, hstep]
    exact hrun

/-- From an exact group, any sequence of operations leaves a group that is exact and passes all checks, and
`mb_find_extent` finds an extent of free blocks at every free block. -/
theorem buddy_exact (e4b : Ext4Buddy) (grp : GroupInfo) (ops : List Op) (h : Exact e4b grp)
    (hops : AllowedRun e4b grp ops) :
    ∃ grp', run e4b grp ops = .ok grp' ∧ Exact e4b grp' ∧ mbCheckBuddy e4b grp' = true ∧
      ∀ block < e4b.width 0, grp'.bitmap block = false → ∀ needed : ℤ,
        ∃ ex, mbFindExtent e4b grp' 0 block needed = .ok ex ∧ ex.feStart = block ∧ ex.feGroup = e4b.group ∧
          0 < ex.feLen ∧ ∀ x : ℕ, block ≤ x → (x : ℤ) < ex.feStart + ex.feLen →
            x < e4b.width 0 ∧ grp'.bitmap x = false := by
  obtain ⟨grp', hrun, hexact⟩ := run_exact h hops
  refine ⟨grp', hrun, hexact, hexact.mbCheckBuddy, fun block hlt hclear needed => ?_⟩
  obtain ⟨ex, stop, hfind, hs, hg, he, hstop, -, hfree⟩ :=
    mbFindExtent_free hexact.tracks (mapped_freeSet e4b grp') ⟨hlt, hclear⟩ needed
  refine ⟨ex, hfind, hs, hg, by omega, fun x hlo hhi => hfree ⟨hlo, ?_⟩⟩
  omega

section Examples

def smallBuddy : Ext4Buddy :=
  { blkbits := 10, group := 0, blkbits_ge := by decide, blkbits_le := by decide }

def fullGroup : GroupInfo :=
  { bitmap := fun _ => true, buddy := fun _ => true, bbCounters := fun _ => 0, bbFree := 0, bbFragments := 0
    bbFirstFree := 0, bbLargestFreeOrder := -1, needInit := false, preallocList := [] }

theorem fullGroup_exact (e4b : Ext4Buddy) : Exact e4b fullGroup := by
  have hrun : ∀ k i, ¬ FreeRun fullGroup k i := fun k i h =>
    Bool.noConfusion (show true = false from h 0 (Nat.two_pow_pos k))
  refine ⟨fun k i hk _ _ => ?_, fun k _ => ?_, ?_, ?_, nofun, rfl, nofun⟩
  · rw [test_buddy hk]
    exact ⟨nofun, fun h => absurd h.1 (hrun k i)⟩
  · rw [filter_false_of_mem fun i _ h => hrun k i h.1]
    rfl
  · rw [filter_false_of_mem fun i _ h => nomatch h]
    rfl
  · rw [filter_false_of_mem fun i _ h => nomatch h.1]
    rfl

theorem buddy_exact_freed : Exact smallBuddy fullGroup ∧
    ∃ grp', run smallBuddy fullGroup [.freeBlocks 5 6] = .ok grp' ∧
      mbCheckBuddy smallBuddy grp' = true := by
  refine ⟨fullGroup_exact smallBuddy, ?_⟩
  have hallowed : AllowedRun smallBuddy fullGroup [.freeBlocks 5 6] :=
    ⟨⟨by decide, by decide, fun _ _ _ => rfl, nofun⟩, fun _ _ => trivial⟩
  obtain ⟨grp', hrun, -, hcheck, -⟩ :=
    buddy_exact smallBuddy fullGroup [.freeBlocks 5 6] (fullGroup_exact smallBuddy) hallowed
  exact ⟨grp', hrun, hcheck⟩

/-- The blocks 0 to 7 are free as a buddy of order 3, and the first two of them once more as one of
order 1. -/
def nestedGroup : GroupInfo :=
  { bitmap := fun x => 8 ≤ x
    buddy := fun x => x ≠ smallBuddy.place 3 0 && x ≠ smallBuddy.place 1 0
    bbCounters := fun k => if k = 3 ∨ k = 1 then 1 else 0
    bbFree := 8, bbFragments := 1, bbFirstFree := 0, bbLargestFreeOrder := 3, needInit := false
    preallocList := [] }

theorem nestedGroup_bit (hk : 1 ≤ k) (hkM : k ≤ smallBuddy.top) (hi : i < smallBuddy.width k) :
    mbTestBit nestedGroup i (smallBuddy.addr k) = !decide (i = 0 ∧ (k = 3 ∨ k = 1)) := by
  have h3 := @place_inj smallBuddy 3 k 0 i (by decide) (by decide) (by decide) hk hkM hi
  have h1 := @place_inj smallBuddy 1 k 0 i (by decide) (by decide) (by decide) hk hkM hi
  rw [test_buddy hk, nestedGroup]
  simp only [ne_eq, h3, h1, decide_not]
  by_cases hzero : i = 0
  · simp [hzero]
  · simp [hzero]

theorem nestedGroup_checkOrder (hk : 1 ≤ k) (hkM : k + 1 ≤ smallBuddy.top) :
    checkOrder smallBuddy nestedGroup (k + 1) = true := by
  have hwidth := width_succ (show k < smallBuddy.top from hkM)
  refine checkOrder_of hk hkM (fun i hi _ => .inr ?_) (fun i hi hbit => ?_) ?_
  · rw [nestedGroup_bit hk (by omega) (by omega)]
    simp
  · rw [nestedGroup_bit (by omega) hkM hi, Bool.not_eq_false', decide_eq_true_eq] at hbit
    obtain rfl : k = 2 := by omega
    refine ⟨fun j hj => decide_eq_false ?_, fun j hj _ => ?_⟩
    · omega
    · rw [nestedGroup_bit hk (by omega) hj]
      simp
  · have hpos : 0 < smallBuddy.width (k + 1) := Nat.two_pow_pos _
    have hbit : ∀ i ∈ Finset.range (smallBuddy.width (k + 1)),
        (mbTestBit nestedGroup i (smallBuddy.addr (k + 1)) = false ↔ i = 0 ∧ (k + 1 = 3 ∨ k + 1 = 1)) := by
      intro i hi
      rw [nestedGroup_bit (by omega) hkM (Finset.mem_range.mp hi), Bool.not_eq_false', decide_eq_true_eq]
    rw [Finset.filter_congr hbit, nestedGroup]
    by_cases hthree : k + 1 = 3 ∨ k + 1 = 1
    · simp only [hthree, and_true, filter_eq', Finset.mem_range, hpos, if_true]
      rfl
    · simp only [hthree, and_false, Finset.filter_false, if_false]
      rfl

theorem nestedGroup_check : mbCheckBuddy smallBuddy nestedGroup = true := by
  have hsize : 1 <<< (smallBuddy.blkbits + 3) = smallBuddy.width 0 := Nat.one_shiftLeft _
  simp only [mbCheckBuddy, hsize, Bool.and_eq_true, all_eq_true, List.mem_range, beq_iff_eq]
  refine ⟨⟨⟨⟨fun k hk => ?_, fun x hx => ?_⟩, rfl⟩, ?_⟩, nofun⟩
  · refine nestedGroup_checkOrder (Nat.le_add_left 1 k) ?_
    rw [Ext4Buddy.top]
    omega
  · refine checkBlock_of hx (fun _ => Nat.zero_le x) fun hbit j hj hjM hlt => ?_
    have hle : 8 ≤ x := of_decide_eq_true hbit
    rw [nestedGroup_bit hj hjM hlt]
    simp only [Bool.not_eq_true', decide_eq_false_iff_not]
    rintro ⟨hdiv, rfl | rfl⟩ <;> omega
  · rw [countFragments_eq nestedGroup (by simp), Nat.zero_add]
    have hstarts : (Finset.Ico 0 (smallBuddy.width 0)).filter (fun x =>
        nestedGroup.bitmap x = false ∧ (x = 0 ∨ nestedGroup.bitmap (x - 1) = true)) = {0} := by
      ext x
      have hpos : 0 < smallBuddy.width 0 := Nat.two_pow_pos _
      simp only [Finset.mem_filter, mem_Ico, Finset.mem_singleton, nestedGroup,
        decide_eq_false_iff_not, decide_eq_true_eq]
      omega
    rw [hstarts]
    rfl

/-- The checks do not rule out buddies inside one another: all of them hold of the group, and after the
first two blocks are marked the larger buddy has used blocks. -/
theorem checks_not_kept :
    mbCheckBuddy smallBuddy nestedGroup = true ∧ Allowed smallBuddy nestedGroup (.markUsed 0 2) ∧
      ∃ grp', step smallBuddy nestedGroup (.markUsed 0 2) = .ok grp' ∧
        mbCheckBuddy smallBuddy grp' = false := by
  refine ⟨nestedGroup_check, ⟨by decide, by decide, fun x _ hx => decide_eq_false (by omega)⟩, ?_⟩
  -- the check of the order 3 looks at the block 0
  have hrun : (step smallBuddy nestedGroup (.markUsed 0 2)).toOption.map (checkOrder smallBuddy · 3) =
      some false := by
    decide +kernel
  cases hstep : step smallBuddy nestedGroup (.markUsed 0 2) with
  | error f =>
    rw [hstep] at hrun
    exact nomatch hrun
  | ok grp' =>
    rw [hstep] at hrun
    refine ⟨grp', rfl, Bool.eq_false_of_not_eq_true fun hcheck => ?_⟩
    simp only [mbCheckBuddy, Bool.and_eq_true, all_eq_true, List.mem_range] at hcheck
    have horder : checkOrder smallBuddy grp' 3 = true := hcheck.1.1.1.1 1 (by decide)
    exact absurd (horder.symm.trans (Option.some.inj hrun)) (by decide)

end Examples

end VDLinux.Fs.Mballoc
