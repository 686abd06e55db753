import VDLinux.Drivers.Raid6

namespace VDLinux.Drivers.Raid6

open Finset Function
open Base.Columns Base.Erasure

/-- The pointers of `n` data blocks, P and Q are distinct, and none is the zero page. -/
structure Layout (ptrs : ℕ → ℕ) (n zeroPage : ℕ) : Prop where
  inj : ∀ i j, i < n + 2 → j < n + 2 → ptrs i = ptrs j → i = j
  ne_zeroPage : ∀ i < n + 2, ptrs i ≠ zeroPage

structure Coded (ptrs : ℕ → ℕ) (n : ℕ) (col : ℕ → Byte) : Prop where
  p_eq : col (ptrs n) = (pSum ptrs col n).byte
  q_eq : col (ptrs (n + 1)) = (qSum ptrs col n).byte

variable {ptrs ptrs' : ℕ → ℕ} {n zeroPage : ℕ} {col col' : ℕ → Byte}

theorem pSum_congr (h : ∀ z < n, col' (ptrs' z) = col (ptrs z)) : pSum ptrs' col' n = pSum ptrs col n :=
  sum_congr rfl fun z hz => Gf.ext (h z (mem_range.mp hz))

theorem qSum_congr (h : ∀ z < n, col' (ptrs' z) = col (ptrs z)) : qSum ptrs' col' n = qSum ptrs col n :=
  sum_congr rfl fun z hz => congrArg _ (Gf.ext (h z (mem_range.mp hz)))

variable (hl : Layout ptrs n zeroPage)
include hl

theorem Layout.ne {i j : ℕ} (hij : i ≠ j) (hi : i < n + 2 := by omega) (hj : j < n + 2 := by omega) :
    ptrs i ≠ ptrs j :=
  fun h => hij (hl.inj i j hi hj h)

theorem syndromeColumn_data {z : ℕ} (hz : z < n) :
    syndromeColumn ptrs n col (ptrs z) = col (ptrs z) := by
  rw [syndromeColumn, if_neg (hl.ne (by omega)), if_neg (hl.ne (by omega))]

theorem coded_syndromeColumn (col : ℕ → Byte) : Coded ptrs n (syndromeColumn ptrs n col) where
  p_eq := by
    rw [pSum_congr fun z hz => syndromeColumn_data hl hz, syndromeColumn, if_neg (hl.ne (by omega)),
      if_pos rfl]
  q_eq := by
    rw [qSum_congr fun z hz => syndromeColumn_data hl hz, syndromeColumn, if_pos rfl]

omit hl

/-- The column seen by `gen_syndrome` in a recovery: the lost data read as zero, the rest as it was. -/
structure Blanked (ptrs ptrs' : ℕ → ℕ) (n : ℕ) (col col' : ℕ → Byte) (lost : Finset ℕ) : Prop where
  lost_lt : lost ⊆ range n
  zero : ∀ z ∈ lost, col' (ptrs' z) = 0
  rest : ∀ z < n, z ∉ lost → col' (ptrs' z) = col (ptrs z)

variable {lost : Finset ℕ}

theorem Blanked.pSum_add (hb : Blanked ptrs ptrs' n col col' lost) :
    pSum ptrs col n + pSum ptrs' col' n = ∑ z ∈ lost, datum ptrs col z := by
  have h : ∑ z ∈ range n, 1 * datum ptrs col z + ∑ z ∈ range n, 1 * datum ptrs' col' z =
      ∑ z ∈ lost, 1 * datum ptrs col z :=
    sum_add_sum_erased hb.lost_lt (fun z hz => Gf.ext (hb.zero z hz))
      (fun z hz hn => Gf.ext (hb.rest z hz hn))
  simp only [one_mul] at h
  exact h

theorem Blanked.qSum_add (hb : Blanked ptrs ptrs' n col col' lost) :
    qSum ptrs col n + qSum ptrs' col' n = ∑ z ∈ lost, Gf.two ^ z * datum ptrs col z :=
  sum_add_sum_erased hb.lost_lt (fun z hz => Gf.ext (hb.zero z hz))
    (fun z hz hn => Gf.ext (hb.rest z hz hn))

theorem tables_solve {a b : ℕ} (hab : a < b) (hb : b < 255) (x y : Gf) :
    gfmul (gfexi (b - a)) (x + y).byte ^^^
      gfmul (gfinv (gfexp a ^^^ gfexp b)) (Gf.two ^ a * x + Gf.two ^ b * y).byte = y.byte := by
  have hsolve := solve_second (Gf.isUnit_two.pow a).ne_zero
    (Gf.two_pow_ne_one (show b - a ≠ 0 by omega) (by omega)) x y
  rw [← pow_add, Nat.add_sub_cancel' hab.le] at hsolve
  rw [Gf.gfexi_eq (by omega), Gf.gfexp_eq (by omega), Gf.gfexp_eq hb]
  exact congrArg Gf.byte hsolve

theorem twoDataColumn_recovers {a b : ℕ} (hl : Layout ptrs n zeroPage) (hn : n ≤ 255) (hab : a < b)
    (hb : b < n) (hcol : Coded ptrs n col) (hblank : Blanked ptrs ptrs' n col col' {a, b})
    (heq : ∀ blk, blk ≠ ptrs a → blk ≠ ptrs b → col' blk = col blk) (hp : ptrs' n = ptrs a)
    (hq : ptrs' (n + 1) = ptrs b) :
    twoDataColumn (ptrs n) (ptrs (n + 1)) (ptrs a) (ptrs b) (gfmul (gfexi (b - a)))
      (gfmul (gfinv (gfexp a ^^^ gfexp b))) (syndromeColumn ptrs' n col') = col := by
  have hne : ptrs a ≠ ptrs b := hl.ne (by omega)
  have hat : ∀ blk, blk ≠ ptrs a → blk ≠ ptrs b → syndromeColumn ptrs' n col' blk = col blk := by
    intro blk hba hbb
    rw [syndromeColumn, hq, hp, if_neg hbb, if_neg hba, heq blk hba hbb]
  have hdp : syndromeColumn ptrs' n col' (ptrs a) = (pSum ptrs' col' n).byte := by
    rw [syndromeColumn, hq, hp, if_neg hne, if_pos rfl]
  have hdq : syndromeColumn ptrs' n col' (ptrs b) = (qSum ptrs' col' n).byte := by
    rw [syndromeColumn, hq, if_pos rfl]
  have hpx : syndromeColumn ptrs' n col' (ptrs n) ^^^ syndromeColumn ptrs' n col' (ptrs a) =
      (datum ptrs col a + datum ptrs col b).byte := by
    rw [hat _ (hl.ne (by omega)) (hl.ne (by omega)), hdp, hcol.p_eq, ← Gf.add_byte, hblank.pSum_add,
      sum_pair (by omega)]
  have hqx : syndromeColumn ptrs' n col' (ptrs (n + 1)) ^^^ syndromeColumn ptrs' n col' (ptrs b) =
      (Gf.two ^ a * datum ptrs col a + Gf.two ^ b * datum ptrs col b).byte := by
    rw [hat _ (hl.ne (by omega)) (hl.ne (by omega)), hdq, hcol.q_eq, ← Gf.add_byte, hblank.qSum_add,
      sum_pair (by omega)]
  funext blk
  simp only [twoDataColumn, hpx, hqx, tables_solve hab (show b < 255 by omega)]
  by_cases hba : blk = ptrs a
  · rw [if_pos hba, hba, ← Gf.add_byte, add_left_comm, CharTwo.add_self_eq_zero, add_zero]
    rfl
  · split_ifs with hbb
    · rw [hbb]
      rfl
    · rw [hat blk hba hbb]

theorem datapColumn_recovers {a : ℕ} (hl : Layout ptrs n zeroPage) (hn : n ≤ 255) (ha : a < n)
    (hcol : Coded ptrs n col) (hblank : Blanked ptrs ptrs' n col col' {a})
    (heq : ∀ blk, blk ≠ ptrs a → blk ≠ ptrs n → col' blk = col blk) (hp : ptrs' n = ptrs n)
    (hq : ptrs' (n + 1) = ptrs a) :
    datapColumn (ptrs n) (ptrs (n + 1)) (ptrs a) (gfmul (gfinv (gfexp a))) (syndromeColumn ptrs' n col') =
      col := by
  have hne : ptrs n ≠ ptrs a := hl.ne (by omega)
  have hat : ∀ blk, blk ≠ ptrs a → blk ≠ ptrs n → syndromeColumn ptrs' n col' blk = col blk := by
    intro blk hba hbn
    rw [syndromeColumn, hq, hp, if_neg hba, if_neg hbn, heq blk hba hbn]
  have hpn : syndromeColumn ptrs' n col' (ptrs n) = (pSum ptrs' col' n).byte := by
    rw [syndromeColumn, hq, hp, if_neg hne, if_pos rfl]
  have hdq : syndromeColumn ptrs' n col' (ptrs a) = (qSum ptrs' col' n).byte := by
    rw [syndromeColumn, hq, if_pos rfl]
  have hqx : syndromeColumn ptrs' n col' (ptrs (n + 1)) ^^^ syndromeColumn ptrs' n col' (ptrs a) =
      (Gf.two ^ a * datum ptrs col a).byte := by
    rw [hat _ (hl.ne (by omega)) (hl.ne (by omega)), hdq, hcol.q_eq, ← Gf.add_byte, hblank.qSum_add,
      sum_singleton]
  have hv : gfmul (gfinv (gfexp a)) (Gf.two ^ a * datum ptrs col a).byte = (datum ptrs col a).byte := by
    rw [Gf.gfexp_eq (by omega), ← Gf.inv_byte, ← Gf.mul_byte,
      inv_mul_cancel_left₀ (Gf.isUnit_two.pow a).ne_zero]
  funext blk
  simp only [datapColumn, hqx, hv, if_neg hne, hpn]
  by_cases hbn : blk = ptrs n
  · have hsum := hblank.pSum_add
    rw [sum_singleton] at hsum
    rw [if_pos hbn, hbn, ← Gf.add_byte, ← hsum, add_left_comm, CharTwo.add_self_eq_zero, add_zero,
      hcol.p_eq]
  · split_ifs with hba
    · rw [hba]
      rfl
    · rw [hat blk hba hbn]

variable (bld : Build)

/-- The pointer table with which `raid6_2data_recov` calls `gen_syndrome`. -/
def twoDataPtrs (ptrs : ℕ → ℕ) (n a b : ℕ) (z : ℕ) : ℕ :=
  if z = a ∨ z = b then bld.zeroPage else if z = n then ptrs a else if z = n + 1 then ptrs b else ptrs z

def datapPtrs (ptrs : ℕ → ℕ) (n a : ℕ) (z : ℕ) : ℕ :=
  if z = a then bld.zeroPage else if z = n + 1 then ptrs a else ptrs z

theorem raid6_2dataRecov_eq {a b : ℕ} (hab : a < b) (hb : b < n) (k : ℕ) (mem : Memory) :
    raid6_2dataRecov bld (n + 2) (k * (bld.nsize * bld.unroll)) a b ptrs mem =
      (ptrs, mapColumns 0 (k * (bld.nsize * bld.unroll))
        (twoDataColumn (ptrs n) (ptrs (n + 1)) (ptrs a) (ptrs b) (gfmul (gfexi (b - a)))
          (gfmul (gfinv (gfexp a ^^^ gfexp b))) ∘ syndromeColumn (twoDataPtrs bld ptrs n a b) n) mem) := by
  have hp : n + 2 - 2 = n := rfl
  have hq : n + 2 - 1 = n + 1 := rfl
  have hdq : update (update ptrs a bld.zeroPage) n (ptrs a) b = ptrs b := by
    rw [update_of_ne (by omega), update_of_ne (by omega)]
  have hptrs : update (update (update (update ptrs a bld.zeroPage) n
      (ptrs a)) b bld.zeroPage) (n + 1) (ptrs b) = twoDataPtrs bld ptrs n a b := by
    funext z
    simp only [update_apply, twoDataPtrs]
    split_ifs <;> first | rfl | omega
  have hrestore : update (update (update (update
      (twoDataPtrs bld ptrs n a b) a (ptrs a)) b (ptrs b)) n (ptrs n)) (n + 1) (ptrs (n + 1)) = ptrs := by
    funext z
    simp only [update_apply, twoDataPtrs]
    split_ifs with h1 h2 h3 h4 h5
    all_goals first | rfl | (subst_vars; rfl) | omega
  simp only [raid6_2dataRecov, hp, hq, hdq, hptrs, hrestore, genSyndrome_eq (show 0 < n by omega),
    bytesLoop_eq (raid6_2dataStep_eq _ _ _ _ _ _), Nat.zero_add, mapColumns_comp]

theorem raid6DatapRecov_eq {a : ℕ} (ha : a < n) (k : ℕ) (mem : Memory) :
    raid6DatapRecov bld (n + 2) (k * (bld.nsize * bld.unroll)) a ptrs mem =
      (ptrs, mapColumns 0 (k * (bld.nsize * bld.unroll))
        (datapColumn (ptrs n) (ptrs (n + 1)) (ptrs a) (gfmul (gfinv (gfexp a))) ∘
          syndromeColumn (datapPtrs bld ptrs n a) n) mem) := by
  have hp : n + 2 - 2 = n := rfl
  have hq : n + 2 - 1 = n + 1 := rfl
  have hptrs : update (update ptrs a bld.zeroPage) (n + 1) (ptrs a) =
      datapPtrs bld ptrs n a := by
    funext z
    simp only [update_apply, datapPtrs]
    split_ifs <;> first | rfl | omega
  have hrestore : update (update (datapPtrs bld ptrs n a) a (ptrs a)) (n + 1)
      (ptrs (n + 1)) = ptrs := by
    funext z
    simp only [update_apply, datapPtrs]
    split_ifs with h1 h2
    all_goals first | rfl | (subst_vars; rfl)
  simp only [raid6DatapRecov, hp, hq, hptrs, hrestore, genSyndrome_eq (show 0 < n by omega),
    bytesLoop_eq (raid6DatapStep_eq _ _ _ _), Nat.zero_add, mapColumns_comp]

/-- The table is as before, the first `bytes` bytes of every block are those of `mem`, and nothing behind
them has changed. -/
def Restores (ptrs : ℕ → ℕ) (bytes : ℕ) (mem mem' : Memory) (result : (ℕ → ℕ) × Memory) : Prop :=
  result.1 = ptrs ∧ (∀ blk o, o < bytes → result.2 blk o = mem blk o) ∧
    ∀ blk o, bytes ≤ o → result.2 blk o = mem' blk o

theorem restores_of_column {bytes : ℕ} {mem mem' : Memory} {f : (ℕ → Byte) → ℕ → Byte}
    (h : ∀ o < bytes, f (fun blk => mem' blk o) = fun blk => mem blk o) :
    Restores ptrs bytes mem mem' (ptrs, mapColumns 0 bytes f mem') := by
  refine ⟨rfl, ?_, ?_⟩
  · intro blk o ho
    exact (mapColumns_of_mem (Nat.zero_le o) ho blk).trans (congrFun (h o ho) blk)
  · intro blk o ho
    exact mapColumns_of_not_mem (by omega) blk

/-- The columns `gen_syndrome` has gone through: P and Q belong to the data, the zero page is as before. -/
theorem genSyndrome_column (hl : Layout ptrs n bld.zeroPage) (hn : 0 < n) {k o : ℕ}
    (ho : o < k * (bld.nsize * bld.unroll)) (mem : Memory) :
    let col := fun blk => genSyndrome bld ptrs mem (n + 2) (k * (bld.nsize * bld.unroll)) blk o
    Coded ptrs n col ∧ col bld.zeroPage = mem bld.zeroPage o := by
  have hcol : (fun blk => genSyndrome bld ptrs mem (n + 2) (k * (bld.nsize * bld.unroll)) blk o) =
      syndromeColumn ptrs n fun blk => mem blk o := by
    funext blk
    rw [genSyndrome_eq hn, mapColumns_of_mem (Nat.zero_le o) ho]
  rw [hcol]
  refine ⟨coded_syndromeColumn hl _, ?_⟩
  have hq := hl.ne_zeroPage (n + 1) (by omega)
  have hp := hl.ne_zeroPage n (by omega)
  simp only [syndromeColumn, if_neg hq.symm, if_neg hp.symm]

theorem blanked_twoData {a b : ℕ} (hl : Layout ptrs n bld.zeroPage) (hab : a < b) (hb : b < n)
    (hzero : col bld.zeroPage = 0) (heq : ∀ blk, blk ≠ ptrs a → blk ≠ ptrs b → col' blk = col blk) :
    Blanked ptrs (twoDataPtrs bld ptrs n a b) n col col' {a, b} where
  lost_lt := by
    intro z hz
    rcases mem_insert.mp hz with rfl | hz
    · exact mem_range.mpr (hab.trans hb)
    · rw [mem_singleton.mp hz]
      exact mem_range.mpr hb
  zero := by
    intro z hz
    rw [mem_insert, mem_singleton] at hz
    rw [twoDataPtrs, if_pos hz, heq _ (hl.ne_zeroPage a (by omega)).symm (hl.ne_zeroPage b (by omega)).symm]
    exact hzero
  rest := by
    intro z hz hlost
    rw [mem_insert, mem_singleton] at hlost
    rw [twoDataPtrs, if_neg hlost, if_neg (by omega), if_neg (by omega)]
    exact heq _ (hl.ne (by omega)) (hl.ne (by omega))

theorem blanked_datap {a : ℕ} (hl : Layout ptrs n bld.zeroPage) (ha : a < n)
    (hzero : col bld.zeroPage = 0) (heq : ∀ blk, blk ≠ ptrs a → blk ≠ ptrs n → col' blk = col blk) :
    Blanked ptrs (datapPtrs bld ptrs n a) n col col' {a} where
  lost_lt := singleton_subset_iff.mpr (mem_range.mpr ha)
  zero := by
    intro z hz
    rw [datapPtrs, if_pos (mem_singleton.mp hz),
      heq _ (hl.ne_zeroPage a (by omega)).symm (hl.ne_zeroPage n (by omega)).symm]
    exact hzero
  rest := by
    intro z hz hlost
    rw [mem_singleton] at hlost
    rw [datapPtrs, if_neg hlost, if_neg (by omega)]
    exact heq _ (hl.ne (by omega)) (hl.ne (by omega))

/-- Whichever two blocks are lost, a data block and another data block or P, they are restored, for blocks
of at most a page. -/
theorem raid6_recovers (ptrs : ℕ → ℕ) (n k : ℕ) (mem mem' : Memory) (hn2 : 2 ≤ n) (hn : n ≤ 255)
    (hl : Layout ptrs n bld.zeroPage) (hzero : ∀ o < bld.pageSize, mem bld.zeroPage o = 0)
    (hpage : k * (bld.nsize * bld.unroll) ≤ bld.pageSize) :
    (∀ a b, a < b → b < n → (∀ blk o, blk ≠ ptrs a → blk ≠ ptrs b →
        mem' blk o = genSyndrome bld ptrs mem (n + 2) (k * (bld.nsize * bld.unroll)) blk o) →
      Restores ptrs (k * (bld.nsize * bld.unroll))
        (genSyndrome bld ptrs mem (n + 2) (k * (bld.nsize * bld.unroll))) mem'
        (raid6_2dataRecov bld (n + 2) (k * (bld.nsize * bld.unroll)) a b ptrs mem')) ∧
    ∀ a < n, (∀ blk o, blk ≠ ptrs a → blk ≠ ptrs n →
        mem' blk o = genSyndrome bld ptrs mem (n + 2) (k * (bld.nsize * bld.unroll)) blk o) →
      Restores ptrs (k * (bld.nsize * bld.unroll))
        (genSyndrome bld ptrs mem (n + 2) (k * (bld.nsize * bld.unroll))) mem'
        (raid6DatapRecov bld (n + 2) (k * (bld.nsize * bld.unroll)) a ptrs mem') := by
  have hcol : ∀ o < k * (bld.nsize * bld.unroll), Coded ptrs n (fun blk =>
      genSyndrome bld ptrs mem (n + 2) (k * (bld.nsize * bld.unroll)) blk o) ∧
      genSyndrome bld ptrs mem (n + 2) (k * (bld.nsize * bld.unroll)) bld.zeroPage o = 0 := by
    intro o ho
    obtain ⟨hcoded, hz⟩ := genSyndrome_column bld hl (by omega) ho mem
    exact ⟨hcoded, hz.trans (hzero o (ho.trans_le hpage))⟩
  constructor
  · intro a b hab hb heq
    rw [raid6_2dataRecov_eq bld hab hb]
    apply restores_of_column
    intro o ho
    have hblank := blanked_twoData bld hl hab hb (hcol o ho).2 fun blk => heq blk o
    refine twoDataColumn_recovers hl hn hab hb (hcol o ho).1 hblank (fun blk => heq blk o) ?_ ?_
    · rw [twoDataPtrs, if_neg (by omega), if_pos rfl]
    · rw [twoDataPtrs, if_neg (by omega), if_neg (by omega), if_pos rfl]
  · intro a ha heq
    rw [raid6DatapRecov_eq bld ha]
    apply restores_of_column
    intro o ho
    have hblank := blanked_datap bld hl ha (hcol o ho).2 fun blk => heq blk o
    refine datapColumn_recovers hl hn ha (hcol o ho).1 hblank (fun blk => heq blk o) ?_ ?_
    · rw [datapPtrs, if_neg (by omega), if_neg (by omega)]
    · rw [datapPtrs, if_neg (by omega), if_pos rfl]

def build64 : Build where
  nsize := 8
  bigEndian := false
  unroll := 1
  zeroPage := 100
  pageSize := 4096
  nsize_pos := by decide
  unroll_pos := by decide

theorem layout_four : Layout (fun i => i) 2 100 where
  inj _ _ _ _ h := h
  ne_zeroPage i hi h := by omega

def twoBlocks : Memory := fun b _ => if b = 0 then 7 else if b = 1 then 9 else 0

theorem raid6_recovers_two :
    Restores (fun i => i) 8 (genSyndrome build64 (fun i => i) twoBlocks 4 8)
      (fun b o => if b = 0 ∨ b = 1 then 0xee else genSyndrome build64 (fun i => i) twoBlocks 4 8 b o)
      (raid6_2dataRecov build64 4 8 0 1 (fun i => i) fun b o =>
        if b = 0 ∨ b = 1 then 0xee else genSyndrome build64 (fun i => i) twoBlocks 4 8 b o) := by
  refine (raid6_recovers build64 (fun i => i) 2 1 twoBlocks _ (by decide) (by decide) layout_four
    (fun _ _ => rfl) (by decide)).1 0 1 (by decide) (by decide) ?_
  intro blk o h0 h1
  exact if_neg (not_or.mpr ⟨h0, h1⟩)

def behindPage : Memory := fun b o => if b = 100 ∧ o = 4096 then 1 else 0

/-- Blocks that are longer than a page: the recovery reads what stands behind the zero page. -/
theorem long_block_lost : Layout (fun i => i) 2 build64.zeroPage ∧
      (∀ o < build64.pageSize, behindPage build64.zeroPage o = 0) ∧
      ¬ Restores (fun i => i) (513 * 8) (genSyndrome build64 (fun i => i) behindPage 4 (513 * 8))
        (genSyndrome build64 (fun i => i) behindPage 4 (513 * 8))
        (raid6_2dataRecov build64 4 (513 * 8) 0 1 (fun i => i)
          (genSyndrome build64 (fun i => i) behindPage 4 (513 * 8))) := by
  refine ⟨layout_four, ?_, ?_⟩
  · intro o ho
    exact if_neg fun h => absurd h.2 (Nat.ne_of_lt ho)
  · rintro ⟨-, hrest, -⟩
    have h := hrest 1 4096 (by decide)
    have hgen : genSyndrome build64 (fun i => i) behindPage 4 (513 * 8) =
        mapColumns 0 (513 * 8) (syndromeColumn (fun i => i) 2) behindPage :=
      genSyndrome_eq Nat.two_pos behindPage
    have hrec := @raid6_2dataRecov_eq (fun i => i) 2 build64 0 1 (by decide) (by decide) 513
      (genSyndrome build64 (fun i => i) behindPage 4 (513 * 8))
    change raid6_2dataRecov build64 4 (513 * 8) 0 1 (fun i => i) _ = _ at hrec
    revert h
    decide +kernel

end VDLinux.Drivers.Raid6
