import VDLinux.Lib.SwiotlbSearch

namespace VDLinux.Lib.Swiotlb

open Base.FreeRuns List Nat

section Windows

variable (pool : Pool)

/-- The bytes of the smallest boundary window for a mask of `bits` ones that holds a slot. -/
def windowSize (bits : ℕ) : ℕ := 2 ^ max bits ioTlbShift

def InWindow (bits index n : ℕ) : Prop :=
  ∃ v, v * windowSize bits ≤ pool.start + index * 2 ^ ioTlbShift ∧
    pool.start + (index + n) * 2 ^ ioTlbShift ≤ (v + 1) * windowSize bits

def windowSlots (bits : ℕ) : ℕ := 2 ^ (max bits ioTlbShift - ioTlbShift)

theorem windowSize_eq (bits : ℕ) : windowSize bits = 2 ^ ioTlbShift * windowSlots bits := by
  rw [windowSize, windowSlots, ← Nat.pow_add, Nat.add_sub_cancel' (le_max_right bits ioTlbShift)]

theorem maxSlots_eq {bits : ℕ} (hbits : bits ≤ pool.bitsPerLong) :
    pool.maxSlots (2 ^ bits - 1) = windowSlots bits := by
  have hpow : 2 ^ bits - 1 + 1 = 2 ^ bits := Nat.sub_add_cancel Nat.one_le_two_pow
  have hge := pool.bits_ge
  rw [Pool.maxSlots, hpow, windowSlots]
  rcases Nat.eq_or_lt_of_le hbits with heq | hlt
  · simp only [heq, mod_self, ne_eq, not_true_eq_false, if_false, one_shiftLeft]
    rw [max_eq_left (by rw [ioTlbShift]; omega)]
  have hmod : 2 ^ bits % 2 ^ pool.bitsPerLong = 2 ^ bits :=
    mod_eq_of_lt (Nat.pow_lt_pow_right (by decide) hlt)
  simp only [hmod, ne_eq, (Nat.two_pow_pos bits).ne', not_false_eq_true, if_true, align_div]
  by_cases hsmall : bits ≤ ioTlbShift
  · -- a window smaller than a slot is taken for one slot
    have h1 : 2 ^ bits ≤ 2 ^ 11 := Nat.pow_le_pow_right (by decide) hsmall
    rw [max_eq_right hsmall, Nat.sub_self, Nat.pow_zero]
    omega
  · have hle : ioTlbShift ≤ bits := by omega
    have hmul : 2 ^ bits = 2048 * 2 ^ (bits - ioTlbShift) := by
      rw [← Nat.add_sub_cancel' hle, Nat.pow_add, Nat.add_sub_cancel_left]
      rfl
    rw [max_eq_left hle, hmul]
    omega

theorem offsetSlots_eq (bits : ℕ) :
    pool.offsetSlots (2 ^ bits - 1) = pool.start / 2 ^ ioTlbShift % windowSlots bits := by
  obtain ⟨q, hq⟩ := pool.start_dvd
  rw [Pool.offsetSlots, and_two_pow_sub_one_eq_mod, align_div, hq,
    Nat.mul_div_cancel_left _ (Nat.two_pow_pos ioTlbShift), windowSlots]
  by_cases hsmall : bits ≤ ioTlbShift
  · have hzero : 2 ^ ioTlbShift * q % 2 ^ bits = 0 :=
      mod_eq_zero_of_dvd ((Nat.pow_dvd_pow 2 hsmall).mul_right q)
    rw [max_eq_right hsmall, Nat.sub_self, Nat.pow_zero, mod_one, hzero]
  · have hle : ioTlbShift ≤ bits := by omega
    have hmul : 2 ^ bits = 2 ^ ioTlbShift * 2 ^ (bits - ioTlbShift) := by
      rw [← Nat.pow_add, Nat.add_sub_cancel' hle]
    rw [max_eq_left hle, hmul, mul_mod_mul_left, show 2 ^ ioTlbShift = 2048 from rfl]
    omega

theorem isSpanBoundary_iff {bits n : ℕ} (hbits : bits ≤ pool.bitsPerLong) (hn : 0 < n) (index : ℕ) :
    isSpanBoundary index n (pool.offsetSlots (2 ^ bits - 1)) (pool.maxSlots (2 ^ bits - 1)) ↔
      ¬ InWindow pool bits index n := by
  obtain ⟨q, hq⟩ := pool.start_dvd
  have hS : 0 < 2 ^ ioTlbShift := Nat.two_pow_pos _
  rw [isSpanBoundary, maxSlots_eq pool hbits, offsetSlots_eq, offset, windowSlots,
    and_two_pow_sub_one_eq_mod, ← windowSlots, hq, Nat.mul_div_cancel_left _ hS, mod_add_mod]
  have hwin : InWindow pool bits index n ↔
      ∃ v, v * windowSlots bits ≤ q + index ∧ q + index + n ≤ (v + 1) * windowSlots bits := by
    apply exists_congr
    intro v
    have h1 : v * windowSize bits = 2 ^ ioTlbShift * (v * windowSlots bits) := by
      rw [windowSize_eq]
      ring
    have h2 : (v + 1) * windowSize bits = 2 ^ ioTlbShift * ((v + 1) * windowSlots bits) := by
      rw [windowSize_eq]
      ring
    have h3 : pool.start + index * 2 ^ ioTlbShift = 2 ^ ioTlbShift * (q + index) := by
      rw [hq]
      ring
    have h4 : pool.start + (index + n) * 2 ^ ioTlbShift = 2 ^ ioTlbShift * (q + index + n) := by
      rw [hq]
      ring
    rw [h1, h2, h3, h4, Nat.mul_le_mul_left_iff hS, Nat.mul_le_mul_left_iff hS]
  rw [hwin, gt_iff_lt, ← Nat.not_le, not_iff_not]
  have hdiv := div_add_mod (q + index) (windowSlots bits)
  constructor
  · intro h
    refine ⟨(q + index) / windowSlots bits, div_mul_le_self _ _, ?_⟩
    rw [succ_mul, Nat.mul_comm]
    omega
  · rintro ⟨v, h1, h2⟩
    have hv : (q + index) / windowSlots bits = v := by
      apply Nat.div_eq_of_lt_le h1
      omega
    rw [hv, Nat.mul_comm] at hdiv
    rw [succ_mul] at h2
    omega

end Windows

section Map

variable {pool : Pool} {s : IoTlb} {used : ℕ → Prop} {bits size : ℕ}

theorem strideOf_eq (pool : Pool) (size : ℕ) : ∃ e, pool.strideOf size = 2 ^ e := by
  rw [Pool.strideOf]
  split_ifs
  · exact ⟨pool.pageShift - ioTlbShift, one_shiftLeft _⟩
  · exact ⟨0, rfl⟩

theorem isPowerOf2_two_pow (e : ℕ) : isPowerOf2 (2 ^ e) :=
  ⟨(Nat.two_pow_pos e).ne', by rw [and_two_pow_sub_one_eq_mod, mod_self]⟩

structure Fits (pool : Pool) (list : ℕ → ℕ) (bits size index : ℕ) : Prop where
  lt : index < pool.nslabs
  aligned : pool.strideOf size ∣ index
  window : InWindow pool bits index (slotsOf size)
  run : slotsOf size ≤ list index

theorem mapSingle_eq (s : IoTlb) (hbits : bits ≤ pool.bitsPerLong) (hsize : 0 < size) :
    (∃ index, Fits pool s.ioTlbList bits size index ∧
      mapSingle pool s (2 ^ bits - 1) size = (.mapped index, takeSlots pool s index (slotsOf size))) ∨
    (∀ index, ¬ Fits pool s.ioTlbList bits size index) ∧
      mapSingle pool s (2 ^ bits - 1) size = (.null, s) := by
  have hn : 0 < slotsOf size := by
    rw [slotsOf_eq]
    omega
  obtain ⟨e, he⟩ := strideOf_eq pool size
  have hs : 0 < pool.strideOf size := he ▸ Nat.two_pow_pos e
  have hpow : isPowerOf2 (pool.maxSlots (2 ^ bits - 1)) := by
    rw [maxSlots_eq pool hbits]
    exact isPowerOf2_two_pow _
  -- the first slot is aligned
  obtain ⟨m0, hm0, hwrap⟩ : ∃ m0 < stations pool (pool.strideOf size),
      (if align s.ioTlbIndex (pool.strideOf size) ≥ pool.nslabs then 0
        else align s.ioTlbIndex (pool.strideOf size)) = pool.strideOf size * m0 := by
    by_cases hover : align s.ioTlbIndex (pool.strideOf size) ≥ pool.nslabs
    · exact ⟨0, stations_pos hs, if_pos hover⟩
    · have hmul : align s.ioTlbIndex (pool.strideOf size) =
          pool.strideOf size * ((s.ioTlbIndex + (2 ^ e - 1)) / 2 ^ e) := by
        rw [he, align_eq, Nat.mul_comm]
      rw [if_neg hover]
      exact ⟨_, (lt_stations_iff hs _).mpr (by omega), hmul⟩
  have hspan : ∀ i, decide (isSpanBoundary i (slotsOf size) (pool.offsetSlots (2 ^ bits - 1))
      (pool.maxSlots (2 ^ bits - 1))) = false ↔ InWindow pool bits i (slotsOf size) := by
    intro i
    rw [decide_eq_false_iff_not, isSpanBoundary_iff pool hbits hn, not_not]
  have hfuel : stations pool (pool.strideOf size) - 0 ≤ pool.nslabs := stations_le hs
  simp only [mapSingle, if_neg hn.ne', not_not.mpr hpow, if_false, hwrap]
  rcases @searchLoop_eq pool (pool.strideOf size) m0 (slotsOf size)
      (fun i => decide (isSpanBoundary i (slotsOf size) (pool.offsetSlots (2 ^ bits - 1))
        (pool.maxSlots (2 ^ bits - 1)))) s.ioTlbList hs hm0 pool.nslabs 0 (stations_pos hs) hfuel with
    ⟨u, -, hu, hfit, heq⟩ | ⟨hnone, heq⟩
  · rw [station_zero hm0] at heq
    refine Or.inl ⟨_, ⟨station_lt hs u, ⟨_, rfl⟩, (hspan _).mp hu, hfit⟩, ?_⟩
    simp only [heq]
  · rw [station_zero hm0] at heq
    refine Or.inr ⟨fun index hfits => ?_, by simp only [heq]⟩
    obtain ⟨t, ht, rfl⟩ := exists_station hs hm0 hfits.lt hfits.aligned
    exact hnone t (Nat.zero_le t) ht ((hspan _).mpr hfits.window) hfits.run

theorem le_list_iff {list : ℕ → ℕ} (h : Consistent pool list used) {i n : ℕ} (hi : i < pool.nslabs) :
    n ≤ list i ↔ FreeRun ioTlbSegsize used i n := by
  refine le_iff_freeRun (by decide) fun j hij hdiv => h j ?_
  obtain ⟨g, hg⟩ := pool.nslabs_dvd
  rw [ioTlbSegsize] at hdiv hg
  omega

end Map

section Runs

variable (pool : Pool)

/-- A live mapping: its first slot, its size in bytes and the ones of the boundary mask. -/
structure Mapping where
  index : ℕ
  size : ℕ
  bits : ℕ
deriving DecidableEq

def Mapping.Covers (m : Mapping) (i : ℕ) : Prop := InRange m.index (slotsOf m.size) i

inductive Run : IoTlb → List Mapping → Prop
  | init : Run swiotlbInit []
  | map {s s' : IoTlb} {live : List Mapping} {index bits size : ℕ} : Run s live → bits ≤ pool.bitsPerLong →
      0 < size → size ≤ ioTlbSegsize * 2 ^ ioTlbShift →
      mapSingle pool s (2 ^ bits - 1) size = (.mapped index, s') → Run s' (⟨index, size, bits⟩ :: live)
  | fail {s s' : IoTlb} {live : List Mapping} {bits size : ℕ} : Run s live → bits ≤ pool.bitsPerLong →
      0 < size → size ≤ ioTlbSegsize * 2 ^ ioTlbShift →
      mapSingle pool s (2 ^ bits - 1) size = (.null, s') → Run s' live
  | unmap {s : IoTlb} {live : List Mapping} {m : Mapping} : Run s live → m ∈ live →
      Run (doUnmapSingle s m.index m.size) (live.erase m)

def Used (live : List Mapping) (i : ℕ) : Prop := ∃ m ∈ live, m.Covers i

/-- A mapping lies in one segment of the pool and in one boundary window. -/
structure Mapping.Valid (m : Mapping) : Prop where
  size_pos : 0 < slotsOf m.size
  pool_end : m.index + slotsOf m.size ≤ pool.nslabs
  segment : m.index % ioTlbSegsize + slotsOf m.size ≤ ioTlbSegsize
  window : InWindow pool m.bits m.index (slotsOf m.size)

structure PoolInv (s : IoTlb) (live : List Mapping) : Prop where
  valid : ∀ m ∈ live, m.Valid pool
  disjoint : live.Pairwise fun m m' => ∀ i, m.Covers i → ¬ m'.Covers i
  consistent : Consistent pool s.ioTlbList (Used live)

variable {pool}

theorem Consistent.congr {list : ℕ → ℕ} {used used' : ℕ → Prop} (h : Consistent pool list used)
    (hu : ∀ i, used' i ↔ used i) : Consistent pool list used' :=
  fun i hi => (h i hi).congr (hu i) rfl fun _ => rfl

variable {live : List Mapping}

theorem PoolInv.map {s : IoTlb} (h : PoolInv pool s live) {index bits size : ℕ}
    (hsize : 0 < size) (hfits : Fits pool s.ioTlbList bits size index) :
    PoolInv pool (takeSlots pool s index (slotsOf size)) (⟨index, size, bits⟩ :: live) := by
  have hn : 0 < slotsOf size := by
    rw [slotsOf_eq]
    omega
  have hrun := (le_list_iff h.consistent hfits.lt).mp hfits.run
  have hend : index + slotsOf size ≤ pool.nslabs := by
    obtain ⟨g, hg⟩ := pool.nslabs_dvd
    have h1 := hrun.inside
    have h2 := hfits.lt
    rw [ioTlbSegsize] at h1 hg
    omega
  refine ⟨?_, ?_, ?_⟩
  · exact forall_mem_cons.mpr ⟨⟨hn, hend, hrun.inside, hfits.window⟩, h.valid⟩
  · refine pairwise_cons.mpr ⟨fun m hm i hi hi' => ?_, h.disjoint⟩
    exact hrun.free i hi.1 hi.2 ⟨m, hm, hi'⟩
  · refine (takeSlots_consistent h.consistent hn hend).congr fun i => ?_
    constructor
    · rintro ⟨m, hm, hi⟩
      rcases mem_cons.mp hm with rfl | hm
      · exact Or.inr hi
      · exact Or.inl ⟨m, hm, hi⟩
    · rintro (⟨m, hm, hi⟩ | hi)
      · exact ⟨m, mem_cons_of_mem _ hm, hi⟩
      · exact ⟨_, mem_cons_self, hi⟩

theorem PoolInv.unmap {s : IoTlb} (h : PoolInv pool s live) {m : Mapping}
    (hm : m ∈ live) : PoolInv pool (doUnmapSingle s m.index m.size) (live.erase m) := by
  have hv := h.valid m hm
  have hsymm : ∀ m m' : Mapping, (∀ i, m.Covers i → ¬ m'.Covers i) → ∀ i, m'.Covers i → ¬ m.Covers i :=
    fun m m' hmm i hi hi' => hmm i hi' hi
  have hperm := perm_cons_erase hm
  have hpair : (m :: live.erase m).Pairwise fun m m' => ∀ i, m.Covers i → ¬ m'.Covers i :=
    (hperm.pairwise_iff (fun {a b} => hsymm a b)).mp h.disjoint
  obtain ⟨hout, hrest⟩ := pairwise_cons.mp hpair
  refine ⟨fun m' hm' => h.valid m' (mem_of_mem_erase hm'), hrest, ?_⟩
  refine (doUnmapSingle_consistent h.consistent hv.size_pos hv.pool_end hv.segment).congr fun i => ?_
  constructor
  · rintro ⟨m', hm', hi⟩
    exact ⟨⟨m', mem_of_mem_erase hm', hi⟩, fun hmi => hout m' hm' i hmi hi⟩
  · rintro ⟨⟨m', hm', hi⟩, hno⟩
    have hne : m' ≠ m := fun heq => hno (heq ▸ hi)
    exact ⟨m', (mem_erase_of_ne hne).mpr hm', hi⟩

theorem Run.inv {s : IoTlb} (h : Run pool s live) : PoolInv pool s live := by
  induction h with
  | init =>
    refine ⟨fun m hm => absurd hm not_mem_nil, List.Pairwise.nil, ?_⟩
    refine (swiotlbInit_consistent pool).congr fun i => ⟨?_, fun h => h.elim⟩
    rintro ⟨m, hm, -⟩
    exact absurd hm not_mem_nil
  | @map s s' live index bits size _ hbits hsize _ heq ih =>
    rcases mapSingle_eq s hbits hsize with ⟨index', hfits, heq'⟩ | ⟨-, heq'⟩
    · obtain ⟨hidx, rfl⟩ := Prod.mk.inj (heq'.symm.trans heq)
      obtain rfl := MapResult.mapped.inj hidx
      exact ih.map hsize hfits
    · exact absurd (congrArg Prod.fst (heq'.symm.trans heq)) (by simp)
  | @fail s s' live bits size _ hbits hsize _ heq ih =>
    rcases mapSingle_eq s hbits hsize with ⟨index', -, heq'⟩ | ⟨-, heq'⟩
    · exact absurd (congrArg Prod.fst (heq'.symm.trans heq)) (by simp)
    · obtain ⟨-, rfl⟩ := Prod.mk.inj (heq'.symm.trans heq)
      exact ih
  | unmap _ hm ih => exact ih.unmap hm

/-- In every state the live mappings are disjoint and lie in one segment and one window each, the list holds
the lengths of the runs of free slots, and `map_single` returns, with `NULL` only if there is no such
    run. -/
theorem pool_consistent {s : IoTlb} {live : List Mapping} (h : Run pool s live) :
    (live.Pairwise fun m m' => ∀ i, m.Covers i → ¬ m'.Covers i) ∧ (∀ m ∈ live, m.Valid pool) ∧
    (∀ i < pool.nslabs, IsGreatest {n | FreeRun ioTlbSegsize (Used live) i n} (s.ioTlbList i)) ∧
    ∀ bits size, bits ≤ pool.bitsPerLong → 0 < size → size ≤ ioTlbSegsize * 2 ^ ioTlbShift →
      ((∃ index, (mapSingle pool s (2 ^ bits - 1) size).1 = .mapped index) ∨
        (mapSingle pool s (2 ^ bits - 1) size).1 = .null) ∧
      ((mapSingle pool s (2 ^ bits - 1) size).1 = .null → ∀ i < pool.nslabs, pool.strideOf size ∣ i →
        InWindow pool bits i (slotsOf size) → ¬ FreeRun ioTlbSegsize (Used live) i (slotsOf size)) := by
  have hinv := h.inv
  refine ⟨hinv.disjoint, hinv.valid, fun i hi => ?_, fun bits size hbits hsize _ => ?_⟩
  · exact ⟨(le_list_iff hinv.consistent hi).mp le_rfl, fun n hn => (le_list_iff hinv.consistent hi).mpr hn⟩
  · rcases mapSingle_eq s hbits hsize with ⟨index, -, heq⟩ | ⟨hnone, heq⟩
    · rw [heq]
      exact ⟨Or.inl ⟨index, rfl⟩, fun h => absurd h (by simp)⟩
    · rw [heq]
      refine ⟨Or.inr rfl, fun _ i hi hdvd hwin hrun => ?_⟩
      exact hnone i ⟨hi, hdvd, hwin, (le_list_iff hinv.consistent hi).mpr hrun⟩

def smallPool : Pool where
  nslabs := 128
  start := 0
  bitsPerLong := 32
  pageShift := 12
  nslabs_pos := by decide
  nslabs_dvd := by decide
  start_dvd := by decide
  bits_ge := by decide
  pageShift_ge := by decide

theorem pool_consistent_small :
    IsGreatest {n | FreeRun ioTlbSegsize (Used [⟨0, 5000, 32⟩]) 3 n} 125 := by
  have hmap : mapSingle smallPool swiotlbInit (2 ^ 32 - 1) 5000 =
      (.mapped 0, takeSlots smallPool swiotlbInit 0 3) := rfl
  have hrun : Run smallPool (takeSlots smallPool swiotlbInit 0 3) [⟨0, 5000, 32⟩] :=
    Run.map Run.init (by decide) (by decide) (by decide) hmap
  exact (pool_consistent hrun).2.2.1 3 (by decide)

/-- A mask of eight ones: the mapping of 1000 bytes lies in several windows of 256 bytes. -/
theorem small_window_crossed :
    (∃ s, mapSingle smallPool swiotlbInit (2 ^ 8 - 1) 1000 = (.mapped 0, s) ∧
      Run smallPool s [⟨0, 1000, 8⟩]) ∧
    ¬ ∃ v, v * 2 ^ 8 ≤ smallPool.start + 0 ∧ smallPool.start + 0 + 1000 ≤ (v + 1) * 2 ^ 8 := by
  constructor
  · have hmap : mapSingle smallPool swiotlbInit (2 ^ 8 - 1) 1000 =
        (.mapped 0, takeSlots smallPool swiotlbInit 0 1) := rfl
    exact ⟨_, hmap, Run.map Run.init (by decide) (by decide) (by decide) hmap⟩
  · rintro ⟨v, h1, h2⟩
    omega

end Runs

end VDLinux.Lib.Swiotlb
