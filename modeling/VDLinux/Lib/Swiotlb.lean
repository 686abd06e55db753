import VDLinux.Base.FreeRuns

namespace VDLinux.Lib.Swiotlb

open Base.FreeRuns Function

def ioTlbSegsize : ℕ := 128

def ioTlbShift : ℕ := 11

/-- What is fixed at boot: the number of slots, which `ALIGN` has made whole segments, the bus address of
`io_tlb_start`, and the word and page size. -/
structure Pool where
  nslabs : ℕ
  start : ℕ
  bitsPerLong : ℕ
  pageShift : ℕ
  nslabs_pos : 0 < nslabs
  nslabs_dvd : ioTlbSegsize ∣ nslabs
  start_dvd : 2 ^ ioTlbShift ∣ start
  bits_ge : 32 ≤ bitsPerLong
  pageShift_ge : ioTlbShift ≤ pageShift

structure IoTlb where
  ioTlbList : ℕ → ℕ
  ioTlbIndex : ℕ

/-- `ALIGN`; `y & ~m` is `y - (y & m)`. -/
def align (x a : ℕ) : ℕ := x + (a - 1) - ((x + (a - 1)) &&& (a - 1))

def offset (val align : ℕ) : ℕ := val &&& (align - 1)

def isPowerOf2 (n : ℕ) : Prop := n ≠ 0 ∧ n &&& (n - 1) = 0

instance (n : ℕ) : Decidable (isPowerOf2 n) := inferInstanceAs (Decidable (_ ∧ _))

/-- `iommu_is_span_boundary` behind its check of `boundary_size`. -/
def isSpanBoundary (index nr shift boundarySize : ℕ) : Prop :=
  offset (shift + index) boundarySize + nr > boundarySize

instance (index nr shift boundarySize : ℕ) : Decidable (isSpanBoundary index nr shift boundarySize) :=
  inferInstanceAs (Decidable (_ > _))

def swiotlbInit : IoTlb := ⟨fun i => ioTlbSegsize - offset i ioTlbSegsize, 0⟩

def slotsOf (size : ℕ) : ℕ := align size (1 <<< ioTlbShift) >>> ioTlbShift

/-- The walk down from the slot below `k` that numbers the free slots. Below slot 0 stands `-1`, whose
`OFFSET` is that of the end of a segment. -/
def mergeLoop : ℕ → (ℕ → ℕ) → ℕ → ℕ → ℕ
  | 0, list, _ => list
  | i + 1, list, count =>
    if offset i ioTlbSegsize ≠ ioTlbSegsize - 1 ∧ list i ≠ 0 then
      mergeLoop i (Function.update list i (count + 1)) (count + 1)
    else list

def clearLoop : ℕ → ℕ → (ℕ → ℕ) → ℕ → ℕ
  | 0, _, list => list
  | rounds + 1, i, list => clearLoop rounds (i + 1) (Function.update list i 0)

/-- The first loop of the return of `nslots` slots, from the last one down. -/
def returnLoop (index : ℕ) : ℕ → (ℕ → ℕ) → ℕ → (ℕ → ℕ) × ℕ
  | 0, list, count => (list, count)
  | n + 1, list, count => returnLoop index n (Function.update list (index + n) (count + 1)) (count + 1)

inductive Search where
  | slot (index : ℕ)
  | notFound
  | spins

section Search

variable (pool : Pool) (stride wrap : ℕ)

def Pool.advance (index : ℕ) : ℕ := if index + stride ≥ pool.nslabs then 0 else index + stride

/-- The inner loop of the search; `spins` is the fuel used up. -/
def spanLoop (spans : ℕ → Bool) : ℕ → ℕ → Search
  | 0, _ => .spins
  | fuel + 1, index =>
    if spans index then
      if pool.advance stride index = wrap then .notFound
      else spanLoop spans fuel (pool.advance stride index)
    else .slot index

def searchLoop (spans : ℕ → Bool) (list : ℕ → ℕ) (nslots : ℕ) : ℕ → ℕ → Search
  | 0, _ => .spins
  | fuel + 1, index =>
    match spanLoop pool stride wrap spans pool.nslabs index with
    | .slot index =>
      if list index ≥ nslots then .slot index
      else if pool.advance stride index = wrap then .notFound
      else searchLoop spans list nslots fuel (pool.advance stride index)
    | r => r

end Search

inductive MapResult where
  | mapped (index : ℕ)
  | null
  | bug
  | spins

section Calls

variable (pool : Pool) (s : IoTlb)

def Pool.offsetSlots (mask : ℕ) : ℕ := align (pool.start &&& mask) (1 <<< ioTlbShift) >>> ioTlbShift

/-- `mask + 1` is an `unsigned long`. -/
def Pool.maxSlots (mask : ℕ) : ℕ :=
  let next := (mask + 1) % 2 ^ pool.bitsPerLong
  if next ≠ 0 then align next (1 <<< ioTlbShift) >>> ioTlbShift
  else 1 <<< (pool.bitsPerLong - ioTlbShift)

def Pool.strideOf (size : ℕ) : ℕ :=
  if size > 2 ^ pool.pageShift then 1 <<< (pool.pageShift - ioTlbShift) else 1

def takeSlots (index nslots : ℕ) : IoTlb :=
  let list := clearLoop nslots index s.ioTlbList
  let list := mergeLoop index list 0
  ⟨list, if index + nslots < pool.nslabs then index + nslots else 0⟩

/-- `map_single` up to the copying of the data, for the boundary mask of the device. -/
def mapSingle (mask size : ℕ) : MapResult × IoTlb :=
  let nslots := slotsOf size
  let stride := pool.strideOf size
  if nslots = 0 then (.bug, s)
  else if ¬ isPowerOf2 (pool.maxSlots mask) then (.bug, s)
  else
    let index := align s.ioTlbIndex stride
    let wrap := if index ≥ pool.nslabs then 0 else index
    let spans := fun index => isSpanBoundary index nslots (pool.offsetSlots mask) (pool.maxSlots mask)
    match searchLoop pool stride wrap (fun i => spans i) s.ioTlbList nslots pool.nslabs wrap with
    | .slot index => (.mapped index, takeSlots pool s index nslots)
    | .notFound => (.null, s)
    | .spins => (.spins, s)

/-- `do_unmap_single` of the buffer at slot `index`, behind the copying of the data. -/
def doUnmapSingle (index size : ℕ) : IoTlb :=
  let nslots := slotsOf size
  let count := if index + nslots < align (index + 1) ioTlbSegsize then s.ioTlbList (index + nslots) else 0
  let (list, count) := returnLoop index nslots s.ioTlbList count
  { s with ioTlbList := mergeLoop index list count }

end Calls

theorem offset_eq (i : ℕ) : offset i ioTlbSegsize = i % ioTlbSegsize :=
  Nat.and_two_pow_sub_one_eq_mod i 7

theorem align_eq (x j : ℕ) : align x (2 ^ j) = (x + (2 ^ j - 1)) / 2 ^ j * 2 ^ j := by
  rw [align, Nat.and_two_pow_sub_one_eq_mod]
  have h := Nat.div_add_mod (x + (2 ^ j - 1)) (2 ^ j)
  rw [Nat.mul_comm] at h
  omega

theorem align_div (x : ℕ) : align x (1 <<< ioTlbShift) >>> ioTlbShift = (x + 2047) / 2048 := by
  rw [ioTlbShift, Nat.one_shiftLeft, align_eq, Nat.shiftRight_eq_div_pow,
    Nat.mul_div_cancel _ (Nat.two_pow_pos 11)]
  rfl

theorem slotsOf_eq (size : ℕ) : slotsOf size = (size + 2047) / 2048 := align_div size

theorem clearLoop_eq (n i : ℕ) (list : ℕ → ℕ) (j : ℕ) :
    clearLoop n i list j = if i ≤ j ∧ j < i + n then 0 else list j := by
  induction n generalizing i list with
  | zero => rw [clearLoop, if_neg (by omega)]
  | succ n ih =>
    rw [clearLoop, ih, update_apply]
    split_ifs <;> first | rfl | omega

theorem returnLoop_eq (index n : ℕ) (list : ℕ → ℕ) (count : ℕ) :
    (∀ j, (returnLoop index n list count).1 j =
      if index ≤ j ∧ j < index + n then count + (index + n - j) else list j) ∧
      (returnLoop index n list count).2 = count + n := by
  induction n generalizing list count with
  | zero => exact ⟨fun j => (if_neg (by omega)).symm, rfl⟩
  | succ n ih =>
    obtain ⟨hlist, hcount⟩ := ih (update list (index + n) (count + 1)) (count + 1)
    rw [returnLoop]
    refine ⟨fun j => ?_, by omega⟩
    rw [hlist, update_apply]
    split_ifs <;> omega

variable {used : ℕ → Prop} {list : ℕ → ℕ}

/-- The walk down repairs the entries below `k`. Its invariant: the entries that do not depend on the one at
`k` are right, and the zero entries are those of the used slots. -/
theorem mergeLoop_counts {k count : ℕ}
    (hbelow : ∀ i < k, i + 1 < k ∨ k % ioTlbSegsize = 0 → Counts ioTlbSegsize used list i)
    (hzero : ∀ i < k, list i = 0 ↔ used i) (hcount : k % ioTlbSegsize ≠ 0 → list k = count) :
    (∀ i < k, Counts ioTlbSegsize used (mergeLoop k list count) i) ∧
      ∀ j ≥ k, mergeLoop k list count j = list j := by
  induction k generalizing list count with
  | zero => exact ⟨fun i hi => absurd hi (Nat.not_lt_zero i), fun _ _ => rfl⟩
  | succ k ih =>
    have hoff : offset k ioTlbSegsize ≠ ioTlbSegsize - 1 ↔ (k + 1) % ioTlbSegsize ≠ 0 := by
      rw [offset_eq, ioTlbSegsize]
      omega
    rw [mergeLoop]
    split_ifs with hgo
    · have hmid := hoff.mp hgo.1
      have hfree : ¬ used k := fun h => hgo.2 ((hzero k (Nat.lt_succ_self k)).mpr h)
      have hsame : ∀ i < k, update list k (count + 1) i = list i :=
        fun i hi => update_of_ne (by omega) _ _
      obtain ⟨hcounts, habove⟩ := @ih (update list k (count + 1)) (count + 1) (by
          intro i hi hor
          refine (hbelow i (by omega) (Or.inl (by omega))).congr Iff.rfl (hsame i hi) fun hlast => ?_
          rcases hor with hlt | heq
          · exact hsame (i + 1) hlt
          · rcases Nat.eq_or_lt_of_le (Nat.succ_le_of_lt hi) with rfl | h
            · exact absurd heq hlast
            · exact hsame (i + 1) h)
        (fun i hi => by rw [hsame i hi]; exact hzero i (by omega))
        (fun _ => update_self ..)
      refine ⟨fun i hi => ?_, fun j hj => ?_⟩
      · rcases Nat.lt_succ_iff_lt_or_eq.mp hi with hlt | rfl
        · exact hcounts i hlt
        · refine ⟨fun h => absurd h hfree, fun _ h => absurd h hmid, fun _ _ => ?_⟩
          rw [habove i le_rfl, habove (i + 1) (by omega), update_self,
            update_of_ne (by omega), hcount hmid]
      · rw [habove j (by omega), update_of_ne (by omega)]
    · refine ⟨fun i hi => ?_, fun _ _ => rfl⟩
      by_cases hlast : (k + 1) % ioTlbSegsize = 0
      · exact hbelow i hi (Or.inr hlast)
      rcases Nat.lt_succ_iff_lt_or_eq.mp hi with hlt | rfl
      · exact hbelow i hi (Or.inl (by omega))
      · -- the walk stops at a used slot
        have h0 : list i = 0 := by
          by_contra hne
          exact hgo ⟨hoff.mpr hlast, hne⟩
        have hu := (hzero i hi).mp h0
        exact ⟨fun _ => h0, fun h => absurd hu h, fun h => absurd hu h⟩

variable {pool : Pool} {s : IoTlb}

/-- Every entry is the length of the run of free slots that begins there. -/
def Consistent (pool : Pool) (list : ℕ → ℕ) (used : ℕ → Prop) : Prop :=
  ∀ i < pool.nslabs, Counts ioTlbSegsize used list i

def InRange (index n i : ℕ) : Prop := index ≤ i ∧ i < index + n

theorem swiotlbInit_consistent (pool : Pool) : Consistent pool swiotlbInit.ioTlbList fun _ => False := by
  have hat : ∀ i, swiotlbInit.ioTlbList i = 128 - i % 128 := by
    intro i
    exact congrArg (ioTlbSegsize - ·) (offset_eq i)
  intro i _
  refine ⟨fun h => h.elim, fun _ hl => ?_, fun _ hl => ?_⟩
  · rw [ioTlbSegsize] at hl
    rw [hat]
    omega
  · rw [ioTlbSegsize] at hl
    rw [hat, hat]
    omega

theorem mergeLoop_consistent (h : Consistent pool list used) {used' : ℕ → Prop} {list' : ℕ → ℕ}
    {index n count : ℕ} (hn : 0 < n) (hin : index + n ≤ pool.nslabs)
    (hout : ∀ i, ¬ InRange index n i → list' i = list i)
    (hused : ∀ i, ¬ InRange index n i → (used' i ↔ used i))
    (hrange : ∀ i, InRange index n i → Counts ioTlbSegsize used' list' i) (hcount : list' index = count) :
    Consistent pool (mergeLoop index list' count) used' := by
  have hlow : ∀ i < index, ¬ InRange index n i := fun i hi h => absurd h.1 (by omega)
  obtain ⟨hcounts, habove⟩ := @mergeLoop_counts used' list' index count (by
      intro i hi hor
      refine (h i (by omega)).congr (hused i (hlow i hi)) (hout i (hlow i hi)) fun hlast => ?_
      apply hout
      intro hr
      have hnext : i + 1 = index := by
        have := hr.1
        omega
      rcases hor with hlt | heq
      · omega
      · exact hlast (hnext ▸ heq))
    (fun i hi => by
      rw [hout i (hlow i hi), hused i (hlow i hi)]
      exact (h i (by omega)).eq_zero_iff)
    (fun _ => hcount)
  intro i hi
  by_cases hlt : i < index
  · exact hcounts i hlt
  by_cases hr : InRange index n i
  · exact (hrange i hr).congr Iff.rfl (habove i (by omega)) fun _ => habove (i + 1) (by omega)
  · have hend : index + n ≤ i := by
      by_contra hno
      exact hr ⟨by omega, by omega⟩
    refine (h i hi).congr (hused i hr) ?_ fun _ => ?_
    · rw [habove i (by omega), hout i hr]
    · rw [habove (i + 1) (by omega), hout (i + 1) fun h => absurd h.2 (by omega)]

theorem takeSlots_consistent (h : Consistent pool s.ioTlbList used) {index n : ℕ} (hn : 0 < n)
    (hin : index + n ≤ pool.nslabs) :
    Consistent pool (takeSlots pool s index n).ioTlbList fun i => used i ∨ InRange index n i := by
  have hzero : ∀ i, InRange index n i → clearLoop n index s.ioTlbList i = 0 :=
    fun i hi => (clearLoop_eq n index s.ioTlbList i).trans (if_pos hi)
  exact mergeLoop_consistent h hn hin
    (fun i hi => (clearLoop_eq n index s.ioTlbList i).trans (if_neg hi))
    (fun i hi => or_iff_left hi)
    (fun i hi => ⟨fun _ => hzero i hi, fun hu => absurd (Or.inr hi) hu, fun hu => absurd (Or.inr hi) hu⟩)
    (hzero index ⟨le_rfl, by omega⟩)

theorem doUnmapSingle_consistent (h : Consistent pool s.ioTlbList used) {index size : ℕ}
    (hn : 0 < slotsOf size) (hin : index + slotsOf size ≤ pool.nslabs)
    (hseg : index % ioTlbSegsize + slotsOf size ≤ ioTlbSegsize) :
    Consistent pool (doUnmapSingle s index size).ioTlbList
      fun i => used i ∧ ¬ InRange index (slotsOf size) i := by
  have halign : align (index + 1) ioTlbSegsize = (index / 128 + 1) * 128 := by
    rw [show ioTlbSegsize = 2 ^ 7 from rfl, align_eq]
    omega
  rw [ioTlbSegsize] at hseg
  generalize hcnt : (if index + slotsOf size < align (index + 1) ioTlbSegsize then
    s.ioTlbList (index + slotsOf size) else 0) = count
  generalize hslots : slotsOf size = n at *
  -- what the count starts from: the free slots behind the range, up to the end of the segment
  have hcount : (index + n) % 128 ≠ 0 → count = s.ioTlbList (index + n) := by
    intro hmid
    rw [← hcnt, halign, if_pos (by omega)]
  have hcount0 : (index + n) % 128 = 0 → count = 0 := by
    intro hend
    rw [← hcnt, halign, if_neg (by omega)]
  obtain ⟨hlist, hsum⟩ := returnLoop_eq index n s.ioTlbList count
  have hinr : ∀ i, InRange index n i →
      (returnLoop index n s.ioTlbList count).1 i = count + (index + n - i) :=
    fun i hi => (hlist i).trans (if_pos hi)
  have hat : (doUnmapSingle s index size).ioTlbList =
      mergeLoop index (returnLoop index n s.ioTlbList count).1 (count + n) := by
    simp only [doUnmapSingle, hslots, hcnt, hsum]
  rw [hat]
  refine mergeLoop_consistent h hn hin (fun i hi => (hlist i).trans (if_neg hi))
    (fun i hi => and_iff_left hi) ?_ (by rw [hinr index ⟨le_rfl, by omega⟩]; omega)
  intro i hr
  have hfree : ¬ (used i ∧ ¬ InRange index n i) := fun h => h.2 hr
  obtain ⟨hlo, hhi⟩ := hr
  refine ⟨fun h => absurd h hfree, fun _ hlast => ?_, fun _ hlast => ?_⟩
  · rw [ioTlbSegsize] at hlast
    rw [hinr i ⟨hlo, hhi⟩, hcount0 (by omega)]
    omega
  · rw [ioTlbSegsize] at hlast
    rw [hinr i ⟨hlo, hhi⟩]
    by_cases hend : i + 1 = index + n
    · rw [hend, hlist (index + n), if_neg (by omega), ← hcount (by omega)]
      omega
    · rw [hinr (i + 1) ⟨by omega, by omega⟩]
      omega

end VDLinux.Lib.Swiotlb
