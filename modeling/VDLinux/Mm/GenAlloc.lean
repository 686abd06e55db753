import VDLinux.Mm.CmaRegion
import VDLinux.Base.Scan

namespace VDLinux.Mm.GenAlloc

open Base CmaRegion

abbrev Bitmap := Nat → Bool

def findNextBit (map : Bitmap) (size offset : Nat) : Nat := Scan.scan map size offset

def findNextZeroBit (map : Bitmap) (size offset : Nat) : Nat :=
  Scan.scan (fun i => !map i) size offset

def bitmapSet (map : Bitmap) (start nr : Nat) : Bitmap :=
  fun i => (start ≤ i && i < start + nr) || map i

def bitmapClear (map : Bitmap) (start nr : Nat) : Bitmap :=
  fun i => !(start ≤ i && i < start + nr) && map i

/-- `again` of the source. Every round starts behind the set bit that spoilt
the last one, so `size + 1` rounds are enough. -/
def zeroAreaFrom (map : Bitmap) (size nr alignMask alignOffset : Nat) : Nat → Nat → Nat
  | 0, _ => size
  | rounds + 1, start =>
    let index := findNextZeroBit map size start
    let index := Grid.ceil (alignMask + 1) (index + alignOffset) - alignOffset
    let stop := index + nr
    if size < stop then stop
    else
      let i := findNextBit map stop index
      if i < stop then zeroAreaFrom map size nr alignMask alignOffset rounds (i + 1)
      else index

def bitmapFindNextZeroAreaOff (map : Bitmap) (size start nr alignMask alignOffset : Nat) : Nat :=
  zeroAreaFrom map size nr alignMask alignOffset (size + 1) start

structure GenPoolChunk where
  start : Nat
  size : Nat
  bits : Bitmap

structure GenPool where
  order : Nat
  chunks : List GenPoolChunk

def granules (order size : Nat) : Nat := ulong (size + 2 ^ order - 1) / 2 ^ order

def allocInChunk (c : GenPoolChunk) (size alignMask : Nat) : Option (Nat × GenPoolChunk) :=
  if c.size < size then none
  else
    let start := bitmapFindNextZeroAreaOff c.bits c.size 0 size alignMask c.start
    if c.size ≤ start then none
    else some (start, { c with bits := bitmapSet c.bits start size })

def allocInChunks (order size alignMask : Nat) : List GenPoolChunk → Option (Nat × List GenPoolChunk)
  | [] => none
  | c :: cs =>
    match allocInChunk c size alignMask with
    | some (start, c') => some (ulong ((c.start + start) * 2 ^ order), c' :: cs)
    | none => (allocInChunks order size alignMask cs).map (fun r => (r.1, c :: r.2))

def genPoolAllocAligned (pool : GenPool) (size alignmentOrder : Nat) : Nat × GenPool :=
  if size = 0 then (0, pool)
  else
    let alignMask := if pool.order < alignmentOrder then 2 ^ (alignmentOrder - pool.order) - 1 else 0
    match allocInChunks pool.order (granules pool.order size) alignMask pool.chunks with
    | some (addr, chunks) => (addr, { pool with chunks })
    | none => (0, pool)

def freeInChunks (addr size : Nat) : List GenPoolChunk → Option (List GenPoolChunk)
  | [] => none
  | c :: cs =>
    if c.start ≤ addr ∧ addr + size ≤ c.start + c.size then
      some ({ c with bits := bitmapClear c.bits (addr - c.start) size } :: cs)
    else (freeInChunks addr size cs).map (c :: ·)

/-- `none` is a `BUG_ON`: the address belongs to no chunk of the pool. -/
def genPoolFree (pool : GenPool) (addr size : Nat) : Option GenPool :=
  if size = 0 then some pool
  else
    let addr := addr / 2 ^ pool.order
    let size := granules pool.order size
    if ulong (addr + size) < addr then none
    else (freeInChunks addr size pool.chunks).map (fun chunks => { pool with chunks })

def genPoolCreate (order : Nat) : Option GenPool :=
  if 32 ≤ order then none else some ⟨order, []⟩

def genPoolAdd (pool : GenPool) (addr size : Nat) : Option GenPool :=
  if addr = 0 ∨ ulong (addr + size) < addr ∨ addr % 2 ^ pool.order ≠ 0 then none
  else
    let size := size / 2 ^ pool.order
    if size = 0 then none
    else some { pool with chunks := ⟨addr / 2 ^ pool.order, size, fun _ => false⟩ :: pool.chunks }

variable (map : Bitmap)

variable (size nr alignMask alignOffset rounds start : Nat)

/-- Whatever the search returns below the size of the map is the start of an
area of clear bits that ends inside the map. -/
theorem zeroAreaFrom_clear
    (h : zeroAreaFrom map size nr alignMask alignOffset rounds start < size) :
    zeroAreaFrom map size nr alignMask alignOffset rounds start + nr ≤ size ∧
    ∀ j, zeroAreaFrom map size nr alignMask alignOffset rounds start ≤ j →
      j < zeroAreaFrom map size nr alignMask alignOffset rounds start + nr → map j = false := by
  fun_induction zeroAreaFrom map size nr alignMask alignOffset rounds start with
  | case1 => omega
  | case2 => omega
  | case3 rounds start index₀ index stop hstop i hi ih => exact ih h
  | case4 rounds start index₀ index stop hstop i hi =>
    refine ⟨Nat.le_of_not_lt hstop, fun j hj hj' => ?_⟩
    exact Scan.scan_miss hj (lt_of_lt_of_le hj' (Nat.le_of_not_lt hi))

@[simp] theorem bitmapSet_apply (start nr i : Nat) :
    bitmapSet map start nr i = true ↔ (start ≤ i ∧ i < start + nr) ∨ map i = true := by
  simp [bitmapSet]

@[simp] theorem bitmapClear_apply (start nr i : Nat) :
    bitmapClear map start nr i = true ↔ ¬ (start ≤ i ∧ i < start + nr) ∧ map i = true := by
  simp only [bitmapClear, Bool.and_eq_true, Bool.not_eq_true', decide_eq_true_eq,
    ← Bool.not_eq_true]

theorem bitmapClear_bitmapSet (start nr : Nat)
    (h : ∀ j, start ≤ j → j < start + nr → map j = false) :
    bitmapClear (bitmapSet map start nr) start nr = map := by
  funext i
  rw [Bool.eq_iff_iff, bitmapClear_apply, bitmapSet_apply]
  constructor
  · rintro ⟨hn, hi | hi⟩
    · exact absurd hi hn
    · exact hi
  · intro hi
    refine ⟨fun hin => ?_, .inr hi⟩
    rw [h i hin.1 hin.2] at hi
    cases hi

theorem allocInChunk_cases (c : GenPoolChunk) (n mask : Nat) : allocInChunk c n mask = none ∨
    ∃ i, i < c.size ∧ i + n ≤ c.size ∧ (∀ j, i ≤ j → j < i + n → c.bits j = false) ∧
      allocInChunk c n mask = some (i, ⟨c.start, c.size, bitmapSet c.bits i n⟩) := by
  unfold allocInChunk
  by_cases hn : c.size < n
  · exact .inl (if_pos hn)
  · rw [if_neg hn]
    by_cases hs : c.size ≤ bitmapFindNextZeroAreaOff c.bits c.size 0 n mask c.start
    · exact .inl (if_pos hs)
    · rw [if_neg hs]
      have hlt := Nat.lt_of_not_le hs
      have hc := zeroAreaFrom_clear c.bits c.size n mask c.start (c.size + 1) 0 hlt
      exact .inr ⟨_, hlt, hc.1, hc.2, rfl⟩

/-- On a pool with one chunk an allocation either fails and leaves the pool
alone, or hands out a run of clear bits and sets exactly these. -/
theorem genPoolAllocAligned_cases (pool : GenPool) (c : GenPoolChunk) (size order : Nat)
    (hp : pool.chunks = [c]) :
    genPoolAllocAligned pool size order = (0, pool) ∨
    size ≠ 0 ∧ ∃ i, i < c.size ∧ i + granules pool.order size ≤ c.size ∧
      (∀ j, i ≤ j → j < i + granules pool.order size → c.bits j = false) ∧
      genPoolAllocAligned pool size order = (ulong ((c.start + i) * 2 ^ pool.order),
        ⟨pool.order, [⟨c.start, c.size, bitmapSet c.bits i (granules pool.order size)⟩]⟩) := by
  unfold genPoolAllocAligned
  by_cases hz : size = 0
  · exact .inl (if_pos hz)
  · rw [if_neg hz, hp]
    generalize (if pool.order < order then 2 ^ (order - pool.order) - 1 else 0) = mask
    rcases allocInChunk_cases c (granules pool.order size) mask with h | ⟨i, hi, hn, hc, h⟩
    · simp only [allocInChunks, h, Option.map_none]
      exact .inl trivial
    · simp only [allocInChunks, h]
      exact .inr ⟨hz, i, hi, hn, hc, rfl⟩

theorem genPoolFree_chunk (pool : GenPool) (c : GenPoolChunk) (addr size : Nat)
    (hp : pool.chunks = [c]) (hz : size ≠ 0)
    (hw : ulong (addr / 2 ^ pool.order + granules pool.order size) =
      addr / 2 ^ pool.order + granules pool.order size)
    (hlo : c.start ≤ addr / 2 ^ pool.order)
    (hhi : addr / 2 ^ pool.order + granules pool.order size ≤ c.start + c.size) :
    genPoolFree pool addr size = some ⟨pool.order, [⟨c.start, c.size,
      bitmapClear c.bits (addr / 2 ^ pool.order - c.start) (granules pool.order size)⟩]⟩ := by
  unfold genPoolFree
  rw [if_neg hz]
  dsimp only
  rw [hw, if_neg (by omega), hp]
  simp only [freeInChunks, hlo, hhi, and_self, if_true, Option.map_some]

end VDLinux.Mm.GenAlloc
