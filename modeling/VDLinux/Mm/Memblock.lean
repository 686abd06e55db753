import Mathlib

namespace VDLinux.Mm.BootRegions

def maxMemblockRegions : ℕ := 128

/-- The largest `unsigned long`, which has at least 32 bits. -/
structure Ulong where
  max : ℕ
  max_ge : 2 ^ 32 ≤ max + 1

def Ulong.pred (u : Ulong) (x : ℕ) : ℕ := if x = 0 then u.max else x - 1

def add64 (a b : ℕ) : ℕ := (a + b) % 2 ^ 64

def sub64 (a b : ℕ) : ℕ := (a + (2 ^ 64 - b)) % 2 ^ 64

structure MemblockProperty where
  base : ℕ
  size : ℕ
deriving DecidableEq

/-- A table of regions: entries `0` to `maxMemblockRegions`, of which the first `cnt` count. -/
structure MemblockRegion where
  cnt : ℕ
  region : ℕ → MemblockProperty

structure Memblock where
  rmoSize : ℕ
  memory : MemblockRegion
  reserved : MemblockRegion

def addrsAdjacent (base1 size1 base2 size2 : ℕ) : ℤ :=
  if base2 = add64 base1 size1 then 1 else if base1 = add64 base2 size2 then -1 else 0

def regionsAdjacent (rgn : MemblockRegion) (r1 r2 : ℕ) : ℤ :=
  addrsAdjacent (rgn.region r1).base (rgn.region r1).size (rgn.region r2).base (rgn.region r2).size

/-- The loop of `memblock_remove_region` with the rounds left; `none` is an access behind the table. -/
def removeLoop : ℕ → ℕ → (ℕ → MemblockProperty) → Option (ℕ → MemblockProperty)
  | 0, _, region => some region
  | rounds + 1, i, region =>
    if i + 1 ≤ maxMemblockRegions then
      removeLoop rounds (i + 1) (Function.update region i (region (i + 1)))
    else none

/-- The insertion loop of `memblock_add_region`, with the number of entries still to be looked at. -/
def insertLoop (base size : ℕ) : ℕ → (ℕ → MemblockProperty) → ℕ → MemblockProperty
  | 0, region => region
  | i + 1, region =>
    if base < (region i).base then insertLoop base size i (Function.update region (i + 1) (region i))
    else Function.update region (i + 1) ⟨base, size⟩

/-- The first loop of `memblock_add_region`: the table, the index and `coalesced` behind it, or `none` if
the region is already there. -/
def coalesceLoop (base size : ℕ) (region : ℕ → MemblockProperty) :
    ℕ → ℕ → Option ((ℕ → MemblockProperty) × ℕ × ℕ)
  | 0, i => some (region, i, 0)
  | rounds + 1, i =>
    let rgnbase := (region i).base
    let rgnsize := (region i).size
    if rgnbase = base ∧ rgnsize = size then none
    else
      let adjacent := addrsAdjacent base size rgnbase rgnsize
      if adjacent > 0 then
        some (Function.update region i ⟨sub64 rgnbase size, add64 rgnsize size⟩, i, 1)
      else if adjacent < 0 then some (Function.update region i ⟨rgnbase, add64 rgnsize size⟩, i, 1)
      else coalesceLoop base size region rounds (i + 1)

def findLoop (base last : ℕ) (region : ℕ → MemblockProperty) : ℕ → ℕ → Option ℕ
  | 0, _ => none
  | rounds + 1, i =>
    if (region i).base ≤ base ∧ last ≤ add64 (region i).base (region i).size then some i
    else findLoop base last region rounds (i + 1)

section Table

variable (u : Ulong)

def memblockRemoveRegion (rgn : MemblockRegion) (r : ℕ) : Option MemblockRegion :=
  (removeLoop (u.pred rgn.cnt - r) r rgn.region).map fun region => ⟨u.pred rgn.cnt, region⟩

def memblockCoalesceRegions (rgn : MemblockRegion) (r1 r2 : ℕ) : Option MemblockRegion :=
  let joined := ⟨(rgn.region r1).base, add64 (rgn.region r1).size (rgn.region r2).size⟩
  memblockRemoveRegion u { rgn with region := Function.update rgn.region r1 joined } r2

def addBehindLoop (rgn : MemblockRegion) (base size i coalesced : ℕ) : Option (ℤ × MemblockRegion) :=
  if i < u.pred rgn.cnt ∧ regionsAdjacent rgn i (i + 1) ≠ 0 then
    (memblockCoalesceRegions u rgn i (i + 1)).map fun rgn => (coalesced + 1, rgn)
  else if coalesced ≠ 0 then some (coalesced, rgn)
  else if maxMemblockRegions ≤ rgn.cnt then some (-1, rgn)
  else
    let region := insertLoop base size rgn.cnt rgn.region
    let region := if base < (region 0).base then Function.update region 0 ⟨base, size⟩ else region
    some (0, ⟨rgn.cnt + 1, region⟩)

def memblockAddRegion (rgn : MemblockRegion) (base size : ℕ) : Option (ℤ × MemblockRegion) :=
  if rgn.cnt = 1 ∧ (rgn.region 0).size = 0 then
    some (0, { rgn with region := Function.update rgn.region 0 ⟨base, size⟩ })
  else
    match coalesceLoop base size rgn.region rgn.cnt 0 with
    | none => some (0, rgn)
    | some (region, i, coalesced) => addBehindLoop u { rgn with region } base size i coalesced

def removeFrom (rgn : MemblockRegion) (base size : ℕ) : Option (ℤ × MemblockRegion) :=
  let last := add64 base size
  match findLoop base last rgn.region rgn.cnt 0 with
  | none => some (-1, rgn)
  | some i =>
    let rgnbegin := (rgn.region i).base
    let rgnsize := (rgn.region i).size
    let rgnend := add64 rgnbegin rgnsize
    if rgnbegin = base ∧ rgnend = last then (memblockRemoveRegion u rgn i).map fun rgn => (0, rgn)
    else if rgnbegin = base then
      some (0, { rgn with region := Function.update rgn.region i ⟨last, sub64 rgnsize size⟩ })
    else if rgnend = last then
      some (0, { rgn with region := Function.update rgn.region i ⟨rgnbegin, sub64 rgnsize size⟩ })
    else
      -- the part below the hole stays in the entry, the part above it is added
      let region := Function.update rgn.region i ⟨rgnbegin, sub64 base rgnbegin⟩
      memblockAddRegion u { rgn with region } last (sub64 rgnend last)

end Table

section Calls

variable (u : Ulong) (m : Memblock)

def memblockInit : Memblock :=
  { m with
    memory := ⟨1, Function.update m.memory.region 0 ⟨0, 0⟩⟩
    reserved := ⟨1, Function.update m.reserved.region 0 ⟨0, 0⟩⟩ }

def memblockAdd (base size : ℕ) : Option (ℤ × Memblock) :=
  let rmoSize := if base = 0 then size else m.rmoSize
  (memblockAddRegion u m.memory base size).map fun (code, memory) => (code, { m with rmoSize, memory })

def memblockRemove (base size : ℕ) : Option (ℤ × Memblock) :=
  (removeFrom u m.memory base size).map fun (code, memory) => (code, { m with memory })

def memblockFree (base size : ℕ) : Option (ℤ × Memblock) :=
  (removeFrom u m.reserved base size).map fun (code, reserved) => (code, { m with reserved })

/-- The `BUG_ON` stops the machine. -/
def memblockReserve (base size : ℕ) : Option (ℤ × Memblock) :=
  if size = 0 then none
  else (memblockAddRegion u m.reserved base size).map fun (code, reserved) => (code, { m with reserved })

end Calls

end VDLinux.Mm.BootRegions
