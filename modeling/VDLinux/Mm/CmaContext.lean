import VDLinux.Mm.GenAlloc
import VDLinux.Base.Packing
import VDLinux.Base.SearchTree

namespace VDLinux.Mm.CmaContext

open Base CmaRegion GenAlloc
open Base.SearchTree Base.Packing

structure Cm where
  phys : Nat
  size : Nat
deriving DecidableEq, Repr

structure Cma where
  migratetype : Int
  pool : GenPool
  region : Region
  rbroot : RbTree Cm
  chunks : Nat

def enomem : Int := -12
def eagain : Int := -11
def ebusy : Int := -16

def usub (a b : Nat) : Nat := ulong (a + 2 ^ 32 - b)

def ffs (x : Nat) : Nat := (((List.range 32).find? x.testBit).map (· + 1)).getD 0

variable (ops : Balance Cm)

/-- `none` is the `BUG_ON` on a second chunk at the same address. -/
def cmaRbInsert (cma : Cma) (cm : Cm) : Option Cma :=
  (cma.rbroot.link Cm.phys cm).map (fun t => { cma with rbroot := ops.insertColor cm t })

def cmaRbRemove (cma : Cma) (cm : Cm) : Cma := { cma with rbroot := ops.erase cm cma.rbroot }

/-- What the calls out of `cm_alloc` answer: `kmalloc`, the check of the
migration watermark (never positive when it is configured out),
`alloc_contig_range`, and whether the caller passed `failed_pages`. -/
structure AllocEnv where
  kmalloc : Bool
  migration : Int
  contig : Int
  failedPages : Bool

def cmAllocPages (cma : Cma) (env : AllocEnv) : Int :=
  if cma.migratetype = 0 then 0
  else if 0 < env.migration then (if env.failedPages then enomem else ebusy)
  else if env.contig ≠ 0 then (if env.failedPages && 0 < env.contig then eagain else ebusy)
  else 0

def cmAlloc (cma : Cma) (size alignment : Nat) (env : AllocEnv) : Option (Except Int Cm × Cma) :=
  if size = 0 ∨ alignment &&& (alignment - 1) ≠ 0 then some (.error einval, cma)
  else
    let size := pageAlign size
    if !env.kmalloc then some (.error enomem, cma)
    else
      let order := if alignment = 0 then 0 else ffs alignment - 1
      let (start, pool) := genPoolAllocAligned cma.pool size order
      if start = 0 then some (.error enomem, { cma with pool })
      else
        let ret := cmAllocPages cma env
        if ret ≠ 0 then
          (genPoolFree pool start size).map (fun pool => (.error ret, { cma with pool }))
        else
          let cm : Cm := ⟨start, size⟩
          let region := { cma.region with free := usub cma.region.free size }
          (cmaRbInsert ops { cma with pool, region, chunks := ulong (cma.chunks + 1) } cm).map
            (fun cma => (.ok cm, cma))

/-- `busy` is the outcome of the test of the pin and map counters. -/
def cmFree (cma : Cma) (cm : Cm) (busy : Bool) : Option Cma :=
  if busy then some cma
  else
    let region := { cma.region with free := ulong (cma.region.free + cm.size) }
    let cma := cmaRbRemove ops { cma with region, chunks := usub cma.chunks 1 } cm
    (genPoolFree cma.pool cm.phys cm.size).map (fun pool => { cma with pool })

/-- `cma_create`, with the region the caller attaches to the new context. -/
def cmaCreate (start size minAlignment : Nat) (migratetype : Int) : Option Cma :=
  if size = 0 ∨ minAlignment &&& (minAlignment - 1) ≠ 0 then none
  else
    let minAlignment := max minAlignment pageSize
    if (start ||| size) &&& (minAlignment - 1) ≠ 0 then none
    else if ulong (start + size) < start then none
    else
      (genPoolCreate (ffs minAlignment - 1)).bind fun pool =>
        (genPoolAdd pool start size).map fun pool =>
          ⟨migratetype, pool, ⟨start, size, size⟩, .nil, 0⟩

/-- The array of chunks in address order. The outer `none` is the `BUG_ON` on
more nodes than the counter says, the inner one a null pointer. -/
def cmaRbGetList (cma : Cma) (kmalloc : Bool) : Option (Option (List Cm)) :=
  if cma.chunks = 0 then some none
  else if !kmalloc then some none
  else if cma.chunks < cma.rbroot.inorder.length then none
  else some (some cma.rbroot.inorder)

def largestFrom (stop : Nat) (prev : Cm) (largest : Nat) : List Cm → Nat
  | [] => max largest (usub (usub stop prev.phys) prev.size)
  | c :: cs => largestFrom stop c (max largest (usub (usub c.phys prev.phys) prev.size)) cs

def cmaGetLargest (cma : Cma) (kmalloc : Bool) : Option Nat :=
  (cmaRbGetList cma kmalloc).map fun cm =>
    match cm with
    | none => cma.region.size
    | some [] => cma.region.size
    | some (c :: cs) =>
      largestFrom (ulong (cma.region.start + cma.region.size)) c (usub c.phys cma.region.start) cs

end VDLinux.Mm.CmaContext
