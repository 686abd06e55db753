import Mathlib

namespace VDLinux.Fs.Mballoc

/-- What does not change of a `struct ext4_buddy`: block sizes go from 1 KiB to 64 KiB. -/
structure Ext4Buddy where
  blkbits : ℕ
  group : ℕ
  blkbits_ge : 10 ≤ blkbits
  blkbits_le : blkbits ≤ 16

/-- The part of `struct ext4_prealloc_space` the checks look at, as a group and blocks of it. -/
structure Prealloc where
  group : ℕ
  start : ℕ
  len : ℕ

/-- The two blocks of bits and the counters of a group. A bit that is set stands for used. -/
structure GroupInfo where
  bitmap : ℕ → Bool
  buddy : ℕ → Bool
  bbCounters : ℕ → ℤ
  bbFree : ℤ
  bbFragments : ℤ
  bbFirstFree : ℕ
  bbLargestFreeOrder : ℤ
  needInit : Bool
  preallocList : List Prealloc

inductive Area
  | bitmap
  | buddy
deriving DecidableEq

structure Addr where
  area : Area
  byte : ℕ
deriving DecidableEq

inductive Fault
  | bug
  | nullPointer
  | outOfFuel
deriving DecidableEq

def GroupInfo.area (grp : GroupInfo) : Area → ℕ → Bool
  | .bitmap => grp.bitmap
  | .buddy => grp.buddy

def GroupInfo.setArea (grp : GroupInfo) (area : Area) (bits : ℕ → Bool) : GroupInfo :=
  match area with
  | .bitmap => { grp with bitmap := bits }
  | .buddy => { grp with buddy := bits }

def mbTestBit (grp : GroupInfo) (bit : ℕ) (addr : Addr) : Bool := grp.area addr.area (8 * addr.byte + bit)

def mbSetBit (grp : GroupInfo) (bit : ℕ) (addr : Addr) : GroupInfo :=
  grp.setArea addr.area (Function.update (grp.area addr.area) (8 * addr.byte + bit) true)

def mbClearBit (grp : GroupInfo) (bit : ℕ) (addr : Addr) : GroupInfo :=
  grp.setArea addr.area (Function.update (grp.area addr.area) (8 * addr.byte + bit) false)

def GroupInfo.count (grp : GroupInfo) (order : ℕ) (d : ℤ) : GroupInfo :=
  { grp with bbCounters := Function.update grp.bbCounters order (grp.bbCounters order + d) }

/-- The variable `offset` of `ext4_mb_init` when the order is reached. -/
def initOffset (blkbits : ℕ) : ℕ → ℕ
  | 0 | 1 => 0
  | order + 2 => initOffset blkbits (order + 1) + 1 <<< (blkbits - (order + 1))

/-- `s_mb_offsets[]`, an array of `unsigned short`. -/
def sMbOffsets (blkbits order : ℕ) : ℕ := initOffset blkbits order % 2 ^ 16

def sMbMaxs (blkbits : ℕ) : ℕ → ℕ
  | 0 => 1 <<< blkbits <<< 3
  | order + 1 => 1 <<< blkbits <<< 2 >>> order

def bitmapAddr : Addr := ⟨.bitmap, 0⟩

def mbFindBuddy (e4b : Ext4Buddy) (order : ℕ) : Option (Addr × ℕ) :=
  if e4b.blkbits + 1 < order then none
  else if order = 0 then some (bitmapAddr, 1 <<< (e4b.blkbits + 3))
  else some (⟨.buddy, sMbOffsets e4b.blkbits order⟩, sMbMaxs e4b.blkbits order)

/-- The loop of `mb_find_order_for_block`, with the rounds that are left. -/
def findOrderLoop (blkbits : ℕ) (grp : GroupInfo) : ℕ → ℕ → ℕ → ℕ → ℕ
  | 0, _, _, _ => 0
  | rounds + 1, order, block, byte =>
    let block := block >>> 1
    if mbTestBit grp block ⟨.buddy, byte⟩ = false then order
    else findOrderLoop blkbits grp rounds (order + 1) block (byte + 1 <<< (blkbits - order))

def mbFindOrderForBlock (e4b : Ext4Buddy) (grp : GroupInfo) (block : ℕ) : Except Fault ℕ :=
  if 1 <<< (e4b.blkbits + 3) ≤ block then .error .bug
  else .ok (findOrderLoop e4b.blkbits grp (e4b.blkbits + 1) 1 block 0)

/-- The loop of `mb_set_bits` up to the bit `stop`, 32 bits at once where it can. -/
def setBits (bm : ℕ → Bool) (cur stop : ℕ) : ℕ → Bool :=
  if cur < stop then
    if cur % 32 = 0 ∧ 32 ≤ stop - cur then
      setBits (fun x => if cur ≤ x ∧ x < cur + 32 then true else bm x) (cur + 32) stop
    else setBits (Function.update bm cur true) (cur + 1) stop
  else bm
termination_by stop - cur

def mbSetBits (bm : ℕ → Bool) (cur len : ℕ) : ℕ → Bool := setBits bm cur (cur + len)

/-- The loop of `mb_set_largest_free_order` from the order `rounds - 1` down. -/
def largestLoop (counters : ℕ → ℤ) : ℕ → ℤ
  | 0 => -1
  | rounds + 1 => if 0 < counters rounds then rounds else largestLoop counters rounds

def mbSetLargestFreeOrder (e4b : Ext4Buddy) (grp : GroupInfo) : GroupInfo :=
  { grp with bbLargestFreeOrder := largestLoop grp.bbCounters (e4b.blkbits + 2) }

/-- `mb_find_buddy` where the result is used without a test. -/
def theBuddy (e4b : Ext4Buddy) (order : ℕ) : Except Fault (Addr × ℕ) :=
  match mbFindBuddy e4b order with
  | none => .error .nullPointer
  | some r => .ok r

section Free

/-- The merging loop of `mb_free_blocks` for one block. -/
def coalesce (e4b : Ext4Buddy) : ℕ → GroupInfo → ℕ → ℕ → Addr → Except Fault GroupInfo
  | 0, _, _, _, _ => .error .outOfFuel
  | fuel + 1, grp, order, block, buddy =>
    let block := block >>> 1 <<< 1
    if mbTestBit grp block buddy || mbTestBit grp (block + 1) buddy then .ok grp
    else match mbFindBuddy e4b (order + 1) with
      | none => .ok grp
      | some (buddy2, _) =>
        -- the bits of free blocks in the bitmap stay
        let grp := if 0 < order then mbSetBit (mbSetBit grp block buddy) (block + 1) buddy else grp
        let grp := ((grp.count order (-1)).count order (-1)).count (order + 1) 1
        coalesce e4b fuel (mbClearBit grp (block >>> 1) buddy2) (order + 1) (block >>> 1) buddy2

def freeLoop (e4b : Ext4Buddy) : ℕ → GroupInfo → ℕ → Except Fault GroupInfo
  | 0, grp, _ => .ok grp
  | count + 1, grp, first => do
    let grp := (mbClearBit grp first bitmapAddr).count 0 1
    let (buddy, _) ← theBuddy e4b 0
    let grp ← coalesce e4b (e4b.blkbits + 2) grp 0 first buddy
    freeLoop e4b count grp (first + 1)

def mbFreeBlocks (e4b : Ext4Buddy) (grp : GroupInfo) (first count : ℕ) : Except Fault GroupInfo :=
  if 1 <<< e4b.blkbits <<< 3 < first + count then .error .bug
  else do
    let block := first ≠ 0 && !mbTestBit grp (first - 1) bitmapAddr
    let max := first + count < sMbMaxs e4b.blkbits 0 && !mbTestBit grp (first + count) bitmapAddr
    let grp := { grp with
      bbFree := grp.bbFree + count
      bbFirstFree := if first < grp.bbFirstFree then first else grp.bbFirstFree
      bbFragments := if block && max then grp.bbFragments - 1
        else if !block && !max then grp.bbFragments + 1 else grp.bbFragments }
    let grp ← freeLoop e4b count grp first
    .ok (mbSetLargestFreeOrder e4b grp)

end Free

structure FreeExtent where
  feStart : ℤ
  feGroup : ℕ
  feLen : ℤ
deriving DecidableEq

section Find

def extendLoop (e4b : Ext4Buddy) (grp : GroupInfo) (needed : ℤ) :
    ℕ → ℕ → ℕ → FreeExtent → Except Fault FreeExtent
  | 0, _, _, _ => .error .outOfFuel
  | fuel + 1, order, block, ex =>
    if ex.feLen < needed then
      match mbFindBuddy e4b order with
      | none => .ok ex
      | some (_, max) =>
        if max ≤ block + 1 then .ok ex
        else
          let next := (block + 1) * 1 <<< order
          if mbTestBit grp next bitmapAddr then .ok ex
          else do
            let order ← mbFindOrderForBlock e4b grp next
            extendLoop e4b grp needed fuel order (next >>> order)
              { ex with feLen := ex.feLen + (1 <<< order : ℕ) }
    else .ok ex

/-- `mb_find_extent`; its return value is `feLen`. -/
def mbFindExtent (e4b : Ext4Buddy) (grp : GroupInfo) (order block : ℕ) (needed : ℤ) :
    Except Fault FreeExtent := do
  let next := block
  match mbFindBuddy e4b order with
  | none => .error .bug
  | some (buddy, max) =>
    if max ≤ block then .error .bug
    else if mbTestBit grp block buddy then .ok { feStart := 0, feGroup := 0, feLen := 0 }
    else
      let (order, block) ← if order = 0 then do
          let ord ← mbFindOrderForBlock e4b grp block
          .ok (ord, block >>> ord)
        else .ok (order, block)
      let start : ℤ := (block <<< order : ℕ)
      let diff : ℤ := next - start
      let ex ← extendLoop e4b grp needed (1 <<< (e4b.blkbits + 3)) order block
        { feStart := start + diff, feGroup := e4b.group, feLen := (1 <<< order : ℕ) - diff }
      if (1 <<< (e4b.blkbits + 3) : ℕ) < ex.feStart + ex.feLen then .error .bug else .ok ex

end Find

section Mark

/-- The loop of `mb_mark_used`: what is left of the extent and the value to return. -/
def markLoop (e4b : Ext4Buddy) : ℕ → GroupInfo → ℕ → ℕ → ℕ → Except Fault (ℕ × GroupInfo)
  | 0, _, _, _, _ => .error .outOfFuel
  | fuel + 1, grp, start, len, ret =>
    if len = 0 then .ok (ret, grp)
    else do
      let ord ← mbFindOrderForBlock e4b grp start
      if start >>> ord <<< ord = start ∧ 1 <<< ord ≤ len then
        -- the whole chunk may be allocated at once
        let (buddy, max) ← theBuddy e4b ord
        if max ≤ start >>> ord then .error .bug
        else
          let grp := (mbSetBit grp (start >>> ord) buddy).count ord (-1)
          markLoop e4b fuel grp (start + 1 <<< ord) (len - 1 <<< ord) ret
      else
        let ret := if ret = 0 then len ||| ord <<< 16 else ret
        if ord = 0 then .error .bug
        else
          let (buddy, _) ← theBuddy e4b ord
          let grp := (mbSetBit grp (start >>> ord) buddy).count ord (-1)
          let ord := ord - 1
          let cur := start >>> ord >>> 1 <<< 1
          let (buddy, _) ← theBuddy e4b ord
          let grp := mbClearBit (mbClearBit grp cur buddy) (cur + 1) buddy
          markLoop e4b fuel ((grp.count ord 1).count ord 1) start len ret

def markRounds (e4b : Ext4Buddy) (len : ℕ) : ℕ := (len + 1) * (e4b.blkbits + 2)

def mbMarkUsed (e4b : Ext4Buddy) (grp : GroupInfo) (group start len : ℕ) : Except Fault (ℕ × GroupInfo) :=
  if 1 <<< e4b.blkbits <<< 3 < start + len then .error .bug
  else if e4b.group ≠ group then .error .bug
  else do
    let mlen := start ≠ 0 && !mbTestBit grp (start - 1) bitmapAddr
    let max := start + len < sMbMaxs e4b.blkbits 0 && !mbTestBit grp (start + len) bitmapAddr
    let grp := { grp with
      bbFree := grp.bbFree - len
      bbFirstFree := if grp.bbFirstFree = start then grp.bbFirstFree + len else grp.bbFirstFree
      bbFragments := if mlen && max then grp.bbFragments + 1
        else if !mlen && !max then grp.bbFragments - 1 else grp.bbFragments }
    let (ret, grp) ← markLoop e4b (markRounds e4b len) grp start len 0
    let grp := mbSetLargestFreeOrder e4b grp
    .ok (ret, { grp with bitmap := mbSetBits grp.bitmap start len })

end Mark

section Check

/-- The checks of `__mb_check_buddy` on the bits of an order above 1. -/
def checkOrder (e4b : Ext4Buddy) (grp : GroupInfo) (order : ℕ) : Bool :=
  match mbFindBuddy e4b order, mbFindBuddy e4b (order - 1) with
  | some (buddy, max), some (buddy2, max2) =>
    buddy ≠ buddy2 && max * 2 == max2 &&
      (List.range max).all (fun i =>
        if mbTestBit grp i buddy then
          if mbTestBit grp (i <<< 1) buddy2 = false then mbTestBit grp (i <<< 1 + 1) buddy2
          else if mbTestBit grp (i <<< 1 + 1) buddy2 = false then mbTestBit grp (i <<< 1) buddy2
          else true
        else mbTestBit grp (i <<< 1) buddy2 && mbTestBit grp (i <<< 1 + 1) buddy2 &&
          (List.range (1 <<< order)).all fun j => !mbTestBit grp (i * 1 <<< order + j) bitmapAddr) &&
      grp.bbCounters order == ((List.range max).countP fun i => !mbTestBit grp i buddy)
  | _, _ => false

/-- The checks on a block: a free one is not before the first free one, a used one has all bits above it
set. -/
def checkBlock (e4b : Ext4Buddy) (grp : GroupInfo) (i : ℕ) : Bool :=
  if mbTestBit grp i bitmapAddr then
    (List.range (e4b.blkbits + 1)).all fun j =>
      match mbFindBuddy e4b j with
      | some (buddy2, max2) => decide (i >>> j < max2) && mbTestBit grp (i >>> j) buddy2
      | none => false
  else decide (grp.bbFirstFree ≤ i)

/-- The loop that counts `fragments`; `inside` says that `fstart` is set. -/
def countFragments (grp : GroupInfo) : ℕ → ℕ → Bool → ℕ
  | 0, _, _ => 0
  | rounds + 1, i, inside =>
    if mbTestBit grp i bitmapAddr then countFragments grp rounds (i + 1) false
    else (if inside then 0 else 1) + countFragments grp rounds (i + 1) true

def mbCheckBuddy (e4b : Ext4Buddy) (grp : GroupInfo) : Bool :=
  (List.range e4b.blkbits).all (fun k => checkOrder e4b grp (k + 2)) &&
    (List.range (1 <<< (e4b.blkbits + 3))).all (checkBlock e4b grp) &&
    !grp.needInit &&
    grp.bbFragments == countFragments grp (1 <<< (e4b.blkbits + 3)) 0 false &&
    grp.preallocList.all (fun pa => pa.group == e4b.group &&
      (List.range pa.len).all fun i => mbTestBit grp (pa.start + i) bitmapAddr)

end Check

inductive Op
  | markUsed (start len : ℕ)
  | freeBlocks (first count : ℕ)

def step (e4b : Ext4Buddy) (grp : GroupInfo) : Op → Except Fault GroupInfo
  | .markUsed start len => (mbMarkUsed e4b grp e4b.group start len).map Prod.snd
  | .freeBlocks first count => mbFreeBlocks e4b grp first count

end VDLinux.Fs.Mballoc
