import Mathlib

namespace VDLinux.Fs.Fat

def fatStartEnt : ℕ := 2
def fatEntFree : BitVec 32 := 0
def fatEntEof : BitVec 32 := 0x0fffffff

inductive FatBits
  | fat12
  | fat16
  | fat32
deriving DecidableEq

def FatBits.maxFat : FatBits → ℕ
  | .fat12 => 0xff4
  | .fat16 => 0xfff4
  | .fat32 => 0x0ffffff6

def FatBits.badFat : FatBits → ℕ
  | .fat12 => 0xff7
  | .fat16 => 0xfff7
  | .fat32 => 0x0ffffff7

def FatBits.eofFat : FatBits → BitVec 32
  | .fat12 => 0xfff
  | .fat16 => 0xffff
  | .fat32 => 0x0fffffff

/-- What `fat_fill_super` has checked of a volume. -/
structure Volume where
  fatBits : FatBits
  maxCluster : ℕ
  fatStart : ℕ
  blocksizeBits : ℕ
  max_le : maxCluster ≤ fatBits.maxFat + fatStartEnt
  bits_le : 9 ≤ blocksizeBits

def Volume.blocksize (vol : Volume) : ℕ := 2 ^ vol.blocksizeBits

abbrev Disk := ℕ → ℕ → BitVec 8

structure Ptr where
  block : ℕ
  offset : ℕ
deriving DecidableEq

def Disk.read (disk : Disk) (p : Ptr) : BitVec 8 := disk p.block p.offset

def Disk.write (disk : Disk) (p : Ptr) (b : BitVec 8) : Disk :=
  fun block offset => if block = p.block ∧ offset = p.offset then b else disk block offset

/-- `struct fat_entry`: `ent0` and `ent1` are the two pointers of `ent12_p`, and `ent0` alone is `ent16_p`
or `ent32_p`. A buffer is known by its block number. -/
structure FatEntry where
  entry : ℕ
  nrBhs : ℕ
  bhs0 : ℕ
  bhs1 : ℕ
  ent0 : Ptr
  ent1 : Ptr

def fatentInit : FatEntry :=
  { entry := 0, nrBhs := 0, bhs0 := 0, bhs1 := 0, ent0 := ⟨0, 0⟩, ent1 := ⟨0, 0⟩ }

def entBytes : FatBits → ℕ → ℕ
  | .fat12, entry => entry + entry / 2
  | .fat16, entry => 2 * entry
  | .fat32, entry => 4 * entry

def entBlocknr (vol : Volume) (entry : ℕ) : ℕ × ℕ :=
  let bytes := entBytes vol.fatBits entry
  (bytes % vol.blocksize, vol.fatStart + bytes / vol.blocksize)

def entSetPtr (vol : Volume) (fatent : FatEntry) (offset : ℕ) : FatEntry :=
  match vol.fatBits with
  | .fat12 =>
    if fatent.nrBhs = 1 then
      { fatent with ent0 := ⟨fatent.bhs0, offset⟩, ent1 := ⟨fatent.bhs0, offset + 1⟩ }
    else { fatent with ent0 := ⟨fatent.bhs0, offset⟩, ent1 := ⟨fatent.bhs1, 0⟩ }
  | .fat16 | .fat32 => { fatent with ent0 := ⟨fatent.bhs0, offset⟩ }

/-- `ent_bread`; reading a block succeeds. -/
def entBread (vol : Volume) (fatent : FatEntry) (offset blocknr : ℕ) : FatEntry :=
  match vol.fatBits with
  | .fat12 =>
    if offset + 1 < vol.blocksize then entSetPtr vol { fatent with bhs0 := blocknr, nrBhs := 1 } offset
    else entSetPtr vol { fatent with bhs0 := blocknr, bhs1 := blocknr + 1, nrBhs := 2 } offset
  | .fat16 | .fat32 => entSetPtr vol { fatent with bhs0 := blocknr, nrBhs := 1 } offset

def Disk.byte (disk : Disk) (p : Ptr) : BitVec 32 := (disk.read p).setWidth 32

def Ptr.add (p : Ptr) (n : ℕ) : Ptr := { p with offset := p.offset + n }

def entDecode (bits : FatBits) (next : BitVec 32) : BitVec 32 :=
  if BitVec.ofNat 32 bits.badFat ≤ next then fatEntEof else next

def entGet (vol : Volume) (disk : Disk) (fatent : FatEntry) : BitVec 32 :=
  match vol.fatBits with
  | .fat12 =>
    let next := if fatent.entry % 2 = 1 then
        (disk.byte fatent.ent0 >>> 4) ||| (disk.byte fatent.ent1 <<< 4)
      else (disk.byte fatent.ent1 <<< 8) ||| disk.byte fatent.ent0
    entDecode .fat12 (next &&& 0x0fff)
  | .fat16 => entDecode .fat16 (disk.byte fatent.ent0 ||| (disk.byte (fatent.ent0.add 1) <<< 8))
  | .fat32 =>
    entDecode .fat32 ((disk.byte fatent.ent0 ||| (disk.byte (fatent.ent0.add 1) <<< 8) |||
      (disk.byte (fatent.ent0.add 2) <<< 16) ||| (disk.byte (fatent.ent0.add 3) <<< 24)) &&& 0x0fffffff)

def lowByte (v : BitVec 32) : BitVec 8 := v.setWidth 8

def entPut (vol : Volume) (disk : Disk) (fatent : FatEntry) (new : BitVec 32) : Disk :=
  let new := if new = fatEntEof then vol.fatBits.eofFat else new
  match vol.fatBits with
  | .fat12 =>
    if fatent.entry % 2 = 1 then
      let disk := disk.write fatent.ent0 (lowByte (new <<< 4) ||| (disk.read fatent.ent0 &&& 0x0f))
      disk.write fatent.ent1 (lowByte (new >>> 4))
    else
      let disk := disk.write fatent.ent0 (lowByte (new &&& 0xff))
      disk.write fatent.ent1 ((disk.read fatent.ent1 &&& 0xf0) ||| lowByte (new >>> 8))
  | .fat16 =>
    let disk := disk.write fatent.ent0 (lowByte new)
    disk.write (fatent.ent0.add 1) (lowByte (new >>> 8))
  | .fat32 =>
    let new := new ||| ((disk.byte fatent.ent0 ||| (disk.byte (fatent.ent0.add 1) <<< 8) |||
      (disk.byte (fatent.ent0.add 2) <<< 16) ||| (disk.byte (fatent.ent0.add 3) <<< 24)) &&& ~~~ 0x0fffffff)
    let disk := disk.write fatent.ent0 (lowByte new)
    let disk := disk.write (fatent.ent0.add 1) (lowByte (new >>> 8))
    let disk := disk.write (fatent.ent0.add 2) (lowByte (new >>> 16))
    disk.write (fatent.ent0.add 3) (lowByte (new >>> 24))

def entNext (vol : Volume) (fatent : FatEntry) : FatEntry × Bool :=
  match vol.fatBits with
  | .fat12 =>
    let nextp := fatent.ent1.add (1 + fatent.entry % 2)
    let fatent := { fatent with entry := fatent.entry + 1 }
    if fatent.nrBhs = 1 then
      if nextp.offset < vol.blocksize - 1 then
        ({ fatent with ent0 := { nextp with offset := nextp.offset - 1 }, ent1 := nextp }, true)
      else (fatent, false)
    else
      ({ fatent with ent0 := { nextp with offset := nextp.offset - 1 }, ent1 := nextp,
                     bhs0 := fatent.bhs1, nrBhs := 1 }, true)
  | .fat16 =>
    let fatent := { fatent with entry := fatent.entry + 1 }
    if fatent.ent0.offset < vol.blocksize - 2 then ({ fatent with ent0 := fatent.ent0.add 2 }, true)
    else (fatent, false)
  | .fat32 =>
    let fatent := { fatent with entry := fatent.entry + 1 }
    if fatent.ent0.offset < vol.blocksize - 4 then ({ fatent with ent0 := fatent.ent0.add 4 }, true)
    else (fatent, false)

def fatEntNext (vol : Volume) (fatent : FatEntry) : FatEntry × Bool :=
  let r := entNext vol fatent
  (r.1, r.2 && decide (r.1.entry < vol.maxCluster))

def fatEntReadBlock (vol : Volume) (fatent : FatEntry) : FatEntry :=
  let (offset, blocknr) := entBlocknr vol fatent.entry
  entBread vol { fatent with nrBhs := 0 } offset blocknr

/-- `fat_ent_update_ptr`: nothing if the buffers of the entry do not hold it. -/
def fatEntUpdatePtr (vol : Volume) (fatent : FatEntry) (offset blocknr : ℕ) : Option FatEntry :=
  if fatent.nrBhs = 0 ∨ fatent.bhs0 ≠ blocknr then none
  else match vol.fatBits with
    | .fat12 =>
      if offset + 1 < vol.blocksize then some (entSetPtr vol { fatent with nrBhs := 1 } offset)
      else if fatent.nrBhs ≠ 2 then none
      else if fatent.bhs1 ≠ blocknr + 1 then none
      else some (entSetPtr vol fatent offset)
    | .fat16 | .fat32 => some (entSetPtr vol fatent offset)

inductive Error
  | eio
  | enospc
  | bug
deriving DecidableEq

/-- `fat_ent_read`: the value and the entry that now points at it. -/
def fatEntRead (vol : Volume) (disk : Disk) (fatent : FatEntry) (entry : ℕ) :
    Except Error (BitVec 32 × FatEntry) :=
  if entry < fatStartEnt ∨ vol.maxCluster ≤ entry then .error .eio
  else
    let fatent := { fatent with entry := entry }
    let (offset, blocknr) := entBlocknr vol entry
    let fatent := (fatEntUpdatePtr vol fatent offset blocknr).getD
      (entBread vol { fatent with nrBhs := 0 } offset blocknr)
    .ok (entGet vol disk fatent, fatent)

/-- The FAT and the fields of `struct msdos_sb_info` that change with it. -/
structure SbInfo where
  disk : Disk
  prevFree : BitVec 32
  freeClusters : BitVec 32
  freeClusValid : Bool

def unknownCount : BitVec 32 := 0xffffffff

def SbInfo.countDown (fat : SbInfo) : SbInfo :=
  if fat.freeClusters ≠ unknownCount then { fat with freeClusters := fat.freeClusters - 1 } else fat

def SbInfo.countUp (fat : SbInfo) : SbInfo :=
  if fat.freeClusters ≠ unknownCount then { fat with freeClusters := fat.freeClusters + 1 } else fat

def freeLoop (vol : Volume) : ℕ → SbInfo → FatEntry → ℕ → Option (SbInfo × Except Error Unit)
  | 0, _, _, _ => none
  | fuel + 1, fat, fatent, cluster =>
    match fatEntRead vol fat.disk fatent cluster with
    | .error e => some (fat, .error e)
    | .ok (next, fatent) =>
      -- deleting FAT entry beyond EOF
      if next = fatEntFree then some (fat, .error .eio)
      else
        let fat := { fat with disk := entPut vol fat.disk fatent fatEntFree }.countUp
        if next = fatEntEof then some (fat, .ok ()) else freeLoop vol fuel fat fatent next.toNat

def fatFreeClusters (vol : Volume) (fuel : ℕ) (fat : SbInfo) (cluster : ℕ) :
    Option (SbInfo × Except Error Unit) :=
  freeLoop vol fuel fat fatentInit cluster

/-- The variables of `fat_alloc_clusters`: `clusters` is `cluster[]` in reverse. -/
structure Alloc where
  fat : SbInfo
  fatent : FatEntry
  prevEnt : FatEntry
  clusters : List ℕ

def takeEntry (vol : Volume) (st : Alloc) : Alloc :=
  let entry := st.fatent.entry
  let disk := entPut vol st.fat.disk st.fatent fatEntEof
  let disk := if st.prevEnt.nrBhs ≠ 0 then entPut vol disk st.prevEnt (BitVec.ofNat 32 entry) else disk
  let fat := { st.fat with disk := disk, prevFree := BitVec.ofNat 32 entry }.countDown
  { st with fat := fat, clusters := entry :: st.clusters }

/-- The two nested loops, with `rounds` = `max_cluster - count` entries still to look at. `inBlock` says
that the entry is one of the block that has been read; otherwise the outer loop comes round. The result
says whether `n` clusters were found. -/
def allocLoop (vol : Volume) (n : ℕ) : ℕ → Bool → Alloc → Alloc × Bool
  | 0, _, st => (st, false)
  | rounds + 1, inBlock, st =>
    let fatent := if inBlock then st.fatent
      else fatEntReadBlock vol { st.fatent with
        entry := if vol.maxCluster ≤ st.fatent.entry then fatStartEnt else st.fatent.entry }
    let st := { st with fatent := fatent }
    if entGet vol st.fat.disk fatent = fatEntFree then
      let st := takeEntry vol st
      if st.clusters.length = n then (st, true)
      else
        let r := fatEntNext vol st.fatent
        allocLoop vol n rounds r.2 { st with prevEnt := st.fatent, fatent := r.1 }
    else
      let r := fatEntNext vol st.fatent
      allocLoop vol n rounds r.2 { st with fatent := r.1 }

/-- `MAX_BUF_PER_PAGE`, with pages of 4096 bytes. -/
def maxBufPerPage : ℕ := 8

/-- `fat_alloc_clusters`; the blocks are written and mirrored without error. -/
def fatAllocClusters (vol : Volume) (fuel : ℕ) (fat : SbInfo) (n : ℕ) :
    Option (SbInfo × Except Error (List ℕ)) :=
  if maxBufPerPage / 2 < n then some (fat, .error .bug)
  else if fat.freeClusters ≠ unknownCount ∧ fat.freeClusValid ∧ fat.freeClusters.toNat < n then
    some (fat, .error .enospc)
  else
    let st : Alloc := { fat := fat
                        fatent := { fatentInit with entry := (fat.prevFree + 1).toNat }
                        prevEnt := fatentInit
                        clusters := [] }
    let (st, found) := allocLoop vol n (vol.maxCluster - fatStartEnt) false st
    if found then some (st.fat, .ok st.clusters.reverse)
    else
      let fat := { st.fat with freeClusters := 0, freeClusValid := true }
      match st.clusters.reverse with
      | [] => some (fat, .error .enospc)
      | first :: _ => do
        let r ← fatFreeClusters vol fuel fat first
        some (r.1, .error .enospc)

end VDLinux.Fs.Fat
