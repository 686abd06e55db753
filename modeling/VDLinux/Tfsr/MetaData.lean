import VDLinux.Tfsr.BlockMap

namespace VDLinux.Tfsr.MetaData

open BlockMap

structure Page where
  main : Nat → UInt8
  spare : Nat → UInt8

inductive LldRe where
  | success
  | prev1LvReadDisturbance
  | prev2LvReadDisturbance
  | error (nLLDRe : UInt32)
deriving DecidableEq, Repr

def LldRe.readable : LldRe → Bool
  | .error _ => false
  | _ => true

structure ReadResult where
  re : LldRe
  page : Page

inductive BmlRe where
  | success
  | noLPCB
  | noUPCB
  | invalidPCBAge
  | loadLBMSFailure
  | loadUBMSFailure
  | lld (nLLDRe : UInt32)
deriving DecidableEq, Repr

inductive PcbType where
  | lpcb
  | upcb
deriving DecidableEq, Repr

def le16 (b : Nat → UInt8) (i : Nat) : UInt16 :=
  .ofNat ((b i).toNat + 2 ^ 8 * (b (i + 1)).toNat)

def le32 (b : Nat → UInt8) (i : Nat) : UInt32 :=
  .ofNat ((b i).toNat + 2 ^ 8 * (b (i + 1)).toNat + 2 ^ 16 * (b (i + 2)).toNat +
    2 ^ 24 * (b (i + 3)).toNat)

structure BmlPoolCtlHdr where
  aSig : List UInt8
  nREFPbn : UInt16
  nTPCBPbn : UInt16
  nAge : UInt32
  nGlobalAge : UInt32
deriving DecidableEq, Repr

def Page.poolCtlHdr (p : Page) : BmlPoolCtlHdr :=
  ⟨(List.range 4).map p.main, le16 p.main 4, le16 p.main 6, le32 p.main 12, le32 p.main 16⟩

def fsrSectorSize : Nat := 512
def bml2KBPg : Nat := 4
def bmlNumOfMetaPgs : Nat := 3
def bmlNumOfBMS2KBPg : Nat := 4
def bmlNumOfBMS4KBPg : Nat := 10
def bmlBMFsPerBMS : Nat := 127
def bmlRCBFsPerRCBS : Nat := 256

def Page.stBMF (p : Page) (sct nBMFIdx : Nat) : BmlBMF :=
  ⟨le16 p.main (fsrSectorSize * sct + 4 + 4 * nBMFIdx),
    le16 p.main (fsrSectorSize * sct + 4 + 4 * nBMFIdx + 2)⟩

def Page.stBMFs (p : Page) (sct : Nat) : List BmlBMF :=
  (List.range bmlBMFsPerBMS).map (p.stBMF sct)

def Page.rcbSbns (p : Page) (sct : Nat) : List UInt16 :=
  (List.range bmlRCBFsPerRCBS).map (fun i => le16 p.main (fsrSectorSize * sct + 2 * i))

structure BmlReservoirSh where
  nUPCBSbn : UInt16
  nLPCBSbn : UInt16
  nTPCBSbn : UInt16
  nREFSbn : UInt16
  nGlobalPCBAge : UInt32
  nUPcbAge : UInt32
  nLPcbAge : UInt32
  nNextUPCBPgOff : UInt16
  nNextLPCBPgOff : UInt16
deriving DecidableEq, Repr

/-- The tables that mounting fills, with the indices it has stored to. -/
structure MountState where
  rsv : BmlReservoir
  rsvSh : BmlReservoirSh
  bmfStores : List Nat
  rcbStores : List Nat

def rsvrBlks (pstVol : BmlVolCxt) : Nat := pstVol.nNumOfRsvrBlks >>> pstVol.nSftDDP

def numOfBMS (pstVol : BmlVolCxt) : Nat :=
  if pstVol.nSctsPerPg = bml2KBPg then bmlNumOfBMS2KBPg else bmlNumOfBMS4KBPg

def numOfRCB (pstVol : BmlVolCxt) : Nat :=
  if 1 < pstVol.nNumOfPlane then
    let nNumOfRCB := numOfBMS pstVol * bmlBMFsPerBMS / 3
    if nNumOfRCB % bmlRCBFsPerRCBS ≠ 0 then nNumOfRCB / bmlRCBFsPerRCBS + 1
    else nNumOfRCB / bmlRCBFsPerRCBS
  else 0

def initBBM (pstVol : BmlVolCxt) (pstRsv : BmlReservoir) : MountState :=
  let nNumOfRsvrBlks := rsvrBlks pstVol
  let nNumOfBMFs :=
    if 1 < pstVol.nNumOfPlane then nNumOfRsvrBlks + nNumOfRsvrBlks / 2 else nNumOfRsvrBlks
  { rsv :=
      { pstRsv with
        nNumOfBMFs := 0
        nNumOfRCBs := 0
        pstBMF := fun i => if i < nNumOfBMFs then ⟨0xFFFF, 0xFFFF⟩ else pstRsv.pstBMF i
        pstRCB := fun i =>
          if 1 < pstVol.nNumOfPlane ∧ i < nNumOfRsvrBlks / 2 then 0xFFFF else pstRsv.pstRCB i }
    rsvSh := ⟨0, 0, 0, 0, 0, 0, 0, 0, 0⟩
    bmfStores := []
    rcbStores := [] }

def storeBMF (st : MountState) (e : BmlBMF) : MountState :=
  let n := st.rsv.nNumOfBMFs
  { st with
    rsv := { st.rsv with
      pstBMF := Function.update st.rsv.pstBMF n.toNat e
      nNumOfBMFs := n + 1 }
    bmfStores := st.bmfStores ++ [n.toNat] }

def storeRCB (st : MountState) (c : UInt16) : MountState :=
  let n := st.rsv.nNumOfRCBs
  { st with
    rsv := { st.rsv with
      pstRCB := Function.update st.rsv.pstRCB n.toNat c
      nNumOfRCBs := n + 1 }
    rcbStores := st.rcbStores ++ [n.toNat] }

def bmfLimit (pstVol : BmlVolCxt) : Nat :=
  if 1 < pstVol.nNumOfPlane then uint16 (rsvrBlks pstVol + rsvrBlks pstVol / 2)
  else uint16 (rsvrBlks pstVol)

/-- `false` is a table that is full. -/
def loadBMS (pstVol : BmlVolCxt) : List BmlBMF → MountState → Bool × MountState
  | [], st => (true, st)
  | e :: es, st =>
    if e.nRbn = 0xFFFF ∧ e.nSbn = 0xFFFF then (true, st)
    else if bmfLimit pstVol < st.rsv.nNumOfBMFs.toNat then (false, st)
    else loadBMS pstVol es (storeBMF st e)

def loadRCB : List UInt16 → MountState → MountState
  | [], st => st
  | c :: cs, st => if c ≠ 0xFFFF then loadRCB cs (storeRCB st c) else st

def loadPCH (nType : PcbType) (pstPCH : BmlPoolCtlHdr) (sh : BmlReservoirSh) : BmlReservoirSh :=
  let sh := match nType with
    | .upcb => { sh with nUPcbAge := pstPCH.nAge, nREFSbn := pstPCH.nREFPbn }
    | .lpcb => { sh with nLPcbAge := pstPCH.nAge }
  if sh.nGlobalPCBAge < pstPCH.nGlobalAge then { sh with nGlobalPCBAge := pstPCH.nGlobalAge } else sh

def isBMSSct (pstVol : BmlVolCxt) (nSctIdx : Nat) : Prop :=
  pstVol.nSctsPerPg ≤ nSctIdx ∧ nSctIdx < pstVol.nSctsPerPg + numOfBMS pstVol

def isRCBSct (pstVol : BmlVolCxt) (nSctIdx : Nat) : Prop :=
  bmlNumOfMetaPgs * pstVol.nSctsPerPg - numOfRCB pstVol ≤ nSctIdx ∧
    nSctIdx < bmlNumOfMetaPgs * pstVol.nSctsPerPg

instance (pstVol : BmlVolCxt) (nSctIdx : Nat) : Decidable (isBMSSct pstVol nSctIdx) :=
  inferInstanceAs (Decidable (_ ∧ _))

instance (pstVol : BmlVolCxt) (nSctIdx : Nat) : Decidable (isRCBSct pstVol nSctIdx) :=
  inferInstanceAs (Decidable (_ ∧ _))

/-- One sector of the meta pages. The partition information, the erase refresh
list and the allocation bitmap in sectors 1 to 3 are copied elsewhere. -/
def loadSct (pstVol : BmlVolCxt) (nType : PcbType) (nSctIdx : Nat) (page : Page) (st : MountState) :
    Bool × MountState :=
  if nSctIdx = 0 then (true, { st with rsvSh := loadPCH nType page.poolCtlHdr st.rsvSh })
  else if nSctIdx = 1 ∨ nSctIdx = 2 ∨ nSctIdx = 3 then (true, st)
  else if isBMSSct pstVol nSctIdx then loadBMS pstVol (page.stBMFs (nSctIdx % pstVol.nSctsPerPg)) st
  else if isRCBSct pstVol nSctIdx then
    match nType with
    | .upcb => (true, loadRCB (page.rcbSbns (nSctIdx % pstVol.nSctsPerPg)) st)
    | .lpcb => (true, st)
  else (true, st)

inductive LoadEnd where
  | lldError (nLLDRe : UInt32)
  | notLoaded
  | loaded (bReadDisturb : Bool)
deriving DecidableEq, Repr

/-- The buffer for a sector: a page is read when its first sector is due. -/
def fetch (pstVol : BmlVolCxt) (read : Nat → ReadResult) (nSctIdx : Nat) (page : Page)
    (bReadDisturb : Bool) : Except UInt32 (Page × Bool) :=
  if nSctIdx % pstVol.nSctsPerPg = 0 then
    let r := read (nSctIdx / pstVol.nSctsPerPg)
    match r.re with
    | .error nLLDRe => .error nLLDRe
    | .prev2LvReadDisturbance => .ok (r.page, true)
    | _ => .ok (r.page, bReadDisturb)
  else .ok (page, bReadDisturb)

def loadScts (pstVol : BmlVolCxt) (nType : PcbType) (read : Nat → ReadResult) :
    Nat → Nat → Page → Bool → MountState → LoadEnd × MountState
  | 0, _, _, bReadDisturb, st => (.loaded bReadDisturb, st)
  | left + 1, nSctIdx, page, bReadDisturb, st =>
    match fetch pstVol read nSctIdx page bReadDisturb with
    | .error nLLDRe => (.lldError nLLDRe, st)
    | .ok (page, bReadDisturb) =>
      match loadSct pstVol nType nSctIdx page st with
      | (false, st) => (.notLoaded, st)
      | (true, st) => loadScts pstVol nType read left (nSctIdx + 1) page bReadDisturb st

/-- `read` answers the reads of the meta pages in turn. A disturbed upper
control block is reprogrammed by `FSR_BBM_UpdateERL`, whose answer is `updateERL`. -/
def loadMetaData (pstVol : BmlVolCxt) (nType : PcbType) (read : Nat → ReadResult) (updateERL : BmlRe)
    (st : MountState) : BmlRe × MountState :=
  let buffer : Page := ⟨fun _ => 0, fun _ => 0⟩
  match loadScts pstVol nType read (bmlNumOfMetaPgs * pstVol.nSctsPerPg) 0 buffer false st with
  | (.lldError nLLDRe, st) => (.lld nLLDRe, st)
  | (.notLoaded, st) =>
    (match nType with | .upcb => .loadUBMSFailure | .lpcb => .loadLBMSFailure, st)
  | (.loaded bReadDisturb, st) =>
    (match nType with | .upcb => if bReadDisturb then updateERL else .success | .lpcb => .success, st)

/-- The two loads of `_Mount` with the results it turns theirs into. -/
def loadLPCBThenUPCB (pstVol : BmlVolCxt) (readL readU : Nat → ReadResult) (updateERL : BmlRe)
    (st : MountState) : BmlRe × MountState :=
  match loadMetaData pstVol .lpcb readL updateERL st with
  | (.success, st) =>
    match loadMetaData pstVol .upcb readU updateERL st with
    | (.success, st) => (.success, st)
    | (_, st) => (.loadUBMSFailure, st)
  | (_, st) => (.loadLBMSFailure, st)

end VDLinux.Tfsr.MetaData
