import VDLinux.Tfsr.MetaData

namespace VDLinux.Tfsr.Mount

open BlockMap MetaData

/-- The flash below: the answer to the read with this number, of this block and
page. The same page may read differently the next time. -/
abbrev Lld := Nat → Nat → Nat → ReadResult

def bmlValidBlkMark : UInt16 := 0xFFFF
def fsrLldBBMMetaMark : UInt16 := 0xA5A5

def bmlUPCHSig : List UInt8 := [0x55, 0x50, 0x43, 0x48]
def bmlLPCHSig : List UInt8 := [0x4C, 0x50, 0x43, 0x48]

def pchSig : PcbType → List UInt8
  | .upcb => bmlUPCHSig
  | .lpcb => bmlLPCHSig

def cmpData (b : Nat → UInt8) (size : Nat) (nCmpData : UInt8) : Bool :=
  (List.range size).all (fun i => b i == nCmpData)

/-- Bytes of a page and of its spare buffer that `_CmpData` compares. -/
def mainSize (pstVol : BmlVolCxt) : Nat := pstVol.nSizeOfPage / 4 * 4

def spareSize (pstVol : BmlVolCxt) : Nat := 16 + pstVol.nSizeOfPage / 2048 * 16

def isFreePg (pstVol : BmlVolCxt) (page : Page) : Bool :=
  cmpData page.spare (spareSize pstVol) 0xFF && cmpData page.main (mainSize pstVol) 0xFF

structure Scan where
  calls : Nat
  sh : BmlReservoirSh
  bUPCB : Bool
  bLPCB : Bool

/-- The header of a control block of the reservoir. The scan ends at an age that
no block can have. -/
def scanPCH (nPbn : Nat) (pstPCH : BmlPoolCtlHdr) (s : Scan) : Except Scan Scan :=
  if pstPCH.aSig = bmlUPCHSig then
    if pstPCH.nAge = 0xFFFFFFFF then .error s
    else if s.sh.nUPcbAge < pstPCH.nAge then
      .ok { s with
        sh := { s.sh with nUPCBSbn := .ofNat nPbn, nUPcbAge := pstPCH.nAge }, bUPCB := true }
    else .ok { s with bUPCB := true }
  else if pstPCH.aSig = bmlLPCHSig then
    if pstPCH.nAge = 0xFFFFFFFF then .error s
    else if s.sh.nLPcbAge < pstPCH.nAge then
      .ok { s with
        sh := { s.sh with nLPCBSbn := .ofNat nPbn, nLPcbAge := pstPCH.nAge }, bLPCB := true }
    else .ok { s with bLPCB := true }
  else .ok s

def scanGlobalAge (pstPCH : BmlPoolCtlHdr) (s : Scan) : Scan :=
  if (pstPCH.aSig = bmlUPCHSig ∨ pstPCH.aSig = bmlLPCHSig) ∧
      s.sh.nGlobalPCBAge < pstPCH.nGlobalAge then
    { s with sh := { s.sh with nGlobalPCBAge := pstPCH.nGlobalAge, nTPCBSbn := pstPCH.nTPCBPbn } }
  else s

def scanBlk (lld : Lld) (nPbn : Nat) (s : Scan) : Except Scan Scan :=
  let r := lld s.calls nPbn 0
  let s := { s with calls := s.calls + 1 }
  if le16 r.page.spare 0 ≠ bmlValidBlkMark then .ok s
  else if r.re.readable = false then .ok s
  else if le16 r.page.spare 2 ≠ fsrLldBBMMetaMark then .ok s
  else (scanPCH nPbn r.page.poolCtlHdr s).map (scanGlobalAge r.page.poolCtlHdr)

def scanBlks (lld : Lld) : List Nat → Scan → Except Scan Scan
  | [], s => .ok s
  | nPbn :: rest, s => (scanBlk lld nPbn s).bind (scanBlks lld rest)

def scanReservoir (lld : Lld) (pstRsv : BmlReservoir) (sh : BmlReservoirSh) :
    BmlRe × Nat × BmlReservoirSh :=
  let n1stSbnOfRsvr := pstRsv.n1stSbnOfRsvr
  let nLastSbnOfRsvr :=
    if pstRsv.nRsvrType = .hybrid then pstRsv.n1stSbnOfMLC - 1 else pstRsv.nLastSbnOfRsvr
  let sh := { sh with nUPcbAge := 0, nLPcbAge := 0 }
  match scanBlks lld (List.range' n1stSbnOfRsvr (nLastSbnOfRsvr + 1 - n1stSbnOfRsvr))
    ⟨0, sh, false, false⟩ with
  | .error s => (.invalidPCBAge, s.calls, s.sh)
  | .ok s =>
    if s.bUPCB = false then (.noUPCB, s.calls, s.sh)
    else if s.bLPCB = false then (.noLPCB, s.calls, s.sh)
    else (.success, s.calls, s.sh)

/-- Look at the last page of every group, from the end of the block. The answer
is the number of pages up to the first one that is written. -/
def latestUsed (pstVol : BmlVolCxt) (lld : Lld) (nPbn : Nat) : Nat → Nat → Option Nat × Nat
  | 0, calls => (none, calls)
  | group + 1, calls =>
    let nPgOffset := (bmlNumOfMetaPgs + 1) * (group + 1)
    if isFreePg pstVol (lld calls nPbn (nPgOffset - 1)).page then
      latestUsed pstVol lld nPbn group (calls + 1)
    else (some nPgOffset, calls + 1)

/-- Read meta pages from `nIdx` up to the confirm page; stop at an error. -/
def readMetaPgs (lld : Lld) (nPbn : Nat) : Nat → Nat → Nat → Bool × Nat
  | 0, _, calls => (true, calls)
  | left + 1, nIdx, calls =>
    if (lld calls nPbn nIdx).re.readable then readMetaPgs lld nPbn left (nIdx + 1) (calls + 1)
    else (false, calls + 1)

structure Found where
  bFound : Bool
  nValidOffset : Nat
  calls : Nat
deriving DecidableEq, Repr

/-- A confirm page with its meta pages has been found: note where they start and
check the signature if the block is only a backup. -/
def checkTPCB (lld : Lld) (nPbn : Nat) (nType : PcbType) (bTPCB : Bool) (nValidOffset calls : Nat) :
    Found :=
  if bTPCB then
    ⟨(lld calls nPbn nValidOffset).page.poolCtlHdr.aSig = pchSig nType, nValidOffset, calls + 1⟩
  else ⟨true, nValidOffset, calls⟩

/-- Go backward until a valid confirm page is found. Before the third page the
loop over the meta pages has nothing to read, because its start wraps. -/
def searchConfirm (pstVol : BmlVolCxt) (lld : Lld) (nPbn : Nat) (nType : PcbType) (bTPCB : Bool)
    (nLatestPgOff : Nat) : Nat → Nat → Found
  | nPgOffset, calls =>
    let r := lld calls nPbn nPgOffset
    let calls := calls + 1
    let (bMeta, calls) :=
      if r.re.readable && cmpData r.page.main (mainSize pstVol) 0 then
        if bmlNumOfMetaPgs ≤ nPgOffset then
          readMetaPgs lld nPbn bmlNumOfMetaPgs (nPgOffset - bmlNumOfMetaPgs) calls
        else (true, calls)
      else (false, calls)
    if bMeta then
      let calls :=
        if nLatestPgOff = nPgOffset ∧ nPgOffset < pstVol.nNumOfPgsInSLCBlk - 1 then calls + 1
        else calls
      checkTPCB lld nPbn nType bTPCB (uint32 (nPgOffset + 2 ^ 32 - bmlNumOfMetaPgs)) calls
    else
      match nPgOffset with
      | 0 => ⟨false, 0xFFFFFFFF, calls⟩
      | nPgOffset + 1 => searchConfirm pstVol lld nPbn nType bTPCB nLatestPgOff nPgOffset calls

def setNextPgOff (nType : PcbType) (nPgOffset : Nat) (sh : BmlReservoirSh) : BmlReservoirSh :=
  match nType with
  | .upcb => { sh with nNextUPCBPgOff := .ofNat nPgOffset }
  | .lpcb => { sh with nNextLPCBPgOff := .ofNat nPgOffset }

def findValidMetaData (pstVol : BmlVolCxt) (lld : Lld) (nPbn : Nat) (nType : PcbType) (bTPCB : Bool)
    (calls : Nat) (sh : BmlReservoirSh) : Found × BmlReservoirSh :=
  match latestUsed pstVol lld nPbn (pstVol.nNumOfPgsInSLCBlk / (bmlNumOfMetaPgs + 1)) calls with
  | (none, calls) => (⟨false, 0xFFFFFFFF, calls⟩, sh)
  | (some nPgOffset, calls) =>
    (searchConfirm pstVol lld nPbn nType bTPCB (nPgOffset - 1) (nPgOffset - 1) calls,
      setNextPgOff nType nPgOffset sh)

/-- The calls of `_Mount` that the loads depend on, in the order it makes them. -/
inductive Event where
  | find (nPbn : Nat) (nType : PcbType) (bTPCB : Bool) (found : Found)
  | load (nPbn nStartOffset : Nat) (nType : PcbType)
deriving DecidableEq, Repr

def pcbSbn (nType : PcbType) (sh : BmlReservoirSh) : UInt16 :=
  match nType with
  | .upcb => sh.nUPCBSbn
  | .lpcb => sh.nLPCBSbn

def swapTPCB (nType : PcbType) (sh : BmlReservoirSh) : BmlReservoirSh :=
  match nType with
  | .upcb => { sh with nUPCBSbn := sh.nTPCBSbn, nTPCBSbn := sh.nUPCBSbn }
  | .lpcb => { sh with nLPCBSbn := sh.nTPCBSbn, nTPCBSbn := sh.nLPCBSbn }

structure PcbSearch where
  bRet : Bool
  nValidOffset : Nat
  calls : Nat
  sh : BmlReservoirSh
  events : List Event

/-- The search for a control block: in its own block, then in the backup block
if one is recorded. `bRet` is false where `_Mount` gives up. -/
def findPCB (pstVol : BmlVolCxt) (lld : Lld) (nType : PcbType) (calls : Nat) (sh : BmlReservoirSh) :
    PcbSearch :=
  let nPbn := (pcbSbn nType sh).toNat
  let (f, sh) := findValidMetaData pstVol lld nPbn nType false calls sh
  let events := [.find nPbn nType false f]
  if f.bFound = false then
    if sh.nTPCBSbn ≠ 0 then
      let nTPbn := sh.nTPCBSbn.toNat
      let (g, sh) := findValidMetaData pstVol lld nTPbn nType true f.calls sh
      let events := events ++ [.find nTPbn nType true g]
      if g.bFound = false then ⟨false, g.nValidOffset, g.calls, sh, events⟩
      else ⟨true, g.nValidOffset, g.calls, swapTPCB nType sh, events⟩
    else ⟨true, f.nValidOffset, f.calls, sh, events⟩
  else ⟨true, f.nValidOffset, f.calls, sh, events⟩

def noPCB : PcbType → BmlRe
  | .upcb => .noUPCB
  | .lpcb => .noLPCB

def loadFailure : PcbType → BmlRe
  | .upcb => .loadUBMSFailure
  | .lpcb => .loadLBMSFailure

structure MountRun where
  nRet : BmlRe
  calls : Nat
  st : MountState
  events : List Event

/-- One half of `_Mount`: find the control block and load it. -/
def mountPCB (pstVol : BmlVolCxt) (lld : Lld) (updateERL : BmlRe) (nType : PcbType) (calls : Nat)
    (st : MountState) : MountRun :=
  let s := findPCB pstVol lld nType calls st.rsvSh
  if s.bRet = false then ⟨noPCB nType, s.calls, { st with rsvSh := s.sh }, s.events⟩
  else
    let nPbn := (pcbSbn nType s.sh).toNat
    let read := fun p => lld (s.calls + p) nPbn (uint32 (s.nValidOffset + p))
    let (nRet, st) := loadMetaData pstVol nType read updateERL { st with rsvSh := s.sh }
    ⟨if nRet = .success then .success else loadFailure nType, s.calls + bmlNumOfMetaPgs, st,
      s.events ++ [.load nPbn s.nValidOffset nType]⟩

def mount (pstVol : BmlVolCxt) (lld : Lld) (updateERL : BmlRe) (nDieIdx : Nat) (st : MountState) :
    MountRun :=
  let (nRet, calls, sh) := scanReservoir lld st.rsv st.rsvSh
  if nRet ≠ .success then ⟨nRet, calls, { st with rsvSh := sh }, []⟩
  else
    let l := mountPCB pstVol lld updateERL .lpcb calls { st with rsvSh := sh }
    if l.nRet ≠ .success then l
    else
      let u := mountPCB pstVol lld updateERL .upcb l.calls l.st
      let st :=
        if u.nRet = .success then
          { u.st with rsv := reconstructBUMap pstVol (sortBMI u.st.rsv) nDieIdx }
        else u.st
      ⟨u.nRet, u.calls, st, l.events ++ u.events⟩

end VDLinux.Tfsr.Mount
