import VDLinux.Base.ExchangeSort

namespace VDLinux.Tfsr.BlockMap

open Base.ExchangeSort

def uint16 (x : Nat) : Nat := x % 2 ^ 16

def uint32 (x : Nat) : Nat := x % 2 ^ 32

/-- Block map field: the block `nSbn` is replaced by the block `nRbn`. -/
structure BmlBMF where
  nSbn : UInt16
  nRbn : UInt16
deriving DecidableEq, Repr

structure BmlBadUnit where
  n1stBMFIdx : Nat
  nNumOfBMFs : Nat
deriving DecidableEq, Repr

inductive RsvrType where
  | slc
  | mlc
  | hybrid
deriving DecidableEq, Repr

/-- The range and the tables of a reservoir. The arrays are memory: what lies
behind the first `nNumOfBMFs` fields is whatever was there before. -/
structure BmlReservoir where
  nRsvrType : RsvrType
  n1stSbnOfRsvr : Nat
  nLastSbnOfRsvr : Nat
  n1stSbnOfMLC : Nat
  nNumOfBMFs : UInt16
  nNumOfRCBs : UInt16
  pstBMF : Nat → BmlBMF
  pstRCB : Nat → UInt16
  pBUMap : Nat → BmlBadUnit

/-- Blocks hold whole groups of three meta pages and a confirm page. -/
structure BmlVolCxt where
  nNumOfBlksInDie : Nat
  nNumOfPlane : Nat
  nSctsPerPg : Nat
  nSizeOfPage : Nat
  nNumOfPgsInSLCBlk : Nat
  nNumOfRsvrBlks : Nat
  nSftDDP : Nat
  pgs_dvd : 4 ∣ nNumOfPgsInSLCBlk

theorem pgs_four : 4 ∣ 4 := ⟨1, rfl⟩
theorem pgs_sixtyFour : 4 ∣ 64 := ⟨16, rfl⟩

structure BmlDieCxt where
  nCurPbn0 : UInt16
  nCurPbn1 : UInt16
  nNumOfLLDOp : Nat
deriving DecidableEq, Repr

def bmlBlksPerBadunit : Nat := 32
def bmlSftBlksPerBadunit : Nat := 5

def sortBMI (pstRsv : BmlReservoir) : BmlReservoir :=
  { pstRsv with
    pstBMF := exchangeSort (fun e => e.nSbn.toNat) pstRsv.nNumOfBMFs.toNat pstRsv.pstBMF }

def buIdx (pstVol : BmlVolCxt) (nDieIdx : Nat) (e : BmlBMF) : Nat :=
  uint32 (e.nSbn.toNat + 2 ^ 32 - uint32 (pstVol.nNumOfBlksInDie * nDieIdx)) / bmlBlksPerBadunit

def countBMF (nBUIdx nIdx : Nat) (pBUMap : Nat → BmlBadUnit) : Nat → BmlBadUnit :=
  let u := pBUMap nBUIdx
  let u := if u.nNumOfBMFs = 0 then { u with n1stBMFIdx := uint16 nIdx } else u
  Function.update pBUMap nBUIdx { u with nNumOfBMFs := uint16 (u.nNumOfBMFs + 1) }

def reconstructBUMap (pstVol : BmlVolCxt) (pstRsv : BmlReservoir) (nDieIdx : Nat) : BmlReservoir :=
  let nMallocSize :=
    if bmlBlksPerBadunit < pstVol.nNumOfBlksInDie then pstVol.nNumOfBlksInDie / bmlBlksPerBadunit
    else 1
  let cleared := fun i => if i < nMallocSize then ⟨0, 0⟩ else pstRsv.pBUMap i
  { pstRsv with
    pBUMap := (List.range pstRsv.nNumOfBMFs.toNat).foldl
      (fun m nIdx => countBMF (buIdx pstVol nDieIdx (pstRsv.pstBMF nIdx)) nIdx m) cleared }

/-- The loop over a bad unit on a one-plane device: the count of fields left,
the field `pBMF` points to. The second result lists the fields read. -/
def getOnePlane (pstBMF : Nat → BmlBMF) (nSbn : Nat) : Nat → Nat → BmlDieCxt → BmlDieCxt × List Nat
  | 0, _, pstDie => (pstDie, [])
  | left + 1, pBMF, pstDie =>
    if (pstBMF pBMF).nSbn.toNat = nSbn then
      ({ pstDie with nCurPbn0 := (pstBMF pBMF).nRbn }, [pBMF])
    else
      let (pstDie, read) := getOnePlane pstBMF nSbn left (pBMF + 1) pstDie
      (pstDie, pBMF :: read)

/-- What is done with the field of the plane 0 block: the field behind it is
looked at for the plane 1 block. -/
def getPair (pstBMF : Nat → BmlBMF) (nSbn pBMF : Nat) (pstDie : BmlDieCxt) : BmlDieCxt :=
  let pstDie := { pstDie with nCurPbn0 := (pstBMF pBMF).nRbn }
  let e := pstBMF (pBMF + 1)
  if e.nSbn.toNat = nSbn + 1 then
    let pstDie := { pstDie with nCurPbn1 := e.nRbn }
    if pstDie.nCurPbn0.toNat + 1 ≠ e.nRbn.toNat ∨ e.nRbn.toNat % 2 = 0 then
      { pstDie with nNumOfLLDOp := 1 }
    else pstDie
  else { pstDie with nNumOfLLDOp := 1 }

def getTwoPlane (pstBMF : Nat → BmlBMF) (nSbn : Nat) : Nat → Nat → BmlDieCxt → BmlDieCxt × List Nat
  | 0, _, pstDie => (pstDie, [])
  | left + 1, pBMF, pstDie =>
    let e := pstBMF pBMF
    if e.nSbn.toNat = nSbn ∨ e.nSbn.toNat = nSbn + 1 then
      if e.nSbn.toNat % 2 = 1 then
        ({ pstDie with nCurPbn1 := e.nRbn, nNumOfLLDOp := 1 }, [pBMF])
      else (getPair pstBMF nSbn pBMF pstDie, [pBMF, pBMF + 1])
    else
      let (pstDie, read) := getTwoPlane pstBMF nSbn left (pBMF + 1) pstDie
      (pstDie, pBMF :: read)

def getPBN (nSbn : Nat) (pstVol : BmlVolCxt) (pstRsv : BmlReservoir) (pstDie : BmlDieCxt) :
    BmlDieCxt × List Nat :=
  let u := pstRsv.pBUMap ((nSbn &&& (pstVol.nNumOfBlksInDie - 1)) >>> bmlSftBlksPerBadunit)
  if 0 < u.nNumOfBMFs then
    if pstVol.nNumOfPlane = 1 then getOnePlane pstRsv.pstBMF nSbn u.nNumOfBMFs u.n1stBMFIdx pstDie
    else getTwoPlane pstRsv.pstBMF nSbn u.nNumOfBMFs u.n1stBMFIdx pstDie
  else (pstDie, [])

/-- What the callers do before an access: start from the identity, translate. -/
def identity (nSbn : UInt16) : BmlDieCxt := ⟨nSbn, nSbn + 1, 0⟩

def translateSbn (pstVol : BmlVolCxt) (pstRsv : BmlReservoir) (nDieIdx : Nat) (nSbn : UInt16) :
    BmlDieCxt × List Nat :=
  getPBN nSbn.toNat pstVol (reconstructBUMap pstVol (sortBMI pstRsv) nDieIdx) (identity nSbn)

end VDLinux.Tfsr.BlockMap
