import VDLinux.SecureBoot.Digit

namespace VDLinux.SecureBoot

open Digit

inductive CryptoRe
  | success
  | error
  | memoryAllocFail
  | nullPointer
  | msgTooLong
  | invalidSign
  | inverseNotExist
  | negativeInput
  deriving DecidableEq, Repr

/-- `SDRM_BIG_NUM`: `Size` is the length of the digit array, of which the first `length` are valid.
Nothing in the source keeps `length` within the array. -/
structure BigNum where
  sign : Bool
  length : ℕ
  pData : List UInt32
  deriving DecidableEq, Repr

def BigNum.size (x : BigNum) : ℕ := x.pData.length

/-- What the routines share: the answers `kmalloc` has yet to give, and whether some copy has been
refused because its destination was too small. -/
structure World where
  answers : ℕ → Bool
  tooSmall : Bool

abbrev Run := StateT World Checked

def kmalloc : Run Bool := fun w =>
  .ok (w.answers 0, { w with answers := fun i => w.answers (i + 1) })

def bnZero : BigNum := ⟨false, 1, [0, 0]⟩

def bnOne : BigNum := ⟨false, 1, [1, 0]⟩

def BigNum.digits (x : BigNum) : Checked (List UInt32) :=
  if x.length ≤ x.size then .ok (x.pData.take x.length) else .error .outOfBounds

/-- The valid digits and those behind them, at least `n` in all. -/
def BigNum.digitsTo (x : BigNum) (n : ℕ) : Checked (List UInt32) :=
  if max x.length n ≤ x.size then .ok (x.pData.take (max x.length n)) else .error .outOfBounds

/-- Overwrites the first digits of the array; the others keep what they held. -/
def BigNum.store (x : BigNum) (ds : List UInt32) : Checked BigNum :=
  if ds.length ≤ x.size then .ok { x with pData := ds ++ x.pData.drop ds.length }
  else .error .outOfBounds

def BigNum.push (x : BigNum) (d : UInt32) : Checked BigNum :=
  if x.length < x.size then .ok { x with length := x.length + 1, pData := x.pData.set x.length d }
  else .error .outOfBounds

def optimizeLength (x : BigNum) : Checked BigNum := do
  let ds ← x.digits
  return { x with length := (ds.rdropWhile (· = 0)).length }

def bnAlloc (dSize : ℕ) : BigNum := ⟨false, 0, List.replicate dSize 0⟩

def bnInit (dSize : ℕ) : Run (Option BigNum) := do
  if ← kmalloc then return some (bnAlloc dSize) else return none

def bnClr (x : BigNum) : BigNum := bnAlloc x.size

/-- No caller reads the code of a copy, so a refusal shows in the shared state only. -/
def bnCopy (dst src : BigNum) : Run BigNum := do
  if dst.size < src.length then
    modify fun w => { w with tooSmall := true }
    return dst
  let ds ← src.digits
  let dst ← dst.store ds
  return { dst with sign := src.sign, length := src.length }

def bnCmp (src1 src2 : BigNum) : Checked Ordering := do
  let ds1 ← src1.digits
  let ds2 ← src2.digits
  if src2.length ≤ src1.length then return dwdCmp ds1 ds2 else return (dwdCmp ds2 ds1).swap

def shlBits (dst src : BigNum) (t : ℕ) : Checked BigNum :=
  if t = 0 then .ok dst
  else do
    let ds ← src.digits
    let (rs, carry) ← dwdShl ds t.toUInt32
    let dst ← dst.store rs
    let dst := { dst with length := src.length }
    if carry = 0 then return dst else dst.push carry

/-- The shift of `SDRM_BN_SHL` by whole words, which starts from the source again. -/
def shlWords (dst src : BigNum) (t : ℕ) : Checked BigNum :=
  if t = 0 then .ok dst
  else do
    let ds ← src.digits
    let dst ← dst.store (List.replicate t 0 ++ ds)
    return { dst with length := src.length + t }

def bnShl (inPlace : Bool) (dst src : BigNum) (numOfShift : ℕ) : Run BigNum := do
  if src.length = 0 then bnCopy dst bnZero
  else
    let dst ← shlBits { dst with sign := src.sign } src (numOfShift % 32)
    let dst ← shlWords dst (if inPlace then dst else src) (numOfShift / 32)
    optimizeLength dst

def shrBits (dst : BigNum) (t : ℕ) : Checked BigNum :=
  if t = 0 then .ok dst
  else do
    let ds ← dst.digits
    let (rs, _) ← dwdShr ds t.toUInt32
    dst.store rs

def bnShr (dst src : BigNum) (numOfShift : ℕ) : Run BigNum := do
  let t := numOfShift / 32
  if src.length = 0 then bnCopy dst src
  else if t = 0 then
    let dst ← bnCopy dst src
    let dst ← shrBits dst (numOfShift % 32)
    optimizeLength dst
  else if src.length ≤ t then bnCopy dst bnZero
  else
    let ds ← src.digits
    let dst ← dst.store (ds.drop t)
    let dst ← optimizeLength { dst with sign := src.sign, length := src.length - t }
    let dst ← shrBits dst (numOfShift % 32)
    optimizeLength dst

/-- A difference of magnitudes into `dst`. The larger number may have the shorter array: its digits are
read as far as those of the smaller one go. -/
def subInto (dst larger smaller : BigNum) (sign : Bool) : Checked BigNum := do
  let (rs, _) ← dwdSub (← larger.digitsTo smaller.length) (← smaller.digits)
  let dst ← dst.store rs
  return { dst with sign := sign, length := larger.length }

def subMagnitudes (dst src1 src2 : BigNum) : Checked BigNum := do
  if (← bnCmp src1 src2) = .lt then subInto dst src2 src1 true else subInto dst src1 src2 false

def longerFirst {α : Type} (f : List UInt32 → List UInt32 → α) (ds1 ds2 : List UInt32) : α :=
  if ds2.length < ds1.length then f ds1 ds2 else f ds2 ds1

def addMagnitudes (dst src1 src2 : BigNum) : Checked BigNum := do
  let ds1 ← src1.digits
  let ds2 ← src2.digits
  let (rs, carry) ← longerFirst dwdAdd ds1 ds2
  let dst ← dst.store rs
  let dst := { dst with length := rs.length }
  if carry = 0 then optimizeLength dst else optimizeLength (← dst.push carry)

def bnAdd (dst src1 src2 : BigNum) : Run BigNum := do
  let dSize := max src1.size src2.size
  if !(← kmalloc) then return dst
  if src1.length = 0 then bnCopy dst src2
  else if src2.length = 0 then bnCopy dst src1
  else
    let temp1 ← bnCopy (bnAlloc dSize) src1
    let temp2 ← bnCopy (bnAlloc dSize) src2
    if temp1.sign ≠ temp2.sign then
      if temp1.sign then subMagnitudes dst temp2 temp1 else subMagnitudes dst temp1 temp2
    else addMagnitudes { dst with sign := temp1.sign } temp1 temp2

def bnSub (dst src1 src2 : BigNum) : Run BigNum := do
  let dSize := max src1.size src2.size
  if !(← kmalloc) then return dst
  let temp1 ← bnCopy (bnAlloc dSize) src1
  let temp2 ← bnCopy (bnAlloc dSize) src2
  if temp1.sign ≠ temp2.sign then
    let dst ← bnAdd dst temp1 temp2
    return { dst with sign := temp1.sign }
  else
    let dst ← subMagnitudes dst (if temp1.sign then temp2 else temp1)
      (if temp1.sign then temp1 else temp2)
    optimizeLength dst

/-- The product in `dst`, whose length is then that of both factors together. -/
def mulMagnitudes (dst src1 src2 : BigNum) : Checked BigNum := do
  let ds1 ← src1.digits
  let ds2 ← src2.digits
  let rs ← longerFirst (dwdMul dst.pData) ds1 ds2
  optimizeLength ⟨src1.sign != src2.sign, src1.length + src2.length, rs⟩

/-- `inPlace` tells that the destination is one of the factors: the product is then formed in a
number of twice the size and copied back. -/
def bnMul (inPlace : Bool) (dst multiplicand multiplier : BigNum) : Run BigNum := do
  if inPlace then
    let some temp ← bnInit (dst.size * 2) | return dst
    if multiplicand.length = 0 ∨ multiplier.length = 0 then return { dst with length := 0 }
    let temp ← mulMagnitudes temp multiplicand multiplier
    bnCopy dst temp
  else if multiplicand.length = 0 ∨ multiplier.length = 0 then
    return { dst with sign := multiplicand.sign != multiplier.sign, length := 0 }
  else mulMagnitudes dst multiplicand multiplier

/-- The quotient and the remainder, or nothing if there is no memory for the working array. -/
def dwdDiv (src1 src2 : List UInt32) : Run (Option (List UInt32 × List UInt32)) := do
  if !(← kmalloc) then return none
  let (rem, qs) ← dwdDivide src1 src2
  return some (rem, qs)

/-- `SDRM_BN_Div` as it is called, without a remainder: a dividend below the divisor leaves the
quotient as it was. -/
def bnDiv (quotient dividend divisor : BigNum) : Run BigNum := do
  let dSize := max quotient.size dividend.size
  if !(← kmalloc) then return quotient
  let temp1 ← bnCopy (bnAlloc dSize) dividend
  let temp2 ← bnCopy (bnAlloc dSize) divisor
  if (← bnCmp temp1 temp2) = .lt then return quotient
  let (_, qs) := (← dwdDiv (← temp1.digits) (← temp2.digits)).getD ([], [])
  let quotient ← quotient.store qs
  let quotient ← optimizeLength { quotient with length := temp1.length - temp2.length + 1 }
  return { quotient with sign := dividend.sign != divisor.sign }

def bnModRed (dst src modulus : BigNum) : Run BigNum := do
  if !(← kmalloc) then return dst
  if (← bnCmp src modulus) = .lt then bnCopy dst src
  else
    let rem ← classicalRedc (← src.digits) (← modulus.digits)
    let dst ← dst.store rem
    optimizeLength { dst with sign := modulus.sign, length := modulus.length }

end VDLinux.SecureBoot
