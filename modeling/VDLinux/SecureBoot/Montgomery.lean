import VDLinux.SecureBoot.BigNum

namespace VDLinux.SecureBoot

open Digit Base.Words

def addLargerFirst (dst src1 src2 : BigNum) : Run BigNum := do
  if (← bnCmp src1 src2) = .lt then bnAdd dst src2 src1 else bnAdd dst src1 src2

/-- One half round of the extended Euclid: `g` becomes its remainder by `h`, and the cofactor `v`
grows by the quotient times the cofactor `u` of `h`. The product may take one digit more than its number
has; the word behind those digits is the sign of the next number, which is cleared before it is used. -/
def euclidStep (dSize : ℕ) (g h v u : BigNum) : Run (BigNum × BigNum) := do
  let (rem, qs) := (← dwdDiv (← g.digits) (← h.digits)).getD ([], [])
  let y ← (bnAlloc dSize).store qs
  let y ← optimizeLength { y with length := g.length }
  let temp1 ← (bnAlloc dSize).store rem
  let g ← bnCopy g { temp1 with length := h.length }
  let g ← optimizeLength g
  let product ← dwdMul (bnAlloc (dSize + 1)).pData (← y.digits) (← u.digits)
  let temp1 ← optimizeLength ⟨false, y.length + u.length, product⟩
  let temp2 ← addLargerFirst (bnAlloc dSize) v { temp1 with pData := temp1.pData.take dSize }
  let v ← bnCopy v temp2
  return (g, v)

/-- The rounds of `SDRM_BN_ModInv`. The counter stands for an unbounded `while`. -/
def modInvLoop (dSize : ℕ) (dest modulus : BigNum) :
    ℕ → BigNum → BigNum → BigNum → BigNum → Run (CryptoRe × BigNum)
  | 0, _, _, _, _ => throw .noReturn
  | n + 1, g0, g1, v0, v1 => do
    if (← bnCmp g1 bnZero) = .eq then
      return (.inverseNotExist, ← bnCopy dest bnZero)
    if (← bnCmp g1 bnOne) = .eq then
      let dest ← bnCopy dest v1
      return (.success, ← optimizeLength dest)
    let (g0, v0) ← euclidStep dSize g0 g1 v0 v1
    if (← bnCmp g0 bnZero) = .eq then
      return (.inverseNotExist, ← bnCopy dest bnZero)
    if (← bnCmp g0 bnOne) = .eq then
      let dest ← bnSub dest modulus v0
      return (.success, ← optimizeLength dest)
    let (g1, v1) ← euclidStep dSize g1 g0 v1 v0
    modInvLoop dSize dest modulus n g0 g1 v0 v1

def bnModInv (dest src modulus : BigNum) : Run (CryptoRe × BigNum) := do
  let dSize := max src.size modulus.size
  if !(← kmalloc) then return (.memoryAllocFail, dest)
  if src.sign then return (.negativeInput, dest)
  let g0 ← bnCopy (bnAlloc dSize) modulus
  let g1 ← bnModRed (bnAlloc dSize) src modulus
  let v0 ← bnCopy (bnAlloc dSize) bnZero
  let v1 ← bnCopy (bnAlloc dSize) bnOne
  modInvLoop dSize (bnClr dest) modulus (val modulus.pData + 1) g0 g1 v0 v1

structure BigMont where
  ri : ℕ
  r : BigNum
  mod : BigNum
  invMod : BigNum
  n0 : UInt32
  deriving DecidableEq, Repr

/-- The structure is not cleared, but nothing reads `N0` before it is set. -/
def montInit (dSize : ℕ) : Run (Option BigMont) := do
  if ← kmalloc then return some ⟨0, bnAlloc dSize, bnAlloc dSize, bnAlloc dSize, 0⟩
  else return none

def uint32NumBits : ℕ → UInt32 → ℕ
  | 0, _ => 0
  | n + 1, temp => if temp = 0 then 0 else uint32NumBits n (temp >>> 1) + 1

def bnNumBits (src : BigNum) : Checked ℕ :=
  if src.length = 0 then .ok 0
  else do
    let top ← digitAt src.pData (src.length - 1)
    return (src.length - 1) * 32 + uint32NumBits 32 top

/-- `N0`, by way of the inverse of the radix modulo the lowest digit of the modulus. The code that
`SDRM_BN_ModInv` returns is not read. -/
def montN0 (dSize : ℕ) (modulus : BigNum) : Run BigNum := do
  let r ← bnShl false (bnAlloc dSize) bnOne 32
  let low ← digitAt modulus.pData 0
  let temp ← (bnAlloc dSize).store [low]
  let temp := { temp with sign := modulus.sign, length := 1 }
  let (_, ri) ← bnModInv (bnAlloc dSize) r temp
  let ri ← bnShl true ri ri 32
  let ri ← bnSub ri ri bnOne
  bnDiv ri ri temp

def montSet (mont : BigMont) (modulus : BigNum) : Run BigMont := do
  if (← bnCmp mont.mod modulus) = .eq then return mont
  if !(← kmalloc) then return mont
  let mod ← bnCopy mont.mod modulus
  let bits ← bnNumBits modulus
  let ri := (bits + 31) / 32 * 32
  let inv ← montN0 modulus.size modulus
  let invMod ← bnCopy mont.invMod inv
  let n0 ← digitAt inv.pData 0
  let r ← bnShl false mont.r bnOne (2 * ri)
  let r ← bnModRed r r mod
  return ⟨ri, r, mod, invMod, n0⟩

/-- One round of the reduction: a multiple of the modulus clears digit `i`. The carry becomes a new
top digit only when it is not zero. -/
def redcStep (modulus : List UInt32) (n0 : UInt32) (i : ℕ) (src1 : BigNum) : Checked BigNum := do
  let d ← digitAt src1.pData i
  let (rest, carry) ← dwdMulAdd (src1.pData.drop i) (src1.length - i) modulus (d * n0)
  let src1 := { src1 with pData := src1.pData.take i ++ rest }
  if carry = 0 then return src1 else src1.push carry

def redcRounds (modulus : List UInt32) (n0 : UInt32) : ℕ → BigNum → Checked BigNum
  | 0, src1 => .ok src1
  | k + 1, src1 => do
    let src1 ← redcRounds modulus n0 k src1
    redcStep modulus n0 k src1

/-- Lengths are 32-bit words, so a length below `ri` wraps. -/
def lengthSub (a b : ℕ) : ℕ := if b ≤ a then a - b else a + 2 ^ 32 - b

def montRzn2zn (dst src : BigNum) (mont : BigMont) : Run BigNum := do
  if src.length = 0 then return { dst with length := 0 }
  let ri := mont.ri / 32
  let modLen := mont.mod.length
  let some src1 ← bnInit (src.size + modLen) | throw .nullPointer
  let src1 ← bnCopy src1 src
  if ri = 0 ∨ modLen = 0 then
    let dst ← dst.store [0]
    return { dst with length := 0 }
  let src1 ← src1.store ((← src1.digits) ++ List.replicate modLen 0)
  let modulus ← mont.mod.digits
  let src1 ← redcRounds modulus mont.n0 modLen
    { src1 with sign := src.sign != mont.mod.sign, length := modLen + src.length }
  let src1 ← optimizeLength src1
  let dst ← bnShr dst src1 (modLen * 32)
  let dst := { dst with length := lengthSub src1.length ri }
  if (← bnCmp dst mont.mod) = .lt then return dst else bnSub dst dst mont.mod

def montMul (inPlace : Bool) (dst src1 src2 : BigNum) (mont : BigMont) : Run BigNum := do
  let dst ← bnMul inPlace dst src1 src2
  montRzn2zn dst dst mont

def montZn2rzn (dst src : BigNum) (mont : BigMont) : Run BigNum :=
  montMul false dst src mont.r mont

def checkBit (x : BigNum) (k : ℕ) : Checked Bool := do
  let d ← digitAt x.pData (k / 32)
  return (d >>> (k % 32).toUInt32) &&& 1 = 1

def modExpLoop (a exponent : BigNum) (mont : BigMont) : ℕ → BigNum → Run BigNum
  | 0, c => return c
  | i + 1, c => do
    let c ← montMul true c c c mont
    if ← checkBit exponent i then
      let c ← montMul true c c a mont
      modExpLoop a exponent mont i c
    else modExpLoop a exponent mont i c

def reduceBase (dSize : ℕ) (base modulus : BigNum) : Run BigNum := do
  if (← bnCmp base modulus) = .lt then return base else bnModRed (bnAlloc dSize) base modulus

def bnModExp (dst base exponent modulus : BigNum) : Run (CryptoRe × BigNum) := do
  let dSize := max base.size (max exponent.size modulus.size)
  if !(← kmalloc) then return (.memoryAllocFail, dst)
  let some mont ← montInit dSize | throw .nullPointer
  let mont ← montSet mont modulus
  let temp ← reduceBase dSize base modulus
  if (← bnCmp temp bnZero) = .eq then return (.success, ← bnCopy dst bnZero)
  let a ← montZn2rzn (bnAlloc dSize) temp mont
  let c ← montZn2rzn (bnAlloc dSize) bnOne mont
  let m ← bnNumBits exponent
  let c ← modExpLoop a exponent mont m c
  return (.success, ← montRzn2zn dst c mont)

end VDLinux.SecureBoot
