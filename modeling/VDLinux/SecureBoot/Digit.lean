import VDLinux.Base.Words

namespace VDLinux.SecureBoot.Digit

/-- The ways a run leaves the defined behaviour of the source: an array index outside its array, a
null pointer, a shift by the whole word, a loop that is never left. -/
inductive Fault
  | outOfBounds
  | nullPointer
  | wideShift
  | noReturn
  deriving DecidableEq, Repr

abbrev Checked := Except Fault

def digitAt (ds : List UInt32) (i : ℕ) : Checked UInt32 :=
  match ds[i]? with
  | some d => .ok d
  | none => .error .outOfBounds

def digitMul (src1 src2 : UInt32) : UInt32 × UInt32 :=
  let product := src1.toUInt64 * src2.toUInt64
  (product.toUInt32, (product >>> 32).toUInt32)

def hl (a : UInt32) : UInt32 := (a >>> 16) &&& 0xffff

def ll (a : UInt32) : UInt32 := a &&& 0xffff

def lh (a : UInt32) : UInt32 := (a &&& 0xffff) <<< 16

/-- The loop that corrects an estimated half quotient. Its counter stands for an unbounded `while`. -/
def digitDivCorrect (div : UInt32) : ℕ → UInt32 → UInt32 → UInt32 → Checked (UInt32 × UInt32)
  | 0, _, _, _ => .error .noReturn
  | n + 1, dx, dr, dq =>
    if 0 < dx ∨ dx = 0 ∧ div ≤ dr then
      let dr' := dr - div
      digitDivCorrect div n (if ~~~div < dr' then dx - 1 else dx) dr' (dq + 1)
    else .ok (dq, dr)

/-- One of the two halves of `SDRM_DIGIT_Div`: divides `src1 * 2 ^ 16 + half`. -/
def digitDivHalf (src1 half div : UInt32) : Checked (UInt32 × UInt32) :=
  let dq := src1 / (hl div + 1)
  let dr := src1 - hl div * dq
  let dx := hl dr
  let dy := lh dr + half
  let dr := dy - ll div * dq
  digitDivCorrect div (2 ^ 64) (if dy < dr then dx - 1 else dx) dr dq

def digitDiv (src1 src2 div : UInt32) : Checked UInt32 := do
  let (dt, dr) ← digitDivHalf src1 (hl src2) div
  let (dq, _) ← digitDivHalf dr (ll src2) div
  return lh dt + dq

def cmpDigits : List (UInt32 × UInt32) → Ordering
  | [] => .eq
  | (a, b) :: rest => if a = b then cmpDigits rest else if b < a then .gt else .lt

/-- The longer array decides if one of its excess digits is set, otherwise the common digits do, from
the top. -/
def dwdCmp (src1 src2 : List UInt32) : Ordering :=
  if src2.length ≤ src1.length then
    if (src1.drop src2.length).any (· ≠ 0) then .gt
    else cmpDigits ((src1.take src2.length).zip src2).reverse
  else
    if (src2.drop src1.length).any (· ≠ 0) then .lt
    else cmpDigits (src1.zip (src2.take src1.length)).reverse

def shlDigits (t prev : UInt32) : List UInt32 → List UInt32
  | [] => []
  | d :: ds => (d <<< t ^^^ prev >>> (32 - t)) :: shlDigits t d ds

def dwdShl (src : List UInt32) (t : UInt32) : Checked (List UInt32 × UInt32) :=
  if 32 ≤ t then .error .wideShift
  else match src.getLast? with
    | none => .error .outOfBounds
    | some top => .ok (shlDigits t 0 src, top >>> (32 - t))

def shrDigits (t : UInt32) : List UInt32 → List UInt32
  | [] => []
  | [d] => [d >>> t]
  | d :: e :: ds => (d >>> t ^^^ e <<< (32 - t)) :: shrDigits t (e :: ds)

def dwdShr (src : List UInt32) (t : UInt32) : Checked (List UInt32 × UInt32) :=
  if 32 ≤ t then .error .wideShift
  else match src with
    | [] => .error .outOfBounds
    | d :: ds => .ok (shrDigits t (d :: ds), d <<< (32 - t))

/-- Increments the first `n` digits as one number; the flag tells that all of them wrapped. -/
def incDigits : ℕ → List UInt32 → Checked (List UInt32 × Bool)
  | 0, ds => .ok (ds, true)
  | _ + 1, [] => .error .outOfBounds
  | n + 1, d :: ds =>
    if d + 1 ≠ 0 then .ok ((d + 1) :: ds, false)
    else do
      let (rest, wrapped) ← incDigits n ds
      return ((d + 1) :: rest, wrapped)

def decDigits : ℕ → List UInt32 → Checked (List UInt32 × Bool)
  | 0, ds => .ok (ds, true)
  | _ + 1, [] => .error .outOfBounds
  | n + 1, d :: ds =>
    if d ≠ 0 then .ok ((d - 1) :: ds, false)
    else do
      let (rest, wrapped) ← decDigits n ds
      return ((d - 1) :: rest, wrapped)

def addDigit (a s carry : UInt32) : UInt32 × UInt32 :=
  if s = -1 ∧ carry ≠ 0 then (a, carry)
  else
    let dTemp := s + carry
    (a + dTemp, if a + dTemp < dTemp then 1 else 0)

def subDigit (a s carry : UInt32) : UInt32 × UInt32 :=
  if s + carry = 0 then (a, carry)
  else
    let dTemp := s + carry
    (a - dTemp, if ~~~dTemp < a - dTemp then 1 else 0)

def mulAddDigit (m a s carry : UInt32) : UInt32 × UInt32 :=
  let (low, high) := digitMul m s
  let dTemp := carry + low
  let high := if dTemp < low then high + 1 else high
  let a := a + dTemp
  (a, if a < dTemp then high + 1 else high)

def mulSubDigit (m a s carry : UInt32) : UInt32 × UInt32 :=
  let (low, high) := digitMul m s
  let dTemp := carry + low
  let high := if dTemp < low then high + 1 else high
  (a - dTemp, if a < dTemp then high + 1 else high)

/-- Runs one of the digit operations above over pairs of digits, lowest first. -/
def chain (f : UInt32 → UInt32 → UInt32 → UInt32 × UInt32) (carry : UInt32) :
    List (UInt32 × UInt32) → List UInt32 × UInt32
  | [] => ([], carry)
  | (a, s) :: rest =>
    let (d, carry) := f a s carry
    let (ds, out) := chain f carry rest
    (d :: ds, out)

def dwdAdd (src1 src2 : List UInt32) : Checked (List UInt32 × UInt32) :=
  if src1.length < src2.length then .error .outOfBounds
  else
    let (low, carry) := chain addDigit 0 (src1.zip src2)
    let high := src1.drop src2.length
    if carry = 0 then .ok (low ++ high, 0)
    else do
      let (high, wrapped) ← incDigits high.length high
      return (low ++ high, if wrapped then 1 else 0)

def dwdSub (src1 src2 : List UInt32) : Checked (List UInt32 × UInt32) :=
  if src1.length < src2.length then .error .outOfBounds
  else
    let (low, carry) := chain subDigit 0 (src1.zip src2)
    let high := src1.drop src2.length
    if carry = 0 then .ok (low ++ high, 0)
    else do
      let (high, wrapped) ← decDigits high.length high
      return (low ++ high, if wrapped then -1 else 0)

/-- `dest` is the array from the destination pointer on, of which the caller owns `dDstLen` digits:
a source longer than `dDstLen` is still added in full, and its carry goes to the digit after it. -/
def dwdMulAdd (dest : List UInt32) (dDstLen : ℕ) (src : List UInt32) (m : UInt32) :
    Checked (List UInt32 × UInt32) :=
  if dest.length < src.length then .error .outOfBounds
  else
    let (low, dTemp) := chain (mulAddDigit m) 0 (dest.zip src)
    if src.length = dDstLen then .ok (low ++ dest.drop src.length, dTemp)
    else match dest.drop src.length with
      | [] => .error .outOfBounds
      | top :: rest =>
        if dTemp ≤ top + dTemp then .ok (low ++ (top + dTemp) :: rest, 0)
        else do
          let (rest, wrapped) ← incDigits (dDstLen - src.length - 1) rest
          return (low ++ (top + dTemp) :: rest, if wrapped then 1 else 0)

def dwdMulSub (dest : List UInt32) (dDstLen : ℕ) (src : List UInt32) (m : UInt32) :
    Checked (List UInt32 × UInt32) :=
  if dest.length < src.length then .error .outOfBounds
  else
    let (low, dTemp) := chain (mulSubDigit m) 0 (dest.zip src)
    if src.length = dDstLen then .ok (low ++ dest.drop src.length, dTemp)
    else match dest.drop src.length with
      | [] => .error .outOfBounds
      | top :: rest =>
        if dTemp ≤ top then .ok (low ++ (top - dTemp) :: rest, 0)
        else do
          let (rest, wrapped) ← decDigits (dDstLen - src.length - 1) rest
          return (low ++ (top - dTemp) :: rest, if wrapped then 1 else 0)

/-- The rows of the schoolbook product; the destination pointer advances by one digit a row. -/
def mulRows (src1 : List UInt32) : List UInt32 → List UInt32 → List UInt32
  | dest, [] => dest
  | dest, m :: ms =>
    let (low, dTemp) := chain (mulAddDigit m) 0 (dest.zip src1)
    let dest := low ++ dTemp :: dest.drop (src1.length + 1)
    dest.take 1 ++ mulRows src1 (dest.drop 1) ms

def dwdMul (dest src1 src2 : List UInt32) : Checked (List UInt32) :=
  let len := src1.length + src2.length
  if dest.length < len then .error .outOfBounds
  else .ok (mulRows src1 (List.replicate len 0 ++ dest.drop len) src2)

/-- How many of the bits below bit `i` are clear above the highest set one. -/
def clearBits (d : UInt32) : ℕ → ℕ
  | 0 => 0
  | i + 1 => if (d >>> i.toUInt32) &&& 1 = 1 then 0 else clearBits d i + 1

/-- The shift that moves the highest set bit of the divisor's top digit to bit 31; a zero top digit
makes it as wide as the word. -/
def normShift (v : List UInt32) : Checked UInt32 := do
  let top ← digitAt v (v.length - 1)
  return (clearBits top 32).toUInt32

def quotientEstimate (v C : List UInt32) (i : ℕ) : Checked UInt32 := do
  let hi ← digitAt C (v.length + i)
  let top ← digitAt v (v.length - 1)
  if hi = top then return -1
  let lo ← digitAt C (v.length + i - 1)
  digitDiv hi lo top

/-- Takes `q` times the divisor off the window at offset `i`; at most two additions undo an estimate
that was too high. -/
def subtractMultiple (v C : List UInt32) (i : ℕ) (q : UInt32) : Checked (List UInt32 × UInt32) := do
  let n := v.length
  let (w, borrow) ← dwdMulSub (C.drop i) (n + 1) v q
  if borrow = 0 then return (C.take i ++ w, q)
  let (w', carry) ← dwdAdd (w.take (n + 1)) v
  if carry ≠ 0 then return (C.take i ++ (w' ++ w.drop (n + 1)), q - 1)
  let (w'', _) ← dwdAdd w' v
  return (C.take i ++ (w'' ++ w.drop (n + 1)), q - 1 - 1)

def quotientStep (v C : List UInt32) (i : ℕ) : Checked (List UInt32 × UInt32) := do
  let q ← quotientEstimate v C i
  subtractMultiple v C i q

def quotientLoop (v : List UInt32) : ℕ → List UInt32 → Checked (List UInt32 × List UInt32)
  | 0, C => .ok (C, [])
  | i + 1, C => do
    let (C, q) ← quotientStep v C i
    let (C, qs) ← quotientLoop v i C
    return (C, qs ++ [q])

def normalise (t : UInt32) (ds : List UInt32) : Checked (List UInt32) :=
  if t = 0 then .ok ds else return (← dwdShl ds t).1

def denormalise (t : UInt32) (ds : List UInt32) : Checked (List UInt32) :=
  if t = 0 then .ok ds else return (← dwdShr ds t).1

/-- The loop between the two shifts, which leave the top bit of the divisor set. The divisor is
shifted in place and back, so it leaves as it came. -/
def normalisedDivide (t : UInt32) (C v : List UInt32) : Checked (List UInt32 × List UInt32) := do
  let C' ← normalise t C
  let v' ← normalise t v
  let (C'', qs) ← quotientLoop v' (C.length - v.length) C'
  let rem ← denormalise t (C''.take v.length)
  return (rem, qs)

/-- `SDRM_DWD_Div` on its working array, which is the dividend with a zero digit on top. -/
def dwdDivide (src1 src2 : List UInt32) : Checked (List UInt32 × List UInt32) := do
  let t ← normShift src2
  if src1.length + 1 < src2.length then throw .outOfBounds
  normalisedDivide t (src1 ++ [0]) src2

def classicalRedc (dest modulus : List UInt32) : Checked (List UInt32) := do
  if dest.length < modulus.length then return dest
  let top ← digitAt modulus (modulus.length - 1)
  let high ← digitAt dest (dest.length - 1)
  let t ← normShift modulus
  let (rem, _) ← normalisedDivide t (if top ≤ high then dest ++ [0] else dest) modulus
  return rem

end VDLinux.SecureBoot.Digit
