import VDLinux.Base.Halting
import VDLinux.Base.Scan

namespace VDLinux.Lib

open Base.Halting Base.Scan

/-- `struct idr_layer`, with `β` for what its slots point to. -/
structure LayerOf (β : Type) where
  bitmap : ℕ
  ary : ℕ → β
  count : ℤ
  layer : ℕ

inductive Slot (α : Type) where
  | null
  | user (ptr : α)
  | sub (p : LayerOf (Slot α))

abbrev Layer (α : Type) := LayerOf (Slot α)

structure Idr (α : Type) where
  top : Option (Layer α)
  idFree : List (Layer α)
  layers : ℕ

variable {α : Type}

namespace Slot

def isNull : Slot α → Bool
  | null => true
  | _ => false

/-- A pointer of the user, which may be `NULL`. -/
def ofPtr : Option α → Slot α
  | none => null
  | some ptr => user ptr

end Slot

def idrInit : Idr α := ⟨none, [], 0⟩

section Constants

variable (bits : ℕ)

def idrSize : ℕ := 1 <<< bits

def idrMask : ℕ := 1 <<< bits - 1

def idrFull : ℕ := 1 <<< idrSize bits - 1

def maxIdShift : ℕ := 31

def maxIdBit : ℕ := 1 <<< maxIdShift

def maxIdMask : ℕ := maxIdBit - 1

def maxLevel : ℕ := (maxIdShift + bits - 1) / bits

def idrFreeMax : ℕ := maxLevel bits + maxLevel bits

end Constants

/-- An `int`, given by its 32 bits, is at least `bound`. -/
def atLeast (id bound : ℕ) : Bool := id < 2 ^ 31 && bound ≤ id

namespace LayerOf

def zero : Layer α := ⟨0, fun _ => .null, 0, 0⟩

def setBit (p : Layer α) (i : ℕ) : Layer α := { p with bitmap := p.bitmap ||| 1 <<< i }

def clearBit (p : Layer α) (i : ℕ) : Layer α := { p with bitmap := Nat.ldiff p.bitmap (1 <<< i) }

def setAry (p : Layer α) (i : ℕ) (s : Slot α) : Layer α :=
  { p with ary := Function.update p.ary i s }

end LayerOf

/-- The layers above the current one, each with the slot that leads down. -/
abbrev Above (α : Type) := List (Layer α × ℕ)

def rebuild : Layer α → Above α → Layer α
  | p, [] => p
  | p, (q, slot) :: above => rebuild (q.setAry slot (.sub p)) above

def getFromFreeList : List (Layer α) → Option (Layer α × List (Layer α))
  | [] => none
  | p :: free => some (p.setAry 0 .null, free)

/-- The loop of `idr_pre_get`, while `available` layers can still be allocated. -/
def preGetLoop (bits : ℕ) : ℕ → ℕ → List (Layer α) → List (Layer α) × Bool
  | 0, _, free => (free, true)
  | rounds + 1, available, free =>
    if free.length < idrFreeMax bits then
      match available with
      | 0 => (free, false)
      | available + 1 => preGetLoop bits rounds available (.zero :: free)
    else (free, true)

def idrPreGet (bits : ℕ) (idp : Idr α) (available : ℕ) : Idr α × Bool :=
  let (free, done) := preGetLoop bits (idrFreeMax bits) available idp.idFree
  ({ idp with idFree := free }, done)

section Alloc

variable (bits : ℕ)

/-- The locals of `sub_alloc`: `p` is at the layer `l`, and `above` is `pa` from `l + 1` on. -/
structure Walk (α : Type) where
  free : List (Layer α)
  p : Layer α
  above : Above α
  l : ℕ
  id : ℕ

def Walk.top (w : Walk α) : Layer α := rebuild w.p w.above

inductive SubAlloc (α : Type) where
  | found (w : Walk α)
  | needToGrow (top : Layer α) (free : List (Layer α)) (id : ℕ)
  | noMoreSpace (top : Layer α) (free : List (Layer α))
  | noMemory (top : Layer α) (free : List (Layer α))
  | bug

def digit (id l : ℕ) : ℕ := id >>> (bits * l) &&& idrMask bits

def findNextZero (bitmap start : ℕ) : ℕ :=
  scan (fun i => !bitmap.testBit i) (idrSize bits) start

/-- No space under `p`: go back to the layer above. -/
def goUp (layers : ℕ) (w : Walk α) : Except (SubAlloc α) (Walk α) :=
  let l := w.l + 1
  let id := ((w.id ||| (1 <<< (bits * l) - 1)) + 1) % 2 ^ 32
  if atLeast id (1 <<< (layers * bits)) then .error (.needToGrow w.top w.free id)
  else match w.above with
    | [] => .error .bug
    | (q, slot) :: above =>
      let sh := bits * (l + 1)
      if w.id >>> sh = id >>> sh then .ok ⟨w.free, q.setAry slot (.sub w.p), above, l, id⟩
      else .ok ⟨w.free, w.top, [], layers - 1, id⟩

/-- Space in the slot `m`: take it, or go to the layer below, which is made if it is missing. -/
def goDown (w : Walk α) (m id : ℕ) : Except (SubAlloc α) (Walk α) :=
  match w.l with
  | 0 => .error (.found { w with id := id })
  | l + 1 =>
    match w.p.ary m with
    | .sub q => .ok ⟨w.free, q, (w.p, m) :: w.above, l, id⟩
    | .user _ => .error .bug
    | .null =>
      match getFromFreeList w.free with
      | none => .error (.noMemory w.top w.free)
      | some (new, free) =>
        let new := { new with layer := l }
        let p := { w.p.setAry m (.sub new) with count := w.p.count + 1 }
        .ok ⟨free, new, (p, m) :: w.above, l, id⟩

def subAllocStep (layers : ℕ) (w : Walk α) : Except (SubAlloc α) (Walk α) :=
  let n := digit bits w.id w.l
  let m := findNextZero bits w.p.bitmap n
  if m = idrSize bits then goUp bits layers w
  else
    let sh := bits * w.l
    let id := if m ≠ n then (w.id >>> sh ^^^ n ^^^ m) <<< sh else w.id
    if maxIdBit ≤ id then .error (.noMoreSpace w.top w.free) else goDown w m id

/-- More than the steps of any run that ends. -/
def loopFuel : ℕ := 2 ^ 40

def subAlloc (layers : ℕ) (top : Layer α) (free : List (Layer α)) (id : ℕ) : Option (SubAlloc α) :=
  runFor (subAllocStep bits layers) loopFuel ⟨free, top, [], layers - 1, id⟩

/-- The layers built so far go back to the free list. -/
def tearDown : ℕ → Layer α → List (Layer α) → Layer α × List (Layer α)
  | 0, p, free => (p, free)
  | built + 1, p, free =>
    match p.ary 0 with
    | .sub q => tearDown built q ({ p.setAry 0 .null with bitmap := 0, count := 0 } :: free)
    | _ => (p, free)

inductive Grown (α : Type) where
  | ready (top : Layer α) (free : List (Layer α)) (layers : ℕ)
  | noMemory (top : Layer α) (free : List (Layer α))

/-- The loop that puts layers on the top while `id` is outside the tree. -/
def growLoop (id : ℕ) : ℕ → ℕ → Layer α → List (Layer α) → ℕ → Grown α
  | 0, _, p, free, layers => .ready p free layers
  | rounds + 1, built, p, free, layers =>
    if atLeast id (1 <<< (layers * bits)) then
      if p.count = 0 then growLoop id rounds built { p with layer := p.layer + 1 } free (layers + 1)
      else
        match getFromFreeList free with
        | none =>
          let (p, free) := tearDown built p free
          .noMemory p free
        | some (new, free) =>
          let new := { new.setAry 0 (.sub p) with count := 1, layer := layers }
          let new := if p.bitmap = idrFull bits then new.setBit 0 else new
          growLoop id rounds (built + 1) new free (layers + 1)
    else .ready p free layers

/-- The top of the tree before it grows: a new layer if there is none. -/
def firstLayer (idp : Idr α) : Option (Layer α × List (Layer α) × ℕ) :=
  match idp.top with
  | some p => some (p, idp.idFree, idp.layers)
  | none =>
    match getFromFreeList idp.idFree with
    | none => none
    | some (p, free) => some ({ p with layer := 0 }, free, 1)

/-- What `idr_get_empty_slot` returns: the slot found with the tree around it, or an error code. -/
inductive EmptySlot (α : Type) where
  | found (w : Walk α) (layers : ℕ)
  | noMemory (idp : Idr α)
  | noMoreSpace (idp : Idr α)
  | bug

/-- One round from `build_up` on. -/
def buildUp (s : Idr α × ℕ) : Except (EmptySlot α) (Idr α × ℕ) :=
  let (idp, id) := s
  match firstLayer idp with
  | none => .error (.noMemory idp)
  | some (p, free, layers) =>
    match growLoop bits id (maxLevel bits - 1 - layers) 0 p free layers with
    | .noMemory p free => .error (.noMemory { idp with top := idp.top.map fun _ => p, idFree := free })
    | .ready top free layers =>
      match subAlloc bits layers top free id with
      | some (.found w) => .error (.found w layers)
      | some (.needToGrow top free id) => .ok (⟨some top, free, layers⟩, id)
      | some (.noMoreSpace top free) => .error (.noMoreSpace ⟨some top, free, layers⟩)
      | some (.noMemory top free) => .error (.noMemory ⟨some top, free, layers⟩)
      | some .bug => .error .bug
      | none => .error .bug

def idrGetEmptySlot (idp : Idr α) (startingId : ℕ) : Option (EmptySlot α) :=
  runFor (buildUp bits) loopFuel (idp, startingId)

/-- The top of the tree after the slot of `id` is marked, and with it every layer that it fills. -/
def idrMarkFull : Layer α → Above α → ℕ → Layer α
  | p, [], id => p.setBit (id &&& idrMask bits)
  | p, (q, slot) :: above, id =>
    let p := p.setBit (id &&& idrMask bits)
    if p.bitmap = idrFull bits then idrMarkFull (q.setAry slot (.sub p)) above (id >>> bits)
    else rebuild p ((q, slot) :: above)

inductive GetNew where
  | ok (id : ℕ)
  | eagain
  | enospc
  | bug
  deriving DecidableEq

def idrGetNewAbove (idp : Idr α) (ptr : Option α) (startingId : ℕ) : Idr α × GetNew :=
  match idrGetEmptySlot bits idp startingId with
  | some (.found w layers) =>
    let p := { w.p.setAry (w.id &&& idrMask bits) (.ofPtr ptr) with count := w.p.count + 1 }
    (⟨some (idrMarkFull bits p w.above w.id), w.free, layers⟩, .ok w.id)
  | some (.noMemory idp) => (idp, .eagain)
  | some (.noMoreSpace idp) => (idp, .enospc)
  | some .bug => (idp, .bug)
  | none => (idp, .bug)

end Alloc

section Remove

variable (bits : ℕ)

/-- The way down of `sub_remove` from the layer `l`; on the way the bits of the slots are cleared. -/
def removeDown (id : ℕ) : ℕ → Layer α → Above α → Layer α × Above α × Bool
  | 0, p, above => (p, above, true)
  | l + 1, p, above =>
    let n := digit bits id (l + 1)
    let p := p.clearBit n
    match p.ary n with
    | .sub q => removeDown id l q ((p, n) :: above)
    | _ => (p, above, false)

/-- The way up of `sub_remove`: a layer whose count drops to zero is unlinked. -/
def dropCounts : Layer α → Above α → Option (Layer α)
  | p, [] =>
    let p := { p with count := p.count - 1 }
    if p.count = 0 then none else some p
  | p, (q, slot) :: above =>
    let p := { p with count := p.count - 1 }
    if p.count = 0 then dropCounts (q.setAry slot .null) above
    else some (rebuild p ((q, slot) :: above))

def subRemove (idp : Idr α) (id : ℕ) : Idr α :=
  match idp.top with
  | none => idp
  | some top =>
    let (p, above, reached) := removeDown bits id (idp.layers - 1) top []
    let n := id &&& idrMask bits
    if reached && p.bitmap.testBit n then
      match dropCounts ((p.clearBit n).setAry n .null) above with
      | none => { idp with top := none, layers := 0 }
      | some top => { idp with top := some top }
    else { idp with top := some (rebuild p above) }

/-- A single child in the first slot takes the place of the top. -/
def shrinkTop (idp : Idr α) : Idr α :=
  match idp.top with
  | none => idp
  | some top =>
    match top.ary 0 with
    | .sub p =>
      if top.count = 1 ∧ 1 < idp.layers then { idp with top := some p, layers := idp.layers - 1 }
      else idp
    | _ => idp

def trimFree : List (Layer α) → List (Layer α)
  | [] => []
  | p :: free => if idrFreeMax bits ≤ (p :: free).length then trimFree free else p :: free

def idrRemove (idp : Idr α) (id : ℕ) : Idr α :=
  let idp := shrinkTop (subRemove bits idp (id &&& maxIdMask))
  { idp with idFree := trimFree bits idp.idFree }

end Remove

section Lookup

variable (bits : ℕ)

/-- The loop of `idr_find`; without a result where `BUG_ON` is hit. -/
def findLoop (id : ℕ) : ℕ → Slot α → Option (Slot α)
  | 0, p => some p
  | _ + 1, .null => some .null
  | _ + 1, .user _ => none
  | n + 1, .sub p => if n = p.layer then findLoop id n (p.ary (digit bits id n)) else none

def idrFind (idp : Idr α) (id : ℕ) : Option (Slot α) :=
  match idp.top with
  | none => some .null
  | some p =>
    let id := id &&& maxIdMask
    if 1 <<< ((p.layer + 1) * bits) ≤ id then some .null
    else findLoop bits id (p.layer + 1) (.sub p)

/-- The descent of `idr_replace` from the layer `l`, with the old pointer. -/
def replaceAt (ptr : Option α) (id : ℕ) : ℕ → Layer α → Option (Slot α × Layer α)
  | 0, p =>
    let n := id &&& idrMask bits
    if p.bitmap.testBit n then some (p.ary n, p.setAry n (.ofPtr ptr)) else none
  | l + 1, p =>
    let n := digit bits id (l + 1)
    match p.ary n with
    | .sub q => (replaceAt ptr id l q).map fun r => (r.1, p.setAry n (.sub r.2))
    | _ => none

inductive Replace (α : Type) where
  | ok (old : Slot α)
  | einval
  | enoent

def idrReplace (idp : Idr α) (ptr : Option α) (id : ℕ) : Idr α × Replace α :=
  match idp.top with
  | none => (idp, .einval)
  | some p =>
    let id := id &&& maxIdMask
    if 1 <<< ((p.layer + 1) * bits) ≤ id then (idp, .einval)
    else
      match replaceAt bits ptr id p.layer p with
      | none => (idp, .enoent)
      | some (old, p) => ({ idp with top := some p }, .ok old)

end Lookup

end VDLinux.Lib
