import VDLinux.Base.Halting
import VDLinux.Base.SearchTree

namespace VDLinux.Lib.Rbtree

open Base.Halting Base.SearchTree

/-- A node as it lies in memory, the colour in the low bits of the parent's address. -/
structure RbNode where
  rbParentColor : ℕ
  rbRight : ℕ
  rbLeft : ℕ
  deriving DecidableEq

namespace RbNode

variable (n : RbNode)

def rbParent : ℕ := Nat.ldiff n.rbParentColor 3

def rbColor : ℕ := n.rbParentColor &&& 1

def rbIsRed : Bool := n.rbColor = 0

def rbIsBlack : Bool := n.rbColor ≠ 0

def rbSetRed : RbNode := { n with rbParentColor := Nat.ldiff n.rbParentColor 1 }

def rbSetBlack : RbNode := { n with rbParentColor := n.rbParentColor ||| 1 }

def rbSetParent (p : ℕ) : RbNode := { n with rbParentColor := (n.rbParentColor &&& 3) ||| p }

def rbSetColor (color : ℕ) : RbNode := { n with rbParentColor := Nat.ldiff n.rbParentColor 1 ||| color }

def child : Side → ℕ
  | .left => n.rbLeft
  | .right => n.rbRight

def setChild (d : Side) (a : ℕ) : RbNode :=
  match d with
  | .left => { n with rbLeft := a }
  | .right => { n with rbRight := a }

end RbNode

def rbBlack : ℕ := 1

/-- The nodes by their addresses and the root; the address 0 is `NULL`. -/
structure Heap where
  nodes : ℕ → Option RbNode
  rbNode : ℕ

namespace Heap

def set (h : Heap) (a : ℕ) (n : RbNode) : Heap := { h with nodes := Function.update h.nodes a (some n) }

/-- A write through a pointer, which has no result where there is no node. -/
def modify (h : Heap) (a : ℕ) (f : RbNode → RbNode) : Option Heap := do
  let n ← h.nodes a
  some (h.set a (f n))

def nullOrBlack (h : Heap) (a : ℕ) : Option Bool :=
  if a = 0 then some true
  else do
    let n ← h.nodes a
    some n.rbIsBlack

def isRed (h : Heap) (a : ℕ) : Option Bool :=
  if a = 0 then some false
  else do
    let n ← h.nodes a
    some n.rbIsRed

def setParentIf (h : Heap) (a p : ℕ) : Option Heap :=
  if a = 0 then some h else h.modify a (RbNode.rbSetParent · p)

/-- Put `new` where `old` hangs below `parent`, with the side `d` looked at first. -/
def replaceChild (h : Heap) (d : Side) (parent old new : ℕ) : Option Heap :=
  if parent = 0 then some { h with rbNode := new }
  else do
    let p ← h.nodes parent
    if p.child d = old then h.modify parent (RbNode.setChild · d new)
    else h.modify parent (RbNode.setChild · d.flip new)

end Heap

/-- The rotation to the side `d`: the child across takes the place of the node. -/
def rbRotate (d : Side) (h : Heap) (node : ℕ) : Option Heap := do
  let n ← h.nodes node
  let right := n.child d.flip
  let parent := n.rbParent
  let r ← h.nodes right
  let h ← h.modify node (RbNode.setChild · d.flip (r.child d))
  let h ← h.setParentIf (r.child d) node
  let h ← h.modify right (RbNode.setChild · d node)
  let h ← h.modify right (RbNode.rbSetParent · parent)
  let h ← h.replaceChild d parent node right
  h.modify node (RbNode.rbSetParent · right)

def rbRotateLeft : Heap → ℕ → Option Heap := rbRotate .left

def rbRotateRight : Heap → ℕ → Option Heap := rbRotate .right

inductive RbLink where
  | root
  | child (parent : ℕ) (d : Side)

def RbLink.parent : RbLink → ℕ
  | .root => 0
  | .child parent _ => parent

def rbLinkNode (h : Heap) (node : ℕ) (link : RbLink) : Option Heap := do
  let h ← h.modify node fun _ => ⟨link.parent, 0, 0⟩
  match link with
  | .root => some { h with rbNode := node }
  | .child parent d => h.modify parent (RbNode.setChild · d node)

/-- One half of the loop of `rb_insert_color`, for a parent on the side `d` of its own. -/
def insertCase (d : Side) (h : Heap) (node parent gparent : ℕ) : Option (Heap × ℕ) := do
  let g ← h.nodes gparent
  let uncle := g.child d.flip
  if ← h.isRed uncle then
    let h ← h.modify uncle RbNode.rbSetBlack
    let h ← h.modify parent RbNode.rbSetBlack
    let h ← h.modify gparent RbNode.rbSetRed
    some (h, gparent)
  else
    let p ← h.nodes parent
    let (h, parent, node) ←
      if p.child d.flip = node then do
        let h ← rbRotate d h parent
        some (h, node, parent)
      else some (h, parent, node)
    let h ← h.modify parent RbNode.rbSetBlack
    let h ← h.modify gparent RbNode.rbSetRed
    let h ← rbRotate d.flip h gparent
    some (h, node)

/-- The head of the loop and its body; the loop is left without a next state. -/
def insertIter (h : Heap) (node : ℕ) : Option (Option (Heap × ℕ)) := do
  let n ← h.nodes node
  let parent := n.rbParent
  if parent = 0 then some none
  else
    let p ← h.nodes parent
    if p.rbIsRed then
      let gparent := p.rbParent
      let g ← h.nodes gparent
      let s ← insertCase (if parent = g.rbLeft then .left else .right) h node parent gparent
      some (some s)
    else some none

/-- The loop of `rb_insert_color`, stopped at the end or at a fault. -/
def insertStep : Heap × ℕ → Except (Option Heap) (Heap × ℕ)
  | (h, node) =>
    match insertIter h node with
    | none => .error none
    | some none => .error (some h)
    | some (some s) => .ok s

/-- Without a result when the loop does not end in `fuel` rounds; the inner one is that of a fault. -/
def rbInsertColor (fuel : ℕ) (h : Heap) (node : ℕ) : Option (Option Heap) := do
  let r ← runFor insertStep fuel (h, node)
  some do
    let h ← r
    h.modify h.rbNode RbNode.rbSetBlack

structure EraseColor where
  heap : Heap
  node : ℕ
  parent : ℕ

/-- The sibling of the node on the side `d`, after a rotation if it was red. -/
def blackSibling (d : Side) (h : Heap) (parent : ℕ) : Option (Heap × ℕ) := do
  let p ← h.nodes parent
  let other := p.child d.flip
  let o ← h.nodes other
  if o.rbIsRed then
    let h ← h.modify other RbNode.rbSetBlack
    let h ← h.modify parent RbNode.rbSetRed
    let h ← rbRotate d h parent
    let p ← h.nodes parent
    some (h, p.child d.flip)
  else some (h, other)

def redNephew (d : Side) (h : Heap) (parent other : ℕ) : Option (Heap × ℕ) := do
  let o ← h.nodes other
  if ← h.nullOrBlack (o.child d.flip) then
    let h ← h.modify (o.child d) RbNode.rbSetBlack
    let h ← h.modify other RbNode.rbSetRed
    let h ← rbRotate d.flip h other
    let p ← h.nodes parent
    some (h, p.child d.flip)
  else some (h, other)

def eraseRotate (d : Side) (h : Heap) (parent other : ℕ) : Option Heap := do
  let p ← h.nodes parent
  let h ← h.modify other (RbNode.rbSetColor · p.rbColor)
  let h ← h.modify parent RbNode.rbSetBlack
  let o ← h.nodes other
  let h ← h.modify (o.child d.flip) RbNode.rbSetBlack
  rbRotate d h parent

/-- One half of the loop of `__rb_erase_color`, for a node on the side `d`; `true` at its `break`. -/
def eraseCase (d : Side) (h : Heap) (parent : ℕ) : Option (Bool × EraseColor) := do
  let (h, other) ← blackSibling d h parent
  let o ← h.nodes other
  let left ← h.nullOrBlack o.rbLeft
  let both ← if left then h.nullOrBlack o.rbRight else some false
  if both then
    let h ← h.modify other RbNode.rbSetRed
    let n ← h.nodes parent
    some (false, ⟨h, parent, n.rbParent⟩)
  else
    let (h, other) ← redNephew d h parent other
    let h ← eraseRotate d h parent other
    some (true, ⟨h, h.rbNode, parent⟩)

def eraseIter (s : EraseColor) : Option (Bool × EraseColor) := do
  if (← s.heap.nullOrBlack s.node) && s.node ≠ s.heap.rbNode then
    let p ← s.heap.nodes s.parent
    eraseCase (if p.rbLeft = s.node then .left else .right) s.heap s.parent
  else some (true, s)

def eraseStep (s : EraseColor) : Except (Option EraseColor) EraseColor :=
  match eraseIter s with
  | none => .error none
  | some (true, s) => .error (some s)
  | some (false, s) => .ok s

def rbEraseColor (fuel : ℕ) (h : Heap) (node parent : ℕ) : Option (Option Heap) := do
  let r ← runFor eraseStep fuel ⟨h, node, parent⟩
  some do
    let s ← r
    if s.node = 0 then some s.heap else s.heap.modify s.node RbNode.rbSetBlack

/-- The walk to the leftmost node; the error of the machine is where it ends. -/
def leftmostStep (h : Heap) (node : ℕ) : Except (Option ℕ) ℕ :=
  match h.nodes node with
  | none => .error none
  | some n => if n.rbLeft = 0 then .error (some node) else .ok n.rbLeft

/-- What `rb_erase` goes on with: the child that moves up, its parent and the colour that is gone. -/
structure Unlinked where
  heap : Heap
  child : ℕ
  parent : ℕ
  color : ℕ

/-- A node with at most one child is taken out of its place. -/
def unlinkNode (h : Heap) (node child : ℕ) : Option Unlinked := do
  let n ← h.nodes node
  let parent := n.rbParent
  let color := n.rbColor
  let h ← h.setParentIf child parent
  let h ← h.replaceChild .left parent node child
  some ⟨h, child, parent, color⟩

/-- The successor `node` takes the place of `old`. -/
def spliceNode (h : Heap) (old node : ℕ) : Option Unlinked := do
  let o ← h.nodes old
  let h ← h.replaceChild .left o.rbParent old node
  let n ← h.nodes node
  let child := n.rbRight
  let parent := n.rbParent
  let color := n.rbColor
  let (h, parent) ←
    if parent = old then some (h, node)
    else do
      let h ← h.setParentIf child parent
      let h ← h.modify parent (RbNode.setChild · .left child)
      let o ← h.nodes old
      let h ← h.modify node (RbNode.setChild · .right o.rbRight)
      let h ← h.modify o.rbRight (RbNode.rbSetParent · node)
      some (h, parent)
  let o ← h.nodes old
  let h ← h.modify node fun n => { n with rbParentColor := o.rbParentColor }
  let h ← h.modify node (RbNode.setChild · .left o.rbLeft)
  let h ← h.modify o.rbLeft (RbNode.rbSetParent · node)
  some ⟨h, child, parent, color⟩

/-- The part of `rb_erase` before the colours: without a result when the walk takes too long. -/
def unlink (fuel : ℕ) (h : Heap) (node : ℕ) : Option (Option Unlinked) :=
  match h.nodes node with
  | none => some none
  | some n =>
    if n.rbLeft = 0 then some (unlinkNode h node n.rbRight)
    else if n.rbRight = 0 then some (unlinkNode h node n.rbLeft)
    else do
      let r ← runFor (leftmostStep h) fuel n.rbRight
      some do
        let next ← r
        spliceNode h node next

def rbErase (fuel : ℕ) (h : Heap) (node : ℕ) : Option (Option Heap) := do
  match ← unlink fuel h node with
  | none => some none
  | some u =>
    if u.color = rbBlack then rbEraseColor fuel u.heap u.child u.parent else some (some u.heap)

end VDLinux.Lib.Rbtree
