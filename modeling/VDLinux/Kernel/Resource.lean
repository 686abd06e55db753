import VDLinux.Base.Halting

namespace VDLinux.Kernel.Resources

open Base.Halting

/-- A resource descriptor; the address 0 is `NULL`. -/
structure Resource where
  start : ℕ
  «end» : ℕ
  parent : ℕ
  sibling : ℕ
  child : ℕ
  deriving DecidableEq

abbrev Heap := ℕ → Option Resource

/-- How a call can stop without a result: at a pointer to nothing, or in a loop without an end. -/
inductive Stop where
  | fault
  | fuel
  deriving DecidableEq

def load (h : Heap) (a : ℕ) : Except Stop Resource :=
  match h a with
  | none => .error .fault
  | some r => .ok r

def modify (h : Heap) (a : ℕ) (f : Resource → Resource) : Except Stop Heap := do
  let r ← load h a
  .ok (Function.update h a (some (f r)))

def modifyIf (c : Bool) (h : Heap) (a : ℕ) (f : Resource → Resource) : Except Stop Heap :=
  if c then modify h a f else .ok h

/-- The place of a pointer to a resource, `&r->child` or `&r->sibling`. -/
inductive Link where
  | child (a : ℕ)
  | sibling (a : ℕ)

def loadLink (h : Heap) : Link → Except Stop ℕ
  | .child a => do
    let r ← load h a
    .ok r.child
  | .sibling a => do
    let r ← load h a
    .ok r.sibling

def storeLink (h : Heap) (p : Link) (x : ℕ) : Except Stop Heap :=
  match p with
  | .child a => modify h a ({ · with child := x })
  | .sibling a => modify h a ({ · with sibling := x })

inductive Place where
  | vacant (p : Link) (tmp : ℕ)
  | conflict (tmp : ℕ)

def requestStep (h : Heap) (start «end» : ℕ) (p : Link) : Except Stop (Link ⊕ Place) := do
  let tmp ← loadLink h p
  if tmp = 0 then .ok (.inr (.vacant p tmp))
  else
    let t ← load h tmp
    if «end» < t.start then .ok (.inr (.vacant p tmp))
    else if t.end < start then .ok (.inl (.sibling tmp))
    else .ok (.inr (.conflict tmp))

/-- The heap and the conflicting resource, `NULL` when the new one has been linked. -/
def requestResourceLocked (fuel : ℕ) (h : Heap) (root new : ℕ) : Except Stop (Heap × ℕ) := do
  let n ← load h new
  let r ← load h root
  if n.end < n.start then .ok (h, root)
  else if n.start < r.start then .ok (h, root)
  else if r.end < n.end then .ok (h, root)
  else
    match ← loop (requestStep h n.start n.end) .fuel fuel (.child root) with
    | .conflict tmp => .ok (h, tmp)
    | .vacant p tmp =>
      let h ← modify h new ({ · with sibling := tmp })
      let h ← storeLink h p new
      let h ← modify h new ({ · with parent := root })
      .ok (h, 0)

inductive Ret where
  | ok
  | ebusy
  | einval
  deriving DecidableEq

def requestResource (fuel : ℕ) (h : Heap) (root new : ℕ) : Except Stop (Heap × Ret) := do
  let (h, conflict) ← requestResourceLocked fuel h root new
  .ok (h, if conflict = 0 then .ok else .ebusy)

def releaseStep (h : Heap) (old : ℕ) (p : Link) : Except Stop (Link ⊕ Option Link) := do
  let tmp ← loadLink h p
  if tmp = 0 then .ok (.inr none)
  else if tmp = old then .ok (.inr (some p))
  else .ok (.inl (.sibling tmp))

def releaseResource (fuel : ℕ) (h : Heap) (old : ℕ) : Except Stop (Heap × Ret) := do
  let o ← load h old
  match ← loop (releaseStep h old) .fuel fuel (.child o.parent) with
  | none => .ok (h, .einval)
  | some p =>
    let o ← load h old
    let h ← storeLink h p o.sibling
    let h ← modify h old ({ · with parent := 0 })
    .ok (h, .ok)

inductive Descent where
  | linked (h : Heap)
  | conflict (first : ℕ)
  | above (parent first : ℕ)

def descendStep (fuel : ℕ) (h : Heap) (new parent : ℕ) : Except Stop (ℕ ⊕ Descent) := do
  let (h, first) ← requestResourceLocked fuel h parent new
  if first = 0 then .ok (.inr (.linked h))
  else if first = parent then .ok (.inr (.conflict first))
  else
    let f ← load h first
    let n ← load h new
    if n.start < f.start ∨ f.end < n.end then .ok (.inr (.above parent first))
    else if f.start = n.start ∧ f.end = n.end then .ok (.inr (.above parent first))
    else .ok (.inl first)

/-- The last of the resources to go below the new one, or the one that overlaps it in part. -/
inductive Cover where
  | last (next : ℕ)
  | conflict (next : ℕ)

def coverStep (h : Heap) (new next : ℕ) : Except Stop (ℕ ⊕ Cover) := do
  let x ← load h next
  let n ← load h new
  if x.start < n.start ∨ n.end < x.end then .ok (.inr (.conflict next))
  else if x.sibling = 0 then .ok (.inr (.last next))
  else
    let s ← load h x.sibling
    if n.end < s.start then .ok (.inr (.last next)) else .ok (.inl x.sibling)

def reparentStep (new : ℕ) : Heap × ℕ → Except Stop ((Heap × ℕ) ⊕ Heap)
  | (h, next) =>
    if next = 0 then .ok (.inr h)
    else do
      let h ← modify h next ({ · with parent := new })
      let x ← load h next
      .ok (.inl (h, x.sibling))

def previousStep (h : Heap) (first next : ℕ) : Except Stop (ℕ ⊕ ℕ) := do
  let x ← load h next
  if x.sibling = first then .ok (.inr next) else .ok (.inl x.sibling)

/-- The new resource takes the place of the row from `first` to `next`. -/
def coverRow (fuel : ℕ) (h : Heap) (parent new first next : ℕ) : Except Stop Heap := do
  let h ← modify h new ({ · with parent := parent })
  let x ← load h next
  let h ← modify h new ({ · with sibling := x.sibling })
  let h ← modify h new ({ · with child := first })
  let h ← modify h next ({ · with sibling := 0 })
  let h ← loop (reparentStep new) .fuel fuel (h, first)
  let p ← load h parent
  if p.child = first then modify h parent ({ · with child := new })
  else
    let prev ← loop (previousStep h first) .fuel fuel p.child
    modify h prev ({ · with sibling := new })

def insertResourceLocked (fuel : ℕ) (h : Heap) (parent new : ℕ) : Except Stop (Heap × ℕ) := do
  match ← loop (descendStep fuel h new) .fuel fuel parent with
  | .linked h => .ok (h, 0)
  | .conflict first => .ok (h, first)
  | .above parent first =>
    match ← loop (coverStep h new) .fuel fuel first with
    | .conflict next => .ok (h, next)
    | .last next =>
      let h ← coverRow fuel h parent new first next
      .ok (h, 0)

def insertResource (fuel : ℕ) (h : Heap) (parent new : ℕ) : Except Stop (Heap × Ret) := do
  let (h, conflict) ← insertResourceLocked fuel h parent new
  .ok (h, if conflict = 0 then .ok else .ebusy)

def expandStep (fuel : ℕ) (root new : ℕ) (h : Heap) : Except Stop (Heap ⊕ Heap) := do
  let (h, conflict) ← insertResourceLocked fuel h root new
  if conflict = 0 then .ok (.inr h)
  else if conflict = root then .ok (.inr h)
  else
    let c ← load h conflict
    let n ← load h new
    let h ← modifyIf (c.start < n.start) h new ({ · with start := c.start })
    let n ← load h new
    let h ← modifyIf (n.end < c.end) h new ({ · with «end» := c.end })
    .ok (.inl h)

def insertResourceExpandToFit (fuel : ℕ) (h : Heap) (root new : ℕ) : Except Stop Heap := do
  let n ← load h new
  if n.parent ≠ 0 then .ok h else loop (expandStep fuel root new) .fuel fuel h

/-- Whether every child in the row lies in the new range. -/
def fitStep (h : Heap) (start «end» tmp : ℕ) : Except Stop (ℕ ⊕ Bool) :=
  if tmp = 0 then .ok (.inr true)
  else do
    let t ← load h tmp
    if t.start < start ∨ «end» < t.end then .ok (.inr false) else .ok (.inl t.sibling)

def nextBlocks (h : Heap) (sibling «end» : ℕ) : Except Stop Bool :=
  if sibling = 0 then .ok false
  else do
    let t ← load h sibling
    .ok (decide (t.start ≤ «end»))

/-- Whether the resource before `res` in the row reaches to the new start. -/
def previousBlocks (fuel : ℕ) (h : Heap) (first res start : ℕ) : Except Stop Bool :=
  if first = res then .ok false
  else do
    let tmp ← loop (previousStep h res) .fuel fuel first
    let t ← load h tmp
    .ok (decide (start ≤ t.end))

/-- The addresses are words of `w` bits. -/
def adjustResource (w fuel : ℕ) (h : Heap) (res start size : ℕ) : Except Stop (Heap × Ret) := do
  let r ← load h res
  let «end» := (start + size - 1) % 2 ^ w
  let p ← load h r.parent
  if start < p.start ∨ p.end < «end» then .ok (h, .ebusy)
  else
    let fits ← loop (fitStep h start «end») .fuel fuel r.child
    if !fits then .ok (h, .ebusy)
    else
      let blocked ← nextBlocks h r.sibling «end»
      if blocked then .ok (h, .ebusy)
      else
        let blocked ← previousBlocks fuel h p.child res start
        if blocked then .ok (h, .ebusy)
        else
          let h ← modify h res ({ · with start := start, «end» := «end» })
          .ok (h, .ok)

end VDLinux.Kernel.Resources
