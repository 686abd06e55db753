import Mathlib

namespace VDLinux.Fs

inductive LockType
  | rdlck
  | wrlck
  | unlck
  deriving DecidableEq, Repr

structure FileLock (ω : Type) where
  addr : ℕ
  owner : ω
  type : LockType
  start : ℤ
  stop : ℤ
  deriving DecidableEq, Repr

/-- A request on the `blocked_list`: who waits, and the address and owner of the lock `fl_next` points
to. A lock keeps its owner as long as it lives. -/
structure Waiter (ω : Type) where
  owner : ω
  next : ℕ
  nextOwner : ω
  deriving DecidableEq, Repr

/-- A request with its flags; `newFl` and `newFl2` tell whether the allocations succeed. -/
structure Request (ω : Type) where
  owner : ω
  type : LockType
  start : ℤ
  stop : ℤ
  access : Bool
  sleep : Bool
  mustExist : Bool
  newFl : Bool
  newFl2 : Bool
  deriving DecidableEq, Repr

/-- The locks of an inode, the waiting requests and the next free address. -/
structure LockState (ω : Type) where
  locks : List (FileLock ω)
  blocked : List (Waiter ω)
  fresh : ℕ
  deriving DecidableEq, Repr

inductive LockResult
  | ok
  | eagain
  | edeadlk
  | enolck
  | enoent
  | deferred
  deriving DecidableEq, Repr

def offsetMax : ℤ := 2 ^ 63 - 1

variable {ω : Type} [DecidableEq ω]

def locksOverlap (start stop : ℤ) (fl : FileLock ω) : Bool := stop ≥ fl.start && fl.stop ≥ start

def locksConflict (caller sys : LockType) : Bool := sys = .wrlck || caller = .wrlck

def posixLocksConflict (q : Request ω) (sys : FileLock ω) : Bool :=
  if q.owner = sys.owner then false
  else if !locksOverlap q.start q.stop sys then false
  else locksConflict q.type sys.type

def maxDeadlkIterations : ℕ := 10

def whatOwnerIsWaitingFor (blocked : List (Waiter ω)) (owner : ω) : Option ω :=
  (blocked.find? fun w => w.owner = owner).map Waiter.nextOwner

/-- The loop of `posix_locks_deadlock` with `rounds` more of them before `i` is too large. -/
def deadlockLoop (blocked : List (Waiter ω)) (caller : ω) : ℕ → ω → Bool
  | 0, _ => false
  | rounds + 1, owner =>
    match whatOwnerIsWaitingFor blocked owner with
    | none => false
    | some next => if caller = next then true else deadlockLoop blocked caller rounds next

def posixLocksDeadlock (blocked : List (Waiter ω)) (caller owner : ω) : Bool :=
  deadlockLoop blocked caller (maxDeadlkIterations + 1) owner

def locksWakeUpBlocks (addr : ℕ) (blocked : List (Waiter ω)) : List (Waiter ω) :=
  blocked.filter fun w => w.next ≠ addr

/-- Where the loop over the locks of one owner is: the locks that `before` has passed, what `request`
points to, and the variables of the loop. -/
structure Scan (ω : Type) where
  done : List (FileLock ω)
  request : FileLock ω
  added : Bool
  left : Option ℕ
  right : Option (FileLock ω)
  blocked : List (Waiter ω)
  deriving DecidableEq, Repr

namespace Scan

def pass (c : Scan ω) (fl : FileLock ω) : Scan ω := { c with done := c.done ++ [fl] }

/-- Wake up who waits for `fl`; to delete `fl` is this and not to pass it. -/
def wake (c : Scan ω) (fl : FileLock ω) : Scan ω :=
  { c with blocked := locksWakeUpBlocks fl.addr c.blocked }

/-- Write through `request`, which may point to a lock that was passed. -/
def writeRequest (c : Scan ω) (r : FileLock ω) : Scan ω :=
  { c with request := r, done := c.done.map fun fl => if fl.addr = r.addr then r else fl }

/-- Let `request` point to `fl` and go on behind it. -/
def redirect (c : Scan ω) (fl : FileLock ω) : Scan ω :=
  { c with request := fl, added := true, done := c.done ++ [fl] }

end Scan

inductive Move (ω : Type)
  | onward (c : Scan ω)
  | halt (c : Scan ω)
  deriving DecidableEq, Repr

/-- The lower start and the higher end of two locks, as the code writes them into both. -/
def mergedStart (r fl : FileLock ω) : ℤ := if fl.start > r.start then r.start else fl.start

def mergedStop (r fl : FileLock ω) : ℤ := if fl.stop < r.stop then r.stop else fl.stop

def merge (c : Scan ω) (fl : FileLock ω) : Scan ω :=
  let start := mergedStart c.request fl
  let stop := mergedStop c.request fl
  let c := c.writeRequest { c.request with start, stop }
  if c.added then c.wake fl else c.redirect { fl with start, stop }

def visitSame (c : Scan ω) (fl : FileLock ω) : Move ω :=
  if fl.stop < c.request.start - 1 then .onward (c.pass fl)
  else if fl.start - 1 > c.request.stop then .halt c
  else .onward (merge c fl)

/-- The variables that a lock of another type sets when it overlaps the request. -/
def markOverlap (c : Scan ω) (fl : FileLock ω) : Scan ω :=
  { c with
    added := if c.request.type = .unlck then true else c.added
    left := if fl.start < c.request.start then some fl.addr else c.left }

def replace (c : Scan ω) (fl : FileLock ω) : Scan ω :=
  if c.added then c.wake fl
  else (c.wake fl).redirect
    { fl with start := c.request.start, stop := c.request.stop, type := c.request.type }

def visitOverlap (c : Scan ω) (fl : FileLock ω) : Move ω :=
  if fl.stop > c.request.stop then .halt { c with right := some fl }
  else if fl.start ≥ c.request.start then .onward (replace c fl)
  else .onward (c.pass fl)

def visitOther (c : Scan ω) (fl : FileLock ω) : Move ω :=
  if fl.stop < c.request.start then .onward (c.pass fl)
  else if fl.start > c.request.stop then .halt c
  else visitOverlap (markOverlap c fl) fl

def visit (c : Scan ω) (fl : FileLock ω) : Move ω :=
  if c.request.type = fl.type then visitSame c fl else visitOther c fl

/-- The loop over the locks of the owner; with it what is left from `*before` on. -/
def scan : Scan ω → List (FileLock ω) → Scan ω × List (FileLock ω)
  | c, [] => (c, [])
  | c, fl :: tl =>
    if c.request.owner = fl.owner then
      match visit c fl with
      | .onward c => scan c tl
      | .halt c => (c, fl :: tl)
    else (c, fl :: tl)

def setStart (addr : ℕ) (start : ℤ) (locks : List (FileLock ω)) : List (FileLock ω) :=
  locks.map fun fl => if fl.addr = addr then { fl with start } else fl

def setStop (addr : ℕ) (stop : ℤ) (locks : List (FileLock ω)) : List (FileLock ω) :=
  locks.map fun fl => if fl.addr = addr then { fl with stop } else fl

/-- The lock from which the request takes the right end; `copy` is the address of the new lock for the
part before the request, when that is of the same lock. -/
def trimRight (c : Scan ω) (copy : ℕ) (tail : List (FileLock ω)) : List (FileLock ω) × Option ℕ :=
  match c.right with
  | none => (c.done ++ tail, c.left)
  | some r =>
    if c.left = some r.addr then
      (setStart r.addr (c.request.stop + 1) (c.done ++ { r with addr := copy } :: tail), some copy)
    else (setStart r.addr (c.request.stop + 1) (c.done ++ tail), c.left)

def trimLeft (c : Scan ω) (left : Option ℕ) (locks : List (FileLock ω)) : List (FileLock ω) :=
  match left with
  | none => locks
  | some addr => setStop addr (c.request.start - 1) locks

def wakeOption (addr : Option ℕ) (blocked : List (Waiter ω)) : List (Waiter ω) :=
  match addr with
  | none => blocked
  | some addr => locksWakeUpBlocks addr blocked

/-- What follows the loop. The new locks are at `addr` and `addr + 1`. -/
def finish (q : Request ω) (newFl newFl2 : Bool) (addr : ℕ) (c : Scan ω) (rest : List (FileLock ω)) :
    (List (FileLock ω) × List (Waiter ω)) × LockResult :=
  if c.right.isSome && c.left = c.right.map FileLock.addr && !newFl2 then
    ((c.done ++ rest, c.blocked), .enolck)
  else if !c.added && c.request.type = .unlck then
    ((c.done ++ rest, c.blocked), if q.mustExist then .enoent else .ok)
  else if !c.added && !newFl then ((c.done ++ rest, c.blocked), .enolck)
  else
    let tail := if c.added then rest else { c.request with addr } :: rest
    let (locks, left) := trimRight c (addr + 1) tail
    ((trimLeft c left locks,
      wakeOption left (wakeOption (c.right.map FileLock.addr) c.blocked)), .ok)

def mayNeedLocks (q : Request ω) : Bool :=
  !q.access && (q.type ≠ .unlck || q.start ≠ 0 || q.stop ≠ offsetMax)

/-- The part of `__posix_lock_file` that is reached when nothing conflicts. The caller's structure is at
the first free address, the new locks at the next two. -/
def applyLock (s : LockState ω) (q : Request ω) : LockState ω × LockResult :=
  let others := s.locks.takeWhile fun fl => q.owner ≠ fl.owner
  let mine := s.locks.dropWhile fun fl => q.owner ≠ fl.owner
  let request : FileLock ω := ⟨s.fresh, q.owner, q.type, q.start, q.stop⟩
  let (c, rest) := scan ⟨others, request, false, none, none, s.blocked⟩ mine
  let ((locks, blocked), result) :=
    finish q (mayNeedLocks q && q.newFl) (mayNeedLocks q && q.newFl2) (s.fresh + 1) c rest
  (⟨locks, blocked, s.fresh + 3⟩, result)

def conflicting (s : LockState ω) (q : Request ω) : Option (FileLock ω) :=
  if q.type = .unlck then none else s.locks.find? fun fl => posixLocksConflict q fl

def posixLockFile (s : LockState ω) (q : Request ω) : LockState ω × LockResult :=
  match conflicting s q with
  | some fl =>
    if !q.sleep then (s, .eagain)
    else if posixLocksDeadlock s.blocked q.owner fl.owner then (s, .edeadlk)
    else ({ s with blocked := ⟨q.owner, fl.addr, fl.owner⟩ :: s.blocked }, .deferred)
  | none => if q.access then (s, .ok) else applyLock s q

end VDLinux.Fs
