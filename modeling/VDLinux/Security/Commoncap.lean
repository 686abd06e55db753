import Mathlib

namespace VDLinux.Security

@[ext]
structure KernelCap where
  cap : Fin 2 → BitVec 32
deriving DecidableEq

def capToIndex (flag : Fin 64) : Fin 2 := ⟨flag.val / 32, by omega⟩

def capToMask (flag : Fin 64) : BitVec 32 := (1 : BitVec 32) <<< (flag.val % 32)

def capRaised (c : KernelCap) (flag : Fin 64) : Bool := c.cap (capToIndex flag) &&& capToMask flag ≠ 0

def capLower (c : KernelCap) (flag : Fin 64) : KernelCap :=
  ⟨fun i => if i = capToIndex flag then c.cap i &&& ~~~ capToMask flag else c.cap i⟩

def capEmptySet : KernelCap := ⟨fun _ => 0⟩

def capFullSet : KernelCap := ⟨fun _ => ~~~ 0⟩

def capCombine (a b : KernelCap) : KernelCap := ⟨fun i => a.cap i ||| b.cap i⟩

def capIntersect (a b : KernelCap) : KernelCap := ⟨fun i => a.cap i &&& b.cap i⟩

def capDrop (a drop : KernelCap) : KernelCap := ⟨fun i => a.cap i &&& ~~~ drop.cap i⟩

def capIsclear (a : KernelCap) : Bool := ∀ i, a.cap i = 0

def capIssubset (a set : KernelCap) : Bool := capIsclear (capDrop a set)

/-- `CAP_FS_SET`: CHOWN, DAC_OVERRIDE, DAC_READ_SEARCH, FOWNER, FSETID, LINUX_IMMUTABLE, MKNOD, and
MAC_OVERRIDE in the second word. -/
def capFsSet : KernelCap :=
  ⟨fun i => if i.val = 0 then capToMask 0 ||| capToMask 27 ||| capToMask 1 ||| capToMask 2 ||| capToMask 3 |||
    capToMask 4 ||| capToMask 9 else capToMask 32⟩

def capDropFsSet (a : KernelCap) : KernelCap := capDrop a capFsSet

def capRaiseFsSet (a permitted : KernelCap) : KernelCap := capCombine a (capIntersect permitted capFsSet)

def KernelCap.caps (c : KernelCap) : Set (Fin 64) := { flag | capRaised c flag }

theorem capRaised_eq (c : KernelCap) (flag : Fin 64) :
    capRaised c flag = (c.cap (capToIndex flag)).getLsbD (flag.val % 32) := by
  have hmask : capToMask flag = BitVec.twoPow 32 (flag.val % 32) := by
    rfl
  have hone : BitVec.twoPow 32 (flag.val % 32) ≠ 0 := by
    intro hzero
    have hbit := congrArg (fun w => BitVec.getLsbD w (flag.val % 32)) hzero
    have hlt : flag.val % 32 < 32 := Nat.mod_lt _ (by omega)
    simp [hlt] at hbit
  rw [capRaised, hmask, BitVec.and_twoPow]
  cases (c.cap (capToIndex flag)).getLsbD (flag.val % 32) with
  | false => simp
  | true => simpa using hone

theorem mem_caps {c : KernelCap} {flag : Fin 64} :
    flag ∈ c.caps ↔ (c.cap (capToIndex flag)).getLsbD (flag.val % 32) = true := by
  rw [← capRaised_eq]
  rfl

@[simp] theorem caps_capEmptySet : capEmptySet.caps = ∅ := by
  ext flag
  simp [mem_caps, capEmptySet]

variable (a b : KernelCap)

@[simp] theorem caps_capCombine : (capCombine a b).caps = a.caps ∪ b.caps := by
  ext flag
  simp [mem_caps, capCombine]

@[simp] theorem caps_capIntersect : (capIntersect a b).caps = a.caps ∩ b.caps := by
  ext flag
  simp [mem_caps, capIntersect]

@[simp] theorem caps_capDrop : (capDrop a b).caps = a.caps \ b.caps := by
  ext flag
  have hlt : flag.val % 32 < 32 := Nat.mod_lt _ (by omega)
  simp [mem_caps, capDrop, hlt]

theorem caps_capLower_subset (c : KernelCap) (flag : Fin 64) : (capLower c flag).caps ⊆ c.caps := by
  intro n hn
  rw [mem_caps] at hn ⊢
  simp only [capLower] at hn
  split at hn
  · rw [BitVec.getLsbD_and, Bool.and_eq_true] at hn
    exact hn.1
  · exact hn

theorem capIsclear_iff (a : KernelCap) : capIsclear a = true ↔ a.caps = ∅ := by
  simp only [capIsclear, decide_eq_true_eq]
  constructor
  · intro h
    ext flag
    simp [mem_caps, h]
  · intro h i
    refine BitVec.eq_of_getLsbD_eq fun j hj => ?_
    have hflag : (⟨32 * i.val + j, by omega⟩ : Fin 64) ∉ a.caps := h ▸ Set.notMem_empty _
    have hindex : capToIndex ⟨32 * i.val + j, by omega⟩ = i := by
      apply Fin.ext
      simp only [capToIndex]
      omega
    have hbit : (32 * i.val + j) % 32 = j := by omega
    rw [mem_caps, hindex] at hflag
    simpa [hbit] using hflag

theorem capIssubset_iff (a b : KernelCap) : capIssubset a b = true ↔ a.caps ⊆ b.caps := by
  rw [capIssubset, capIsclear_iff, caps_capDrop, Set.sdiff_eq_empty]

inductive Errno
  | eperm
  | eagain
  | eacces
  | einval
  | enosys
  | enodata
  | eopnotsupp
  | other (code : ℕ)
deriving DecidableEq

structure Cred where
  uid : BitVec 32
  gid : BitVec 32
  suid : BitVec 32
  sgid : BitVec 32
  euid : BitVec 32
  egid : BitVec 32
  fsuid : BitVec 32
  fsgid : BitVec 32
  securebits : BitVec 32
  capInheritable : KernelCap
  capPermitted : KernelCap
  capEffective : KernelCap
  capBset : KernelCap
deriving DecidableEq

def secureNoroot : ℕ := 0
def secureNoSetuidFixup : ℕ := 2
def secureKeepCaps : ℕ := 4
def secureKeepCapsLocked : ℕ := 5

def issecureMask (x : ℕ) : BitVec 32 := (1 : BitVec 32) <<< x

def secureAllBits : BitVec 32 :=
  issecureMask secureNoroot ||| issecureMask secureNoSetuidFixup ||| issecureMask secureKeepCaps

def secureAllLocks : BitVec 32 := secureAllBits <<< 1

/-- `issecure` looks at the credentials of the current task. -/
def issecure (current : Cred) (x : ℕ) : Bool := issecureMask x &&& current.securebits ≠ 0

def capSetuid : Fin 64 := 7
def capSetpcap : Fin 64 := 8
def capLastCap : ℕ := 33

/-- `capable`, where the capability module decides. -/
def capable (current : Cred) (cap : Fin 64) : Bool := capRaised current.capEffective cap

def capInhIsCapped (current : Cred) : Bool := !capable current capSetpcap

def capCapset (new old : Cred) (effective inheritable permitted : KernelCap) : Except Errno Cred :=
  if capInhIsCapped old ∧ ¬ capIssubset inheritable (capCombine old.capInheritable old.capPermitted)
  then .error .eperm
  else if ¬ capIssubset inheritable (capCombine old.capInheritable old.capBset) then .error .eperm
  else if ¬ capIssubset permitted old.capPermitted then .error .eperm
  else if ¬ capIssubset effective permitted then .error .eperm
  else .ok { new with capEffective := effective, capInheritable := inheritable, capPermitted := permitted }

/-- What `execve` looks at in one file: its mount, mode and owner, what `getxattr` answers for the
capability attribute (nothing if the inode has no such operation), and what the audit and the reading of
its first bytes return. -/
structure File where
  nosuid : Bool
  hasFop : Bool
  mode : BitVec 16
  iUid : BitVec 32
  iGid : BitVec 32
  getxattr : Option (Except Errno (List (BitVec 8)))
  audit : Except Errno Unit
  kernelRead : Except Errno Unit

structure Bprm where
  cred : Cred
  file : File
  unsafeFlags : BitVec 32
  capEffective : Bool

structure CpuVfsCapData where
  magicEtc : BitVec 32
  permitted : KernelCap
  inheritable : KernelCap

def bprmClearCaps (bprm : Bprm) : Bprm :=
  { bprm with cred := { bprm.cred with capPermitted := capEmptySet }, capEffective := false }

def le32ToCpu (bytes : List (BitVec 8)) (k : ℕ) : BitVec 32 :=
  (bytes.getD (k + 3) 0 ++ bytes.getD (k + 2) 0 ++ bytes.getD (k + 1) 0 ++ bytes.getD k 0 :
    BitVec (8 + 8 + 8 + 8))

def vfsCapWords (magicEtc : BitVec 32) (size : ℕ) : Except Errno ℕ :=
  if magicEtc &&& 0xff000000 = 0x01000000 then
    if size ≠ 12 then .error .einval else .ok 1
  else if magicEtc &&& 0xff000000 = 0x02000000 then
    if size ≠ 20 then .error .einval else .ok 2
  else .error .einval

def getVfsCapsFromDisk (file : File) : Except Errno CpuVfsCapData :=
  match file.getxattr with
  | none => .error .enodata
  | some (.error e) => if e = .enodata ∨ e = .eopnotsupp then .error .enodata else .error e
  | some (.ok caps) =>
    if caps.length < 4 then .error .einval
    else do
      let magicEtc := le32ToCpu caps 0
      let tocopy ← vfsCapWords magicEtc caps.length
      .ok { magicEtc,
            permitted := ⟨fun i => if tocopy ≤ i.val then 0 else le32ToCpu caps (4 + 8 * i)⟩,
            inheritable := ⟨fun i => if tocopy ≤ i.val then 0 else le32ToCpu caps (8 + 8 * i)⟩ }

/-- The second component is what `*effective` is set to. -/
def bprmCapsFromVfsCaps (caps : CpuVfsCapData) (bprm : Bprm) : Except Errno (Bprm × Bool) :=
  let new := bprm.cred
  let effective : Bool := caps.magicEtc &&& 0x000001 ≠ 0
  let permitted : KernelCap := ⟨fun i => (new.capBset.cap i &&& caps.permitted.cap i) |||
    (new.capInheritable.cap i &&& caps.inheritable.cap i)⟩
  -- insufficient to execute correctly
  let lacking : Bool := ∃ i, caps.permitted.cap i &&& ~~~ permitted.cap i ≠ 0
  if effective ∧ lacking then .error .eperm
  else .ok ({ bprm with cred := { new with capPermitted := permitted } }, effective)

def getFileCaps (fileCapsEnabled : Bool) (bprm : Bprm) : Except Errno (Bprm × Bool) :=
  let bprm := bprmClearCaps bprm
  if ¬ fileCapsEnabled then .ok (bprm, false)
  else if bprm.file.nosuid then .ok (bprm, false)
  else match getVfsCapsFromDisk bprm.file with
    | .error e => if e = .enodata then .ok (bprm, false) else .error e
    | .ok vcaps => bprmCapsFromVfsCaps vcaps bprm

/-- Root without `SECURE_NOROOT`: the permitted set and the effective bit that take the place of those of
the file. -/
def rootCaps (old new : Cred) (effective : Bool) : KernelCap × Bool :=
  if issecure old secureNoroot then (new.capPermitted, effective)
  else if effective ∧ new.uid ≠ 0 ∧ new.euid = 0 then (new.capPermitted, effective)
  else (if new.euid = 0 ∨ new.uid = 0 then capCombine old.capBset old.capInheritable
      else new.capPermitted,
    effective || new.euid = 0)

def lsmUnsafePtraceCap : BitVec 32 := 4

/-- An execution that is flagged for something else than a tracer with the capability to trace. -/
def flaggedUnsafe (unsafeFlags : BitVec 32) : Bool := unsafeFlags &&& ~~~ lsmUnsafePtraceCap ≠ 0

/-- Whoever shares or traces the task gets no more than it had. -/
def downgrade (old new : Cred) (unsafeFlags : BitVec 32) : Cred :=
  if (new.euid ≠ old.uid ∨ new.egid ≠ old.gid ∨ ¬ capIssubset new.capPermitted old.capPermitted) ∧
      flaggedUnsafe unsafeFlags then
    let new := if capable old capSetuid then new else { new with euid := new.uid, egid := new.gid }
    { new with capPermitted := capIntersect new.capPermitted old.capPermitted }
  else new

def capBprmSetCreds (fileCapsEnabled globalInit : Bool) (old : Cred) (bprm : Bprm) :
    Except Errno Bprm := do
  let (bprm, effective) ← getFileCaps fileCapsEnabled bprm
  let (permitted, effective) := rootCaps old bprm.cred effective
  let new := downgrade old { bprm.cred with capPermitted := permitted } bprm.unsafeFlags
  let new := { new with suid := new.euid, fsuid := new.euid, sgid := new.egid, fsgid := new.egid }
  let new : Cred := if globalInit then new
    else { new with capEffective := if effective then new.capPermitted else capEmptySet }
  if ¬ capIsclear new.capEffective ∧ (¬ capIssubset capFullSet new.capEffective ∨ new.euid ≠ 0 ∨
      new.uid ≠ 0 ∨ issecure old secureNoroot) then
    bprm.file.audit
  .ok { bprm with
    cred := { new with securebits := new.securebits &&& ~~~ issecureMask secureKeepCaps }
    capEffective := effective }

def sIsuid : BitVec 16 := 0o4000
def sIsgid : BitVec 16 := 0o2000
def sIxgrp : BitVec 16 := 0o010

def prepareBinprm (fileCapsEnabled globalInit : Bool) (old : Cred) (bprm : Bprm) :
    Except Errno Bprm := do
  let file := bprm.file
  if ¬ file.hasFop then .error .eacces
  let euid := if ¬ file.nosuid ∧ file.mode &&& sIsuid ≠ 0 then file.iUid else old.euid
  let egid := if ¬ file.nosuid ∧ file.mode &&& (sIsgid ||| sIxgrp) = sIsgid ||| sIxgrp
    then file.iGid else old.egid
  let bprm ← capBprmSetCreds fileCapsEnabled globalInit old
    { bprm with cred := { bprm.cred with euid := euid, egid := egid } }
  file.kernelRead
  .ok bprm

/-- The credentials that `execve` commits: the file itself and then each interpreter are prepared on the
same `bprm`. -/
def execve (fileCapsEnabled globalInit : Bool) (old : Cred) (file : File) (interpreters : List File)
    (unsafeFlags : BitVec 32) (loaded : Except Errno Unit) : Except Errno Cred := do
  let bprm ← prepareBinprm fileCapsEnabled globalInit old
    { cred := old, file := file, unsafeFlags := unsafeFlags, capEffective := false }
  let bprm ← interpreters.foldlM
    (fun bprm file => prepareBinprm fileCapsEnabled globalInit old { bprm with file := file }) bprm
  loaded
  .ok bprm.cred

def capEmulateSetxuid (new old : Cred) : Cred :=
  let new := if (old.uid = 0 ∨ old.euid = 0 ∨ old.suid = 0) ∧
      (new.uid ≠ 0 ∧ new.euid ≠ 0 ∧ new.suid ≠ 0) ∧ ¬ issecure old secureKeepCaps
    then { new with capPermitted := capEmptySet, capEffective := capEmptySet } else new
  let new := if old.euid = 0 ∧ new.euid ≠ 0 then { new with capEffective := capEmptySet } else new
  if old.euid ≠ 0 ∧ new.euid = 0 then { new with capEffective := new.capPermitted } else new

inductive SetidFlags
  | re
  | id
  | res
  | fs
deriving DecidableEq

def capTaskFixSetuid (new old : Cred) (flags : SetidFlags) : Cred :=
  match flags with
  | .re | .id | .res => if issecure old secureNoSetuidFixup then new else capEmulateSetxuid new old
  | .fs =>
    if issecure old secureNoSetuidFixup then new
    else
      let new := if old.fsuid = 0 ∧ new.fsuid ≠ 0
        then { new with capEffective := capDropFsSet new.capEffective } else new
      if old.fsuid ≠ 0 ∧ new.fsuid = 0
      then { new with capEffective := capRaiseFsSet new.capEffective new.capPermitted } else new

/-- The proposed user ids, after `security_task_fix_setuid`. -/
def changeUids (old : Cred) (uid euid suid fsuid : BitVec 32) (flags : SetidFlags) : Cred :=
  capTaskFixSetuid { old with uid := uid, euid := euid, suid := suid, fsuid := fsuid } old flags

def noId : BitVec 32 := 0xffffffff

def setuid (old : Cred) (uid : BitVec 32) (setUser : Except Errno Unit) : Except Errno Cred := do
  if capable old capSetuid then
    if uid ≠ old.uid then
      setUser
    .ok (changeUids old uid uid uid uid .id)
  else if uid ≠ old.uid ∧ uid ≠ old.suid then .error .eperm
  else .ok (changeUids old old.uid uid old.suid uid .id)

def setreuid (old : Cred) (ruid euid : BitVec 32) (setUser : Except Errno Unit) : Except Errno Cred := do
  let newUid := if ruid ≠ noId then ruid else old.uid
  if ruid ≠ noId ∧ old.uid ≠ ruid ∧ old.euid ≠ ruid ∧ ¬ capable old capSetuid then .error .eperm
  let newEuid := if euid ≠ noId then euid else old.euid
  if euid ≠ noId ∧ old.uid ≠ euid ∧ old.euid ≠ euid ∧ old.suid ≠ euid ∧ ¬ capable old capSetuid then
    .error .eperm
  if newUid ≠ old.uid then
    setUser
  let newSuid := if ruid ≠ noId ∨ (euid ≠ noId ∧ euid ≠ old.uid) then newEuid else old.suid
  .ok (changeUids old newUid newEuid newSuid newEuid .re)

def setresuid (old : Cred) (ruid euid suid : BitVec 32) (setUser : Except Errno Unit) :
    Except Errno Cred := do
  let mine : BitVec 32 → Bool := fun id => id = noId ∨ id = old.uid ∨ id = old.euid ∨ id = old.suid
  if ¬ capable old capSetuid ∧ ¬ (mine ruid ∧ mine euid ∧ mine suid) then .error .eperm
  if ruid ≠ noId ∧ ruid ≠ old.uid then
    setUser
  let newUid := if ruid ≠ noId then ruid else old.uid
  let newEuid := if euid ≠ noId then euid else old.euid
  let newSuid := if suid ≠ noId then suid else old.suid
  .ok (changeUids old newUid newEuid newSuid newEuid .res)

/-- `setfsuid` reports no error; the old id is returned whatever happens. -/
def setfsuid (old : Cred) (uid : BitVec 32) : Cred :=
  if (uid = old.uid ∨ uid = old.euid ∨ uid = old.suid ∨ uid = old.fsuid ∨ capable old capSetuid) ∧
      uid ≠ old.fsuid
  then changeUids old old.uid old.euid old.suid uid .fs else old

def capPrctlDrop (current new : Cred) (cap : BitVec 32) : Except Errno Cred :=
  if ¬ capable current capSetpcap then .error .eperm
  else if h : cap.toNat ≤ capLastCap then
    .ok { new with capBset := capLower new.capBset ⟨cap.toNat, Nat.lt_of_le_of_lt h (by decide)⟩ }
  else .error .einval

inductive PrctlOption
  | capbsetRead
  | capbsetDrop
  | setSecurebits
  | getSecurebits
  | getKeepcaps
  | setKeepcaps
  | other
deriving DecidableEq

/-- The return value, and the credentials after the call. -/
def capTaskPrctl (current : Cred) (option : PrctlOption) (arg2 : BitVec 32) : Except Errno (ℕ × Cred) :=
  let new := current
  match option with
  | .capbsetRead =>
    if h : arg2.toNat ≤ capLastCap then
      .ok ((capRaised new.capBset ⟨arg2.toNat, Nat.lt_of_le_of_lt h (by decide)⟩).toNat, current)
    else .error .einval
  | .capbsetDrop => do
    let new ← capPrctlDrop current new arg2
    .ok (0, new)
  | .setSecurebits =>
    if ((new.securebits &&& secureAllLocks) >>> 1) &&& (new.securebits ^^^ arg2) ≠ 0 ∨
        new.securebits &&& secureAllLocks &&& ~~~ arg2 ≠ 0 ∨
        arg2 &&& ~~~ (secureAllLocks ||| secureAllBits) ≠ 0 ∨ ¬ capable current capSetpcap
    then .error .eperm
    else .ok (0, { new with securebits := arg2 })
  | .getSecurebits => .ok (new.securebits.toNat, current)
  | .getKeepcaps => .ok ((issecure current secureKeepCaps).toNat, current)
  | .setKeepcaps =>
    if 1 < arg2.toNat then .error .einval
    else if issecure current secureKeepCapsLocked then .error .eperm
    else if arg2 ≠ 0 then
      .ok (0, { new with securebits := new.securebits ||| issecureMask secureKeepCaps })
    else .ok (0, { new with securebits := new.securebits &&& ~~~ issecureMask secureKeepCaps })
  | .other => .error .enosys

/-- The calls of a task that change its credentials; `setUser` and `loaded` are what `set_user` and the
loading of the program return. -/
inductive Call
  | capset (effective inheritable permitted : KernelCap)
  | prctl (option : PrctlOption) (arg2 : BitVec 32)
  | setuid (uid : BitVec 32) (setUser : Except Errno Unit)
  | setreuid (ruid euid : BitVec 32) (setUser : Except Errno Unit)
  | setresuid (ruid euid suid : BitVec 32) (setUser : Except Errno Unit)
  | setfsuid (uid : BitVec 32)
  | execve (file : File) (interpreters : List File) (unsafeFlags : BitVec 32) (loaded : Except Errno Unit)

def request (fileCapsEnabled globalInit : Bool) (current : Cred) : Call → Except Errno Cred
  | .capset effective inheritable permitted => capCapset current current effective inheritable permitted
  | .prctl option arg2 => Prod.snd <$> capTaskPrctl current option arg2
  | .setuid uid setUser => setuid current uid setUser
  | .setreuid ruid euid setUser => setreuid current ruid euid setUser
  | .setresuid ruid euid suid setUser => setresuid current ruid euid suid setUser
  | .setfsuid uid => .ok (setfsuid current uid)
  | .execve file interpreters unsafeFlags loaded =>
    execve fileCapsEnabled globalInit current file interpreters unsafeFlags loaded

/-- A call that fails commits nothing. -/
def perform (fileCapsEnabled globalInit : Bool) (current : Cred) (call : Call) : Cred :=
  match request fileCapsEnabled globalInit current call with
  | .ok new => new
  | .error _ => current

def run (fileCapsEnabled globalInit : Bool) (current : Cred) (calls : List Call) : Cred :=
  calls.foldl (perform fileCapsEnabled globalInit) current

end VDLinux.Security
