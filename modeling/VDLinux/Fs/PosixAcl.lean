import Mathlib

namespace VDLinux.Fs.Acl

inductive Tag where
  | userObj
  | user
  | groupObj
  | group
  | mask
  | other
  | unknown (tag : BitVec 16)
  deriving DecidableEq, Repr

structure Entry where
  tag : Tag
  perm : BitVec 16
  id : BitVec 32
  deriving DecidableEq, Repr

inductive State where
  | userObj
  | user
  | group
  | other
  | done
  deriving DecidableEq

def undefinedId : BitVec 32 := -1

/-- `ACL_READ | ACL_WRITE | ACL_EXECUTE`, which is also `S_IRWXO`. -/
def rwx : BitVec 16 := 0o7

def sIrwxo : BitVec 32 := 0o7

def sIrwxg : BitVec 32 := 0o70

def sIrwxu : BitVec 32 := 0o700

def sIrwxugo : BitVec 32 := 0o777

section Valid

def validLoop : State → BitVec 32 → Bool → List Entry → Bool
  | state, _, _, [] => state = .done
  | state, id, needsMask, pa :: rest =>
    if pa.perm &&& ~~~rwx ≠ 0 then false
    else
      match pa.tag with
      | .userObj => if state = .userObj then validLoop .user 0 needsMask rest else false
      | .user =>
        if state ≠ .user ∨ pa.id = undefinedId ∨ pa.id < id then false
        else validLoop .user (pa.id + 1) true rest
      | .groupObj => if state = .user then validLoop .group 0 needsMask rest else false
      | .group =>
        if state ≠ .group ∨ pa.id = undefinedId ∨ pa.id < id then false
        else validLoop .group (pa.id + 1) true rest
      | .mask => if state ≠ .group then false else validLoop .other id needsMask rest
      | .other =>
        if state = .other ∨ state = .group ∧ needsMask = false then validLoop .done id needsMask rest
        else false
      | .unknown _ => false

def posixAclValid (acl : List Entry) : Bool := validLoop .userObj 0 false acl

end Valid

section Permission

structure Inode where
  uid : BitVec 32
  gid : BitVec 32

structure Subject where
  fsuid : BitVec 32
  inGroup : BitVec 32 → Bool

inductive Answer where
  | granted
  | eacces
  | eio
  deriving DecidableEq

def Entry.grants (e : Entry) (want : BitVec 32) : Bool := e.perm.setWidth 32 &&& want == want

def checkPerm (pa : Entry) (want : BitVec 32) : Answer := if pa.grants want then .granted else .eacces

/-- From the label `mask` on: the mask is looked for behind the entry. -/
def checkMask (pa : Entry) (want : BitVec 32) : List Entry → Answer
  | [] => checkPerm pa want
  | maskObj :: rest =>
    if maskObj.tag = .mask then
      if pa.perm.setWidth 32 &&& maskObj.perm.setWidth 32 &&& want == want then .granted else .eacces
    else checkMask pa want rest

def permissionLoop (inode : Inode) (who : Subject) (want : BitVec 32) : Bool → List Entry → Answer
  | _, [] => .eio
  | found, pa :: rest =>
    match pa.tag with
    | .userObj => if inode.uid = who.fsuid then checkPerm pa want else permissionLoop inode who want found rest
    | .user => if pa.id = who.fsuid then checkMask pa want rest else permissionLoop inode who want found rest
    | .groupObj =>
      if who.inGroup inode.gid then
        if pa.grants want then checkMask pa want rest else permissionLoop inode who want true rest
      else permissionLoop inode who want found rest
    | .group =>
      if who.inGroup pa.id then
        if pa.grants want then checkMask pa want rest else permissionLoop inode who want true rest
      else permissionLoop inode who want found rest
    | .mask => permissionLoop inode who want found rest
    | .other => if found then .eacces else checkPerm pa want
    | .unknown _ => .eio

def posixAclPermission (inode : Inode) (who : Subject) (acl : List Entry) (want : BitVec 32) : Answer :=
  permissionLoop inode who want false acl

end Permission

section Mode

def Entry.modeBits (e : Entry) : BitVec 32 := e.perm.setWidth 32 &&& sIrwxo

def equivLoop : BitVec 32 → Bool → List Entry → Option (BitVec 32 × Bool)
  | mode, notEquiv, [] => some (mode, notEquiv)
  | mode, notEquiv, pa :: rest =>
    match pa.tag with
    | .userObj => equivLoop (mode ||| pa.modeBits <<< 6) notEquiv rest
    | .groupObj => equivLoop (mode ||| pa.modeBits <<< 3) notEquiv rest
    | .other => equivLoop (mode ||| pa.modeBits) notEquiv rest
    | .mask => equivLoop (mode &&& ~~~sIrwxg ||| pa.modeBits <<< 3) true rest
    | .user => equivLoop mode true rest
    | .group => equivLoop mode true rest
    | .unknown _ => none

/-- The new `*mode_p`, and whether the mode alone does not represent the list. -/
def posixAclEquivMode (acl : List Entry) (mode : BitVec 32) : Option (BitVec 32 × Bool) :=
  (equivLoop 0 false acl).map fun r => (mode &&& ~~~sIrwxugo ||| r.1, r.2)

/-- The locals of the loops below. The entries seen so far stand in `acl`, and `group_obj` and `mask_obj`
are given by their places. -/
structure Masq where
  acl : List Entry
  mode : BitVec 32
  groupObj : Option ℕ
  maskObj : Option ℕ
  notEquiv : Bool

def Entry.restrict (e : Entry) (bits : BitVec 32) : Entry :=
  { e with perm := e.perm &&& (bits ||| ~~~sIrwxo).setWidth 16 }

def createEntry (s : Masq) (pa : Entry) : Option Masq :=
  match pa.tag with
  | .userObj =>
    let pa := pa.restrict (s.mode >>> 6)
    some { s with acl := s.acl ++ [pa], mode := s.mode &&& (pa.perm.setWidth 32 <<< 6 ||| ~~~sIrwxu) }
  | .user => some { s with acl := s.acl ++ [pa], notEquiv := true }
  | .group => some { s with acl := s.acl ++ [pa], notEquiv := true }
  | .groupObj => some { s with acl := s.acl ++ [pa], groupObj := some s.acl.length }
  | .other =>
    let pa := pa.restrict s.mode
    some { s with acl := s.acl ++ [pa], mode := s.mode &&& (pa.perm.setWidth 32 ||| ~~~sIrwxo) }
  | .mask => some { s with acl := s.acl ++ [pa], maskObj := some s.acl.length, notEquiv := true }
  | .unknown _ => none

/-- The entry of the group class: the mask, or else the one of the owning group. -/
def Masq.groupClass (s : Masq) : Option ℕ := s.maskObj.orElse fun _ => s.groupObj

def posixAclCreateMasq (acl : List Entry) (mode : BitVec 32) : Option (List Entry × BitVec 32 × Bool) :=
  match acl.foldlM createEntry ⟨[], mode, none, none, false⟩ with
  | none => none
  | some s =>
    match s.groupClass with
    | none => none
    | some i =>
      let acl := s.acl.modify i fun e => e.restrict (s.mode >>> 3)
      let perm := (acl[i]?.map Entry.perm).getD 0
      let mode' := s.mode &&& (perm.setWidth 32 <<< 3 ||| ~~~sIrwxg)
      some (acl, mode &&& ~~~sIrwxugo ||| mode', s.notEquiv)

def Entry.setPerm (e : Entry) (bits : BitVec 32) : Entry := { e with perm := bits.setWidth 16 }

def chmodEntry (s : Masq) (pa : Entry) : Option Masq :=
  match pa.tag with
  | .userObj => some { s with acl := s.acl ++ [pa.setPerm ((s.mode &&& sIrwxu) >>> 6)] }
  | .user => some { s with acl := s.acl ++ [pa] }
  | .group => some { s with acl := s.acl ++ [pa] }
  | .groupObj => some { s with acl := s.acl ++ [pa], groupObj := some s.acl.length }
  | .mask => some { s with acl := s.acl ++ [pa], maskObj := some s.acl.length }
  | .other => some { s with acl := s.acl ++ [pa.setPerm (s.mode &&& sIrwxo)] }
  | .unknown _ => none

def posixAclChmodMasq (acl : List Entry) (mode : BitVec 32) : Option (List Entry) :=
  match acl.foldlM chmodEntry ⟨[], mode, none, none, false⟩ with
  | none => none
  | some s =>
    s.groupClass.map fun i => s.acl.modify i fun e => e.setPerm ((mode &&& sIrwxg) >>> 3)

end Mode

end VDLinux.Fs.Acl
