import Mathlib

namespace VDLinux.Net

structure SockFilter where
  code : UInt16
  jt : UInt8
  jf : UInt8
  k : UInt32
  deriving DecidableEq, Repr

/-- The `BPF_S_` codes, which `sk_chk_filter` writes and `sk_run_filter` reads. -/
inductive Op
  | retK | retA | aluAddK | aluAddX | aluSubK | aluSubX | aluMulK | aluMulX | aluDivX
  | aluAndK | aluAndX | aluOrK | aluOrX | aluLshK | aluLshX | aluRshK | aluRshX | aluNeg
  | ldWAbs | ldHAbs | ldBAbs | ldWLen | ldWInd | ldHInd | ldBInd | ldImm
  | ldxWLen | ldxBMsh | ldxImm | miscTax | miscTxa | aluDivK | ldMem | ldxMem | st | stx
  | jmpJa | jmpJeqK | jmpJeqX | jmpJgeK | jmpJgeX | jmpJgtK | jmpJgtX | jmpJsetK | jmpJsetX
  deriving DecidableEq, Repr

namespace Op

def all : List Op :=
  [retK, retA, aluAddK, aluAddX, aluSubK, aluSubX, aluMulK, aluMulX, aluDivX,
   aluAndK, aluAndX, aluOrK, aluOrX, aluLshK, aluLshX, aluRshK, aluRshX, aluNeg,
   ldWAbs, ldHAbs, ldBAbs, ldWLen, ldWInd, ldHInd, ldBInd, ldImm,
   ldxWLen, ldxBMsh, ldxImm, miscTax, miscTxa, aluDivK, ldMem, ldxMem, st, stx,
   jmpJa, jmpJeqK, jmpJeqX, jmpJgeK, jmpJgeX, jmpJgtK, jmpJgtX, jmpJsetK, jmpJsetX]

def code (op : Op) : UInt16 := UInt16.ofNat (all.idxOf op)

def ofCode (c : UInt16) : Option Op := all[c.toNat]?

@[simp] theorem ofCode_code (op : Op) : ofCode op.code = some op := by
  cases op <;> rfl

end Op

def bpfLd : UInt16 := 0x00
def bpfLdx : UInt16 := 0x01
def bpfSt : UInt16 := 0x02
def bpfStx : UInt16 := 0x03
def bpfAlu : UInt16 := 0x04
def bpfJmp : UInt16 := 0x05
def bpfRet : UInt16 := 0x06
def bpfMisc : UInt16 := 0x07

def bpfW : UInt16 := 0x00
def bpfH : UInt16 := 0x08
def bpfB : UInt16 := 0x10
def bpfImm : UInt16 := 0x00
def bpfAbs : UInt16 := 0x20
def bpfInd : UInt16 := 0x40
def bpfMem : UInt16 := 0x60
def bpfLen : UInt16 := 0x80
def bpfMsh : UInt16 := 0xa0

def bpfAdd : UInt16 := 0x00
def bpfSub : UInt16 := 0x10
def bpfMul : UInt16 := 0x20
def bpfDiv : UInt16 := 0x30
def bpfOr : UInt16 := 0x40
def bpfAnd : UInt16 := 0x50
def bpfLsh : UInt16 := 0x60
def bpfRsh : UInt16 := 0x70
def bpfNeg : UInt16 := 0x80
def bpfJa : UInt16 := 0x00
def bpfJeq : UInt16 := 0x10
def bpfJgt : UInt16 := 0x20
def bpfJge : UInt16 := 0x30
def bpfJset : UInt16 := 0x40
def bpfK : UInt16 := 0x00
def bpfX : UInt16 := 0x08
def bpfA : UInt16 := 0x10
def bpfTax : UInt16 := 0x00
def bpfTxa : UInt16 := 0x80

/-- The cases of the first switch of `sk_chk_filter`, with the code each one writes. -/
def chkCases : List (UInt16 × Op) :=
  [(bpfAlu ||| bpfAdd ||| bpfK, .aluAddK), (bpfAlu ||| bpfAdd ||| bpfX, .aluAddX),
   (bpfAlu ||| bpfSub ||| bpfK, .aluSubK), (bpfAlu ||| bpfSub ||| bpfX, .aluSubX),
   (bpfAlu ||| bpfMul ||| bpfK, .aluMulK), (bpfAlu ||| bpfMul ||| bpfX, .aluMulX),
   (bpfAlu ||| bpfDiv ||| bpfX, .aluDivX),
   (bpfAlu ||| bpfAnd ||| bpfK, .aluAndK), (bpfAlu ||| bpfAnd ||| bpfX, .aluAndX),
   (bpfAlu ||| bpfOr ||| bpfK, .aluOrK), (bpfAlu ||| bpfOr ||| bpfX, .aluOrX),
   (bpfAlu ||| bpfLsh ||| bpfK, .aluLshK), (bpfAlu ||| bpfLsh ||| bpfX, .aluLshX),
   (bpfAlu ||| bpfRsh ||| bpfK, .aluRshK), (bpfAlu ||| bpfRsh ||| bpfX, .aluRshX),
   (bpfAlu ||| bpfNeg, .aluNeg),
   (bpfLd ||| bpfW ||| bpfAbs, .ldWAbs), (bpfLd ||| bpfH ||| bpfAbs, .ldHAbs),
   (bpfLd ||| bpfB ||| bpfAbs, .ldBAbs), (bpfLd ||| bpfW ||| bpfLen, .ldWLen),
   (bpfLd ||| bpfW ||| bpfInd, .ldWInd), (bpfLd ||| bpfH ||| bpfInd, .ldHInd),
   (bpfLd ||| bpfB ||| bpfInd, .ldBInd), (bpfLd ||| bpfImm, .ldImm),
   (bpfLdx ||| bpfW ||| bpfLen, .ldxWLen), (bpfLdx ||| bpfB ||| bpfMsh, .ldxBMsh),
   (bpfLdx ||| bpfImm, .ldxImm), (bpfMisc ||| bpfTax, .miscTax), (bpfMisc ||| bpfTxa, .miscTxa),
   (bpfRet ||| bpfK, .retK), (bpfRet ||| bpfA, .retA),
   (bpfAlu ||| bpfDiv ||| bpfK, .aluDivK),
   (bpfLd ||| bpfMem, .ldMem), (bpfLdx ||| bpfMem, .ldxMem), (bpfSt, .st), (bpfStx, .stx),
   (bpfJmp ||| bpfJa, .jmpJa),
   (bpfJmp ||| bpfJeq ||| bpfK, .jmpJeqK), (bpfJmp ||| bpfJeq ||| bpfX, .jmpJeqX),
   (bpfJmp ||| bpfJge ||| bpfK, .jmpJgeK), (bpfJmp ||| bpfJge ||| bpfX, .jmpJgeX),
   (bpfJmp ||| bpfJgt ||| bpfK, .jmpJgtK), (bpfJmp ||| bpfJgt ||| bpfX, .jmpJgtX),
   (bpfJmp ||| bpfJset ||| bpfK, .jmpJsetK), (bpfJmp ||| bpfJset ||| bpfX, .jmpJsetX)]

def bpfMemwords : ℕ := 16

def bpfMaxinsns : ℕ := 4096

/-- The checks on the operands of the instruction at `pc` of `flen`. -/
def Op.operandsOk (flen pc : ℕ) (f : SockFilter) : Op → Bool
  | .aluDivK => f.k != 0
  | .ldMem | .ldxMem | .st | .stx => f.k.toNat < bpfMemwords
  | .jmpJa => f.k.toNat < flen - pc - 1
  | .jmpJeqK | .jmpJeqX | .jmpJgeK | .jmpJgeX | .jmpJgtK | .jmpJgtX | .jmpJsetK | .jmpJsetX =>
    !(pc + f.jt.toNat + 1 ≥ flen || pc + f.jf.toNat + 1 ≥ flen)
  | _ => true

/-- One round of the loop: the instruction with its code rewritten, or `-EINVAL`. -/
def chkInsn (flen pc : ℕ) (f : SockFilter) : Option SockFilter := do
  let op ← chkCases.lookup f.code
  if op.operandsOk flen pc f then some { f with code := op.code } else none

def chkLoop (flen : ℕ) : ℕ → List SockFilter → Option (List SockFilter)
  | _, [] => some []
  | pc, f :: fs => do
    let g ← chkInsn flen pc f
    let gs ← chkLoop flen (pc + 1) fs
    return g :: gs

def isRet (f : SockFilter) : Bool :=
  f.code == Op.retK.code || f.code == Op.retA.code

/-- The filter with its codes rewritten in place, or `none` for `-EINVAL`. -/
def skChkFilter (filter : List SockFilter) : Option (List SockFilter) :=
  if filter.length = 0 ∨ filter.length > bpfMaxinsns then none
  else (chkLoop filter.length 0 filter).filter fun insns => insns.getLast?.any isRet

theorem chkInsn_eq {flen pc : ℕ} {f g : SockFilter} (h : chkInsn flen pc f = some g) :
    ∃ op : Op, g = { f with code := op.code } ∧ op.operandsOk flen pc f := by
  simp only [chkInsn, Option.bind_eq_bind, Option.bind_eq_some_iff] at h
  obtain ⟨op, -, hop⟩ := h
  by_cases hok : op.operandsOk flen pc f
  · rw [if_pos hok] at hop
    exact ⟨op, (Option.some.inj hop).symm, hok⟩
  · rw [if_neg hok] at hop
    cases hop

def Checked (flen pc : ℕ) (f : SockFilter) : Prop :=
  ∃ op : Op, f.code = op.code ∧ op.operandsOk flen pc f

theorem chkLoop_checked {flen pc : ℕ} {fs gs : List SockFilter} (h : chkLoop flen pc fs = some gs) :
    gs.length = fs.length ∧ ∀ i g, gs[i]? = some g → Checked flen (pc + i) g := by
  induction fs generalizing pc gs with
  | nil =>
    cases h
    exact ⟨rfl, by simp⟩
  | cons f fs ih =>
    simp only [chkLoop, Option.bind_eq_bind, Option.bind_eq_some_iff, pure, Option.some.injEq] at h
    obtain ⟨g, hg, gs', hgs, hcons⟩ := h
    obtain ⟨hlen, hrest⟩ := ih hgs
    obtain ⟨op, hop, hok⟩ := chkInsn_eq hg
    subst hcons
    refine ⟨by simp only [List.length_cons, hlen], fun i g' hi => ?_⟩
    cases i with
    | zero =>
      obtain rfl : g = g' := by simpa using hi
      refine ⟨op, by rw [hop], ?_⟩
      rw [hop]
      -- the operands are those of the instruction before its code was rewritten
      cases op <;> exact hok
    | succ i =>
      have := hrest i g' (by simpa using hi)
      rwa [Nat.add_assoc, Nat.add_comm 1 i] at this

structure Accepted (insns : List SockFilter) : Prop where
  length_le : insns.length ≤ bpfMaxinsns
  checked : ∀ pc f, insns[pc]? = some f → Checked insns.length pc f
  last_ret : ∀ f, insns[insns.length - 1]? = some f → isRet f

theorem skChkFilter_accepted {filter insns : List SockFilter} (h : skChkFilter filter = some insns) :
    Accepted insns ∧ insns.length = filter.length ∧ 0 < filter.length := by
  unfold skChkFilter at h
  split at h
  · cases h
  · next hlen =>
    obtain ⟨hloop, hlast⟩ := Option.filter_eq_some_iff.mp h
    obtain ⟨hl, hchk⟩ := chkLoop_checked hloop
    refine ⟨⟨by omega, fun pc f hf => ?_, fun f hf => ?_⟩, hl, by omega⟩
    · simpa [hl] using hchk pc f hf
    · rw [← List.getLast?_eq_getElem?] at hf
      simpa [hf] using hlast

end VDLinux.Net
