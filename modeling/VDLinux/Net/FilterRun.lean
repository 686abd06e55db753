import VDLinux.Base.Halting
import VDLinux.Net.FilterCheck
import VDLinux.Net.SocketBuffer

namespace VDLinux.Net

open Base.Halting

/-- What C leaves to the target: shifts by 32 bits or more. -/
structure Target where
  wideShl : UInt32 → UInt32 → UInt32
  wideShr : UInt32 → UInt32 → UInt32

def Target.shl (t : Target) (a n : UInt32) : UInt32 := if n < 32 then a <<< n else t.wideShl a n

def Target.shr (t : Target) (a n : UInt32) : UInt32 := if n < 32 then a >>> n else t.wideShr a n

def Target.keeping : Target := ⟨fun a _ => a, fun a _ => a⟩

/-- How a run of the filter ends. After `fellOff` and `warn` the code returns 0 as well; the last three
are accesses outside `filter` or `mem` and a division by zero. -/
inductive Stop
  | ret (len : UInt32)
  | noData
  | zeroX
  | fellOff
  | warn
  | outsideFilter
  | outsideMem
  | zeroK
  deriving DecidableEq, Repr

/-- A `RET`, a load of data that is not there, or a division by `X = 0`. -/
def Stop.Regular : Stop → Prop
  | .ret _ | .noData | .zeroX => True
  | _ => False

structure Regs where
  pc : ℤ
  a : UInt32
  x : UInt32
  mem : Vector UInt32 bpfMemwords
  memvalid : UInt32
  deriving DecidableEq, Repr

namespace Regs

def setA (s : Regs) (a : UInt32) : Regs := { s with a }

def setX (s : Regs) (x : UInt32) : Regs := { s with x }

/-- `pc += n`, in an `int`. -/
def jump (s : Regs) (n : ℕ) : Regs := { s with pc := Int.bmod (s.pc + n) (2 ^ 32) }

def valid (s : Regs) (k : UInt32) : Bool := s.memvalid &&& (1 <<< k) != 0

def load (s : Regs) (k : UInt32) : Except Stop UInt32 :=
  if h : k.toNat < bpfMemwords then .ok (if s.valid k then s.mem[k.toNat] else 0)
  else .error .outsideMem

def store (s : Regs) (k v : UInt32) : Except Stop Regs :=
  if h : k.toNat < bpfMemwords then
    .ok { s with memvalid := s.memvalid ||| (1 <<< k), mem := s.mem.set k.toNat v }
  else .error .outsideMem

end Regs

/-- The result of an ancillary load of an attribute, with the offsets from `skb->data` it reads. -/
structure AttrLoad where
  reads : List ℕ
  result : Except Stop UInt32

def AttrLoad.ofWalk (walk : AttrWalk) : AttrLoad :=
  ⟨walk.reads, .ok (UInt32.ofNat (walk.found.getD 0))⟩

def adNlattr (skb : Skb) (a x : UInt32) : AttrLoad :=
  if skb.isNonlinear then ⟨[], .error .noData⟩
  else if a > skb.len - 4 then ⟨[], .error .noData⟩
  else .ofWalk (nlaFind skb.dataByte a.toNat (asInt (skb.len - a)) (asInt x))

def adNlattrNest (skb : Skb) (a x : UInt32) : AttrLoad :=
  if skb.isNonlinear then ⟨[], .error .noData⟩
  else if a > skb.len - 4 then ⟨[], .error .noData⟩
  else
    let len := nlaLen skb.dataByte a.toNat
    if UInt32.ofNat len > a - skb.len then ⟨[a.toNat, a.toNat + 1], .error .noData⟩
    else
      let nested := nlaFind skb.dataByte (a.toNat + nlaHdrlen) (len - nlaHdrlen) (asInt x)
      .ofWalk ⟨[a.toNat, a.toNat + 1] ++ nested.reads, nested.found⟩

/-- The second switch of `sk_run_filter`, over the data that is not in the packet. -/
def ancillary (skb : Skb) (k : ℤ) (a x : UInt32) : Except Stop UInt32 :=
  match k - skfAdOff with
  | 0 => .ok (ntohs skb.protocol).toUInt32
  | 4 => .ok skb.pktType.toUInt32
  | 8 => match skb.dev with
    | none => .error .noData
    | some dev => .ok dev.ifindex
  | 12 => (adNlattr skb a x).result
  | 16 => (adNlattrNest skb a x).result
  | 20 => .ok skb.mark
  | 24 => .ok skb.queueMapping.toUInt32
  | 28 => match skb.dev with
    | none => .error .noData
    | some dev => .ok dev.type.toUInt32
  | _ => .error .noData

/-- The labels `load_w`, `load_h` and `load_b`. -/
def loadSized (skb : Skb) (size : ℕ) (k : ℤ) (s : Regs) : Except Stop Regs :=
  match loadPointer skb k size with
  | some p => .ok (s.setA (getUnalignedBe size p))
  | none => (ancillary skb k s.a s.x).map s.setA

def loadMsh (skb : Skb) (k : ℤ) (s : Regs) : Except Stop Regs :=
  match loadPointer skb k 1 with
  | some p => .ok (s.setX (((p 0).toUInt32 &&& 0xf) <<< 2))
  | none => .error .noData

def branch (s : Regs) (f : SockFilter) (taken : Bool) : Except Stop Regs :=
  .ok (s.jump (if taken then f.jt.toNat else f.jf.toNat))

/-- The cases of the switch over the instructions; `pc++` is left to the loop. -/
def execOp (t : Target) (skb : Skb) (f : SockFilter) (s : Regs) : Op → Except Stop Regs
  | .aluAddX => .ok (s.setA (s.a + s.x))
  | .aluAddK => .ok (s.setA (s.a + f.k))
  | .aluSubX => .ok (s.setA (s.a - s.x))
  | .aluSubK => .ok (s.setA (s.a - f.k))
  | .aluMulX => .ok (s.setA (s.a * s.x))
  | .aluMulK => .ok (s.setA (s.a * f.k))
  | .aluDivX => if s.x = 0 then .error .zeroX else .ok (s.setA (s.a / s.x))
  | .aluDivK => if f.k = 0 then .error .zeroK else .ok (s.setA (s.a / f.k))
  | .aluAndX => .ok (s.setA (s.a &&& s.x))
  | .aluAndK => .ok (s.setA (s.a &&& f.k))
  | .aluOrX => .ok (s.setA (s.a ||| s.x))
  | .aluOrK => .ok (s.setA (s.a ||| f.k))
  | .aluLshX => .ok (s.setA (t.shl s.a s.x))
  | .aluLshK => .ok (s.setA (t.shl s.a f.k))
  | .aluRshX => .ok (s.setA (t.shr s.a s.x))
  | .aluRshK => .ok (s.setA (t.shr s.a f.k))
  | .aluNeg => .ok (s.setA (-s.a))
  | .jmpJa => .ok (s.jump f.k.toNat)
  | .jmpJgtK => branch s f (s.a > f.k)
  | .jmpJgeK => branch s f (s.a ≥ f.k)
  | .jmpJeqK => branch s f (s.a == f.k)
  | .jmpJsetK => branch s f (s.a &&& f.k != 0)
  | .jmpJgtX => branch s f (s.a > s.x)
  | .jmpJgeX => branch s f (s.a ≥ s.x)
  | .jmpJeqX => branch s f (s.a == s.x)
  | .jmpJsetX => branch s f (s.a &&& s.x != 0)
  | .ldWAbs => loadSized skb 4 (asInt f.k) s
  | .ldHAbs => loadSized skb 2 (asInt f.k) s
  | .ldBAbs => loadSized skb 1 (asInt f.k) s
  | .ldWLen => .ok (s.setA skb.len)
  | .ldxWLen => .ok (s.setX skb.len)
  | .ldWInd => loadSized skb 4 (asInt (s.x + f.k)) s
  | .ldHInd => loadSized skb 2 (asInt (s.x + f.k)) s
  | .ldBInd => loadSized skb 1 (asInt (s.x + f.k)) s
  | .ldxBMsh => loadMsh skb (asInt f.k) s
  | .ldImm => .ok (s.setA f.k)
  | .ldxImm => .ok (s.setX f.k)
  | .ldMem => (s.load f.k).map s.setA
  | .ldxMem => (s.load f.k).map s.setX
  | .miscTax => .ok (s.setX s.a)
  | .miscTxa => .ok (s.setA s.x)
  | .retK => .error (.ret f.k)
  | .retA => .error (.ret s.a)
  | .st => s.store f.k s.a
  | .stx => s.store f.k s.x

def exec (t : Target) (skb : Skb) (f : SockFilter) (s : Regs) : Except Stop Regs :=
  match Op.ofCode f.code with
  | none => .error .warn
  | some op => execOp t skb f s op

def step (t : Target) (skb : Skb) (insns : List SockFilter) (s : Regs) : Except Stop Regs :=
  if s.pc ≥ insns.length then .error .fellOff
  else if s.pc < 0 then .error .outsideFilter
  else match insns[s.pc.toNat]? with
    | none => .error .outsideFilter
    | some f => (exec t skb f s).map fun s => s.jump 1

/-- The registers before the first instruction; `mem` is not initialised. -/
def start (mem : Vector UInt32 bpfMemwords) : Regs := ⟨0, 0, 0, mem, 0⟩

/-- `sk_run_filter` for at most `fuel` instructions. -/
def skRunFilter (t : Target) (skb : Skb) (insns : List SockFilter)
    (mem : Vector UInt32 bpfMemwords) (fuel : ℕ) : Option Stop :=
  runFor (step t skb insns) fuel (start mem)

section Safety

variable {t : Target} {skb : Skb}

theorem attrLoad_regular (skb : Skb) (a x : UInt32) {e : Stop}
    (h : (adNlattr skb a x).result = .error e ∨ (adNlattrNest skb a x).result = .error e) :
    e = .noData := by
  simp only [adNlattr, adNlattrNest, AttrLoad.ofWalk] at h
  grind

theorem ancillary_error {k : ℤ} {a x : UInt32} {e : Stop} (h : ancillary skb k a x = .error e) :
    e = .noData := by
  have hattr := @attrLoad_regular skb a x e
  simp only [ancillary] at h
  grind

/-- A regular stop, or registers with `P`. -/
def Safe (x : Except Stop Regs) (P : Regs → Prop) : Prop :=
  (∃ e, x = .error e ∧ e.Regular) ∨ ∃ s, x = .ok s ∧ P s

variable {x : Except Stop Regs} {P Q : Regs → Prop} {s s' : Regs}

theorem Safe.mono (h : Safe x P) (hPQ : ∀ s, P s → Q s) : Safe x Q :=
  h.imp_right fun ⟨s, hs, hP⟩ => ⟨s, hs, hPQ s hP⟩

theorem Safe.regular (h : Safe x P) {e : Stop} (hx : x = .error e) : e.Regular := by
  obtain ⟨e', he, hreg⟩ | ⟨s, hs, -⟩ := h
  · rw [he] at hx
    cases hx
    exact hreg
  · rw [hs] at hx
    cases hx

theorem Safe.of_ok (h : Safe x P) (hx : x = .ok s) : P s := by
  obtain ⟨e, he, -⟩ | ⟨s', hs, hP⟩ := h
  · rw [he] at hx
    cases hx
  · rw [hs] at hx
    cases hx
    exact hP

theorem loadSized_safe (size : ℕ) (k : ℤ) : Safe (loadSized skb size k s) (·.pc = s.pc) := by
  unfold loadSized
  split
  · exact .inr ⟨_, rfl, rfl⟩
  · cases hanc : ancillary skb k s.a s.x with
    | ok v => exact .inr ⟨_, rfl, rfl⟩
    | error e => exact .inl ⟨e, rfl, ancillary_error hanc ▸ True.intro⟩

theorem loadMsh_safe (k : ℤ) : Safe (loadMsh skb k s) (·.pc = s.pc) := by
  unfold loadMsh
  split
  · exact .inr ⟨_, rfl, rfl⟩
  · exact .inl ⟨_, rfl, True.intro⟩

theorem jump_pc {n : ℕ} (hpc : 0 ≤ s.pc) (hlt : s.pc + n < 2 ^ 31) : (s.jump n).pc = s.pc + n := by
  simp only [Regs.jump, Int.bmod]
  omega

theorem load_eq {k : UInt32} (hk : k.toNat < bpfMemwords) : ∃ v, s.load k = .ok v := by
  simp only [Regs.load, dif_pos hk, Except.ok.injEq, exists_eq']

theorem store_eq {k : UInt32} (v : UInt32) (hk : k.toNat < bpfMemwords) :
    ∃ s', s.store k v = .ok s' ∧ s'.pc = s.pc := by
  simp only [Regs.store, dif_pos hk, Except.ok.injEq, exists_eq_left']

theorem branch_pc {f : SockFilter} {taken : Bool} {flen : ℕ} (hpc : 0 ≤ s.pc)
    (hflen : flen ≤ bpfMaxinsns) (hjt : s.pc + f.jt.toNat + 1 < flen)
    (hjf : s.pc + f.jf.toNat + 1 < flen) (h : branch s f taken = .ok s') :
    s.pc ≤ s'.pc ∧ s'.pc + 1 < flen := by
  simp only [bpfMaxinsns] at hflen
  cases h
  cases taken with
  | true =>
    rw [if_pos rfl, jump_pc hpc (by omega)]
    omega
  | false =>
    rw [if_neg Bool.false_ne_true, jump_pc hpc (by omega)]
    omega

/-- An instruction that does not stop the run leads to the next one, or it is a jump within the
program. -/
theorem execOp_safe {flen : ℕ} {f : SockFilter} {op : Op} (hpc : 0 ≤ s.pc)
    (hflen : flen ≤ bpfMaxinsns) (hok : op.operandsOk flen s.pc.toNat f) :
    Safe (execOp t skb f s op) fun s' =>
      s'.pc = s.pc ∧ op ≠ .retK ∧ op ≠ .retA ∨ s.pc ≤ s'.pc ∧ s'.pc + 1 < flen := by
  cases op with
  | retK | retA => exact .inl ⟨_, rfl, True.intro⟩
  | jmpJa =>
    simp only [Op.operandsOk, decide_eq_true_eq, bpfMaxinsns] at hok hflen
    refine .inr ⟨_, rfl, .inr ?_⟩
    rw [jump_pc hpc (by omega)]
    omega
  | jmpJeqK | jmpJeqX | jmpJgeK | jmpJgeX | jmpJgtK | jmpJgtX | jmpJsetK | jmpJsetX =>
    simp only [Op.operandsOk, ge_iff_le, Bool.not_or, Bool.and_eq_true, Bool.not_eq_true',
      decide_eq_false_iff_not] at hok
    exact .inr ⟨_, rfl, .inr (branch_pc hpc hflen (by omega) (by omega) rfl)⟩
  | aluDivX =>
    by_cases hx : s.x = 0
    · exact .inl ⟨_, if_pos hx, True.intro⟩
    · exact .inr ⟨_, if_neg hx, .inl ⟨rfl, by decide, by decide⟩⟩
  | aluDivK =>
    have hk : f.k ≠ 0 := by simpa [Op.operandsOk] using hok
    exact .inr ⟨_, if_neg hk, .inl ⟨rfl, by decide, by decide⟩⟩
  | ldWAbs | ldHAbs | ldBAbs | ldWInd | ldHInd | ldBInd =>
    simp only [execOp]
    exact (loadSized_safe _ _).mono fun _ h => .inl ⟨h, by decide, by decide⟩
  | ldxBMsh =>
    simp only [execOp]
    exact (loadMsh_safe _).mono fun _ h => .inl ⟨h, by decide, by decide⟩
  | ldMem | ldxMem =>
    obtain ⟨v, hv⟩ := load_eq (s := s) (by simpa [Op.operandsOk] using hok)
    simp only [execOp, hv, Except.map]
    exact .inr ⟨_, rfl, .inl ⟨rfl, by decide, by decide⟩⟩
  | st | stx =>
    obtain ⟨s₁, hs₁, hpc₁⟩ := store_eq (s := s) _ (by simpa [Op.operandsOk] using hok)
    exact .inr ⟨s₁, hs₁, .inl ⟨hpc₁, by decide, by decide⟩⟩
  | _ => exact .inr ⟨_, rfl, .inl ⟨rfl, by decide, by decide⟩⟩

def InFilter (insns : List SockFilter) (s : Regs) : Prop := 0 ≤ s.pc ∧ s.pc < insns.length

variable {insns : List SockFilter}

theorem step_eq (hacc : Accepted insns) (hs : InFilter insns s) :
    ∃ f op, f.code = op.code ∧ op.operandsOk insns.length s.pc.toNat f ∧
      (s.pc = insns.length - 1 → op = .retK ∨ op = .retA) ∧
      step t skb insns s = (execOp t skb f s op).map fun s => s.jump 1 := by
  obtain ⟨hpos, hlt⟩ := hs
  have hidx : s.pc.toNat < insns.length := by omega
  obtain ⟨op, hcode, hok⟩ := hacc.checked _ _ (List.getElem?_eq_getElem hidx)
  refine ⟨insns[s.pc.toNat], op, hcode, hok, fun hlast => ?_, ?_⟩
  · have hret : isRet insns[s.pc.toNat] := hacc.last_ret _ (by
      rw [← List.getElem?_eq_getElem hidx]
      congr 1
      omega)
    simp only [isRet, hcode, Bool.or_eq_true, beq_iff_eq] at hret
    revert hret
    cases op <;> decide
  · rw [step, if_neg (by omega), if_neg (by omega), List.getElem?_eq_getElem hidx]
    simp only [exec, hcode, Op.ofCode_code]

theorem step_safe (hacc : Accepted insns) (hs : InFilter insns s) :
    Safe (step t skb insns s) fun s' => InFilter insns s' ∧ s.pc < s'.pc := by
  obtain ⟨f, op, -, hok, hlast, hstep⟩ := step_eq hacc hs
  rw [hstep]
  obtain ⟨hpos, hlt⟩ := hs
  have hmax := hacc.length_le
  simp only [bpfMaxinsns] at hmax
  obtain ⟨e, he, hreg⟩ | ⟨s₁, hs₁, hcase⟩ := execOp_safe hpos hacc.length_le hok
  · exact .inl ⟨e, by rw [he]; rfl, hreg⟩
  · have hnext : s.pc ≤ s₁.pc ∧ s₁.pc + 1 < insns.length := by
      obtain ⟨heq, hk, ha⟩ | hjump := hcase
      · -- only the last instruction has none after it, and that one is a `RET`
        have : s.pc ≠ insns.length - 1 := fun hpc => (hlast hpc).elim hk ha
        omega
      · exact hjump
    refine .inr ⟨s₁.jump 1, by rw [hs₁]; rfl, ?_⟩
    simp only [InFilter]
    rw [jump_pc (by omega) (by omega)]
    omega

end Safety

section Scratch

variable {t : Target} {skb : Skb}

def Regs.withMem (s : Regs) (mem : Vector UInt32 bpfMemwords) : Regs := { s with mem }

/-- `mem` holds the same words as the registers wherever they are valid. -/
def SameValid (s : Regs) (mem : Vector UInt32 bpfMemwords) : Prop :=
  ∀ i (hi : i < bpfMemwords), s.valid (UInt32.ofNat i) → s.mem[i] = mem[i]

/-- The two runs stop alike, or go on in registers that differ in words that are not valid. -/
def Alike (x y : Except Stop Regs) : Prop :=
  (∃ e, x = .error e ∧ y = .error e) ∨
    ∃ s mem, x = .ok s ∧ y = .ok (s.withMem mem) ∧ SameValid s mem

theorem Alike.error (e : Stop) : Alike (.error e) (.error e) := .inl ⟨e, rfl, rfl⟩

theorem Alike.ok {s : Regs} {mem : Vector UInt32 bpfMemwords} (h : SameValid s mem) :
    Alike (.ok s) (.ok (s.withMem mem)) := .inr ⟨s, mem, rfl, rfl, h⟩

theorem disjoint_bits {i j : ℕ} (hi : i < bpfMemwords) (hj : j < bpfMemwords) (h : i ≠ j) :
    (1 <<< UInt32.ofNat i : UInt32) &&& (1 <<< UInt32.ofNat j) = 0 := by
  have hall : ∀ i j : Fin 16, i ≠ j →
      (1 <<< UInt32.ofNat i.1 : UInt32) &&& (1 <<< UInt32.ofNat j.1) = 0 := by decide
  exact hall ⟨i, hi⟩ ⟨j, hj⟩ fun heq => h (congrArg Fin.val heq)

theorem or_and_eq_zero {a b c : UInt32} (ha : a &&& c = 0) (hb : b &&& c = 0) :
    (a ||| b) &&& c = 0 := by
  apply UInt32.toNat_inj.mp
  have ha' := congrArg UInt32.toNat ha
  have hb' := congrArg UInt32.toNat hb
  rw [UInt32.toNat_and] at ha' hb' ⊢
  rw [UInt32.toNat_or, Nat.and_or_distrib_right, ha', hb']
  rfl

variable {s : Regs} {mem : Vector UInt32 bpfMemwords}

variable (h : SameValid s mem)
include h

theorem load_withMem (k : UInt32) : (s.withMem mem).load k = s.load k := by
  unfold Regs.load
  by_cases hk : k.toNat < bpfMemwords
  · rw [show (s.withMem mem).valid k = s.valid k from rfl]
    split_ifs with hv
    · exact congrArg _ (h k.toNat hk (by simpa using hv)).symm
    · rfl
  · rw [dif_neg hk, dif_neg hk]

theorem store_withMem (k v : UInt32) : Alike (s.store k v) ((s.withMem mem).store k v) := by
  unfold Regs.store
  by_cases hk : k.toNat < bpfMemwords
  · rw [dif_pos hk, dif_pos hk]
    refine .inr ⟨_, mem.set k.toNat v, rfl, rfl, fun i hi hv => ?_⟩
    simp only [Vector.getElem_set]
    by_cases hki : k.toNat = i
    · simp only [hki, if_true]
    · simp only [hki, if_false]
      apply h i hi
      have hbits := disjoint_bits hk hi hki
      simp only [Regs.valid, UInt32.ofNat_toNat, bne_iff_ne, ne_eq] at hv hbits ⊢
      intro hzero
      exact hv (or_and_eq_zero hzero hbits)
  · rw [dif_neg hk, dif_neg hk]
    exact .error _

theorem SameValid.setA (a : UInt32) : SameValid (s.setA a) mem := h

theorem SameValid.setX (x : UInt32) : SameValid (s.setX x) mem := h

theorem SameValid.jump (n : ℕ) : SameValid (s.jump n) mem := h

theorem map_setA_alike (x : Except Stop UInt32) :
    Alike (x.map s.setA) (x.map (s.withMem mem).setA) := by
  cases x with
  | error e => exact .error e
  | ok v => exact .ok (h.setA v)

theorem map_setX_alike (x : Except Stop UInt32) :
    Alike (x.map s.setX) (x.map (s.withMem mem).setX) := by
  cases x with
  | error e => exact .error e
  | ok v => exact .ok (h.setX v)

theorem loadSized_alike (size : ℕ) (k : ℤ) :
    Alike (loadSized skb size k s) (loadSized skb size k (s.withMem mem)) := by
  unfold loadSized
  split
  · exact .ok (h.setA _)
  · exact map_setA_alike h _

theorem loadMsh_alike (k : ℤ) : Alike (loadMsh skb k s) (loadMsh skb k (s.withMem mem)) := by
  unfold loadMsh
  split
  · exact .ok (h.setX _)
  · exact .error _

theorem branch_alike (f : SockFilter) (taken : Bool) :
    Alike (branch s f taken) (branch (s.withMem mem) f taken) := .ok (h.jump _)

theorem execOp_alike (f : SockFilter) (op : Op) :
    Alike (execOp t skb f s op) (execOp t skb f (s.withMem mem) op) := by
  cases op with
  | retK | retA => exact .error _
  | aluDivX | aluDivK =>
    simp only [execOp, show (s.withMem mem).x = s.x from rfl]
    split
    · exact .error _
    · exact .ok (h.setA _)
  | ldWAbs | ldHAbs | ldBAbs | ldWInd | ldHInd | ldBInd =>
    simp only [execOp]
    exact loadSized_alike h _ _
  | ldxBMsh =>
    simp only [execOp]
    exact loadMsh_alike h _
  | ldMem =>
    simp only [execOp, load_withMem h]
    exact map_setA_alike h _
  | ldxMem =>
    simp only [execOp, load_withMem h]
    exact map_setX_alike h _
  | st | stx => exact store_withMem h _ _
  | jmpJa => exact .ok (h.jump _)
  | jmpJeqK | jmpJeqX | jmpJgeK | jmpJgeX | jmpJgtK | jmpJgtX | jmpJsetK | jmpJsetX =>
    exact branch_alike h f _
  | ldxWLen | ldxImm | miscTax => exact .ok (h.setX _)
  | _ => exact .ok (h.setA _)

omit h

theorem step_alike (insns : List SockFilter) (h : SameValid s mem) :
    Alike (step t skb insns s) (step t skb insns (s.withMem mem)) := by
  have hpc : (s.withMem mem).pc = s.pc := rfl
  unfold step
  rw [hpc]
  split
  · exact .error _
  split
  · exact .error _
  split
  · exact .error _
  · next f _ =>
    unfold exec
    split
    · exact .error _
    · next op _ =>
      obtain ⟨e, hs, hm⟩ | ⟨s', mem', hs, hm, h'⟩ := execOp_alike (t := t) h f op
      · rw [hs, hm]
        exact .error e
      · rw [hs, hm]
        exact .ok (h'.jump 1)

end Scratch

variable (t : Target) (skb : Skb) {insns : List SockFilter}

theorem start_inFilter (hpos : 0 < insns.length) (mem : Vector UInt32 bpfMemwords) :
    InFilter insns (start mem) :=
  ⟨Int.le_refl 0, Int.natCast_pos.mpr hpos⟩

theorem skRunFilter_halts (hacc : Accepted insns) (hpos : 0 < insns.length)
    (mem : Vector UInt32 bpfMemwords) :
    ∃ stop, skRunFilter t skb insns mem insns.length = some stop ∧ stop.Regular := by
  refine runFor_halts (InFilter insns) Stop.Regular (fun s => (insns.length - 1 - s.pc).toNat)
    (fun s e hs h => (step_safe hacc hs).regular h) (fun s s' hs h => ?_) (start_inFilter hpos mem) ?_
  · obtain ⟨hs', hlt⟩ := (step_safe hacc hs).of_ok h
    refine ⟨hs', ?_⟩
    obtain ⟨hpos', hlt'⟩ := hs'
    omega
  · simp only [start]
    omega

theorem skRunFilter_mem (mem mem' : Vector UInt32 bpfMemwords) (fuel : ℕ) :
    skRunFilter t skb insns mem fuel = skRunFilter t skb insns mem' fuel := by
  refine runFor_congr (fun s s' => ∃ mem, s' = s.withMem mem ∧ SameValid s mem)
    (fun s s' hs => ?_) ⟨mem', rfl, fun i hi hv => ?_⟩ fuel
  · obtain ⟨m, hm, hsame⟩ := hs
    subst hm
    obtain ⟨e, hx, hy⟩ | ⟨s₁, m₁, hx, hy, h₁⟩ := step_alike (t := t) insns hsame
    · exact .inl ⟨e, hx, hy⟩
    · exact .inr ⟨s₁, _, hx, hy, m₁, rfl, h₁⟩
  · simp [Regs.valid, start] at hv

end VDLinux.Net
