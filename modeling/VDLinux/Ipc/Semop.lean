import Mathlib

namespace VDLinux.Ipc.Semop

open Function List

def semvmx : ℤ := 32767
def semaem : ℤ := semvmx
def semUndo : Int16 := 0x1000
def ipcNowait : Int16 := 0o4000
def erange : ℤ := 34
def eagain : ℤ := 11

structure Sem where
  semval : ℤ
  sempid : ℤ
  deriving DecidableEq

/-- An operation on an array of `n` semaphores. -/
structure Sembuf (n : ℕ) where
  semNum : Fin n
  semOp : Int16
  semFlg : Int16

variable {n : ℕ}

abbrev Sembuf.Undo (sop : Sembuf n) : Prop := sop.semFlg &&& semUndo ≠ 0

def wouldBlock (sop : Sembuf n) : ℤ := if sop.semFlg &&& ipcNowait ≠ 0 then -eagain else 1

/-- The first loop: the semaphores, the operations it has passed, the last first, and the result of the
operation it stopped at. -/
def tryLoop (semadj : Fin n → Int16) (base : Fin n → Sem) (passed : List (Sembuf n)) :
    List (Sembuf n) → (Fin n → Sem) × List (Sembuf n) × Option ℤ
  | [] => (base, passed, none)
  | sop :: rest =>
    let curr := base sop.semNum
    let result := curr.semval + sop.semOp.toInt
    let undo := (semadj sop.semNum).toInt - sop.semOp.toInt
    if sop.semOp = 0 ∧ curr.semval ≠ 0 then (base, passed, some (wouldBlock sop))
    else if result < 0 then (base, passed, some (wouldBlock sop))
    else if semvmx < result then (base, passed, some (-erange))
    else if sop.Undo ∧ (undo < -semaem - 1 ∨ semaem < undo) then (base, passed, some (-erange))
    else tryLoop semadj (Function.update base sop.semNum { curr with semval := result }) (sop :: passed) rest

def commitLoop (pid : ℤ) (base : Fin n → Sem) (semadj : Fin n → Int16) :
    List (Sembuf n) → (Fin n → Sem) × (Fin n → Int16)
  | [] => (base, semadj)
  | sop :: rest =>
    let k := sop.semNum
    commitLoop pid (Function.update base k { base k with sempid := pid })
      (if sop.Undo then Function.update semadj k (semadj k - sop.semOp) else semadj) rest

def undoLoop (base : Fin n → Sem) : List (Sembuf n) → Fin n → Sem
  | [] => base
  | sop :: rest =>
    let curr := base sop.semNum
    undoLoop (Function.update base sop.semNum { curr with semval := curr.semval - sop.semOp.toInt }) rest

def tryAtomicSemop (base : Fin n → Sem) (sops : List (Sembuf n)) (semadj : Fin n → Int16) (pid : ℤ) :
    (Fin n → Sem) × (Fin n → Int16) × ℤ :=
  match tryLoop semadj base [] sops with
  | (base, passed, none) =>
    let (base, semadj) := commitLoop pid base semadj passed
    (base, semadj, 0)
  | (base, passed, some result) => (undoLoop base passed, semadj, result)

/-- The values after the operations, one after the other. -/
def after (v : Fin n → ℤ) (sops : List (Sembuf n)) : Fin n → ℤ :=
  sops.foldl (fun v sop => Function.update v sop.semNum (v sop.semNum + sop.semOp.toInt)) v

def undoSum (sops : List (Sembuf n)) (k : Fin n) : ℤ :=
  (sops.map fun sop => if sop.semNum = k ∧ sop.Undo then sop.semOp.toInt else 0).sum

abbrev semvals (base : Fin n → Sem) (k : Fin n) : ℤ := (base k).semval

/-- Every operation finds the values in range, and a wait for zero finds zero. -/
structure Passes (v : Fin n → ℤ) (sops : List (Sembuf n)) : Prop where
  within : ∀ j k, 0 ≤ after v (sops.take j) k ∧ after v (sops.take j) k ≤ semvmx
  zero : ∀ j (hj : j < sops.length), sops[j].semOp = 0 → after v (sops.take j) sops[j].semNum = 0

theorem Passes.cons {v : Fin n → ℤ} {sop : Sembuf n} {rest : List (Sembuf n)}
    (hv : ∀ k, 0 ≤ v k ∧ v k ≤ semvmx) (hzero : sop.semOp = 0 → v sop.semNum = 0)
    (h : Passes (after v [sop]) rest) : Passes v (sop :: rest) where
  within j := by
    cases j with
    | zero => exact hv
    | succ j => exact h.within j
  zero j hj := by
    cases j with
    | zero => exact hzero
    | succ j => exact h.zero j (Nat.lt_of_succ_lt_succ hj)

theorem semvals_update (base : Fin n → Sem) (sop : Sembuf n) :
    semvals (update base sop.semNum { base sop.semNum with
      semval := (base sop.semNum).semval + sop.semOp.toInt }) = after (semvals base) [sop] := by
  funext k
  simp only [semvals, after, foldl_cons, foldl_nil, update_apply]
  split_ifs <;> rfl

theorem undoLoop_update (base : Fin n → Sem) (sop : Sembuf n) (passed : List (Sembuf n)) :
    undoLoop (update base sop.semNum { base sop.semNum with
      semval := (base sop.semNum).semval + sop.semOp.toInt }) (sop :: passed) = undoLoop base passed := by
  simp only [undoLoop, update_self, update_idem, add_sub_cancel_right]
  rw [update_eq_self]

theorem wouldBlock_ne (sop : Sembuf n) : wouldBlock sop ≠ 0 := by
  rw [wouldBlock]
  split_ifs <;> decide

/-- A loop that stops leaves what the way back needs; one that ends has passed every operation. -/
theorem tryLoop_spec (semadj : Fin n → Int16) {base : Fin n → Sem} (passed sops : List (Sembuf n))
    (hbase : ∀ k, 0 ≤ semvals base k ∧ semvals base k ≤ semvmx) :
    match tryLoop semadj base passed sops with
    | (base', passed', some result) => result ≠ 0 ∧ undoLoop base' passed' = undoLoop base passed
    | (base', passed', none) => passed' = sops.reverse ++ passed ∧
        semvals base' = after (semvals base) sops ∧ Passes (semvals base) sops := by
  induction sops generalizing base passed with
  | nil => exact ⟨rfl, rfl, fun j => by rwa [take_nil], fun j hj => absurd hj (Nat.not_lt_zero j)⟩
  | cons sop rest ih =>
    rw [tryLoop]
    split_ifs with hwait hneg hbig hundo
    · exact ⟨wouldBlock_ne sop, rfl⟩
    · exact ⟨wouldBlock_ne sop, rfl⟩
    · exact ⟨by decide, rfl⟩
    · exact ⟨by decide, rfl⟩
    · -- the value stays in range, so the rest of the loop starts as this one did
      have hvals := semvals_update base sop
      have hnext : ∀ k, 0 ≤ after (semvals base) [sop] k ∧ after (semvals base) [sop] k ≤ semvmx := by
        intro k
        simp only [after, foldl_cons, foldl_nil, update_apply]
        split_ifs
        · exact ⟨Int.not_lt.mp hneg, Int.not_lt.mp hbig⟩
        · exact hbase k
      have h := ih (sop :: passed) (hvals ▸ hnext)
      rw [undoLoop_update, hvals] at h
      generalize tryLoop semadj _ (sop :: passed) rest = out at h ⊢
      obtain ⟨base', passed', _ | result⟩ := out
      · obtain ⟨hpassed, hafter, hpasses⟩ := h
        refine ⟨hpassed.trans ?_, hafter, hpasses.cons hbase ?_⟩
        · rw [reverse_cons, append_assoc]
          rfl
        · exact fun h0 => not_not.mp fun hne => hwait ⟨h0, hne⟩
      · exact h

theorem commitLoop_semvals (pid : ℤ) (base : Fin n → Sem) (semadj : Fin n → Int16) (sops : List (Sembuf n)) :
    semvals (commitLoop pid base semadj sops).1 = semvals base := by
  induction sops generalizing base semadj with
  | nil => rfl
  | cons sop rest ih =>
    refine (ih _ _).trans (funext fun k => ?_)
    rw [semvals, semvals, update_apply]
    split_ifs with hk
    · rw [hk]
    · rfl

/-- The adjustments are kept in 16 bits. -/
theorem commitLoop_semadj (pid : ℤ) (base : Fin n → Sem) (semadj : Fin n → Int16) (sops : List (Sembuf n))
    (k : Fin n) : ((commitLoop pid base semadj sops).2 k).toInt =
      ((semadj k).toInt - undoSum sops k).bmod (2 ^ 16) := by
  induction sops generalizing base semadj with
  | nil =>
    rw [undoSum, map_nil, sum_nil, sub_zero]
    exact (Int16.toInt_bmod (semadj k)).symm
  | cons sop rest ih =>
    rw [commitLoop, ih, undoSum, undoSum, map_cons, sum_cons]
    by_cases h : sop.semNum = k ∧ sop.Undo
    · obtain ⟨rfl, hundo⟩ := h
      rw [if_pos hundo, if_pos ⟨rfl, hundo⟩, update_self, Int16.toInt_sub, Int.bmod_sub_bmod, sub_sub]
    · rw [if_neg h, zero_add]
      split_ifs with hundo
      · rw [update_of_ne fun hk => h ⟨hk.symm, hundo⟩]
      · rfl

theorem undoSum_reverse (sops : List (Sembuf n)) (k : Fin n) : undoSum sops.reverse k = undoSum sops k := by
  rw [undoSum, map_reverse, sum_reverse]
  rfl

/-- All operations were applied: the values, and the adjustments by the sums to undo. -/
structure Applied (base : Fin n → Sem) (semadj : Fin n → Int16) (sops : List (Sembuf n))
    (base' : Fin n → Sem) (semadj' : Fin n → Int16) : Prop where
  passes : Passes (semvals base) sops
  semval : semvals base' = after (semvals base) sops
  semadj : ∀ k, (semadj' k).toInt = (semadj k).toInt - undoSum sops k
  range : ∀ k, -semaem - 1 ≤ (semadj' k).toInt ∧ (semadj' k).toInt ≤ semaem

end VDLinux.Ipc.Semop
