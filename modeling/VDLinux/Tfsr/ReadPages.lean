import VDLinux.Tfsr.ReturnValue

namespace VDLinux.Tfsr.ReadPages

open ReturnValue List

def fsrBmlPgsPerSmCycle : ℕ := 0x80

/-- The arguments of a page read. A spare buffer is an index into the caller's array of them. -/
structure ReadArgs where
  nVpn : BitVec 32
  nNumOfPgs : ℕ
  pMBuf : Option ℕ
  pSBuf : Option ℕ
  nFlag : BitVec 32
deriving DecidableEq, Repr

/-- What `_BML_Read` and the lock operations answer when they are called for the `k`-th time. -/
structure ReadEnv where
  bmlRead : ℕ → BitVec 32
  acquireLock : ℕ → Bool
  releaseLock : ℕ → Bool

/-- The result, and the calls of `_BML_Read` that were made. -/
structure ReadRun where
  nRe : BitVec 32
  calls : List ReadArgs
deriving DecidableEq, Repr

def merge (nRe nBMLRe : BitVec 32) : BitVec 32 :=
  if nBMLRe ≠ fsrBmlSuccess then
    if ¬ (nRe = fsrBml2LvReadDisturbanceError ∧ nBMLRe = fsrBml1LvReadDisturbanceError) then nBMLRe
    else nRe
  else nRe

def breaks (nBMLRe : BitVec 32) : Prop :=
  nBMLRe ≠ fsrBmlSuccess ∧ nBMLRe &&& fsrBml1LvReadDisturbanceError = 0 ∧
    nBMLRe &&& fsrBml2LvReadDisturbanceError = 0

instance (nBMLRe : BitVec 32) : Decidable (breaks nBMLRe) := inferInstanceAs (Decidable (_ ∧ _))

def ReadArgs.advance (a : ReadArgs) (nSizeOfVPage nNumOfSplitPgs : ℕ) : ReadArgs where
  nVpn := a.nVpn + BitVec.ofNat 32 nNumOfSplitPgs
  nNumOfPgs := a.nNumOfPgs - nNumOfSplitPgs
  pMBuf := a.pMBuf.map (· + nSizeOfVPage * nNumOfSplitPgs)
  pSBuf := a.pSBuf.map (· + nNumOfSplitPgs)
  nFlag := a.nFlag

def splitPgs (nRemainPgs : ℕ) : ℕ :=
  if fsrBmlPgsPerSmCycle < nRemainPgs then fsrBmlPgsPerSmCycle else nRemainPgs

/-- The loop over the chunks: the chunk `k` comes next, `a` is what remains. -/
def readLoop (env : ReadEnv) (nSizeOfVPage : ℕ) : ℕ → ℕ → ReadArgs → BitVec 32 → ReadRun
  | 0, _, _, nRe => ⟨nRe, []⟩
  | fuel + 1, k, a, nRe =>
    if env.acquireLock k = false then ⟨fsrBmlAcquireSmError, []⟩
    else
      let nNumOfSplitPgs := splitPgs a.nNumOfPgs
      let call := { a with nNumOfPgs := nNumOfSplitPgs }
      let nRe := merge nRe (env.bmlRead k)
      if breaks (env.bmlRead k) then ⟨nRe, [call]⟩
      else if env.releaseLock k = false then ⟨fsrBmlReleaseSmError, [call]⟩
      else
        let a := a.advance nSizeOfVPage nNumOfSplitPgs
        if 0 < a.nNumOfPgs then
          let rest := readLoop env nSizeOfVPage fuel (k + 1) a nRe
          ⟨rest.nRe, call :: rest.calls⟩
        else ⟨nRe, [call]⟩

/-- Every round but the last reads at least one page, so there are never more rounds than this. -/
def fsrBmlRead (env : ReadEnv) (nSizeOfVPage : ℕ) (a : ReadArgs) : ReadRun :=
  readLoop env nSizeOfVPage (a.nNumOfPgs + 1) 0 a fsrBmlSuccess

/-- The number of chunks: a request of no pages is one empty chunk. -/
def numChunks (nNumOfPgs : ℕ) : ℕ :=
  max 1 ((nNumOfPgs + fsrBmlPgsPerSmCycle - 1) / fsrBmlPgsPerSmCycle)

def chunk (a : ReadArgs) (nSizeOfVPage i : ℕ) : ReadArgs :=
  let rest := a.advance nSizeOfVPage (fsrBmlPgsPerSmCycle * i)
  { rest with nNumOfPgs := min fsrBmlPgsPerSmCycle rest.nNumOfPgs }

def Failure (c : BitVec 32) : Prop :=
  c ≠ fsrBmlSuccess ∧ c ≠ fsrBml1LvReadDisturbanceError ∧ c ≠ fsrBml2LvReadDisturbanceError

instance (c : BitVec 32) : Decidable (Failure c) := inferInstanceAs (Decidable (_ ∧ _))

/-- The most severe of the results of `m` chunks, none of which failed. -/
def worst (results : ℕ → BitVec 32) (m : ℕ) : BitVec 32 :=
  if ∃ k < m, results k = fsrBml2LvReadDisturbanceError then fsrBml2LvReadDisturbanceError
  else if ∃ k < m, results k = fsrBml1LvReadDisturbanceError then fsrBml1LvReadDisturbanceError
  else fsrBmlSuccess

/-- Of the chunks before `m`, `k` is the first that failed. -/
def FirstFailure (results : ℕ → BitVec 32) (m k : ℕ) : Prop :=
  k < m ∧ Failure (results k) ∧ ∀ j < k, ¬ Failure (results j)

/-- The read stops at the first chunk that fails and returns its result, and without one it reads all
chunks and returns the most severe result. -/
structure Reports (results : ℕ → BitVec 32) (m : ℕ) (chunk : ℕ → ReadArgs) (run : ReadRun) : Prop where
  failure : ∀ k, FirstFailure results m k → run = ⟨results k, (List.range (k + 1)).map chunk⟩
  clean : (∀ k < m, ¬ Failure (results k)) → run = ⟨worst results m, (List.range m).map chunk⟩

section Loop

variable {env : ReadEnv} {nSizeOfVPage : ℕ} {a : ReadArgs}

theorem not_breaks {c : BitVec 32} (h : c = fsrBmlSuccess ∨ IsBmlError c) : ¬ breaks c := by
  rintro ⟨hne, h1, -⟩
  cases h with
  | inl h => exact hne h
  | inr h => exact h.and_ne_zero (by decide) h1

theorem numChunks_of_gt {n : ℕ} (h : fsrBmlPgsPerSmCycle < n) :
    numChunks n = numChunks (n - fsrBmlPgsPerSmCycle) + 1 := by
  unfold numChunks fsrBmlPgsPerSmCycle at *
  omega

theorem numChunks_of_le {n : ℕ} (h : n ≤ fsrBmlPgsPerSmCycle) : numChunks n = 1 := by
  unfold numChunks fsrBmlPgsPerSmCycle at *
  omega

theorem chunk_zero (a : ReadArgs) (nSizeOfVPage : ℕ) :
    chunk a nSizeOfVPage 0 = { a with nNumOfPgs := splitPgs a.nNumOfPgs } := by
  have hmin : min fsrBmlPgsPerSmCycle a.nNumOfPgs = splitPgs a.nNumOfPgs := by
    unfold splitPgs
    split <;> omega
  cases a
  simp_all [chunk, ReadArgs.advance]

theorem chunk_advance (i : ℕ) :
    chunk (a.advance nSizeOfVPage fsrBmlPgsPerSmCycle) nSizeOfVPage i = chunk a nSizeOfVPage (i + 1) := by
  have hoff : fsrBmlPgsPerSmCycle * (i + 1) = fsrBmlPgsPerSmCycle + fsrBmlPgsPerSmCycle * i := by
    rw [Nat.mul_succ, Nat.add_comm]
  simp only [chunk, ReadArgs.advance, hoff, BitVec.ofNat_add, BitVec.add_assoc, Nat.sub_sub, Option.map_map]
  congr 2
  · funext p
    simp only [Function.comp_apply, Nat.mul_add, Nat.add_assoc]
  · funext p
    simp only [Function.comp_apply, Nat.add_assoc]

variable (hacq : ∀ k, env.acquireLock k = true) (hrel : ∀ k, env.releaseLock k = true)
include hacq hrel

/-- No error of the layer ends the loop: every chunk is read and the results are merged one by one. -/
theorem readLoop_eq {fuel k : ℕ} {nRe : BitVec 32} (hfuel : a.nNumOfPgs < fuel)
    (hres : ∀ i < numChunks a.nNumOfPgs, ¬ breaks (env.bmlRead (k + i))) :
    readLoop env nSizeOfVPage fuel k a nRe =
      ⟨(List.range (numChunks a.nNumOfPgs)).foldl (fun nRe i => merge nRe (env.bmlRead (k + i))) nRe,
        (List.range (numChunks a.nNumOfPgs)).map (chunk a nSizeOfVPage)⟩ := by
  induction fuel generalizing k a nRe with
  | zero => omega
  | succ fuel ih =>
    have hbreaks : ¬ breaks (env.bmlRead k) := hres 0 (by unfold numChunks; omega)
    simp only [readLoop, hacq, hrel, Bool.true_eq_false, if_false, if_neg hbreaks, ← chunk_zero a nSizeOfVPage]
    by_cases hlong : fsrBmlPgsPerSmCycle < a.nNumOfPgs
    · have hsplit : splitPgs a.nNumOfPgs = fsrBmlPgsPerSmCycle := if_pos hlong
      have hleft : (a.advance nSizeOfVPage fsrBmlPgsPerSmCycle).nNumOfPgs =
          a.nNumOfPgs - fsrBmlPgsPerSmCycle := rfl
      have hpos : 0 < fsrBmlPgsPerSmCycle := by decide
      rw [hsplit, if_pos (by omega), ih (by omega), hleft, numChunks_of_gt hlong, range_succ_eq_map]
      · have hnext : ∀ i, k + 1 + i = k + i.succ := fun i => by omega
        have hchunk : chunk (a.advance nSizeOfVPage fsrBmlPgsPerSmCycle) nSizeOfVPage =
            chunk a nSizeOfVPage ∘ Nat.succ := funext fun i => chunk_advance i
        simp only [foldl_cons, map_cons, foldl_map, map_map, Nat.add_zero, hnext, hchunk]
      · intro i hi
        rw [hleft] at hi
        rw [Nat.add_assoc, Nat.add_comm 1 i]
        exact hres (i + 1) (by rw [numChunks_of_gt hlong]; omega)
    · have hsplit : splitPgs a.nNumOfPgs = a.nNumOfPgs := if_neg hlong
      have hleft : (a.advance nSizeOfVPage a.nNumOfPgs).nNumOfPgs = 0 := Nat.sub_self _
      rw [hsplit, if_neg (by omega), numChunks_of_le (Nat.le_of_not_lt hlong)]
      rfl

omit hacq hrel

theorem merge_of_failure {nRe c : BitVec 32} (h : Failure c) : merge nRe c = c := by
  obtain ⟨hne, h1, -⟩ := h
  simp [merge, hne, h1]

theorem foldl_merge_clean (results : ℕ → BitVec 32) (m : ℕ) (h : ∀ k < m, ¬ Failure (results k)) :
    (List.range m).foldl (fun nRe i => merge nRe (results i)) fsrBmlSuccess = worst results m := by
  induction m with
  | zero => rfl
  | succ m ih =>
    rw [range_succ, foldl_append, ih fun k hk => h k (by omega), foldl_cons, foldl_nil]
    have hm := h m (Nat.lt_succ_self m)
    have h12 : fsrBml1LvReadDisturbanceError ≠ fsrBml2LvReadDisturbanceError := by decide
    have hs1 : fsrBmlSuccess ≠ fsrBml1LvReadDisturbanceError := by decide
    have hs2 : fsrBmlSuccess ≠ fsrBml2LvReadDisturbanceError := by decide
    simp only [worst, Nat.lt_succ_iff_lt_or_eq, or_and_right, exists_or, exists_eq_left]
    by_cases hzero : results m = fsrBmlSuccess
    · simp [merge, hzero, hs1, hs2]
    · by_cases hone : results m = fsrBml1LvReadDisturbanceError
      · simp only [merge, hone, h12, ne_eq, or_false, or_true, if_true, hs1.symm, not_false_iff]
        split_ifs <;> simp_all
      · have htwo : results m = fsrBml2LvReadDisturbanceError := by
          by_contra hne
          exact hm ⟨hzero, hone, hne⟩
        simp [merge, htwo, h12.symm, hs2.symm]

include hacq hrel

/-- A read reports as it should exactly if no chunk but the last one is the first that fails. -/
theorem fsrBmlRead_reports_iff (a : ReadArgs)
    (hres : ∀ k < numChunks a.nNumOfPgs, env.bmlRead k = fsrBmlSuccess ∨ IsBmlError (env.bmlRead k)) :
    Reports env.bmlRead (numChunks a.nNumOfPgs) (chunk a nSizeOfVPage) (fsrBmlRead env nSizeOfVPage a) ↔
      ∀ k, FirstFailure env.bmlRead (numChunks a.nNumOfPgs) k → k + 1 = numChunks a.nNumOfPgs := by
  have hgo : ∀ i < numChunks a.nNumOfPgs, ¬ breaks (env.bmlRead (0 + i)) := by
    intro i hi
    rw [Nat.zero_add]
    exact not_breaks (hres i hi)
  have hrun : fsrBmlRead env nSizeOfVPage a = _ :=
    @readLoop_eq _ _ _ hacq hrel _ 0 fsrBmlSuccess (Nat.lt_succ_self a.nNumOfPgs) hgo
  simp only [Nat.zero_add] at hrun
  rw [hrun]
  generalize numChunks a.nNumOfPgs = m at hres ⊢
  constructor
  · intro h k hk
    have hlen := congrArg (fun r : ReadRun => r.calls.length) (h.failure k hk)
    simpa [eq_comm] using hlen
  · intro hlast
    refine ⟨fun k hk => ?_, fun hclean => by rw [foldl_merge_clean _ _ hclean]⟩
    obtain rfl := hlast k hk
    rw [range_succ, foldl_append, foldl_cons, foldl_nil, merge_of_failure hk.2.1]

end Loop

section Hidden

def threeChunks : ReadArgs := ⟨0, 300, some 0, none, 0⟩

def answers (results : List (BitVec 32)) : ReadEnv :=
  ⟨fun k => results.getD k fsrBmlSuccess, fun _ => true, fun _ => true⟩

theorem fsrBmlRead_reports_iff_three :
    Reports (answers [fsrBml1LvReadDisturbanceError]).bmlRead 3 (chunk threeChunks 4096)
      (fsrBmlRead (answers [fsrBml1LvReadDisturbanceError]) 4096 threeChunks) ↔
    ∀ k, FirstFailure (answers [fsrBml1LvReadDisturbanceError]).bmlRead 3 k → k + 1 = 3 :=
  fsrBmlRead_reports_iff (fun _ => rfl) (fun _ => rfl) threeChunks (by decide)

/-- The first chunk cannot be read, the second is only disturbed: the read goes on and tells only of the
disturbance. -/
theorem read_error_hidden :
    Failure fsrBmlReadError ∧ IsBmlError fsrBmlReadError ∧ IsBmlError fsrBml1LvReadDisturbanceError ∧
      fsrBmlRead (answers [fsrBmlReadError, fsrBml1LvReadDisturbanceError]) 4096 threeChunks =
        ⟨fsrBml1LvReadDisturbanceError, (List.range 3).map (chunk threeChunks 4096)⟩ := by
  decide

end Hidden

end VDLinux.Tfsr.ReadPages
