import VDLinux.Base.Columns
import VDLinux.Base.Erasure
import VDLinux.Drivers.Raid6Tables

namespace VDLinux.Drivers.Raid6

open Finset
open Base.ByteLanes Base.Columns Base.Erasure

abbrev Memory := ℕ → ℕ → Byte

/-- What a build of `raid6int.uc` fixes: the bytes of a word and their order, the words of a round, and
the block with `PAGE_SIZE` zero bytes. -/
structure Build where
  nsize : ℕ
  bigEndian : Bool
  unroll : ℕ
  zeroPage : ℕ
  pageSize : ℕ
  nsize_pos : 0 < nsize
  unroll_pos : 0 < unroll

namespace Build

variable (bld : Build)

abbrev Word := BitVec (8 * bld.nsize)

def place (i : ℕ) : ℕ := if bld.bigEndian then bld.nsize - 1 - i else i

def load (mem : Memory) (b o : ℕ) : bld.Word :=
  ofBytes bld.nsize (fun i => mem b (o + bld.place i)) bld.nsize

def store (mem : Memory) (b o : ℕ) (w : bld.Word) : Memory :=
  fun b' o' => if b' = b ∧ o ≤ o' ∧ o' < o + bld.nsize then byteAt w (bld.place (o' - o)) else mem b' o'

theorem place_lt {i : ℕ} (hi : i < bld.nsize) : bld.place i < bld.nsize := by
  rw [place]
  split_ifs <;> omega

theorem place_place {i : ℕ} (hi : i < bld.nsize) : bld.place (bld.place i) = i := by
  rw [place, place]
  split_ifs <;> omega

theorem byteAt_load (mem : Memory) (b o : ℕ) {i : ℕ} (hi : i < bld.nsize) :
    byteAt (bld.load mem b o) i = mem b (o + bld.place i) :=
  byteAt_ofBytes _ hi

end Build

section GenSyndrome

variable (bld : Build) (ptrs : ℕ → ℕ) (mem : Memory)

/-- The inner loop of `gen_syndrome` for the words at `o`. -/
def syndromeWords (o : ℕ) : ℕ → bld.Word × bld.Word → bld.Word × bld.Word
  | 0, w => w
  | z + 1, (wp, wq) =>
    let wd := bld.load mem (ptrs z) o
    syndromeWords o z (wp ^^^ wd, (shlbyte wq ^^^ (mask wq &&& nbytes bld.nsize 0x1d)) ^^^ wd)

def storeLanes (mem : Memory) (b d : ℕ) (ws : ℕ → bld.Word) : ℕ → Memory
  | 0 => mem
  | s + 1 => bld.store (storeLanes mem b d ws s) b (d + bld.nsize * s) (ws s)

/-- The body of the outer loop; every load comes before the stores. -/
def syndromeRound (disks d : ℕ) : Memory :=
  let z0 := disks - 3
  let words := fun s =>
    let w := bld.load mem (ptrs z0) (d + s * bld.nsize)
    syndromeWords bld ptrs mem (d + s * bld.nsize) z0 (w, w)
  let mem' := storeLanes bld mem (ptrs (z0 + 1)) d (fun s => (words s).1) bld.unroll
  storeLanes bld mem' (ptrs (z0 + 2)) d (fun s => (words s).2) bld.unroll

def genSyndromeLoop (disks bytes : ℕ) : ℕ → ℕ → Memory → Memory
  | 0, _, mem => mem
  | fuel + 1, d, mem =>
    if d < bytes then
      genSyndromeLoop disks bytes fuel (d + bld.nsize * bld.unroll) (syndromeRound bld ptrs mem disks d)
    else mem

/-- A round takes at least one byte, so `bytes` rounds are enough. -/
def genSyndrome (disks bytes : ℕ) : Memory := genSyndromeLoop bld ptrs disks bytes bytes 0 mem

end GenSyndrome

section Recov

variable (bld : Build)

def storeByte (mem : Memory) (b o : ℕ) (v : Byte) : Memory :=
  fun b' o' => if b' = b ∧ o' = o then v else mem b' o'

/-- `while (bytes--)` with the offset the pointers have reached. -/
def bytesLoop (step : ℕ → Memory → Memory) : ℕ → ℕ → Memory → Memory
  | 0, _, mem => mem
  | bytes + 1, o, mem => bytesLoop step bytes (o + 1) (step o mem)

def raid6_2dataStep (p q dp dq : ℕ) (pbmul qmul : Byte → Byte) (o : ℕ) (mem : Memory) : Memory :=
  let px := mem p o ^^^ mem dp o
  let qx := qmul (mem q o ^^^ mem dq o)
  let db := pbmul px ^^^ qx
  storeByte (storeByte mem dq o db) dp o (db ^^^ px)

def raid6_2dataRecov (disks bytes faila failb : ℕ) (ptrs : ℕ → ℕ) (mem : Memory) : (ℕ → ℕ) × Memory :=
  let p := ptrs (disks - 2)
  let q := ptrs (disks - 1)
  let dp := ptrs faila
  let ptrs := Function.update ptrs faila bld.zeroPage
  let ptrs := Function.update ptrs (disks - 2) dp
  let dq := ptrs failb
  let ptrs := Function.update ptrs failb bld.zeroPage
  let ptrs := Function.update ptrs (disks - 1) dq
  let mem := genSyndrome bld ptrs mem disks bytes
  let ptrs := Function.update ptrs faila dp
  let ptrs := Function.update ptrs failb dq
  let ptrs := Function.update ptrs (disks - 2) p
  let ptrs := Function.update ptrs (disks - 1) q
  let pbmul := gfmul (gfexi (failb - faila))
  let qmul := gfmul (gfinv (gfexp faila ^^^ gfexp failb))
  (ptrs, bytesLoop (raid6_2dataStep p q dp dq pbmul qmul) bytes 0 mem)

def raid6DatapStep (p q dq : ℕ) (qmul : Byte → Byte) (o : ℕ) (mem : Memory) : Memory :=
  let v := qmul (mem q o ^^^ mem dq o)
  let mem := storeByte mem dq o v
  storeByte mem p o (mem p o ^^^ v)

def raid6DatapRecov (disks bytes faila : ℕ) (ptrs : ℕ → ℕ) (mem : Memory) : (ℕ → ℕ) × Memory :=
  let p := ptrs (disks - 2)
  let q := ptrs (disks - 1)
  let dq := ptrs faila
  let ptrs := Function.update ptrs faila bld.zeroPage
  let ptrs := Function.update ptrs (disks - 1) dq
  let mem := genSyndrome bld ptrs mem disks bytes
  let ptrs := Function.update ptrs faila dq
  let ptrs := Function.update ptrs (disks - 1) q
  let qmul := gfmul (gfinv (gfexp faila))
  (ptrs, bytesLoop (raid6DatapStep p q dq qmul) bytes 0 mem)

end Recov

section Columns

variable {bld : Build} {ptrs : ℕ → ℕ} {mem : Memory}

def datum (ptrs : ℕ → ℕ) (col : ℕ → Byte) (z : ℕ) : Gf := ⟨col (ptrs z)⟩

def pSum (ptrs : ℕ → ℕ) (col : ℕ → Byte) (n : ℕ) : Gf := ∑ z ∈ range n, datum ptrs col z

def qSum (ptrs : ℕ → ℕ) (col : ℕ → Byte) (n : ℕ) : Gf := ∑ z ∈ range n, Gf.two ^ z * datum ptrs col z

def syndromeColumn (ptrs : ℕ → ℕ) (n : ℕ) (col : ℕ → Byte) (b : ℕ) : Byte :=
  if b = ptrs (n + 1) then (qSum ptrs col n).byte
  else if b = ptrs n then (pSum ptrs col n).byte
  else col b

variable (bld ptrs mem) in
theorem syndromeWords_fst (o z : ℕ) (wp wq : bld.Word) {i : ℕ} (hi : i < bld.nsize) :
    (⟨byteAt (syndromeWords bld ptrs mem o z (wp, wq)).1 i⟩ : Gf) =
      ⟨byteAt wp i⟩ + pSum ptrs (fun b => mem b (o + bld.place i)) z := by
  induction z generalizing wp wq with
  | zero => simp [syndromeWords, pSum]
  | succ z ih =>
    rw [syndromeWords, ih, byteAt_xor, bld.byteAt_load _ _ _ hi, pSum, pSum, sum_range_succ,
      add_comm (∑ _ ∈ _, _), ← add_assoc]
    rfl

variable (bld ptrs mem) in
theorem syndromeWords_snd (o z : ℕ) (wp wq : bld.Word) {i : ℕ} (hi : i < bld.nsize) :
    (⟨byteAt (syndromeWords bld ptrs mem o z (wp, wq)).2 i⟩ : Gf) =
      horner Gf.two (datum ptrs fun b => mem b (o + bld.place i)) z ⟨byteAt wq i⟩ := by
  induction z generalizing wp wq with
  | zero => rfl
  | succ z ih =>
    rw [syndromeWords, ih, horner, byteAt_xor, byteAt_double wq hi, bld.byteAt_load _ _ _ hi, ← gfmul_two,
      gfmul_comm]
    rfl

theorem storeLanes_eq (b d : ℕ) (ws : ℕ → bld.Word) (u b' o : ℕ) :
    storeLanes bld mem b d ws u b' o = if b' = b ∧ d ≤ o ∧ o < d + bld.nsize * u then
        byteAt (ws ((o - d) / bld.nsize)) (bld.place ((o - d) % bld.nsize))
      else mem b' o := by
  induction u with
  | zero => rw [storeLanes, if_neg (by omega)]
  | succ u ih =>
    rw [storeLanes, Build.store, ih, Nat.mul_succ]
    by_cases hlast : b' = b ∧ d + bld.nsize * u ≤ o ∧ o < d + bld.nsize * u + bld.nsize
    · obtain ⟨r, rfl⟩ := Nat.exists_eq_add_of_le hlast.2.1
      have hr : r < bld.nsize := by omega
      have hsub : d + bld.nsize * u + r - d = bld.nsize * u + r := by omega
      rw [if_pos hlast, if_pos (by omega), Nat.add_sub_cancel_left, hsub, Nat.mul_add_div bld.nsize_pos,
        Nat.div_eq_of_lt hr, Nat.add_zero, Nat.mul_add_mod, Nat.mod_eq_of_lt hr]
    · rw [if_neg hlast]
      by_cases hin : b' = b ∧ d ≤ o ∧ o < d + bld.nsize * u
      · rw [if_pos hin, if_pos (by omega)]
      · rw [if_neg hin, if_neg (by omega)]

theorem syndromeRound_eq {n : ℕ} (hn : 0 < n) (d : ℕ) : syndromeRound bld ptrs mem (n + 2) d =
      mapColumns d (d + bld.nsize * bld.unroll) (syndromeColumn ptrs n) mem := by
  obtain ⟨z0, rfl⟩ : ∃ z0, n = z0 + 1 := ⟨n - 1, by omega⟩
  funext b o
  simp only [syndromeRound, show z0 + 1 + 2 - 3 = z0 by omega, storeLanes_eq]
  by_cases hin : d ≤ o ∧ o < d + bld.nsize * bld.unroll
  · -- the byte is in lane `s`, at place `i` of its word
    obtain ⟨t, rfl⟩ := Nat.exists_eq_add_of_le hin.1
    have hmod : t % bld.nsize < bld.nsize := Nat.mod_lt t bld.nsize_pos
    have hi := bld.place_lt hmod
    have hplace : d + t / bld.nsize * bld.nsize + bld.place (bld.place (t % bld.nsize)) = d + t := by
      rw [bld.place_place hmod, Nat.add_assoc, Nat.mul_comm, Nat.div_add_mod]
    rw [mapColumns_of_mem hin.1 hin.2, syndromeColumn, Nat.add_sub_cancel_left]
    simp only [hin, and_true, and_self]
    split_ifs with hq hp
    · have hsnd := syndromeWords_snd bld ptrs mem (d + t / bld.nsize * bld.nsize) z0
        (bld.load mem (ptrs z0) (d + t / bld.nsize * bld.nsize))
        (bld.load mem (ptrs z0) (d + t / bld.nsize * bld.nsize)) hi
      rw [bld.byteAt_load _ _ _ hi, hplace, horner_eq] at hsnd
      refine (congrArg Gf.byte hsnd).trans ?_
      rw [qSum, sum_range_succ, add_comm]
      rfl
    · have hfst := syndromeWords_fst bld ptrs mem (d + t / bld.nsize * bld.nsize) z0
        (bld.load mem (ptrs z0) (d + t / bld.nsize * bld.nsize))
        (bld.load mem (ptrs z0) (d + t / bld.nsize * bld.nsize)) hi
      rw [bld.byteAt_load _ _ _ hi, hplace] at hfst
      refine (congrArg Gf.byte hfst).trans ?_
      rw [pSum, pSum, sum_range_succ, add_comm]
      rfl
    · rfl
  · rw [mapColumns_of_not_mem hin, if_neg fun h => hin h.2, if_neg fun h => hin h.2]

variable (bld ptrs) in
theorem genSyndromeLoop_eq {n : ℕ} (hn : 0 < n) (k fuel d : ℕ) (hk : k ≤ fuel) (mem : Memory) :
    genSyndromeLoop bld ptrs (n + 2) (d + k * (bld.nsize * bld.unroll)) fuel d mem =
      mapColumns d (d + k * (bld.nsize * bld.unroll)) (syndromeColumn ptrs n) mem := by
  have hpos : 0 < bld.nsize * bld.unroll := Nat.mul_pos bld.nsize_pos bld.unroll_pos
  induction k generalizing fuel d mem with
  | zero =>
    simp only [Nat.zero_mul, Nat.add_zero, mapColumns_empty]
    cases fuel with
    | zero => rfl
    | succ fuel => rw [genSyndromeLoop, if_neg (lt_irrefl d)]
  | succ k ih =>
    obtain ⟨fuel, rfl⟩ : ∃ f, fuel = f + 1 := ⟨fuel - 1, by omega⟩
    have hnext : d + (k + 1) * (bld.nsize * bld.unroll) =
        d + bld.nsize * bld.unroll + k * (bld.nsize * bld.unroll) := by ring
    rw [genSyndromeLoop, if_pos (by omega), hnext, ih fuel _ (by omega), syndromeRound_eq hn,
      mapColumns_append (by omega) (by omega)]

theorem genSyndrome_eq {n k : ℕ} (hn : 0 < n) (mem : Memory) :
    genSyndrome bld ptrs mem (n + 2) (k * (bld.nsize * bld.unroll)) =
      mapColumns 0 (k * (bld.nsize * bld.unroll)) (syndromeColumn ptrs n) mem := by
  have h := genSyndromeLoop_eq bld ptrs hn k (k * (bld.nsize * bld.unroll)) 0
    (Nat.le_mul_of_pos_right k (Nat.mul_pos bld.nsize_pos bld.unroll_pos)) mem
  rwa [Nat.zero_add] at h

theorem bytesLoop_eq {step : ℕ → Memory → Memory} {f : (ℕ → Byte) → ℕ → Byte}
    (hstep : ∀ o mem, step o mem = mapColumns o (o + 1) f mem) (bytes o : ℕ) (mem : Memory) :
    bytesLoop step bytes o mem = mapColumns o (o + bytes) f mem := by
  induction bytes generalizing o mem with
  | zero => rw [bytesLoop, Nat.add_zero, mapColumns_empty]
  | succ bytes ih =>
    rw [bytesLoop, ih, hstep, mapColumns_append (by omega) (by omega), Nat.add_right_comm, Nat.add_assoc]

def twoDataColumn (p q dp dq : ℕ) (pbmul qmul : Byte → Byte) (col : ℕ → Byte) (b : ℕ) : Byte :=
  let px := col p ^^^ col dp
  let db := pbmul px ^^^ qmul (col q ^^^ col dq)
  if b = dp then db ^^^ px else if b = dq then db else col b

theorem raid6_2dataStep_eq (p q dp dq : ℕ) (pbmul qmul : Byte → Byte) (o : ℕ) (mem : Memory) :
    raid6_2dataStep p q dp dq pbmul qmul o mem =
      mapColumns o (o + 1) (twoDataColumn p q dp dq pbmul qmul) mem := by
  funext b o'
  by_cases ho : o' = o
  · subst ho
    rw [mapColumns_of_mem le_rfl (Nat.lt_succ_self o')]
    simp only [raid6_2dataStep, storeByte, twoDataColumn, and_true]
  · rw [mapColumns_of_not_mem (by omega)]
    simp only [raid6_2dataStep, storeByte, ho, and_false, if_false]

def datapColumn (p q dq : ℕ) (qmul : Byte → Byte) (col : ℕ → Byte) (b : ℕ) : Byte :=
  let v := qmul (col q ^^^ col dq)
  if b = p then (if p = dq then v else col p) ^^^ v else if b = dq then v else col b

theorem raid6DatapStep_eq (p q dq : ℕ) (qmul : Byte → Byte) (o : ℕ) (mem : Memory) :
    raid6DatapStep p q dq qmul o mem = mapColumns o (o + 1) (datapColumn p q dq qmul) mem := by
  funext b o'
  by_cases ho : o' = o
  · subst ho
    rw [mapColumns_of_mem le_rfl (Nat.lt_succ_self o')]
    simp only [raid6DatapStep, storeByte, datapColumn, and_true]
  · rw [mapColumns_of_not_mem (by omega)]
    simp only [raid6DatapStep, storeByte, ho, and_false, if_false]

end Columns

end VDLinux.Drivers.Raid6
