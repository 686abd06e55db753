import VDLinux.Base.Settling
import VDLinux.Tfsr.MetaData

namespace VDLinux.Tfsr.TransSbn

open Base.Settling BlockMap MetaData

/-- The loop over the block map fields: the block that the first field with this `nRbn` replaces. -/
def replacedBy (pstBMF : Nat → BmlBMF) : Nat → Nat → Nat → Nat
  | 0, _, nSbn => nSbn
  | left + 1, nIdx, nSbn =>
    if nSbn = (pstBMF nIdx).nRbn.toNat then (pstBMF nIdx).nSbn.toNat
    else replacedBy pstBMF left (nIdx + 1) nSbn

def origin (pstRsv : BmlReservoir) : Nat → Nat := replacedBy pstRsv.pstBMF pstRsv.nNumOfBMFs.toNat 0

def inUserArea (pstRsv : BmlReservoir) (nSbn : Nat) : Prop :=
  match pstRsv.nRsvrType with
  | .hybrid => nSbn < pstRsv.n1stSbnOfRsvr ∨ pstRsv.nLastSbnOfRsvr < nSbn
  | _ => nSbn < pstRsv.n1stSbnOfRsvr

instance (pstRsv : BmlReservoir) (nSbn : Nat) : Decidable (inUserArea pstRsv nSbn) := by
  unfold inUserArea
  split <;> infer_instance

/-- `none` where `fuel` rounds of the loop are not enough. -/
def transPbn2Sbn (pstRsv : BmlReservoir) (nPbn fuel : Nat) : Option Nat :=
  (settle (origin pstRsv) fuel nPbn).map fun nSbn =>
    if nSbn ≠ nPbn then if inUserArea pstRsv nSbn then nSbn else nPbn else nSbn

def Returns (pstRsv : BmlReservoir) (nPbn nSbn : Nat) : Prop := ∃ fuel, transPbn2Sbn pstRsv nPbn fuel = some nSbn

def Replaces (pstRsv : BmlReservoir) (nSbn nRbn : Nat) : Prop :=
  ∃ i < pstRsv.nNumOfBMFs.toNat,
    (pstRsv.pstBMF i).nSbn.toNat = nSbn ∧ (pstRsv.pstBMF i).nRbn.toNat = nRbn

/-- No block stands in for two others, and following replacements never leads back. -/
structure Chains (pstRsv : BmlReservoir) : Prop where
  unshared : ∀ s s' r, Replaces pstRsv s r → Replaces pstRsv s' r → s = s'
  acyclic : ∀ s, ¬ Relation.TransGen (Replaces pstRsv) s s

structure IsHead (pstRsv : BmlReservoir) (head nPbn : Nat) : Prop where
  chain : Relation.ReflTransGen (Replaces pstRsv) head nPbn
  head : ∀ s, ¬ Replaces pstRsv s head

/-- On the way from the block, following replacements backwards leads to no block again that it leaves. -/
def LoopFree (pstRsv : BmlReservoir) (nPbn : Nat) : Prop :=
  ∀ k p, 0 < p → (origin pstRsv)^[p] ((origin pstRsv)^[k] nPbn) = (origin pstRsv)^[k] nPbn →
    origin pstRsv ((origin pstRsv)^[k] nPbn) = (origin pstRsv)^[k] nPbn

section Walk

variable {rsv : BmlReservoir} {nPbn : Nat}

theorem replacedBy_cases (pstBMF : Nat → BmlBMF) (left nIdx nSbn : Nat) :
    (replacedBy pstBMF left nIdx nSbn = nSbn ∧
      ∀ i, nIdx ≤ i → i < nIdx + left → (pstBMF i).nRbn.toNat ≠ nSbn) ∨
    ∃ i, nIdx ≤ i ∧ i < nIdx + left ∧ (pstBMF i).nSbn.toNat = replacedBy pstBMF left nIdx nSbn ∧
      (pstBMF i).nRbn.toNat = nSbn := by
  induction left generalizing nIdx with
  | zero => exact .inl ⟨rfl, fun i hlo hhi => absurd hhi (Nat.not_lt_of_le hlo)⟩
  | succ left ih =>
    rw [replacedBy]
    split
    · rename_i hhit
      exact .inr ⟨nIdx, Nat.le_refl _, by omega, rfl, hhit.symm⟩
    · rename_i hmiss
      obtain ⟨heq, hnone⟩ | ⟨i, hlo, hhi, hsbn, hrbn⟩ := ih (nIdx + 1)
      · refine .inl ⟨heq, fun i hlo hhi => ?_⟩
        rcases Nat.eq_or_lt_of_le hlo with rfl | hlo
        · exact fun h => hmiss h.symm
        · exact hnone i hlo (by omega)
      · exact .inr ⟨i, by omega, by omega, hsbn, hrbn⟩

theorem origin_cases (rsv : BmlReservoir) (r : Nat) :
    (origin rsv r = r ∧ ∀ s, ¬ Replaces rsv s r) ∨ Replaces rsv (origin rsv r) r := by
  obtain ⟨heq, hnone⟩ | ⟨i, -, hhi, hsbn, hrbn⟩ := replacedBy_cases rsv.pstBMF rsv.nNumOfBMFs.toNat 0 r
  · refine .inl ⟨heq, ?_⟩
    rintro s ⟨i, hi, -, hr⟩
    exact hnone i (Nat.zero_le i) (by omega) hr
  · exact .inr ⟨i, by omega, hsbn, hrbn⟩

theorem Chains.origin_eq (h : Chains rsv) {s r : Nat} (hr : Replaces rsv s r) : origin rsv r = s := by
  obtain ⟨-, hnone⟩ | horigin := origin_cases rsv r
  · exact absurd hr (hnone s)
  · exact h.unshared _ _ _ horigin hr

theorem reaches_iterate (rsv : BmlReservoir) (r n : Nat) :
    Relation.ReflTransGen (Replaces rsv) ((origin rsv)^[n] r) r := by
  induction n generalizing r with
  | zero => exact .refl
  | succ n ih =>
    rw [Function.iterate_succ_apply]
    obtain ⟨heq, -⟩ | horigin := origin_cases rsv r
    · rw [heq]
      exact ih r
    · exact (ih (origin rsv r)).tail horigin

theorem Chains.loopFree (h : Chains rsv) (nPbn : Nat) : LoopFree rsv nPbn := by
  intro k p hp hper
  obtain ⟨heq, -⟩ | horigin := origin_cases rsv ((origin rsv)^[k] nPbn)
  · exact heq
  · -- back from the origin to the block would be a loop of replacements
    obtain ⟨p, rfl⟩ := Nat.exists_eq_succ_of_ne_zero hp.ne'
    have hback := reaches_iterate rsv (origin rsv ((origin rsv)^[k] nPbn)) p
    rw [← Function.iterate_succ_apply, hper] at hback
    exact absurd (Relation.TransGen.tail' hback horigin) (h.acyclic _)

theorem origin_le (rsv : BmlReservoir) (r : Nat) : origin rsv r ≤ max r (2 ^ 16) := by
  obtain ⟨heq, -⟩ | ⟨i, -, hsbn, -⟩ := origin_cases rsv r
  · rw [heq]
    exact Nat.le_max_left _ _
  · rw [← hsbn]
    exact Nat.le_trans (UInt16.toNat_lt _).le (Nat.le_max_right _ _)

theorem finite_origins (rsv : BmlReservoir) (nPbn : Nat) :
    (Set.range fun k => (origin rsv)^[k] nPbn).Finite := by
  apply (Set.finite_Iic (max nPbn (2 ^ 16))).subset
  rintro - ⟨k, rfl⟩
  induction k with
  | zero => exact Nat.le_max_left _ _
  | succ k ih =>
    simp only [Set.mem_Iic, Function.iterate_succ_apply'] at ih ⊢
    have hle := origin_le rsv ((origin rsv)^[k] nPbn)
    exact hle.trans (Nat.max_le.mpr ⟨ih, Nat.le_max_right _ _⟩)

theorem returns_iff_settles : (∃ nSbn, Returns rsv nPbn nSbn) ↔ ∃ fuel y, settle (origin rsv) fuel nPbn = some y := by
  constructor
  · rintro ⟨nSbn, fuel, h⟩
    obtain ⟨y, hy, -⟩ := Option.map_eq_some_iff.mp h
    exact ⟨fuel, y, hy⟩
  · rintro ⟨fuel, y, hy⟩
    exact ⟨_, fuel, Option.map_eq_some_iff.mpr ⟨y, hy, rfl⟩⟩

theorem Chains.iterate_of_reaches (h : Chains rsv) {head : Nat}
    (hchain : Relation.ReflTransGen (Replaces rsv) head nPbn) : ∃ k, (origin rsv)^[k] nPbn = head := by
  induction hchain with
  | refl => exact ⟨0, rfl⟩
  | tail _ hlast ih =>
    obtain ⟨k, hk⟩ := ih
    refine ⟨k + 1, ?_⟩
    rw [Function.iterate_succ_apply, h.origin_eq hlast, hk]

theorem Chains.returns_head (h : Chains rsv) {head : Nat} (hhead : IsHead rsv head nPbn) :
    Returns rsv nPbn (if inUserArea rsv head then head else nPbn) := by
  obtain ⟨k, rfl⟩ := h.iterate_of_reaches hhead.chain
  have hfix : origin rsv ((origin rsv)^[k] nPbn) = (origin rsv)^[k] nPbn := by
    obtain ⟨heq, -⟩ | horigin := origin_cases rsv ((origin rsv)^[k] nPbn)
    · exact heq
    · exact absurd horigin (hhead.head _)
  refine ⟨k + 1, ?_⟩
  rw [transPbn2Sbn, settle_iterate hfix, Option.map_some]
  split_ifs with hne harea
  · rfl
  · rfl
  · rw [not_not.mp hne]
  · rw [not_not.mp hne]

theorem Chains.exists_head (h : Chains rsv) (nPbn : Nat) : ∃ head, IsHead rsv head nPbn := by
  obtain ⟨fuel, y, hy⟩ := (settles_iff (finite_origins rsv nPbn)).mpr (h.loopFree nPbn)
  obtain ⟨hfix, k, rfl⟩ := settle_eq_some hy
  refine ⟨_, reaches_iterate rsv nPbn k, fun s hs => ?_⟩
  -- a block that replaces another one would have that one as its origin
  have hself := h.origin_eq hs
  rw [hfix] at hself
  rw [← hself] at hs
  exact h.acyclic _ (.single hs)

/-- For every table that `_LoadBMS` accepts the translation comes to an end exactly if the replacements do
not lead it round, and where they form chains it returns the head of the chain if that is user area. -/
theorem transPbn2Sbn_iff (vol : BmlVolCxt) (es : List BmlBMF) (st st' : MountState)
    (_hload : loadBMS vol es st = (true, st')) (nPbn : Nat) :
    ((∃ nSbn, Returns st'.rsv nPbn nSbn) ↔ LoopFree st'.rsv nPbn) ∧
      (Chains st'.rsv → ∃ head, IsHead st'.rsv head nPbn ∧
        Returns st'.rsv nPbn (if inUserArea st'.rsv head then head else nPbn)) := by
  refine ⟨returns_iff_settles.trans (settles_iff (finite_origins st'.rsv nPbn)), fun hchains => ?_⟩
  obtain ⟨head, hhead⟩ := hchains.exists_head nPbn
  exact ⟨head, hhead, hchains.returns_head hhead⟩

end Walk

section Loop

def onePlane : BmlVolCxt := ⟨1024, 1, 4, 2048, 64, 4, 0, pgs_sixtyFour⟩

def smallRsv : BmlReservoir :=
  ⟨.slc, 1000, 1003, 0, 0, 0, fun _ => ⟨0, 0⟩, fun _ => 0, fun _ => ⟨0, 0⟩⟩

def crossed : List BmlBMF := [⟨5, 6⟩, ⟨6, 5⟩, ⟨0xFFFF, 0xFFFF⟩]

def replaced : List BmlBMF := [⟨5, 1000⟩, ⟨0xFFFF, 0xFFFF⟩]

def loaded (es : List BmlBMF) : MountState := (loadBMS onePlane es (initBBM onePlane smallRsv)).2

theorem transPbn2Sbn_iff_replaced :
    ((∃ nSbn, Returns (loaded replaced).rsv 1000 nSbn) ↔ LoopFree (loaded replaced).rsv 1000) ∧
      (Chains (loaded replaced).rsv → ∃ head, IsHead (loaded replaced).rsv head 1000 ∧
        Returns (loaded replaced).rsv 1000 (if inUserArea (loaded replaced).rsv head then head else 1000)) :=
  transPbn2Sbn_iff onePlane replaced (initBBM onePlane smallRsv) (loaded replaced) rfl 1000

/-- The table is accepted, and the translation of block 5 goes round for ever. -/
theorem crossed_never_returns :
    loadBMS onePlane crossed (initBBM onePlane smallRsv) = (true, loaded crossed) ∧
      ∀ fuel, transPbn2Sbn (loaded crossed).rsv 5 fuel = none := by
  refine ⟨rfl, fun fuel => ?_⟩
  have h5 : origin (loaded crossed).rsv 5 = 6 := by decide
  have h6 : origin (loaded crossed).rsv 6 = 5 := by decide
  have hnone : settle (origin (loaded crossed).rsv) fuel 5 = none ∧
      settle (origin (loaded crossed).rsv) fuel 6 = none := by
    induction fuel with
    | zero => exact ⟨rfl, rfl⟩
    | succ fuel ih =>
      exact ⟨ih.2, ih.1⟩
  rw [transPbn2Sbn, hnone.1, Option.map_none]

end Loop

end VDLinux.Tfsr.TransSbn
