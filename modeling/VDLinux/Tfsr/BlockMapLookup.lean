import VDLinux.Tfsr.BlockMapIndex

namespace VDLinux.Tfsr.BlockMapLookup

open Base.ExchangeSort BlockMap BlockMapIndex

/-- A table of distinct blocks of one die, as the bad block manager keeps it. -/
structure WellFormed (vol : BmlVolCxt) (rsv : BmlReservoir) (die : Nat) : Prop where
  pow : ∃ k, 5 ≤ k ∧ vol.nNumOfBlksInDie = 2 ^ k
  distinct : ∀ i j, i < rsv.nNumOfBMFs.toNat → j < rsv.nNumOfBMFs.toNat →
    (rsv.pstBMF i).nSbn = (rsv.pstBMF j).nSbn → i = j
  inDie : ∀ i, i < rsv.nNumOfBMFs.toNat →
    vol.nNumOfBlksInDie * die ≤ (rsv.pstBMF i).nSbn.toNat ∧
      (rsv.pstBMF i).nSbn.toNat < vol.nNumOfBlksInDie * (die + 1)

/-- The block map read without the index. -/
def Replaced (rsv : BmlReservoir) (nSbn : Nat) (nRbn : UInt16) : Prop :=
  ∃ i, i < rsv.nNumOfBMFs.toNat ∧ (rsv.pstBMF i).nSbn.toNat = nSbn ∧ (rsv.pstBMF i).nRbn = nRbn

def IsReplaced (rsv : BmlReservoir) (nSbn : Nat) : Prop := ∃ nRbn, Replaced rsv nSbn nRbn

def Maps (rsv : BmlReservoir) (nSbn : Nat) (nPbn : UInt16) : Prop :=
  Replaced rsv nSbn nPbn ∨ ¬ IsReplaced rsv nSbn ∧ nPbn.toNat = nSbn

/-- The two blocks of a pair can be accessed by one two-plane operation. -/
def Paired (d : BmlDieCxt) : Prop :=
  d.nCurPbn0.toNat % 2 = 0 ∧ d.nCurPbn1.toNat = d.nCurPbn0.toNat + 1

section sorted

variable {vol : BmlVolCxt} {rsv : BmlReservoir} {die : Nat}

def sorted (rsv : BmlReservoir) : Nat → BmlBMF := (sortBMI rsv).pstBMF

theorem sorted_rearranged (rsv : BmlReservoir) :
    Rearranged 0 rsv.nNumOfBMFs.toNat rsv.pstBMF (sorted rsv) :=
  (exchangeSort_sorted _ _ _).1

theorem sorted_lt (hw : WellFormed vol rsv die) {i j : Nat} (hij : i < j)
    (hj : j < rsv.nNumOfBMFs.toNat) : (sorted rsv i).nSbn.toNat < (sorted rsv j).nSbn.toNat := by
  have hle : (sorted rsv i).nSbn.toNat ≤ (sorted rsv j).nSbn.toNat :=
    (exchangeSort_sorted (fun e : BmlBMF => e.nSbn.toNat) _ _).2 i j (by omega) hj
  refine Nat.lt_of_le_of_ne hle ?_
  intro he
  have hd := (sorted_rearranged rsv).distinct hw.distinct (i := i) (j := j) (by omega) hj
    (UInt16.toNat_inj.mp he)
  omega

theorem replaced_iff {s : Nat} {r : UInt16} : Replaced rsv s r ↔
    ∃ i, i < rsv.nNumOfBMFs.toNat ∧ (sorted rsv i).nSbn.toNat = s ∧ (sorted rsv i).nRbn = r := by
  constructor
  · rintro ⟨i, hi, hs, hr⟩
    obtain ⟨j, _, hj, he⟩ := (sorted_rearranged rsv).symm.inside (Nat.zero_le i) hi
    rw [he] at hs hr
    exact ⟨j, hj, hs, hr⟩
  · rintro ⟨i, hi, hs, hr⟩
    obtain ⟨j, _, hj, he⟩ := (sorted_rearranged rsv).inside (Nat.zero_le i) hi
    rw [he] at hs hr
    exact ⟨j, hj, hs, hr⟩

theorem isReplaced_iff {s : Nat} : IsReplaced rsv s ↔
    ∃ i, i < rsv.nNumOfBMFs.toNat ∧ (sorted rsv i).nSbn.toNat = s := by
  constructor
  · rintro ⟨r, hr⟩
    obtain ⟨i, hi, hs, _⟩ := replaced_iff.mp hr
    exact ⟨i, hi, hs⟩
  · rintro ⟨i, hi, hs⟩
    exact ⟨_, replaced_iff.mpr ⟨i, hi, hs, rfl⟩⟩

theorem not_isReplaced {s : Nat}
    (h : ∀ i, i < rsv.nNumOfBMFs.toNat → (sorted rsv i).nSbn.toNat ≠ s) : ¬ IsReplaced rsv s := by
  rw [isReplaced_iff]
  rintro ⟨i, hi, hs⟩
  exact h i hi hs

theorem sorted_inDie (hw : WellFormed vol rsv die) {i : Nat} (hi : i < rsv.nNumOfBMFs.toNat) :
    vol.nNumOfBlksInDie * die ≤ (sorted rsv i).nSbn.toNat ∧
      (sorted rsv i).nSbn.toNat < vol.nNumOfBlksInDie * (die + 1) := by
  obtain ⟨j, _, hj, he⟩ := (sorted_rearranged rsv).inside (Nat.zero_le i) hi
  rw [he]
  exact hw.inDie j hj

theorem WellFormed.blks (hw : WellFormed vol rsv die) : ∃ k, vol.nNumOfBlksInDie = 32 * 2 ^ k := by
  obtain ⟨k, hk, he⟩ := hw.pow
  refine ⟨k - 5, ?_⟩
  rw [he, ← Nat.sub_add_cancel hk, Nat.pow_add, Nat.add_sub_cancel, Nat.mul_comm]

/-- Bucket of a block. The index is built from the number of a block inside its
die and read with the masked number. -/
def bucket (vol : BmlVolCxt) (s : Nat) : Nat := s / 32 % (vol.nNumOfBlksInDie / 32)

variable (hw : WellFormed vol rsv die)
include hw

theorem mod_div_bucket (s : Nat) : s % vol.nNumOfBlksInDie / 32 = bucket vol s := by
  obtain ⟨k, hk⟩ := hw.blks
  rw [bucket, hk, Nat.mul_div_cancel_left _ (by decide), Nat.mod_mul_right_div_self]

theorem bucket_masked (s : Nat) :
    (s &&& (vol.nNumOfBlksInDie - 1)) >>> bmlSftBlksPerBadunit = bucket vol s := by
  obtain ⟨k, _, hk⟩ := hw.pow
  rw [← mod_div_bucket hw, hk, Nat.and_two_pow_sub_one_eq_mod, Nat.shiftRight_eq_div_pow]
  rfl

theorem buIdx_sorted {i : Nat} (hi : i < rsv.nNumOfBMFs.toNat) : buIdx vol die (sorted rsv i) =
      ((sorted rsv i).nSbn.toNat - vol.nNumOfBlksInDie * die) / 32 := by
  have hlo := (sorted_inDie hw hi).1
  have hlt := (sorted rsv i).nSbn.toNat_lt
  simp only [buIdx, uint32, bmlBlksPerBadunit]
  omega

theorem bucket_relative {i : Nat} (hi : i < rsv.nNumOfBMFs.toNat) :
    buIdx vol die (sorted rsv i) = bucket vol (sorted rsv i).nSbn.toNat := by
  obtain ⟨hlo, hhi⟩ := sorted_inDie hw hi
  rw [buIdx_sorted hw hi, ← mod_div_bucket hw]
  generalize (sorted rsv i).nSbn.toNat = s at *
  rw [Nat.mul_succ] at hhi
  have hsplit : s = s - vol.nNumOfBlksInDie * die + vol.nNumOfBlksInDie * die := by omega
  have hmod : s % vol.nNumOfBlksInDie = s - vol.nNumOfBlksInDie * die := by
    rw [hsplit, Nat.add_mul_mod_self_left, Nat.add_sub_cancel, Nat.mod_eq_of_lt (by omega)]
  rw [hmod]

omit hw

def unitOf (vol : BmlVolCxt) (rsv : BmlReservoir) (die s : Nat) : BmlBadUnit :=
  (reconstructBUMap vol (sortBMI rsv) die).pBUMap (bucket vol s)

variable (hw : WellFormed vol rsv die)
include hw

theorem unitOf_covers (s : Nat) :
    Covers (fun j => buIdx vol die (sorted rsv j)) rsv.nNumOfBMFs.toNat (bucket vol s)
      (unitOf vol rsv die s) := by
  obtain ⟨k, hk⟩ := hw.blks
  have hpos := Nat.two_pow_pos k
  have hbucket : bucket vol s < vol.nNumOfBlksInDie / 32 := Nat.mod_lt _ (by omega)
  refine countAll_covers (β := fun j => buIdx vol die (sorted rsv j)) rsv.nNumOfBMFs.toNat
    rsv.nNumOfBMFs.toNat_lt ?_ ?_
  · intro i j hij hj
    rw [buIdx_sorted hw (by omega), buIdx_sorted hw hj]
    obtain rfl | hlt := Nat.eq_or_lt_of_le hij
    · exact Nat.le_refl _
    · have hs := sorted_lt hw hlt hj
      exact Nat.div_le_div_right (by omega)
  · rw [if_pos]
    split <;> simp only [bmlBlksPerBadunit] at * <;> omega

/-- The unit that the translation of `s` looks into holds every field of the
pair of blocks that `s` belongs to. -/
theorem in_unit {s j : Nat} (hj : j < rsv.nNumOfBMFs.toNat)
    (hs : (sorted rsv j).nSbn.toNat / 32 = s / 32) :
    (unitOf vol rsv die s).n1stBMFIdx ≤ j ∧
      j < (unitOf vol rsv die s).n1stBMFIdx + (unitOf vol rsv die s).nNumOfBMFs := by
  refine ((unitOf_covers hw s).iff j hj).mp ?_
  rw [bucket_relative hw hj, bucket, hs, bucket]

theorem unit_bound {s j : Nat} (hlo : (unitOf vol rsv die s).n1stBMFIdx ≤ j)
    (hj : j < (unitOf vol rsv die s).n1stBMFIdx + (unitOf vol rsv die s).nNumOfBMFs) :
    j < rsv.nNumOfBMFs.toNat :=
  Nat.lt_of_lt_of_le hj ((unitOf_covers hw s).bound (by omega))

theorem translateSbn_eq (nSbn : UInt16) :
    translateSbn vol rsv die nSbn = (if vol.nNumOfPlane = 1 then getOnePlane else getTwoPlane)
      (sorted rsv) nSbn.toNat (unitOf vol rsv die nSbn.toNat).nNumOfBMFs
      (unitOf vol rsv die nSbn.toNat).n1stBMFIdx (identity nSbn) := by
  simp only [translateSbn, getPBN, bucket_masked hw]
  rw [← unitOf]
  by_cases hz : 0 < (unitOf vol rsv die nSbn.toNat).nNumOfBMFs
  · split_ifs <;> rfl
  · rw [if_neg hz, Nat.eq_zero_of_not_pos hz]
    split_ifs <;> rfl

end sorted

theorem onePlane_maps {vol : BmlVolCxt} {rsv : BmlReservoir} {die : Nat}
    (hw : WellFormed vol rsv die) (hp : vol.nNumOfPlane = 1) (nSbn : UInt16) :
    Maps rsv nSbn.toNat (translateSbn vol rsv die nSbn).1.nCurPbn0 ∧
      ∀ r ∈ (translateSbn vol rsv die nSbn).2, r < rsv.nNumOfBMFs.toNat := by
  rw [translateSbn_eq hw, if_pos hp]
  obtain ⟨hread, hres⟩ := getOnePlane_cases (sorted rsv) nSbn.toNat
    (unitOf vol rsv die nSbn.toNat).nNumOfBMFs (unitOf vol rsv die nSbn.toNat).n1stBMFIdx
    (identity nSbn)
  refine ⟨?_, fun r hr => unit_bound hw (hread r hr).1 (hread r hr).2⟩
  obtain ⟨j, hj, hj', hs, hd⟩ | ⟨hno, hd⟩ := hres
  · rw [hd]
    exact .inl (replaced_iff.mpr ⟨j, unit_bound hw hj hj', hs, rfl⟩)
  · rw [hd]
    refine .inr ⟨not_isReplaced fun i hi hs => ?_, rfl⟩
    have hin := in_unit hw (s := nSbn.toNat) hi (by rw [hs])
    exact hno i hin.1 hin.2 hs

/-- What the translation of an even block on a two-plane device promises. -/
structure MapsPair (rsv : BmlReservoir) (nSbn : UInt16) (d : BmlDieCxt) (read : List Nat) : Prop where
  plane0 : Maps rsv nSbn.toNat d.nCurPbn0
  plane1 : Maps rsv (nSbn.toNat + 1) d.nCurPbn1
  read : ∀ r ∈ read, r < rsv.nNumOfBMFs.toNat
  unpaired : d.nNumOfLLDOp = 1 ↔
    ¬ Paired d ∨ ¬ (IsReplaced rsv nSbn.toNat ↔ IsReplaced rsv (nSbn.toNat + 1))

theorem getPair_eq (m : Nat → BmlBMF) (s j : Nat) (d : BmlDieCxt) (hd : d.nNumOfLLDOp = 0)
    (h : (m (j + 1)).nSbn.toNat = s + 1) :
    (getPair m s j d).nCurPbn0 = (m j).nRbn ∧ (getPair m s j d).nCurPbn1 = (m (j + 1)).nRbn ∧
      ((getPair m s j d).nNumOfLLDOp = 1 ↔ ¬ Paired (getPair m s j d)) := by
  rw [getPair]
  dsimp only
  rw [if_pos h]
  split
  · refine ⟨rfl, rfl, ?_⟩
    simp only [Paired, true_iff]
    omega
  · refine ⟨rfl, rfl, ?_⟩
    simp only [Paired, hd]
    omega

section pair

variable {vol : BmlVolCxt} {rsv : BmlReservoir} {die j : Nat} {nSbn : UInt16}

variable (hw : WellFormed vol rsv die)
include hw

theorem sorted_mono {i : Nat} (hi : i < rsv.nNumOfBMFs.toNat)
    (h : (sorted rsv i).nSbn.toNat < (sorted rsv j).nSbn.toNat) : i < j := by
  by_contra hji
  obtain rfl | hlt := Nat.eq_or_lt_of_le (Nat.le_of_not_lt hji)
  · omega
  · have hlt' := sorted_lt hw hlt hi
    omega

theorem next_of_pair {i : Nat} (hi : i < rsv.nNumOfBMFs.toNat) (hj : j < rsv.nNumOfBMFs.toNat)
    (h : (sorted rsv i).nSbn.toNat = (sorted rsv j).nSbn.toNat + 1) : i = j + 1 := by
  have hji := sorted_mono hw hj (j := i) (by omega)
  by_contra hne
  have h1 := sorted_lt hw (i := j) (j := j + 1) (by omega) (by omega)
  have h2 := sorted_lt hw (i := j + 1) (j := i) (by omega) hi
  omega

theorem mapsPair_plane1 {first : Nat} {read : List Nat}
    (hj : j < rsv.nNumOfBMFs.toNat) (hs : (sorted rsv j).nSbn.toNat = nSbn.toNat + 1)
    (hno : ∀ l, first ≤ l → l < j → (sorted rsv l).nSbn.toNat ≠ nSbn.toNat)
    (hunit : ∀ i, i < rsv.nNumOfBMFs.toNat → (sorted rsv i).nSbn.toNat = nSbn.toNat → first ≤ i)
    (hr : ∀ r ∈ read, r ≤ j) :
    MapsPair rsv nSbn ⟨nSbn, (sorted rsv j).nRbn, 1⟩ read := by
  have hfree : ¬ IsReplaced rsv nSbn.toNat := not_isReplaced fun i hi hsi =>
    hno i (hunit i hi hsi) (sorted_mono hw hi (by omega)) hsi
  have hrep : Replaced rsv (nSbn.toNat + 1) (sorted rsv j).nRbn := replaced_iff.mpr ⟨j, hj, hs, rfl⟩
  refine ⟨.inr ⟨hfree, rfl⟩, .inl hrep, fun r hr' => Nat.lt_of_le_of_lt (hr r hr') hj, ?_⟩
  exact ⟨fun _ => .inr (fun hiff => hfree (hiff.mpr ⟨_, hrep⟩)), fun _ => rfl⟩

theorem mapsPair_plane0 {read : List Nat}
    (hj : j + 1 < rsv.nNumOfBMFs.toNat) (hs : (sorted rsv j).nSbn.toNat = nSbn.toNat)
    (hsucc : (nSbn + 1).toNat = nSbn.toNat + 1) (hr : ∀ r ∈ read, r ≤ j + 1) :
    MapsPair rsv nSbn (getPair (sorted rsv) nSbn.toNat j (identity nSbn)) read := by
  have hrep : Replaced rsv nSbn.toNat (sorted rsv j).nRbn := replaced_iff.mpr ⟨j, by omega, hs, rfl⟩
  have hread : ∀ r ∈ read, r < rsv.nNumOfBMFs.toNat := fun r hr' => Nat.lt_of_le_of_lt (hr r hr') hj
  by_cases hnext : (sorted rsv (j + 1)).nSbn.toNat = nSbn.toNat + 1
  · obtain ⟨h0, h1, hop⟩ := getPair_eq (sorted rsv) nSbn.toNat j (identity nSbn) rfl hnext
    have hrep1 : Replaced rsv (nSbn.toNat + 1) (sorted rsv (j + 1)).nRbn :=
      replaced_iff.mpr ⟨j + 1, hj, hnext, rfl⟩
    refine ⟨by rw [h0]; exact .inl hrep, by rw [h1]; exact .inl hrep1, hread, ?_⟩
    rw [hop]
    refine ⟨.inl, fun h => h.resolve_right ?_⟩
    exact not_not.mpr ⟨fun _ => ⟨_, hrep1⟩, fun _ => ⟨_, hrep⟩⟩
  · have hfree : ¬ IsReplaced rsv (nSbn.toNat + 1) := by
      refine not_isReplaced fun i hi hsi => ?_
      obtain rfl := next_of_pair hw hi (j := j) (by omega) (by omega)
      exact hnext hsi
    have he : getPair (sorted rsv) nSbn.toNat j (identity nSbn) =
        ⟨(sorted rsv j).nRbn, nSbn + 1, 1⟩ := by
      exact if_neg hnext
    rw [he]
    refine ⟨.inl hrep, .inr ⟨hfree, hsucc⟩, hread, ?_⟩
    exact ⟨fun _ => .inr (fun hiff => hfree (hiff.mp ⟨_, hrep⟩)), fun _ => rfl⟩

omit hw

theorem mapsPair_none {read : List Nat} (heven : nSbn.toNat % 2 = 0)
    (hsucc : (nSbn + 1).toNat = nSbn.toNat + 1) (h0 : ¬ IsReplaced rsv nSbn.toNat)
    (h1 : ¬ IsReplaced rsv (nSbn.toNat + 1)) (hr : ∀ r ∈ read, r < rsv.nNumOfBMFs.toNat) :
    MapsPair rsv nSbn (identity nSbn) read := by
  have hpaired : Paired (identity nSbn) := ⟨heven, hsucc⟩
  refine ⟨.inr ⟨h0, rfl⟩, .inr ⟨h1, hsucc⟩, hr, ?_⟩
  simp only [hpaired, h0, h1, not_true_eq_false, or_self, iff_false]
  exact Nat.zero_ne_one

theorem twoPlane_maps (hw : WellFormed vol rsv die) (hp : vol.nNumOfPlane = 2) (nSbn : UInt16)
    (heven : nSbn.toNat % 2 = 0)
    (hlast : IsReplaced rsv nSbn.toNat → ∃ s, nSbn.toNat < s ∧ IsReplaced rsv s) :
    MapsPair rsv nSbn (translateSbn vol rsv die nSbn).1 (translateSbn vol rsv die nSbn).2 := by
  have hsucc : (nSbn + 1).toNat = nSbn.toNat + 1 := by
    have hlt := nSbn.toNat_lt
    rw [UInt16.toNat_add]
    simp only [UInt16.reduceToNat]
    omega
  have hunit := fun i hi hs => in_unit hw (s := nSbn.toNat) (j := i) hi hs
  rw [translateSbn_eq hw, if_neg (by omega)]
  obtain ⟨j, hj, hj', hno, ⟨hs, hd, hr⟩ | ⟨hs, hd, hr, _⟩⟩ | ⟨hno, hd, hr⟩ :=
    getTwoPlane_cases (sorted rsv) heven
      (unitOf vol rsv die nSbn.toNat).nNumOfBMFs (unitOf vol rsv die nSbn.toNat).n1stBMFIdx
      (identity nSbn)
  · rw [hd]
    exact mapsPair_plane1 hw (unit_bound hw hj hj') hs (fun l hl hlj => (hno l hl hlj).1)
      (fun i hi hsi => (hunit i hi (by omega)).1) hr
  · have hjn := unit_bound hw hj hj'
    obtain ⟨s, hlt, hrep⟩ := hlast (isReplaced_iff.mpr ⟨j, hjn, hs⟩)
    obtain ⟨i, hi, hsi⟩ := isReplaced_iff.mp hrep
    have hji := sorted_mono hw hjn (j := i) (by omega)
    rw [hd]
    exact mapsPair_plane0 hw (by omega) hs hsucc hr
  · rw [hd]
    have hout : ∀ i, i < rsv.nNumOfBMFs.toNat → (sorted rsv i).nSbn.toNat ≠ nSbn.toNat ∧
        (sorted rsv i).nSbn.toNat ≠ nSbn.toNat + 1 := by
      intro i hi
      by_cases hb : (sorted rsv i).nSbn.toNat / 32 = nSbn.toNat / 32
      · exact hno i (hunit i hi hb).1 (hunit i hi hb).2
      · omega
    refine mapsPair_none heven hsucc (not_isReplaced fun i hi => (hout i hi).1)
      (not_isReplaced fun i hi => (hout i hi).2) fun r hr' => ?_
    have hlt := hr r hr'
    by_cases hz : (unitOf vol rsv die nSbn.toNat).nNumOfBMFs = 0
    · rw [hz, getTwoPlane] at hr'
      simp at hr'
    · exact Nat.lt_of_lt_of_le hlt ((unitOf_covers hw _).bound (Nat.pos_of_ne_zero hz))

end pair

/-- Translation through the index is translation by the map: of any block on a
one-plane device, and of both blocks of a pair on a two-plane device. -/
theorem translate_maps (vol : BmlVolCxt) (rsv : BmlReservoir) (die : Nat)
    (hw : WellFormed vol rsv die) (nSbn : UInt16) :
    (vol.nNumOfPlane = 1 → Maps rsv nSbn.toNat (translateSbn vol rsv die nSbn).1.nCurPbn0 ∧
        ∀ r ∈ (translateSbn vol rsv die nSbn).2, r < rsv.nNumOfBMFs.toNat) ∧
    (vol.nNumOfPlane = 2 → nSbn.toNat % 2 = 0 →
      (IsReplaced rsv nSbn.toNat → ∃ s, nSbn.toNat < s ∧ IsReplaced rsv s) →
      MapsPair rsv nSbn (translateSbn vol rsv die nSbn).1 (translateSbn vol rsv die nSbn).2) :=
  ⟨fun hp => onePlane_maps hw hp nSbn, fun hp heven hlast => twoPlane_maps hw hp nSbn heven hlast⟩

def twoPlaneVol : BmlVolCxt := ⟨64, 2, 4, 2048, 64, 4, 0, pgs_sixtyFour⟩

def twoFields (a b : BmlBMF) : BmlReservoir :=
  ⟨.slc, 60, 63, 64, 2, 0, fun i => if i = 0 then a else b, fun _ => 0xFFFF, fun _ => ⟨0, 0⟩⟩

theorem twoFields_wellFormed {a b : BmlBMF} (hne : a.nSbn ≠ b.nSbn) (ha : a.nSbn.toNat < 64)
    (hb : b.nSbn.toNat < 64) : WellFormed twoPlaneVol (twoFields a b) 0 := by
  refine ⟨⟨6, by decide, rfl⟩, ?_, ?_⟩
  · intro i j hi hj
    change i < 2 at hi
    change j < 2 at hj
    simp only [twoFields]
    split <;> split <;> intro he
    · omega
    · exact absurd he hne
    · exact absurd he.symm hne
    · omega
  · intro i _
    simp only [twoFields, twoPlaneVol]
    split <;> omega

theorem translate_maps_pair : WellFormed twoPlaneVol (twoFields ⟨9, 61⟩ ⟨4, 60⟩) 0 ∧
      MapsPair (twoFields ⟨9, 61⟩ ⟨4, 60⟩) 4
        (translateSbn twoPlaneVol (twoFields ⟨9, 61⟩ ⟨4, 60⟩) 0 4).1
        (translateSbn twoPlaneVol (twoFields ⟨9, 61⟩ ⟨4, 60⟩) 0 4).2 := by
  have hw : WellFormed twoPlaneVol (twoFields ⟨9, 61⟩ ⟨4, 60⟩) 0 :=
    twoFields_wellFormed (by decide) (by decide) (by decide)
  refine ⟨hw, (translate_maps _ _ _ hw 4).2 rfl rfl ?_⟩
  exact fun _ => ⟨9, by decide, 61, 0, by decide, rfl, rfl⟩

/-- Agreement with the map for every block, odd ones of a two-plane device
included, with pairs told from the resulting blocks alone. -/
def Agrees (vol : BmlVolCxt) (rsv : BmlReservoir) (die : Nat) (nSbn : UInt16) : Prop :=
  Maps rsv nSbn.toNat (translateSbn vol rsv die nSbn).1.nCurPbn0 ∧
  (vol.nNumOfPlane = 2 → nSbn.toNat % 2 = 0 →
    Maps rsv (nSbn.toNat + 1) (translateSbn vol rsv die nSbn).1.nCurPbn1 ∧
    ((translateSbn vol rsv die nSbn).1.nNumOfLLDOp = 1 ↔ ¬ Paired (translateSbn vol rsv die nSbn).1)) ∧
  ∀ r ∈ (translateSbn vol rsv die nSbn).2, r < rsv.nNumOfBMFs.toNat

/-- The block of an odd number is looked up as the plane 1 block of its pair,
and a single block replaced by itself still counts as unpaired. -/
theorem odd_block_and_lone_field : (WellFormed twoPlaneVol (twoFields ⟨5, 60⟩ ⟨9, 61⟩) 0 ∧
      ¬ Agrees twoPlaneVol (twoFields ⟨5, 60⟩ ⟨9, 61⟩) 0 5) ∧
    WellFormed twoPlaneVol (twoFields ⟨4, 4⟩ ⟨9, 61⟩) 0 ∧
      ¬ Agrees twoPlaneVol (twoFields ⟨4, 4⟩ ⟨9, 61⟩) 0 4 := by
  refine ⟨⟨twoFields_wellFormed (by decide) (by decide) (by decide), ?_⟩,
    twoFields_wellFormed (by decide) (by decide) (by decide), ?_⟩
  · intro h
    have hd : (translateSbn twoPlaneVol (twoFields ⟨5, 60⟩ ⟨9, 61⟩) 0 5).1 = ⟨5, 60, 1⟩ := by decide +kernel
    have hm := h.1
    rw [hd] at hm
    obtain ⟨i, hi, hs, hr⟩ | ⟨hno, _⟩ := hm
    · simp only [twoFields] at hs hr
      split at hs <;> simp_all
    · exact hno ⟨60, 0, by decide, rfl, rfl⟩
  · intro h
    have hd : (translateSbn twoPlaneVol (twoFields ⟨4, 4⟩ ⟨9, 61⟩) 0 4).1 = ⟨4, 5, 1⟩ := by decide +kernel
    have hop := (h.2.1 rfl rfl).2
    exact hop.mp rfl ⟨rfl, rfl⟩

end VDLinux.Tfsr.BlockMapLookup
