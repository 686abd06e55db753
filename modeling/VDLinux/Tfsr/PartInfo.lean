import VDLinux.Base.BubbleSort
import VDLinux.Base.Intervals
import VDLinux.Tfsr.BlockMap
import VDLinux.Tfsr.ReturnValue

namespace VDLinux.Tfsr.PartInfo

open Base.BubbleSort Base.ExchangeSort Base.Intervals
open BlockMap ReturnValue

def fsrBmlPiAttrSLC : UInt16 := 0x1000
def fsrBmlPiAttrMLC : UInt16 := 0x2000
def fsrLldFlexOnenand : UInt16 := 0x0000

structure FSRPartEntry where
  nID : UInt16
  nAttr : UInt16
  n1stVun : UInt16
  nNumOfUnits : UInt16
  nLoadAddr : UInt32
  nReserved : UInt32
deriving DecidableEq, Repr

structure FSRPartI where
  nNumOfPartEntry : Nat
  stPEntry : Nat → FSRPartEntry

/-- Devices have at most `FSR_MAX_PLANES` planes. -/
structure PartVol where
  nNANDType : UInt16
  nLastUnit : Nat
  nNumOfPlane : Nat
  planes : 1 ≤ nNumOfPlane ∧ nNumOfPlane ≤ 2

def FSRPartEntry.units (e : FSRPartEntry) : Nat × Nat :=
  (e.n1stVun.toNat, e.n1stVun.toNat + e.nNumOfUnits.toNat)

/-- A partition with both attributes is taken as SLC. -/
def FSRPartEntry.isSLC (e : FSRPartEntry) : Bool := e.nAttr &&& fsrBmlPiAttrSLC ≠ 0

def FSRPartEntry.isMLC (e : FSRPartEntry) : Bool := !e.isSLC && e.nAttr &&& fsrBmlPiAttrMLC ≠ 0

def checkBoundary (pstPEntry : Nat → FSRPartEntry) : Nat → Nat → Option (BitVec 32)
  | 0, _ => none
  | left + 1, nCnt =>
    if (pstPEntry nCnt).units.2 < (pstPEntry (nCnt + 1)).units.1 then
      some (fsrBmlInvalidPartition ||| fsrBmlUnusedArea)
    else if (pstPEntry (nCnt + 1)).units.1 < (pstPEntry nCnt).units.2 then
      some (fsrBmlInvalidPartition ||| fsrBmlOverlappedPartition)
    else checkBoundary pstPEntry left (nCnt + 1)

structure AttrScan where
  nLastSLCPartIdx : Nat
  bFoundSLCPart : Bool
  bFoundMLCPart : Bool

/-- The loop over the attributes; an error is what it leaves in `nRet`. -/
def scanAttr (pstPEntry : Nat → FSRPartEntry) : Nat → Nat → AttrScan → Except (BitVec 32) AttrScan
  | 0, _, s => .ok s
  | left + 1, nIdx, s =>
    if (pstPEntry nIdx).isSLC then
      if s.bFoundMLCPart = false then
        scanAttr pstPEntry left (nIdx + 1) { s with bFoundSLCPart := true, nLastSLCPartIdx := nIdx }
      else .error fsrBmlInvalidParam
    else if (pstPEntry nIdx).isMLC then scanAttr pstPEntry left (nIdx + 1) { s with bFoundMLCPart := true }
    else .error fsrBmlInvalidParam

/-- The result, the table as it is left and what is stored in `*pnLastSLCPbn`, if anything. -/
structure CheckRun where
  nRet : BitVec 32
  stPEntry : Nat → FSRPartEntry
  pnLastSLCPbn : Option Nat

def lastUnit (e : FSRPartEntry) : Nat := uint32 (e.units.2 + 2 ^ 32 - 1)

def checkFlex (pstVol : PartVol) (pstPEntry : Nat → FSRPartEntry) (n : Nat) : CheckRun :=
  match scanAttr pstPEntry n 0 ⟨0xFFFFFFFF, false, false⟩ with
  | .error nRet => ⟨nRet, pstPEntry, none⟩
  | .ok s =>
    if s.bFoundSLCPart then
      let nFirstMLCVun := (pstPEntry s.nLastSLCPartIdx).units.2
      let nFirstMLCPbn := uint32 (nFirstMLCVun * pstVol.nNumOfPlane)
      ⟨fsrBmlSuccess, pstPEntry, some (uint32 (nFirstMLCPbn + 2 ^ 32 - 1))⟩
    else ⟨fsrBmlSuccess, pstPEntry, some 0⟩

def checkSorted (pstVol : PartVol) (pstPEntry : Nat → FSRPartEntry) (n : Nat) : CheckRun :=
  match checkBoundary pstPEntry (n - 1) 0 with
  | some nRet => ⟨nRet, pstPEntry, none⟩
  | none =>
    let nLastUnit := lastUnit (pstPEntry (n - 1))
    if pstVol.nLastUnit < nLastUnit then
      ⟨fsrBmlInvalidPartition ||| fsrBmlUnsupportedUnits, pstPEntry, none⟩
    else if pstVol.nNANDType = fsrLldFlexOnenand then
      if nLastUnit < pstVol.nLastUnit then ⟨fsrBmlInvalidPartition ||| fsrBmlUnusedArea, pstPEntry, none⟩
      else checkFlex pstVol pstPEntry n
    else ⟨fsrBmlSuccess, pstPEntry, none⟩

def checkPartInfo (pstVol : PartVol) (pstPartI : FSRPartI) : CheckRun :=
  let n := pstPartI.nNumOfPartEntry
  checkSorted pstVol
    (if 1 < n then bubbleSort (fun e => e.n1stVun.toNat) n pstPartI.stPEntry else pstPartI.stPEntry) n

/-- One of the three results that complain about the units. -/
def ReportsUnits (nRet : BitVec 32) : Prop :=
  nRet = fsrBmlInvalidPartition ||| fsrBmlUnusedArea ∨
    nRet = fsrBmlInvalidPartition ||| fsrBmlOverlappedPartition ∨
    nRet = fsrBmlInvalidPartition ||| fsrBmlUnsupportedUnits

instance (nRet : BitVec 32) : Decidable (ReportsUnits nRet) := inferInstanceAs (Decidable (_ ∨ _))

/-- The partitions are disjoint and fill one interval of units that ends in the volume, on Flex-OneNAND
with its last unit. -/
def Tiles (pstVol : PartVol) (n : Nat) (stPEntry : Nat → FSRPartEntry) : Prop :=
  Apart n (fun i => (stPEntry i).units) ∧
    ∃ first stop, covered n (fun i => (stPEntry i).units) = Set.Ico first stop ∧
      if pstVol.nNANDType = fsrLldFlexOnenand then stop = pstVol.nLastUnit + 1 else stop ≤ pstVol.nLastUnit + 1

section Boundary

variable {vol : PartVol} {pe : Nat → FSRPartEntry} {n : Nat}

theorem checkBoundary_cases (pe : Nat → FSRPartEntry) (left nCnt : Nat) :
    (checkBoundary pe left nCnt = none ∧ ∀ i, nCnt ≤ i → i < nCnt + left → (pe i).units.2 = (pe (i + 1)).units.1) ∨
      ∃ c, checkBoundary pe left nCnt = some c ∧ ReportsUnits c ∧
        ∃ i, nCnt ≤ i ∧ i < nCnt + left ∧ (pe i).units.2 ≠ (pe (i + 1)).units.1 := by
  induction left generalizing nCnt with
  | zero => exact .inl ⟨rfl, fun i hlo hhi => absurd hhi (Nat.not_lt_of_le hlo)⟩
  | succ left ih =>
    rw [checkBoundary]
    split_ifs with hgap hover
    · exact .inr ⟨_, rfl, .inl rfl, nCnt, Nat.le_refl _, by omega, Nat.ne_of_lt hgap⟩
    · exact .inr ⟨_, rfl, .inr (.inl rfl), nCnt, Nat.le_refl _, by omega, Nat.ne_of_gt hover⟩
    · obtain ⟨hnone, hall⟩ | ⟨c, hc, hrep, i, hlo, hhi, hne⟩ := ih (nCnt + 1)
      · refine .inl ⟨hnone, fun i hlo hhi => ?_⟩
        rcases Nat.eq_or_lt_of_le hlo with rfl | hlo
        · omega
        · exact hall i hlo (by omega)
      · exact .inr ⟨c, hc, hrep, i, by omega, by omega, hne⟩

theorem scanAttr_error {left nIdx : Nat} {s : AttrScan} {c : BitVec 32} (h : scanAttr pe left nIdx s = .error c) :
    c = fsrBmlInvalidParam := by
  induction left generalizing nIdx s with
  | zero => cases h
  | succ left ih =>
    rw [scanAttr] at h
    split_ifs at h
    · exact ih h
    · exact (Except.error.inj h).symm
    · exact ih h
    · exact (Except.error.inj h).symm

theorem not_reports_success : ¬ ReportsUnits fsrBmlSuccess := by decide

theorem checkFlex_not_reports (vol : PartVol) (pe : Nat → FSRPartEntry) (n : Nat) :
    ¬ ReportsUnits (checkFlex vol pe n).nRet := by
  unfold checkFlex
  split
  · rename_i c hc
    rw [scanAttr_error hc]
    exact (by decide : ¬ ReportsUnits fsrBmlInvalidParam)
  · split <;> exact not_reports_success

theorem units_lt {e : FSRPartEntry} (h : 0 < e.nNumOfUnits) : e.units.1 < e.units.2 :=
  Nat.lt_add_of_pos_right (UInt16.lt_iff_toNat_lt.mp h)

theorem lastUnit_eq {e : FSRPartEntry} (h : 0 < e.nNumOfUnits) : lastUnit e + 1 = e.units.2 := by
  have h1 := e.n1stVun.toNat_lt
  have h2 := e.nNumOfUnits.toNat_lt
  have hpos : 0 < e.nNumOfUnits.toNat := UInt16.lt_iff_toNat_lt.mp h
  simp only [lastUnit, uint32, FSRPartEntry.units]
  omega

/-- The neighbours are joined and the last partition ends where it has to. -/
def Fits (vol : PartVol) (n : Nat) (pe : Nat → FSRPartEntry) : Prop :=
  Joined n (fun i => (pe i).units) ∧
    if vol.nNANDType = fsrLldFlexOnenand then (pe (n - 1)).units.2 = vol.nLastUnit + 1
    else (pe (n - 1)).units.2 ≤ vol.nLastUnit + 1

theorem checkSorted_cases (vol : PartVol) (hn : 0 < n) (hne : ∀ i < n, 0 < (pe i).nNumOfUnits) :
    (ReportsUnits (checkSorted vol pe n).nRet ∧ ¬ Fits vol n pe) ∨
      Fits vol n pe ∧ checkSorted vol pe n =
        if vol.nNANDType = fsrLldFlexOnenand then checkFlex vol pe n else ⟨fsrBmlSuccess, pe, none⟩ := by
  have hlast := lastUnit_eq (hne (n - 1) (by omega))
  unfold checkSorted Fits
  obtain ⟨hnone, hall⟩ | ⟨c, hc, hrep, i, -, hhi, hdiff⟩ := checkBoundary_cases pe (n - 1) 0
  · have hjoined : Joined n fun i => (pe i).units := fun i hi => hall i (Nat.zero_le i) (by omega)
    simp only [hnone, hjoined, true_and]
    split_ifs with hover hflex hflex hunused
    · exact .inl ⟨.inr (.inr rfl), by omega⟩
    · exact .inl ⟨.inr (.inr rfl), by omega⟩
    · exact .inl ⟨.inl rfl, by omega⟩
    · exact .inr ⟨by omega, rfl⟩
    · exact .inr ⟨by omega, rfl⟩
  · simp only [hc]
    exact .inl ⟨hrep, fun h => hdiff (h.1 i (by omega))⟩

theorem not_reports_iff (hn : 0 < n) (hne : ∀ i < n, 0 < (pe i).nNumOfUnits) :
    ¬ ReportsUnits (checkSorted vol pe n).nRet ↔ Fits vol n pe := by
  obtain ⟨hrep, hnot⟩ | ⟨hfits, heq⟩ := checkSorted_cases vol hn hne
  · exact ⟨fun h => absurd hrep h, fun h => absurd h hnot⟩
  · refine ⟨fun _ => hfits, fun _ => ?_⟩
    rw [heq]
    split
    · exact checkFlex_not_reports vol pe n
    · exact not_reports_success

theorem not_reports_iff_tiles (hn : 0 < n) (hne : ∀ i < n, 0 < (pe i).nNumOfUnits)
    (hsorted : ∀ i j, i ≤ j → j < n → (pe i).n1stVun.toNat ≤ (pe j).n1stVun.toNat) :
    ¬ ReportsUnits (checkSorted vol pe n).nRet ↔ Tiles vol n pe := by
  have hpos := fun i hi => units_lt (hne i hi)
  rw [not_reports_iff hn hne, Fits]
  constructor
  · rintro ⟨hjoined, hstop⟩
    exact ⟨hjoined.apart hpos, _, _, hjoined.covered_eq hpos hn, hstop⟩
  · rintro ⟨hapart, first, stop, hfill, hstop⟩
    have hjoined := joined_of_filled hpos hsorted hapart hfill
    have heq := (hjoined.covered_eq hpos hn).symm.trans hfill
    rw [((Set.Ico_eq_Ico_iff (.inl (hjoined.start_lt_stop hpos hn))).mp heq).2]
    exact ⟨hjoined, hstop⟩

end Boundary

section Attributes

variable {vol : PartVol} {pe : Nat → FSRPartEntry} {n : Nat}

/-- What the loop has found of the first `i` partitions. -/
structure Scanned (pe : Nat → FSRPartEntry) (i : Nat) (s : AttrScan) : Prop where
  noMLC : s.bFoundMLCPart = false → ∀ k < i, (pe k).isMLC = false
  ordered : ∀ j < i, ∀ k < i, (pe j).isSLC → (pe k).isMLC → j < k
  last : ∀ k < i, (pe k).isSLC → s.bFoundSLCPart ∧ k ≤ s.nLastSLCPartIdx
  bound : s.bFoundSLCPart → s.nLastSLCPartIdx < i ∧ (pe s.nLastSLCPartIdx).isSLC

theorem Scanned.slcPart {i : Nat} {s : AttrScan} (h : Scanned pe i s) (hslc : (pe i).isSLC)
    (hmlc : s.bFoundMLCPart = false) :
    Scanned pe (i + 1) { s with bFoundSLCPart := true, nLastSLCPartIdx := i } := by
  have hnone : ∀ k < i + 1, (pe k).isMLC = false := fun k hk => by
    rcases Nat.lt_succ_iff_lt_or_eq.mp hk with hk | rfl
    · exact h.noMLC hmlc k hk
    · simp [FSRPartEntry.isMLC, hslc]
  exact ⟨fun _ => hnone, fun j _ k hk _ hm => by simp [hnone k hk] at hm,
    fun k hk _ => ⟨rfl, Nat.le_of_lt_succ hk⟩, fun _ => ⟨Nat.lt_succ_self i, hslc⟩⟩

theorem Scanned.mlcPart {i : Nat} {s : AttrScan} (h : Scanned pe i s) (hslc : ¬ (pe i).isSLC) :
    Scanned pe (i + 1) { s with bFoundMLCPart := true } := by
  have hold : ∀ k < i + 1, (pe k).isSLC → k < i := fun k hk hs => by
    rcases Nat.lt_succ_iff_lt_or_eq.mp hk with hk | rfl
    · exact hk
    · exact absurd hs hslc
  refine ⟨nofun, fun j hj k hk hs hm => ?_, fun k hk hs => h.last k (hold k hk hs) hs, fun hf => ?_⟩
  · rcases Nat.lt_succ_iff_lt_or_eq.mp hk with hk | rfl
    · exact h.ordered j (hold j hj hs) k hk hs hm
    · exact hold j hj hs
  · exact ⟨Nat.lt_succ_of_lt (h.bound hf).1, (h.bound hf).2⟩

theorem scanAttr_scanned {left nIdx : Nat} {s s' : AttrScan} (h : Scanned pe nIdx s)
    (hok : scanAttr pe left nIdx s = .ok s') : Scanned pe (nIdx + left) s' := by
  induction left generalizing nIdx s with
  | zero =>
    cases hok
    exact h
  | succ left ih =>
    rw [scanAttr] at hok
    rw [Nat.add_succ, ← Nat.succ_add]
    split_ifs at hok with hslc hmlc
    · exact ih (h.slcPart hslc hmlc) hok
    · exact ih (h.mlcPart hslc) hok

theorem checkFlex_success (h : (checkFlex vol pe n).nRet = fsrBmlSuccess) :
    ∃ s, Scanned pe n s ∧ (s.bFoundSLCPart →
      (checkFlex vol pe n).pnLastSLCPbn = some (uint32 (uint32 ((pe s.nLastSLCPartIdx).units.2 *
        vol.nNumOfPlane) + 2 ^ 32 - 1))) := by
  have hstart : Scanned pe 0 ⟨0xFFFFFFFF, false, false⟩ := ⟨nofun, nofun, nofun, nofun⟩
  unfold checkFlex at h ⊢
  cases hs : scanAttr pe n 0 ⟨0xFFFFFFFF, false, false⟩ with
  | error c =>
    simp only [hs, scanAttr_error hs] at h
    exact absurd h (by decide)
  | ok s =>
    refine ⟨s, Nat.zero_add n ▸ scanAttr_scanned hstart hs, fun hfound => ?_⟩
    simp only [hfound, if_true]

theorem lastPbn_eq (vol : PartVol) {e : FSRPartEntry} (h : 0 < e.nNumOfUnits) :
    uint32 (uint32 (e.units.2 * vol.nNumOfPlane) + 2 ^ 32 - 1) = e.units.2 * vol.nNumOfPlane - 1 := by
  have h1 := e.n1stVun.toNat_lt
  have h2 := e.nNumOfUnits.toNat_lt
  have hpos : 0 < e.nNumOfUnits.toNat := UInt16.lt_iff_toNat_lt.mp h
  have hlow : e.units.2 * 1 ≤ e.units.2 * vol.nNumOfPlane := Nat.mul_le_mul_left _ vol.planes.1
  have hhigh : e.units.2 * vol.nNumOfPlane ≤ e.units.2 * 2 := Nat.mul_le_mul_left _ vol.planes.2
  simp only [uint32, FSRPartEntry.units] at hlow hhigh ⊢
  omega

end Attributes

section Table

variable {vol : PartVol} {n : Nat} {pe pe' : Nat → FSRPartEntry}

theorem Tiles.rearranged (h : Rearranged 0 n pe pe') (htiles : Tiles vol n pe) : Tiles vol n pe' := by
  obtain ⟨hapart, first, stop, hfill, hstop⟩ := htiles
  exact ⟨hapart.rearranged _ h, first, stop, (covered_rearranged _ h).trans hfill, hstop⟩

theorem slc_ahead (hr : Rearranged 0 n pe pe') (hne : ∀ i < n, 0 < (pe' i).nNumOfUnits)
    (hfits : Joined n fun i => (pe' i).units) (hok : (checkFlex vol pe' n).nRet = fsrBmlSuccess) :
    (∀ i < n, ∀ j < n, (pe i).isSLC → (pe j).isMLC → (pe i).units.2 ≤ (pe j).units.1) ∧
      ∀ i < n, (pe i).isSLC → (∀ j < n, (pe j).isSLC → (pe j).n1stVun ≤ (pe i).n1stVun) →
        (checkFlex vol pe' n).pnLastSLCPbn = some ((pe i).units.2 * vol.nNumOfPlane - 1) := by
  have hpos := fun i hi => units_lt (hne i hi)
  obtain ⟨s, hscan, hpbn⟩ := checkFlex_success hok
  constructor
  · intro i hi j hj hslc hmlc
    obtain ⟨a, -, ha, hia⟩ := hr.symm.inside (Nat.zero_le i) hi
    obtain ⟨b, -, hb, hjb⟩ := hr.symm.inside (Nat.zero_le j) hj
    rw [hia] at hslc ⊢
    rw [hjb] at hmlc ⊢
    exact hfits.stop_le hpos (hscan.ordered a ha b hb hslc hmlc) hb
  · intro i hi hslc hmax
    obtain ⟨a, -, ha, hia⟩ := hr.symm.inside (Nat.zero_le i) hi
    rw [hia] at hslc hmax ⊢
    obtain ⟨hfound, hle⟩ := hscan.last a ha hslc
    obtain ⟨hlast, hlastSLC⟩ := hscan.bound hfound
    -- a later SLC partition would begin behind this one
    have hsame : a = s.nLastSLCPartIdx := by
      by_contra hdiff
      have hstop := hfits.stop_le hpos (Nat.lt_of_le_of_ne hle hdiff) hlast
      obtain ⟨j, -, hj, hjl⟩ := hr.inside (Nat.zero_le _) hlast
      have hbegin := hmax j hj (hjl ▸ hlastSLC)
      rw [← hjl, UInt16.le_iff_toNat_le] at hbegin
      exact absurd (hstop.trans hbegin) (Nat.not_le_of_lt (hpos a ha))
    rw [hpbn hfound, ← hsame, lastPbn_eq vol (hne a ha)]

end Table

variable (vol : PartVol)

theorem checkPartInfo_sorts (pi : FSRPartI) (hn : 0 < pi.nNumOfPartEntry) :
    ∃ pe, checkPartInfo vol pi = checkSorted vol pe pi.nNumOfPartEntry ∧
      Rearranged 0 pi.nNumOfPartEntry pi.stPEntry pe ∧
      ∀ i j, i ≤ j → j < pi.nNumOfPartEntry → (pe i).n1stVun.toNat ≤ (pe j).n1stVun.toNat := by
  unfold checkPartInfo
  dsimp only
  split
  · exact ⟨_, rfl, bubbleSort_sorted _ _ _⟩
  · refine ⟨_, rfl, .refl, fun i j hij hj => ?_⟩
    obtain rfl : i = j := by omega
    exact Nat.le_refl _

theorem checkFlex_stPEntry (pe : Nat → FSRPartEntry) (n : Nat) :
    (checkFlex vol pe n).stPEntry = pe := by
  unfold checkFlex
  cases scanAttr pe n 0 ⟨0xFFFFFFFF, false, false⟩ with
  | error c => rfl
  | ok s => exact (apply_ite CheckRun.stPEntry _ _ _).trans (ite_self pe)

theorem checkSorted_stPEntry (pe : Nat → FSRPartEntry) (n : Nat) :
    (checkSorted vol pe n).stPEntry = pe := by
  unfold checkSorted
  cases checkBoundary pe (n - 1) 0 with
  | some c => rfl
  | none => simp only [apply_ite CheckRun.stPEntry, checkFlex_stPEntry, ite_self]

/-- The table is left in ascending order; the units are complained about exactly if the partitions do not
tile; and success on Flex-OneNAND means SLC before MLC, with the last SLC block stored. -/
theorem checkPartInfo_spec (vol : PartVol) (pi : FSRPartI) (hn : 0 < pi.nNumOfPartEntry)
    (hne : ∀ i < pi.nNumOfPartEntry, 0 < (pi.stPEntry i).nNumOfUnits) :
    (Rearranged 0 pi.nNumOfPartEntry pi.stPEntry (checkPartInfo vol pi).stPEntry ∧
      ∀ i j, i ≤ j → j < pi.nNumOfPartEntry →
        ((checkPartInfo vol pi).stPEntry i).n1stVun ≤ ((checkPartInfo vol pi).stPEntry j).n1stVun) ∧
    (¬ ReportsUnits (checkPartInfo vol pi).nRet ↔ Tiles vol pi.nNumOfPartEntry pi.stPEntry) ∧
    (vol.nNANDType = fsrLldFlexOnenand → (checkPartInfo vol pi).nRet = fsrBmlSuccess →
      (∀ i < pi.nNumOfPartEntry, ∀ j < pi.nNumOfPartEntry, (pi.stPEntry i).isSLC → (pi.stPEntry j).isMLC →
        (pi.stPEntry i).units.2 ≤ (pi.stPEntry j).units.1) ∧
      ∀ i < pi.nNumOfPartEntry, (pi.stPEntry i).isSLC →
        (∀ j < pi.nNumOfPartEntry, (pi.stPEntry j).isSLC → (pi.stPEntry j).n1stVun ≤ (pi.stPEntry i).n1stVun) →
        (checkPartInfo vol pi).pnLastSLCPbn = some ((pi.stPEntry i).units.2 * vol.nNumOfPlane - 1)) := by
  obtain ⟨pe, heq, hr, hsorted⟩ := checkPartInfo_sorts vol pi hn
  have hne' : ∀ i < pi.nNumOfPartEntry, 0 < (pe i).nNumOfUnits := fun i hi => by
    obtain ⟨j, -, hj, hij⟩ := hr.inside (Nat.zero_le i) hi
    exact hij ▸ hne j hj
  rw [heq, checkSorted_stPEntry]
  refine ⟨⟨hr, fun i j hij hj => UInt16.le_iff_toNat_le.mpr (hsorted i j hij hj)⟩, ?_, fun hflex hok => ?_⟩
  · rw [not_reports_iff_tiles hn hne' hsorted]
    exact ⟨Tiles.rearranged hr.symm, Tiles.rearranged hr⟩
  · obtain ⟨hrep, -⟩ | ⟨hfits, hrun⟩ := checkSorted_cases vol hn hne'
    · rw [hok] at hrep
      exact absurd hrep (by decide)
    · rw [if_pos hflex] at hrun
      rw [hrun] at hok ⊢
      exact slc_ahead hr hne' hfits.1 hok

def twoParts : FSRPartI := ⟨2, fun i => if i = 0 then ⟨1, 0x2000, 4, 6, 0, 0⟩ else ⟨0, 0x1000, 0, 4, 0, 0⟩⟩

theorem checkPartInfo_spec_two : ¬ ReportsUnits (checkPartInfo ⟨0, 9, 2, by decide⟩ twoParts).nRet ∧
      (checkPartInfo ⟨0, 9, 2, by decide⟩ twoParts).pnLastSLCPbn = some 7 ∧
      Tiles ⟨0, 9, 2, by decide⟩ 2 twoParts.stPEntry := by
  have hspec := checkPartInfo_spec ⟨0, 9, 2, by decide⟩ twoParts (by decide) (by decide)
  have hok : ¬ ReportsUnits (checkPartInfo ⟨0, 9, 2, by decide⟩ twoParts).nRet := by decide
  exact ⟨hok, by decide, hspec.2.1.mp hok⟩

end VDLinux.Tfsr.PartInfo
