import Mathlib

namespace VDLinux.Drivers.Raid5

open Int

inductive Level where
  | raid4
  | raid5
  | raid6
  deriving DecidableEq

inductive Algorithm where
  | leftAsymmetric
  | rightAsymmetric
  | leftSymmetric
  | rightSymmetric
  | parity0
  | parityN
  | rotatingZeroRestart
  | rotatingNRestart
  | rotatingNContinue
  | leftAsymmetric6
  | rightAsymmetric6
  | leftSymmetric6
  | rightSymmetric6
  | parity06
  deriving DecidableEq

def algorithmValidRaid5 : Algorithm → Bool
  | .leftAsymmetric | .rightAsymmetric | .leftSymmetric | .rightSymmetric | .parity0 | .parityN => true
  | _ => false

/-- The geometry of the array, and the one before a reshape. -/
structure Conf where
  level : Level
  algorithm : Algorithm
  chunkSectors : ℤ
  raidDisks : ℤ
  prevAlgo : Algorithm
  prevChunkSectors : ℤ
  previousRaidDisks : ℤ

def Level.maxDegraded : Level → ℤ
  | .raid6 => 2
  | _ => 1

/-- Where a chunk of a stripe lies: its disk, the parity disks and the order in which Q is computed. -/
structure Place where
  ddIdx : ℤ
  pdIdx : ℤ
  qdIdx : ℤ
  ddfLayout : Bool
  deriving DecidableEq

/-- The data disks of a stripe without the parity disk. -/
def skipParity (ddIdx pdIdx : ℤ) : ℤ := if pdIdx ≤ ddIdx then ddIdx + 1 else ddIdx

/-- `Q D D D P` when the parity is last, else `D D P Q D`. -/
def skipParities (raidDisks ddIdx pdIdx : ℤ) (ddf : Bool) : Place :=
  if pdIdx = raidDisks - 1 then ⟨ddIdx + 1, pdIdx, 0, ddf⟩
  else if pdIdx ≤ ddIdx then ⟨ddIdx + 2, pdIdx, pdIdx + 1, ddf⟩
  else ⟨ddIdx, pdIdx, pdIdx + 1, ddf⟩

/-- The switch of `raid5_compute_sector`; without a result at `BUG`. -/
def place (level : Level) (algorithm : Algorithm) (raidDisks dataDisks stripe ddIdx : ℤ) : Option Place :=
  match level with
  | .raid4 => some ⟨ddIdx, dataDisks, -1, false⟩
  | .raid5 =>
    match algorithm with
    | .leftAsymmetric =>
      let pdIdx := dataDisks - stripe % raidDisks
      some ⟨skipParity ddIdx pdIdx, pdIdx, -1, false⟩
    | .rightAsymmetric =>
      let pdIdx := stripe % raidDisks
      some ⟨skipParity ddIdx pdIdx, pdIdx, -1, false⟩
    | .leftSymmetric =>
      let pdIdx := dataDisks - stripe % raidDisks
      some ⟨(pdIdx + 1 + ddIdx) % raidDisks, pdIdx, -1, false⟩
    | .rightSymmetric =>
      let pdIdx := stripe % raidDisks
      some ⟨(pdIdx + 1 + ddIdx) % raidDisks, pdIdx, -1, false⟩
    | .parity0 => some ⟨ddIdx + 1, 0, -1, false⟩
    | .parityN => some ⟨ddIdx, dataDisks, -1, false⟩
    | _ => none
  | .raid6 =>
    match algorithm with
    | .leftAsymmetric => some (skipParities raidDisks ddIdx (raidDisks - 1 - stripe % raidDisks) false)
    | .rightAsymmetric => some (skipParities raidDisks ddIdx (stripe % raidDisks) false)
    | .leftSymmetric =>
      let pdIdx := raidDisks - 1 - stripe % raidDisks
      some ⟨(pdIdx + 2 + ddIdx) % raidDisks, pdIdx, (pdIdx + 1) % raidDisks, false⟩
    | .rightSymmetric =>
      let pdIdx := stripe % raidDisks
      some ⟨(pdIdx + 2 + ddIdx) % raidDisks, pdIdx, (pdIdx + 1) % raidDisks, false⟩
    | .parity0 => some ⟨ddIdx + 2, 0, 1, false⟩
    | .parityN => some ⟨ddIdx, dataDisks, dataDisks + 1, false⟩
    | .rotatingZeroRestart => some (skipParities raidDisks ddIdx (stripe % raidDisks) true)
    | .rotatingNRestart =>
      some (skipParities raidDisks ddIdx (raidDisks - 1 - (stripe + 1) % raidDisks) true)
    | .rotatingNContinue =>
      let pdIdx := raidDisks - 1 - stripe % raidDisks
      some ⟨(pdIdx + 1 + ddIdx) % raidDisks, pdIdx, (pdIdx + raidDisks - 1) % raidDisks, true⟩
    | .leftAsymmetric6 =>
      let pdIdx := dataDisks - stripe % (raidDisks - 1)
      some ⟨skipParity ddIdx pdIdx, pdIdx, raidDisks - 1, false⟩
    | .rightAsymmetric6 =>
      let pdIdx := stripe % (raidDisks - 1)
      some ⟨skipParity ddIdx pdIdx, pdIdx, raidDisks - 1, false⟩
    | .leftSymmetric6 =>
      let pdIdx := dataDisks - stripe % (raidDisks - 1)
      some ⟨(pdIdx + 1 + ddIdx) % (raidDisks - 1), pdIdx, raidDisks - 1, false⟩
    | .rightSymmetric6 =>
      let pdIdx := stripe % (raidDisks - 1)
      some ⟨(pdIdx + 1 + ddIdx) % (raidDisks - 1), pdIdx, raidDisks - 1, false⟩
    | .parity06 => some ⟨ddIdx + 1, 0, raidDisks - 1, false⟩

namespace Conf

variable (conf : Conf) (previous : Bool)

def algo : Algorithm := if previous then conf.prevAlgo else conf.algorithm

def chunk : ℤ := if previous then conf.prevChunkSectors else conf.chunkSectors

def disks : ℤ := if previous then conf.previousRaidDisks else conf.raidDisks

end Conf

def raid5ComputeSector (conf : Conf) (rSector : ℤ) (previous : Bool) : Option (ℤ × Place) :=
  let sectorsPerChunk := conf.chunk previous
  let raidDisks := conf.disks previous
  let dataDisks := raidDisks - conf.level.maxDegraded
  let chunkOffset := rSector % sectorsPerChunk
  let chunkNumber := rSector / sectorsPerChunk
  let ddIdx := chunkNumber % dataDisks
  let stripe := chunkNumber / dataDisks
  match place conf.level (conf.algo previous) raidDisks dataDisks stripe ddIdx with
  | none => none
  | some pl => some (stripe * sectorsPerChunk + chunkOffset, pl)

structure StripeHead where
  sector : ℤ
  disks : ℤ
  pdIdx : ℤ
  qdIdx : ℤ

/-- The switch of `compute_blocknr`: which data chunk of the stripe is on the disk `i`. -/
def chunkOf (level : Level) (algorithm : Algorithm) (raidDisks dataDisks pdIdx i : ℤ) : Option ℤ :=
  match level with
  | .raid4 => some i
  | .raid5 =>
    match algorithm with
    | .leftAsymmetric | .rightAsymmetric => some (if pdIdx < i then i - 1 else i)
    | .leftSymmetric | .rightSymmetric => some ((if i < pdIdx then i + raidDisks else i) - (pdIdx + 1))
    | .parity0 => some (i - 1)
    | .parityN => some i
    | _ => none
  | .raid6 =>
    match algorithm with
    | .leftAsymmetric | .rightAsymmetric | .rotatingZeroRestart | .rotatingNRestart =>
      some (if pdIdx = raidDisks - 1 then i - 1 else if pdIdx < i then i - 2 else i)
    | .leftSymmetric | .rightSymmetric =>
      some (if pdIdx = raidDisks - 1 then i - 1
        else (if i < pdIdx then i + raidDisks else i) - (pdIdx + 2))
    | .parity0 => some (i - 2)
    | .parityN => some i
    | .rotatingNContinue =>
      some (if pdIdx = 0 then i - 1 else (if i < pdIdx then i + raidDisks else i) - (pdIdx + 1))
    | .leftAsymmetric6 | .rightAsymmetric6 => some (if pdIdx < i then i - 1 else i)
    | .leftSymmetric6 | .rightSymmetric6 =>
      some ((if i < pdIdx then i + (dataDisks + 1) else i) - (pdIdx + 1))
    | .parity06 => some (i - 1)

inductive Blocknr where
  | sector (rSector : ℤ)
  | parity
  | mapNotCorrect
  | bug
  deriving DecidableEq

def computeBlocknr (conf : Conf) (sh : StripeHead) (i : ℤ) (previous : Bool) : Blocknr :=
  let raidDisks := sh.disks
  let dataDisks := raidDisks - conf.level.maxDegraded
  let sectorsPerChunk := conf.chunk previous
  let chunkOffset := sh.sector % sectorsPerChunk
  let stripe := sh.sector / sectorsPerChunk
  if i = sh.pdIdx then .parity
  else if conf.level = .raid6 ∧ i = sh.qdIdx then .parity
  else
    match chunkOf conf.level (conf.algo previous) raidDisks dataDisks sh.pdIdx i with
    | none => .bug
    | some j =>
      let chunkNumber := stripe * dataDisks + j
      let rSector := chunkNumber * sectorsPerChunk + chunkOffset
      match raid5ComputeSector conf rSector previous with
      | none => .bug
      | some (check, pl) =>
        if check ≠ sh.sector ∨ pl.ddIdx ≠ i ∨ pl.pdIdx ≠ sh.pdIdx ∨ pl.qdIdx ≠ sh.qdIdx then
          .mapNotCorrect
        else .sector rSector

section Stripes

variable {level : Level} {algorithm : Algorithm} {raidDisks dataDisks stripe ddIdx : ℤ}

def ValidLayout (level : Level) (algorithm : Algorithm) (raidDisks : ℤ) : Prop :=
  1 ≤ raidDisks - level.maxDegraded ∧ (level = .raid5 → algorithmValidRaid5 algorithm = true)

theorem wrap {x r : ℤ} (h0 : 0 ≤ x) (h : x < 2 * r) : x % r = if x < r then x else x - r := by
  split_ifs with hlt
  · exact emod_eq_of_lt h0 hlt
  · rw [← emod_eq_of_lt (show 0 ≤ x - r by omega) (show x - r < r by omega), sub_emod_right]

theorem emod_bounds {r : ℤ} (x : ℤ) (h : 0 < r) : 0 ≤ x % r ∧ x % r < r :=
  ⟨emod_nonneg x h.ne', emod_lt_of_pos x h⟩

/-- The disks of one stripe: all different, and the data chunk is found again from its disk. -/
structure Placed (level : Level) (algorithm : Algorithm) (raidDisks dataDisks ddIdx : ℤ) (pl : Place) :
    Prop where
  dd : 0 ≤ pl.ddIdx ∧ pl.ddIdx < raidDisks
  pd : 0 ≤ pl.pdIdx ∧ pl.pdIdx < raidDisks
  dd_ne_pd : pl.ddIdx ≠ pl.pdIdx
  qd : level = .raid6 →
    0 ≤ pl.qdIdx ∧ pl.qdIdx < raidDisks ∧ pl.qdIdx ≠ pl.pdIdx ∧ pl.ddIdx ≠ pl.qdIdx
  back : chunkOf level algorithm raidDisks dataDisks pl.pdIdx pl.ddIdx = some ddIdx

theorem placed_raid5 (hd : 1 ≤ raidDisks - 1) (hvalid : algorithmValidRaid5 algorithm = true)
    (hdd : 0 ≤ ddIdx ∧ ddIdx < raidDisks - 1) :
    ∃ pl, place .raid5 algorithm raidDisks (raidDisks - 1) stripe ddIdx = some pl ∧
      Placed .raid5 algorithm raidDisks (raidDisks - 1) ddIdx pl := by
  have hmod := emod_bounds stripe (show 0 < raidDisks by omega)
  cases algorithm with
  | leftAsymmetric | rightAsymmetric =>
    refine ⟨_, rfl, ?_⟩
    constructor <;> simp only [skipParity, chunkOf, Option.some.injEq, reduceCtorEq, false_implies] <;>
      (try split_ifs) <;> omega
  | leftSymmetric | rightSymmetric =>
    refine ⟨_, rfl, ?_⟩
    constructor <;> simp only [chunkOf, Option.some.injEq, reduceCtorEq, false_implies] <;>
      (try rw [wrap (by omega) (by omega)]) <;> (try split_ifs) <;> omega
  | parity0 | parityN =>
    refine ⟨_, rfl, ?_⟩
    constructor <;> simp only [chunkOf, Option.some.injEq, reduceCtorEq, false_implies] <;> omega
  | _ => cases hvalid

theorem placed_raid6 (hd : 1 ≤ raidDisks - 2) (hdd : 0 ≤ ddIdx ∧ ddIdx < raidDisks - 2) :
    ∃ pl, place .raid6 algorithm raidDisks (raidDisks - 2) stripe ddIdx = some pl ∧
      Placed .raid6 algorithm raidDisks (raidDisks - 2) ddIdx pl := by
  have hall := emod_bounds stripe (show 0 < raidDisks by omega)
  have hnext := emod_bounds (stripe + 1) (show 0 < raidDisks by omega)
  have hlast := emod_bounds stripe (show 0 < raidDisks - 1 by omega)
  -- only the phase of the rotation matters from here on
  cases algorithm with
  | leftAsymmetric | rightAsymmetric | rotatingZeroRestart | rotatingNRestart =>
    refine ⟨_, rfl, ?_⟩
    unfold skipParities
    split_ifs <;> constructor <;> simp only [chunkOf, Option.some.injEq, true_implies] <;>
      (try split_ifs) <;> omega
  | leftSymmetric | rightSymmetric | rotatingNContinue =>
    refine ⟨_, rfl, ?_⟩
    constructor <;> simp only [chunkOf, Option.some.injEq, true_implies] <;>
      (try simp (disch := omega) only [wrap]) <;> (try split_ifs) <;> omega
  | leftAsymmetric6 | rightAsymmetric6 =>
    refine ⟨_, rfl, ?_⟩
    constructor <;> simp only [skipParity, chunkOf, Option.some.injEq, true_implies] <;>
      (try split_ifs) <;> omega
  | leftSymmetric6 | rightSymmetric6 =>
    refine ⟨_, rfl, ?_⟩
    constructor <;> simp only [chunkOf, Option.some.injEq, true_implies] <;>
      (try simp (disch := omega) only [wrap]) <;> (try split_ifs) <;> omega
  | parity0 | parityN | parity06 =>
    refine ⟨_, rfl, ?_⟩
    constructor <;> simp only [chunkOf, Option.some.injEq, true_implies] <;> omega

theorem placed (stripe : ℤ) (hvalid : ValidLayout level algorithm raidDisks)
    (hdd : 0 ≤ ddIdx ∧ ddIdx < raidDisks - level.maxDegraded) :
    ∃ pl, place level algorithm raidDisks (raidDisks - level.maxDegraded) stripe ddIdx = some pl ∧
      Placed level algorithm raidDisks (raidDisks - level.maxDegraded) ddIdx pl := by
  obtain ⟨hd, hlayout⟩ := hvalid
  cases level with
  | raid4 =>
    simp only [Level.maxDegraded] at *
    refine ⟨_, rfl, ?_⟩
    constructor <;> simp only [chunkOf, reduceCtorEq, false_implies] <;> omega
  | raid5 => exact placed_raid5 hd (hlayout rfl) hdd
  | raid6 => exact placed_raid6 hd hdd

theorem parity_eq {ddIdx' : ℤ} {pl pl' : Place}
    (h : place level algorithm raidDisks dataDisks stripe ddIdx = some pl)
    (h' : place level algorithm raidDisks dataDisks stripe ddIdx' = some pl') :
    pl.pdIdx = pl'.pdIdx := by
  cases level <;> cases algorithm <;> cases h <;> cases h' <;> first
    | rfl
    | (unfold skipParities; split_ifs <;> rfl)

end Stripes

section Chunks

variable {r c d : ℤ}

theorem sector_eq (r c d : ℤ) : (r / c / d * d + r / c % d) * c + r % c = r := by
  rw [ediv_mul_add_emod, ediv_mul_add_emod]

theorem stripe_sector_div (hc : 0 < c) (s : ℤ) : (s * c + r % c) / c = s := by
  rw [Int.add_comm, add_mul_ediv_right _ _ hc.ne',
    ediv_eq_zero_of_lt (emod_nonneg r hc.ne') (emod_lt_of_pos r hc), Int.zero_add]

theorem stripe_sector_mod (s : ℤ) : (s * c + r % c) % c = r % c := by
  rw [Int.add_comm, add_mul_emod_self_right, emod_emod]

end Chunks

namespace Conf

/-- The geometry in use has a layout of its level, a data disk and a chunk size. -/
def Valid (conf : Conf) (previous : Bool) : Prop :=
  ValidLayout conf.level (conf.algo previous) (conf.disks previous) ∧ 0 < conf.chunk previous

end Conf

section Mapping

variable {conf : Conf} {previous : Bool} {r : ℤ}

/-- The stripe that the sector is in, as `raid5_compute_sector` sets it. -/
def stripeOf (conf : Conf) (previous : Bool) (sector : ℤ) (pl : Place) : StripeHead :=
  ⟨sector, conf.disks previous, pl.pdIdx, pl.qdIdx⟩

variable (hvalid : conf.Valid previous)
include hvalid

theorem raid5ComputeSector_spec (r : ℤ) : ∃ pl, raid5ComputeSector conf r previous =
        some (r / conf.chunk previous / (conf.disks previous - conf.level.maxDegraded) *
          conf.chunk previous + r % conf.chunk previous, pl) ∧
      place conf.level (conf.algo previous) (conf.disks previous)
        (conf.disks previous - conf.level.maxDegraded)
        (r / conf.chunk previous / (conf.disks previous - conf.level.maxDegraded))
        (r / conf.chunk previous % (conf.disks previous - conf.level.maxDegraded)) = some pl ∧
      Placed conf.level (conf.algo previous) (conf.disks previous)
        (conf.disks previous - conf.level.maxDegraded)
        (r / conf.chunk previous % (conf.disks previous - conf.level.maxDegraded)) pl := by
  have hd : 0 < conf.disks previous - conf.level.maxDegraded := by
    have := hvalid.1.1
    omega
  obtain ⟨pl, hpl, hplaced⟩ := placed
    (r / conf.chunk previous / (conf.disks previous - conf.level.maxDegraded)) hvalid.1
    ⟨emod_nonneg (r / conf.chunk previous) hd.ne', emod_lt_of_pos (r / conf.chunk previous) hd⟩
  refine ⟨pl, ?_, hpl, hplaced⟩
  simp only [raid5ComputeSector, hpl]

theorem computeBlocknr_eq {sector : ℤ} {pl : Place}
    (h : raid5ComputeSector conf r previous = some (sector, pl)) :
    computeBlocknr conf (stripeOf conf previous sector pl) pl.ddIdx previous = .sector r := by
  obtain ⟨pl', hr, -, hplaced⟩ := raid5ComputeSector_spec hvalid r
  cases hr.symm.trans h
  have hq : ¬ (conf.level = .raid6 ∧ pl.ddIdx = pl.qdIdx) := fun hq => (hplaced.qd hq.1).2.2.2 hq.2
  simp only [computeBlocknr, stripeOf, if_neg hplaced.dd_ne_pd, if_neg hq, hplaced.back,
    stripe_sector_div hvalid.2, stripe_sector_mod, sector_eq, h]
  simp

theorem raid5ComputeSector_inj {r' sector : ℤ} {pl pl' : Place}
    (h : raid5ComputeSector conf r previous = some (sector, pl))
    (h' : raid5ComputeSector conf r' previous = some (sector, pl')) (hdd : pl.ddIdx = pl'.ddIdx) :
    r = r' := by
  obtain ⟨q, hr, hq, hback⟩ := raid5ComputeSector_spec hvalid r
  obtain ⟨q', hr', hq', hback'⟩ := raid5ComputeSector_spec hvalid r'
  obtain ⟨hs, rfl⟩ := Prod.mk.inj (Option.some.inj (hr.symm.trans h))
  obtain ⟨hs', rfl⟩ := Prod.mk.inj (Option.some.inj (hr'.symm.trans h'))
  have hstripe := congrArg (· / conf.chunk previous) (hs.trans hs'.symm)
  have hoffset := congrArg (· % conf.chunk previous) (hs.trans hs'.symm)
  simp only [stripe_sector_div hvalid.2, stripe_sector_mod] at hstripe hoffset
  -- the same stripe has the same parity disk, so the same disk has the same data chunk
  have hchunk := hback.back
  rw [hdd, parity_eq hq (hstripe ▸ hq'), hback'.back] at hchunk
  rw [← sector_eq r (conf.chunk previous) (conf.disks previous - conf.level.maxDegraded),
    ← sector_eq r' (conf.chunk previous) (conf.disks previous - conf.level.maxDegraded), hstripe, hoffset,
    Option.some.inj hchunk]

omit hvalid

/-- The address mapping is one to one and `compute_blocknr` is its inverse. -/
theorem mapping_bijective (conf : Conf) (previous : Bool) (hvalid : conf.Valid previous) :
    (∀ r, ∃ sector pl, raid5ComputeSector conf r previous = some (sector, pl) ∧
      (0 ≤ pl.ddIdx ∧ pl.ddIdx < conf.disks previous) ∧
      (0 ≤ pl.pdIdx ∧ pl.pdIdx < conf.disks previous) ∧ pl.ddIdx ≠ pl.pdIdx ∧
      (conf.level = .raid6 → 0 ≤ pl.qdIdx ∧ pl.qdIdx < conf.disks previous ∧
        pl.qdIdx ≠ pl.pdIdx ∧ pl.ddIdx ≠ pl.qdIdx) ∧
      computeBlocknr conf (stripeOf conf previous sector pl) pl.ddIdx previous = .sector r) ∧
    ∀ r r' sector pl pl', raid5ComputeSector conf r previous = some (sector, pl) →
      raid5ComputeSector conf r' previous = some (sector, pl') → pl.ddIdx = pl'.ddIdx → r = r' := by
  constructor
  · intro r
    obtain ⟨pl, hr, -, hplaced⟩ := raid5ComputeSector_spec hvalid r
    exact ⟨_, pl, hr, hplaced.dd, hplaced.pd, hplaced.dd_ne_pd, hplaced.qd, computeBlocknr_eq hvalid hr⟩
  · intro r r' sector pl pl' h h' hdd
    exact raid5ComputeSector_inj hvalid h h' hdd

def fiveDisks : Conf := ⟨.raid6, .rotatingNContinue, 128, 5, .leftSymmetric, 64, 4⟩

theorem mapping_bijective_fiveDisks : fiveDisks.Valid false ∧
    computeBlocknr fiveDisks (stripeOf fiveDisks false 140 ⟨1, 3, 2, true⟩) 1 false = .sector 652 := by
  have hvalid : fiveDisks.Valid false := ⟨⟨by decide, by decide⟩, by decide⟩
  refine ⟨hvalid, ?_⟩
  obtain ⟨sector, pl, hr, -, -, -, -, hback⟩ := (mapping_bijective fiveDisks false hvalid).1 652
  have hpl : raid5ComputeSector fiveDisks 652 false = some (140, ⟨1, 3, 2, true⟩) := by decide
  cases hpl.symm.trans hr
  exact hback

end Mapping

end VDLinux.Drivers.Raid5
