import Mathlib

namespace VDLinux.Drivers.Raid10

open List Nat

structure Mddev where
  raidDisks : ℕ
  newLayout : ℕ
  newChunkSectors : ℕ
  devSectors : ℕ

structure Conf where
  raidDisks : ℕ
  nearCopies : ℕ
  farCopies : ℕ
  copies : ℕ
  farOffset : Bool
  chunkMask : ℕ
  chunkShift : ℕ
  devSectors : ℕ
  stride : ℕ

/-- A chunk has at least the 8 sectors of a page and is a power of two; `ffz` of its complement is its
binary logarithm. -/
def setupConf (mddev : Mddev) : Option Conf :=
  let chunk := mddev.newChunkSectors
  if chunk < 8 ∨ 2 ^ chunk.log2 ≠ chunk then none
  else
    let nc := mddev.newLayout &&& 255
    let fc := (mddev.newLayout >>> 8) &&& 255
    let fo := mddev.newLayout &&& (1 <<< 16)
    if nc * fc < 2 ∨ mddev.raidDisks < nc * fc ∨ mddev.newLayout >>> 17 ≠ 0 then none
    else
      let size := (mddev.devSectors >>> chunk.log2) / fc * mddev.raidDisks / nc
      let stride := (size * (nc * fc) + (mddev.raidDisks - 1)) / mddev.raidDisks
      some
        { raidDisks := mddev.raidDisks
          nearCopies := nc
          farCopies := fc
          copies := nc * fc
          farOffset := fo ≠ 0
          chunkMask := chunk - 1
          chunkShift := chunk.log2
          devSectors := stride <<< chunk.log2
          stride := (if fo ≠ 0 then 1 else stride / fc) <<< chunk.log2 }

/-- `raid10_size(mddev, 0, 0)`, the size that `run` gives the array. -/
def raid10Size (conf : Conf) : ℕ :=
  ((conf.devSectors >>> conf.chunkShift) / conf.farCopies * conf.raidDisks / conf.nearCopies) <<<
    conf.chunkShift

structure Slot where
  devnum : ℕ
  addr : ℕ
  deriving DecidableEq

variable (conf : Conf)

/-- The inner loop, with `m` far copies to go. -/
def farSlots : ℕ → ℕ → ℕ → List Slot
  | 0, _, _ => []
  | m + 1, d, s =>
    let d := d + conf.nearCopies
    let d := if conf.raidDisks ≤ d then d - conf.raidDisks else d
    let s := s + conf.stride
    ⟨d, s⟩ :: farSlots m d s

/-- The outer loop, with `m` near copies to go. -/
def nearSlots : ℕ → ℕ → ℕ → List Slot
  | 0, _, _ => []
  | m + 1, dev, sector =>
    ⟨dev, sector⟩ :: farSlots conf (conf.farCopies - 1) dev sector ++
      if conf.raidDisks ≤ dev + 1 then nearSlots m 0 (sector + (conf.chunkMask + 1))
      else nearSlots m (dev + 1) sector

def raid10FindPhys (sector : ℕ) : List Slot :=
  let chunk := (sector >>> conf.chunkShift) * conf.nearCopies
  let dev := chunk % conf.raidDisks
  let stripe := chunk / conf.raidDisks
  let stripe := if conf.farOffset then stripe * conf.farCopies else stripe
  nearSlots conf conf.nearCopies dev ((sector &&& conf.chunkMask) + stripe <<< conf.chunkShift)

/-- The loop that goes back to the first far copy, at most `fuel` rounds. -/
def backToFirst : ℕ → ℕ → ℕ → Option (ℕ × ℕ)
  | 0, _, _ => none
  | fuel + 1, sector, dev =>
    if conf.stride ≤ sector then
      backToFirst fuel (sector - conf.stride)
        (if dev < conf.nearCopies then dev + (conf.raidDisks - conf.nearCopies)
         else dev - conf.nearCopies)
    else some (sector, dev)

def virtOf (chunk dev offset : ℕ) : ℕ :=
  ((chunk * conf.raidDisks + dev) / conf.nearCopies) <<< conf.chunkShift + offset

def raid10FindVirt (fuel sector dev : ℕ) : Option ℕ :=
  let offset := sector &&& conf.chunkMask
  if conf.farOffset then
    let chunk := sector >>> conf.chunkShift
    let fc := chunk % conf.farCopies
    let d : ℤ := dev - fc * conf.nearCopies
    let d := if d < 0 then d + conf.raidDisks else d
    some (virtOf conf (chunk / conf.farCopies) d.toNat offset)
  else do
    let (sector, dev) ← backToFirst conf fuel sector dev
    some (virtOf conf (sector >>> conf.chunkShift) dev offset)

structure Geometry (conf : Conf) : Prop where
  near_pos : 0 < conf.nearCopies
  far_pos : 0 < conf.farCopies
  copies_le : conf.nearCopies * conf.farCopies ≤ conf.raidDisks
  mask_eq : conf.chunkMask + 1 = 2 ^ conf.chunkShift
  copies_eq : conf.copies = conf.nearCopies * conf.farCopies
  stride_eq : conf.stride = (if conf.farOffset then 1
    else (conf.devSectors >>> conf.chunkShift) / conf.farCopies) * 2 ^ conf.chunkShift

variable {conf}

theorem geometry_of_setupConf {mddev : Mddev} (h : setupConf mddev = some conf) : Geometry conf := by
  unfold setupConf at h
  simp only at h
  split at h
  · cases h
  rename_i hchunk
  split at h
  · cases h
  rename_i hlayout
  obtain ⟨htwo, hle, -⟩ := by simpa only [not_or] using hlayout
  cases h
  have hpos : 0 < (mddev.newLayout &&& 255) * (mddev.newLayout >>> 8 &&& 255) := by omega
  refine ⟨Nat.pos_of_mul_pos_right hpos, Nat.pos_of_mul_pos_left hpos, Nat.not_lt.mp hle, ?_, rfl, ?_⟩
  · simp only
    omega
  · simp only [shiftLeft_eq, shiftRight_eq_div_pow]
    simp

variable (h : Geometry conf)
include h

theorem Geometry.near_le : conf.nearCopies ≤ conf.raidDisks :=
  Nat.le_trans (Nat.le_mul_of_pos_right _ h.far_pos) h.copies_le

theorem Geometry.disks_pos : 0 < conf.raidDisks := Nat.lt_of_lt_of_le h.near_pos h.near_le

theorem Geometry.place_lt {k j : ℕ} (hk : k < conf.nearCopies) (hj : j < conf.farCopies) :
    k + j * conf.nearCopies < conf.raidDisks := by
  have hmul := Nat.mul_le_mul_left conf.nearCopies hj
  have hcopies := h.copies_le
  rw [mul_succ, Nat.mul_comm] at hmul
  omega

theorem farSlots_eq (m : ℕ) {d : ℕ} (hd : d < conf.raidDisks) (s : ℕ) :
    farSlots conf m d s = (List.range m).map fun j =>
      ⟨(d + (j + 1) * conf.nearCopies) % conf.raidDisks, s + (j + 1) * conf.stride⟩ := by
  induction m generalizing d s with
  | zero => rfl
  | succ m ih =>
    have hle := h.near_le
    have hstep : (if conf.raidDisks ≤ d + conf.nearCopies then d + conf.nearCopies - conf.raidDisks
        else d + conf.nearCopies) = (d + conf.nearCopies) % conf.raidDisks := by
      split
      · rw [mod_eq_sub_mod (by assumption), mod_eq_of_lt (by omega)]
      · rw [mod_eq_of_lt (by omega)]
    rw [farSlots, hstep, ih (mod_lt _ h.disks_pos), range_succ_eq_map, map_cons,
      map_map]
    refine congrArg₂ List.cons (by simp) (map_congr_left fun j _ => ?_)
    simp only [Function.comp, mod_add_mod, Slot.mk.injEq, succ_eq_add_one]
    constructor
    · congr 1
      ring
    · ring

theorem farRow_eq {d : ℕ} (hd : d < conf.raidDisks) (s : ℕ) :
    ⟨d, s⟩ :: farSlots conf (conf.farCopies - 1) d s = (List.range conf.farCopies).map fun j =>
      (⟨(d + j * conf.nearCopies) % conf.raidDisks, s + j * conf.stride⟩ : Slot) := by
  obtain ⟨m, hm⟩ := exists_eq_succ_of_ne_zero h.far_pos.ne'
  rw [farSlots_eq h _ hd, hm, range_succ_eq_map, map_cons, map_map]
  refine congrArg₂ List.cons ?_ rfl
  simp [mod_eq_of_lt hd]

theorem nearSlots_eq {m : ℕ} (hm : m ≤ conf.raidDisks) {dev : ℕ}
    (hdev : dev < conf.raidDisks) (sector : ℕ) :
    nearSlots conf m dev sector = (List.range m).flatMap fun k =>
      (List.range conf.farCopies).map fun j =>
        ⟨(dev + k + j * conf.nearCopies) % conf.raidDisks,
          sector + (if conf.raidDisks ≤ dev + k then 2 ^ conf.chunkShift else 0) + j * conf.stride⟩ := by
  induction m generalizing dev sector with
  | zero => rfl
  | succ m ih =>
    have hnowrap : ¬ conf.raidDisks ≤ dev := Nat.not_le.mpr hdev
    rw [nearSlots, farRow_eq h hdev, range_succ_eq_map, flatMap_cons, flatMap_map]
    congr 1
    · simp [hnowrap]
    · split
      · rw [ih (by omega) h.disks_pos]
        refine flatMap_congr fun k hk => map_congr_left fun j _ => ?_
        have hk' : ¬ conf.raidDisks ≤ 0 + k := by
          have := mem_range.mp hk
          omega
        have hk'' : conf.raidDisks ≤ dev + k.succ := by omega
        rw [if_neg hk', if_pos hk'', h.mask_eq, Slot.mk.injEq]
        constructor
        · rw [show dev + k.succ + j * conf.nearCopies =
            0 + k + j * conf.nearCopies + conf.raidDisks by omega, add_mod_right]
        · omega
      · rw [ih (by omega) (by omega)]
        refine flatMap_congr fun k hk => map_congr_left fun j _ => ?_
        rw [show dev + k.succ = dev + 1 + k by omega]

omit h

def slot (conf : Conf) (sector k j : ℕ) : Slot :=
  let chunk := sector / 2 ^ conf.chunkShift * conf.nearCopies
  let stripe := if conf.farOffset then chunk / conf.raidDisks * conf.farCopies else chunk / conf.raidDisks
  ⟨(chunk + k + j * conf.nearCopies) % conf.raidDisks,
    sector % 2 ^ conf.chunkShift + stripe * 2 ^ conf.chunkShift +
      (if conf.raidDisks ≤ chunk % conf.raidDisks + k then 2 ^ conf.chunkShift else 0) +
      j * conf.stride⟩

theorem wrapBack {x y n : ℕ} (hx : x < n) (hy : y ≤ n) :
    (if (((x + y) % n : ℕ) : ℤ) - y < 0 then (((x + y) % n : ℕ) : ℤ) - y + n
      else (((x + y) % n : ℕ) : ℤ) - y).toNat = x := by
  by_cases hwrap : x + y < n
  · rw [mod_eq_of_lt hwrap, if_neg (by omega)]
    omega
  · rw [mod_eq_sub_mod (Nat.not_lt.mp hwrap), mod_eq_of_lt (by omega), if_pos (by omega)]
    omega

theorem chunk_split (sector c s : ℕ) :
    (sector % 2 ^ s + c * 2 ^ s) % 2 ^ s = sector % 2 ^ s ∧ (sector % 2 ^ s + c * 2 ^ s) / 2 ^ s = c := by
  have hpow := Nat.two_pow_pos s
  rw [add_mul_mod_self_right, mod_mod, add_mul_div_right _ _ hpow,
    div_eq_of_lt (mod_lt _ hpow), Nat.zero_add]
  exact ⟨rfl, rfl⟩

variable (h : Geometry conf)
include h

theorem and_mask (x : ℕ) : x &&& conf.chunkMask = x % 2 ^ conf.chunkShift := by
  rw [← and_two_pow_sub_one_eq_mod, ← h.mask_eq, Nat.add_sub_cancel]

theorem raid10FindPhys_eq (sector : ℕ) : raid10FindPhys conf sector =
    (List.range conf.nearCopies).flatMap fun k =>
      (List.range conf.farCopies).map fun j => slot conf sector k j := by
  simp only [raid10FindPhys, and_mask h, shiftRight_eq_div_pow, shiftLeft_eq]
  rw [nearSlots_eq h h.near_le (mod_lt _ h.disks_pos)]
  refine flatMap_congr fun k _ => map_congr_left fun j _ => ?_
  rw [slot, Slot.mk.injEq]
  refine ⟨?_, rfl⟩
  rw [Nat.add_assoc, mod_add_mod, Nat.add_assoc]

theorem mem_raid10FindPhys {sector : ℕ} {a : Slot} : a ∈ raid10FindPhys conf sector ↔
      ∃ k < conf.nearCopies, ∃ j < conf.farCopies, a = slot conf sector k j := by
  simp only [raid10FindPhys_eq h, mem_flatMap, mem_range, mem_map, eq_comm]

theorem slot_devnum_inj {sector k j k' j' : ℕ} (hk : k < conf.nearCopies)
    (hj : j < conf.farCopies) (hk' : k' < conf.nearCopies) (hj' : j' < conf.farCopies)
    (heq : (slot conf sector k j).devnum = (slot conf sector k' j').devnum) : k = k' ∧ j = j' := by
  simp only [slot, Nat.add_assoc] at heq
  have hsum : k + j * conf.nearCopies = k' + j' * conf.nearCopies := by
    have hmod : (k + j * conf.nearCopies) % conf.raidDisks = (k' + j' * conf.nearCopies) % conf.raidDisks :=
      Nat.ModEq.add_left_cancel' _ heq
    rwa [mod_eq_of_lt (h.place_lt hk hj), mod_eq_of_lt (h.place_lt hk' hj')] at hmod
  have hdiv := congrArg (· / conf.nearCopies) hsum
  have hrem := congrArg (· % conf.nearCopies) hsum
  simp only [add_mul_div_right _ _ h.near_pos, div_eq_of_lt hk, div_eq_of_lt hk',
    Nat.zero_add] at hdiv
  simp only [add_mul_mod_self_right, mod_eq_of_lt hk, mod_eq_of_lt hk'] at hrem
  exact ⟨hrem, hdiv⟩

theorem devnums_nodup (sector : ℕ) : ((raid10FindPhys conf sector).map Slot.devnum).Nodup := by
  rw [raid10FindPhys_eq h, map_flatMap, nodup_flatMap]
  refine ⟨fun k hk => ?_, ?_⟩
  · rw [map_map]
    refine List.Nodup.map_on (fun j hj j' hj' heq => ?_) nodup_range
    exact (slot_devnum_inj h (mem_range.mp hk) (mem_range.mp hj) (mem_range.mp hk)
      (mem_range.mp hj') heq).2
  · refine nodup_range.imp_of_mem fun {k k'} hk hk' hne => ?_
    intro d hd hd'
    simp only [map_map, mem_map, Function.comp] at hd hd'
    obtain ⟨j, hj, rfl⟩ := hd
    obtain ⟨j', hj', heq⟩ := hd'
    exact hne (slot_devnum_inj h (mem_range.mp hk) (mem_range.mp hj) (mem_range.mp hk')
      (mem_range.mp hj') heq.symm).1

theorem stepBack (p : ℕ) : (if (p + conf.nearCopies) % conf.raidDisks < conf.nearCopies
      then (p + conf.nearCopies) % conf.raidDisks + (conf.raidDisks - conf.nearCopies)
      else (p + conf.nearCopies) % conf.raidDisks - conf.nearCopies) = p % conf.raidDisks := by
  have hle := h.near_le
  have hback := wrapBack (mod_lt p h.disks_pos) hle
  rw [mod_add_mod] at hback
  split_ifs at hback ⊢ <;> omega

theorem backToFirst_eq {a : ℕ} (ha : a < conf.stride) (p : ℕ) {j fuel : ℕ} (hfuel : j < fuel) :
    backToFirst conf fuel (a + j * conf.stride) ((p + j * conf.nearCopies) % conf.raidDisks) =
      some (a, p % conf.raidDisks) := by
  induction j generalizing fuel with
  | zero =>
    obtain ⟨fuel, rfl⟩ := exists_eq_succ_of_ne_zero (Nat.ne_of_gt hfuel)
    rw [backToFirst, if_neg (by omega), Nat.zero_mul, Nat.zero_mul, Nat.add_zero, Nat.add_zero]
  | succ j ih =>
    obtain ⟨fuel, rfl⟩ := exists_eq_succ_of_ne_zero (show fuel ≠ 0 by omega)
    have hsector : a + (j + 1) * conf.stride = a + j * conf.stride + conf.stride := by ring
    have hpos : p + (j + 1) * conf.nearCopies = p + j * conf.nearCopies + conf.nearCopies := by ring
    rw [backToFirst, hsector, hpos, if_pos (Nat.le_add_left _ _), Nat.add_sub_cancel, stepBack h,
      ih (by omega)]

theorem virtOf_eq {sector k : ℕ} (hk : k < conf.nearCopies) :
    virtOf conf ((sector / 2 ^ conf.chunkShift * conf.nearCopies + k) / conf.raidDisks)
      ((sector / 2 ^ conf.chunkShift * conf.nearCopies + k) % conf.raidDisks)
      (sector % 2 ^ conf.chunkShift) = sector := by
  rw [virtOf, div_add_mod', Nat.add_comm _ k, add_mul_div_right _ _ h.near_pos,
    div_eq_of_lt hk, Nat.zero_add, shiftLeft_eq, div_add_mod']

theorem row_eq {c k : ℕ} (hk : k < conf.nearCopies) :
    (c + k) / conf.raidDisks = c / conf.raidDisks +
      if conf.raidDisks ≤ c % conf.raidDisks + k then 1 else 0 := by
  have hle := h.near_le
  rw [Nat.add_div h.disks_pos, div_eq_of_lt (Nat.lt_of_lt_of_le hk hle),
    mod_eq_of_lt (Nat.lt_of_lt_of_le hk hle)]
  rfl

theorem chunks_mul_le {sector k : ℕ} (hs : sector < raid10Size conf) (hk : k < conf.nearCopies) :
    sector / 2 ^ conf.chunkShift * conf.nearCopies + k <
      (conf.devSectors >>> conf.chunkShift) / conf.farCopies * conf.raidDisks := by
  have hpow := Nat.two_pow_pos conf.chunkShift
  rw [raid10Size, shiftLeft_eq, ← Nat.div_lt_iff_lt_mul hpow, Nat.lt_div_iff_mul_lt h.near_pos] at hs
  omega

theorem raid10FindVirt_far (hlayout : conf.farOffset = false) {sector k j fuel : ℕ}
    (hs : sector < raid10Size conf) (hk : k < conf.nearCopies) (hfuel : j < fuel) :
    raid10FindVirt conf fuel (slot conf sector k j).addr (slot conf sector k j).devnum = some sector := by
  have hstride : conf.stride =
      (conf.devSectors >>> conf.chunkShift) / conf.farCopies * 2 ^ conf.chunkShift := by
    rw [h.stride_eq, hlayout]
    rfl
  let p := sector / 2 ^ conf.chunkShift * conf.nearCopies + k
  -- the address of the first far copy
  let a := sector % 2 ^ conf.chunkShift + p / conf.raidDisks * 2 ^ conf.chunkShift
  have haddr : (slot conf sector k j).addr = a + j * conf.stride := by
    simp only [slot, hlayout, Bool.false_eq_true, if_false, a, p, row_eq h hk]
    split <;> ring
  have ha : a < conf.stride := by
    have hrow : p / conf.raidDisks + 1 ≤ (conf.devSectors >>> conf.chunkShift) / conf.farCopies :=
      (Nat.div_lt_iff_lt_mul h.disks_pos).mpr (chunks_mul_le h hs hk)
    have hmul := Nat.mul_le_mul_right (2 ^ conf.chunkShift) hrow
    rw [Nat.add_mul] at hmul
    omega
  have hoff : (a + j * conf.stride) % 2 ^ conf.chunkShift = sector % 2 ^ conf.chunkShift := by
    rw [hstride, ← Nat.mul_assoc, add_mul_mod_self_right]
    exact (chunk_split sector _ _).1
  have hback := backToFirst_eq h ha p hfuel
  have hdev : (slot conf sector k j).devnum = (p + j * conf.nearCopies) % conf.raidDisks := rfl
  have hdiv : a / 2 ^ conf.chunkShift = p / conf.raidDisks := (chunk_split sector _ _).2
  rw [raid10FindVirt, hlayout, haddr, hdev]
  simp only [Bool.false_eq_true, if_false, hback, Option.bind_eq_bind, Option.bind_some, and_mask h,
    hoff, shiftRight_eq_div_pow, hdiv]
  rw [virtOf_eq h hk]

theorem raid10FindVirt_offset (hlayout : conf.farOffset = true) {sector k j : ℕ}
    (fuel : ℕ) (hk : k < conf.nearCopies) (hj : j < conf.farCopies)
    (hrow : conf.raidDisks ≤ sector / 2 ^ conf.chunkShift * conf.nearCopies % conf.raidDisks + k →
      conf.farCopies = 1) :
    raid10FindVirt conf fuel (slot conf sector k j).addr (slot conf sector k j).devnum = some sector := by
  have hstride : conf.stride = 2 ^ conf.chunkShift := by
    rw [h.stride_eq, hlayout, if_pos rfl, Nat.one_mul]
  let p := sector / 2 ^ conf.chunkShift * conf.nearCopies + k
  have haddr : (slot conf sector k j).addr = sector % 2 ^ conf.chunkShift +
      (p / conf.raidDisks * conf.farCopies + j) * 2 ^ conf.chunkShift := by
    simp only [slot, hlayout, if_true, p, row_eq h hk, hstride]
    split
    · rw [hrow (by assumption)]
      ring
    · ring
  obtain ⟨hoff, hchunk⟩ := chunk_split sector (p / conf.raidDisks * conf.farCopies + j) conf.chunkShift
  rw [← haddr] at hoff hchunk
  have hfc : (p / conf.raidDisks * conf.farCopies + j) % conf.farCopies = j := by
    rw [Nat.add_comm, add_mul_mod_self_right, mod_eq_of_lt hj]
  have hstripe : (p / conf.raidDisks * conf.farCopies + j) / conf.farCopies = p / conf.raidDisks := by
    rw [Nat.add_comm, add_mul_div_right _ _ h.far_pos, div_eq_of_lt hj, Nat.zero_add]
  have hdev : (slot conf sector k j).devnum = (p % conf.raidDisks + j * conf.nearCopies) % conf.raidDisks := by
    rw [mod_add_mod]
    rfl
  have hjn := h.place_lt h.near_pos hj
  rw [Nat.zero_add] at hjn
  have hx : p % conf.raidDisks < conf.raidDisks := mod_lt _ h.disks_pos
  rw [raid10FindVirt, hlayout]
  simp only [if_true, and_mask h, hoff, shiftRight_eq_div_pow, hchunk, hfc, hstripe, hdev,
    Option.some.injEq]
  have hback := wrapBack hx hjn.le
  rw [cast_mul] at hback
  rw [hback, virtOf_eq h hk]

omit h

/-- The mapping is sound: a sector has all its copies on different devices, shares no place with another
sector, and is found back from each copy. -/
def Sound (conf : Conf) : Prop :=
  ∀ sector < raid10Size conf,
    (raid10FindPhys conf sector).length = conf.copies ∧
    ((raid10FindPhys conf sector).map Slot.devnum).Nodup ∧
    (∀ other < raid10Size conf, other ≠ sector →
      ∀ a ∈ raid10FindPhys conf sector, a ∉ raid10FindPhys conf other) ∧
    ∀ a ∈ raid10FindPhys conf sector, ∀ fuel ≥ conf.farCopies,
      raid10FindVirt conf fuel a.addr a.devnum = some sector

theorem sound_of_found (h : Geometry conf)
    (hfound : ∀ sector < raid10Size conf, ∀ a ∈ raid10FindPhys conf sector, ∀ fuel ≥ conf.farCopies,
      raid10FindVirt conf fuel a.addr a.devnum = some sector) : Sound conf := by
  intro sector hs
  refine ⟨?_, devnums_nodup h sector, ?_, hfound sector hs⟩
  · rw [raid10FindPhys_eq h, h.copies_eq]
    simp [length_flatMap]
  · intro other ho hne a ha ha'
    have h1 := hfound sector hs a ha _ le_rfl
    have h2 := hfound other ho a ha' _ le_rfl
    exact hne (Option.some.inj (h2.symm.trans h1))

/-- Chunks of an array that the near copies divide evenly, or of one with a single row, stay in a row. -/
theorem inRow (h : Geometry conf) {sector k : ℕ} (hs : sector < raid10Size conf) (hk : k < conf.nearCopies)
    (hcond : conf.nearCopies ∣ conf.raidDisks ∨
      (conf.devSectors >>> conf.chunkShift) / conf.farCopies ≤ 1) :
    ¬ conf.raidDisks ≤ sector / 2 ^ conf.chunkShift * conf.nearCopies % conf.raidDisks + k := by
  obtain hdvd | hone := hcond
  · obtain ⟨t, ht⟩ := hdvd
    rw [ht, Nat.mul_comm _ conf.nearCopies, mul_mod_mul_left]
    have hlt : sector / 2 ^ conf.chunkShift % t < t := by
      refine mod_lt _ (Nat.pos_of_ne_zero ?_)
      rintro rfl
      exact absurd h.disks_pos (by simp [ht])
    have hmul := Nat.mul_le_mul_left conf.nearCopies hlt
    rw [mul_succ] at hmul
    omega
  · have hlt := chunks_mul_le h hs hk
    have hmul := Nat.mul_le_mul_right conf.raidDisks hone
    rw [mod_eq_of_lt (by omega)]
    omega

/-- The first chunk that runs over the end of the row: its copy on disk 0 is found as the chunk before. -/
theorem not_sound_of_overrun (h : Geometry conf) (hlayout : conf.farOffset = true)
    (hfar : conf.farCopies ≠ 1) (hdvd : ¬ conf.nearCopies ∣ conf.raidDisks)
    (hrows : 1 < (conf.devSectors >>> conf.chunkShift) / conf.farCopies) : ¬ Sound conf := by
  intro hsound
  have hpow := Nat.two_pow_pos conf.chunkShift
  have hn := h.near_pos
  have hle := h.near_le
  have hfar2 : 1 < conf.farCopies := by
    have := h.far_pos
    omega
  have hsplit := div_add_mod' conf.raidDisks conf.nearCopies
  let c := conf.raidDisks / conf.nearCopies
  have hs : c * 2 ^ conf.chunkShift < raid10Size conf := by
    rw [raid10Size, shiftLeft_eq]
    refine Nat.mul_lt_mul_of_pos_right ?_ hpow
    refine (Nat.le_div_iff_mul_le hn).mpr ?_
    have hmul := Nat.mul_le_mul_right conf.raidDisks hrows
    rw [succ_mul]
    simp only [c]
    omega
  have hchunk : c * 2 ^ conf.chunkShift / 2 ^ conf.chunkShift * conf.nearCopies =
      conf.raidDisks / conf.nearCopies * conf.nearCopies := by
    rw [Nat.mul_div_cancel _ hpow]
  have hslot : slot conf (c * 2 ^ conf.chunkShift) (conf.raidDisks % conf.nearCopies) 0 =
      ⟨0, 2 ^ conf.chunkShift⟩ := by
    have hlt : conf.raidDisks / conf.nearCopies * conf.nearCopies < conf.raidDisks := by omega
    simp only [slot, hchunk, hsplit, mod_eq_of_lt hlt, div_eq_of_lt hlt, mul_mod_left]
    simp
  have hmem : (⟨0, 2 ^ conf.chunkShift⟩ : Slot) ∈ raid10FindPhys conf (c * 2 ^ conf.chunkShift) :=
    (mem_raid10FindPhys h).mpr ⟨_, mod_lt _ hn, 0, h.far_pos, hslot.symm⟩
  have hfound := (hsound _ hs).2.2.2 _ hmem _ le_rfl
  have hd : ((0 : ℕ) : ℤ) - ((1 : ℕ) : ℤ) * conf.nearCopies < 0 := by omega
  have hdev : (((0 : ℕ) : ℤ) - ((1 : ℕ) : ℤ) * conf.nearCopies + conf.raidDisks).toNat =
      conf.raidDisks - conf.nearCopies := by omega
  simp only [raid10FindVirt, hlayout, if_true, and_mask h, mod_self, shiftRight_eq_div_pow,
    Nat.div_self hpow, mod_eq_of_lt hfar2, if_pos hd, hdev, div_eq_of_lt hfar2, virtOf,
    Nat.zero_mul, Nat.zero_add, shiftLeft_eq, Nat.add_zero, Option.some.injEq] at hfound
  have hprev : (conf.raidDisks - conf.nearCopies) / conf.nearCopies = c :=
    eq_of_mul_eq_mul_right hpow hfound
  have hless : c * conf.nearCopies ≤ conf.raidDisks - conf.nearCopies := by
    rw [← hprev]
    exact div_mul_le_self _ _
  have hmod := mod_lt conf.raidDisks hn
  simp only [c] at hless
  omega

/-- Every accepted geometry maps soundly but one kind: offset copies, more than one of them, near copies
that run over the end of a row, and more than one row. -/
theorem raid10_sound_iff {mddev : Mddev} (h : setupConf mddev = some conf) :
    Sound conf ↔ conf.farOffset = false ∨ conf.farCopies = 1 ∨ conf.nearCopies ∣ conf.raidDisks ∨
      (conf.devSectors >>> conf.chunkShift) / conf.farCopies ≤ 1 := by
  have hg := geometry_of_setupConf h
  constructor
  · intro hsound
    by_contra hcond
    simp only [not_or, Bool.not_eq_false, Nat.not_le] at hcond
    exact not_sound_of_overrun hg hcond.1 hcond.2.1 hcond.2.2.1 hcond.2.2.2 hsound
  · intro hcond
    refine sound_of_found hg fun sector hs a ha fuel hfuel => ?_
    obtain ⟨k, hk, j, hj, rfl⟩ := (mem_raid10FindPhys hg).mp ha
    cases hlayout : conf.farOffset with
    | false => exact raid10FindVirt_far hg hlayout hs hk (Nat.lt_of_lt_of_le hj hfuel)
    | true =>
      refine raid10FindVirt_offset hg hlayout fuel hk hj fun hover => ?_
      obtain h0 | hone | hin := hcond
      · rw [hlayout] at h0
        cases h0
      · exact hone
      · exact absurd hover (inRow hg hs hk hin)

/-- Five disks, two near and two offset copies, chunks of 8 sectors: the second far copy of chunk 2 and
the second near copy of chunk 3 are the same sectors of disk 2. -/
theorem raid10_collides : ∃ conf, setupConf ⟨5, 0x10202, 8, 64⟩ = some conf ∧ ¬ Sound conf ∧
    16 < raid10Size conf ∧ 24 < raid10Size conf ∧
    ⟨2, 16⟩ ∈ raid10FindPhys conf 16 ∧ ⟨2, 16⟩ ∈ raid10FindPhys conf 24 := by
  have hplace : 16 < raid10Size ⟨5, 2, 2, 4, true, 7, 3, 64, 8⟩ ∧
      24 < raid10Size ⟨5, 2, 2, 4, true, 7, 3, 64, 8⟩ ∧
      ⟨2, 16⟩ ∈ raid10FindPhys ⟨5, 2, 2, 4, true, 7, 3, 64, 8⟩ 16 ∧
      ⟨2, 16⟩ ∈ raid10FindPhys ⟨5, 2, 2, 4, true, 7, 3, 64, 8⟩ 24 := by decide
  refine ⟨⟨5, 2, 2, 4, true, 7, 3, 64, 8⟩, by rfl, fun hsound => ?_, hplace⟩
  exact (hsound 16 hplace.1).2.2.1 24 hplace.2.1 (by decide) _ hplace.2.2.1 hplace.2.2.2

theorem raid10_sound_iff_fourDisks : ∃ conf, setupConf ⟨4, 0x10202, 8, 64⟩ = some conf ∧ Sound conf := by
  have h : setupConf ⟨4, 0x10202, 8, 64⟩ = some ⟨4, 2, 2, 4, true, 7, 3, 64, 8⟩ := by rfl
  exact ⟨_, h, (raid10_sound_iff h).mpr (by decide)⟩

end VDLinux.Drivers.Raid10
