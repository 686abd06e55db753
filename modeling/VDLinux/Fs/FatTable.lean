import VDLinux.Fs.FatEntry

namespace VDLinux.Fs.Fat

open Function Nat

def Volume.addr (vol : Volume) (a : ℕ) : Ptr := ⟨vol.fatStart + a / vol.blocksize, a % vol.blocksize⟩

variable {vol : Volume} {disk : Disk} {fatent : FatEntry} {e : ℕ}

section Address

theorem Volume.blocksize_eq (vol : Volume) : ∃ k, vol.blocksize = 512 * k ∧ 0 < k := by
  refine ⟨2 ^ (vol.blocksizeBits - 9), ?_, Nat.two_pow_pos _⟩
  rw [Volume.blocksize, show 512 = 2 ^ 9 from rfl, ← Nat.pow_add, add_sub_of_le vol.bits_le]

theorem Volume.blocksize_ge (vol : Volume) : 512 ≤ vol.blocksize := by
  obtain ⟨k, hk, hpos⟩ := vol.blocksize_eq
  omega

theorem addr_inj {a b : ℕ} : vol.addr a = vol.addr b ↔ a = b := by
  refine ⟨fun h => ?_, congrArg _⟩
  simp only [Volume.addr, Ptr.mk.injEq] at h
  have hdiv : a / vol.blocksize = b / vol.blocksize := by omega
  rw [← div_add_mod a vol.blocksize, ← div_add_mod b vol.blocksize, hdiv, h.2]

theorem addr_add {a k : ℕ} (h : a % vol.blocksize + k < vol.blocksize) :
    (vol.addr a).add k = vol.addr (a + k) := by
  have hsum : a + k = vol.blocksize * (a / vol.blocksize) + (a % vol.blocksize + k) := by
    have := div_add_mod a vol.blocksize
    omega
  have hdiv : (a + k) / vol.blocksize = a / vol.blocksize := by
    rw [hsum, mul_add_div (by omega), div_eq_of_lt h, Nat.add_zero]
  have hmod : (a + k) % vol.blocksize = a % vol.blocksize + k := by
    rw [hsum, mul_add_mod, mod_eq_of_lt h]
  simp only [Volume.addr, Ptr.add, hdiv, hmod]

theorem addr_next {a : ℕ} (h : ¬ a % vol.blocksize + 1 < vol.blocksize) :
    vol.addr (a + 1) = ⟨vol.fatStart + a / vol.blocksize + 1, 0⟩ := by
  have hpos := vol.blocksize_ge
  have hlt := mod_lt a (show 0 < vol.blocksize by omega)
  have hsum : a + 1 = vol.blocksize * (a / vol.blocksize + 1) := by
    have := div_add_mod a vol.blocksize
    rw [Nat.mul_add, Nat.mul_one]
    omega
  rw [Volume.addr, hsum, Nat.mul_div_cancel_left _ (by omega), mul_mod_right]
  rfl

theorem read_write (disk : Disk) (p q : Ptr) (b : BitVec 8) :
    (disk.write p b).read q = if q = p then b else disk.read q := by
  simp only [Disk.read, Disk.write]
  congr 1
  cases p
  cases q
  simp only [Ptr.mk.injEq]

end Address

def FatBits.mask : FatBits → BitVec 32
  | .fat12 => 0xfff
  | .fat16 => 0xffff
  | .fat32 => 0x0fffffff

def Volume.mem (vol : Volume) (disk : Disk) : ℕ → BitVec 8 := fun a => disk.read (vol.addr a)

theorem mem_write (vol : Volume) (disk : Disk) (a : ℕ) (b : BitVec 8) :
    vol.mem (disk.write (vol.addr a) b) = update (vol.mem disk) a b := by
  funext a'
  simp only [Volume.mem, read_write, addr_inj, update_apply]

theorem byte_addr (vol : Volume) (disk : Disk) (a : ℕ) :
    disk.byte (vol.addr a) = (vol.mem disk a).setWidth 32 := rfl

/-- All bits of an entry, as they lie in the bytes of the FAT. -/
def rawOf : FatBits → (ℕ → BitVec 8) → ℕ → BitVec 32
  | .fat12, mem, e =>
    (if e % 2 = 1 then ((mem (e + e / 2)).setWidth 32 >>> 4) ||| ((mem (e + e / 2 + 1)).setWidth 32 <<< 4)
      else ((mem (e + e / 2 + 1)).setWidth 32 <<< 8) ||| (mem (e + e / 2)).setWidth 32) &&& 0x0fff
  | .fat16, mem, e => (mem (2 * e)).setWidth 32 ||| ((mem (2 * e + 1)).setWidth 32 <<< 8)
  | .fat32, mem, e => (mem (4 * e)).setWidth 32 ||| ((mem (4 * e + 1)).setWidth 32 <<< 8) |||
      ((mem (4 * e + 2)).setWidth 32 <<< 16) ||| ((mem (4 * e + 3)).setWidth 32 <<< 24)

def rawEntry (vol : Volume) (disk : Disk) (e : ℕ) : BitVec 32 := rawOf vol.fatBits (vol.mem disk) e

def entValue (bits : FatBits) (raw : BitVec 32) : BitVec 32 := entDecode bits (raw &&& bits.mask)

/-- What a write leaves in an entry: on FAT32 the four upper bits stay. -/
def entMerge (bits : FatBits) (old new : BitVec 32) : BitVec 32 :=
  let new := if new = fatEntEof then bits.eofFat else new
  match bits with
  | .fat12 | .fat16 => new
  | .fat32 => new ||| (old &&& ~~~ 0x0fffffff)

/-- The pointers and buffers of a `struct fat_entry` are those of the entry `e`. -/
structure Positioned (vol : Volume) (fatent : FatEntry) (e : ℕ) : Prop where
  entry_eq : fatent.entry = e
  nrBhs_ne : fatent.nrBhs ≠ 0
  bhs0_eq : fatent.bhs0 = vol.fatStart + entBytes vol.fatBits e / vol.blocksize
  ent0_eq : fatent.ent0 = vol.addr (entBytes vol.fatBits e)
  fat12 : vol.fatBits = .fat12 → fatent.ent1 = vol.addr (entBytes .fat12 e + 1) ∧
    if entBytes .fat12 e % vol.blocksize + 1 < vol.blocksize then fatent.nrBhs = 1
    else fatent.nrBhs = 2 ∧ fatent.bhs1 = fatent.bhs0 + 1

theorem aligned_lt {n d : ℕ} (hd : d = 2 ∨ d = 4) : d * n % vol.blocksize + d ≤ vol.blocksize := by
  obtain ⟨k, hk, hpos⟩ := vol.blocksize_eq
  have hlt := mod_lt (d * n) (show 0 < vol.blocksize by omega)
  have hdvd : d ∣ vol.blocksize := by
    rw [hk]
    cases hd with
    | inl h => exact h ▸ ⟨256 * k, by omega⟩
    | inr h => exact h ▸ ⟨128 * k, by omega⟩
  obtain ⟨q, hq⟩ := hdvd
  obtain ⟨r, hr⟩ := (dvd_mod_iff (hq ▸ Nat.dvd_mul_right d q)).mpr (Nat.dvd_mul_right d n)
  rw [hr] at hlt ⊢
  rw [hq] at hlt ⊢
  have hrq : r + 1 ≤ q := Nat.lt_of_mul_lt_mul_left hlt
  calc d * r + d = d * (r + 1) := (mul_succ d r).symm
    _ ≤ d * q := Nat.mul_le_mul_left d hrq

theorem Positioned.add_eq (h : Positioned vol fatent e) (h16 : vol.fatBits ≠ .fat12) {k : ℕ}
    (hk : k < (if vol.fatBits = .fat16 then 2 else 4)) :
    fatent.ent0.add k = vol.addr (entBytes vol.fatBits e + k) := by
  rw [h.ent0_eq]
  refine addr_add ?_
  cases hb : vol.fatBits with
  | fat12 => exact absurd hb h16
  | fat16 =>
    rw [hb, if_pos rfl] at hk
    have : 2 * e % vol.blocksize + 2 ≤ vol.blocksize := aligned_lt (.inl rfl)
    rw [entBytes]
    omega
  | fat32 =>
    rw [hb, if_neg (by decide)] at hk
    have : 4 * e % vol.blocksize + 4 ≤ vol.blocksize := aligned_lt (.inr rfl)
    rw [entBytes]
    omega

theorem entGet_eq (h : Positioned vol fatent e) :
    entGet vol disk fatent = entValue vol.fatBits (rawEntry vol disk e) := by
  have hadd := fun k h16 => h.add_eq (k := k) h16
  have hentry := h.entry_eq
  have hent0 := h.ent0_eq
  have hent1 := h.fat12
  simp only [entGet, entValue, rawEntry]
  cases hb : vol.fatBits with
  | fat12 =>
    simp only [hb] at hent0 hent1 ⊢
    rw [hentry, hent0, (hent1 trivial).1, FatBits.mask, rawOf]
    simp only [byte_addr, entBytes, BitVec.and_assoc, BitVec.and_self]
  | fat16 =>
    simp only [hb] at hadd hent0 ⊢
    rw [hadd 1 (by decide) (by decide), hent0, FatBits.mask, rawOf]
    simp only [byte_addr, entBytes]
    congr 1
    refine BitVec.eq_of_getLsbD_eq fun i hi => ?_
    interval_cases i <;> simp
  | fat32 =>
    simp only [hb] at hadd hent0 ⊢
    rw [hadd 1 (by decide) (by decide), hadd 2 (by decide) (by decide), hadd 3 (by decide) (by decide), hent0,
      FatBits.mask, rawOf]
    simp only [byte_addr, entBytes]

section Fat12

variable {mem : ℕ → BitVec 8} {v : BitVec 32}

theorem rawOf_fat12_odd (hodd : e % 2 = 1) (hv : ∀ i, 12 ≤ i → v.getLsbD i = false) (e' : ℕ) :
    rawOf .fat12 (update (update mem (e + e / 2)
        (lowByte (v <<< 4) ||| (mem (e + e / 2) &&& 0x0f))) (e + e / 2 + 1) (lowByte (v >>> 4))) e' =
      if e' = e then v else rawOf .fat12 mem e' := by
  by_cases heq : e' = e
  · subst heq
    simp (disch := omega) only [rawOf, if_pos hodd, if_true, update_self, update_of_ne]
    refine BitVec.eq_of_getLsbD_eq fun i hi => ?_
    have hvi := hv i
    interval_cases i <;> simp_all [lowByte]
  rw [if_neg heq]
  by_cases hprev : e' + 1 = e
  · -- the even entry before it shares its second byte
    have heven : ¬ e' % 2 = 1 := by omega
    have hshare : e' + e' / 2 + 1 = e + e / 2 := by omega
    simp (disch := omega) only [rawOf, if_neg heven, hshare, update_self, update_of_ne]
    refine BitVec.eq_of_getLsbD_eq fun i hi => ?_
    interval_cases i <;> simp [lowByte]
  · simp (disch := omega) only [rawOf, update_of_ne]

theorem rawOf_fat12_even (heven : ¬ e % 2 = 1) (hv : ∀ i, 12 ≤ i → v.getLsbD i = false) (e' : ℕ) :
    rawOf .fat12 (update (update mem (e + e / 2) (lowByte (v &&& 0xff))) (e + e / 2 + 1)
        ((mem (e + e / 2 + 1) &&& 0xf0) ||| lowByte (v >>> 8))) e' =
      if e' = e then v else rawOf .fat12 mem e' := by
  by_cases heq : e' = e
  · subst heq
    simp (disch := omega) only [rawOf, if_neg heven, if_true, update_self, update_of_ne]
    refine BitVec.eq_of_getLsbD_eq fun i hi => ?_
    have hvi := hv i
    interval_cases i <;> simp_all [lowByte]
  rw [if_neg heq]
  by_cases hnext : e' = e + 1
  · -- the odd entry behind it shares its first byte
    have hodd : e' % 2 = 1 := by omega
    have hshare : e' + e' / 2 = e + e / 2 + 1 := by omega
    have hv' : ∀ i, 4 ≤ i → i < 8 → (lowByte (v >>> 8)).getLsbD i = false := by
      intro i hlo hhi
      have := hv (8 + i) (by omega)
      simp [lowByte, this]
    simp (disch := omega) only [rawOf, if_pos hodd, hshare, update_self, update_of_ne]
    refine BitVec.eq_of_getLsbD_eq fun i hi => ?_
    interval_cases i <;> simp_all
  · simp (disch := omega) only [rawOf, update_of_ne]

end Fat12

section Wide

variable {mem : ℕ → BitVec 8} {v : BitVec 32}

theorem rawOf_fat16 (hv : ∀ i, 16 ≤ i → v.getLsbD i = false) (e e' : ℕ) :
    rawOf .fat16 (update (update mem (2 * e) (lowByte v)) (2 * e + 1) (lowByte (v >>> 8))) e' =
      if e' = e then v else rawOf .fat16 mem e' := by
  by_cases heq : e' = e
  · subst heq
    simp (disch := omega) only [rawOf, if_true, update_self, update_of_ne]
    refine BitVec.eq_of_getLsbD_eq fun i hi => ?_
    have hvi := hv i
    interval_cases i <;> simp_all [lowByte]
  · rw [if_neg heq]
    simp (disch := omega) only [rawOf, update_of_ne]

theorem rawOf_fat32 (e e' : ℕ) :
    rawOf .fat32 (update (update (update (update mem (4 * e) (lowByte v))
        (4 * e + 1) (lowByte (v >>> 8))) (4 * e + 2) (lowByte (v >>> 16))) (4 * e + 3) (lowByte (v >>> 24))) e' =
      if e' = e then v else rawOf .fat32 mem e' := by
  by_cases heq : e' = e
  · subst heq
    simp (disch := omega) only [rawOf, if_true, update_self, update_of_ne]
    refine BitVec.eq_of_getLsbD_eq fun i hi => ?_
    interval_cases i <;> simp [lowByte]
  · rw [if_neg heq]
    simp (disch := omega) only [rawOf, update_of_ne]

end Wide

theorem encoded_bits {bits : FatBits} {new : BitVec 32}
    (hnew : new = fatEntEof ∨ new &&& bits.mask = new) :
    (if new = fatEntEof then bits.eofFat else new) &&& bits.mask =
      if new = fatEntEof then bits.eofFat else new := by
  split
  · cases bits <;> decide
  · exact hnew.resolve_left ‹_›

theorem getLsbD_of_mask {v mask : BitVec 32} {w : ℕ} (h : v &&& mask = v)
    (hm : ∀ i < 32, w ≤ i → mask.getLsbD i = false) (i : ℕ) (hi : w ≤ i) : v.getLsbD i = false := by
  by_cases hlt : i < 32
  · rw [← h, BitVec.getLsbD_and, hm i hlt hi, Bool.and_false]
  · exact BitVec.getLsbD_of_ge v i (by omega)

theorem rawEntry_entPut (h : Positioned vol fatent e) {new : BitVec 32}
    (hnew : new = fatEntEof ∨ new &&& vol.fatBits.mask = new) (e' : ℕ) :
    rawEntry vol (entPut vol disk fatent new) e' =
      if e' = e then entMerge vol.fatBits (rawEntry vol disk e) new else rawEntry vol disk e' := by
  have hadd := fun k h16 => h.add_eq (k := k) h16
  have hentry := h.entry_eq
  have hent0 := h.ent0_eq
  have hent1 := h.fat12
  have hbits := encoded_bits hnew
  simp only [rawEntry, entPut, entMerge]
  generalize (if new = fatEntEof then vol.fatBits.eofFat else new) = v at hbits
  cases hb : vol.fatBits with
  | fat12 =>
    simp only [hb] at hent0 hent1 hbits ⊢
    have hv : ∀ i, 12 ≤ i → v.getLsbD i = false := getLsbD_of_mask hbits (by decide)
    rw [hentry, hent0, (hent1 trivial).1]
    by_cases hodd : e % 2 = 1
    · rw [if_pos hodd, mem_write, mem_write]
      exact rawOf_fat12_odd hodd hv e'
    · have hread : (disk.write (vol.addr (entBytes .fat12 e)) (lowByte (v &&& 0xff))).read
          (vol.addr (entBytes .fat12 e + 1)) = vol.mem disk (entBytes .fat12 e + 1) := by
        rw [read_write, if_neg]
        · rfl
        · rw [addr_inj]
          omega
      rw [if_neg hodd, hread, mem_write, mem_write]
      exact rawOf_fat12_even hodd hv e'
  | fat16 =>
    simp only [hb] at hadd hent0 hbits ⊢
    have hv : ∀ i, 16 ≤ i → v.getLsbD i = false := getLsbD_of_mask hbits (by decide)
    rw [hadd 1 (by decide) (by decide), hent0, mem_write, mem_write]
    exact rawOf_fat16 hv e e'
  | fat32 =>
    simp only [hb] at hadd hent0 ⊢
    rw [hadd 1 (by decide) (by decide), hadd 2 (by decide) (by decide), hadd 3 (by decide) (by decide), hent0]
    simp only [mem_write, byte_addr]
    exact rawOf_fat32 e e'

section Position

theorem entSetPtr_positioned (hentry : fatent.entry = e) (hnr : fatent.nrBhs ≠ 0)
    (hbhs : fatent.bhs0 = vol.fatStart + entBytes vol.fatBits e / vol.blocksize)
    (h12 : vol.fatBits = .fat12 → if entBytes .fat12 e % vol.blocksize + 1 < vol.blocksize
      then fatent.nrBhs = 1 else fatent.nrBhs = 2 ∧ fatent.bhs1 = fatent.bhs0 + 1) :
    Positioned vol (entSetPtr vol fatent (entBytes vol.fatBits e % vol.blocksize)) e := by
  have hent0 : (⟨fatent.bhs0, entBytes vol.fatBits e % vol.blocksize⟩ : Ptr) =
      vol.addr (entBytes vol.fatBits e) := by
    rw [hbhs]
    rfl
  simp only [entSetPtr]
  cases hb : vol.fatBits with
  | fat12 =>
    rw [hb] at hbhs hent0
    have hkeep := h12 hb
    by_cases hin : entBytes .fat12 e % vol.blocksize + 1 < vol.blocksize
    · rw [if_pos hin] at hkeep
      rw [if_pos hkeep]
      refine ⟨hentry, hnr, by rw [hb]; exact hbhs, by rw [hb]; exact hent0, fun _ => ⟨?_, ?_⟩⟩
      · rw [← addr_add hin, ← hent0]
        rfl
      · rw [if_pos hin]
        exact hkeep
    · rw [if_neg hin] at hkeep
      rw [if_neg (by omega)]
      refine ⟨hentry, hnr, by rw [hb]; exact hbhs, by rw [hb]; exact hent0, fun _ => ⟨?_, ?_⟩⟩
      · rw [addr_next hin, hkeep.2, hbhs]
      · rw [if_neg hin]
        exact hkeep
  | _ => exact ⟨hentry, hnr, hbhs, by rw [← hent0, hb], fun h => nomatch hb.symm.trans h⟩

theorem entBread_positioned (vol : Volume) (fatent : FatEntry) (hentry : fatent.entry = e) :
    Positioned vol (entBread vol fatent (entBytes vol.fatBits e % vol.blocksize)
      (vol.fatStart + entBytes vol.fatBits e / vol.blocksize)) e := by
  simp only [entBread]
  split
  · rename_i hb
    split_ifs with hin
    · rw [hb] at hin
      exact entSetPtr_positioned hentry Nat.one_ne_zero rfl fun _ => by rw [if_pos hin]
    · rw [hb] at hin
      exact entSetPtr_positioned hentry (succ_ne_zero 1) rfl fun _ => by
        rw [if_neg hin]
        exact ⟨rfl, rfl⟩
  all_goals
    rename_i hb
    exact entSetPtr_positioned hentry Nat.one_ne_zero rfl fun h => nomatch hb.symm.trans h

theorem fatEntReadBlock_positioned (vol : Volume) (fatent : FatEntry) :
    Positioned vol (fatEntReadBlock vol fatent) fatent.entry :=
  entBread_positioned vol _ rfl

theorem entBytes_fat12_succ (e : ℕ) : entBytes .fat12 (e + 1) = entBytes .fat12 e + (1 + e % 2) := by
  simp only [entBytes]
  omega

theorem Positioned.step_wide (h : Positioned vol fatent e) {d : ℕ} (h12 : vol.fatBits ≠ .fat12)
    (hbytes : entBytes vol.fatBits (e + 1) = entBytes vol.fatBits e + d)
    (hroom : fatent.ent0.offset < vol.blocksize - d) :
    Positioned vol { fatent with entry := fatent.entry + 1, ent0 := fatent.ent0.add d } (e + 1) := by
  have hoffset : fatent.ent0.offset = entBytes vol.fatBits e % vol.blocksize := by
    rw [h.ent0_eq]
    rfl
  have haddr : (vol.addr (entBytes vol.fatBits e)).add d = vol.addr (entBytes vol.fatBits e + d) :=
    addr_add (by omega)
  refine ⟨by rw [h.entry_eq], h.nrBhs_ne, ?_, ?_, fun hno => absurd hno h12⟩
  · rw [hbytes, h.bhs0_eq]
    exact congrArg Ptr.block haddr
  · rw [hbytes, h.ent0_eq, haddr]

theorem entNext_spec (h : Positioned vol fatent e) : (entNext vol fatent).1.entry = e + 1 ∧
      ((entNext vol fatent).2 = true → Positioned vol (entNext vol fatent).1 (e + 1)) := by
  have hentry := h.entry_eq
  have hsize := vol.blocksize_ge
  simp only [entNext]
  cases hb : vol.fatBits with
  | fat12 =>
    have hent1 := (h.fat12 hb).1
    have hbufs := (h.fat12 hb).2
    have hbhs := h.bhs0_eq
    rw [hb] at hbhs
    dsimp only
    generalize ha : entBytes .fat12 e = a at hent1 hbufs hbhs
    have hnext : entBytes .fat12 (e + 1) = a + (1 + e % 2) := by rw [entBytes_fat12_succ, ha]
    by_cases hin : a % vol.blocksize + 1 < vol.blocksize
    · rw [if_pos hin] at hbufs
      have hoffset : (fatent.ent1.add (1 + fatent.entry % 2)).offset =
          a % vol.blocksize + 1 + (1 + e % 2) := by
        rw [hent1, ← addr_add hin, hentry]
        rfl
      split_ifs with hroom
      · have hfirst : vol.addr (a + (1 + e % 2)) = (vol.addr a).add (1 + e % 2) := (addr_add (by omega)).symm
        have hsecond : vol.addr (a + (1 + e % 2) + 1) = (vol.addr a).add (1 + e % 2 + 1) :=
          (addr_add (show a % vol.blocksize + (1 + e % 2 + 1) < vol.blocksize by omega)).symm
        have hmod : (a + (1 + e % 2)) % vol.blocksize = a % vol.blocksize + (1 + e % 2) :=
          congrArg Ptr.offset hfirst
        have hent1' : fatent.ent1 = (vol.addr a).add 1 := hent1.trans (addr_add hin).symm
        refine ⟨by rw [hentry], fun _ => ⟨by rw [hentry], by rw [hbufs]; decide, ?_, ?_, fun _ => ⟨?_, ?_⟩⟩⟩
        · rw [hb, hnext, hbhs]
          exact (congrArg Ptr.block hfirst).symm
        · rw [hb, hnext, hfirst, hent1', hentry]
          simp only [Ptr.add, Ptr.mk.injEq, true_and]
          omega
        · rw [hnext, hsecond, hent1', hentry]
          simp only [Ptr.add, Ptr.mk.injEq, true_and]
          omega
        · rw [hnext, if_pos (by omega)]
          exact hbufs
      · exact ⟨by rw [hentry], nofun⟩
    · -- the entry lies across the end of its block
      rw [if_neg hin] at hbufs
      rw [if_neg (by omega)]
      have hent1' := hent1.trans (addr_next hin)
      have hzero : (a + 1) % vol.blocksize = 0 := congrArg Ptr.offset (addr_next hin)
      have hfirst : vol.addr (a + (1 + e % 2)) = fatent.ent1.add (e % 2) := by
        rw [hent1, addr_add (by omega), Nat.add_assoc]
      have hsecond : vol.addr (a + (1 + e % 2) + 1) = fatent.ent1.add (1 + e % 2) := by
        rw [hent1, addr_add (by omega)]
        exact congrArg _ (by omega)
      have hmod : (a + (1 + e % 2)) % vol.blocksize = e % 2 := by
        have hoffset : (a + (1 + e % 2)) % vol.blocksize = (fatent.ent1.add (e % 2)).offset :=
          congrArg Ptr.offset hfirst
        rw [hent1'] at hoffset
        simpa [Ptr.add] using hoffset
      refine ⟨by rw [hentry], fun _ => ⟨by rw [hentry], Nat.one_ne_zero, ?_, ?_, fun _ => ⟨?_, ?_⟩⟩⟩
      · rw [hb, hnext, hbufs.2, hbhs]
        have := congrArg Ptr.block hfirst
        rw [hent1'] at this
        exact this.symm
      · rw [hb, hnext, hfirst, hentry]
        simp only [Ptr.add, Ptr.mk.injEq, true_and]
        omega
      · rw [hnext, hsecond, hentry]
      · rw [hnext, if_pos (by omega)]
  | _ =>
    dsimp only
    split_ifs with hroom
    · exact ⟨by rw [hentry], fun _ => h.step_wide (by rw [hb]; decide) (by rw [hb]; rfl) hroom⟩
    · exact ⟨by rw [hentry], nofun⟩

theorem fatEntRead_ok (vol : Volume) (disk : Disk) (fatent : FatEntry) (hlo : fatStartEnt ≤ e)
    (hhi : e < vol.maxCluster) :
    ∃ fatent', fatEntRead vol disk fatent e = .ok (entValue vol.fatBits (rawEntry vol disk e), fatent') ∧
      Positioned vol fatent' e := by
  have hrange : ¬ (e < fatStartEnt ∨ vol.maxCluster ≤ e) := by omega
  have hpos : Positioned vol ((fatEntUpdatePtr vol { fatent with entry := e }
      (entBytes vol.fatBits e % vol.blocksize) (vol.fatStart + entBytes vol.fatBits e / vol.blocksize)).getD
        (entBread vol { fatent with entry := e, nrBhs := 0 } (entBytes vol.fatBits e % vol.blocksize)
          (vol.fatStart + entBytes vol.fatBits e / vol.blocksize))) e := by
    have hbread : Positioned vol (entBread vol { fatent with entry := e, nrBhs := 0 }
        (entBytes vol.fatBits e % vol.blocksize) (vol.fatStart + entBytes vol.fatBits e / vol.blocksize)) e :=
      entBread_positioned vol _ rfl
    simp only [fatEntUpdatePtr]
    by_cases hnone : fatent.nrBhs = 0 ∨ fatent.bhs0 ≠ vol.fatStart + entBytes vol.fatBits e / vol.blocksize
    · rw [if_pos hnone]
      exact hbread
    rw [if_neg hnone]
    rw [not_or, not_not] at hnone
    split
    · rename_i hb
      split_ifs with hin htwo hbhs
      · rw [hb] at hin
        exact entSetPtr_positioned rfl Nat.one_ne_zero hnone.2 fun _ => by rw [if_pos hin]
      · exact hbread
      · exact hbread
      · rw [hb] at hin
        rw [not_not] at htwo hbhs
        refine entSetPtr_positioned rfl hnone.1 hnone.2 fun _ => ?_
        rw [if_neg hin]
        exact ⟨htwo, by rw [hbhs, hnone.2]⟩
    all_goals
      rename_i hb
      exact entSetPtr_positioned rfl hnone.1 hnone.2 fun h => nomatch hb.symm.trans h
  refine ⟨_, ?_, hpos⟩
  simp only [fatEntRead, if_neg hrange, entBlocknr, entGet_eq hpos]

end Position

end VDLinux.Fs.Fat
