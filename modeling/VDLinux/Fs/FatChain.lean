import VDLinux.Base.Threaded
import VDLinux.Fs.FatTable

namespace VDLinux.Fs.Fat

open Base.Threaded BitVec Finset Function List

variable {vol : Volume} {fat : SbInfo} {fatent : FatEntry} {bits : FatBits} {c e : ℕ} {l : List ℕ}

section Encoding

theorem entMerge_mask {old new : BitVec 32} (hnew : new = fatEntEof ∨ new &&& bits.mask = new) :
    entMerge bits old new &&& bits.mask = if new = fatEntEof then bits.eofFat else new := by
  have hbits := encoded_bits hnew
  simp only [entMerge]
  cases bits with
  | fat12 => exact hbits
  | fat16 => exact hbits
  | fat32 =>
    have hmask : (~~~ 0x0fffffff &&& FatBits.fat32.mask : BitVec 32) = 0 := by decide
    rw [show ∀ x y z : BitVec 32, (x ||| y) &&& z = (x &&& z) ||| (y &&& z) from
      fun x y z => eq_of_getLsbD_eq fun i _ => by simp [Bool.and_or_distrib_right], hbits,
      BitVec.and_assoc, hmask]
    simp

theorem entMerge_entMerge {old v new : BitVec 32} (hv : v = fatEntEof ∨ v &&& bits.mask = v) :
    entMerge bits (entMerge bits old v) new = entMerge bits old new := by
  have hbits := encoded_bits hv
  simp only [entMerge]
  generalize (if v = fatEntEof then bits.eofFat else v) = v at hbits
  cases bits with
  | fat12 => rfl
  | fat16 => rfl
  | fat32 =>
    have hupper : (v ||| (old &&& ~~~ 0x0fffffff)) &&& ~~~ 0x0fffffff = old &&& ~~~ 0x0fffffff := by
      rw [← hbits]
      refine eq_of_getLsbD_eq fun i hi => ?_
      simp only [FatBits.mask, getLsbD_and, getLsbD_or, getLsbD_not]
      cases (0x0fffffff : BitVec 32).getLsbD i <;> simp
    rw [hupper]

theorem entValue_entMerge_eof (old : BitVec 32) : entValue bits (entMerge bits old fatEntEof) = fatEntEof := by
  rw [entValue, entMerge_mask (.inl rfl), if_pos rfl]
  cases bits <;> decide

theorem entValue_entMerge_free (old : BitVec 32) :
    entValue bits (entMerge bits old fatEntFree) = fatEntFree := by
  rw [entValue, entMerge_mask (.inr (by cases bits <;> decide)), if_neg (by decide)]
  cases bits <;> decide

theorem Volume.cluster_lt (vol : Volume) (hc : c < vol.maxCluster) : c < vol.fatBits.mask.toNat := by
  have hmask : vol.fatBits.maxFat + fatStartEnt ≤ vol.fatBits.mask.toNat := by
    cases vol.fatBits <;> decide
  exact hc.trans_le (vol.max_le.trans hmask)

theorem FatBits.mask_toNat (bits : FatBits) : ∃ k, bits.mask.toNat = 2 ^ k - 1 := by
  cases bits with
  | fat12 => exact ⟨12, by decide⟩
  | fat16 => exact ⟨16, by decide⟩
  | fat32 => exact ⟨28, by decide⟩

theorem Volume.cluster_toNat (vol : Volume) (hc : c < vol.maxCluster) : (BitVec.ofNat 32 c).toNat = c := by
  have hlt := vol.cluster_lt hc
  exact Nat.mod_eq_of_lt (by omega)

theorem Volume.cluster_mask (vol : Volume) (hc : c < vol.maxCluster) :
    BitVec.ofNat 32 c &&& vol.fatBits.mask = BitVec.ofNat 32 c := by
  obtain ⟨k, hk⟩ := vol.fatBits.mask_toNat
  have hlt := vol.cluster_lt hc
  refine eq_of_toNat_eq ?_
  rw [toNat_and, hk, Nat.and_two_pow_sub_one_eq_mod, vol.cluster_toNat hc]
  exact Nat.mod_eq_of_lt (by omega)

theorem Volume.cluster_ne_eof (vol : Volume) (hc : c < vol.maxCluster) : BitVec.ofNat 32 c ≠ fatEntEof := by
  intro heq
  have hlt := vol.cluster_lt hc
  have hmask : vol.fatBits.mask.toNat ≤ fatEntEof.toNat := by cases vol.fatBits <;> decide
  have htoNat := congrArg BitVec.toNat heq
  rw [vol.cluster_toNat hc] at htoNat
  omega

theorem entValue_entMerge_cluster (hc : c < vol.maxCluster) (old : BitVec 32) :
    entValue vol.fatBits (entMerge vol.fatBits old (BitVec.ofNat 32 c)) =
      if c < vol.fatBits.badFat then BitVec.ofNat 32 c else fatEntEof := by
  have hbad : (BitVec.ofNat 32 vol.fatBits.badFat).toNat = vol.fatBits.badFat := by
    cases vol.fatBits <;> decide
  rw [entValue, entMerge_mask (.inr (vol.cluster_mask hc)), if_neg (vol.cluster_ne_eof hc), entDecode]
  simp only [le_def, hbad, vol.cluster_toNat hc]
  by_cases hlt : c < vol.fatBits.badFat
  · rw [if_neg (by omega), if_pos hlt]
  · rw [if_pos (by omega), if_neg hlt]

theorem rawEntry_mask (vol : Volume) (disk : Disk) (e : ℕ) (h32 : vol.fatBits ≠ .fat32) :
    rawEntry vol disk e &&& vol.fatBits.mask = rawEntry vol disk e := by
  rw [rawEntry]
  cases hb : vol.fatBits with
  | fat12 =>
    rw [rawOf, FatBits.mask]
    simp only [BitVec.and_assoc, BitVec.and_self]
  | fat16 =>
    rw [rawOf, FatBits.mask]
    refine eq_of_getLsbD_eq fun i hi => ?_
    interval_cases i <;> simp
  | fat32 => exact absurd hb h32

theorem entMerge_free_of_free (disk : Disk) (hfree : entValue vol.fatBits (rawEntry vol disk e) = fatEntFree) :
    entMerge vol.fatBits (rawEntry vol disk e) fatEntFree = rawEntry vol disk e := by
  have hzero : rawEntry vol disk e &&& vol.fatBits.mask = 0 := by
    rw [entValue, entDecode] at hfree
    split at hfree
    · exact absurd hfree (by decide)
    · exact hfree
  simp only [entMerge, if_neg (show fatEntFree ≠ fatEntEof by decide)]
  by_cases h32 : vol.fatBits = .fat32
  · rw [h32] at hzero ⊢
    refine eq_of_getLsbD_eq fun i hi => ?_
    have hbit : (rawEntry vol disk e).getLsbD i = true → (0x0fffffff : BitVec 32).getLsbD i = false := by
      intro hset
      have := congrArg (BitVec.getLsbD · i) hzero
      simpa [FatBits.mask, hset] using this
    simp only [fatEntFree, getLsbD_or, getLsbD_and, getLsbD_not, ofNat_eq_ofNat,
      getLsbD_zero, Bool.false_or]
    cases hraw : (rawEntry vol disk e).getLsbD i with
    | false => rfl
    | true => simpa [hi] using hbit hraw
  · have hraw : rawEntry vol disk e = 0 := (rawEntry_mask vol disk e h32).symm.trans hzero
    rw [hraw]
    cases hb : vol.fatBits with
    | fat12 => rfl
    | fat16 => rfl
    | fat32 => exact absurd hb h32

end Encoding

def fatValue (vol : Volume) (disk : Disk) (e : ℕ) : BitVec 32 := entValue vol.fatBits (rawEntry vol disk e)

def entTarget (bits : FatBits) (raw : BitVec 32) : Option ℕ :=
  if entValue bits raw = fatEntEof then none else some (entValue bits raw).toNat

theorem entTarget_eq_none {raw : BitVec 32} : entTarget bits raw = none ↔ entValue bits raw = fatEntEof := by
  rw [entTarget]
  split <;> simp_all

theorem entTarget_eq_some {raw : BitVec 32} {d : ℕ} :
    entTarget bits raw = some d ↔ entValue bits raw ≠ fatEntEof ∧ (entValue bits raw).toNat = d := by
  rw [entTarget]
  split <;> simp_all

def nextCluster (vol : Volume) (disk : Disk) (e : ℕ) : Option ℕ := entTarget vol.fatBits (rawEntry vol disk e)

structure ChainAt (vol : Volume) (disk : Disk) (c : ℕ) (l : List ℕ) : Prop where
  path : Path (nextCluster vol disk) c l
  range : ∀ e ∈ l, fatStartEnt ≤ e ∧ e < vol.maxCluster

theorem rawEntry_put (h : Positioned vol fatent e) {disk : Disk} {new : BitVec 32}
    (hnew : new = fatEntEof ∨ new &&& vol.fatBits.mask = new) :
    rawEntry vol (entPut vol disk fatent new) =
      update (rawEntry vol disk) e (entMerge vol.fatBits (rawEntry vol disk e) new) := by
  funext e'
  rw [rawEntry_entPut h hnew, update_apply]

section Free

@[simp]
theorem countUp_disk (fat : SbInfo) : fat.countUp.disk = fat.disk := by
  rw [SbInfo.countUp]
  split <;> rfl

theorem freeLoop_step (hc : fatStartEnt ≤ c ∧ c < vol.maxCluster) (hused : fatValue vol fat.disk c ≠ fatEntFree)
    (fatent : FatEntry) :
    ∃ fat' fatent', rawEntry vol fat'.disk =
        update (rawEntry vol fat.disk) c (entMerge vol.fatBits (rawEntry vol fat.disk c) fatEntFree) ∧
      ∀ fuel, freeLoop vol (fuel + 1) fat fatent c =
        if fatValue vol fat.disk c = fatEntEof then some (fat', .ok ())
        else freeLoop vol fuel fat' fatent' (fatValue vol fat.disk c).toNat := by
  obtain ⟨fatent', hread, hpos⟩ := fatEntRead_ok vol fat.disk fatent hc.1 hc.2
  refine ⟨{ fat with disk := entPut vol fat.disk fatent' fatEntFree }.countUp, fatent', ?_, fun fuel => ?_⟩
  · rw [countUp_disk]
    exact rawEntry_put hpos (.inr (by cases vol.fatBits <;> decide))
  · rw [freeLoop, hread]
    exact if_neg hused

theorem freeLoop_free (hc : fatStartEnt ≤ c ∧ c < vol.maxCluster) (hfree : fatValue vol fat.disk c = fatEntFree)
    (fatent : FatEntry) (fuel : ℕ) : freeLoop vol (fuel + 1) fat fatent c = some (fat, .error .eio) := by
  obtain ⟨fatent', hread, hpos⟩ := fatEntRead_ok vol fat.disk fatent hc.1 hc.2
  rw [freeLoop, hread]
  exact if_pos hfree

theorem freeLoop_outside (hc : ¬ (fatStartEnt ≤ c ∧ c < vol.maxCluster)) (fatent : FatEntry) (fuel : ℕ) :
    freeLoop vol (fuel + 1) fat fatent c = some (fat, .error .eio) := by
  rw [freeLoop, fatEntRead, if_pos (by omega)]

def usedEntries (vol : Volume) (disk : Disk) : Finset ℕ :=
  (Finset.range vol.maxCluster).filter fun e => fatValue vol disk e ≠ fatEntFree

/-- `fat_free_clusters` comes to an end on every content of the FAT: each round frees an entry that was
used. -/
theorem freeLoop_ends (fuel : ℕ) (hfuel : (usedEntries vol fat.disk).card < fuel) :
    ∃ r, ∀ k, fuel ≤ k → freeLoop vol k fat fatent c = some r := by
  induction fuel generalizing fat fatent c with
  | zero => exact absurd hfuel (Nat.not_lt_zero _)
  | succ fuel ih =>
    have hsucc : ∀ k, fuel + 1 ≤ k → ∃ j, k = j + 1 ∧ fuel ≤ j := fun k hk => ⟨k - 1, by omega, by omega⟩
    by_cases hc : fatStartEnt ≤ c ∧ c < vol.maxCluster
    · by_cases hfree : fatValue vol fat.disk c = fatEntFree
      · refine ⟨(fat, .error .eio), fun k hk => ?_⟩
        obtain ⟨j, rfl, -⟩ := hsucc k hk
        exact freeLoop_free hc hfree fatent j
      · obtain ⟨fat', fatent', htable, hstep⟩ := freeLoop_step hc hfree fatent
        have hlt : usedEntries vol fat'.disk ⊂ usedEntries vol fat.disk := by
          rw [ssubset_iff_of_subset]
          · refine ⟨c, Finset.mem_filter.mpr ⟨Finset.mem_range.mpr hc.2, hfree⟩, fun hmem => ?_⟩
            refine (Finset.mem_filter.mp hmem).2 ?_
            rw [fatValue, htable, update_self, entValue_entMerge_free]
          · intro e he
            obtain ⟨hrange, hused⟩ := Finset.mem_filter.mp he
            refine Finset.mem_filter.mpr ⟨hrange, fun hzero => hused ?_⟩
            have hne : e ≠ c := fun heq => hfree (heq ▸ hzero)
            rw [fatValue, htable, update_of_ne hne]
            exact hzero
        have hcard := card_lt_card hlt
        by_cases heof : fatValue vol fat.disk c = fatEntEof
        · refine ⟨(fat', .ok ()), fun k hk => ?_⟩
          obtain ⟨j, rfl, -⟩ := hsucc k hk
          rw [hstep, if_pos heof]
        · obtain ⟨r, hr⟩ := @ih fat' fatent' (fatValue vol fat.disk c).toNat (by omega)
          refine ⟨r, fun k hk => ?_⟩
          obtain ⟨j, rfl, hj⟩ := hsucc k hk
          rw [hstep, if_neg heof]
          exact hr j hj
    · refine ⟨(fat, .error .eio), fun k hk => ?_⟩
      obtain ⟨j, rfl, -⟩ := hsucc k hk
      exact freeLoop_outside hc fatent j

theorem fatFreeClusters_ends (vol : Volume) (fat : SbInfo) (c : ℕ) :
    ∃ r, ∀ fuel, vol.maxCluster < fuel → fatFreeClusters vol fuel fat c = some r := by
  refine freeLoop_ends (vol.maxCluster + 1) (Nat.lt_succ_of_le ?_)
  exact (card_filter_le _ _).trans (card_range _).le

theorem freeLoop_chain (hchain : ChainAt vol fat.disk c l) (fatent : FatEntry) {fuel : ℕ}
    (hfuel : l.length ≤ fuel) :
    ∃ fat', freeLoop vol fuel fat fatent c = some (fat', .ok ()) ∧ ∀ e, rawEntry vol fat'.disk e =
      if e ∈ l then entMerge vol.fatBits (rawEntry vol fat.disk e) fatEntFree else rawEntry vol fat.disk e := by
  induction l generalizing fat fatent c fuel with
  | nil => exact nomatch hchain.path
  | cons a l ih =>
    obtain ⟨hpath, hrange⟩ := hchain
    have hc : a = c := by cases hpath <;> rfl
    have hnodup := hpath.nodup
    obtain ⟨fuel, rfl⟩ : ∃ k, fuel = k + 1 := ⟨fuel - 1, by rw [length_cons] at hfuel; omega⟩
    have hused : fatValue vol fat.disk a ≠ fatEntFree := by
      intro hzero
      cases hpath with
      | last hend => exact absurd (hzero.symm.trans (entTarget_eq_none.mp hend)) (by decide)
      | @step _ d _ hnext hrest =>
        have hd : (fatValue vol fat.disk a).toNat = d := (entTarget_eq_some.mp hnext).2
        have hlo := (hrange d (List.mem_cons_of_mem _ hrest.mem_self)).1
        rw [← hd, hzero] at hlo
        exact absurd hlo (by decide)
    obtain ⟨fat', fatent', htable, hstep⟩ := freeLoop_step (hrange a List.mem_cons_self) hused fatent
    cases hpath with
    | last hend =>
      have heof : fatValue vol fat.disk a = fatEntEof := entTarget_eq_none.mp hend
      refine ⟨fat', by rw [hstep, if_pos heof], fun e => ?_⟩
      rw [htable]
      simp only [update_apply, List.mem_singleton]
      split
      · rename_i heq
        rw [heq]
      · rfl
    | @step _ d _ hnext hrest =>
      have hal : a ∉ l := (nodup_cons.mp hnodup).1
      have hkeep : ∀ e ∈ l, rawEntry vol fat'.disk e = rawEntry vol fat.disk e := by
        intro e he
        have hne : e ≠ a := fun heq => hal (heq ▸ he)
        rw [htable, update_of_ne hne]
      have hrest' : ChainAt vol fat'.disk d l := by
        refine ⟨hrest.congr fun e he => ?_, fun e he => hrange e (List.mem_cons_of_mem _ he)⟩
        rw [nextCluster, hkeep e he, nextCluster]
      obtain ⟨fat'', hloop, htable'⟩ := ih hrest' fatent' (Nat.le_of_succ_le_succ hfuel)
      have hd : fatValue vol fat.disk a ≠ fatEntEof ∧ (fatValue vol fat.disk a).toNat = d :=
        entTarget_eq_some.mp hnext
      refine ⟨fat'', by rw [hstep, if_neg hd.1, hd.2, hloop], fun e => ?_⟩
      rw [htable']
      by_cases hel : e ∈ l
      · rw [if_pos hel, if_pos (List.mem_cons_of_mem _ hel), hkeep e hel]
      · rw [if_neg hel, htable]
        by_cases hea : e = a
        · rw [hea, update_self, if_pos List.mem_cons_self]
        · rw [update_of_ne hea, if_neg (by simp [hea, hel])]

end Free

end VDLinux.Fs.Fat
