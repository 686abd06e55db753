import VDLinux.Tfsr.ReadPages

namespace VDLinux.Tfsr.ReadScts

open ReturnValue ReadPages BitVec

def fsrBmlFlagUseSparebuf : BitVec 32 := 0x00000008
def fsrBmlFlagEccMask : BitVec 32 := 0x00000040
def fsrBmlFlagEccOn : BitVec 32 := 0x00000000
def fsrBmlFlagEccOff : BitVec 32 := 0x00000040
def fsrBmlFlag1stSctoffsetMask : BitVec 32 := 0xFF000000
def fsrBmlFlagLastSctoffsetMask : BitVec 32 := 0x00FF0000
def fsrBmlFlag1stSctoffsetBasebit : ℕ := 24
def fsrBmlFlagLastSctoffsetBasebit : ℕ := 16
def fsrLldFlagUseSparebuf : BitVec 32 := 0x00000400

def fsrBmlFlagMakeSctoffset (off1 off2 : BitVec 32) : BitVec 32 :=
  (off1 <<< fsrBmlFlag1stSctoffsetBasebit &&& fsrBmlFlag1stSctoffsetMask) |||
    (off2 <<< fsrBmlFlagLastSctoffsetBasebit &&& fsrBmlFlagLastSctoffsetMask)

structure SctVol where
  nSctsPerPg : BitVec 32
  nNumOfPlane : BitVec 32
  nLastVpn : BitVec 32
  scts : nSctsPerPg * nNumOfPlane = 4 ∨ nSctsPerPg * nNumOfPlane = 8 ∨ nSctsPerPg * nNumOfPlane = 16

def SctVol.maxSctsPerVpg (vol : SctVol) : BitVec 32 := vol.nSctsPerPg * vol.nNumOfPlane

/-- `_GetShfValue` on a value of `bits` bits. -/
def getShfValue : ℕ → BitVec 32 → ℕ
  | 0, _ => 0
  | bits + 1, nValue => if nValue = 0 then 0 else if nValue &&& 1 = 0 then getShfValue bits (nValue >>> 1) + 1 else 0

structure SctArgs where
  nVpn : BitVec 32
  n1stSecOff : BitVec 32
  nNumOfScts : BitVec 32
  pMBuf : ℕ
  pSBuf : Option ℕ
  nFlag : BitVec 32

/-- The call of `_BML_Read` that a sector read comes to. -/
def sctCall (vol : SctVol) (a : SctArgs) : ReadArgs :=
  let nMaxSctsPerVpg := vol.maxSctsPerVpg
  let nSftSctsPerPg := getShfValue 32 nMaxSctsPerVpg
  let nMaskSctsPerPg : BitVec 32 := if nMaxSctsPerVpg = 4 then 3 else if nMaxSctsPerVpg = 8 then 7 else 15
  let nNumOfPgs := (a.n1stSecOff + a.nNumOfScts) >>> nSftSctsPerPg
  let nLastSecOff := (nMaxSctsPerVpg - (a.n1stSecOff + a.nNumOfScts)) &&& nMaskSctsPerPg
  let nNumOfPgs := if nLastSecOff ≠ 0 then nNumOfPgs + 1 else nNumOfPgs
  ⟨a.nVpn, nNumOfPgs.toNat, some a.pMBuf, a.pSBuf, fsrBmlFlagMakeSctoffset a.n1stSecOff nLastSecOff⟩

/-- The result with the call of `_BML_Read` that was made, if it came to one. -/
def fsrBmlReadScts (vol : SctVol) (bmlRead : ReadArgs → BitVec 32) (acquireLock releaseLock : Bool)
    (a : SctArgs) : BitVec 32 × Option ReadArgs :=
  if vol.nLastVpn < a.nVpn then (fsrBmlInvalidParam, none)
  else if vol.maxSctsPerVpg ≤ a.n1stSecOff then (fsrBmlInvalidParam, none)
  else if acquireLock = false then (fsrBmlAcquireSmError, none)
  else
    let call := sctCall vol a
    let nBMLRe := bmlRead call
    if releaseLock = false ∧ nBMLRe = fsrBmlSuccess then (fsrBmlReleaseSmError, some call)
    else (nBMLRe, some call)

/-- What `_BML_Read` takes from its flag: the options of every load, and the sectors to leave out at the
start of the first and at the end of the last page. -/
structure ReadOptions where
  nLLDFlag : BitVec 32
  nSctNumOf1stVPg : BitVec 32
  nSctNumOfLastVPg : BitVec 32
deriving DecidableEq, Repr

def readOptions (nFlag : BitVec 32) : ReadOptions where
  nLLDFlag :=
    let nLLDFlag := nFlag &&& fsrBmlFlagEccMask
    if nFlag &&& fsrBmlFlagUseSparebuf = fsrBmlFlagUseSparebuf then nLLDFlag ||| fsrLldFlagUseSparebuf
    else nLLDFlag
  nSctNumOf1stVPg := (nFlag &&& fsrBmlFlag1stSctoffsetMask) >>> fsrBmlFlag1stSctoffsetBasebit
  nSctNumOfLastVPg := (nFlag &&& fsrBmlFlagLastSctoffsetMask) >>> fsrBmlFlagLastSctoffsetBasebit

def pagesOf (c : ReadArgs) : List ℕ := List.range' c.nVpn.toNat c.nNumOfPgs

/-- The sectors, counted from the start of the volume, that a call leaves in the main buffer when it
honours the sector offsets of its flag. -/
def sctsOf (scts : ℕ) (c : ReadArgs) : List ℕ :=
  let o := readOptions c.nFlag
  List.range' (c.nVpn.toNat * scts + o.nSctNumOf1stVPg.toNat)
    (c.nNumOfPgs * scts - o.nSctNumOf1stVPg.toNat - o.nSctNumOfLastVPg.toNat)

def firstSct (vol : SctVol) (a : SctArgs) : ℕ := a.nVpn.toNat * vol.maxSctsPerVpg.toNat + a.n1stSecOff.toNat

/-- The smallest run of pages that contains these sectors. -/
def pageRun (vol : SctVol) (a : SctArgs) : List ℕ :=
  let scts := vol.maxSctsPerVpg.toNat
  let first := firstSct vol a / scts
  List.range' first ((firstSct vol a + a.nNumOfScts.toNat - 1) / scts + 1 - first)

/-- The read loads the pages of the run with the options that a read of whole pages would load them with,
and leaves the sectors that were asked for. -/
def Agrees (vol : SctVol) (a : SctArgs) (c : Option ReadArgs) : Prop :=
  ∃ c', c = some c' ∧ pagesOf c' = pageRun vol a ∧
    (readOptions c'.nFlag).nLLDFlag = (readOptions a.nFlag).nLLDFlag ∧
    sctsOf vol.maxSctsPerVpg.toNat c' = List.range' (firstSct vol a) a.nNumOfScts.toNat

/-- ECC on or off, with or without the spare buffer. -/
def Documented (nFlag : BitVec 32) : Prop :=
  nFlag = fsrBmlFlagEccOn ∨ nFlag = fsrBmlFlagEccOff ∨ nFlag = fsrBmlFlagEccOn ||| fsrBmlFlagUseSparebuf ∨
    nFlag = fsrBmlFlagEccOff ||| fsrBmlFlagUseSparebuf

section Offsets

theorem readOptions_makeSctoffset {off1 off2 : BitVec 32} (h1 : off1.toNat < 16) (h2 : off2.toNat < 16) :
    readOptions (fsrBmlFlagMakeSctoffset off1 off2) = ⟨0, off1, off2⟩ := by
  have hall : ∀ i < 16, ∀ j < 16, readOptions (fsrBmlFlagMakeSctoffset (BitVec.ofNat 32 i) (BitVec.ofNat 32 j)) =
      ⟨0, BitVec.ofNat 32 i, BitVec.ofNat 32 j⟩ := by decide
  have h := hall off1.toNat h1 off2.toNat h2
  rwa [ofNat_toNat, ofNat_toNat, setWidth_eq, setWidth_eq] at h

/-- The number of pages that `x` sectors need, and the sectors of the last one that are left over. -/
structure Rounds (scts x : ℕ) (nNumOfPgs nLastSecOff : ℕ) : Prop where
  pgs : nNumOfPgs = (x + scts - 1) / scts
  last : nLastSecOff = (scts - x % scts) % scts

/-- The page count and the last offset as the source computes them, for pages of `2 ^ k` sectors. -/
theorem rounds_shift {k : ℕ} (hk : k = 2 ∨ k = 3 ∨ k = 4) (x : BitVec 32) :
    let last := (BitVec.ofNat 32 (2 ^ k) - x) &&& BitVec.ofNat 32 (2 ^ k - 1)
    Rounds (2 ^ k) x.toNat (if last ≠ 0 then x >>> k + 1 else x >>> k).toNat last.toNat := by
  intro last
  have hpow : 2 ^ k < 2 ^ 32 := by
    rcases hk with rfl | rfl | rfl <;> decide
  have hlast : last.toNat = (2 ^ k - x.toNat % 2 ^ k) % 2 ^ k := by
    have hdvd : 2 ^ k ∣ 2 ^ 32 := Nat.pow_dvd_pow 2 (by omega)
    rw [toNat_and, toNat_sub, toNat_ofNat, toNat_ofNat, Nat.mod_eq_of_lt hpow,
      Nat.mod_eq_of_lt (a := 2 ^ k - 1) (by omega), Nat.and_two_pow_sub_one_eq_mod, Nat.mod_mod_of_dvd _ hdvd]
    rcases hk with rfl | rfl | rfl <;> omega
  have hzero : last ≠ 0 ↔ (2 ^ k - x.toNat % 2 ^ k) % 2 ^ k ≠ 0 := by
    rw [← hlast, ne_eq, ← toNat_inj, ofNat_eq_ofNat, toNat_ofNat, Nat.zero_mod]
  have hshift : (x >>> k).toNat = x.toNat / 2 ^ k := by
    rw [toNat_ushiftRight, Nat.shiftRight_eq_div_pow]
  have hnext : (x >>> k + 1).toNat = x.toNat / 2 ^ k + 1 := by
    have hone : (1 : BitVec 32).toNat = 1 := rfl
    rw [toNat_add, hshift, hone]
    rcases hk with rfl | rfl | rfl <;> omega
  refine ⟨?_, hlast⟩
  simp only [hzero]
  rcases hk with rfl | rfl | rfl <;> split_ifs <;> omega

end Offsets

section Call

variable {vol : SctVol} {a : SctArgs}

theorem SctVol.exists_shift (vol : SctVol) :
    ∃ k, (k = 2 ∨ k = 3 ∨ k = 4) ∧ vol.maxSctsPerVpg = BitVec.ofNat 32 (2 ^ k) := by
  rcases vol.scts with h | h | h
  · exact ⟨2, .inl rfl, h⟩
  · exact ⟨3, .inr (.inl rfl), h⟩
  · exact ⟨4, .inr (.inr rfl), h⟩

theorem sctCall_spec (vol : SctVol) (a : SctArgs) : ∃ nNumOfPgs nLastSecOff,
      sctCall vol a = ⟨a.nVpn, nNumOfPgs, some a.pMBuf, a.pSBuf, fsrBmlFlagMakeSctoffset a.n1stSecOff nLastSecOff⟩ ∧
      Rounds vol.maxSctsPerVpg.toNat (a.n1stSecOff + a.nNumOfScts).toNat nNumOfPgs nLastSecOff.toNat := by
  obtain ⟨k, hk, hmax⟩ := vol.exists_shift
  have hrounds := rounds_shift hk (a.n1stSecOff + a.nNumOfScts)
  rw [sctCall, hmax]
  rcases hk with rfl | rfl | rfl <;> exact ⟨_, _, rfl, hrounds⟩

theorem call_eq_some {bmlRead : ReadArgs → BitVec 32} {acquireLock releaseLock : Bool} {c : ReadArgs} :
    (fsrBmlReadScts vol bmlRead acquireLock releaseLock a).2 = some c ↔
      a.nVpn ≤ vol.nLastVpn ∧ a.n1stSecOff < vol.maxSctsPerVpg ∧ acquireLock = true ∧ c = sctCall vol a := by
  unfold fsrBmlReadScts
  by_cases hvpn : vol.nLastVpn < a.nVpn
  · rw [if_pos hvpn]
    exact ⟨nofun, fun h => absurd hvpn (BitVec.not_lt.mpr h.1)⟩
  rw [if_neg hvpn]
  by_cases hoff : vol.maxSctsPerVpg ≤ a.n1stSecOff
  · rw [if_pos hoff]
    exact ⟨nofun, fun h => absurd hoff (BitVec.not_le.mpr h.2.1)⟩
  rw [if_neg hoff]
  cases acquireLock with
  | false => exact ⟨nofun, fun h => nomatch h.2.2.1⟩
  | true =>
    rw [if_neg (by decide), apply_ite Prod.snd, ite_self, Option.some.injEq]
    exact ⟨fun h => ⟨BitVec.not_lt.mp hvpn, BitVec.not_le.mp hoff, rfl, h.symm⟩, fun h => h.2.2.2.symm⟩

theorem Documented.lldFlag_eq_zero {nFlag : BitVec 32} (h : Documented nFlag) :
    (readOptions nFlag).nLLDFlag = 0 ↔ nFlag = fsrBmlFlagEccOn := by
  rcases h with rfl | rfl | rfl | rfl <;> decide

/-- For every request inside the volume the sector read agrees with the read of whole pages exactly if it
gets the lock, starts inside the first page, its end can be counted in 32 bits and its flag asks for
nothing. -/
theorem readScts_agrees_iff (vol : SctVol) (bmlRead : ReadArgs → BitVec 32) (acquireLock releaseLock : Bool)
    (a : SctArgs) (hpos : 1 ≤ a.nNumOfScts.toNat) (hflag : Documented a.nFlag)
    (hin : firstSct vol a + a.nNumOfScts.toNat ≤ (vol.nLastVpn.toNat + 1) * vol.maxSctsPerVpg.toNat) :
    Agrees vol a (fsrBmlReadScts vol bmlRead acquireLock releaseLock a).2 ↔
      acquireLock = true ∧ a.n1stSecOff.toNat < vol.maxSctsPerVpg.toNat ∧
        a.n1stSecOff.toNat + a.nNumOfScts.toNat < 2 ^ 32 ∧ a.nFlag = fsrBmlFlagEccOn := by
  obtain ⟨pgs, last, hcall, hrounds⟩ := sctCall_spec vol a
  obtain ⟨k, hk, hmax⟩ := vol.exists_shift
  have hscts : vol.maxSctsPerVpg.toNat = 2 ^ k := by
    rw [hmax]
    rcases hk with rfl | rfl | rfl <;> rfl
  have hsmall : 2 ^ k ≤ 16 := by
    rcases hk with rfl | rfl | rfl <;> decide
  have hlast : last.toNat < 16 := by
    rw [hrounds.last, hscts]
    exact (Nat.mod_lt _ (Nat.two_pow_pos k)).trans_le hsmall
  have hsum : (a.n1stSecOff + a.nNumOfScts).toNat = (a.n1stSecOff.toNat + a.nNumOfScts.toNat) % 2 ^ 32 :=
    toNat_add _ _
  constructor
  · rintro ⟨c, hc, hpages, hopts, -⟩
    obtain ⟨-, hoff, hacq, rfl⟩ := call_eq_some.mp hc
    have hoff' : a.n1stSecOff.toNat < 2 ^ k := by
      rw [← hscts]
      exact lt_def.mp hoff
    refine ⟨hacq, by rwa [hscts], ?_, ?_⟩
    · -- an end that wraps makes the run much too short
      have hlen := congrArg List.length hpages
      rw [hcall] at hlen
      simp only [pagesOf, pageRun, firstSct, List.length_range', hrounds.pgs, hsum, hscts] at hlen
      by_contra hwrap
      rcases hk with rfl | rfl | rfl <;> omega
    · rw [hcall, readOptions_makeSctoffset (hoff'.trans_le hsmall) hlast] at hopts
      exact hflag.lldFlag_eq_zero.mp hopts.symm
  · rintro ⟨hacq, hoff, hwrap, hzero⟩
    have hvpn : a.nVpn ≤ vol.nLastVpn := by
      rw [le_def]
      simp only [firstSct, hscts] at hin
      rcases hk with rfl | rfl | rfl <;> omega
    refine ⟨_, call_eq_some.mpr ⟨hvpn, lt_def.mpr hoff, hacq, rfl⟩, ?_, ?_, ?_⟩
    · rw [hcall]
      simp only [pagesOf, pageRun, firstSct, hrounds.pgs, hsum, hscts] at hoff ⊢
      rcases hk with rfl | rfl | rfl <;> congr 1 <;> omega
    · rw [hcall, readOptions_makeSctoffset (by omega) hlast, hzero]
      rfl
    · rw [hcall, sctsOf, readOptions_makeSctoffset (by omega) hlast]
      simp only [firstSct, hrounds.pgs, hrounds.last, hsum, hscts] at hoff ⊢
      rcases hk with rfl | rfl | rfl <;> congr 1 <;> omega

end Call

section Dropped

def eightScts : SctVol := ⟨4, 2, 1023, .inr (.inl rfl)⟩

def elevenScts (nFlag : BitVec 32) : SctArgs := ⟨5, 2, 11, 0, none, nFlag⟩

theorem readScts_agrees_iff_eleven : Agrees eightScts (elevenScts fsrBmlFlagEccOn)
      (fsrBmlReadScts eightScts (fun _ => fsrBmlSuccess) true true (elevenScts fsrBmlFlagEccOn)).2 ↔
    true = true ∧ (elevenScts fsrBmlFlagEccOn).n1stSecOff.toNat < eightScts.maxSctsPerVpg.toNat ∧
      (elevenScts fsrBmlFlagEccOn).n1stSecOff.toNat + (elevenScts fsrBmlFlagEccOn).nNumOfScts.toNat < 2 ^ 32 ∧
      (elevenScts fsrBmlFlagEccOn).nFlag = fsrBmlFlagEccOn :=
  readScts_agrees_iff eightScts _ true true (elevenScts fsrBmlFlagEccOn) (by decide) (.inl rfl) (by decide)

/-- A sector read without ECC: the pages are loaded with ECC. -/
theorem ecc_off_dropped : ∃ c,
    (fsrBmlReadScts eightScts (fun _ => fsrBmlSuccess) true true (elevenScts fsrBmlFlagEccOff)).2 = some c ∧
      (readOptions c.nFlag).nLLDFlag = 0 ∧ (readOptions fsrBmlFlagEccOff).nLLDFlag = fsrBmlFlagEccOff ∧
      fsrBmlFlagEccOff ≠ 0 :=
  ⟨sctCall eightScts (elevenScts fsrBmlFlagEccOff), by decide, by decide, by decide, by decide⟩

end Dropped

end VDLinux.Tfsr.ReadScts
