import VDLinux.Tfsr.Mount

namespace VDLinux.Tfsr.FindValid

open BlockMap MetaData Mount

/-- What a search that made the reads from number `calls` on answers for if it reports meta data: the
confirm page lies in the block, it has been read as all zero, and each meta page before it has been
read without an error. -/
structure Sound (vol : BmlVolCxt) (lld : Lld) (nPbn calls : Nat) (f : Found) : Prop where
  inBlock : f.nValidOffset + bmlNumOfMetaPgs < vol.nNumOfPgsInSLCBlk
  confirm : ∃ c, calls ≤ c ∧ c < f.calls ∧
    (lld c nPbn (f.nValidOffset + bmlNumOfMetaPgs)).re.readable = true ∧
      cmpData (lld c nPbn (f.nValidOffset + bmlNumOfMetaPgs)).page.main (mainSize vol) 0 = true
  metaPgs : ∀ i < bmlNumOfMetaPgs, ∃ c, calls ≤ c ∧ c < f.calls ∧
    (lld c nPbn (f.nValidOffset + i)).re.readable = true

/-- One round of the backward search: is the page a confirm page whose meta pages can be read, and how
many reads have been made then. -/
def attempt (vol : BmlVolCxt) (lld : Lld) (nPbn nPgOffset calls : Nat) : Bool × Nat :=
  let r := lld calls nPbn nPgOffset
  if r.re.readable && cmpData r.page.main (mainSize vol) 0 then
    if bmlNumOfMetaPgs ≤ nPgOffset then
      readMetaPgs lld nPbn bmlNumOfMetaPgs (nPgOffset - bmlNumOfMetaPgs) (calls + 1)
    else (true, calls + 1)
  else (false, calls + 1)

/-- The end of the search at a page whose round succeeded. -/
def accept (vol : BmlVolCxt) (lld : Lld) (nPbn : Nat) (nType : PcbType) (bTPCB : Bool)
    (nLatestPgOff nPgOffset calls : Nat) : Found :=
  checkTPCB lld nPbn nType bTPCB (uint32 (nPgOffset + 2 ^ 32 - bmlNumOfMetaPgs))
    (if nLatestPgOff = nPgOffset ∧ nPgOffset < vol.nNumOfPgsInSLCBlk - 1 then calls + 1 else calls)

/-- The search that begins at one page with a number of reads made comes to another page. -/
inductive Reaches (vol : BmlVolCxt) (lld : Lld) (nPbn : Nat) : Nat → Nat → Nat → Nat → Prop
  | here (nPgOffset calls : Nat) : Reaches vol lld nPbn nPgOffset calls nPgOffset calls
  | back {nPgOffset calls off c : Nat} (hfail : (attempt vol lld nPbn (nPgOffset + 1) calls).1 = false)
      (hrest : Reaches vol lld nPbn nPgOffset (attempt vol lld nPbn (nPgOffset + 1) calls).2 off c) :
      Reaches vol lld nPbn (nPgOffset + 1) calls off c

section Search

variable {vol : BmlVolCxt} {lld : Lld} {nPbn : Nat} {nType : PcbType} {bTPCB : Bool} {nLatestPgOff : Nat}

theorem searchConfirm_eq (nPgOffset calls : Nat) :
    searchConfirm vol lld nPbn nType bTPCB nLatestPgOff nPgOffset calls =
      if (attempt vol lld nPbn nPgOffset calls).1 then
        accept vol lld nPbn nType bTPCB nLatestPgOff nPgOffset (attempt vol lld nPbn nPgOffset calls).2
      else match nPgOffset with
        | 0 => ⟨false, 0xFFFFFFFF, (attempt vol lld nPbn nPgOffset calls).2⟩
        | nPgOffset' + 1 => searchConfirm vol lld nPbn nType bTPCB nLatestPgOff nPgOffset'
            (attempt vol lld nPbn nPgOffset calls).2 := by
  cases nPgOffset <;> rfl

theorem readMetaPgs_spec {left nIdx calls calls' : Nat}
    (h : readMetaPgs lld nPbn left nIdx calls = (true, calls')) :
    calls' = calls + left ∧ ∀ i < left, (lld (calls + i) nPbn (nIdx + i)).re.readable = true := by
  induction left generalizing nIdx calls with
  | zero =>
    obtain ⟨-, rfl⟩ := Prod.mk.inj h
    exact ⟨rfl, fun i hi => absurd hi (Nat.not_lt_zero i)⟩
  | succ left ih =>
    rw [readMetaPgs] at h
    split at h
    · rename_i hread
      obtain ⟨hcalls, hrest⟩ := ih h
      refine ⟨by omega, fun i hi => ?_⟩
      cases i with
      | zero => exact hread
      | succ i =>
        rw [Nat.add_comm i 1, ← Nat.add_assoc, ← Nat.add_assoc]
        exact hrest i (by omega)
    · exact nomatch (Prod.mk.inj h).1

variable {nPgOffset calls off c : Nat}

theorem Reaches.le (h : Reaches vol lld nPbn nPgOffset calls off c) : off ≤ nPgOffset := by
  induction h with
  | here => exact Nat.le_refl _
  | back hfail hrest ih => omega

theorem readMetaPgs_calls (left nIdx calls : Nat) :
    calls ≤ (readMetaPgs lld nPbn left nIdx calls).2 := by
  induction left generalizing nIdx calls with
  | zero => exact Nat.le_refl _
  | succ left ih =>
    rw [readMetaPgs]
    split
    · exact Nat.le_trans (Nat.le_succ calls) (ih _ _)
    · exact Nat.le_succ calls

theorem attempt_calls (nPgOffset calls : Nat) : calls < (attempt vol lld nPbn nPgOffset calls).2 := by
  rw [attempt]
  split
  · split
    · exact readMetaPgs_calls _ _ _
    · exact Nat.lt_succ_self calls
  · exact Nat.lt_succ_self calls

theorem Reaches.calls_le (h : Reaches vol lld nPbn nPgOffset calls off c) : calls ≤ c := by
  induction h with
  | here => exact Nat.le_refl _
  | back hfail hrest ih => exact Nat.le_trans (Nat.le_of_lt (attempt_calls _ _)) ih

theorem searchConfirm_found {nPgOffset calls : Nat}
    (h : (searchConfirm vol lld nPbn nType bTPCB nLatestPgOff nPgOffset calls).bFound = true) :
    ∃ off c, Reaches vol lld nPbn nPgOffset calls off c ∧ (attempt vol lld nPbn off c).1 = true := by
  induction nPgOffset generalizing calls with
  | zero =>
    rw [searchConfirm_eq] at h
    split_ifs at h with hsucc
    exact ⟨0, calls, .here 0 calls, hsucc⟩
  | succ nPgOffset ih =>
    rw [searchConfirm_eq] at h
    split_ifs at h with hsucc
    · exact ⟨nPgOffset + 1, calls, .here _ calls, hsucc⟩
    · obtain ⟨off, c, hreach, hoff⟩ := ih h
      exact ⟨off, c, .back (Bool.eq_false_iff.mpr hsucc) hreach, hoff⟩

theorem searchConfirm_of_reaches
    (h : Reaches vol lld nPbn nPgOffset calls off c) (hsucc : (attempt vol lld nPbn off c).1 = true) :
    searchConfirm vol lld nPbn nType bTPCB nLatestPgOff nPgOffset calls =
      accept vol lld nPbn nType bTPCB nLatestPgOff off (attempt vol lld nPbn off c).2 := by
  induction h with
  | here => rw [searchConfirm_eq, if_pos hsucc]
  | back hfail hrest ih =>
    rw [searchConfirm_eq, if_neg (Bool.eq_false_iff.mp hfail)]
    exact ih hsucc

theorem accept_spec (nPgOffset calls : Nat) :
    (accept vol lld nPbn nType bTPCB nLatestPgOff nPgOffset calls).nValidOffset =
        uint32 (nPgOffset + 2 ^ 32 - bmlNumOfMetaPgs) ∧
      calls ≤ (accept vol lld nPbn nType bTPCB nLatestPgOff nPgOffset calls).calls := by
  rw [accept, checkTPCB]
  constructor
  · split <;> rfl
  · split <;> dsimp only <;> split <;> omega

theorem accept_sound {nPgOffset calls calls₀ : Nat} (hmeta : bmlNumOfMetaPgs ≤ nPgOffset)
    (hblk : nPgOffset < vol.nNumOfPgsInSLCBlk) (hN : vol.nNumOfPgsInSLCBlk < 2 ^ 32)
    (hcalls : calls₀ ≤ calls)
    (hsucc : (attempt vol lld nPbn nPgOffset calls).1 = true) :
    Sound vol lld nPbn calls₀ (accept vol lld nPbn nType bTPCB nLatestPgOff nPgOffset
        (attempt vol lld nPbn nPgOffset calls).2) := by
  obtain ⟨hoff, hmade⟩ := @accept_spec vol lld nPbn nType bTPCB nLatestPgOff nPgOffset
    (attempt vol lld nPbn nPgOffset calls).2
  generalize accept vol lld nPbn nType bTPCB nLatestPgOff nPgOffset
    (attempt vol lld nPbn nPgOffset calls).2 = f at hoff hmade
  have hstart : f.nValidOffset = nPgOffset - bmlNumOfMetaPgs := by
    rw [hoff, uint32]
    omega
  have hconfirm : f.nValidOffset + bmlNumOfMetaPgs = nPgOffset := by omega
  rw [attempt] at hsucc hmade
  simp only [if_pos hmeta] at hsucc hmade
  split at hsucc
  · rename_i hzero
    rw [if_pos hzero] at hmade
    rw [Bool.and_eq_true] at hzero
    generalize hmade' : readMetaPgs lld nPbn bmlNumOfMetaPgs (nPgOffset - bmlNumOfMetaPgs) (calls + 1) = m
      at hsucc hmade
    obtain ⟨_, calls'⟩ := m
    obtain rfl := hsucc
    obtain ⟨hreads, hread⟩ := readMetaPgs_spec hmade'
    refine ⟨by omega, ⟨calls, hcalls, by omega, ?_⟩, fun i hi => ⟨calls + 1 + i, by omega, by omega, ?_⟩⟩
    · rw [hconfirm]
      exact hzero
    · rw [hstart]
      exact hread i hi
  · exact nomatch hsucc

theorem latestUsed_le {group calls nPgOffset calls' : Nat}
    (h : latestUsed vol lld nPbn group calls = (some nPgOffset, calls')) :
    0 < nPgOffset ∧ nPgOffset ≤ (bmlNumOfMetaPgs + 1) * group ∧ calls ≤ calls' := by
  induction group generalizing calls with
  | zero => exact nomatch (Prod.mk.inj h).1
  | succ group ih =>
    rw [latestUsed] at h
    rw [bmlNumOfMetaPgs] at *
    split at h
    · obtain ⟨hpos, hle, hcalls⟩ := ih h
      exact ⟨hpos, by omega, by omega⟩
    · obtain ⟨hoff, hcalls⟩ := Prod.mk.inj h
      have hoff := Option.some.inj hoff
      exact ⟨by omega, by omega, by omega⟩

end Search

/-- The search comes to one of the first three pages of the block and takes it for a confirm page,
though no meta pages fit before it. -/
def LowConfirm (vol : BmlVolCxt) (lld : Lld) (nPbn : Nat) (nType : PcbType) (bTPCB : Bool)
    (calls : Nat) : Prop :=
  ∃ nPgOffset calls', latestUsed vol lld nPbn (vol.nNumOfPgsInSLCBlk / (bmlNumOfMetaPgs + 1)) calls =
      (some nPgOffset, calls') ∧
    ∃ off c, Reaches vol lld nPbn (nPgOffset - 1) calls' off c ∧ off < bmlNumOfMetaPgs ∧
      (lld c nPbn off).re.readable = true ∧ cmpData (lld c nPbn off).page.main (mainSize vol) 0 = true ∧
      (accept vol lld nPbn nType bTPCB (nPgOffset - 1) off (c + 1)).bFound = true

/-- The search answers for what it reports exactly if it does not stop at one of the first three pages,
where the start of the meta pages wraps and none is read. -/
theorem findValidMetaData_sound_iff (vol : BmlVolCxt) (lld : Lld) (nPbn : Nat) (nType : PcbType)
    (bTPCB : Bool) (calls : Nat) (sh : BmlReservoirSh) (hN : vol.nNumOfPgsInSLCBlk < 2 ^ 32) :
    ((findValidMetaData vol lld nPbn nType bTPCB calls sh).1.bFound = true →
        Sound vol lld nPbn calls (findValidMetaData vol lld nPbn nType bTPCB calls sh).1) ↔
      ¬ LowConfirm vol lld nPbn nType bTPCB calls := by
  constructor
  · rintro hsound ⟨nPgOffset, calls', hlatest, off, c, hreach, hlow, hread, hzero, hfound⟩
    have hattempt : attempt vol lld nPbn off c = (true, c + 1) := by
      rw [attempt]
      simp only [hread, hzero, Bool.and_self, if_true, if_neg (Nat.not_le.mpr hlow)]
    have hend := @searchConfirm_of_reaches vol lld nPbn nType bTPCB (nPgOffset - 1) _ _ _ _ hreach
      (by rw [hattempt])
    rw [hattempt] at hend
    have hfind : (findValidMetaData vol lld nPbn nType bTPCB calls sh).1 =
        accept vol lld nPbn nType bTPCB (nPgOffset - 1) off (c + 1) := by
      rw [findValidMetaData, hlatest]
      exact hend
    rw [hfind] at hsound
    have hin := (hsound hfound).inBlock
    rw [(accept_spec off (c + 1)).1, uint32] at hin
    omega
  · intro hlow hfound
    cases hlatest : latestUsed vol lld nPbn (vol.nNumOfPgsInSLCBlk / (bmlNumOfMetaPgs + 1)) calls with
    | mk latest calls' =>
      rw [findValidMetaData, hlatest] at hfound ⊢
      cases latest with
      | none => exact nomatch hfound
      | some nPgOffset =>
        obtain ⟨hpos, hle, hcalls⟩ := latestUsed_le hlatest
        obtain ⟨off, c, hreach, hsucc⟩ := searchConfirm_found hfound
        have hoff := hreach.le
        have hblk : (bmlNumOfMetaPgs + 1) * (vol.nNumOfPgsInSLCBlk / (bmlNumOfMetaPgs + 1)) ≤
            vol.nNumOfPgsInSLCBlk := Nat.mul_div_le _ _
        dsimp only at hfound ⊢
        rw [searchConfirm_of_reaches hreach hsucc] at hfound ⊢
        by_cases hmeta : bmlNumOfMetaPgs ≤ off
        · exact accept_sound hmeta (by omega) hN (Nat.le_trans hcalls hreach.calls_le) hsucc
        · refine absurd ⟨nPgOffset, calls', hlatest, off, c, hreach, by omega, ?_⟩ hlow
          rw [attempt] at hsucc hfound
          simp only [if_neg hmeta] at hsucc hfound
          split at hsucc
          · rename_i hzero
            rw [if_pos hzero] at hfound
            rw [Bool.and_eq_true] at hzero
            exact ⟨hzero.1, hzero.2, hfound⟩
          · exact nomatch hsucc

section Examples

def smallVol : BmlVolCxt := ⟨64, 1, 4, 2048, 4, 2, 0, pgs_four⟩

def filled (d : UInt8) : Page := ⟨fun _ => d, fun _ => 0⟩

/-- A block that lost its power while it was erased: only the first page reads as all zero. -/
def halfErased : Lld := fun _ _ nPgOffset => ⟨.success, filled (if nPgOffset = 0 then 0 else 1)⟩

def confirmed : Lld := fun _ _ nPgOffset => ⟨.success, filled (if nPgOffset = 3 then 0 else 1)⟩

def noReservoir : BmlReservoirSh := ⟨0, 0, 0, 0, 0, 0, 0, 0, 0⟩

/-- The first page is taken for a confirm page and the offset of its meta pages wraps. -/
theorem halfErased_found :
    (findValidMetaData smallVol halfErased 60 .lpcb false 0 noReservoir).1 = ⟨true, 0xFFFFFFFD, 5⟩ ∧
      ¬ Sound smallVol halfErased 60 0
        (findValidMetaData smallVol halfErased 60 .lpcb false 0 noReservoir).1 := by
  have hfind : (findValidMetaData smallVol halfErased 60 .lpcb false 0 noReservoir).1 =
      ⟨true, 0xFFFFFFFD, 5⟩ := by
    decide +kernel
  refine ⟨hfind, fun hsound => ?_⟩
  rw [hfind] at hsound
  exact absurd hsound.inBlock (by decide)

theorem findValidMetaData_sound_iff_confirmed :
    (findValidMetaData smallVol confirmed 60 .lpcb false 0 noReservoir).1.bFound = true ∧
      ¬ LowConfirm smallVol confirmed 60 .lpcb false 0 := by
  have hfind : (findValidMetaData smallVol confirmed 60 .lpcb false 0 noReservoir).1 = ⟨true, 0, 5⟩ := by
    decide +kernel
  have hzero : cmpData (confirmed 1 60 3).page.main (mainSize smallVol) 0 = true := by
    decide +kernel
  refine ⟨congrArg Found.bFound hfind, ?_⟩
  refine (findValidMetaData_sound_iff smallVol confirmed 60 .lpcb false 0 noReservoir (by decide)).mp
    fun _ => ?_
  rw [hfind]
  exact ⟨by decide, ⟨1, Nat.zero_le 1, by decide, rfl, hzero⟩, fun i _ =>
    ⟨1, Nat.zero_le 1, by decide, rfl⟩⟩

end Examples

end VDLinux.Tfsr.FindValid
