import VDLinux.Base.Authority
import VDLinux.Base.Outcome
import VDLinux.Security.Commoncap

namespace VDLinux.Security

open Base.Authority Base.Outcome Set

def Cred.sets (c : Cred) : Sets (Set (Fin 64)) where
  effective := c.capEffective.caps
  permitted := c.capPermitted.caps
  inheritable := c.capInheritable.caps
  bounding := c.capBset.caps

theorem capCapset_attenuates {c new : Cred} {effective inheritable permitted : KernelCap}
    (h : capCapset c c effective inheritable permitted = .ok new) : Attenuates c.sets new.sets := by
  obtain ⟨-, h⟩ := ok_of_guard h
  obtain ⟨hinheritable, h⟩ := ok_of_guard h
  obtain ⟨hpermitted, h⟩ := ok_of_guard h
  obtain ⟨heffective, h⟩ := ok_of_guard h
  cases h
  rw [not_not, capIssubset_iff] at hinheritable hpermitted heffective
  rw [caps_capCombine] at hinheritable
  exact ⟨heffective, hpermitted.trans (le_sup_left.trans le_sup_left), hinheritable, le_rfl⟩

theorem capTaskPrctl_attenuates {c new : Cred} {option : PrctlOption} {arg2 : BitVec 32} {value : ℕ}
    (hc : c.capEffective.caps ⊆ c.capPermitted.caps)
    (h : capTaskPrctl c option arg2 = .ok (value, new)) : Attenuates c.sets new.sets := by
  have hsame : Attenuates c.sets c.sets := .refl hc
  cases option with
  | capbsetRead =>
    simp only [capTaskPrctl] at h
    split at h <;> cases h
    exact hsame
  | capbsetDrop =>
    obtain ⟨new', hdrop, h⟩ := ok_of_bind h
    cases h
    obtain ⟨-, hdrop⟩ := ok_of_guard hdrop
    split at hdrop <;> cases hdrop
    exact ⟨hc, hsame.permitted_le, hsame.inheritable_le, caps_capLower_subset _ _⟩
  | setSecurebits =>
    simp only [capTaskPrctl] at h
    split at h <;> cases h
    exact hsame
  | getSecurebits =>
    cases h
    exact hsame
  | getKeepcaps =>
    cases h
    exact hsame
  | setKeepcaps =>
    obtain ⟨-, h⟩ := ok_of_guard h
    obtain ⟨-, h⟩ := ok_of_guard h
    split at h <;> cases h <;> exact hsame
  | other => exact nomatch h

section Setuid

structure Confined (old new : Cred) : Prop where
  effective_subset : new.capEffective.caps ⊆ new.capPermitted.caps
  permitted_subset : new.capPermitted.caps ⊆ old.capPermitted.caps
  inheritable_eq : new.capInheritable = old.capInheritable
  bset_eq : new.capBset = old.capBset

variable {old new : Cred}

theorem Confined.attenuates (h : Confined old new) : Attenuates old.sets new.sets where
  effective_le := h.effective_subset
  permitted_le := h.permitted_subset.trans (le_sup_left.trans le_sup_left)
  inheritable_le := by
    simp only [Cred.sets, h.inheritable_eq]
    exact le_sup_left
  bounding_le := by simp only [Cred.sets, h.bset_eq, le_refl]

theorem Confined.withEffective (h : Confined old new) {effective : KernelCap}
    (he : effective.caps ⊆ new.capPermitted.caps) :
    Confined old { new with capEffective := effective } :=
  ⟨he, h.permitted_subset, h.inheritable_eq, h.bset_eq⟩

theorem empty_subset_caps (c : KernelCap) : capEmptySet.caps ⊆ c.caps := by
  rw [caps_capEmptySet]
  exact empty_subset _

theorem capEmulateSetxuid_confined (h : Confined old new) : Confined old (capEmulateSetxuid new old) := by
  unfold capEmulateSetxuid
  -- each of the three fix-ups keeps what the next one starts from
  extract_lets new₁ new₂
  have h₁ : Confined old new₁ := by
    unfold new₁
    split
    · exact ⟨empty_subset_caps _, empty_subset_caps _, h.inheritable_eq, h.bset_eq⟩
    · exact h
  have h₂ : Confined old new₂ := by
    unfold new₂
    split
    · exact h₁.withEffective (empty_subset_caps _)
    · exact h₁
  split
  · exact h₂.withEffective le_rfl
  · exact h₂

theorem capTaskFixSetuid_confined (h : Confined old new) (flags : SetidFlags) :
    Confined old (capTaskFixSetuid new old flags) := by
  have hids : Confined old (if issecure old secureNoSetuidFixup then new else capEmulateSetxuid new old) := by
    split
    · exact h
    · exact capEmulateSetxuid_confined h
  cases flags with
  | re => exact hids
  | id => exact hids
  | res => exact hids
  | fs =>
    dsimp -zeta only [capTaskFixSetuid]
    split
    · exact h
    · extract_lets new₁
      have h₁ : Confined old new₁ := by
        unfold new₁
        split
        · refine h.withEffective ?_
          rw [capDropFsSet, caps_capDrop]
          exact sdiff_subset.trans h.effective_subset
        · exact h
      split
      · refine h₁.withEffective ?_
        rw [capRaiseFsSet, caps_capCombine, caps_capIntersect]
        exact union_subset h₁.effective_subset inter_subset_left
      · exact h₁

variable (hc : old.capEffective.caps ⊆ old.capPermitted.caps)
include hc

theorem changeUids_attenuates (uid euid suid fsuid : BitVec 32) (flags : SetidFlags) :
    Attenuates old.sets (changeUids old uid euid suid fsuid flags).sets := by
  have h : Confined old { old with uid := uid, euid := euid, suid := suid, fsuid := fsuid } :=
    ⟨hc, le_rfl, rfl, rfl⟩
  exact (capTaskFixSetuid_confined h flags).attenuates

variable {setUser : Except Errno Unit}

theorem setuid_attenuates {uid : BitVec 32} (h : setuid old uid setUser = .ok new) :
    Attenuates old.sets new.sets := by
  unfold setuid at h
  split at h
  · cases ok_of_when h
    exact changeUids_attenuates hc _ _ _ _ _
  · obtain ⟨-, h⟩ := ok_of_guard h
    cases h
    exact changeUids_attenuates hc _ _ _ _ _

theorem setreuid_attenuates {ruid euid : BitVec 32} (h : setreuid old ruid euid setUser = .ok new) :
    Attenuates old.sets new.sets := by
  unfold setreuid at h
  cases ok_of_when (ok_of_when (ok_of_when h))
  exact changeUids_attenuates hc _ _ _ _ _

theorem setresuid_attenuates {ruid euid suid : BitVec 32}
    (h : setresuid old ruid euid suid setUser = .ok new) : Attenuates old.sets new.sets := by
  unfold setresuid at h
  cases ok_of_when (ok_of_when h)
  exact changeUids_attenuates hc _ _ _ _ _

theorem setfsuid_attenuates (uid : BitVec 32) : Attenuates old.sets (setfsuid old uid).sets := by
  unfold setfsuid
  split
  · exact changeUids_attenuates hc _ _ _ _ _
  · exact .refl hc

end Setuid

section Execve

variable {old : Cred} {bprm bprm' : Bprm}

/-- The inheritable and the bounding set are those of the caller while an execution is prepared. -/
structure Proposed (old : Cred) (bprm : Bprm) : Prop where
  inheritable_eq : bprm.cred.capInheritable = old.capInheritable
  bset_eq : bprm.cred.capBset = old.capBset

theorem bprmCapsFromVfsCaps_spec {caps : CpuVfsCapData} {effective : Bool}
    (h : bprmCapsFromVfsCaps caps bprm = .ok (bprm', effective)) :
    ∃ permitted : KernelCap, bprm' = { bprm with cred := { bprm.cred with capPermitted := permitted } } ∧
      permitted.caps ⊆ bprm.cred.capBset.caps ∪ bprm.cred.capInheritable.caps := by
  unfold bprmCapsFromVfsCaps at h
  dsimp only at h
  split at h
  · exact nomatch h
  · cases h
    refine ⟨_, rfl, ?_⟩
    change (capCombine (capIntersect _ caps.permitted) (capIntersect _ caps.inheritable)).caps ⊆ _
    rw [caps_capCombine, caps_capIntersect, caps_capIntersect]
    exact union_subset_union inter_subset_left inter_subset_left

theorem getFileCaps_spec {fileCapsEnabled effective : Bool}
    (h : getFileCaps fileCapsEnabled bprm = .ok (bprm', effective)) :
    ∃ permitted : KernelCap,
      bprm' = { bprm with cred := { bprm.cred with capPermitted := permitted }, capEffective := false } ∧
      permitted.caps ⊆ bprm.cred.capBset.caps ∪ bprm.cred.capInheritable.caps := by
  have hclear : ∃ permitted : KernelCap, bprmClearCaps bprm =
      { bprm with cred := { bprm.cred with capPermitted := permitted }, capEffective := false } ∧
      permitted.caps ⊆ bprm.cred.capBset.caps ∪ bprm.cred.capInheritable.caps := by
    refine ⟨capEmptySet, rfl, ?_⟩
    rw [caps_capEmptySet]
    exact empty_subset _
  unfold getFileCaps at h
  dsimp only at h
  split at h
  · cases h
    exact hclear
  split at h
  · cases h
    exact hclear
  split at h
  · split at h <;> cases h
    exact hclear
  · exact bprmCapsFromVfsCaps_spec h

theorem rootCaps_subset {new : Cred} {effective : Bool}
    (h : new.capPermitted.caps ⊆ old.capBset.caps ∪ old.capInheritable.caps) :
    (rootCaps old new effective).1.caps ⊆ old.capBset.caps ∪ old.capInheritable.caps := by
  unfold rootCaps
  split
  · exact h
  split
  · exact h
  split
  · rw [caps_capCombine]
  · exact h

/-- A downgrade takes away and gives nothing; a flagged execution keeps to the old permitted set. -/
theorem downgrade_spec (old new : Cred) (unsafeFlags : BitVec 32) :
    (downgrade old new unsafeFlags).capInheritable = new.capInheritable ∧
    (downgrade old new unsafeFlags).capBset = new.capBset ∧
    (downgrade old new unsafeFlags).capPermitted.caps ⊆ new.capPermitted.caps ∧
    (flaggedUnsafe unsafeFlags →
      (downgrade old new unsafeFlags).capPermitted.caps ⊆ old.capPermitted.caps) := by
  unfold downgrade
  split
  · cases capable old capSetuid <;> simp [inter_subset_left, inter_subset_right]
  · rename_i hnot
    refine ⟨rfl, rfl, le_rfl, fun hflag => ?_⟩
    have hsub : capIssubset new.capPermitted old.capPermitted = true := by
      by_contra hno
      exact hnot ⟨.inr (.inr hno), hflag⟩
    exact (capIssubset_iff _ _).mp hsub

/-- The credentials an execution proposes, for a task that is not the init process. -/
structure Executed (old : Cred) (unsafeFlags : BitVec 32) (bprm : Bprm) : Prop extends
    Proposed old bprm where
  flags_eq : bprm.unsafeFlags = unsafeFlags
  effective_subset : bprm.cred.capEffective.caps ⊆ bprm.cred.capPermitted.caps
  permitted_subset : bprm.cred.capPermitted.caps ⊆ old.capBset.caps ∪ old.capInheritable.caps
  permitted_old : flaggedUnsafe unsafeFlags → bprm.cred.capPermitted.caps ⊆ old.capPermitted.caps

variable {fileCapsEnabled : Bool}

theorem capBprmSetCreds_executed (hbprm : Proposed old bprm)
    (h : capBprmSetCreds fileCapsEnabled false old bprm = .ok bprm') :
    Executed old bprm.unsafeFlags bprm' := by
  obtain ⟨⟨bprm₁, effective⟩, hfile, h⟩ := ok_of_bind h
  obtain ⟨permitted, rfl, hpermitted⟩ := getFileCaps_spec hfile
  rw [hbprm.bset_eq, hbprm.inheritable_eq] at hpermitted
  have hroot : (rootCaps old { bprm.cred with capPermitted := permitted } effective).1.caps ⊆
      old.capBset.caps ∪ old.capInheritable.caps := rootCaps_subset hpermitted
  simp only [Bool.false_eq_true, if_false] at h
  generalize rootCaps old { bprm.cred with capPermitted := permitted } effective = root at h hroot
  obtain ⟨hi, hb, hp, hflagged⟩ := downgrade_spec old
    { bprm.cred with capPermitted := root.1 } bprm.unsafeFlags
  cases ok_of_when h
  refine ⟨⟨hi.trans hbprm.inheritable_eq, hb.trans hbprm.bset_eq⟩, rfl, ?_, hp.trans hroot, hflagged⟩
  split
  · exact le_rfl
  · exact empty_subset_caps _

theorem prepareBinprm_executed (hbprm : Proposed old bprm)
    (h : prepareBinprm fileCapsEnabled false old bprm = .ok bprm') :
    Executed old bprm.unsafeFlags bprm' := by
  unfold prepareBinprm at h
  obtain ⟨bprm₁, hset, h⟩ := ok_of_bind (ok_of_when h)
  obtain ⟨-, -, h⟩ := ok_of_bind h
  cases h
  have hdone := capBprmSetCreds_executed (by exact ⟨hbprm.inheritable_eq, hbprm.bset_eq⟩) hset
  exact hdone

variable {unsafeFlags : BitVec 32}

theorem interpreters_executed {files : List File} (hbprm : Executed old unsafeFlags bprm)
    (h : files.foldlM (fun bprm file => prepareBinprm fileCapsEnabled false old { bprm with file := file })
      bprm = .ok bprm') :
    Executed old unsafeFlags bprm' := by
  induction files generalizing bprm with
  | nil =>
    cases h
    exact hbprm
  | cons file files ih =>
    obtain ⟨bprm₁, hprep, h⟩ := ok_of_bind h
    have hdone := prepareBinprm_executed (by exact ⟨hbprm.inheritable_eq, hbprm.bset_eq⟩) hprep
    rw [hbprm.flags_eq] at hdone
    exact ih hdone h

theorem execve_executed {new : Cred} {file : File} {interpreters : List File} {loaded : Except Errno Unit}
    (h : execve fileCapsEnabled false old file interpreters unsafeFlags loaded = .ok new) :
    ∃ bprm, Executed old unsafeFlags bprm ∧ bprm.cred = new := by
  obtain ⟨bprm₁, hfirst, h⟩ := ok_of_bind h
  obtain ⟨bprm₂, hrest, h⟩ := ok_of_bind h
  obtain ⟨-, -, h⟩ := ok_of_bind h
  cases h
  exact ⟨bprm₂, interpreters_executed (prepareBinprm_executed ⟨rfl, rfl⟩ hfirst) hrest, rfl⟩

theorem Executed.attenuates (h : Executed old unsafeFlags bprm) :
    Attenuates old.sets bprm.cred.sets where
  effective_le := h.effective_subset
  permitted_le := h.permitted_subset.trans (union_subset le_sup_right (le_sup_right.trans le_sup_left))
  inheritable_le := by
    simp only [Cred.sets, h.inheritable_eq]
    exact le_sup_left
  bounding_le := by simp only [Cred.sets, h.bset_eq, le_refl]

end Execve

section Runs

variable {fileCapsEnabled : Bool}

theorem perform_attenuates (current : Cred) (call : Call)
    (hc : current.sets.effective ≤ current.sets.permitted) :
    Attenuates current.sets (perform fileCapsEnabled false current call).sets := by
  unfold perform
  cases hreq : request fileCapsEnabled false current call with
  | error e => exact .refl hc
  | ok new =>
    cases call with
    | capset effective inheritable permitted => exact capCapset_attenuates hreq
    | prctl option arg2 =>
      obtain ⟨r, hprctl, hreq⟩ := ok_of_bind hreq
      cases hreq
      exact capTaskPrctl_attenuates hc hprctl
    | setuid uid setUser => exact setuid_attenuates hc hreq
    | setreuid ruid euid setUser => exact setreuid_attenuates hc hreq
    | setresuid ruid euid suid setUser => exact setresuid_attenuates hc hreq
    | setfsuid uid =>
      cases hreq
      exact setfsuid_attenuates hc uid
    | execve file interpreters unsafeFlags loaded =>
      obtain ⟨bprm, hdone, rfl⟩ := execve_executed hreq
      exact hdone.attenuates

theorem run_append (current : Cred) (before after : List Call) :
    run fileCapsEnabled false current (before ++ after) =
      run fileCapsEnabled false (run fileCapsEnabled false current before) after :=
  List.foldl_append

theorem run_attenuates {current : Cred} (hc : current.sets.effective ≤ current.sets.permitted)
    (calls : List Call) :
    Attenuates current.sets (run fileCapsEnabled false current calls).sets :=
  foldl_attenuates perform_attenuates hc calls

/-- Capability bookkeeping of a task other than the init process: nothing is effective that is not
permitted, what has left all three sets is gone for good, and a flagged execution raises nothing. -/
theorem capabilities_kept {current : Cred} (hc : current.capEffective.caps ⊆ current.capPermitted.caps) :
    (∀ calls, (run fileCapsEnabled false current calls).capEffective.caps ⊆
      (run fileCapsEnabled false current calls).capPermitted.caps) ∧
    (∀ before after flag, flag ∉ (run fileCapsEnabled false current before).sets.authority →
      flag ∉ (run fileCapsEnabled false current (before ++ after)).sets.authority) ∧
    ∀ before file interpreters unsafeFlags loaded, flaggedUnsafe unsafeFlags →
      (run fileCapsEnabled false current
          (before ++ [.execve file interpreters unsafeFlags loaded])).capPermitted.caps ⊆
        (run fileCapsEnabled false current before).capPermitted.caps := by
  have hrun : ∀ calls, Attenuates current.sets (run fileCapsEnabled false current calls).sets :=
    run_attenuates hc
  refine ⟨fun calls => (hrun calls).effective_le, ?_, ?_⟩
  · intro before after flag hgone hback
    rw [run_append] at hback
    exact hgone ((run_attenuates (hrun before).effective_le after).authority_le hback)
  · intro before file interpreters unsafeFlags loaded hflagged
    rw [run_append]
    generalize run fileCapsEnabled false current before = old
    change (perform fileCapsEnabled false old _).capPermitted.caps ⊆ _
    unfold perform
    cases hreq : request fileCapsEnabled false old (.execve file interpreters unsafeFlags loaded) with
    | error e => exact le_rfl
    | ok new =>
      obtain ⟨bprm, hdone, rfl⟩ := execve_executed hreq
      exact hdone.permitted_old hflagged

def plainUser : Cred :=
  { uid := 1000, gid := 1000, suid := 1000, sgid := 1000, euid := 1000, egid := 1000, fsuid := 1000,
    fsgid := 1000, securebits := 0, capInheritable := capEmptySet, capPermitted := capEmptySet,
    capEffective := capEmptySet, capBset := capFullSet }

def setuidRootFile : File :=
  { nosuid := false, hasFop := true, mode := sIsuid, iUid := 0, iGid := 0, getxattr := none,
    audit := .ok (), kernelRead := .ok () }

/-- Set-uid root gives a plain user everything, unless the execution is flagged. -/
example : capIssubset capFullSet
    (run true false plainUser [.execve setuidRootFile [] 0 (.ok ())]).capEffective = true := by
  decide +kernel

theorem capabilities_kept_setuidRoot : plainUser.capEffective.caps ⊆ plainUser.capPermitted.caps ∧
    (run true false plainUser ([] ++ [.execve setuidRootFile [] 2 (.ok ())])).capPermitted.caps ⊆
      (run true false plainUser []).capPermitted.caps :=
  ⟨le_rfl, (capabilities_kept le_rfl).2.2 [] setuidRootFile [] 2 (.ok ()) (by decide)⟩

end Runs

end VDLinux.Security
