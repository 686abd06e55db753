import VDLinux.Base.WaitGraph
import VDLinux.Fs.PosixLock

namespace VDLinux.Fs

open Base.WaitGraph Relation List

variable {ω : Type}

section Blocked

theorem locksWakeUpBlocks_subset (addr : ℕ) (blocked : List (Waiter ω)) :
    locksWakeUpBlocks addr blocked ⊆ blocked :=
  fun _ hw => (mem_filter.mp hw).1

theorem wakeOption_subset (addr : Option ℕ) (blocked : List (Waiter ω)) :
    wakeOption addr blocked ⊆ blocked := by
  cases addr with
  | none => exact List.Subset.refl _
  | some addr => exact locksWakeUpBlocks_subset addr blocked

def Move.scan : Move ω → Scan ω
  | .onward c => c
  | .halt c => c

variable (c : Scan ω)

variable (fl : FileLock ω)

theorem merge_blocked : (merge c fl).blocked ⊆ c.blocked := by
  unfold merge
  dsimp only
  split
  · exact locksWakeUpBlocks_subset _ _
  · exact List.Subset.refl _

theorem replace_blocked : (replace c fl).blocked ⊆ c.blocked := by
  unfold replace
  split
  · exact locksWakeUpBlocks_subset _ _
  · exact locksWakeUpBlocks_subset _ _

theorem visitSame_blocked : (visitSame c fl).scan.blocked ⊆ c.blocked := by
  unfold visitSame
  split_ifs
  · exact List.Subset.refl _
  · exact List.Subset.refl _
  · exact merge_blocked c fl

theorem visitOverlap_blocked : (visitOverlap c fl).scan.blocked ⊆ c.blocked := by
  unfold visitOverlap
  split_ifs
  · exact List.Subset.refl _
  · exact replace_blocked c fl
  · exact List.Subset.refl _

theorem visit_blocked : (visit c fl).scan.blocked ⊆ c.blocked := by
  unfold visit
  split
  · exact visitSame_blocked c fl
  · unfold visitOther
    split_ifs
    · exact List.Subset.refl _
    · exact List.Subset.refl _
    · exact visitOverlap_blocked (markOverlap c fl) fl

theorem finish_blocked (q : Request ω) (newFl newFl2 : Bool) (addr : ℕ) (c : Scan ω)
    (rest : List (FileLock ω)) :
    (finish q newFl newFl2 addr c rest).1.2 ⊆ c.blocked := by
  unfold finish
  split
  · exact List.Subset.refl _
  split
  · exact List.Subset.refl _
  split
  · exact List.Subset.refl _
  · exact List.Subset.trans (wakeOption_subset _ _) (wakeOption_subset _ _)

variable [DecidableEq ω]

theorem scan_blocked (c : Scan ω) (locks : List (FileLock ω)) :
    (scan c locks).1.blocked ⊆ c.blocked := by
  induction locks generalizing c with
  | nil => exact List.Subset.refl _
  | cons fl tl ih =>
    have hvisit := visit_blocked c fl
    unfold scan
    split
    · cases hmove : visit c fl with
      | onward c' =>
        rw [hmove] at hvisit
        exact List.Subset.trans (ih c') hvisit
      | halt c' =>
        rw [hmove] at hvisit
        exact hvisit
    · exact List.Subset.refl _

theorem conflicting_owner {s : LockState ω} {q : Request ω} {fl : FileLock ω}
    (h : conflicting s q = some fl) : q.owner ≠ fl.owner := by
  unfold conflicting at h
  split at h
  · cases h
  · have hconf := List.find?_some h
    intro heq
    simp only [posixLocksConflict, if_pos heq, Bool.false_eq_true] at hconf

/-- All that a request can do to the waiters: wake some up, or wait itself for a lock whose owner does
not, as far as the detector sees, wait for it. -/
theorem posixLockFile_blocked (s : LockState ω) (q : Request ω) :
    (posixLockFile s q).1.blocked ⊆ s.blocked ∨
      ∃ addr owner, q.owner ≠ owner ∧ posixLocksDeadlock s.blocked q.owner owner = false ∧
        (posixLockFile s q).1.blocked = ⟨q.owner, addr, owner⟩ :: s.blocked := by
  unfold posixLockFile
  cases hconf : conflicting s q with
  | none =>
    left
    dsimp only
    split
    · exact List.Subset.refl _
    · exact List.Subset.trans (finish_blocked _ _ _ _ _ _) (scan_blocked _ _)
  | some fl =>
    dsimp only
    by_cases hsleep : q.sleep
    · cases hdead : posixLocksDeadlock s.blocked q.owner fl.owner with
      | true => left; simp [hsleep]
      | false =>
        right
        exact ⟨fl.addr, fl.owner, conflicting_owner hconf, hdead, by simp [hsleep]⟩
    · left
      simp [hsleep]

end Blocked

section Detector

def WaitsFor (blocked : List (Waiter ω)) (a b : ω) : Prop :=
  ∃ w ∈ blocked, w.owner = a ∧ w.nextOwner = b

theorem waitsFor_mono {b₁ b₂ : List (Waiter ω)} (h : b₁ ⊆ b₂) (x y : ω)
    (hxy : WaitsFor b₁ x y) : WaitsFor b₂ x y := by
  obtain ⟨w, hw, howner⟩ := hxy
  exact ⟨w, h hw, howner⟩

def OneWait (blocked : List (Waiter ω)) : Prop := (blocked.map Waiter.owner).Nodup

variable [DecidableEq ω]

instance (blocked : List (Waiter ω)) : Decidable (OneWait blocked) :=
  inferInstanceAs (Decidable (List.Nodup _))

variable {blocked : List (Waiter ω)}

theorem whatOwner_waitsFor {a b : ω}
    (h : whatOwnerIsWaitingFor blocked a = some b) : WaitsFor blocked a b := by
  obtain ⟨w, hw, hb⟩ := Option.map_eq_some_iff.mp h
  exact ⟨w, List.mem_of_find?_eq_some hw, by simpa using List.find?_some hw, hb⟩

theorem waitsFor_whatOwner (hone : OneWait blocked) {a b : ω}
    (h : WaitsFor blocked a b) : whatOwnerIsWaitingFor blocked a = some b := by
  obtain ⟨w, hw, rfl, rfl⟩ := h
  cases hfind : blocked.find? (fun v => v.owner = w.owner) with
  | none => simpa using List.find?_eq_none.mp hfind w hw
  | some v =>
    have howner : v.owner = w.owner := by simpa using List.find?_some hfind
    have hv : v = w := inj_on_of_nodup_map hone (List.mem_of_find?_eq_some hfind) hw howner
    rw [whatOwnerIsWaitingFor, hfind, hv, Option.map_some]

theorem deadlockLoop_finds {caller : ω} {n rounds : ℕ} {owner : ω}
    (h : after (whatOwnerIsWaitingFor blocked) (n + 1) owner = some caller) (hn : n < rounds) :
    deadlockLoop blocked caller rounds owner = true := by
  induction rounds generalizing n owner with
  | zero => omega
  | succ rounds ih =>
    obtain ⟨next, hnext, hrest⟩ := Option.bind_eq_some_iff.mp h
    simp only [deadlockLoop, hnext]
    split
    · rfl
    next hne =>
    cases n with
    | zero => exact absurd (Option.some.inj hrest).symm hne
    | succ n => exact ih hrest (by omega)

theorem not_deadlock_no_path {O : Finset ω} (hO : O.card ≤ maxDeadlkIterations + 2) (hone : OneWait blocked) (hmem : ∀ w ∈ blocked, w.owner ∈ O)
    (hacyc : Acyclic (WaitsFor blocked)) {caller owner : ω} (hcaller : caller ∈ O)
    (hne : caller ≠ owner) (hdead : posixLocksDeadlock blocked caller owner = false) :
    ¬ReflTransGen (WaitsFor blocked) owner caller := by
  intro hpath
  have hedge : WaitsFor blocked = fun a b => whatOwnerIsWaitingFor blocked a = some b := by
    funext a b
    exact propext ⟨waitsFor_whatOwner hone, whatOwner_waitsFor⟩
  rw [hedge] at hpath hacyc
  obtain heq | htrans := reflTransGen_iff_eq_or_transGen.mp hpath
  · exact hne heq
  obtain ⟨n, hn⟩ := transGen_iff_after.mp htrans
  have hlt : n + 1 < O.card := by
    refine length_lt_card hacyc hn fun i hi c hc => ?_
    by_cases hlast : i = n + 1
    · rw [hlast, hn] at hc
      exact Option.some.inj hc ▸ hcaller
    · -- every owner before the last one waits
      obtain ⟨k, hk⟩ : ∃ k, n + 1 = i + (k + 1) := ⟨n - i, by omega⟩
      rw [hk, after_trans hc] at hn
      obtain ⟨d, hd, -⟩ := Option.bind_eq_some_iff.mp hn
      obtain ⟨w, hw, hwc, -⟩ := whatOwner_waitsFor hd
      exact hwc ▸ hmem w hw
  have hfound := deadlockLoop_finds hn (show n < maxDeadlkIterations + 1 by omega)
  rw [posixLocksDeadlock, hfound] at hdead
  cases hdead

end Detector

section System

structure Quiet (O : Finset ω) (blocked : List (Waiter ω)) : Prop where
  oneWait : OneWait blocked
  owner_mem : ∀ w ∈ blocked, w.owner ∈ O
  acyclic : Acyclic (WaitsFor blocked)

theorem Quiet.subset {O : Finset ω} {b₁ b₂ : List (Waiter ω)} (h : Quiet O b₂) (hsub : b₁ ⊆ b₂)
    (hone : OneWait b₁) : Quiet O b₁ where
  oneWait := hone
  owner_mem w hw := h.owner_mem w (hsub hw)
  acyclic := h.acyclic.mono (waitsFor_mono hsub)

variable [DecidableEq ω]

theorem Quiet.request {O : Finset ω} (hO : O.card ≤ maxDeadlkIterations + 2) {s : LockState ω}
    (h : Quiet O s.blocked) {q : Request ω} (hq : q.owner ∈ O)
    (hone : OneWait (posixLockFile s q).1.blocked) : Quiet O (posixLockFile s q).1.blocked := by
  obtain hsub | ⟨addr, owner, hne, hdead, hcons⟩ := posixLockFile_blocked s q
  · exact h.subset hsub hone
  · refine ⟨hone, fun w hw => ?_, ?_⟩
    · rw [hcons] at hw
      cases hw with
      | head => exact hq
      | tail _ hw => exact h.owner_mem w hw
    · refine h.acyclic.insert (p := q.owner) (q := owner) (fun a b hab => ?_)
        (not_deadlock_no_path hO h.oneWait h.owner_mem h.acyclic hq hne hdead)
      rw [hcons] at hab
      obtain ⟨w, hw, hwa, hwb⟩ := hab
      cases hw with
      | head => exact .inr ⟨hwa.symm, hwb.symm⟩
      | tail _ hw => exact .inl ⟨w, hw, hwa, hwb⟩

variable {ι : Type} [DecidableEq ι]

structure LockSystem (ι ω : Type) where
  inodes : ι → List (FileLock ω)
  blocked : List (Waiter ω)
  fresh : ℕ

inductive LockEvent (ι ω : Type)
  | request (i : ι) (q : Request ω)
  | interrupt (owner : ω)

namespace LockSystem

def init : LockSystem ι ω := ⟨fun _ => [], [], 0⟩

def step (s : LockSystem ι ω) : LockEvent ι ω → LockSystem ι ω
  | .request i q =>
    let r := (posixLockFile ⟨s.inodes i, s.blocked, s.fresh⟩ q).1
    ⟨Function.update s.inodes i r.locks, r.blocked, r.fresh⟩
  | .interrupt owner => { s with blocked := s.blocked.filter fun w => w.owner ≠ owner }

/-- The states that requests of the owners in `O` lead to, as long as no owner waits for two locks. -/
inductive Reachable (O : Finset ω) : LockSystem ι ω → Prop
  | init : Reachable O init
  | request {s : LockSystem ι ω} (i : ι) (q : Request ω) (hs : Reachable O s) (hq : q.owner ∈ O)
      (hone : OneWait (s.step (.request i q)).blocked) : Reachable O (s.step (.request i q))
  | interrupt {s : LockSystem ι ω} (owner : ω) (hs : Reachable O s) :
      Reachable O (s.step (.interrupt owner))

theorem Reachable.quiet {O : Finset ω} (hO : O.card ≤ maxDeadlkIterations + 2)
    {s : LockSystem ι ω} (h : Reachable O s) : Quiet O s.blocked := by
  induction h with
  | init =>
    refine ⟨nodup_nil, fun w hw => absurd hw not_mem_nil, fun a ha => ?_⟩
    obtain ⟨b, ⟨w, hw, -⟩, -⟩ := TransGen.head'_iff.mp ha
    exact absurd hw not_mem_nil
  | request i q hs hq hone ih => exact ih.request hO hq hone
  | interrupt owner hs ih =>
    exact ih.subset (fun w hw => (mem_filter.mp hw).1)
      (ih.oneWait.sublist (filter_sublist.map Waiter.owner))

/-- As long as no more than twelve owners make requests, no owners wait for each other in a cycle. -/
theorem waits_acyclic {O : Finset ω} (hO : O.card ≤ 12) {s : LockSystem ι ω}
    (h : Reachable O s) : ¬∃ a, TransGen (WaitsFor s.blocked) a a := by
  rintro ⟨a, ha⟩
  exact (h.quiet hO).acyclic a ha

def run? (s : LockSystem ι ω) : List (ι × Request ω) → Option (LockSystem ι ω)
  | [] => some s
  | (i, q) :: qs =>
    if OneWait (s.step (.request i q)).blocked then run? (s.step (.request i q)) qs else none

theorem Reachable.run {O : Finset ω} {s s' : LockSystem ι ω} {qs : List (ι × Request ω)}
    (h : Reachable O s) (hrun : s.run? qs = some s') (hqs : ∀ p ∈ qs, p.2.owner ∈ O) :
    Reachable O s' := by
  induction qs generalizing s with
  | nil => exact Option.some.inj hrun ▸ h
  | cons p qs ih =>
    rw [run?] at hrun
    split at hrun
    next hone =>
      exact ih (h.request p.1 p.2 (hqs p mem_cons_self) hone) hrun
        fun p' hp' => hqs p' (mem_cons_of_mem _ hp')
    · cases hrun

def writeByte (owner : ω) (byte : ℤ) : Request ω where
  owner := owner
  type := .wrlck
  start := byte
  stop := byte
  access := false
  sleep := true
  mustExist := false
  newFl := true
  newFl2 := true

/-- Each of `n` owners locks a byte of its own and then asks for the byte of the next one. -/
def ringRun (n : ℕ) [NeZero n] : List (Unit × Request (Fin n)) :=
  (List.finRange n).map (fun o => ((), writeByte o o.val)) ++
    (List.finRange n).map fun o => ((), writeByte o (o + 1).val)

theorem waits_acyclic_two :
    (init.run? (ringRun 2)).map (fun s : LockSystem Unit (Fin 2) => s.blocked.length) = some 1 ∧
      ∀ s : LockSystem Unit (Fin 2), init.run? (ringRun 2) = some s →
        ¬∃ a, TransGen (WaitsFor s.blocked) a a :=
  ⟨by decide +kernel, fun _ hs => waits_acyclic (O := Finset.univ) (by decide)
    (Reachable.init.run hs fun _ _ => Finset.mem_univ _)⟩

theorem thirteen_owners_deadlock : ∃ s : LockSystem Unit (Fin 13), Reachable Finset.univ s ∧
      ∃ a, TransGen (WaitsFor s.blocked) a a := by
  have hrun : ((init.run? (ringRun 13)).bind fun s : LockSystem Unit (Fin 13) =>
      after (whatOwnerIsWaitingFor s.blocked) 13 0) = some 0 := by decide +kernel
  obtain ⟨s, hs, hloop⟩ := Option.bind_eq_some_iff.mp hrun
  refine ⟨s, Reachable.init.run hs fun _ _ => Finset.mem_univ _, 0, ?_⟩
  exact TransGen.mono (fun _ _ => whatOwner_waitsFor) 0 0 (transGen_iff_after.mpr ⟨12, hloop⟩)

end LockSystem

end System

end VDLinux.Fs
