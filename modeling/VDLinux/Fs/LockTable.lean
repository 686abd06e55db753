import VDLinux.Base.Runs
import VDLinux.Fs.LockMap

namespace VDLinux.Fs

open Base.Runs List

variable {ω : Type}

structure Request.Valid (q : Request ω) : Prop where
  nonneg : 0 ≤ q.start
  le : q.start ≤ q.stop
  le_max : q.stop ≤ offsetMax

theorem inv_start {pre mine post : List (FileLock ω)} {q : Request ω} {s : LockState ω}
    (hneat : Neat q.owner mine) (hq : q.Valid) (hdist : Distinct s.fresh (pre ++ mine ++ post)) :
    Inv pre post mine q s.fresh
      ⟨pre, ⟨s.fresh, q.owner, q.type, q.start, q.stop⟩, false, none, none, s.blocked⟩ [] mine false where
  ranges :=
    { owner_eq := rfl
      type_eq := rfl
      neat := hneat
      start_le := Int.le_refl _
      le_stop := Int.le_refl _
      nonneg := hq.nonneg
      le_max := hq.le_max
      left_ok := .clear (by simp)
      outside := fun _ _ _ => Iff.rfl
      inside := fun _ hx => .inl hx }
  done_eq := by simp
  caller _ := ⟨rfl, nofun⟩
  onList := nofun
  unlock _ _ := rfl
  right_eq := rfl
  ahead := .inl ⟨rfl, rfl⟩
  distinct := hdist

variable [DecidableEq ω]

def held (locks : List (FileLock ω)) (o : ω) (x : ℤ) : Option LockType :=
  (locks.find? fun fl => fl.owner = o && fl.start ≤ x && x ≤ fl.stop).map FileLock.type

def setRange (q : Request ω) (m : ω → ℤ → Option LockType) (o : ω) (x : ℤ) : Option LockType :=
  if o = q.owner ∧ q.start ≤ x ∧ x ≤ q.stop then (if q.type = .unlck then none else some q.type)
  else m o x

def ofOwner (locks : List (FileLock ω)) (o : ω) : List (FileLock ω) :=
  locks.filter fun fl => fl.owner = o

structure WellFormed (locks : List (FileLock ω)) : Prop where
  contiguous : Contiguous (locks.map FileLock.owner)
  neat : ∀ o, Neat o (ofOwner locks o)
  exclusive : ∀ a ∈ locks, ∀ b ∈ locks, a.owner ≠ b.owner → a.start ≤ b.stop → b.start ≤ a.stop →
    a.type ≠ .wrlck ∧ b.type ≠ .wrlck

theorem mem_ofOwner {locks : List (FileLock ω)} {o : ω} {a : FileLock ω} :
    a ∈ ofOwner locks o ↔ a ∈ locks ∧ a.owner = o := by
  simp [ofOwner]

theorem held_eq_some_iff {locks : List (FileLock ω)} {o : ω} (h : Neat o (ofOwner locks o)) {x : ℤ}
    {t : LockType} : held locks o x = some t ↔ Holds (ofOwner locks o) x t := by
  constructor
  · intro hheld
    obtain ⟨a, ha, rfl⟩ := Option.map_eq_some_iff.mp hheld
    have hprop := List.find?_some ha
    simp only [Bool.and_eq_true, decide_eq_true_eq] at hprop
    exact ⟨a, mem_ofOwner.mpr ⟨List.mem_of_find?_eq_some ha, hprop.1.1⟩, ⟨hprop.1.2, hprop.2⟩, rfl⟩
  · rintro hholds
    obtain ⟨a, ha, hax, -⟩ := id hholds
    cases hfind : locks.find? (fun fl => fl.owner = o && fl.start ≤ x && x ≤ fl.stop) with
    | none =>
      have := List.find?_eq_none.mp hfind a (mem_ofOwner.mp ha).1
      simp [(mem_ofOwner.mp ha).2, hax.1, hax.2] at this
    | some b =>
      have hprop := List.find?_some hfind
      simp only [Bool.and_eq_true, decide_eq_true_eq] at hprop
      have hb : Holds (ofOwner locks o) x b.type :=
        ⟨b, mem_ofOwner.mpr ⟨List.mem_of_find?_eq_some hfind, hprop.1.1⟩, ⟨hprop.1.2, hprop.2⟩, rfl⟩
      rw [held, hfind, Option.map_some, holds_unique h.sorted hb hholds]

section Apply

variable {pre mine mine' post : List (FileLock ω)} {q : Request ω}

structure Split (o : ω) (pre mine post : List (FileLock ω)) : Prop where
  pre_ne : ∀ a ∈ pre, a.owner ≠ o
  mine_eq : ∀ a ∈ mine, a.owner = o
  post_ne : ∀ a ∈ post, a.owner ≠ o

theorem Split.ofOwner_self {o : ω} (h : Split o pre mine post) :
    ofOwner (pre ++ mine ++ post) o = mine := by
  have hpre : pre.filter (fun fl => fl.owner = o) = [] :=
    filter_eq_nil_iff.mpr fun a ha => by simpa using h.pre_ne a ha
  have hpost : post.filter (fun fl => fl.owner = o) = [] :=
    filter_eq_nil_iff.mpr fun a ha => by simpa using h.post_ne a ha
  have hmine : mine.filter (fun fl => fl.owner = o) = mine :=
    filter_eq_self.mpr fun a ha => by simpa using h.mine_eq a ha
  rw [ofOwner, filter_append, filter_append, hpre, hpost, hmine, List.nil_append,
    append_nil]

theorem Split.ofOwner_ne {o o' : ω} (h : Split o pre mine post) (hne : o' ≠ o) :
    ofOwner (pre ++ mine ++ post) o' = ofOwner (pre ++ post) o' := by
  have hmine : mine.filter (fun fl => fl.owner = o') = [] :=
    filter_eq_nil_iff.mpr fun a ha => by simpa [h.mine_eq a ha] using hne.symm
  rw [ofOwner, ofOwner, filter_append, filter_append, filter_append, hmine,
    append_nil]

theorem exists_split {s : LockState ω} (h : WellFormed s.locks) (o : ω) :
    ∃ mine post, s.locks.dropWhile (fun fl => o ≠ fl.owner) = mine ++ post ∧
      Split o (s.locks.takeWhile fun fl => o ≠ fl.owner) mine post ∧ (mine = [] → post = []) := by
  obtain ⟨mine, post, hdrop, hmine, hpost, hlast⟩ := h.contiguous.split o
  refine ⟨mine, post, hdrop, ⟨fun a ha => ?_, hmine, hpost⟩, hlast⟩
  have := mem_takeWhile_imp ha
  exact fun heq => by simp [heq] at this

theorem applyLock_finished {s : LockState ω} (h : WellFormed s.locks)
    (hdist : Distinct s.fresh s.locks) (hq : q.Valid) :
    ∃ pre mine post, s.locks = pre ++ mine ++ post ∧ Split q.owner pre mine post ∧
      (mine = [] → post = []) ∧
      Finished pre post mine q s.fresh (applyLock s q).1.locks (applyLock s q).2 := by
  obtain ⟨mine, post, hdrop, hsplit, hlast⟩ := exists_split h q.owner
  have hlocks : s.locks = s.locks.takeWhile (fun fl => q.owner ≠ fl.owner) ++ mine ++ post := by
    rw [append_assoc, ← hdrop, takeWhile_append_dropWhile]
  refine ⟨_, mine, post, hlocks, hsplit, hlast, ?_⟩
  have hneat : Neat q.owner mine := by
    have := h.neat q.owner
    rwa [hlocks, hsplit.ofOwner_self] at this
  obtain ⟨c, D, rest, placed, hscan, hexit⟩ :=
    (inv_start (s := s) hneat hq (hlocks ▸ hdist)).scan fun fl hfl =>
      hsplit.post_ne fl (List.mem_of_mem_head? hfl)
  have hfin := hexit.finish hneat hq.le (mayNeedLocks q && q.newFl) (mayNeedLocks q && q.newFl2)
  simp only [applyLock, hdrop, hscan]
  exact hfin

def NoConflict (q : Request ω) (locks : List (FileLock ω)) : Prop :=
  q.type = .unlck ∨ ∀ fl ∈ locks, posixLocksConflict q fl = false

theorem NoConflict.shared {locks : List (FileLock ω)} (h : NoConflict q locks)
    (hq : q.type ≠ .unlck) {fl : FileLock ω} (hfl : fl ∈ locks) (hne : fl.owner ≠ q.owner)
    (hstart : q.start ≤ fl.stop) (hstop : fl.start ≤ q.stop) :
    q.type ≠ .wrlck ∧ fl.type ≠ .wrlck := by
  have hconf := h.resolve_left hq fl hfl
  simp only [posixLocksConflict, if_neg (Ne.symm hne), locksOverlap, locksConflict, hstart, hstop,
    decide_true, Bool.and_true, Bool.not_true, Bool.false_eq_true, if_false,
    Bool.or_eq_false_iff, decide_eq_false_iff_not] at hconf
  exact ⟨hconf.2, hconf.1⟩

variable (h : WellFormed (pre ++ mine ++ post))
include h

variable (hsplit : Split q.owner pre mine post)
include hsplit

theorem exclusive_apply
    (hconf : NoConflict q (pre ++ mine ++ post)) (happ : Applied q mine mine') {a b : FileLock ω}
    (ha : a ∈ mine') (hb : b ∈ pre ++ mine ++ post) (hne : b.owner ≠ q.owner) {x : ℤ}
    (hax : a.Covers x) (hbx : b.Covers x) : a.type ≠ .wrlck ∧ b.type ≠ .wrlck := by
  have hholds := (happ x a.type).mp ⟨a, ha, hax, rfl⟩
  split_ifs at hholds with hx
  · rw [hholds.2]
    exact hconf.shared hholds.1 hb hne (Int.le_trans hx.1 hbx.2) (Int.le_trans hbx.1 hx.2)
  · obtain ⟨a₀, ha₀, ha₀x, htype⟩ := hholds
    rw [← htype]
    have howner := hsplit.mine_eq a₀ ha₀
    exact h.exclusive a₀ (by simp [ha₀]) b hb (fun heq => hne (heq ▸ howner))
      (Int.le_trans ha₀x.1 hbx.2) (Int.le_trans hbx.1 ha₀x.2)

theorem wellFormed_apply
    (hlast : mine = [] → post = []) (hconf : NoConflict q (pre ++ mine ++ post))
    (hneat : Neat q.owner mine') (happ : Applied q mine mine') :
    WellFormed (pre ++ mine' ++ post) := by
  have hsplit' : Split q.owner pre mine' post :=
    ⟨hsplit.pre_ne, fun a ha => (hneat.proper a ha).owner, hsplit.post_ne⟩
  have hneat' : ∀ o, Neat o (ofOwner (pre ++ mine' ++ post) o) := by
    intro o
    by_cases ho : o = q.owner
    · subst ho
      rwa [hsplit'.ofOwner_self]
    · rw [hsplit'.ofOwner_ne ho, ← hsplit.ofOwner_ne ho]
      exact h.neat o
  have hold : ∀ a ∈ pre ++ mine' ++ post, a.owner ≠ q.owner → a ∈ pre ++ mine ++ post := by
    intro a ha hne
    have hnot : a ∉ mine' := fun ha => hne (hsplit'.mine_eq a ha)
    simp only [mem_append, hnot, or_false] at ha ⊢
    exact ha.imp_left .inl
  have hnew : ∀ a ∈ pre ++ mine' ++ post, a.owner = q.owner → a ∈ mine' := by
    intro a ha heq
    rw [← hsplit'.ofOwner_self]
    exact mem_ofOwner.mpr ⟨ha, heq⟩
  have hle : ∀ a ∈ pre ++ mine' ++ post, a.start ≤ a.stop :=
    fun a ha => ((hneat' a.owner).proper a (mem_ofOwner.mpr ⟨ha, rfl⟩)).le
  refine ⟨?_, hneat', fun a ha b hb hab hstart hstop => ?_⟩
  · have hcont := h.contiguous
    simp only [map_append] at hcont ⊢
    refine hcont.replace (o := q.owner) ?_ ?_ ?_ ?_ ?_
    · simpa using hsplit.pre_ne
    · simpa using hsplit.post_ne
    · simpa using hsplit.mine_eq
    · simpa using hsplit'.mine_eq
    · simpa using hlast
  · -- two ranges that overlap have the greater of their starts in common
    obtain ⟨x, hax, hbx⟩ : ∃ x, a.Covers x ∧ b.Covers x := by
      have := hle a ha
      have := hle b hb
      refine ⟨max a.start b.start, ⟨?_, ?_⟩, ⟨?_, ?_⟩⟩ <;> omega
    by_cases ha' : a.owner = q.owner
    · have hb' : b.owner ≠ q.owner := fun hb' => hab (ha'.trans hb'.symm)
      exact exclusive_apply h hsplit hconf happ (hnew a ha ha') (hold b hb hb') hb' hax hbx
    · by_cases hb' : b.owner = q.owner
      · exact (exclusive_apply h hsplit hconf happ (hnew b hb hb') (hold a ha ha') ha' hbx hax).symm
      · exact h.exclusive a (hold a ha ha') b (hold b hb hb') hab hstart hstop

theorem held_apply (h' : WellFormed (pre ++ mine' ++ post)) (hneat : Neat q.owner mine')
    (happ : Applied q mine mine') :
    held (pre ++ mine' ++ post) = setRange q (held (pre ++ mine ++ post)) := by
  have hsplit' : Split q.owner pre mine' post :=
    ⟨hsplit.pre_ne, fun a ha => (hneat.proper a ha).owner, hsplit.post_ne⟩
  funext o x
  ext t
  rw [held_eq_some_iff (h'.neat o), setRange]
  by_cases ho : o = q.owner
  · subst ho
    rw [hsplit'.ofOwner_self, happ x t]
    by_cases hx : q.start ≤ x ∧ x ≤ q.stop
    · rw [if_pos hx, if_pos ⟨rfl, hx⟩]
      split_ifs with hunl
      · simp [hunl]
      · simp [hunl, eq_comm]
    · rw [if_neg hx, if_neg fun hcon => hx hcon.2, held_eq_some_iff (h.neat _), hsplit.ofOwner_self]
  · rw [hsplit'.ofOwner_ne ho, ← hsplit.ofOwner_ne ho, if_neg fun hcon => ho hcon.1,
      held_eq_some_iff (h.neat o)]

end Apply

section Runs

inductive Reached : LockState ω → Prop
  | init (blocked : List (Waiter ω)) (fresh : ℕ) : Reached ⟨[], blocked, fresh⟩
  | request {s : LockState ω} (hs : Reached s) (q : Request ω) (hq : q.Valid) :
      Reached (posixLockFile s q).1

theorem conflicting_none {s : LockState ω} {q : Request ω} (h : conflicting s q = none) :
    NoConflict q s.locks := by
  unfold conflicting at h
  split at h
  next hunl => exact .inl hunl
  · exact .inr fun fl hfl => by simpa using List.find?_eq_none.mp h fl hfl

theorem posixLockFile_step {s : LockState ω} (h : WellFormed s.locks)
    (hdist : Distinct s.fresh s.locks) {q : Request ω} (hq : q.Valid) :
    WellFormed (posixLockFile s q).1.locks ∧
      Distinct (posixLockFile s q).1.fresh (posixLockFile s q).1.locks ∧
      ((posixLockFile s q).2 = .ok → q.access = false →
        held (posixLockFile s q).1.locks = setRange q (held s.locks)) ∧
      ((posixLockFile s q).2 ≠ .ok ∨ q.access = true →
        held (posixLockFile s q).1.locks = held s.locks) := by
  unfold posixLockFile
  cases hconf : conflicting s q with
  | some fl =>
    dsimp only
    split_ifs
    · exact ⟨h, hdist, nofun, fun _ => rfl⟩
    · exact ⟨h, hdist, nofun, fun _ => rfl⟩
    · exact ⟨h, hdist, nofun, fun _ => rfl⟩
  | none =>
    dsimp only
    split_ifs with hacc
    · exact ⟨h, hdist, fun _ hnot => absurd hacc (by simp [hnot]), fun _ => rfl⟩
    obtain ⟨pre, mine, post, hlocks, hsplit, hlast, mine', hlocks', hneat, hdist', hok, herr⟩ :=
      applyLock_finished h hdist hq
    rw [hlocks] at h
    have hno := hlocks ▸ conflicting_none hconf
    by_cases hres : (applyLock s q).2 = .ok
    · have hwf := wellFormed_apply h hsplit hlast hno hneat (hok hres)
      refine ⟨hlocks' ▸ hwf, hdist', fun _ _ => ?_, ?_⟩
      · rw [hlocks', hlocks]
        exact held_apply h hsplit hwf hneat (hok hres)
      · rintro (hcon | hcon)
        · exact absurd hres hcon
        · exact absurd hcon hacc
    · rw [herr hres] at hlocks'
      refine ⟨hlocks' ▸ h, hdist', fun hcon => absurd hcon hres, fun _ => ?_⟩
      rw [hlocks', hlocks]

theorem Reached.wellFormed {s : LockState ω} (h : Reached s) :
    WellFormed s.locks ∧ Distinct s.fresh s.locks := by
  induction h with
  | init blocked fresh =>
    refine ⟨⟨fun x y hxy => ?_, fun o => ⟨List.Pairwise.nil, by simp [ofOwner]⟩, by simp⟩, ?_⟩
    · simp at hxy
    · exact ⟨nodup_nil, by simp⟩
  | request hs q hq ih =>
    obtain ⟨hwf, hdist, -, -⟩ := posixLockFile_step ih.1 ih.2 hq
    exact ⟨hwf, hdist⟩

/-- The locks on an inode are a map from owners and offsets: a request that succeeds sets its range, any
other changes nothing, and the list stays in order. -/
theorem posixLockFile_refines_map {s : LockState ω} (h : Reached s) {q : Request ω} (hq : q.Valid) :
    WellFormed (posixLockFile s q).1.locks ∧ ((posixLockFile s q).2 = .ok → q.access = false →
        held (posixLockFile s q).1.locks = setRange q (held s.locks)) ∧
      ((posixLockFile s q).2 ≠ .ok ∨ q.access = true →
        held (posixLockFile s q).1.locks = held s.locks) := by
  obtain ⟨hwf, hdist⟩ := h.wellFormed
  obtain ⟨hwf', -, hok, herr⟩ := posixLockFile_step hwf hdist hq
  exact ⟨hwf', hok, herr⟩

def readNine : Request (Fin 2) := ⟨0, .rdlck, 0, 9, false, true, false, true, true⟩

def writeMiddle : Request (Fin 2) := ⟨0, .wrlck, 3, 5, false, true, false, true, true⟩

theorem posixLockFile_refines_map_middle :
    held (posixLockFile (posixLockFile ⟨[], [], 0⟩ readNine).1 writeMiddle).1.locks =
      setRange writeMiddle (held (posixLockFile ⟨[], [], 0⟩ readNine).1.locks) :=
  (posixLockFile_refines_map (.request (.init [] 0) readNine ⟨by decide, by decide, by decide⟩)
    ⟨by decide, by decide, by decide⟩).2.1 (by decide) rfl

/-- The lock that `posix_test_lock` reports; nothing for `F_UNLCK`. -/
def posixTestLock (s : LockState ω) (q : Request ω) : Option (FileLock ω) :=
  s.locks.find? fun cfl => posixLocksConflict q cfl

/-- A lock that is reported is held and stands in the way; without one, nothing in the range does. -/
theorem posixTestLock_truthful {s : LockState ω} (h : Reached s) (q : Request ω) :
    match posixTestLock s q with
    | some cfl => cfl.owner ≠ q.owner ∧ locksOverlap q.start q.stop cfl ∧ locksConflict q.type cfl.type ∧
        ∀ x, cfl.Covers x → held s.locks cfl.owner x = some cfl.type
    | none => ∀ o ≠ q.owner, ∀ x t, q.start ≤ x → x ≤ q.stop → held s.locks o x = some t →
        locksConflict q.type t = false := by
  obtain ⟨hwf, -⟩ := h.wellFormed
  rw [posixTestLock]
  cases hfind : s.locks.find? (fun cfl => posixLocksConflict q cfl) with
  | some cfl =>
    have hmem := mem_ofOwner.mpr ⟨List.mem_of_find?_eq_some hfind, rfl⟩
    have hconf := List.find?_some hfind
    rw [posixLocksConflict] at hconf
    split_ifs at hconf with howner hover
    exact ⟨Ne.symm howner, by simpa using hover, hconf,
      fun x hx => (held_eq_some_iff (hwf.neat _)).mpr ⟨cfl, hmem, hx, rfl⟩⟩
  | none =>
    intro o ho x t hstart hstop hheld
    obtain ⟨a, ha, hax, rfl⟩ := (held_eq_some_iff (hwf.neat o)).mp hheld
    obtain ⟨hmem, rfl⟩ := mem_ofOwner.mp ha
    have hover : locksOverlap q.start q.stop a = true := by
      simpa [locksOverlap] using ⟨hax.1.trans hstop, hstart.trans hax.2⟩
    have hconf := List.find?_eq_none.mp hfind a hmem
    simpa [posixLocksConflict, Ne.symm ho, hover] using hconf

theorem posixTestLock_truthful_read :
    held (posixLockFile ⟨[], [], 0⟩ readNine).1.locks 0 4 = some .rdlck :=
  (posixTestLock_truthful (.request (.init [] 0) readNine ⟨by decide, by decide, by decide⟩)
    ⟨1, .wrlck, 4, 4, false, false, false, false, false⟩).2.2.2 4 ⟨by decide, by decide⟩

end Runs

end VDLinux.Fs
