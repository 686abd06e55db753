import VDLinux.Fs.PosixLock

namespace VDLinux.Fs

open List

variable {ω : Type}

/-- `a` lies before `b` and does not touch it if they are of the same type. -/
def Before (a b : FileLock ω) : Prop :=
  a.stop < b.start ∧ (a.type = b.type → a.stop + 1 < b.start)

def FileLock.Covers (a : FileLock ω) (x : ℤ) : Prop := a.start ≤ x ∧ x ≤ a.stop

def Holds (l : List (FileLock ω)) (x : ℤ) (t : LockType) : Prop :=
  ∃ a ∈ l, a.Covers x ∧ a.type = t

structure Proper (o : ω) (a : FileLock ω) : Prop where
  owner : a.owner = o
  le : a.start ≤ a.stop
  locked : a.type ≠ .unlck
  nonneg : 0 ≤ a.start
  le_max : a.stop ≤ offsetMax

/-- The locks of one owner, sorted, disjoint and merged where they touch. -/
structure Neat (o : ω) (l : List (FileLock ω)) : Prop where
  sorted : l.Pairwise Before
  proper : ∀ a ∈ l, Proper o a

/-- The locks that were passed lie before the request `p`, but for `left`, which reaches into it. -/
inductive LeftOk (p : FileLock ω) : Option ℕ → List (FileLock ω) → Prop
  | clear {D : List (FileLock ω)} (hD : ∀ d ∈ D, Before d p) : LeftOk p none D
  | reach {D : List (FileLock ω)} {lf : FileLock ω} (hD : ∀ d ∈ D, Before d p)
      (htype : lf.type ≠ p.type) (hlt : lf.start < p.start) (hle : p.start ≤ lf.stop)
      (hstop : lf.stop ≤ p.stop) : LeftOk p (some lf.addr) (D ++ [lf])

/-- Nothing is known at two addresses, and what is at or above `fresh` is free. -/
structure Distinct (fresh : ℕ) (l : List (FileLock ω)) : Prop where
  nodup : (l.map FileLock.addr).Nodup
  lt : ∀ a ∈ l, a.addr < fresh

theorem Distinct.sublist {fresh : ℕ} {l l' : List (FileLock ω)} (h : Distinct fresh l)
    (hsub : (l'.map FileLock.addr).Sublist (l.map FileLock.addr)) : Distinct fresh l' where
  nodup := h.nodup.sublist hsub
  lt a ha := by
    obtain ⟨b, hb, hab⟩ := mem_map.mp (hsub.subset (mem_map_of_mem ha))
    exact hab ▸ h.lt b hb

section Update

variable {g : FileLock ω → FileLock ω} {l l₁ l₂ : List (FileLock ω)} {fl : FileLock ω}

theorem map_off {addr : ℕ} (h : ∀ a ∈ l, a.addr ≠ addr) :
    l.map (fun a => if a.addr = addr then g a else a) = l := by
  rw [map_congr_left fun a ha => if_neg (h a ha)]
  exact map_id l

theorem map_at {addr : ℕ} (haddr : fl.addr = addr) (h : ((l₁ ++ fl :: l₂).map FileLock.addr).Nodup) :
    (l₁ ++ fl :: l₂).map (fun a => if a.addr = addr then g a else a) = l₁ ++ g fl :: l₂ := by
  subst haddr
  simp only [map_append, map_cons, nodup_append, nodup_cons, mem_map,
    mem_cons, not_exists, not_and] at h
  obtain ⟨-, ⟨hl₂, -⟩, hl₁⟩ := h
  rw [map_append, map_cons, if_pos rfl, map_off hl₂, map_off]
  intro a ha heq
  exact hl₁ a.addr ⟨a, ha, rfl⟩ fl.addr (.inl rfl) heq

end Update

section Invariant

variable (pre post mine₀ : List (FileLock ω)) (q : Request ω) (fresh : ℕ)

/-- The ranges in the middle of the loop over the locks of `q.owner`, which were `mine₀`. Those in `D`
were passed and those in `rest` are ahead. Outside the request `p` the owner holds what it held, and
inside it is what `q` asks for, or what the owner had already. -/
structure Ranges (p : FileLock ω) (left : Option ℕ) (D rest : List (FileLock ω)) : Prop where
  owner_eq : p.owner = q.owner
  type_eq : p.type = q.type
  neat : Neat q.owner (D ++ rest)
  start_le : p.start ≤ q.start
  le_stop : q.stop ≤ p.stop
  nonneg : 0 ≤ p.start
  le_max : p.stop ≤ offsetMax
  left_ok : LeftOk p left D
  outside : ∀ x t, ¬p.Covers x → (Holds (D ++ rest) x t ↔ Holds mine₀ x t)
  inside : ∀ x, p.Covers x → q.start ≤ x ∧ x ≤ q.stop ∨ Holds mine₀ x q.type

/-- The loop in the middle of the locks between `pre` and `post`. When `placed`, the lock that
`request` points to is on the list behind `D`; before that nothing has changed, or the request is to
unlock. -/
structure Inv (c : Scan ω) (D rest : List (FileLock ω)) (placed : Bool) : Prop where
  ranges : Ranges mine₀ q c.request c.left D rest
  done_eq : c.done = pre ++ D ++ (if placed then [c.request] else [])
  caller : placed = false → c.request = ⟨fresh, q.owner, q.type, q.start, q.stop⟩ ∧
    (c.added = true → q.type = .unlck)
  onList : placed = true → c.added = true ∧ q.type ≠ .unlck
  unlock : q.type = .unlck → c.added = false → c.left = none
  right_eq : c.right = none
  ahead : (placed = false ∧ D ++ rest = mine₀) ∨
    c.added = true ∧ ∀ r ∈ rest, c.request.start ≤ r.start
  distinct : Distinct fresh (c.done ++ rest ++ post)

/-- How the loop ends: all that is ahead lies behind the request, or the request ends in the first
lock ahead, which is of another type. -/
inductive Exit (c : Scan ω) (D rest : List (FileLock ω)) (placed : Bool) : Prop
  | clear (hinv : Inv pre post mine₀ q fresh c D rest placed)
      (hrest : ∀ r ∈ rest, Before c.request r)
  | right {c₀ : Scan ω} {fl : FileLock ω} {tl : List (FileLock ω)}
      (hinv : Inv pre post mine₀ q fresh c₀ D rest placed) (hrest : rest = fl :: tl)
      (hc : c = { markOverlap c₀ fl with right := some fl }) (htype : fl.type ≠ q.type)
      (hle : c₀.request.start ≤ fl.stop) (hstart : fl.start ≤ c₀.request.stop)
      (hstop : c₀.request.stop < fl.stop)

end Invariant

section LeftOk

variable {p p' fl : FileLock ω} {left : Option ℕ} {D : List (FileLock ω)}

theorem LeftOk.clear_of (h : LeftOk p left D) (hD : ∀ d ∈ D, d.stop < p.start) :
    left = none ∧ ∀ d ∈ D, Before d p := by
  cases h with
  | clear hbefore => exact ⟨rfl, hbefore⟩
  | @reach D lf _ _ _ hle _ =>
    have := hD lf (by simp)
    omega

theorem LeftOk.grow (h : LeftOk p left D) (hfl : ∀ d ∈ D, Before d fl) (htype : p'.type = p.type)
    (hstart : p'.start = p.start ∨ p'.start = fl.start ∧ fl.type = p.type ∧ fl.start ≤ p.start)
    (hstop : p.stop ≤ p'.stop) : LeftOk p' left D := by
  cases h with
  | clear hbefore =>
    refine .clear fun d hd => ?_
    obtain hs | ⟨hs, ht, -⟩ := hstart
    · rw [Before, hs, htype]
      exact hbefore d hd
    · rw [Before, hs, htype, ← ht]
      exact hfl d hd
  | @reach D lf hbefore hne hlt hle hlf =>
    have hlfl := (hfl lf (by simp)).1
    have hs : p'.start = p.start := hstart.resolve_right fun hs => by omega
    refine .reach (fun d hd => ?_) (htype ▸ hne) (by omega) (by omega) (by omega)
    rw [Before, hs, htype]
    exact hbefore d hd

end LeftOk

section Holds

variable {l l' D tl : List (FileLock ω)} {fl : FileLock ω} {x : ℤ} {t : LockType}

theorem holds_skip (hx : ¬fl.Covers x) : Holds (D ++ fl :: tl) x t ↔ Holds (D ++ tl) x t := by
  constructor
  · rintro ⟨a, ha, hax, hat⟩
    refine ⟨a, ?_, hax, hat⟩
    have hne : a ≠ fl := fun heq => hx (heq ▸ hax)
    simpa [hne] using ha
  · rintro ⟨a, ha, hax, hat⟩
    refine ⟨a, ?_, hax, hat⟩
    simp only [mem_append, mem_cons] at ha ⊢
    exact ha.imp_right .inr

theorem Neat.sublist {o : ω} (h : Neat o l) (hsub : l'.Sublist l) : Neat o l' :=
  ⟨h.sorted.sublist hsub, fun a ha => h.proper a (hsub.subset ha)⟩

theorem merged_covers {p : FileLock ω} (hfl : ¬fl.stop < p.start - 1) (hp : ¬fl.start - 1 > p.stop) :
    mergedStart p fl ≤ x ∧ x ≤ mergedStop p fl ↔ p.Covers x ∨ fl.Covers x := by
  simp only [mergedStart, mergedStop, FileLock.Covers]
  split_ifs <;> omega

end Holds

section Ranges

variable {mine₀ : List (FileLock ω)} {q : Request ω} {p p' fl : FileLock ω} {left : Option ℕ}
  {D tl : List (FileLock ω)}

variable (h : Ranges mine₀ q p left D (fl :: tl))
include h

theorem Ranges.before_ahead : ∀ d ∈ D, Before d fl :=
  fun d hd => (pairwise_append.mp h.neat.sorted).2.2 d hd fl mem_cons_self

theorem Ranges.proper : Proper q.owner fl := h.neat.proper fl (by simp)

theorem Ranges.tail_behind : ∀ r ∈ tl, fl.stop < r.start :=
  fun _ hr => (rel_of_pairwise_cons (pairwise_append.mp h.neat.sorted).2.1 hr).1

theorem Ranges.neat_tail : Neat q.owner (D ++ tl) :=
  h.neat.sublist ((List.Sublist.refl D).append (sublist_cons_self fl tl))

theorem Ranges.merge (htype : fl.type = p.type)
    (hfl : ¬fl.stop < p.start - 1) (hp : ¬fl.start - 1 > p.stop) (howner' : p'.owner = q.owner)
    (htype' : p'.type = p.type) (hstart' : p'.start = mergedStart p fl)
    (hstop' : p'.stop = mergedStop p fl) : Ranges mine₀ q p' left D tl := by
  have hcov : ∀ x, p'.Covers x ↔ p.Covers x ∨ fl.Covers x := fun x => by
    rw [← merged_covers hfl hp, FileLock.Covers, hstart', hstop']
  have hproper := h.proper
  have hstart : p'.start ≤ p.start ∧ 0 ≤ p'.start := by
    have := h.nonneg
    have := hproper.nonneg
    rw [hstart', mergedStart]
    split_ifs <;> omega
  have hstop : p.stop ≤ p'.stop ∧ p'.stop ≤ offsetMax := by
    have := h.le_max
    have := hproper.le_max
    rw [hstop', mergedStop]
    split_ifs <;> omega
  refine ⟨howner', htype'.trans h.type_eq, h.neat_tail, Int.le_trans hstart.1 h.start_le,
    Int.le_trans h.le_stop hstop.1, hstart.2, hstop.2, ?_, ?_, ?_⟩
  · refine h.left_ok.grow h.before_ahead htype' ?_ hstop.1
    rw [hstart', mergedStart]
    split_ifs with hgt
    · exact .inl rfl
    · exact .inr ⟨rfl, htype, by omega⟩
  · intro x t hx
    rw [hcov, not_or] at hx
    rw [← holds_skip hx.2]
    exact h.outside x t hx.1
  · intro x hx
    by_cases hpx : p.Covers x
    · exact h.inside x hpx
    · have hflx : fl.Covers x := ((hcov x).mp hx).resolve_left hpx
      exact .inr ((h.outside x q.type hpx).mp ⟨fl, by simp, hflx, htype.trans h.type_eq⟩)

theorem Ranges.cover (hstart : p.start ≤ fl.start)
    (hstop : fl.stop ≤ p.stop) (howner' : p'.owner = q.owner) (htype' : p'.type = p.type)
    (hstart' : p'.start = p.start) (hstop' : p'.stop = p.stop) :
    Ranges mine₀ q p' left D tl := by
  have hcov : ∀ x, p'.Covers x ↔ p.Covers x := fun x => by
    rw [FileLock.Covers, hstart', hstop', FileLock.Covers]
  have hfl : ∀ x, fl.Covers x → p.Covers x := fun x hx => by
    simp only [FileLock.Covers] at hx ⊢
    omega
  refine ⟨howner', htype'.trans h.type_eq, h.neat_tail, hstart' ▸ h.start_le, hstop' ▸ h.le_stop,
    hstart' ▸ h.nonneg, hstop' ▸ h.le_max, ?_, ?_, ?_⟩
  · exact h.left_ok.grow h.before_ahead htype' (.inl hstart') (by omega)
  · intro x t hx
    rw [hcov] at hx
    rw [← holds_skip fun hflx => hx (hfl x hflx)]
    exact h.outside x t hx
  · intro x hx
    exact h.inside x ((hcov x).mp hx)

end Ranges

section Step

variable {pre post mine₀ : List (FileLock ω)} {q : Request ω} {fresh : ℕ} {c : Scan ω}
  {D tl : List (FileLock ω)} {fl : FileLock ω} {placed : Bool}

variable (h : Inv pre post mine₀ q fresh c D (fl :: tl) placed)
include h

theorem Inv.untouched (hlt : fl.start < c.request.start) : placed = false ∧ D ++ fl :: tl = mine₀ ∧
      c.left = none ∧ ∀ d ∈ D, Before d c.request := by
  obtain ⟨hplaced, hsame⟩ := h.ahead.resolve_right fun hall => by
    have := hall.2 fl mem_cons_self
    omega
  refine ⟨hplaced, hsame, h.ranges.left_ok.clear_of fun d hd => ?_⟩
  have := (h.ranges.before_ahead d hd).1
  omega

/-- A lock that begins before the request is passed; it is `left` when it reaches into the request. -/
theorem Inv.pass {left : Option ℕ} {added : Bool}
    (hlt : fl.start < c.request.start) (hadded : added = true → q.type = .unlck)
    (hunlock : q.type = .unlck → added = false → left = none)
    (hleft : LeftOk c.request left (D ++ [fl])) :
    Inv pre post mine₀ q fresh { c.pass fl with left, added } (D ++ [fl]) tl placed := by
  obtain ⟨hplaced, hsame, -, -⟩ := h.untouched hlt
  have hassoc : D ++ [fl] ++ tl = D ++ fl :: tl := by simp
  refine ⟨?_, ?_, fun hp => ⟨(h.caller hp).1, hadded⟩, ?_, hunlock, h.right_eq,
    .inl ⟨hplaced, hassoc.trans hsame⟩, ?_⟩
  · exact { h.ranges with
      neat := hassoc ▸ h.ranges.neat
      left_ok := hleft
      outside := hassoc ▸ h.ranges.outside }
  · simp [Scan.pass, h.done_eq, hplaced]
  · rw [hplaced]
    simp
  · refine h.distinct.sublist ?_
    simp [Scan.pass]

omit h

variable {rest : List (FileLock ω)}

theorem Inv.added_iff (h : Inv pre post mine₀ q fresh c D rest placed)
    (hlocked : q.type ≠ .unlck) : c.added = placed := by
  cases placed with
  | true => exact (h.onList rfl).1
  | false =>
    cases hc : c.added with
    | false => rfl
    | true => exact absurd ((h.caller rfl).2 hc) hlocked

theorem writeRequest_done (h : Inv pre post mine₀ q fresh c D rest placed) {r : FileLock ω}
    (hr : r.addr = c.request.addr) :
    (c.writeRequest r).done = pre ++ D ++ (if placed then [r] else []) := by
  have hdist := h.distinct
  have hdone := h.done_eq
  cases placed with
  | false =>
    have hfresh : r.addr = fresh := by rw [hr, (h.caller rfl).1]
    simp only [Bool.false_eq_true, if_false, append_nil] at hdone ⊢
    rw [← hdone]
    refine map_off fun a ha => ?_
    have := hdist.lt a (by simp [ha])
    omega
  | true =>
    have hnodup := hdist.nodup.sublist ((sublist_append_left c.done (rest ++ post)).map _ |>.trans
      (by rw [append_assoc]))
    simp only [Scan.writeRequest]
    rw [hdone] at hnodup ⊢
    exact map_at hr.symm hnodup

variable (h : Inv pre post mine₀ q fresh c D (fl :: tl) placed)
include h

theorem Inv.tail_ahead {start : ℤ} (hstart : start ≤ fl.start) : ∀ r ∈ tl, start ≤ r.start := by
  intro r hr
  have := h.ranges.proper.le
  have := h.ranges.tail_behind r hr
  omega

theorem Inv.merge (htype : fl.type = c.request.type) (hfl : ¬fl.stop < c.request.start - 1)
    (hp : ¬fl.start - 1 > c.request.stop) :
    Inv pre post mine₀ q fresh (merge c fl) D tl true := by
  have hlocked : q.type ≠ .unlck := h.ranges.type_eq ▸ htype ▸ h.ranges.proper.locked
  have hstart : mergedStart c.request fl ≤ fl.start := by
    rw [mergedStart]
    split_ifs <;> omega
  have hdone := writeRequest_done h (r := { c.request with
      start := mergedStart c.request fl, stop := mergedStop c.request fl }) rfl
  have hdist := h.distinct
  rw [h.done_eq] at hdist
  cases placed with
  | true =>
    have hadded := (h.onList rfl).1
    have hmerge : Fs.merge c fl = (c.writeRequest { c.request with
        start := mergedStart c.request fl, stop := mergedStop c.request fl }).wake fl := by
      simp [Fs.merge, Scan.writeRequest, hadded]
    rw [hmerge]
    refine ⟨h.ranges.merge htype hfl hp h.ranges.owner_eq rfl rfl rfl, hdone, nofun,
      fun _ => ⟨hadded, hlocked⟩, fun hu => absurd hu hlocked, h.right_eq, .inr ⟨hadded, h.tail_ahead hstart⟩, ?_⟩
    refine hdist.sublist ?_
    simp only [Scan.wake, hdone]
    simp
  | false =>
    have hadded := h.added_iff hlocked
    have hmerge : Fs.merge c fl = (c.writeRequest { c.request with
        start := mergedStart c.request fl, stop := mergedStop c.request fl }).redirect
          { fl with start := mergedStart c.request fl, stop := mergedStop c.request fl } := by
      simp [Fs.merge, Scan.writeRequest, hadded]
    rw [hmerge]
    refine ⟨h.ranges.merge htype hfl hp h.ranges.proper.owner htype rfl rfl, ?_, nofun,
      fun _ => ⟨rfl, hlocked⟩, fun hu => absurd hu hlocked, h.right_eq,
      .inr ⟨rfl, h.tail_ahead hstart⟩, ?_⟩
    · simp only [Scan.redirect, hdone]
      simp
    · refine hdist.sublist ?_
      simp only [Scan.redirect, hdone]
      simp

theorem Inv.mark_added
    (hplaced : placed = false) (hadded : (markOverlap c fl).added = true) : q.type = .unlck := by
  by_contra hlocked
  have hnot : ¬c.request.type = .unlck := h.ranges.type_eq ▸ hlocked
  simp only [markOverlap, if_neg hnot] at hadded
  exact hlocked ((h.caller hplaced).2 hadded)

theorem Inv.replace (hstart : c.request.start ≤ fl.start) (hstop : fl.stop ≤ c.request.stop) :
    ∃ placed', Inv pre post mine₀ q fresh (replace (markOverlap c fl) fl) D tl placed' := by
  have hleft : (markOverlap c fl).left = c.left := if_neg (by omega)
  have hdist := h.distinct
  rw [h.done_eq] at hdist
  by_cases hadded : (markOverlap c fl).added = true
  · have hreplace : Fs.replace (markOverlap c fl) fl = (markOverlap c fl).wake fl := if_pos hadded
    have hgone : ((pre ++ D ++ (if placed then [c.request] else []) ++ tl ++ post).map
        FileLock.addr).Sublist ((pre ++ D ++ (if placed then [c.request] else []) ++ fl :: tl ++
          post).map FileLock.addr) := by simp
    refine ⟨placed, ?_⟩
    rw [hreplace]
    refine ⟨?_, h.done_eq, fun hp => ⟨(h.caller hp).1, fun _ => h.mark_added hp hadded⟩,
      fun hp => ⟨hadded, (h.onList hp).2⟩, fun _ hnot => absurd hadded (hnot ▸ Bool.false_ne_true),
      h.right_eq, .inr ⟨hadded, h.tail_ahead hstart⟩, ?_⟩
    · exact hleft ▸ h.ranges.cover hstart hstop h.ranges.owner_eq rfl rfl rfl
    · refine hdist.sublist ?_
      simp only [Scan.wake, markOverlap, h.done_eq]
      exact hgone
  · have hlocked : q.type ≠ .unlck := fun hq =>
      hadded (if_pos (h.ranges.type_eq.trans hq))
    have hnot : ¬c.request.type = .unlck := h.ranges.type_eq ▸ hlocked
    obtain rfl : placed = false := by
      rw [← h.added_iff hlocked]
      simpa [markOverlap, hnot] using hadded
    have hreplace : Fs.replace (markOverlap c fl) fl = ((markOverlap c fl).wake fl).redirect
        { fl with start := c.request.start, stop := c.request.stop, type := c.request.type } :=
      if_neg hadded
    refine ⟨true, ?_⟩
    rw [hreplace]
    refine ⟨?_, ?_, nofun, fun _ => ⟨rfl, hlocked⟩, fun hu => absurd hu hlocked, h.right_eq, .inr ⟨rfl, h.tail_ahead hstart⟩, ?_⟩
    · exact hleft ▸ h.ranges.cover hstart hstop h.ranges.proper.owner rfl rfl rfl
    · simp [Scan.redirect, Scan.wake, markOverlap, h.done_eq]
    · refine hdist.sublist ?_
      simp [Scan.redirect, Scan.wake, markOverlap, h.done_eq]

theorem Inv.pass_before (hbefore : Before fl c.request) :
    Inv pre post mine₀ q fresh (c.pass fl) (D ++ [fl]) tl placed := by
  have hlt : fl.start < c.request.start := Int.lt_of_le_of_lt h.ranges.proper.le hbefore.1
  obtain ⟨hplaced, -, hleft, hD⟩ := h.untouched hlt
  have hclear : LeftOk c.request c.left (D ++ [fl]) :=
    hleft ▸ .clear (forall_mem_append.mpr ⟨hD, forall_mem_singleton.mpr hbefore⟩)
  exact h.pass hlt (h.caller hplaced).2 (fun _ _ => hleft) hclear

theorem Inv.pass_left (htype : fl.type ≠ c.request.type) (hlt : fl.start < c.request.start)
    (hle : c.request.start ≤ fl.stop) (hstop : fl.stop ≤ c.request.stop) :
    Inv pre post mine₀ q fresh ((markOverlap c fl).pass fl) (D ++ [fl]) tl placed := by
  obtain ⟨hplaced, -, -, hD⟩ := h.untouched hlt
  have hleft : (markOverlap c fl).left = some fl.addr := if_pos hlt
  refine h.pass hlt (h.mark_added hplaced) (fun hu hnot => ?_) (hleft ▸ .reach hD htype hlt hle hstop)
  have hadded : (markOverlap c fl).added = true := if_pos (h.ranges.type_eq.trans hu)
  exact absurd hadded (hnot ▸ Bool.false_ne_true)

theorem Inv.behind (hfl : Before c.request fl) : ∀ r ∈ fl :: tl, Before c.request r := by
  intro r hr
  cases hr with
  | head => exact hfl
  | tail _ hr =>
    have hlt := hfl.1
    have hle := h.ranges.proper.le
    have hr' := h.ranges.tail_behind r hr
    exact ⟨by omega, fun _ => by omega⟩

theorem Inv.visit :
    (∃ c' D' placed', visit c fl = .onward c' ∧ Inv pre post mine₀ q fresh c' D' tl placed') ∨
      ∃ c', visit c fl = .halt c' ∧ Exit pre post mine₀ q fresh c' D (fl :: tl) placed := by
  unfold Fs.visit visitSame visitOther visitOverlap
  simp only [show (markOverlap c fl).request = c.request from rfl]
  split_ifs with htype hpass hhalt hpass hhalt hright hstart
  -- a lock of the type asked for
  · exact .inl ⟨_, _, _, rfl, h.pass_before ⟨by omega, fun _ => by omega⟩⟩
  · exact .inr ⟨c, rfl, .clear h (h.behind ⟨by omega, fun _ => by omega⟩)⟩
  · exact .inl ⟨_, _, _, rfl, h.merge htype.symm hpass hhalt⟩
  -- a lock of the other type
  · exact .inl ⟨_, _, _, rfl, h.pass_before ⟨hpass, fun heq => absurd heq.symm htype⟩⟩
  · exact .inr ⟨c, rfl, .clear h (h.behind ⟨hhalt, fun heq => absurd heq htype⟩)⟩
  · exact .inr ⟨_, rfl, .right h rfl rfl (fun heq => htype (h.ranges.type_eq.trans heq.symm))
      (by omega) (by omega) hright⟩
  · obtain ⟨placed', h'⟩ := h.replace hstart (by omega)
    exact .inl ⟨_, _, placed', rfl, h'⟩
  · exact .inl ⟨_, _, _, rfl, h.pass_left (Ne.symm htype) (by omega) (by omega) (by omega)⟩

omit h

variable [DecidableEq ω]

theorem Inv.scan (hpost : ∀ fl ∈ post.head?, fl.owner ≠ q.owner)
    (h : Inv pre post mine₀ q fresh c D rest placed) :
    ∃ c' D' rest' placed', scan c (rest ++ post) = (c', rest' ++ post) ∧
      Exit pre post mine₀ q fresh c' D' rest' placed' := by
  induction rest generalizing c D placed with
  | nil =>
    refine ⟨c, D, [], placed, ?_, .clear h (by simp)⟩
    cases post with
    | nil => rfl
    | cons fl tl =>
      have hne : ¬c.request.owner = fl.owner := by
        rw [h.ranges.owner_eq]
        exact fun heq => hpost fl (by simp) heq.symm
      rw [List.nil_append, Fs.scan, if_neg hne]
  | cons fl tl ih =>
    have howner : c.request.owner = fl.owner := h.ranges.owner_eq.trans h.ranges.proper.owner.symm
    rw [cons_append, Fs.scan, if_pos howner]
    obtain ⟨c', D', placed', hvisit, h'⟩ | ⟨c', hvisit, hexit⟩ := h.visit
    · rw [hvisit]
      exact ih h'
    · rw [hvisit]
      exact ⟨c', D, fl :: tl, placed, rfl, hexit⟩

end Step

end VDLinux.Fs
