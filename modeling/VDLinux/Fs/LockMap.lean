import VDLinux.Fs.LockScan

namespace VDLinux.Fs

open List

variable {ω : Type}

section Assemble

variable {mine₀ D rest Dl Rr P : List (FileLock ω)} {q : Request ω} {p : FileLock ω}
  {left : Option ℕ} {o : ω}

theorem holds_append {l l' : List (FileLock ω)} {x : ℤ} {t : LockType} :
    Holds (l ++ l') x t ↔ Holds l x t ∨ Holds l' x t := by
  simp only [Holds, mem_append, or_and_right, exists_or]

theorem holds_cons {a : FileLock ω} {l : List (FileLock ω)} {x : ℤ} {t : LockType} :
    Holds (a :: l) x t ↔ a.Covers x ∧ a.type = t ∨ Holds l x t := by
  simp only [Holds, mem_cons, or_and_right, exists_or, exists_eq_left]

theorem holds_nil {x : ℤ} {t : LockType} : ¬Holds ([] : List (FileLock ω)) x t := by
  rintro ⟨a, ha, -⟩
  cases ha

theorem holds_unique {l : List (FileLock ω)} (h : l.Pairwise Before) {x : ℤ} {t t' : LockType}
    (ht : Holds l x t) (ht' : Holds l x t') : t = t' := by
  induction h with
  | nil => exact absurd ht holds_nil
  | @cons a l hbefore _ ih =>
    have hapart : a.Covers x → ∀ t, ¬Holds l x t := by
      rintro hax t ⟨b, hb, hbx, -⟩
      have := (hbefore b hb).1
      have := hax.2
      have := hbx.1
      omega
    obtain ⟨hax, rfl⟩ | ht := holds_cons.mp ht
    · exact ((holds_cons.mp ht').resolve_right (hapart hax t')).2
    · obtain ⟨hax, -⟩ | ht' := holds_cons.mp ht'
      · exact absurd ht (hapart hax t)
      · exact ih ht ht'

/-- What the request leaves the owner with: the requested type in the requested range, and outside it
what it had. -/
def Applied (q : Request ω) (mine₀ mine : List (FileLock ω)) : Prop :=
  ∀ x t, Holds mine x t ↔
    if q.start ≤ x ∧ x ≤ q.stop then q.type ≠ .unlck ∧ t = q.type else Holds mine₀ x t

structure Placed (q : Request ω) (p : FileLock ω) (P : List (FileLock ω)) : Prop where
  neat : Neat q.owner P
  start_eq : ∀ a ∈ P, a.start = p.start
  stop_eq : ∀ a ∈ P, a.stop = p.stop
  type_eq : ∀ a ∈ P, a.type = p.type
  holds : ∀ x t, p.Covers x → (Holds P x t ↔ q.type ≠ .unlck ∧ t = q.type)

theorem Ranges.assemble (h : Ranges mine₀ q p left D rest) (hmine : Neat q.owner mine₀)
    (hq : q.start ≤ q.stop) (hDl : Neat q.owner Dl) (hRr : Neat q.owner Rr)
    (hbefore : ∀ d ∈ Dl, Before d p) (hbehind : ∀ r ∈ Rr, Before p r) (hP : Placed q p P)
    (hout : ∀ x t, ¬p.Covers x → (Holds (Dl ++ Rr) x t ↔ Holds (D ++ rest) x t)) :
    Neat q.owner (Dl ++ P ++ Rr) ∧ Applied q mine₀ (Dl ++ P ++ Rr) := by
  have hle := h.start_le
  have hle' := h.le_stop
  refine ⟨⟨?_, ?_⟩, fun x t => ?_⟩
  · refine pairwise_append.mpr ⟨pairwise_append.mpr ⟨hDl.sorted, hP.neat.sorted, ?_⟩,
      hRr.sorted, ?_⟩
    · intro d hd a ha
      rw [Before, hP.start_eq a ha, hP.type_eq a ha]
      exact hbefore d hd
    · intro d hd r hr
      have hr' := hbehind r hr
      obtain hd | hd := mem_append.mp hd
      · have := (hbefore d hd).1
        have := hr'.1
        exact ⟨by omega, fun _ => by omega⟩
      · rw [Before, hP.stop_eq d hd, hP.type_eq d hd]
        exact hr'
  · exact forall_mem_append.mpr ⟨forall_mem_append.mpr ⟨hDl.proper, hP.neat.proper⟩, hRr.proper⟩
  · have hsplit : Holds (Dl ++ P ++ Rr) x t ↔ Holds (Dl ++ Rr) x t ∨ Holds P x t := by
      simp only [holds_append, or_assoc, or_comm (b := Holds P x t)]
    rw [hsplit]
    by_cases hpx : p.Covers x
    · -- inside the request nothing is left of the locks around it
      have hnone : ¬Holds (Dl ++ Rr) x t := by
        rintro ⟨a, ha, hax, -⟩
        obtain ha | ha := mem_append.mp ha
        · have := (hbefore a ha).1
          have := hax.2
          have := hpx.1
          omega
        · have := (hbehind a ha).1
          have := hax.1
          have := hpx.2
          omega
      rw [hP.holds x t hpx]
      split_ifs with hx
      · exact or_iff_right hnone
      · have hold := (h.inside x hpx).resolve_left hx
        have hlocked : q.type ≠ .unlck := by
          obtain ⟨a, ha, -, hat⟩ := hold
          exact hat ▸ (hmine.proper a ha).locked
        constructor
        · rintro (hcon | ⟨-, rfl⟩)
          · exact absurd hcon hnone
          · exact hold
        · intro ht
          exact .inr ⟨hlocked, holds_unique hmine.sorted ht hold⟩
    · have hnone : ¬Holds P x t := by
        rintro ⟨a, ha, hax, -⟩
        rw [FileLock.Covers, hP.start_eq a ha, hP.stop_eq a ha] at hax
        exact hpx hax
      have hx : ¬(q.start ≤ x ∧ x ≤ q.stop) := fun hx => hpx ⟨by omega, by omega⟩
      rw [if_neg hx, ← h.outside x t hpx, ← hout x t hpx]
      exact or_iff_left hnone

end Assemble

section Trim

variable {mine₀ D tl X Y : List (FileLock ω)} {q : Request ω} {p fl : FileLock ω}
  {left : Option ℕ} {o : ω} {c : Scan ω}

theorem neat_trim_left {lf : FileLock ω} (hneat : Neat o D) (hprop : Proper o lf)
    (hDlf : ∀ d ∈ D, Before d lf) (hD : ∀ d ∈ D, Before d p) (htype : lf.type ≠ p.type)
    (hlt : lf.start < p.start) (hle : p.start ≤ lf.stop) (addr : ℕ) :
    Neat o (D ++ [{ lf with addr, stop := p.start - 1 }]) ∧
      ∀ d ∈ D ++ [{ lf with addr, stop := p.start - 1 }], Before d p := by
  refine ⟨⟨?_, ?_⟩, ?_⟩
  · refine pairwise_append.mpr ⟨hneat.sorted, pairwise_singleton _ _, ?_⟩
    exact fun d hd => forall_mem_singleton.mpr (hDlf d hd)
  · refine forall_mem_append.mpr ⟨hneat.proper, forall_mem_singleton.mpr ?_⟩
    have := hprop.le_max
    exact ⟨hprop.owner, by dsimp only; omega, hprop.locked, hprop.nonneg, by dsimp only; omega⟩
  · refine forall_mem_append.mpr ⟨hD, forall_mem_singleton.mpr ?_⟩
    exact ⟨by dsimp only; omega, fun heq => absurd heq htype⟩

theorem LeftOk.trim (h : LeftOk c.request left D) (hneat : Neat o D)
    (hnodup : ((Y ++ D ++ X).map FileLock.addr).Nodup) :
    ∃ Dl, trimLeft c left (Y ++ D ++ X) = Y ++ Dl ++ X ∧ Neat o Dl ∧
      (∀ d ∈ Dl, Before d c.request) ∧ Dl.map FileLock.addr = D.map FileLock.addr ∧
      ∀ x t, ¬c.request.Covers x → (Holds Dl x t ↔ Holds D x t) := by
  cases h with
  | clear hD => exact ⟨D, rfl, hneat, hD, rfl, fun _ _ _ => Iff.rfl⟩
  | @reach D lf hD htype hlt hle hstop =>
    have hDlf : ∀ d ∈ D, Before d lf :=
      fun d hd => (pairwise_append.mp hneat.sorted).2.2 d hd lf (by simp)
    obtain ⟨hneat', hbefore⟩ := neat_trim_left (hneat.sublist (sublist_append_left D [lf]))
      (hneat.proper lf (by simp)) hDlf hD htype hlt hle lf.addr
    refine ⟨_, ?_, hneat', hbefore, by simp, fun x t hx => ?_⟩
    · have hlist : Y ++ (D ++ [lf]) ++ X = Y ++ D ++ lf :: X := by simp
      rw [hlist] at hnodup ⊢
      rw [show trimLeft c (some lf.addr) (Y ++ D ++ lf :: X) = _ from map_at rfl hnodup]
      simp
    · have hcov : FileLock.Covers { lf with stop := c.request.start - 1 } x ↔ lf.Covers x := by
        simp only [FileLock.Covers] at hx ⊢
        omega
      simp only [holds_append, holds_cons, hcov]

theorem Ranges.trim_right (h : Ranges mine₀ q p left D (fl :: tl)) (hq : q.start ≤ q.stop)
    (htype : fl.type ≠ q.type) (hstop : p.stop < fl.stop) :
    Neat q.owner ({ fl with start := p.stop + 1 } :: tl) ∧
      ∀ r ∈ { fl with start := p.stop + 1 } :: tl, Before p r := by
  have hprop := h.proper
  have hnonneg := h.nonneg
  have hs := h.start_le
  have he := h.le_stop
  have hsorted := (pairwise_append.mp h.neat.sorted).2.1
  refine ⟨⟨?_, ?_⟩, ?_⟩
  · exact pairwise_cons.mpr ⟨fun r hr => rel_of_pairwise_cons hsorted hr, hsorted.of_cons⟩
  · refine forall_mem_cons.mpr ⟨?_, fun a ha => h.neat.proper a (by simp [ha])⟩
    exact ⟨hprop.owner, by dsimp only; omega, hprop.locked, by dsimp only; omega, hprop.le_max⟩
  · refine forall_mem_cons.mpr ⟨?_, fun r hr => ?_⟩
    · exact ⟨by dsimp only; omega, fun heq => absurd (heq.symm.trans h.type_eq) htype⟩
    · have := h.tail_behind r hr
      exact ⟨by omega, fun _ => by omega⟩

end Trim

theorem Distinct.insert {fresh fresh' : ℕ} {l₁ l₂ : List (FileLock ω)} {a : FileLock ω}
    (h : Distinct fresh (l₁ ++ l₂)) (hle : fresh ≤ a.addr) (hlt : a.addr < fresh') :
    Distinct fresh' (l₁ ++ a :: l₂) where
  nodup := by
    rw [map_append, map_cons, nodup_middle, ← map_append, nodup_cons]
    refine ⟨fun ha => ?_, h.nodup⟩
    obtain ⟨b, hb, hba⟩ := mem_map.mp ha
    have := h.lt b hb
    omega
  lt b hb := by
    obtain hb | hb := mem_append.mp hb
    · have := h.lt b (by simp [hb])
      omega
    · obtain rfl | hb := mem_cons.mp hb
      · exact hlt
      · have := h.lt b (by simp [hb])
        omega

theorem Distinct.mono {fresh fresh' : ℕ} {l : List (FileLock ω)} (h : Distinct fresh l)
    (hle : fresh ≤ fresh') : Distinct fresh' l :=
  ⟨h.nodup, fun a ha => Nat.lt_of_lt_of_le (h.lt a ha) hle⟩

section Finish

variable {pre post mine₀ D rest : List (FileLock ω)} {q : Request ω} {fresh : ℕ} {c : Scan ω}
  {placed : Bool}

theorem placed_nil {p : FileLock ω} (hq : q.type = .unlck) : Placed q p [] where
  neat := ⟨List.Pairwise.nil, by simp⟩
  start_eq := by simp
  stop_eq := by simp
  type_eq := by simp
  holds x t _ := by simp [hq, Holds]

theorem placed_singleton {p a : FileLock ω} (hq : q.type ≠ .unlck) (hp : p.type = q.type)
    (hprop : Proper q.owner a) (hstart : a.start = p.start) (hstop : a.stop = p.stop)
    (htype : a.type = p.type) : Placed q p [a] where
  neat := ⟨pairwise_singleton _ _, fun _ hb => mem_singleton.mp hb ▸ hprop⟩
  start_eq _ hb := mem_singleton.mp hb ▸ hstart
  stop_eq _ hb := mem_singleton.mp hb ▸ hstop
  type_eq _ hb := mem_singleton.mp hb ▸ htype
  holds x t hx := by
    have hax : a.Covers x := by rwa [FileLock.Covers, hstart, hstop]
    simp only [holds_cons, holds_nil, or_false, hax, true_and, htype, hp]
    exact ⟨fun h => ⟨hq, h.symm⟩, fun h => h.2.symm⟩

/-- The lock for the request is on the list already, or it is a new one, or there is none. -/
theorem Inv.place (h : Inv pre post mine₀ q fresh c D rest placed) (hq : q.start ≤ q.stop)
    {added : Bool} (hadded : added = true ↔ placed = true ∨ q.type = .unlck) :
    ∃ P, Placed q c.request P ∧ Distinct (fresh + 2) (pre ++ D ++ P ++ rest ++ post) ∧
      ∀ tail, c.done ++ (if added then tail else { c.request with addr := fresh + 1 } :: tail) =
        pre ++ D ++ P ++ tail := by
  have hdist := h.distinct
  have hr := h.ranges
  have hprop : ∀ addr, q.type ≠ .unlck → Proper q.owner { c.request with addr } := fun addr hl => by
    have := hr.start_le
    have := hr.le_stop
    exact ⟨hr.owner_eq, by dsimp only; omega, hr.type_eq ▸ hl, hr.nonneg, hr.le_max⟩
  rw [h.done_eq] at hdist ⊢
  cases placed with
  | true =>
    have hlocked := (h.onList rfl).2
    refine ⟨[c.request], placed_singleton hlocked hr.type_eq (hprop _ hlocked) rfl rfl rfl, ?_, ?_⟩
    · exact hdist.mono (by omega)
    · intro tail
      simp [hadded.mpr]
  | false =>
    simp only [Bool.false_eq_true, if_false, append_nil, false_or] at hdist hadded ⊢
    by_cases hunlck : q.type = .unlck
    · refine ⟨[], placed_nil hunlck, ?_, ?_⟩
      · rw [append_nil]
        exact hdist.mono (by omega)
      · intro tail
        simp [hadded.mpr hunlck]
    · have hnot : added = false := by
        cases added with
        | false => rfl
        | true => exact absurd (hadded.mp rfl) hunlck
      refine ⟨[{ c.request with addr := fresh + 1 }],
        placed_singleton hunlck hr.type_eq (hprop _ hunlck) rfl rfl rfl, ?_, ?_⟩
      · have hnew : Distinct (fresh + 2)
            (pre ++ D ++ { c.request with addr := fresh + 1 } :: (rest ++ post)) :=
          Distinct.insert (by simpa using hdist) (by dsimp only; omega) (by dsimp only; omega)
        simpa using hnew
      · intro tail
        simp [hnot]

def Finished (pre post mine₀ : List (FileLock ω)) (q : Request ω) (fresh : ℕ)
    (locks : List (FileLock ω)) (result : LockResult) : Prop :=
  ∃ mine, locks = pre ++ mine ++ post ∧ Neat q.owner mine ∧ Distinct (fresh + 3) locks ∧
    (result = .ok → Applied q mine₀ mine) ∧ (result ≠ .ok → mine = mine₀)

theorem LeftOk.mem {p : FileLock ω} {left : Option ℕ} (h : LeftOk p left D) {addr : ℕ}
    (hleft : left = some addr) : ∃ lf ∈ D, lf.addr = addr := by
  cases h with
  | clear => cases hleft
  | @reach D lf => exact ⟨lf, by simp, Option.some.inj hleft⟩

variable (hmine : Neat q.owner mine₀) (hq : q.start ≤ q.stop)
include hmine hq

/-- What is behind the request has been trimmed, and the left end is left to be done. -/
theorem Inv.finish_left {P Rr : List (FileLock ω)} (h : Inv pre post mine₀ q fresh c D rest placed)
    (hP : Placed q c.request P) (hdist : Distinct (fresh + 2) (pre ++ D ++ P ++ rest ++ post))
    (hRr : Neat q.owner Rr) (hbehind : ∀ r ∈ Rr, Before c.request r)
    (haddr : Rr.map FileLock.addr = rest.map FileLock.addr)
    (hout : ∀ x t, ¬c.request.Covers x → (Holds Rr x t ↔ Holds rest x t)) :
    Finished pre post mine₀ q fresh (trimLeft c c.left (pre ++ D ++ (P ++ Rr ++ post))) .ok := by
  obtain ⟨Dl, htrim, hDl, hbefore, haddr', hholds⟩ := h.ranges.left_ok.trim (Y := pre) (X := P ++ Rr ++ post)
    (h.ranges.neat.sublist (sublist_append_left D rest)) (by simpa [haddr] using hdist.nodup)
  obtain ⟨hneat, happ⟩ := h.ranges.assemble hmine hq hDl hRr hbefore hbehind hP
    (fun x t hx => by rw [holds_append, holds_append, hholds x t hx, hout x t hx])
  rw [htrim]
  refine ⟨Dl ++ P ++ Rr, by simp, hneat, ?_, fun _ => happ, fun hne => absurd rfl hne⟩
  have hdist' : Distinct (fresh + 3) _ := hdist.mono (by omega)
  refine hdist'.sublist ?_
  simp [haddr, haddr']

theorem Inv.finish_clear (h : Inv pre post mine₀ q fresh c D rest placed) (hrest : ∀ r ∈ rest, Before c.request r)
    (hadded : c.added = true ↔ placed = true ∨ q.type = .unlck) :
    Finished pre post mine₀ q fresh (trimLeft c c.left (c.done ++
      if c.added then rest ++ post else { c.request with addr := fresh + 1 } :: (rest ++ post)))
      .ok := by
  obtain ⟨P, hP, hdist, hlist⟩ := h.place hq hadded
  have hdone := h.finish_left hmine hq hP hdist
    (h.ranges.neat.sublist (sublist_append_right D rest)) hrest rfl fun _ _ _ => Iff.rfl
  rw [hlist]
  simpa using hdone

variable {fl : FileLock ω} {tl : List (FileLock ω)}

theorem Inv.finish_right (h : Inv pre post mine₀ q fresh c D (fl :: tl) placed) (htype : fl.type ≠ q.type)
    (hstart : c.request.start ≤ fl.start) (hin : fl.start ≤ c.request.stop)
    (hstop : c.request.stop < fl.stop) {added : Bool}
    (hadded : added = true ↔ placed = true ∨ q.type = .unlck) :
    Finished pre post mine₀ q fresh (trimLeft c c.left (setStart fl.addr (c.request.stop + 1)
      (c.done ++ if added then fl :: tl ++ post
        else { c.request with addr := fresh + 1 } :: (fl :: tl ++ post)))) .ok := by
  obtain ⟨P, hP, hdist, hlist⟩ := h.place hq hadded
  obtain ⟨hRr, hbehind⟩ := h.ranges.trim_right hq htype hstop
  have hset : setStart fl.addr (c.request.stop + 1) (pre ++ D ++ P ++ (fl :: tl ++ post)) =
      pre ++ D ++ (P ++ { fl with start := c.request.stop + 1 } :: tl ++ post) := by
    rw [cons_append, setStart, map_at rfl (by simpa using hdist.nodup)]
    simp
  rw [hlist, hset]
  refine h.finish_left hmine hq hP hdist hRr hbehind rfl fun x t hx => ?_
  have hcov : FileLock.Covers { fl with start := c.request.stop + 1 } x ↔ fl.Covers x := by
    simp only [FileLock.Covers] at hx ⊢
    omega
  rw [holds_cons, holds_cons, hcov]

theorem Inv.finish_split (h : Inv pre post mine₀ q fresh c D (fl :: tl) placed) (htype : fl.type ≠ q.type)
    (hstart : fl.start < c.request.start) (hstop : c.request.stop < fl.stop) {added : Bool}
    (hadded : added = true ↔ placed = true ∨ q.type = .unlck) :
    Finished pre post mine₀ q fresh (trimLeft c (some (fresh + 2))
      (setStart fl.addr (c.request.stop + 1) (c.done ++ { fl with addr := fresh + 2 } ::
        if added then fl :: tl ++ post
        else { c.request with addr := fresh + 1 } :: (fl :: tl ++ post)))) .ok := by
  obtain ⟨P, hP, hdist, hlist⟩ := h.place hq hadded
  obtain ⟨hplaced, hsame, -, hD⟩ := h.untouched hstart
  obtain ⟨hRr, hbehind⟩ := h.ranges.trim_right hq htype hstop
  have hs := h.ranges.start_le
  have he := h.ranges.le_stop
  have hdone : c.done = pre ++ D := by simp [h.done_eq, hplaced]
  have htail : ∀ tail, (if added then tail else { c.request with addr := fresh + 1 } :: tail) =
      P ++ tail := by
    intro tail
    have := hlist tail
    rw [hdone, append_assoc _ P] at this
    exact append_cancel_left this
  have hcopy : Distinct (fresh + 3)
      (pre ++ D ++ { fl with addr := fresh + 2 } :: (P ++ fl :: (tl ++ post))) :=
    Distinct.insert (by simpa using hdist) (by dsimp only; omega) (by dsimp only; omega)
  have hset : setStart fl.addr (c.request.stop + 1)
      (pre ++ D ++ { fl with addr := fresh + 2 } :: (P ++ fl :: (tl ++ post))) =
      pre ++ D ++ { fl with addr := fresh + 2 } ::
        (P ++ { fl with start := c.request.stop + 1 } :: (tl ++ post)) := by
    have hat : (pre ++ D ++ { fl with addr := fresh + 2 } :: P ++ fl :: (tl ++ post)).map (fun a =>
        if a.addr = fl.addr then { a with start := c.request.stop + 1 } else a) = _ :=
      map_at rfl (by simpa using hcopy.nodup)
    simpa [setStart] using hat
  have htrim : trimLeft c (some (fresh + 2)) (pre ++ D ++ { fl with addr := fresh + 2 } ::
        (P ++ { fl with start := c.request.stop + 1 } :: (tl ++ post))) =
      pre ++ D ++ { fl with addr := fresh + 2, stop := c.request.start - 1 } ::
        (P ++ { fl with start := c.request.stop + 1 } :: (tl ++ post)) :=
    map_at rfl (by simpa using hcopy.nodup)
  have hneat := h.ranges.neat
  obtain ⟨hDl, hbefore⟩ := neat_trim_left
    (hneat.sublist (sublist_append_left D (fl :: tl))) h.ranges.proper h.ranges.before_ahead hD
    (fun heq => htype (heq.trans h.ranges.type_eq)) hstart (by omega) (fresh + 2)
  obtain ⟨hneat', happ⟩ := h.ranges.assemble hmine hq hDl hRr hbefore hbehind hP (fun x t hx => by
      have hcov : (FileLock.Covers { fl with addr := fresh + 2, stop := c.request.start - 1 } x ∨
          FileLock.Covers { fl with start := c.request.stop + 1 } x) ↔ fl.Covers x := by
        simp only [FileLock.Covers] at hx ⊢
        omega
      simp only [holds_append, holds_cons, holds_nil, or_false, ← hcov, or_and_right, or_assoc])
  rw [hdone, htail, cons_append, hset, htrim]
  refine ⟨_, ?_, hneat', ?_, fun _ => happ, fun hne => absurd rfl hne⟩
  · simp
  · refine hcopy.sublist ?_
    simp

variable (h : Inv pre post mine₀ q fresh c D rest placed)
include h

omit hmine hq in
theorem Inv.same_of_not_added (hadded : c.added = false) : placed = false ∧ D ++ rest = mine₀ :=
  h.ahead.resolve_right fun hall => by
    rw [hadded] at hall
    exact Bool.false_ne_true hall.1

omit hq in
theorem Inv.unchanged (hsame : placed = false ∧ D ++ rest = mine₀) (result : LockResult)
    (hok : result = .ok → Applied q mine₀ mine₀) :
    Finished pre post mine₀ q fresh (c.done ++ (rest ++ post)) result := by
  have hlist : c.done ++ (rest ++ post) = pre ++ mine₀ ++ post := by
    rw [h.done_eq, ← hsame.2, hsame.1]
    simp
  refine ⟨mine₀, hlist, hmine, ?_, hok, fun _ => rfl⟩
  rw [← append_assoc]
  exact h.distinct.mono (by omega)

theorem Inv.applied_unlock (hrest : ∀ r ∈ rest, Before c.request r) (hadded : c.added = false) (htype : q.type = .unlck) :
    Applied q mine₀ mine₀ := by
  have hneat := h.ranges.neat
  have hleft := h.ranges.left_ok
  rw [h.unlock htype hadded] at hleft
  cases hleft with
  | clear hD =>
    have hsame := (h.same_of_not_added hadded).2
    obtain ⟨-, happ⟩ := h.ranges.assemble hmine hq (hneat.sublist (sublist_append_left D rest))
      (hneat.sublist (sublist_append_right D rest)) hD hrest (placed_nil htype)
      (fun _ _ _ => Iff.rfl)
    rwa [append_nil, hsame] at happ

omit h

omit hmine hq in
theorem Inv.mark_added_iff (h : Inv pre post mine₀ q fresh c D (fl :: tl) placed) :
    (markOverlap c fl).added = true ↔ placed = true ∨ q.type = .unlck := by
  by_cases hunl : q.type = .unlck
  · have hreq : c.request.type = .unlck := h.ranges.type_eq.trans hunl
    simp [markOverlap, hreq, hunl]
  · have hreq : ¬c.request.type = .unlck := h.ranges.type_eq ▸ hunl
    simp [markOverlap, hreq, hunl, h.added_iff hunl]

theorem Inv.finish_overlap {c₀ : Scan ω} (h : Inv pre post mine₀ q fresh c₀ D (fl :: tl) placed)
    (hc : c = { markOverlap c₀ fl with right := some fl }) (htype : fl.type ≠ q.type)
    (hle : c₀.request.start ≤ fl.stop) (hstart : fl.start ≤ c₀.request.stop)
    (hstop : c₀.request.stop < fl.stop) (newFl newFl2 : Bool) :
    Finished pre post mine₀ q fresh (finish q newFl newFl2 (fresh + 1) c (fl :: tl ++ post)).1.1
      (finish q newFl newFl2 (fresh + 1) c (fl :: tl ++ post)).2 := by
  subst hc
  have hmark := h.mark_added_iff
  have hunl : ¬(!(markOverlap c₀ fl).added && (markOverlap c₀ fl).request.type = .unlck) = true := by
    by_cases hu : c₀.request.type = .unlck <;> simp [markOverlap, hu]
  have hleft : (markOverlap c₀ fl).left = some fl.addr ↔ fl.start < c₀.request.start := by
    refine ⟨fun hcon => ?_, fun hlt => if_pos hlt⟩
    by_contra hlt
    obtain ⟨lf, hlf, haddr⟩ := h.ranges.left_ok.mem ((if_neg hlt).symm.trans hcon)
    obtain rfl : lf = fl := inj_on_of_nodup_map h.distinct.nodup
      (by simp [h.done_eq, hlf]) (by simp) haddr
    have := (h.ranges.before_ahead lf hlf).1
    omega
  unfold Fs.finish
  split
  next hnew2 =>
    simp only [Bool.and_eq_true, decide_eq_true_eq, Option.map_some] at hnew2
    obtain ⟨hplaced, hsame, -, -⟩ := h.untouched (hleft.mp hnew2.1.2)
    exact h.unchanged hmine ⟨hplaced, hsame⟩ _ (by rintro ⟨⟩)
  split
  next hnew =>
    simp only [Bool.and_eq_true, Bool.not_eq_true'] at hnew
    refine h.unchanged hmine (h.same_of_not_added ?_) _ (by rintro ⟨⟩)
    have hreq : ¬c₀.request.type = .unlck := fun hu => by simp [markOverlap, hu] at hnew
    simpa [markOverlap, hreq] using hnew.1
  simp only [trimRight]
  by_cases hlt : fl.start < c₀.request.start
  · simp only [if_pos (hleft.mpr hlt)]
    exact h.finish_split hmine hq htype hlt hstop hmark
  · rw [if_neg fun hcon => hlt (hleft.mp hcon), show (markOverlap c₀ fl).left = c₀.left from if_neg hlt]
    exact h.finish_right hmine hq htype (by omega) hstart hstop hmark

theorem Exit.finish (h : Exit pre post mine₀ q fresh c D rest placed) (newFl newFl2 : Bool) :
    Finished pre post mine₀ q fresh (finish q newFl newFl2 (fresh + 1) c (rest ++ post)).1.1
      (finish q newFl newFl2 (fresh + 1) c (rest ++ post)).2 := by
  cases h with
  | clear hinv hrest =>
    have hnone := hinv.right_eq
    unfold Fs.finish
    rw [if_neg (by simp [hnone])]
    by_cases hunl : (!c.added && c.request.type = .unlck) = true
    · rw [if_pos hunl]
      simp only [Bool.and_eq_true, Bool.not_eq_true', decide_eq_true_eq] at hunl
      exact hinv.unchanged hmine (hinv.same_of_not_added hunl.1) _ fun _ =>
        hinv.applied_unlock hmine hq hrest hunl.1 (hinv.ranges.type_eq ▸ hunl.2)
    rw [if_neg hunl]
    by_cases hnew : (!c.added && !newFl) = true
    · rw [if_pos hnew]
      simp only [Bool.and_eq_true, Bool.not_eq_true'] at hnew
      exact hinv.unchanged hmine (hinv.same_of_not_added hnew.1) _ nofun
    · rw [if_neg hnew]
      simp only [trimRight, hnone]
      refine hinv.finish_clear hmine hq hrest ⟨fun ha => ?_, fun ha => ?_⟩
      · cases placed with
        | true => exact .inl rfl
        | false => exact .inr ((hinv.caller rfl).2 ha)
      · obtain ha | ha := ha
        · exact (hinv.onList ha).1
        · simpa [hinv.ranges.type_eq, ha] using hunl
  | @right c₀ fl tl hinv hrest hc htype hle hstart hstop =>
    subst hrest
    exact hinv.finish_overlap hmine hq hc htype hle hstart hstop newFl newFl2

end Finish

end VDLinux.Fs
