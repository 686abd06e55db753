import VDLinux.Mm.SwapMap

namespace VDLinux.Mm.Swap

open Base.CarryChain BitVec Function List

def digit (m : Byte) : Digit := ⟨(m &&& ~~~countContinued).toNat, m &&& countContinued ≠ 0⟩

/-- The digits that the continuation pages hold for the offset `o` of their page. -/
def column (o : ℕ) (lru : List ContPage) : List Digit := lru.map fun page => digit (page o)

theorem digit_succ : ∀ m : Byte, m ≠ swapContMax ||| countContinued → m ≠ swapContMax →
    digit (m + 1) = ⟨(digit m).val + 1, (digit m).more⟩ ∧ (digit m).val + 1 < 128 := by
  decide +kernel

theorem digit_pred : ∀ m : Byte, m ≠ countContinued → m ≠ 0 →
    digit m = ⟨(digit (m - 1)).val + 1, (digit (m - 1)).more⟩ := by
  decide +kernel

theorem and_not_or_and (x m : Byte) : (x &&& ~~~m) ||| (x &&& m) = x := by
  refine eq_of_getLsbD_eq fun i hi => ?_
  simp only [getLsbD_or, getLsbD_and, getLsbD_not, hi, decide_true, Bool.true_and]
  cases x.getLsbD i <;> cases m.getLsbD i <;> rfl

theorem digit_val_pos (m : Byte) (hne : m ≠ 0) (hmore : (digit m).more = false) : 0 < (digit m).val := by
  refine Nat.pos_of_ne_zero fun hval => hne ?_
  have hhigh : m &&& countContinued = 0 := by simpa [digit] using hmore
  have hlow : m &&& ~~~countContinued = 0 := eq_of_toNat_eq hval
  rw [← and_not_or_and m countContinued, hhigh, hlow]
  rfl

theorem digit_lt (m : Byte) : (digit m).val < 128 := by
  exact Nat.and_lt_two_pow _ (n := 7) (by decide)

@[simp]
theorem column_cons (o : ℕ) (page : ContPage) (lru : List ContPage) :
    column o (page :: lru) = digit (page o) :: column o lru := rfl

@[simp]
theorem column_append (o : ℕ) (lru lru' : List ContPage) :
    column o (lru ++ lru') = column o lru ++ column o lru' := map_append

variable {o : ℕ} {before : List ContPage}

theorem column_passed {m : Byte} (h : ∀ p ∈ before, p o = m) :
    column o before.reverse = List.replicate before.length (digit m) := by
  refine eq_replicate_iff.mpr ⟨by simp [column], ?_⟩
  intro d hd
  obtain ⟨p, hp, rfl⟩ := mem_map.mp hd
  rw [h p (mem_reverse.mp hp)]

theorem column_zeroBack (o : ℕ) (before done : List ContPage) :
    column o (zeroBack o before done) = List.replicate before.length ⟨0, true⟩ ++ column o done := by
  induction before generalizing done with
  | nil => rfl
  | cons page before ih =>
    rw [zeroBack, ih, column_cons, update_self, length_cons, List.replicate_succ',
      List.append_assoc, singleton_append]
    rfl

theorem column_zeroBack_ne {o o' : ℕ} (hne : o' ≠ o) (before done : List ContPage) :
    column o' (zeroBack o before done) = column o' (before.reverse ++ done) := by
  induction before generalizing done with
  | nil => rfl
  | cons page before ih =>
    rw [zeroBack, ih]
    simp [update_of_ne hne]

theorem column_finishCarry (o : ℕ) (before : List ContPage) (page : ContPage) (after : List ContPage) :
    column o (finishCarry o before page after) =
      List.replicate before.length ⟨0, true⟩ ++ digit (page o + 1) :: column o after := by
  rw [finishCarry, column_zeroBack, column_cons, update_self]

theorem column_finishCarry_ne {o o' : ℕ} (hne : o' ≠ o) (before : List ContPage) (page : ContPage)
    (after : List ContPage) :
    column o' (finishCarry o before page after) = column o' (before.reverse ++ page :: after) := by
  rw [finishCarry, column_zeroBack_ne hne]
  simp [update_of_ne hne]

/-- The pages `lru'` hold a sound number at `o` that is one higher than in `lru`, and the rest of every
page is as it was. -/
structure Raised (o : ℕ) (lru lru' : List ContPage) : Prop where
  sound : Sound 128 (column o lru')
  value_eq : value 128 (column o lru') = value 128 (column o lru) + 1
  others : ∀ o', o' ≠ o → column o' lru' = column o' lru

theorem Raised.of_passed {before lru lru' rest : List ContPage} {d : List Digit}
    (hfull : ∀ p ∈ before, p o = swapContMax ||| countContinued)
    (hlru : lru = before.reverse ++ rest)
    (hcol : column o lru' = List.replicate before.length ⟨0, true⟩ ++ d) (hd : Sound 128 d)
    (hval : value 128 d = value 128 (column o rest) + 1)
    (hothers : ∀ o', o' ≠ o → column o' lru' = column o' lru) : Raised o lru lru' := by
  have hpos : 0 < value 128 d := by omega
  refine ⟨?_, ?_, hothers⟩
  · rw [hcol]
    exact (hd.cons_replicate (by decide) rfl hpos before.length).1
  · have hnines := value_nines (show 0 < 128 by decide) before.length (column o rest)
    have hpassed := column_passed hfull
    rw [show digit (swapContMax ||| countContinued) = ⟨128 - 1, true⟩ from rfl] at hpassed
    rw [hcol, value_zeros, hlru, column_append, hpassed, hnines, hval]

variable {page : ContPage} {after : List ContPage}

theorem raised_finishCarry (hfull : ∀ p ∈ before, p o = swapContMax ||| countContinued)
    (hs : Sound 128 (column o (page :: after))) (h9 : page o ≠ swapContMax ||| countContinued)
    (hmax : page o ≠ swapContMax) :
    Raised o (before.reverse ++ page :: after) (finishCarry o before page after) := by
  obtain ⟨hsucc, hlt⟩ := digit_succ _ h9 hmax
  refine Raised.of_passed hfull rfl (column_finishCarry o before page after) ?_ ?_
    fun o' hne => column_finishCarry_ne hne before page after
  · rw [hsucc]
    exact ⟨hlt, hs.2⟩
  · simp only [column_cons, value, hsucc]
    omega

/-- The digit that the walk stops at is the last one and full, and there is a page behind it. What that
page holds for this entry is not looked at. -/
theorem raised_newDigit {page next : ContPage}
    (hfull : ∀ p ∈ before, p o = swapContMax ||| countContinued) (hmax : page o = swapContMax) :
    Raised o (before.reverse ++ page :: next :: after)
      (finishCarry o (page :: before) (update next o 0) after) := by
  have hone : digit (0 + 1) = ⟨1, false⟩ := rfl
  have hcol := column_finishCarry o (page :: before) (update next o 0) after
  rw [update_self, length_cons, List.replicate_succ', List.append_assoc,
    singleton_append, hone] at hcol
  refine Raised.of_passed hfull rfl hcol ?_ ?_ ?_
  · exact ⟨by decide, fun _ => ⟨⟨by decide, nofun⟩, by simp [value]⟩⟩
  · rw [column_cons, hmax, show digit swapContMax = ⟨127, false⟩ from rfl]
    simp [value]
  · intro o' hne
    rw [column_finishCarry_ne hne]
    simp [update_of_ne hne]

theorem carry_spec (o : ℕ) (before : List ContPage) (page : ContPage) (after : List ContPage)
    (hfull : ∀ p ∈ before, p o = swapContMax ||| countContinued)
    (hs : Sound 128 (column o (page :: after))) :
    carry o before page after = .ok none ∨ ∃ lru, carry o before page after = .ok (some lru) ∧
        Raised o (before.reverse ++ page :: after) lru := by
  fun_induction carry o before page after with
  | case1 before page h9 =>
    -- a digit that carries on is followed by another page
    rw [column_cons, h9] at hs
    exact (hs.2 rfl).1.elim
  | case2 before page h9 hmax => exact .inl rfl
  | case3 before page h9 hmax => exact .inr ⟨_, rfl, raised_finishCarry hfull hs h9 hmax⟩
  | case4 before page next after h9 ih =>
    rw [column_cons, h9] at hs
    simpa only [reverse_cons, List.append_assoc, singleton_append] using
      ih (forall_mem_cons.mpr ⟨h9, hfull⟩) (hs.2 rfl).1
  | case5 before page next after h9 hmax => exact .inr ⟨_, rfl, raised_newDigit hfull hmax⟩
  | case6 before page next after h9 hmax => exact .inr ⟨_, rfl, raised_finishCarry hfull hs h9 hmax⟩

/-- All pages hold the highest digit at `o`, and the last of them ends the number. -/
def Full (o : ℕ) : List ContPage → Prop
  | [] => False
  | [page] => page o = swapContMax
  | page :: next :: after => page o = swapContMax ||| countContinued ∧ Full o (next :: after)

theorem full_of_carry (h : carry o before page after = .ok none) : Full o (page :: after) := by
  fun_induction carry o before page after with
  | case1 | case3 | case5 | case6 => cases h
  | case2 before page h9 hmax => exact hmax
  | case4 before page next after h9 ih => exact ⟨h9, ih h⟩

theorem Full.hasRoom {lru : List ContPage} (h : Full o lru) {count : Byte}
    (hcount : count &&& countContinued ≠ 0) : hasRoom o count lru = false := by
  induction lru generalizing count with
  | nil => exact h.elim
  | cons page after ih =>
    cases after with
    | nil =>
      change page o = swapContMax at h
      have hmax : ¬ page o &&& ~~~countContinued ≠ swapContMax := by
        rw [h]
        decide
      rw [Swap.hasRoom, if_neg hcount, if_neg hmax, Swap.hasRoom]
    | cons next after =>
      have hmax : ¬ page o &&& ~~~countContinued ≠ swapContMax := by
        rw [h.1]
        decide
      have hmore : page o &&& countContinued ≠ 0 := by
        rw [h.1]
        decide
      rw [Swap.hasRoom, if_neg hcount, if_neg hmax]
      exact ih h.2 hmore

theorem Full.carry_append (h : Full o (page :: after)) (new : ContPage) :
    ∃ lru, carry o before page (after ++ [new]) = .ok (some lru) := by
  induction after generalizing before page with
  | nil =>
    change page o = swapContMax at h
    have hne : page o ≠ swapContMax ||| countContinued := by
      rw [h]
      decide
    exact ⟨_, by rw [List.nil_append, carry, if_neg hne, if_pos h]⟩
  | cons next after ih =>
    rw [List.cons_append, carry, if_pos h.1]
    exact ih h.2

/-- The pages `lru'` hold at `o` a number that is one lower than in `lru`, which is a sound one above 0
if `more`, and the rest of every page is as it was. -/
structure Lowered (o : ℕ) (lru lru' : List ContPage) (more : Bool) : Prop where
  last : more = false → value 128 (column o lru) = 1
  sound : more = true → Sound 128 (column o lru') ∧ 0 < value 128 (column o lru')
  value_eq : more = true → value 128 (column o lru') + 1 = value 128 (column o lru)
  others : ∀ o', o' ≠ o → column o' lru' = column o' lru

theorem column_nineBack (o : ℕ) (before done : List ContPage) :
    (nineBack o countContinued before done).1 = countContinued ∧
      column o (nineBack o countContinued before done).2 =
        List.replicate before.length ⟨127, true⟩ ++ column o done := by
  induction before generalizing done with
  | nil => exact ⟨rfl, rfl⟩
  | cons page before ih =>
    obtain ⟨hcount, hcol⟩ := ih (update page o (swapContMax ||| countContinued) :: done)
    refine ⟨hcount, hcol.trans ?_⟩
    rw [column_cons, update_self, length_cons, List.replicate_succ', List.append_assoc,
      singleton_append]
    rfl

theorem column_nineBack_ne {o o' : ℕ} (hne : o' ≠ o) (count : Byte) (before done : List ContPage) :
    column o' (nineBack o count before done).2 = column o' (before.reverse ++ done) := by
  induction before generalizing done count with
  | nil => rfl
  | cons page before ih =>
    rw [nineBack, ih]
    simp [update_of_ne hne]

theorem Lowered.of_passed {before lru lru' rest : List ContPage} {n : ℕ} {d : List Digit}
    (hzero : ∀ p ∈ before, p o = countContinued) (hlru : lru = before.reverse ++ rest)
    (hcol : column o lru' = List.replicate n ⟨127, true⟩ ++ d) (hd : Sound 128 d)
    (hpos : 0 < value 128 d)
    (hval : 128 ^ n * (value 128 d + 1) = 128 ^ before.length * value 128 (column o rest))
    (hothers : ∀ o', o' ≠ o → column o' lru' = column o' lru) : Lowered o lru lru' true := by
  refine ⟨nofun, fun _ => ?_, fun _ => ?_, hothers⟩
  · rw [hcol]
    exact hd.cons_replicate (by decide) rfl hpos n
  · have hpassed := column_passed hzero
    rw [show digit countContinued = ⟨0, true⟩ from rfl] at hpassed
    rw [hcol, hlru, column_append, hpassed, value_zeros, ← hval]
    exact value_nines (show 0 < 128 by decide) n d

theorem finishBorrow_spec
    (hzero : ∀ p ∈ before, p o = countContinued) (hs : Sound 128 (column o (page :: after)))
    (hpos : 0 < value 128 (column o (page :: after))) (h0 : page o ≠ countContinued) :
    ∃ count lru, finishBorrow o before page after = .ok (count, lru) ∧
      Lowered o (before.reverse ++ page :: after) lru (count = countContinued) := by
  have hne : page o ≠ 0 := by
    intro h
    rw [column_cons, h, show digit 0 = ⟨0, false⟩ from rfl] at hpos
    simp [value] at hpos
  have hpred := digit_pred _ h0 hne
  simp only [finishBorrow, if_neg hne, update_self]
  refine ⟨_, _, rfl, ?_⟩
  have hothers : ∀ count o', o' ≠ o →
      column o' (nineBack o count before (update page o (page o - 1) :: after)).2 =
        column o' (before.reverse ++ page :: after) := by
    intro count o' hne'
    rw [column_nineBack_ne hne']
    simp [update_of_ne hne']
  by_cases h1 : page o - 1 = 0
  · rw [h1, show digit 0 = ⟨0, false⟩ from rfl] at hpred
    have hval : value 128 (column o (page :: after)) = 1 := by
      rw [column_cons, hpred]
      simp [value]
    rw [if_pos h1]
    cases before with
    | nil => exact ⟨fun _ => hval, by rintro ⟨⟩, by rintro ⟨⟩, hothers 0⟩
    | cons q before =>
      -- the highest digit is gone: the one below it becomes the last
      obtain ⟨hcount, hcol⟩ := column_nineBack o before
        (update q o (swapContMax ||| 0) :: update page o (page o - 1) :: after)
      rw [column_cons, update_self, show digit (swapContMax ||| 0) = ⟨127, false⟩ from rfl]
        at hcol
      rw [nineBack, hcount, decide_eq_true rfl]
      refine Lowered.of_passed hzero rfl hcol ⟨by decide, by rintro ⟨⟩⟩ (by simp [value]) ?_
        (hothers 0)
      rw [hval, length_cons, Nat.pow_succ]
      simp [value]
  · obtain ⟨hcount, hcol⟩ := column_nineBack o before (update page o (page o - 1) :: after)
    rw [column_cons, update_self] at hcol
    rw [if_neg h1, hcount, decide_eq_true rfl]
    have hmore : (digit (page o - 1)).more = (digit (page o)).more := by rw [hpred]
    have hs' : Sound 128 (digit (page o - 1) :: column o after) :=
      ⟨digit_lt _, fun h => hs.2 (hmore.symm.trans h)⟩
    have hpos' : 0 < value 128 (digit (page o - 1) :: column o after) := by
      cases hm : (digit (page o - 1)).more with
      | true => exact hs'.pos_of_more hm
      | false => exact Nat.add_pos_left (digit_val_pos _ h1 hm) _
    refine Lowered.of_passed hzero rfl hcol hs' hpos' ?_ (hothers countContinued)
    rw [column_cons, hpred]
    simp only [value]
    congr 1
    omega

theorem borrow_spec (o : ℕ) (before : List ContPage) (page : ContPage) (after : List ContPage)
    (hzero : ∀ p ∈ before, p o = countContinued) (hs : Sound 128 (column o (page :: after)))
    (hpos : 0 < value 128 (column o (page :: after))) :
    ∃ count lru, borrow o before page after = .ok (count, lru) ∧
      Lowered o (before.reverse ++ page :: after) lru (count = countContinued) := by
  fun_induction borrow o before page after with
  | case1 before page h0 =>
    rw [column_cons, h0] at hs
    exact (hs.2 rfl).1.elim
  | case3 before page next after h0 ih =>
    rw [column_cons, h0] at hs
    obtain ⟨hnext, hpos'⟩ := hs.2 rfl
    simpa only [reverse_cons, List.append_assoc, singleton_append] using
      ih (forall_mem_cons.mpr ⟨h0, hzero⟩) hnext hpos'
  | case2 before page h0 | case4 before page next after h0 => exact finishBorrow_spec hzero hs hpos h0

end VDLinux.Mm.Swap
