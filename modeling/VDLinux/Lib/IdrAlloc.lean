import VDLinux.Lib.IdrInv

namespace VDLinux.Lib

open Base.Radix Base.Scan Base.Halting Nat

variable {α : Type} {bits h start : ℕ} {H : ℕ → Option (Slot α)}

/-- A tree of the height `h` that holds `H`, and the free layers. -/
structure TreeInv (bits h : ℕ) (H : ℕ → Option (Slot α)) (top : Layer α) (free : List (Layer α)) :
    Prop where
  wf : WF bits h top
  same : ∀ x < 2 ^ (bits * (h + 1)), H x = held bits h top x
  outside : ∀ x, 2 ^ (bits * (h + 1)) ≤ x → H x = none
  zeroed : ∀ p ∈ free, Zeroed p

/-- The search for a free id from `start` on, after every id before the current one was found taken. -/
structure WalkInv (bits h start : ℕ) (H : ℕ → Option (Slot α)) (w : Walk α) : Prop where
  height : w.l + w.above.length = h
  tree : TreeInv bits h H w.top w.free
  path : OnPath bits w.id w.l w.above
  lt : w.id < 2 ^ (bits * (h + 1))
  le : start ≤ w.id
  taken : ∀ x, start ≤ x → x < w.id → H x ≠ none

def SearchEnd (bits h start : ℕ) (H : ℕ → Option (Slot α)) : SubAlloc α → Prop
  | .found w => WalkInv bits h start H w ∧ w.l = 0 ∧ w.p.bitmap.testBit (digit bits w.id 0) = false
  | .needToGrow top free id => TreeInv bits h H top free ∧ start ≤ id ∧ id = 2 ^ (bits * (h + 1)) ∧
      ∀ x, start ≤ x → x < id → H x ≠ none
  | .noMemory top free => TreeInv bits h H top free
  | .noMoreSpace _ _ => False
  | .bug => False

theorem findNextZero_spec (bitmap : ℕ) {n : ℕ} (hn : n < idrSize bits) :
    n ≤ findNextZero bits bitmap n ∧ findNextZero bits bitmap n ≤ idrSize bits ∧
      (∀ i, n ≤ i → i < findNextZero bits bitmap n → bitmap.testBit i = true) ∧
      (findNextZero bits bitmap n < idrSize bits →
        bitmap.testBit (findNextZero bits bitmap n) = false) := by
  rw [findNextZero]
  exact ⟨le_scan hn.le, scan_le _ _, fun i hi hlt => by simpa using scan_miss hi hlt,
    fun hlt => by simpa using scan_hit hlt⟩

namespace WalkInv

variable {w : Walk α} {m id : ℕ}

variable (hw : WalkInv bits h start H w)
include hw

theorem inside {x : ℕ}
    (hdiv : x / 2 ^ (bits * (w.l + 1)) = w.id / 2 ^ (bits * (w.l + 1))) : x < 2 ^ (bits * (h + 1)) := by
  have hl : w.l + 1 ≤ h + 1 := by have := hw.height; omega
  have hzero := div_congr hdiv hl
  rw [div_eq_of_lt hw.lt] at hzero
  exact (div_eq_zero_iff_lt (Nat.two_pow_pos _)).mp hzero

theorem current : WF bits w.l w.p := by
  have hwf := hw.tree.wf
  rw [← hw.height] at hwf
  exact hwf.current hw.path.slotsLt

theorem window (hm : m ≤ idrSize bits)
    (hset : ∀ i, digit bits w.id w.l ≤ i → i < m → w.p.bitmap.testBit i = true) {x : ℕ}
    (hx : w.id ≤ x) (hlt : x < skipTo bits w.id w.l m) : H x ≠ none := by
  rw [idrSize_eq] at hm
  obtain ⟨hdiv, hle, hplace⟩ := skipTo_window hx hlt hm
  rw [hw.tree.same x (hw.inside hdiv), ← hw.height]
  have hheld := held_rebuild (p := w.p) (hw.path.congr hdiv)
  rw [Walk.top, hheld]
  apply hw.current.held_of_testBit
  rw [digit_eq_place] at hset ⊢
  exact hset _ hle hplace

theorem taken_skip (hm : m ≤ idrSize bits)
    (hset : ∀ i, digit bits w.id w.l ≤ i → i < m → w.p.bitmap.testBit i = true) :
    ∀ x, start ≤ x → x < skipTo bits w.id w.l m → H x ≠ none := by
  intro x hx hlt
  by_cases hid : x < w.id
  · exact hw.taken x hx hid
  · exact hw.window hm hset (by omega) hlt

theorem goUp (hh : bits * (h + 1) ≤ 30)
    (hset : ∀ i, digit bits w.id w.l ≤ i → i < idrSize bits → w.p.bitmap.testBit i = true) :
    match goUp bits (h + 1) w with
    | .error e => SearchEnd bits h start H e
    | .ok w' => WalkInv bits h start H w' ∧ w.id < w'.id := by
  have hl : w.l < h + 1 := by have := hw.height; omega
  have htaken := hw.taken_skip (le_refl _) hset
  have hnext : w.id < skipTo bits w.id w.l (2 ^ bits) := lt_skipTo (place_lt bits w.id w.l)
  have hbound : skipTo bits w.id w.l (2 ^ bits) ≤ 2 ^ (bits * (h + 1)) := skipTo_size_le hw.lt hl
  have hpow : 2 ^ (bits * (h + 1)) ≤ 2 ^ 30 := Nat.pow_le_pow_right (by omega) hh
  have hid : ((w.id ||| (1 <<< (bits * (w.l + 1)) - 1)) + 1) % 2 ^ 32 =
      skipTo bits w.id w.l (2 ^ bits) := by
    rw [one_shiftLeft, or_mask_succ, ← skipTo_size]
    exact mod_eq_of_lt (by omega)
  rw [idrSize_eq] at htaken
  have hle := hw.le
  rw [Lib.goUp]
  dsimp only
  rw [hid, one_shiftLeft, Nat.mul_comm (h + 1) bits]
  generalize hnew : skipTo bits w.id w.l (2 ^ bits) = new at *
  have hstart : start ≤ new := by omega
  by_cases hgrow : atLeast new (2 ^ (bits * (h + 1))) = true
  · rw [if_pos hgrow]
    simp only [atLeast, Bool.and_eq_true, decide_eq_true_eq] at hgrow
    exact ⟨hw.tree, hstart, by omega, htaken⟩
  · rw [if_neg hgrow]
    have hlt : new < 2 ^ (bits * (h + 1)) := by
      simp only [atLeast, Bool.and_eq_true, decide_eq_true_eq, not_and, not_le] at hgrow
      exact hgrow (by omega)
    cases habove : w.above with
    | nil =>
      -- at the top the next block is outside the tree
      have hheight : w.l = h := by simpa [habove] using hw.height
      rw [skipTo_size, hheight, Nat.add_mul, Nat.one_mul] at hnew
      omega
    | cons q above =>
      have htop : rebuild (q.1.setAry q.2 (.sub w.p)) above = w.top := by
        rw [Walk.top, habove]
        rfl
      have hheight : w.l + 1 + above.length = h := by
        rw [← hw.height, habove, List.length_cons]
        omega
      dsimp only
      split_ifs with hsh
      · refine ⟨⟨hheight, ?_, ?_, hlt, hstart, htaken⟩, hnext⟩
        · rw [Walk.top, htop]
          exact hw.tree
        · have hpath := hw.path
          rw [habove] at hpath
          rw [shiftRight_eq_div_pow, shiftRight_eq_div_pow] at hsh
          exact hpath.2.congr hsh.symm
      · exact ⟨⟨by simp, hw.tree, True.intro, hlt, hstart, htaken⟩, hnext⟩

theorem goDown (hm : w.p.bitmap.testBit m = false)
    (hle : w.id ≤ id) (hdiv : id / 2 ^ (bits * (w.l + 1)) = w.id / 2 ^ (bits * (w.l + 1)))
    (hdigit : digit bits id w.l = m) (htaken : ∀ x, start ≤ x → x < id → H x ≠ none) :
    match goDown w m id with
    | .error e => SearchEnd bits h start H e
    | .ok w' => WalkInv bits h start H w' ∧ w.id ≤ w'.id ∧ w'.l < w.l := by
  have hlt := hw.inside hdiv
  have hpath := hw.path.congr hdiv
  have hstart : start ≤ id := hw.le.trans hle
  have hcur := hw.current
  have hheight := hw.height
  have htree := hw.tree
  cases w with
  | mk free p above l oid =>
    dsimp only at *
    cases l with
    | zero => exact ⟨⟨hheight, htree, hpath, hlt, hstart, htaken⟩, rfl, hdigit ▸ hm⟩
    | succ l =>
      rw [Lib.goDown]
      dsimp only
      have hslot : m < idrSize bits := hdigit ▸ digit_lt bits id (l + 1)
      have hheight' : l + (above.length + 1) = h := by omega
      have hcases := hcur.2.2 m hslot
      cases hary : p.ary m with
      | user a => simp [hary] at hcases
      | sub q =>
        refine ⟨⟨hheight', ?_, ⟨hdigit.symm, hpath⟩, hlt, hstart, htaken⟩, hle, lt_succ_self l⟩
        have hself : p.setAry m (.sub q) = p := by
          rw [LayerOf.setAry, ← hary, Function.update_eq_self]
        rw [Walk.top, rebuild, hself]
        exact htree
      | null =>
        dsimp only
        cases hget : getFromFreeList free with
        | none => exact htree
        | some r =>
          obtain ⟨new, free'⟩ := r
          obtain ⟨hzero, hfree⟩ := getFromFreeList_zeroed htree.zeroed hget
          have hnew : WF bits l { new with layer := l } := hzero.wf l
          have hadd := hcur.addLayer hslot hary hnew
          refine ⟨⟨hheight', ?_, ⟨hdigit.symm, hpath⟩, hlt, hstart, htaken⟩, hle, lt_succ_self l⟩
          dsimp only
          rw [Walk.top, rebuild]
          have hself : LayerOf.setAry { p.setAry m (.sub { new with layer := l }) with
              count := p.count + 1 } m (.sub { new with layer := l }) =
              { p.setAry m (.sub { new with layer := l }) with count := p.count + 1 } := by
            simp [LayerOf.setAry]
          rw [hself]
          rw [← hheight] at htree ⊢
          refine ⟨htree.wf.rebuild_congr hpath.slotsLt hadd (.inl fun hfull => hfull), fun x hx => ?_,
            htree.outside, hfree⟩
          rw [htree.same x hx]
          refine (held_rebuild_congr fun _ => ?_).symm
          by_cases hx : digit bits x (l + 1) = m
          · simp [held, LayerOf.setAry, hx, hary, hnew.held_of_count hzero.2.1]
          · simp [held, LayerOf.setAry, hx]

omit hw

/-- Either the search moves on to larger ids or it goes down. -/
def measure (h : ℕ) (bits : ℕ) (w : Walk α) : ℕ := (2 ^ (bits * (h + 1)) - w.id) * (h + 2) + w.l

theorem nextId (hw : WalkInv bits h start H w) (hm : m < idrSize bits) (hle : digit bits w.id w.l ≤ m)
    (hset : ∀ i, digit bits w.id w.l ≤ i → i < m → w.p.bitmap.testBit i = true)
    (hid : id = if m ≠ digit bits w.id w.l then
      (w.id >>> (bits * w.l) ^^^ digit bits w.id w.l ^^^ m) <<< (bits * w.l) else w.id) :
    w.id ≤ id ∧ id / 2 ^ (bits * (w.l + 1)) = w.id / 2 ^ (bits * (w.l + 1)) ∧ digit bits id w.l = m ∧
      ∀ x, start ≤ x → x < id → H x ≠ none := by
  have htaken := hw.taken_skip hm.le hset
  by_cases hne : m = digit bits w.id w.l
  · rw [if_neg (not_not.mpr hne)] at hid
    rw [hid]
    exact ⟨le_refl _, rfl, hne.symm, hw.taken⟩
  · rw [if_pos hne] at hid
    have hm' := hm
    rw [idrSize_eq] at hm'
    have hskip : id = skipTo bits w.id w.l m := by
      rw [hid, digit_eq_place, place, shiftRight_eq_div_pow, xor_xor_place hm',
        shiftLeft_eq, skipTo, div_succ]
    rw [digit_eq_place] at hle hne ⊢
    rw [hskip]
    exact ⟨(lt_skipTo (by omega)).le, skipTo_div hm', place_skipTo hm', htaken⟩

theorem measure_lt {w' : Walk α} (hh : w'.l ≤ h) (hlt : w.id < w'.id) (hbound : w'.id ≤ 2 ^ (bits * (h + 1))) :
    measure h bits w' < measure h bits w := by
  have hmul : (2 ^ (bits * (h + 1)) - w'.id + 1) * (h + 2) ≤ (2 ^ (bits * (h + 1)) - w.id) * (h + 2) :=
    Nat.mul_le_mul_right _ (by omega)
  rw [Nat.add_mul, Nat.one_mul] at hmul
  rw [measure, measure]
  omega

theorem measure_lt_down {w' : Walk α} (hle : w.id ≤ w'.id) (hl : w'.l < w.l) :
    measure h bits w' < measure h bits w := by
  have hmul : (2 ^ (bits * (h + 1)) - w'.id) * (h + 2) ≤ (2 ^ (bits * (h + 1)) - w.id) * (h + 2) :=
    Nat.mul_le_mul_right _ (by omega)
  rw [measure, measure]
  omega

theorem step (hw : WalkInv bits h start H w) (hh : bits * (h + 1) ≤ 30) :
    match subAllocStep bits (h + 1) w with
    | .error e => SearchEnd bits h start H e
    | .ok w' => WalkInv bits h start H w' ∧ measure h bits w' < measure h bits w := by
  obtain ⟨hle, hsize, hmarked, hfree⟩ := findNextZero_spec w.p.bitmap (digit_lt bits w.id w.l)
  rw [subAllocStep]
  dsimp only
  generalize findNextZero bits w.p.bitmap (digit bits w.id w.l) = m at *
  by_cases hm : m = idrSize bits
  · have hup := hw.goUp hh (hm ▸ hmarked)
    rw [if_pos hm]
    revert hup
    cases Lib.goUp bits (h + 1) w with
    | error e => exact fun hend => hend
    | ok w' =>
      rintro ⟨hw', hlt⟩
      have hheight := hw'.height
      exact ⟨hw', measure_lt (by omega) hlt hw'.lt.le⟩
  · rw [if_neg hm]
    have hlt : m < idrSize bits := by omega
    generalize hid : (if m ≠ digit bits w.id w.l then
      (w.id >>> (bits * w.l) ^^^ digit bits w.id w.l ^^^ m) <<< (bits * w.l) else w.id) = id
    obtain ⟨hle', hdiv, hdigit, htaken⟩ := hw.nextId hlt hle hmarked hid.symm
    have hdown := hw.goDown (hfree hlt) hle' hdiv hdigit htaken
    have hidlt : ¬maxIdBit ≤ id := by
      have hlt' := hw.inside hdiv
      have hpow : 2 ^ (bits * (h + 1)) ≤ 2 ^ 30 := Nat.pow_le_pow_right (by omega) hh
      have hmax : maxIdBit = 2 ^ 31 := rfl
      omega
    rw [if_neg hidlt]
    revert hdown
    cases Lib.goDown w m id with
    | error e => exact fun hend => hend
    | ok w' =>
      rintro ⟨hw', hle'', hl⟩
      exact ⟨hw', measure_lt_down hle'' hl⟩

end WalkInv

/-- A search in a tree that has room for its first id ends, without memory or with the smallest id. -/
theorem subAlloc_spec {top : Layer α} {free : List (Layer α)} (hbits : 0 < bits)
    (hh : bits * (h + 1) ≤ 30) (htree : TreeInv bits h H top free) (hstart : start < 2 ^ (bits * (h + 1))) :
    ∃ e, subAlloc bits (h + 1) top free start = some e ∧ SearchEnd bits h start H e := by
  have hw : WalkInv bits h start H ⟨free, top, [], h, start⟩ :=
    ⟨rfl, htree, True.intro, hstart, le_refl _, fun x hx hlt => absurd hlt hx.not_gt⟩
  have hpow : 2 ^ (bits * (h + 1)) ≤ 2 ^ 30 := Nat.pow_le_pow_right (by omega) hh
  have hheight : h + 1 ≤ 30 := by nlinarith
  have hfuel : WalkInv.measure h bits ⟨free, top, [], h, start⟩ < loopFuel := by
    have hmul : (2 ^ (bits * (h + 1)) - start) * (h + 2) ≤ 2 ^ 30 * 31 :=
      Nat.mul_le_mul (by omega) (by omega)
    rw [WalkInv.measure, loopFuel]
    dsimp only
    omega
  refine runFor_halts (WalkInv bits h start H) _ (WalkInv.measure h bits) (fun w e hinv hstep => ?_)
    (fun w w' hinv hstep => ?_) hw hfuel
  · have := hinv.step hh
    rwa [hstep] at this
  · have := hinv.step hh
    rwa [hstep] at this

end VDLinux.Lib
