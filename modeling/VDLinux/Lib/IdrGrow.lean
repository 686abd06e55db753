import VDLinux.Lib.IdrAlloc

namespace VDLinux.Lib

open Base.Radix Base.Halting

variable {α : Type} {bits h start id : ℕ} {M : ℕ → Option (Slot α)} {p new : Layer α}
  {free : List (Layer α)}

namespace TreeInv

theorem moveUp (ht : TreeInv bits h M p free) (hcount : p.count = 0) :
    TreeInv bits (h + 1) M { p with layer := p.layer + 1 } free := by
  have hnone : ∀ x, M x = none := by
    intro x
    by_cases hx : x < 2 ^ (bits * (h + 1))
    · rw [ht.same x hx, ht.wf.held_of_count hcount]
    · exact ht.outside x (not_lt.mp hx)
  have hwf : WF bits (h + 1) { p with layer := p.layer + 1 } := by
    refine ⟨congrArg (· + 1) ht.wf.layer_eq, ?_, fun i hi => .inl (ht.wf.empty_of_count hcount hi)⟩
    have hused : ∀ i < idrSize bits, used p (h + 1) i = used p h i := by
      intro i hi
      obtain ⟨hnull, hclear⟩ := ht.wf.empty_of_count hcount hi
      cases h <;> simp [used, hnull, hclear, Slot.isNull]
    exact ht.wf.count_eq.trans (usedCount_congr hused).symm
  exact ⟨hwf, fun x _ => (hnone x).trans (hwf.held_of_count hcount x).symm, fun x _ => hnone x, ht.zeroed⟩

theorem newTop (ht : TreeInv bits h M p free) (hzero : Zeroed new) : TreeInv bits (h + 1) M
      (if p.bitmap = idrFull bits then
        LayerOf.setBit { new.setAry 0 (.sub p) with count := 1, layer := h + 1 } 0
      else { new.setAry 0 (.sub p) with count := 1, layer := h + 1 }) free := by
  have hsize : 0 < idrSize bits := by
    rw [idrSize_eq]
    exact Nat.two_pow_pos bits
  have hwf : WF bits (h + 1) { new.setAry 0 (.sub p) with count := 1, layer := h + 1 } := by
    have hadd := (hzero.wf (h + 1)).addLayer hsize (hzero.2.2 0) ht.wf
    have hone : new.count + 1 = 1 := by rw [hzero.2.1]; rfl
    rw [hone] at hadd
    exact hadd
  have hheld : ∀ x, held bits (h + 1) { new.setAry 0 (.sub p) with count := 1, layer := h + 1 } x =
      if digit bits x (h + 1) = 0 then held bits h p x else none := by
    intro x
    by_cases hx : digit bits x (h + 1) = 0 <;> simp [held, LayerOf.setAry, hx, hzero.2.2]
  have hsame : ∀ x < 2 ^ (bits * (h + 1 + 1)), M x =
      if digit bits x (h + 1) = 0 then held bits h p x else none := by
    intro x hx
    have hiff := lt_iff_place_eq_zero hx
    rw [digit_eq_place]
    split_ifs with hdigit
    · exact ht.same x (hiff.mpr hdigit)
    · exact ht.outside x (not_lt.mp (mt hiff.mp hdigit))
  have hout : ∀ x, 2 ^ (bits * (h + 1 + 1)) ≤ x → M x = none := by
    intro x hx
    have hpow : 2 ^ (bits * (h + 1)) ≤ 2 ^ (bits * (h + 1 + 1)) :=
      Nat.pow_le_pow_right (by omega) (Nat.mul_le_mul_left bits (by omega))
    exact ht.outside x (by omega)
  split_ifs with hfull
  · exact ⟨hwf.setBit (by simp [LayerOf.setAry]) hfull, fun x hx => (hsame x hx).trans (hheld x).symm,
      hout, ht.zeroed⟩
  · exact ⟨hwf, fun x hx => (hsame x hx).trans (hheld x).symm, hout, ht.zeroed⟩

end TreeInv

section Grow

/-- `p` is `p₀` under layers that were put on it. -/
def Stacked : ℕ → Layer α → Layer α → Prop
  | 0, p, p₀ => p = p₀
  | built + 1, p, p₀ => ∃ q, p.ary 0 = .sub q ∧ (∀ i, i ≠ 0 → p.ary i = .null) ∧ Stacked built q p₀

theorem tearDown_spec {built : ℕ} {p₀ : Layer α} (hp : Stacked built p p₀) (hfree : ∀ q ∈ free, Zeroed q) :
    ∃ free', tearDown built p free = (p₀, free') ∧ ∀ q ∈ free', Zeroed q := by
  induction built generalizing p free with
  | zero => exact ⟨free, by rw [tearDown, show p = p₀ from hp], hfree⟩
  | succ built ih =>
    obtain ⟨q, hq, hnull, hrest⟩ := hp
    rw [tearDown, hq]
    refine ih hrest (List.forall_mem_cons.mpr ⟨⟨rfl, rfl, fun i => ?_⟩, hfree⟩)
    by_cases hi : i = 0
    · simp [LayerOf.setAry, hi]
    · simp [LayerOf.setAry, hi, hnull i hi]

/-- How growing ends: with a tree that has room for `id` if it may get there, or as it was. -/
def GrowEnd (bits h rounds id : ℕ) (M : ℕ → Option (Slot α)) (p₀ : Layer α) : Grown α → Prop
  | .ready top free layers => ∃ k ≤ rounds, layers = h + k + 1 ∧ TreeInv bits (h + k) M top free ∧
      (k = rounds ∨ atLeast id (2 ^ (bits * (h + k + 1))) = false)
  | .noMemory top free => top = p₀ ∧ ∀ q ∈ free, Zeroed q

theorem GrowEnd.succ {rounds : ℕ} {p₀ : Layer α} {g : Grown α}
    (hg : GrowEnd bits (h + 1) rounds id M p₀ g) : GrowEnd bits h (rounds + 1) id M p₀ g := by
  cases g with
  | noMemory top free => exact hg
  | ready top free layers =>
    obtain ⟨k, hk, hlayers, htree, hroom⟩ := hg
    have hadd : h + (k + 1) = h + 1 + k := by omega
    refine ⟨k + 1, by omega, by omega, hadd ▸ htree, ?_⟩
    rw [hadd]
    exact hroom.imp_left (by omega)

theorem growLoop_spec {rounds built : ℕ} {p₀ : Layer α} (ht : TreeInv bits h M p free)
    (hstack : p.count ≠ 0 → Stacked built p p₀) :
    GrowEnd bits h rounds id M p₀ (growLoop bits id rounds built p free (h + 1)) := by
  induction rounds generalizing h built p free with
  | zero => exact ⟨0, le_refl _, rfl, ht, .inl rfl⟩
  | succ rounds ih =>
    rw [growLoop, Nat.one_shiftLeft, Nat.mul_comm (h + 1)]
    by_cases hid : atLeast id (2 ^ (bits * (h + 1))) = true
    · rw [if_pos hid]
      by_cases hcount : p.count = 0
      · rw [if_pos hcount]
        exact (ih (ht.moveUp hcount) (absurd hcount)).succ
      · rw [if_neg hcount]
        cases hget : getFromFreeList free with
        | none =>
          obtain ⟨free', htear, hzeroed⟩ := tearDown_spec (hstack hcount) ht.zeroed
          rw [htear]
          exact ⟨rfl, hzeroed⟩
        | some r =>
          obtain ⟨new, free'⟩ := r
          obtain ⟨hzero, hzeroed⟩ := getFromFreeList_zeroed ht.zeroed hget
          have ht' : TreeInv bits h M p free' := ⟨ht.wf, ht.same, ht.outside, hzeroed⟩
          refine (ih (ht'.newTop hzero) fun _ => ?_).succ
          refine ⟨p, ?_, fun i hi => ?_, hstack hcount⟩
          · split_ifs <;> simp [LayerOf.setAry, LayerOf.setBit]
          · split_ifs <;> simp [LayerOf.setAry, LayerOf.setBit, hi, hzero.2.2]
    · rw [if_neg hid]
      exact ⟨0, Nat.zero_le _, rfl, ht, .inr (by simpa using hid)⟩

end Grow

/-- The handle, with the pointers that are stored under the allocated ids. -/
structure IdrInv (bits : ℕ) (M : ℕ → Option (Slot α)) (idp : Idr α) : Prop where
  zeroed : ∀ p ∈ idp.idFree, Zeroed p
  empty : idp.top = none → idp.layers = 0 ∧ ∀ x, M x = none
  tree : ∀ top, idp.top = some top → ∃ h, idp.layers = h + 1 ∧ h + 1 ≤ maxLevel bits - 1 ∧
    TreeInv bits h M top idp.idFree

theorem IdrInv.of_tree (hh : h + 1 ≤ maxLevel bits - 1) (ht : TreeInv bits h M p free) :
    IdrInv bits M ⟨some p, free, h + 1⟩ := by
  refine ⟨ht.zeroed, nofun, fun top htop => ⟨h, rfl, hh, ?_⟩⟩
  cases htop
  exact ht

theorem firstLayer_spec {idp : Idr α} (hinv : IdrInv bits M idp) (hlevel : 1 ≤ maxLevel bits - 1)
    {layers : ℕ} (hfirst : firstLayer idp = some (p, free, layers)) :
    ∃ h, layers = h + 1 ∧ h + 1 ≤ maxLevel bits - 1 ∧ TreeInv bits h M p free ∧
      ∀ top, idp.top = some top → top = p := by
  rw [firstLayer] at hfirst
  cases htop : idp.top with
  | some top =>
    rw [htop] at hfirst
    cases hfirst
    obtain ⟨h, hlayers, hle, ht⟩ := hinv.tree p htop
    exact ⟨h, hlayers, hle, ht, fun top heq => (Option.some.inj heq).symm⟩
  | none =>
    rw [htop] at hfirst
    cases hget : getFromFreeList idp.idFree with
    | none =>
      rw [hget] at hfirst
      cases hfirst
    | some r =>
      obtain ⟨hzero, hzeroed⟩ := getFromFreeList_zeroed hinv.zeroed hget
      have hnone := (hinv.empty htop).2
      rw [hget] at hfirst
      cases hfirst
      refine ⟨0, rfl, hlevel, ⟨hzero.wf 0, fun x _ => ?_, fun x _ => hnone x, hzeroed⟩, nofun⟩
      rw [hnone x, (hzero.wf 0).held_of_count hzero.2.1]

def idLimit (bits : ℕ) : ℕ := 2 ^ (bits * (maxLevel bits - 1))

theorem maxLevel_bound (hbits : 0 < bits) : bits * (maxLevel bits - 1) ≤ 30 := by
  have hmul := Nat.mul_div_le (maxIdShift + bits - 1) bits
  have hshift : maxIdShift = 31 := rfl
  rw [maxLevel, Nat.mul_sub, Nat.mul_one]
  omega

/-- A search from `start` on that has come to `id`, while some id below the limit is free. -/
structure BuildInv (bits start : ℕ) (M : ℕ → Option (Slot α)) (s : Idr α × ℕ) : Prop where
  inv : IdrInv bits M s.1
  le : start ≤ s.2
  taken : ∀ x, start ≤ x → x < s.2 → M x ≠ none
  room : ∃ x, start ≤ x ∧ x < idLimit bits ∧ M x = none

def SlotEnd (bits start : ℕ) (M : ℕ → Option (Slot α)) : EmptySlot α → Prop
  | .found w layers => ∃ h, layers = h + 1 ∧ h + 1 ≤ maxLevel bits - 1 ∧ WalkInv bits h start M w ∧
      w.l = 0 ∧ w.p.bitmap.testBit (digit bits w.id 0) = false
  | .noMemory idp => IdrInv bits M idp
  | .noMoreSpace _ => False
  | .bug => False

variable {s : Idr α × ℕ}

theorem BuildInv.lt_limit (hs : BuildInv bits start M s) : s.2 < idLimit bits := by
  obtain ⟨x, hx, hlt, hnone⟩ := hs.room
  have hle : s.2 ≤ x := not_lt.mp fun hcon => hs.taken x hx hcon hnone
  omega

theorem BuildInv.step (hs : BuildInv bits start M s) (hbits : 0 < bits) (hlevel : 1 ≤ maxLevel bits - 1) :
    match buildUp bits s with
    | .error e => SlotEnd bits start M e
    | .ok s' => BuildInv bits start M s' ∧ s.2 < s'.2 := by
  have hlimit := hs.lt_limit
  have hbound := maxLevel_bound hbits
  have hmax : idLimit bits ≤ 2 ^ 30 := Nat.pow_le_pow_right (by omega) hbound
  obtain ⟨idp, id⟩ := s
  have hinv := hs.inv
  rw [buildUp]
  cases hfirst : firstLayer idp with
  | none => exact hinv
  | some r =>
    obtain ⟨p, free, layers⟩ := r
    obtain ⟨h, rfl, hle, ht, hsame⟩ := firstLayer_spec hinv hlevel hfirst
    have hgrow : GrowEnd bits h (maxLevel bits - 1 - (h + 1)) id M p
      (growLoop bits id (maxLevel bits - 1 - (h + 1)) 0 p free (h + 1)) := growLoop_spec ht fun _ => rfl
    revert hgrow
    dsimp only
    cases growLoop bits id (maxLevel bits - 1 - (h + 1)) 0 p free (h + 1) with
    | noMemory top free' =>
      rintro ⟨rfl, hzeroed⟩
      refine ⟨hzeroed, fun hnone => hinv.empty (by simpa using hnone), fun t htop => ?_⟩
      cases hold : idp.top with
      | none => simp [hold] at htop
      | some told =>
        rw [hold] at htop
        obtain rfl : top = t := Option.some.inj htop
        obtain rfl := hsame told hold
        obtain ⟨h', hlayers, hle', ht'⟩ := hinv.tree told hold
        exact ⟨h', hlayers, hle', ht'.wf, ht'.same, ht'.outside, hzeroed⟩
    | ready top free' layers =>
      rintro ⟨k, hk, rfl, ht', hroom⟩
      have hidlt : id < 2 ^ (bits * (h + k + 1)) := by
        cases hroom with
        | inl hk =>
          have hfull : h + k + 1 = maxLevel bits - 1 := by omega
          rw [hfull]
          exact hlimit
        | inr hroom =>
          simp only [atLeast, Bool.and_eq_false_iff, decide_eq_false_iff_not] at hroom
          omega
      have hheight : h + k + 1 ≤ maxLevel bits - 1 := by omega
      have hsmall : bits * (h + k + 1) ≤ 30 := (Nat.mul_le_mul_left bits hheight).trans hbound
      obtain ⟨e, hsub, hend⟩ := subAlloc_spec hbits hsmall ht' hidlt
      dsimp only
      rw [hsub]
      have htaken : ∀ x, start ≤ x → ∀ id', (∀ y, id ≤ y → y < id' → M y ≠ none) → x < id' →
          M x ≠ none := by
        intro x hx id' hnew hlt
        by_cases hold : x < id
        · exact hs.taken x hx hold
        · exact hnew x (not_lt.mp hold) hlt
      cases e with
      | found w =>
        obtain ⟨hw, hl, hbit⟩ := hend
        exact ⟨h + k, rfl, hheight, ⟨hw.height, hw.tree, hw.path, hw.lt, hs.le.trans hw.le,
          fun x hx => htaken x hx _ hw.taken⟩, hl, hbit⟩
      | needToGrow top' free'' id' =>
        obtain ⟨ht'', hle', hid', hnew⟩ := hend
        exact ⟨⟨.of_tree hheight ht'', hs.le.trans hle', fun x hx => htaken x hx _ hnew, hs.room⟩,
          hid' ▸ hidlt⟩
      | noMemory top' free'' => exact .of_tree hheight hend
      | noMoreSpace top' free'' => exact hend
      | bug => exact hend

theorem idrGetEmptySlot_spec {idp : Idr α} (hinv : IdrInv bits M idp) (hbits : 0 < bits)
    (hlevel : 1 ≤ maxLevel bits - 1) (hroom : ∃ x, start ≤ x ∧ x < idLimit bits ∧ M x = none) :
    ∃ e, idrGetEmptySlot bits idp start = some e ∧ SlotEnd bits start M e := by
  have hs : BuildInv bits start M (idp, start) :=
    ⟨hinv, le_refl _, fun x hx hlt => absurd hlt hx.not_gt, hroom⟩
  have hmax : idLimit bits ≤ 2 ^ 30 := Nat.pow_le_pow_right (by omega) (maxLevel_bound hbits)
  refine runFor_halts (BuildInv bits start M) _ (fun s => idLimit bits - s.2) (fun s e hinv' hstep => ?_)
    (fun s s' hinv' hstep => ?_) hs ?_
  · have := hinv'.step hbits hlevel
    rwa [hstep] at this
  · have := hinv'.step hbits hlevel
    rw [hstep] at this
    have hlt := this.1.lt_limit
    exact ⟨this.1, by omega⟩
  · rw [loopFuel]
    omega

end VDLinux.Lib
