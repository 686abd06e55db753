import VDLinux.Lib.IdrGrow

namespace VDLinux.Lib

open Base.Radix Function List

variable {α : Type} {bits h l id x : ℕ} {M : ℕ → Option (Slot α)} {p p₀ q : Layer α} {above : Above α}

theorem setBit_full {d : ℕ} (hd : d < idrSize bits) (hfull : p.bitmap = idrFull bits) :
    (p.setBit d).bitmap = idrFull bits := by
  apply Nat.eq_of_testBit_eq
  intro i
  rw [testBit_setBit, hfull]
  by_cases hi : d = i
  · simp [← hi, testBit_full hd]
  · simp [hi]

/-- What `g` maps ids to is what the tree held, except on the path to `p₀`, where it is what `p` holds. -/
def Grafted (bits l : ℕ) (above : Above α) (p p₀ : Layer α) (g : ℕ → Option (Slot α)) : Prop :=
  ∀ x, (OnPath bits x l above → g x = held bits l p x) ∧
    (¬OnPath bits x l above → g x = held bits (l + above.length) (rebuild p₀ above) x)

theorem grafted_rebuild :
    Grafted bits l above p p₀ (held bits (l + above.length) (rebuild p above)) := by
  intro x
  exact ⟨held_rebuild, fun hx => held_rebuild_congr fun hx' => absurd hx' hx⟩

theorem Grafted.cons {slot : ℕ} {q' : Layer α} {g : ℕ → Option (Slot α)}
    (h : Grafted bits (l + 1) above q' (q.setAry slot (.sub p₀)) g)
    (hq : ∀ x, held bits (l + 1) q' x =
      if slot = digit bits x (l + 1) then held bits l p x else held bits (l + 1) q x) :
    Grafted bits l ((q, slot) :: above) p p₀ g := by
  intro x
  refine ⟨fun hx => by rw [(h x).1 hx.2, hq, if_pos hx.1], fun hx => ?_⟩
  rw [rebuild, length_cons, ← Nat.add_assoc, Nat.add_right_comm]
  by_cases habove : OnPath bits x (l + 1) above
  · have hslot : ¬slot = digit bits x (l + 1) := fun hs => hx ⟨hs, habove⟩
    rw [(h x).1 habove, hq, if_neg hslot, held_rebuild habove, held_setAry, if_neg hslot]
  · exact (h x).2 habove

theorem idrMarkFull_spec (hp : WF bits l (p.setBit (digit bits id l))) (hbitmap : p.bitmap = p₀.bitmap)
    (htop : WF bits (l + above.length) (rebuild p₀ above)) (hpath : OnPath bits id l above) :
    WF bits (l + above.length) (idrMarkFull bits p above (id >>> (bits * l))) ∧
      Grafted bits l above (p.setBit (digit bits id l)) p₀
        (held bits (l + above.length) (idrMarkFull bits p above (id >>> (bits * l)))) := by
  induction above generalizing l p p₀ with
  | nil => exact ⟨hp, grafted_rebuild⟩
  | cons q above ih =>
    obtain ⟨q, slot⟩ := q
    have hrest := hpath.2.slotsLt
    have hdigit : id >>> (bits * l) &&& idrMask bits = digit bits id l := rfl
    rw [idrMarkFull, hdigit]
    split_ifs with hfull
    · rw [rebuild, length_cons, ← Nat.add_assoc, Nat.add_right_comm] at htop
      have hq := (htop.current hrest).setAry_congr hp fun _ => hfull
      have hmarked : WF bits (l + 1)
          ((q.setAry slot (.sub (p.setBit (digit bits id l)))).setBit (digit bits id (l + 1))) := by
        rw [← show slot = digit bits id (l + 1) from hpath.1]
        exact hq.setBit (by simp [LayerOf.setAry]) hfull
      have hshift : id >>> (bits * l) >>> bits = id >>> (bits * (l + 1)) := by
        rw [← Nat.shiftRight_add, Nat.mul_add, Nat.mul_one]
      have hsame : (q.setAry slot (.sub (p.setBit (digit bits id l)))).bitmap =
        (q.setAry slot (.sub p₀)).bitmap := rfl
      obtain ⟨hwf, hheld⟩ := ih hmarked hsame htop hpath.2
      rw [hshift, length_cons, ← Nat.add_assoc, Nat.add_right_comm]
      exact ⟨hwf, hheld.cons fun x => held_setAry⟩
    · -- the walk ends at a layer with room, which was not marked as full before
      refine ⟨htop.rebuild_congr hpath.slotsLt hp (.inl fun h₀ => ?_), grafted_rebuild⟩
      exact setBit_full (digit_lt bits id l) (hbitmap.trans h₀)

theorem WF.store {d : ℕ} (h : WF bits 0 p) (hd : d < idrSize bits) (hfree : p.bitmap.testBit d = false)
    (ptr : Option α) :
    WF bits 0 (LayerOf.setBit { p.setAry d (.ofPtr ptr) with count := p.count + 1 } d) := by
  refine ⟨h.1, ?_, fun i hi => ?_⟩
  · rw [used_setBit]
    change p.count + 1 = usedCount bits (update (used p 0) d true)
    rw [usedCount_set hd (show used p 0 d = false from hfree), h.2.1]
  · rw [testBit_setBit]
    by_cases hid : i = d
    · cases ptr <;> simp [LayerOf.setBit, LayerOf.setAry, hid, Slot.ofPtr]
    · simpa [LayerOf.setBit, LayerOf.setAry, hid, Ne.symm hid] using h.2.2 i hi

theorem held_store (p : Layer α) (d x : ℕ) (ptr : Option α) :
    held bits 0 (LayerOf.setBit { p.setAry d (.ofPtr ptr) with count := p.count + 1 } d) x =
      if digit bits x 0 = d then some (.ofPtr ptr) else held bits 0 p x := by
  rw [held, held, testBit_setBit]
  by_cases hx : digit bits x 0 = d
  · simp [LayerOf.setBit, LayerOf.setAry, hx]
  · simp [LayerOf.setBit, LayerOf.setAry, hx, Ne.symm hx]

theorem OnPath.place_eq (hx : OnPath bits x l above) (hid : OnPath bits id l above) :
    ∀ k, l < k → k ≤ l + above.length → place bits x k = place bits id k := by
  induction above generalizing l with
  | nil =>
    intro k hk hle
    simp only [length_nil] at hle
    omega
  | cons q above ih =>
    intro k hk hle
    rw [length_cons] at hle
    by_cases hkl : k = l + 1
    · rw [hkl, ← digit_eq_place, ← digit_eq_place, ← hx.1, ← hid.1]
    · exact ih hx.2 hid.2 k (by omega) (by omega)

theorem OnPath.eq_id (hx : OnPath bits x 0 above) (hid : OnPath bits id 0 above)
    (hdigit : digit bits x 0 = digit bits id 0) (hxlt : x < 2 ^ (bits * (0 + above.length + 1)))
    (hidlt : id < 2 ^ (bits * (0 + above.length + 1))) : x = id := by
  refine eq_of_place_eq hxlt hidlt fun k hk => ?_
  cases k with
  | zero => rw [← digit_eq_place, ← digit_eq_place, hdigit]
  | succ k => exact hx.place_eq hid (k + 1) (by omega) (by omega)

theorem Grafted.update {v : Option (Slot α)} {g : ℕ → Option (Slot α)} (h : Grafted bits 0 above p p₀ g)
    (hpath : OnPath bits id 0 above) (hlt : id < 2 ^ (bits * (0 + above.length + 1)))
    (hp : ∀ x, held bits 0 p x = if digit bits x 0 = digit bits id 0 then v else held bits 0 p₀ x)
    (hM : ∀ x < 2 ^ (bits * (0 + above.length + 1)),
      M x = held bits (0 + above.length) (rebuild p₀ above) x) :
    ∀ x < 2 ^ (bits * (0 + above.length + 1)), update M id v x = g x := by
  intro x hx
  by_cases hon : OnPath bits x 0 above
  · rw [(h x).1 hon, hp]
    by_cases hdigit : digit bits x 0 = digit bits id 0
    · rw [if_pos hdigit, hon.eq_id hpath hdigit hx hlt, update_self]
    · have hne : x ≠ id := fun heq => hdigit (by rw [heq])
      rw [if_neg hdigit, update_of_ne hne, hM x hx, held_rebuild hon]
  · have hne : x ≠ id := fun heq => hon (heq ▸ hpath)
    rw [update_of_ne hne, (h x).2 hon, hM x hx]

theorem update_outside {N : ℕ} (hlt : id < N) (hM : ∀ x, N ≤ x → M x = none) (v : Option (Slot α)) :
    ∀ x, N ≤ x → update M id v x = none := by
  intro x hx
  rw [update_of_ne (hlt.trans_le hx).ne', hM x hx]

theorem idrGetNewAbove_spec {idp : Idr α} {start : ℕ} (hinv : IdrInv bits M idp) (hbits : 0 < bits)
    (hlevel : 1 ≤ maxLevel bits - 1) (hroom : ∃ x, start ≤ x ∧ x < idLimit bits ∧ M x = none)
    (ptr : Option α) :
    match idrGetNewAbove bits idp ptr start with
    | (idp', .ok id) => IdrInv bits (update M id (some (.ofPtr ptr))) idp' ∧
        start ≤ id ∧ M id = none ∧ ∀ x, start ≤ x → x < id → M x ≠ none
    | (idp', .eagain) => IdrInv bits M idp'
    | _ => False := by
  obtain ⟨e, hslot, hend⟩ := idrGetEmptySlot_spec hinv hbits hlevel hroom
  rw [idrGetNewAbove, hslot]
  cases e with
  | noMemory idp' => exact hend
  | noMoreSpace idp' => exact hend
  | bug => exact hend
  | found w layers =>
    obtain ⟨h, rfl, hheight, hw, hl, hfree⟩ := hend
    have hcur := hw.current
    have hpath := hw.path
    have hlen := hw.height
    have htree := hw.tree
    rw [hl] at hcur hpath hlen
    subst hlen
    obtain ⟨hwf, hheld⟩ := idrMarkFull_spec (hcur.store (digit_lt bits w.id 0) hfree ptr)
      (show _ = w.p.bitmap from rfl) htree.wf hpath
    have hid : M w.id = none := by
      rw [htree.same w.id hw.lt, Walk.top, held_rebuild hpath]
      simp [held, hfree]
    have hmap := hheld.update hpath hw.lt (fun x => held_store w.p _ x ptr) htree.same
    dsimp only
    exact ⟨.of_tree hheight ⟨hwf, hmap, update_outside hw.lt htree.outside _, htree.zeroed⟩, hw.le, hid,
      hw.taken⟩

def PathClear (above : Above α) : Prop := ∀ q ∈ above, q.1.bitmap.testBit q.2 = false

theorem PathClear.head (h : PathClear above) : HeadClear above := by
  cases above with
  | nil => exact True.intro
  | cons q above => exact h q mem_cons_self

theorem WF.clearBit (h : WF bits (l + 1) p) (n : ℕ) : WF bits (l + 1) (p.clearBit n) := by
  refine ⟨h.1, h.2.1, fun i hi => ?_⟩
  rw [testBit_clearBit]
  obtain ⟨hnull, hclear⟩ | ⟨q, hq, hwf, hbit⟩ := h.2.2 i hi
  · exact .inl ⟨hnull, by simp [hclear]⟩
  · exact .inr ⟨q, hq, hwf, fun hset => hbit (Bool.and_eq_true_iff.mp hset).1⟩

theorem removeDown_spec (hheld : held bits l p id ≠ none)
    (htop : WF bits (l + above.length) (rebuild p above)) (hpath : OnPath bits id l above)
    (hclear : PathClear above) :
    ∃ p' above', removeDown bits id l p above = (p', above', true) ∧
      above'.length = l + above.length ∧ OnPath bits id 0 above' ∧ PathClear above' ∧
      WF bits (l + above.length) (rebuild p' above') ∧
      ∀ x, held bits (l + above.length) (rebuild p' above') x =
        held bits (l + above.length) (rebuild p above) x := by
  induction l generalizing p above with
  | zero => exact ⟨p, above, rfl, (Nat.zero_add _).symm, hpath, hclear, htop, fun _ => rfl⟩
  | succ l ih =>
    have hcur := htop.current hpath.slotsLt
    rw [removeDown]
    rw [held] at hheld
    set d := digit bits id (l + 1)
    cases hary : (p.clearBit d).ary d with
    | null | user a =>
      rw [show p.ary d = _ from hary] at hheld
      exact absurd rfl hheld
    | sub q =>
      rw [show p.ary d = .sub q from hary] at hheld
      have hself : (p.clearBit d).setAry d (.sub q) = p.clearBit d := by
        rw [LayerOf.setAry, ← hary, update_eq_self]
      have htop' := htop.rebuild_congr hpath.slotsLt (hcur.clearBit d) (.inr hclear.head)
      have hlen : l + ((p.clearBit d, d) :: above).length = l + 1 + above.length := by
        rw [length_cons]
        omega
      have hclear' : PathClear ((p.clearBit d, d) :: above) :=
        forall_mem_cons.mpr ⟨by simp [testBit_clearBit], hclear⟩
      have hpath' : OnPath bits id l ((p.clearBit d, d) :: above) := ⟨rfl, hpath⟩
      have hnext := ih hheld (by rw [hlen, rebuild, hself]; exact htop') hpath' hclear'
      rw [hlen, rebuild, hself] at hnext
      obtain ⟨p', above', hdown, hlen', hpath'', hclear'', hwf, hsame⟩ := hnext
      refine ⟨p', above', hdown, hlen', hpath'', hclear'', hwf, fun x => (hsame x).trans ?_⟩
      exact held_rebuild_congr fun _ => rfl

theorem WF.unlink {slot : ℕ} (h : WF bits (l + 1) (q.setAry slot (.sub p))) (hslot : slot < idrSize bits)
    (hclear : q.bitmap.testBit slot = false) :
    WF bits (l + 1) { q.setAry slot .null with count := q.count - 1 } := by
  refine ⟨h.1, ?_, fun i hi => ?_⟩
  · have hcount := h.2.1
    rw [used_setAry, show (!(Slot.sub p).isNull) = true from rfl] at hcount
    change q.count - 1 = usedCount bits (used (q.setAry slot .null) (l + 1))
    have hdrop : usedCount bits (update (update (used q (l + 1)) slot true) slot false) =
        usedCount bits (update (used q (l + 1)) slot true) - 1 :=
      usedCount_clear hslot (update_self _ _ _)
    rw [update_idem] at hdrop
    rw [used_setAry, show (!(Slot.null : Slot α).isNull) = false from rfl, hdrop, ← hcount]
    rfl
  · by_cases his : i = slot
    · exact .inl ⟨by simp [LayerOf.setAry, his], his ▸ hclear⟩
    · simpa [LayerOf.setAry, his] using h.2.2 i hi

def heldTop (bits h : ℕ) : Option (Layer α) → ℕ → Option (Slot α)
  | none, _ => none
  | some top, x => held bits h top x

theorem dropCounts_spec (hp : WF bits l { p with count := p.count - 1 })
    (htop : WF bits (l + above.length) (rebuild p₀ above)) (hslots : SlotsLt bits above)
    (hclear : PathClear above) :
    (∀ top, dropCounts p above = some top → WF bits (l + above.length) top) ∧
      Grafted bits l above { p with count := p.count - 1 } p₀
        (heldTop bits (l + above.length) (dropCounts p above)) := by
  induction above generalizing l p p₀ with
  | nil =>
    rw [dropCounts]
    refine ⟨fun top htop' => ?_, fun x => ⟨fun _ => ?_, fun hnot => absurd True.intro hnot⟩⟩
    · split_ifs at htop'
      cases htop'
      exact hp
    · split_ifs with hzero
      · exact (hp.held_of_count hzero x).symm
      · rfl
  | cons q above ih =>
    obtain ⟨q, slot⟩ := q
    have hslot := hslots _ mem_cons_self
    have hslots' : SlotsLt bits above := fun r hr => hslots r (mem_cons_of_mem _ hr)
    have hclear' : PathClear above := fun r hr => hclear r (mem_cons_of_mem _ hr)
    rw [dropCounts]
    split_ifs with hzero
    · rw [rebuild, length_cons, ← Nat.add_assoc, Nat.add_right_comm] at htop
      have hunlink := (htop.current hslots').unlink hslot (hclear _ mem_cons_self)
      obtain ⟨hwf, hheld⟩ := ih hunlink htop hslots' hclear'
      rw [length_cons, ← Nat.add_assoc, Nat.add_right_comm]
      refine ⟨hwf, hheld.cons fun x => ?_⟩
      rw [hp.held_of_count hzero, held, held]
      by_cases hs : slot = digit bits x (l + 1)
      · simp [LayerOf.setAry, hs]
      · simp [LayerOf.setAry, hs, Ne.symm hs]
    · refine ⟨fun top htop' => ?_, grafted_rebuild⟩
      cases htop'
      exact htop.rebuild_congr hslots hp (.inr hclear.head)

theorem WF.erase {d : ℕ} (h : WF bits 0 p) (hd : d < idrSize bits) (hset : p.bitmap.testBit d = true) :
    WF bits 0 { (p.clearBit d).setAry d .null with count := p.count - 1 } := by
  refine ⟨h.1, ?_, fun i hi => ?_⟩
  · change p.count - 1 = usedCount bits (used (p.clearBit d) 0)
    rw [used_clearBit, usedCount_clear hd (show used p 0 d = true from hset), h.2.1]
  · by_cases hid : i = d
    · simp [LayerOf.setAry, hid]
    · have hbit : ((p.clearBit d).setAry d .null).bitmap.testBit i = p.bitmap.testBit i := by
        change (p.clearBit d).bitmap.testBit i = _
        simp [testBit_clearBit, Ne.symm hid]
      rw [hbit]
      simpa [LayerOf.setAry, LayerOf.clearBit, hid] using h.2.2 i hi

theorem held_erase (p : Layer α) (d x : ℕ) : held bits 0 ((p.clearBit d).setAry d .null) x =
      if digit bits x 0 = d then none else held bits 0 p x := by
  have hbit : ((p.clearBit d).setAry d .null).bitmap.testBit (digit bits x 0) =
      (p.bitmap.testBit (digit bits x 0) && !decide (d = digit bits x 0)) := testBit_clearBit p d _
  rw [held, held, hbit]
  by_cases hx : digit bits x 0 = d
  · simp [hx]
  · simp [LayerOf.setAry, LayerOf.clearBit, hx, Ne.symm hx]

variable {idp : Idr α}

theorem subRemove_spec (hinv : IdrInv bits M idp) (hid : M id ≠ none) :
    IdrInv bits (update M id none) (subRemove bits idp id) := by
  rw [subRemove]
  cases htop : idp.top with
  | none => exact absurd ((hinv.empty htop).2 id) hid
  | some top =>
    obtain ⟨h, hlayers, hheight, ht⟩ := hinv.tree top htop
    have hlt : id < 2 ^ (bits * (h + 1)) := not_le.mp fun hle => hid (ht.outside id hle)
    have hheld : held bits h top id ≠ none := ht.same id hlt ▸ hid
    have hnil : PathClear ([] : Above α) := fun q hq => absurd hq not_mem_nil
    have htop' : WF bits (h + ([] : Above α).length) (rebuild top []) := ht.wf
    obtain ⟨p, above, hdown, hlen, hpath, hclear, hwf, hsame⟩ :=
      removeDown_spec hheld htop' True.intro hnil
    rw [length_nil, Nat.add_zero] at hlen hwf hsame
    obtain rfl : h = 0 + above.length := by rw [hlen, Nat.zero_add]
    dsimp only
    rw [hlayers, Nat.add_sub_cancel, hdown]
    have hset : p.bitmap.testBit (digit bits id 0) = true := by
      rw [rebuild] at hsame
      rw [← hsame id, held_rebuild hpath, held] at hheld
      by_contra hnot
      exact hheld (by simp [hnot])
    obtain ⟨hdropWf, hdropHeld⟩ := dropCounts_spec
      ((hwf.current hpath.slotsLt).erase (digit_lt bits id 0) hset) hwf hpath.slotsLt hclear
    have hmap := hdropHeld.update hpath hlt (held_erase p _) fun x hx => (ht.same x hx).trans (hsame x).symm
    have hout := update_outside hlt ht.outside none
    rw [and_idrMask, hset, Bool.and_self, if_pos rfl]
    generalize dropCounts ((p.clearBit (digit bits id 0)).setAry (digit bits id 0) .null) above = top' at *
    cases top' with
    | none =>
      refine ⟨hinv.zeroed, fun _ => ⟨rfl, fun x => ?_⟩, by simp⟩
      by_cases hx : x < 2 ^ (bits * (0 + above.length + 1))
      · exact hmap x hx
      · exact hout x (not_lt.mp hx)
    | some top' =>
      refine ⟨hinv.zeroed, by simp, fun t hteq => ⟨_, rfl, hheight, ?_⟩⟩
      cases hteq
      exact ⟨hdropWf top' rfl, hmap, hout, hinv.zeroed⟩

theorem shrinkTop_spec (hinv : IdrInv bits M idp) : IdrInv bits M (shrinkTop idp) := by
  rw [shrinkTop]
  cases htop : idp.top with
  | none => exact hinv
  | some top =>
    dsimp only
    cases hary : top.ary 0 with
    | null => exact hinv
    | user a => exact hinv
    | sub p =>
      split_ifs with hone
      · obtain ⟨hcount, hlayers⟩ := hone
        obtain ⟨h, hlayers', hheight, ht⟩ := hinv.tree top htop
        obtain ⟨h, rfl⟩ : ∃ k, h = k + 1 := ⟨h - 1, by omega⟩
        have hsize : 0 < idrSize bits := by
          rw [idrSize_eq]
          exact Nat.two_pow_pos bits
        have hp : WF bits h p := by
          obtain ⟨hnull, -⟩ | ⟨q, hq, hwf, -⟩ := ht.wf.2.2 0 hsize
          · rw [hary] at hnull
            cases hnull
          · rw [hary, Slot.sub.injEq] at hq
            exact hq ▸ hwf
        -- the count says that no other slot is used
        have hrest : ∀ i < idrSize bits, i ≠ 0 → top.ary i = .null := by
          intro i hi hne
          have hclear : usedCount bits (update (used top (h + 1)) 0 false) = 0 := by
            rw [usedCount_clear hsize (by simp [used, hary, Slot.isNull]), ← ht.wf.2.1, hcount]
            rfl
          have hunused := usedCount_eq_zero hclear hi
          rw [update_of_ne hne] at hunused
          cases hs : top.ary i with
          | null => rfl
          | user a => simp [used, hs, Slot.isNull] at hunused
          | sub q => simp [used, hs, Slot.isNull] at hunused
        have hpow : 2 ^ (bits * (h + 1)) ≤ 2 ^ (bits * (h + 1 + 1)) :=
          Nat.pow_le_pow_right (by omega) (Nat.mul_le_mul_left bits (by omega))
        have hp' : TreeInv bits h M p idp.idFree := by
          refine ⟨hp, fun x hx => ?_, fun x hx => ?_, hinv.zeroed⟩
          · have hdigit := (lt_iff_place_eq_zero (by omega)).mp hx
            rw [ht.same x (by omega), held, digit_eq_place, hdigit, hary]
          · by_cases hx' : x < 2 ^ (bits * (h + 1 + 1))
            · have hdigit := mt (lt_iff_place_eq_zero hx').mpr (not_lt.mpr hx)
              rw [← digit_eq_place] at hdigit
              rw [ht.same x hx', held, hrest _ (digit_lt bits x (h + 1)) hdigit]
            · exact ht.outside x (not_lt.mp hx')
        have hlow : idp.layers - 1 = h + 1 := by omega
        rw [hlow]
        exact .of_tree (by omega) hp'
      · exact hinv

variable {free : List (Layer α)}

theorem trimFree_subset {q : Layer α} (hq : q ∈ trimFree bits free) : q ∈ free := by
  induction free with
  | nil => exact hq
  | cons p free ih =>
    rw [trimFree] at hq
    split_ifs at hq
    · exact mem_cons_of_mem _ (ih hq)
    · exact hq

theorem IdrInv.with_free (hinv : IdrInv bits M idp)
    (hfree : ∀ p ∈ free, Zeroed p) : IdrInv bits M { idp with idFree := free } := by
  refine ⟨hfree, hinv.empty, fun top htop => ?_⟩
  obtain ⟨h, hlayers, hheight, ht⟩ := hinv.tree top htop
  exact ⟨h, hlayers, hheight, ht.wf, ht.same, ht.outside, hfree⟩

theorem and_maxIdMask (hid : id < 2 ^ 31) : id &&& maxIdMask = id := by
  have hmask : maxIdMask = 2 ^ 31 - 1 := rfl
  rw [hmask, Nat.and_two_pow_sub_one_eq_mod, Nat.mod_eq_of_lt hid]

theorem idrRemove_spec (hinv : IdrInv bits M idp) (hlt : id < 2 ^ 31) (hid : M id ≠ none) :
    IdrInv bits (update M id none) (idrRemove bits idp id) := by
  rw [idrRemove, and_maxIdMask hlt]
  have hshrunk := shrinkTop_spec (subRemove_spec hinv hid)
  exact hshrunk.with_free fun p hp => hshrunk.zeroed p (trimFree_subset hp)

theorem preGetLoop_zeroed {rounds available : ℕ} (hfree : ∀ p ∈ free, Zeroed p) :
    ∀ p ∈ (preGetLoop bits rounds available free).1, Zeroed p := by
  induction rounds generalizing available free with
  | zero => exact hfree
  | succ rounds ih =>
    unfold preGetLoop
    split_ifs
    · cases available with
      | zero => exact hfree
      | succ available =>
        exact ih (forall_mem_cons.mpr ⟨⟨rfl, rfl, fun _ => rfl⟩, hfree⟩)
    · exact hfree

theorem idrPreGet_spec (hinv : IdrInv bits M idp) (available : ℕ) :
    IdrInv bits M (idrPreGet bits idp available).1 :=
  hinv.with_free (preGetLoop_zeroed hinv.zeroed)

end VDLinux.Lib
