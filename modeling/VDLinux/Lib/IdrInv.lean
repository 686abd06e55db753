import VDLinux.Base.Radix
import VDLinux.Lib.Idr

namespace VDLinux.Lib

open Base.Radix List Nat Function

variable {α : Type} {bits : ℕ}

section Words

variable {i j : ℕ}

theorem idrSize_eq (bits : ℕ) : idrSize bits = 2 ^ bits := one_shiftLeft bits

theorem digit_eq_place (bits id l : ℕ) : digit bits id l = place bits id l := by
  rw [digit, idrMask, one_shiftLeft, and_two_pow_sub_one_eq_mod, shiftRight_eq_div_pow, place]

theorem and_idrMask (bits id : ℕ) : id &&& idrMask bits = digit bits id 0 := by
  rw [digit, Nat.mul_zero, shiftRight_zero]

theorem digit_lt (bits id l : ℕ) : digit bits id l < idrSize bits := by
  rw [digit_eq_place, idrSize_eq]
  exact place_lt bits id l

theorem testBit_setBit (p : Layer α) (i j : ℕ) :
    (p.setBit i).bitmap.testBit j = (p.bitmap.testBit j || decide (i = j)) := by
  rw [LayerOf.setBit, one_shiftLeft, testBit_or, testBit_two_pow]

theorem testBit_clearBit (p : Layer α) (i j : ℕ) :
    (p.clearBit i).bitmap.testBit j = (p.bitmap.testBit j && !decide (i = j)) := by
  rw [LayerOf.clearBit, one_shiftLeft, testBit_ldiff, testBit_two_pow]

theorem testBit_full (hi : i < idrSize bits) : (idrFull bits).testBit i = true := by
  rw [idrFull, one_shiftLeft, testBit_two_pow_sub_one, decide_eq_true hi]

end Words

section Count

def usedCount (bits : ℕ) (used : ℕ → Bool) : ℤ :=
  ((Finset.range (idrSize bits)).filter fun i => used i = true).card

variable {used : ℕ → Bool} {i : ℕ}

theorem usedCount_set (hi : i < idrSize bits) (hfree : used i = false) :
    usedCount bits (update used i true) = usedCount bits used + 1 := by
  have hset : (Finset.range (idrSize bits)).filter (fun j => update used i true j = true) =
      insert i ((Finset.range (idrSize bits)).filter fun j => used j = true) := by
    ext j
    by_cases hj : j = i <;> simp [hj, hi]
  rw [usedCount, hset, Finset.card_insert_of_notMem (by simp [hfree])]
  rfl

theorem usedCount_clear (hi : i < idrSize bits) (hused : used i = true) :
    usedCount bits (update used i false) = usedCount bits used - 1 := by
  have hset := usedCount_set hi (Function.update_self i false used)
  rw [Function.update_idem, ← hused, Function.update_eq_self] at hset
  omega

theorem usedCount_eq_zero (h : usedCount bits used = 0) (hi : i < idrSize bits) : used i = false := by
  rw [usedCount, cast_eq_zero, Finset.card_eq_zero] at h
  have hnot : i ∉ (Finset.range (idrSize bits)).filter fun j => used j = true := by rw [h]; simp
  simpa [hi] using hnot

theorem usedCount_congr {used' : ℕ → Bool} (h : ∀ i < idrSize bits, used' i = used i) :
    usedCount bits used' = usedCount bits used := by
  have hset : (Finset.range (idrSize bits)).filter (fun i => used' i = true) =
      (Finset.range (idrSize bits)).filter fun i => used i = true :=
    Finset.filter_congr fun i hi => by rw [h i (Finset.mem_range.mp hi)]
  rw [usedCount, usedCount, hset]

theorem usedCount_none (bits : ℕ) : usedCount bits (fun _ => false) = 0 := by
  simp [usedCount]

end Count

/-- The slots that are counted: at the bottom those of the allocated ids, otherwise those with a layer. -/
def used (p : Layer α) : ℕ → ℕ → Bool
  | 0, i => p.bitmap.testBit i
  | _ + 1, i => !(p.ary i).isNull

variable (p : Layer α)

theorem used_setAry (l m : ℕ) (s : Slot α) :
    used (p.setAry m s) (l + 1) = update (used p (l + 1)) m (!s.isNull) := by
  funext i
  by_cases hi : i = m <;> simp [used, LayerOf.setAry, hi]

theorem used_setBit (m : ℕ) : used (p.setBit m) 0 = update (used p 0) m true := by
  funext i
  by_cases hi : i = m
  · simp [used, testBit_setBit, hi]
  · simp [used, testBit_setBit, hi, Ne.symm hi]

theorem used_clearBit (m : ℕ) : used (p.clearBit m) 0 = update (used p 0) m false := by
  funext i
  by_cases hi : i = m
  · simp [used, testBit_clearBit, hi]
  · simp [used, testBit_clearBit, hi, Ne.symm hi]

/-- A layer at the height `l` and everything below it. A set bit of an inner layer means that the layer
below is full; at the bottom it means that the id is allocated. -/
def WF (bits : ℕ) : ℕ → Layer α → Prop
  | 0, p =>
    p.layer = 0 ∧ p.count = usedCount bits (used p 0) ∧
      ∀ i < idrSize bits, (∀ q, p.ary i ≠ .sub q) ∧ (p.bitmap.testBit i = false → p.ary i = .null)
  | l + 1, p =>
    p.layer = l + 1 ∧ p.count = usedCount bits (used p (l + 1)) ∧
      ∀ i < idrSize bits, (p.ary i = .null ∧ p.bitmap.testBit i = false) ∨
        ∃ q, p.ary i = .sub q ∧ WF bits l q ∧ (p.bitmap.testBit i = true → q.bitmap = idrFull bits)

/-- What is stored under the digits of `id` from the layer `l` down. -/
def held (bits : ℕ) : ℕ → Layer α → ℕ → Option (Slot α)
  | 0, p, id => if p.bitmap.testBit (digit bits id 0) then some (p.ary (digit bits id 0)) else none
  | l + 1, p, id =>
    match p.ary (digit bits id (l + 1)) with
    | .sub q => held bits l q id
    | _ => none

variable {l : ℕ} {p : Layer α}

variable (h : WF bits l p)
include h

theorem WF.layer_eq : p.layer = l := by
  cases l with
  | zero => exact h.1
  | succ l => exact h.1

theorem WF.count_eq : p.count = usedCount bits (used p l) := by
  cases l with
  | zero => exact h.2.1
  | succ l => exact h.2.1

theorem WF.held_of_full (hfull : p.bitmap = idrFull bits) (id : ℕ) : held bits l p id ≠ none := by
  induction l generalizing p with
  | zero => simp [held, hfull, testBit_full (digit_lt bits id 0)]
  | succ l ih =>
    have hset := testBit_full (digit_lt bits id (l + 1))
    obtain ⟨-, hclear⟩ | ⟨q, hq, hwf, hbit⟩ := h.2.2 _ (digit_lt bits id (l + 1))
    · rw [hfull, hset] at hclear
      exact absurd hclear (by decide)
    · rw [held, hq]
      exact ih hwf (hbit (by rw [hfull, hset]))

theorem WF.held_of_testBit {id : ℕ}
    (hset : p.bitmap.testBit (digit bits id l) = true) : held bits l p id ≠ none := by
  cases l with
  | zero => simp [held, hset]
  | succ l =>
    obtain ⟨-, hclear⟩ | ⟨q, hq, hwf, hbit⟩ := h.2.2 _ (digit_lt bits id (l + 1))
    · rw [hset] at hclear
      exact absurd hclear (by decide)
    · rw [held, hq]
      exact hwf.held_of_full (hbit hset) id

theorem WF.empty_of_count (hcount : p.count = 0) {i : ℕ}
    (hi : i < idrSize bits) : p.ary i = .null ∧ p.bitmap.testBit i = false := by
  have hused := usedCount_eq_zero (hcount ▸ h.count_eq.symm) hi
  cases l with
  | zero => exact ⟨(h.2.2 i hi).2 hused, hused⟩
  | succ l =>
    obtain hnull | ⟨q, hq, -⟩ := h.2.2 i hi
    · exact hnull
    · simp [used, hq, Slot.isNull] at hused

theorem WF.held_of_count (hcount : p.count = 0) (id : ℕ) : held bits l p id = none := by
  obtain ⟨hnull, hclear⟩ := h.empty_of_count hcount (digit_lt bits id l)
  cases l with
  | zero => simp [held, hclear]
  | succ l => simp [held, hnull]

omit h

section Zipper

def OnPath (bits id : ℕ) : ℕ → Above α → Prop
  | _, [] => True
  | l, (_, slot) :: above => slot = digit bits id (l + 1) ∧ OnPath bits id (l + 1) above

def SlotsLt (bits : ℕ) (above : Above α) : Prop := ∀ q ∈ above, q.2 < idrSize bits

variable {l id : ℕ} {p p' : Layer α} {above : Above α}

theorem OnPath.slotsLt (h : OnPath bits id l above) : SlotsLt bits above := by
  induction above generalizing l with
  | nil => exact nofun
  | cons q above ih =>
    rintro q' (_ | ⟨_, hq'⟩)
    · rw [h.1]
      exact digit_lt bits id (l + 1)
    · exact ih h.2 q' hq'

theorem OnPath.congr {id' : ℕ} (h : OnPath bits id l above)
    (hid : id' / 2 ^ (bits * (l + 1)) = id / 2 ^ (bits * (l + 1))) : OnPath bits id' l above := by
  induction above generalizing l with
  | nil => exact True.intro
  | cons q above ih =>
    refine ⟨?_, ih h.2 (div_congr hid (by omega))⟩
    rw [h.1, digit_eq_place, digit_eq_place, place_congr hid (le_refl _)]

variable {q : Layer α}

theorem WF.of_setAry {slot : ℕ} (h : WF bits (l + 1) (q.setAry slot (.sub p)))
    (hslot : slot < idrSize bits) :
    WF bits l p ∧ (q.bitmap.testBit slot = true → p.bitmap = idrFull bits) := by
  obtain ⟨hnull, -⟩ | ⟨r, hr, hwf, hbit⟩ := h.2.2 slot hslot
  · simp [LayerOf.setAry] at hnull
  · simp only [LayerOf.setAry, Function.update_self, Slot.sub.injEq] at hr
    exact hr ▸ ⟨hwf, hbit⟩

theorem WF.setAry_congr {slot : ℕ} (h : WF bits (l + 1) (q.setAry slot (.sub p)))
    (hp' : WF bits l p') (hbit : q.bitmap.testBit slot = true → p'.bitmap = idrFull bits) :
    WF bits (l + 1) (q.setAry slot (.sub p')) := by
  refine ⟨h.1, ?_, fun i hi => ?_⟩
  · have hcount := h.2.1
    rw [used_setAry] at hcount ⊢
    exact hcount
  · by_cases his : i = slot
    · exact .inr ⟨p', by simp [LayerOf.setAry, his], hp', his ▸ hbit⟩
    · simpa [LayerOf.setAry, his] using h.2.2 i hi

theorem WF.current (h : WF bits (l + above.length) (rebuild p above)) (hslots : SlotsLt bits above) :
    WF bits l p := by
  induction above generalizing l p with
  | nil => exact h
  | cons q above ih =>
    rw [rebuild, length_cons, ← Nat.add_assoc, Nat.add_right_comm] at h
    exact ((ih h fun q' hq' => hslots q' (mem_cons_of_mem _ hq')).of_setAry
      (hslots q mem_cons_self)).1

/-- The slot that leads to the current layer is not marked as full. -/
def HeadClear : Above α → Prop
  | [] => True
  | (q, slot) :: _ => q.bitmap.testBit slot = false

theorem WF.rebuild_congr (h : WF bits (l + above.length) (rebuild p above)) (hslots : SlotsLt bits above)
    (hp' : WF bits l p') (hfull : (p.bitmap = idrFull bits → p'.bitmap = idrFull bits) ∨ HeadClear above) :
    WF bits (l + above.length) (rebuild p' above) := by
  induction above generalizing l p p' with
  | nil => exact hp'
  | cons q above ih =>
    have hrest : SlotsLt bits above := fun q' hq' => hslots q' (mem_cons_of_mem _ hq')
    rw [rebuild, length_cons, ← Nat.add_assoc, Nat.add_right_comm] at h ⊢
    have hq := h.current hrest
    refine ih h hrest (hq.setAry_congr hp' fun hset => ?_) (.inl id)
    cases hfull with
    | inl hfull => exact hfull ((hq.of_setAry (hslots q mem_cons_self)).2 hset)
    | inr hclear => exact absurd hset (by rw [hclear]; decide)

theorem held_setAry {slot : ℕ} : held bits (l + 1) (q.setAry slot (.sub p)) id =
      if slot = digit bits id (l + 1) then held bits l p id else held bits (l + 1) q id := by
  split_ifs with hs
  · rw [held, ← hs]
    simp [LayerOf.setAry]
  · rw [held, held]
    simp [LayerOf.setAry, Ne.symm hs]

theorem held_rebuild (h : OnPath bits id l above) :
    held bits (l + above.length) (rebuild p above) id = held bits l p id := by
  induction above generalizing l p with
  | nil => rfl
  | cons q above ih =>
    rw [rebuild, length_cons, ← Nat.add_assoc, Nat.add_right_comm, ih h.2, held_setAry, if_pos h.1]

theorem held_rebuild_congr (h : OnPath bits id l above → held bits l p' id = held bits l p id) :
    held bits (l + above.length) (rebuild p' above) id =
      held bits (l + above.length) (rebuild p above) id := by
  induction above generalizing l p p' with
  | nil => exact h True.intro
  | cons q above ih =>
    rw [rebuild, rebuild, length_cons, ← Nat.add_assoc, Nat.add_right_comm]
    refine ih fun hpath => ?_
    rw [held_setAry, held_setAry]
    split_ifs with hs
    · exact h ⟨hs, hpath⟩
    · rfl

theorem WF.addLayer {new : Layer α} {m : ℕ} (h : WF bits (l + 1) p) (hm : m < idrSize bits)
    (hnull : p.ary m = .null) (hnew : WF bits l new) :
    WF bits (l + 1) { p.setAry m (.sub new) with count := p.count + 1 } := by
  have hbit : p.bitmap.testBit m = false := by
    obtain ⟨-, hclear⟩ | ⟨q, hq, -⟩ := h.2.2 m hm
    · exact hclear
    · rw [hnull] at hq
      cases hq
  refine ⟨h.1, ?_, fun i hi => ?_⟩
  · change p.count + 1 = usedCount bits (used (p.setAry m (.sub new)) (l + 1))
    have hsub : (!(Slot.sub new).isNull) = true := rfl
    rw [used_setAry, hsub, usedCount_set hm (by simp [used, hnull, Slot.isNull]), h.2.1]
  · by_cases him : i = m
    · refine .inr ⟨new, by simp [LayerOf.setAry, him], hnew, fun hset => ?_⟩
      rw [him] at hset
      exact absurd hset (by simp [LayerOf.setAry, hbit])
    · simpa [LayerOf.setAry, him] using h.2.2 i hi

theorem WF.setBit {m : ℕ} (h : WF bits (l + 1) p) (hq : p.ary m = .sub q)
    (hfull : q.bitmap = idrFull bits) : WF bits (l + 1) (p.setBit m) := by
  refine ⟨h.1, h.2.1, fun i hi => ?_⟩
  obtain ⟨hnull, hclear⟩ | ⟨r, hr, hwf, hbit⟩ := h.2.2 i hi
  · have hne : m ≠ i := by
      rintro rfl
      rw [hq] at hnull
      cases hnull
    exact .inl ⟨hnull, by rw [testBit_setBit]; simp [hclear, hne]⟩
  · refine .inr ⟨r, hr, hwf, fun hset => ?_⟩
    by_cases hmi : m = i
    · subst hmi
      rw [hq, Slot.sub.injEq] at hr
      exact hr ▸ hfull
    · rw [testBit_setBit] at hset
      exact hbit (by simpa [hmi] using hset)

end Zipper

section Free

def Zeroed (p : Layer α) : Prop := p.bitmap = 0 ∧ p.count = 0 ∧ ∀ i, p.ary i = .null

variable {p new : Layer α} {free free' : List (Layer α)}

theorem Zeroed.wf (h : Zeroed p) (l : ℕ) : WF bits l { p with layer := l } := by
  obtain ⟨hbitmap, hcount, hary⟩ := h
  have hused : ∀ l, used { p with layer := l } l = fun _ => false := by
    intro l
    funext i
    cases l <;> simp [used, hbitmap, hary, Slot.isNull]
  have hzero := usedCount_none bits
  rw [← hused l, ← hcount] at hzero
  cases l with
  | zero => exact ⟨rfl, hzero.symm, fun i _ => ⟨fun q => by simp [hary], fun _ => hary i⟩⟩
  | succ l => exact ⟨rfl, hzero.symm, fun i _ => .inl ⟨hary i, by simp [hbitmap]⟩⟩

theorem getFromFreeList_zeroed (h : ∀ p ∈ free, Zeroed p)
    (hget : getFromFreeList free = some (new, free')) : Zeroed new ∧ ∀ p ∈ free', Zeroed p := by
  cases free with
  | nil => cases hget
  | cons p rest =>
    obtain ⟨rfl, rfl⟩ := hget
    obtain ⟨hbitmap, hcount, hary⟩ := h p mem_cons_self
    refine ⟨⟨hbitmap, hcount, fun i => ?_⟩, fun q hq => h q (mem_cons_of_mem _ hq)⟩
    by_cases hi : i = 0 <;> simp [LayerOf.setAry, hi, hary]

end Free

end VDLinux.Lib
