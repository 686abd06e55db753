import VDLinux.Base.Fragments
import VDLinux.Fs.MballocMark

namespace VDLinux.Fs.Mballoc

open Base.Dyadic Base.Fragments Finset

variable {e4b : Ext4Buddy} {grp grp' : GroupInfo} {T : Set Block} {Z W : Set ℕ} {k i x start len : ℕ}

def FreeRun (grp : GroupInfo) (k i : ℕ) : Prop := ∀ j < 2 ^ k, grp.bitmap (2 ^ k * i + j) = false

instance (grp : GroupInfo) (k i : ℕ) : Decidable (FreeRun grp k i) := inferInstanceAs (Decidable (∀ j < 2 ^ k, _))

def IsBuddy (e4b : Ext4Buddy) (grp : GroupInfo) (k i : ℕ) : Prop :=
  FreeRun grp k i ∧ (k < e4b.top → ¬ FreeRun grp (k + 1) (i / 2))

instance (e4b : Ext4Buddy) (grp : GroupInfo) (k i : ℕ) : Decidable (IsBuddy e4b grp k i) :=
  inferInstanceAs (Decidable (_ ∧ _))

/-- The bits and the counters of a group are those of its bitmap. -/
structure Exact (e4b : Ext4Buddy) (grp : GroupInfo) : Prop where
  bits : ∀ k i, 1 ≤ k → k ≤ e4b.top → i < e4b.width k →
    (mbTestBit grp i (e4b.addr k) = false ↔ IsBuddy e4b grp k i)
  counters : ∀ k ≤ e4b.top,
    grp.bbCounters k = ((Finset.range (e4b.width k)).filter (IsBuddy e4b grp k)).card
  free : grp.bbFree = ((Finset.range (e4b.width 0)).filter fun x => grp.bitmap x = false).card
  fragments : grp.bbFragments = ((Finset.range (e4b.width 0)).filter fun x =>
    grp.bitmap x = false ∧ (x = 0 ∨ grp.bitmap (x - 1) = true)).card
  firstFree : ∀ x < e4b.width 0, grp.bitmap x = false → grp.bbFirstFree ≤ x
  init : grp.needInit = false
  preallocs : ∀ pa ∈ grp.preallocList, pa.group = e4b.group ∧
    ∀ j < pa.len, grp.bitmap (pa.start + j) = true

def freeSet (e4b : Ext4Buddy) (grp : GroupInfo) : Set ℕ := {x | x < e4b.width 0 ∧ grp.bitmap x = false}

section Runs

variable (hk : k ≤ e4b.top)
include hk

theorem run_lt_width (hi : i < e4b.width k) (hx : x ∈ (nth k i).pages) : x < e4b.width 0 := by
  rw [← width_mul hk, Nat.mul_comm]
  rw [mem_nth] at hx
  exact (Nat.div_lt_iff_lt_mul (Nat.two_pow_pos k)).mp (hx ▸ hi)

theorem freeRun_iff (hi : i < e4b.width k) :
    FreeRun grp k i ↔ (nth k i).pages ⊆ freeSet e4b grp := by
  constructor
  · intro h x hx
    refine ⟨run_lt_width hk hi hx, ?_⟩
    have hlo : 2 ^ k * i ≤ x := hx.1
    have hhi : x < 2 ^ k * i + 2 ^ k := hx.2
    have hbit := h (x - 2 ^ k * i) (by omega)
    rwa [Nat.add_sub_cancel' hlo] at hbit
  · intro h j hj
    have hmem : 2 ^ k * i + j ∈ (nth k i).pages := ⟨Nat.le_add_right _ _, Nat.add_lt_add_left hj _⟩
    exact (h hmem).2

theorem isBuddy_iff (hi : i < e4b.width k) :
    IsBuddy e4b grp k i ↔ nth k i ∈ maximal e4b.top (freeSet e4b grp) := by
  have hparent : k < e4b.top →
      (FreeRun grp (k + 1) (i / 2) ↔ (nth k i).parent.pages ⊆ freeSet e4b grp) := by
    intro hlt
    rw [parent_nth]
    refine freeRun_iff hlt ?_
    rw [width_succ hlt] at hi
    omega
  rw [IsBuddy, freeRun_iff hk hi]
  constructor
  · rintro ⟨hsub, hmax⟩
    exact ⟨nth_aligned k i, hk, hsub, fun hlt => mt (hparent hlt).mpr (hmax hlt)⟩
  · rintro ⟨-, -, hsub, hmax⟩
    exact ⟨hsub, fun hlt => mt (hparent hlt).mp (hmax hlt)⟩

theorem census_eq : census (maximal e4b.top (freeSet e4b grp)) (e4b.width k) k =
    ((Finset.range (e4b.width k)).filter (IsBuddy e4b grp k)).card := by
  refine congrArg Finset.card ?_
  ext i
  simp only [mem_filter, mem_range]
  exact and_congr_right fun hi => (isBuddy_iff hk hi).symm

omit hk

theorem card_members (e4b : Ext4Buddy) (grp : GroupInfo) : (members (freeSet e4b grp) (e4b.width 0)).card =
    ((Finset.range (e4b.width 0)).filter fun x => grp.bitmap x = false).card := by
  refine congrArg Finset.card ?_
  ext x
  simp only [mem_members, freeSet, Set.mem_ofPred_eq, mem_filter, mem_range]
  tauto

theorem card_starts (e4b : Ext4Buddy) (grp : GroupInfo) : (starts (freeSet e4b grp) (e4b.width 0)).card =
    ((Finset.range (e4b.width 0)).filter fun x =>
      grp.bitmap x = false ∧ (x = 0 ∨ grp.bitmap (x - 1) = true)).card := by
  refine congrArg Finset.card ?_
  ext x
  simp only [mem_starts, freeSet, Set.mem_ofPred_eq, mem_filter, mem_range, not_and]
  refine and_congr_right fun hx => ?_
  rw [and_iff_right hx]
  refine and_congr_right fun _ => or_congr_right ?_
  constructor
  · intro h
    simpa using h (by omega)
  · intro h _
    simp [h]

end Runs

section Bridge

theorem Exact.tracks (h : Exact e4b grp) :
    Tracks e4b grp (maximal e4b.top (freeSet e4b grp)) (freeSet e4b grp) := by
  refine ⟨⟨fun k i hk hle hi => ?_, fun k hk => ?_⟩, tiles_maximal _ _, fun b hb => hb.2.1, fun x hx => hx.1⟩
  · rw [← test_buddy hk, h.bits k i hk hle hi, isBuddy_iff hle hi]
  · rw [h.counters k hk, census_eq hk]

theorem mapped_freeSet (e4b : Ext4Buddy) (grp : GroupInfo) : Mapped e4b grp (freeSet e4b grp) :=
  fun _ hx => ⟨fun h => ⟨hx, h⟩, fun h => h.2⟩

theorem Mapped.eq_freeSet (h : Mapped e4b grp Z) (hlt : ∀ x ∈ Z, x < e4b.width 0) : Z = freeSet e4b grp := by
  ext x
  exact ⟨fun hx => ⟨hlt x hx, (h x (hlt x hx)).mpr hx⟩, fun hx => (h x hx.1).mp hx.2⟩

theorem Exact.of_tracks (h : Tracks e4b grp T Z) (hlonely : Lonely e4b.top T) (hmap : Mapped e4b grp Z)
    (hfree : grp.bbFree = (members Z (e4b.width 0)).card)
    (hfragments : grp.bbFragments = (starts Z (e4b.width 0)).card)
    (hfirst : ∀ x ∈ Z, grp.bbFirstFree ≤ x) (hinit : grp.needInit = false)
    (hpreallocs : ∀ pa ∈ grp.preallocList, pa.group = e4b.group ∧
      ∀ j < pa.len, grp.bitmap (pa.start + j) = true) : Exact e4b grp := by
  obtain rfl := h.tiles.eq_maximal h.order_le hlonely
  obtain rfl := hmap.eq_freeSet h.lt_width
  refine ⟨fun k i hk hle hi => ?_, fun k hk => ?_, ?_, ?_, fun x hx hbit => hfirst x ⟨hx, hbit⟩, hinit, hpreallocs⟩
  · rw [test_buddy hk, h.shown.clear_iff k i hk hle hi, isBuddy_iff hle hi]
  · rw [h.shown.counters_eq k hk, census_eq hk]
  · rw [hfree, card_members]
  · rw [hfragments, card_starts]

end Bridge

section Tests

def freeBefore (grp : GroupInfo) (start : ℕ) : Bool := start ≠ 0 && !mbTestBit grp (start - 1) bitmapAddr

def freeBehind (e4b : Ext4Buddy) (grp : GroupInfo) (stop : ℕ) : Bool :=
  stop < sMbMaxs e4b.blkbits 0 && !mbTestBit grp stop bitmapAddr

theorem card_starts_tests (hmap : ∀ x < e4b.width 0, ¬ (start ≤ x ∧ x < start + len) → (grp.bitmap x = false ↔ x ∈ W))
    (hgap : ∀ x, start ≤ x → x < start + len → x ∉ W) (hpos : 0 < len) (hbound : start + len ≤ e4b.width 0) :
    (starts (W ∪ Set.Ico start (start + len)) (e4b.width 0)).card + (if freeBehind e4b grp (start + len) then 1 else 0) =
      (starts W (e4b.width 0)).card + (if freeBefore grp start then 0 else 1) := by
  have hbehind : freeBehind e4b grp (start + len) = true ↔ start + len ∈ starts W (e4b.width 0) := by
    rw [freeBehind, sMbMaxs_eq (Nat.zero_le _), test_bitmap, mem_starts]
    simp only [Bool.and_eq_true, decide_eq_true_eq, Bool.not_eq_true']
    refine and_congr_right fun hlt => ?_
    rw [hmap _ hlt (by omega)]
    exact ⟨fun h => ⟨h, .inr (hgap _ (by omega) (by omega))⟩, fun h => h.1⟩
  have hbefore : freeBefore grp start = false ↔
      start ∈ starts (W ∪ Set.Ico start (start + len)) (e4b.width 0) := by
    rw [freeBefore, test_bitmap, mem_starts, ← Bool.not_eq_true]
    simp only [Bool.and_eq_true, decide_eq_true_eq, Bool.not_eq_true', Set.mem_union, Set.mem_Ico]
    constructor
    · intro h
      refine ⟨by omega, .inr ⟨le_rfl, by omega⟩, ?_⟩
      by_cases hzero : start = 0
      · exact .inl hzero
      · refine .inr fun hcon => h ⟨hzero, ?_⟩
        cases hcon with
        | inl hW => exact (hmap _ (by omega) (by omega)).mpr hW
        | inr hin => omega
    · rintro ⟨-, -, hfirst⟩ ⟨hne, hclear⟩
      exact hfirst.elim hne fun h => h (.inl ((hmap _ (by omega) (by omega)).mp hclear))
  have hcard := card_starts_union (show start < start + len by omega) hbound hgap
  rw [if_congr hbehind rfl rfl, hcard]
  cases hb : freeBefore grp start with
  | false => rw [if_pos (hbefore.mp hb), if_neg (by decide)]
  | true => rw [if_neg (mt hbefore.mpr (by rw [hb]; decide)), if_pos rfl]

end Tests

section Free

def announceFree (e4b : Ext4Buddy) (grp : GroupInfo) (first count : ℕ) : GroupInfo :=
  { grp with
    bbFree := grp.bbFree + count
    bbFirstFree := if first < grp.bbFirstFree then first else grp.bbFirstFree
    bbFragments := if freeBefore grp first && freeBehind e4b grp (first + count) then grp.bbFragments - 1
      else if !freeBefore grp first && !freeBehind e4b grp (first + count) then grp.bbFragments + 1
      else grp.bbFragments }

theorem not_beyond (hbound : start + len ≤ e4b.width 0) : ¬ 1 <<< e4b.blkbits <<< 3 < start + len := by
  rw [Nat.one_shiftLeft, Nat.shiftLeft_eq, ← Nat.pow_add]
  exact Nat.not_lt.mpr hbound

theorem mbFreeBlocks_exact {first count : ℕ} (h : Exact e4b grp) (hpos : 0 < count)
    (hbound : first + count ≤ e4b.width 0) (hused : ∀ x, first ≤ x → x < first + count → grp.bitmap x = true)
    (hpreallocs : ∀ pa ∈ grp.preallocList, ∀ j < pa.len, ¬ (first ≤ pa.start + j ∧ pa.start + j < first + count)) :
    ∃ grp', mbFreeBlocks e4b grp first count = .ok grp' ∧ Exact e4b grp' := by
  have hgap : ∀ x, first ≤ x → x < first + count → x ∉ freeSet e4b grp := by
    intro x hlo hhi hx
    rw [freeSet, Set.mem_ofPred_eq, hused x hlo hhi] at hx
    exact absurd hx.2 (by decide)
  have htracks : Tracks e4b (announceFree e4b grp first count) (maximal e4b.top (freeSet e4b grp))
      (freeSet e4b grp) := h.tracks.congr rfl rfl
  have hmap : Mapped e4b (announceFree e4b grp first count) (freeSet e4b grp) := mapped_freeSet e4b grp
  obtain ⟨grp₁, T₁, hrun, htracks₁, hlonely₁, hmap₁, hrest, hsame⟩ :=
    freeLoop_spec htracks (lonely_maximal _ _) hmap hgap hbound
  obtain ⟨bitmap, buddy, bbCounters, rfl⟩ : ∃ bitmap buddy bbCounters, grp₁ =
      { announceFree e4b grp first count with bitmap, buddy, bbCounters } := ⟨_, _, _, hsame⟩
  have hret := congrArg (Except.map (mbSetLargestFreeOrder e4b)) hrun
  refine ⟨_, (if_neg (not_beyond hbound)).trans hret, ?_⟩
  refine Exact.of_tracks (htracks₁.congr rfl rfl) hlonely₁ hmap₁ ?_ ?_ ?_ h.init fun pa hpa => ?_
  · change grp.bbFree + count = _
    rw [h.free, ← card_members, card_members_union hbound hgap]
    omega
  · have hold : ∀ x < e4b.width 0, ¬ (first ≤ x ∧ x < first + count) →
        (grp.bitmap x = false ↔ x ∈ freeSet e4b grp) := fun x hx _ => mapped_freeSet e4b grp x hx
    have hcard := card_starts_tests hold hgap hpos hbound
    change (announceFree e4b grp first count).bbFragments = _
    rw [announceFree, h.fragments, ← card_starts]
    cases hb : freeBefore grp first <;> cases hm : freeBehind e4b grp (first + count) <;>
      simp only [hb, hm, Bool.and_true, Bool.and_false, Bool.not_true, Bool.not_false, Bool.false_eq_true,
        if_true, if_false] at hcard ⊢ <;> omega
  · intro x hx
    change (if first < grp.bbFirstFree then first else grp.bbFirstFree) ≤ x
    cases hx with
    | inl hold =>
      have := h.firstFree x hold.1 hold.2
      split <;> omega
    | inr hnew =>
      have := hnew.1
      split <;> omega
  · refine ⟨(h.preallocs pa hpa).1, fun j hj => ?_⟩
    exact (hrest _ (hpreallocs pa hpa j hj)).trans ((h.preallocs pa hpa).2 j hj)

end Free

section Mark

theorem setBits_apply (bm : ℕ → Bool) (cur stop x : ℕ) :
    setBits bm cur stop x = if cur ≤ x ∧ x < stop then true else bm x := by
  fun_induction setBits bm cur stop with
  | case1 bm cur hlt hword ih =>
    simp only [dite_eq_ite] at ih
    rw [ih]
    split_ifs <;> first | rfl | omega
  | case2 bm cur hlt hword ih =>
    rw [ih, Function.update_apply]
    split_ifs <;> first | rfl | omega
  | case3 bm cur hlt => rw [if_neg (by omega)]

def announceUsed (e4b : Ext4Buddy) (grp : GroupInfo) (start len : ℕ) : GroupInfo :=
  { grp with
    bbFree := grp.bbFree - len
    bbFirstFree := if grp.bbFirstFree = start then grp.bbFirstFree + len else grp.bbFirstFree
    bbFragments := if freeBefore grp start && freeBehind e4b grp (start + len) then grp.bbFragments + 1
      else if !freeBefore grp start && !freeBehind e4b grp (start + len) then grp.bbFragments - 1
      else grp.bbFragments }

theorem mbMarkUsed_exact (h : Exact e4b grp) (hpos : 0 < len) (hbound : start + len ≤ e4b.width 0)
    (hfree : ∀ x, start ≤ x → x < start + len → grp.bitmap x = false) :
    ∃ ret grp', mbMarkUsed e4b grp e4b.group start len = .ok (ret, grp') ∧ Exact e4b grp' := by
  have hin : Set.Ico start (start + len) ⊆ freeSet e4b grp := by
    rintro x ⟨hlo, hhi⟩
    exact ⟨by omega, hfree x hlo hhi⟩
  have htracks : Tracks e4b (announceUsed e4b grp start len) (maximal e4b.top (freeSet e4b grp))
      (freeSet e4b grp) := h.tracks.congr rfl rfl
  have hlonely := lonely_maximal e4b.top (freeSet e4b grp)
  obtain ⟨ret, grp₁, T₁, hrun, htracks₁, hlonely₁, hrest, hsame⟩ :=
    @markLoop_spec e4b (announceUsed e4b grp start len) _ _ start len (markRounds e4b len) 0 htracks
      (fun c hc ho hb => absurd hb (hlonely c hc ho)) (fun _ => hlonely) hin (fun x hx => hx.2)
      (fun hno => absurd hno (by omega)) (fun k hk => by
        have hle := htracks.le_top hk
        rw [markRounds, Nat.succ_mul, show e4b.blkbits + 2 = e4b.top + 1 from rfl]
        omega)
  obtain ⟨bitmap, buddy, bbCounters, rfl⟩ : ∃ bitmap buddy bbCounters, grp₁ =
      { announceUsed e4b grp start len with bitmap, buddy, bbCounters } := ⟨_, _, _, hsame⟩
  have hgap : ∀ x, start ≤ x → x < start + len → x ∉ freeSet e4b grp \ Set.Ico start (start + len) :=
    fun x hlo hhi hx => hx.2 ⟨hlo, hhi⟩
  have hunion : freeSet e4b grp \ Set.Ico start (start + len) ∪ Set.Ico start (start + len) =
      freeSet e4b grp := Set.sdiff_union_of_subset hin
  have hbitmap : ∀ x, mbSetBits bitmap start len x =
      if start ≤ x ∧ x < start + len then true else grp.bitmap x := by
    intro x
    rw [mbSetBits, setBits_apply]
    split
    · rfl
    · rename_i hout
      exact hrest x hout
  have hret := congrArg (Except.map fun r => (r.1, { mbSetLargestFreeOrder e4b r.2 with
    bitmap := mbSetBits r.2.bitmap start len })) hrun
  refine ⟨ret, _, (if_neg (not_beyond hbound)).trans ((if_neg (not_not.mpr rfl)).trans hret), ?_⟩
  refine Exact.of_tracks (htracks₁.congr rfl rfl) hlonely₁ ?_ ?_ ?_ ?_ h.init fun pa hpa => ?_
  · intro x hx
    change mbSetBits bitmap start len x = false ↔ _
    rw [hbitmap]
    by_cases hout : start ≤ x ∧ x < start + len
    · simp [hout.1, hout.2]
    · rw [if_neg hout]
      exact ⟨fun hclear => ⟨⟨hx, hclear⟩, hout⟩, fun hmem => hmem.1.2⟩
  · have hcard := card_members_union hbound hgap
    rw [hunion, card_members] at hcard
    change grp.bbFree - len = _
    rw [h.free, hcard]
    omega
  · have hold : ∀ x < e4b.width 0, ¬ (start ≤ x ∧ x < start + len) →
        (grp.bitmap x = false ↔ x ∈ freeSet e4b grp \ Set.Ico start (start + len)) := fun x hx hout =>
      ⟨fun hclear => ⟨⟨hx, hclear⟩, hout⟩, fun hmem => hmem.1.2⟩
    have hcard := card_starts_tests hold hgap hpos hbound
    rw [hunion] at hcard
    change (announceUsed e4b grp start len).bbFragments = _
    rw [announceUsed, h.fragments, ← card_starts]
    cases hb : freeBefore grp start <;> cases hm : freeBehind e4b grp (start + len) <;>
      simp only [hb, hm, Bool.and_true, Bool.and_false, Bool.not_true, Bool.not_false, Bool.false_eq_true,
        if_true, if_false] at hcard ⊢ <;> omega
  · rintro x ⟨hx, hout⟩
    have hle := h.firstFree x hx.1 hx.2
    change (if grp.bbFirstFree = start then grp.bbFirstFree + len else grp.bbFirstFree) ≤ x
    split
    · by_contra hlt
      exact hout ⟨by omega, by omega⟩
    · exact hle
  · refine ⟨(h.preallocs pa hpa).1, fun j hj => (hbitmap _).trans ?_⟩
    split
    · rfl
    · exact (h.preallocs pa hpa).2 j hj

end Mark

end VDLinux.Fs.Mballoc
