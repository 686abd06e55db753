import VDLinux.Base.Dyadic

namespace VDLinux.Mm

open Base.Dyadic Function

def maxOrder : ℕ := 11

/-- The free areas of a zone, each with one list, and the flag and the private word of its pages. -/
structure Zone where
  freeList : ℕ → List ℕ
  nrFree : ℕ → ℕ
  pageBuddy : ℕ → Bool
  pagePrivate : ℕ → ℕ

namespace Zone

def setPageOrder (z : Zone) (page order : ℕ) : Zone :=
  { z with
    pageBuddy := Function.update z.pageBuddy page true
    pagePrivate := Function.update z.pagePrivate page order }

def rmvPageOrder (z : Zone) (page : ℕ) : Zone :=
  { z with
    pageBuddy := Function.update z.pageBuddy page false
    pagePrivate := Function.update z.pagePrivate page 0 }

def listAdd (z : Zone) (order page : ℕ) : Zone :=
  { z with freeList := Function.update z.freeList order (page :: z.freeList order) }

def listAddTail (z : Zone) (order page : ℕ) : Zone :=
  { z with freeList := Function.update z.freeList order (z.freeList order ++ [page]) }

def listDel (z : Zone) (order page : ℕ) : Zone :=
  { z with freeList := Function.update z.freeList order ((z.freeList order).erase page) }

def addNrFree (z : Zone) (order : ℕ) : Zone :=
  { z with nrFree := Function.update z.nrFree order (z.nrFree order + 1) }

def subNrFree (z : Zone) (order : ℕ) : Zone :=
  { z with nrFree := Function.update z.nrFree order (z.nrFree order - 1) }

end Zone

def pageFindBuddy (page pageIdx order : ℕ) : ℕ := page + (pageIdx ^^^ 1 <<< order) - pageIdx

/-- `page_idx & ~(1 << order)`. -/
def findCombinedIndex (pageIdx order : ℕ) : ℕ := Nat.ldiff pageIdx (1 <<< order)

def pageIsBuddy (z : Zone) (buddy order : ℕ) : Bool :=
  z.pageBuddy buddy && z.pagePrivate buddy == order

/-- The merging loop of `__free_one_page`, with the rounds left until the highest order. -/
def mergeLoop : ℕ → Zone → ℕ → ℕ → ℕ → Zone × ℕ × ℕ × ℕ
  | 0, z, page, pageIdx, order => (z, page, pageIdx, order)
  | rounds + 1, z, page, pageIdx, order =>
    let buddy := pageFindBuddy page pageIdx order
    if pageIsBuddy z buddy order then
      let z := ((z.listDel order buddy).subNrFree order).rmvPageOrder buddy
      let combinedIdx := findCombinedIndex pageIdx order
      mergeLoop rounds z (page + combinedIdx - pageIdx) combinedIdx (order + 1)
    else (z, page, pageIdx, order)

/-- Whether the buddy of the next order is free, so that the block is put at the end of its list. -/
def higherIsFree (z : Zone) (page pageIdx order : ℕ) : Bool :=
  let combinedIdx := findCombinedIndex pageIdx order
  let higherPage := page + combinedIdx - pageIdx
  let higherBuddy := pageFindBuddy higherPage combinedIdx (order + 1)
  order < maxOrder - 2 && pageIsBuddy z higherBuddy (order + 1)

def freeOnePage (z : Zone) (page order : ℕ) : Zone :=
  let pageIdx := page &&& (1 <<< maxOrder - 1)
  let (z, page, pageIdx, order) := mergeLoop (maxOrder - 1 - order) z page pageIdx order
  let z := z.setPageOrder page order
  let z := if higherIsFree z page pageIdx order then z.listAddTail order page
    else z.listAdd order page
  z.addNrFree order

/-- The loop of `expand` from the order `low + rounds` down to `low`. -/
def expand (page low : ℕ) : ℕ → Zone → Zone
  | 0, z => z
  | rounds + 1, z =>
    let high := low + rounds
    let size := 1 <<< high
    expand page low rounds (((z.listAdd high (page + size)).addNrFree high).setPageOrder (page + size) high)

/-- The loop of `__rmqueue_smallest`, with the rounds left from the order `current` on. -/
def rmqueueLoop (z : Zone) (order : ℕ) : ℕ → ℕ → Option ℕ × Zone
  | 0, _ => (none, z)
  | rounds + 1, current =>
    match z.freeList current with
    | [] => rmqueueLoop z order rounds (current + 1)
    | page :: _ =>
      let z := ((z.listDel current page).rmvPageOrder page).subNrFree current
      (some page, expand page order (current - order) z)

def rmqueueSmallest (z : Zone) (order : ℕ) : Option ℕ × Zone :=
  rmqueueLoop z order (maxOrder - order) order

def freeBlocks (z : Zone) : Set Block := {b | b.start ∈ z.freeList b.order}

/-- The zone `Z` while the blocks of `A` are not free. -/
structure BuddyInv (Z : Set ℕ) (A : Set Block) (z : Zone) : Prop where
  flag : ∀ o p, p ∈ z.freeList o ↔ z.pageBuddy p = true ∧ z.pagePrivate p = o
  nodup : ∀ o, (z.freeList o).Nodup
  nrFree_eq : ∀ o, z.nrFree o = (z.freeList o).length
  order_lt : ∀ b ∈ freeBlocks z ∪ A, b.order < maxOrder
  tiles : Tiles (freeBlocks z ∪ A) Z
  apart : ∀ b ∈ A, b ∉ freeBlocks z
  lonely : ∀ b ∈ freeBlocks z, b.order < maxOrder - 1 → b.buddy ∉ freeBlocks z

namespace BuddyInv

variable {Z : Set ℕ} {A : Set Block} {z : Zone} {b : Block}

theorem isBuddy_iff (h : BuddyInv Z A z) (b : Block) :
    pageIsBuddy z b.start b.order = true ↔ b ∈ freeBlocks z := by
  rw [pageIsBuddy, Bool.and_eq_true, beq_iff_eq]
  exact (h.flag b.order b.start).symm

theorem head_unique (h : BuddyInv Z A z) {b c : Block} (hb : b ∈ freeBlocks z ∪ A)
    (hc : c ∈ freeBlocks z ∪ A) (hstart : b.start = c.start) : b = c :=
  h.tiles.eq_of_mem hb hc b.start_mem (hstart ▸ c.start_mem)

end BuddyInv

def takeBlock (z : Zone) (b : Block) : Zone :=
  ((z.listDel b.order b.start).subNrFree b.order).rmvPageOrder b.start

def putBlock (z : Zone) (b : Block) (atTail : Bool) : Zone :=
  let z := z.setPageOrder b.start b.order
  (if atTail then z.listAddTail b.order b.start else z.listAdd b.order b.start).addNrFree b.order

section Lists

variable {z : Zone} {b c : Block}

theorem freeList_take (z : Zone) (b : Block) (o : ℕ) : (takeBlock z b).freeList o =
      if o = b.order then (z.freeList o).erase b.start else z.freeList o := by
  simp only [takeBlock, Zone.rmvPageOrder, Zone.subNrFree, Zone.listDel, update_apply]
  split_ifs with ho
  · rw [ho]
  · rfl

theorem freeList_put_perm (z : Zone) (b : Block) (atTail : Bool) (o : ℕ) :
    ((putBlock z b atTail).freeList o).Perm
      (if o = b.order then b.start :: z.freeList o else z.freeList o) := by
  cases atTail with
  | true =>
    simp only [putBlock, Zone.addNrFree, Zone.listAddTail, Zone.setPageOrder, if_true,
      update_apply]
    split_ifs with ho
    · rw [ho]
      exact List.perm_append_singleton _ _
    · exact .refl _
  | false =>
    simp only [putBlock, Zone.addNrFree, Zone.listAdd, Zone.setPageOrder, Bool.false_eq_true, if_false,
      update_apply]
    split_ifs with ho
    · rw [ho]
    · exact .refl _

theorem mem_freeBlocks_put {atTail : Bool} :
    c ∈ freeBlocks (putBlock z b atTail) ↔ c ∈ freeBlocks z ∨ c = b := by
  rw [freeBlocks, Set.mem_ofPred_eq, (freeList_put_perm z b atTail c.order).mem_iff]
  split_ifs with ho
  · rw [List.mem_cons, or_comm]
    exact or_congr_right ⟨fun hs => Block.ext ho hs, fun hc => by rw [hc]⟩
  · have hne : c ≠ b := fun hc => ho (by rw [hc])
    simp [freeBlocks, hne]

theorem mem_freeBlocks_take (hnodup : (z.freeList b.order).Nodup) :
    c ∈ freeBlocks (takeBlock z b) ↔ c ∈ freeBlocks z ∧ c ≠ b := by
  rw [freeBlocks, Set.mem_ofPred_eq, freeList_take]
  split_ifs with ho
  · rw [ho, hnodup.mem_erase_iff, and_comm, freeBlocks, Set.mem_ofPred_eq, ho]
    exact and_congr_right fun _ => not_congr ⟨fun hs => Block.ext ho hs, fun hc => by rw [hc]⟩
  · have hne : c ≠ b := fun hc => ho (by rw [hc])
    simp [freeBlocks, hne]

end Lists

namespace BuddyInv

variable {Z : Set ℕ} {A : Set Block} {z : Zone} {b : Block}

theorem take (h : BuddyInv Z A z) (hb : b ∈ freeBlocks z) :
    BuddyInv Z (insert b A) (takeBlock z b) := by
  have hmem : ∀ c, c ∈ freeBlocks (takeBlock z b) ↔ c ∈ freeBlocks z ∧ c ≠ b :=
    fun c => mem_freeBlocks_take (h.nodup b.order)
  have hsame : freeBlocks (takeBlock z b) ∪ insert b A = freeBlocks z ∪ A := by
    ext c
    by_cases hc : c = b
    · simp [hc, hb]
    · simp [hmem, hc]
  refine ⟨fun o p => ?_, fun o => ?_, fun o => ?_, ?_, ?_, ?_, ?_⟩
  · change (⟨o, p⟩ : Block) ∈ freeBlocks (takeBlock z b) ↔ _
    rw [hmem]
    simp only [takeBlock, Zone.rmvPageOrder, Zone.subNrFree, Zone.listDel, update_apply]
    by_cases hp : p = b.start
    · have huniq : (⟨o, p⟩ : Block) ∈ freeBlocks z → (⟨o, p⟩ : Block) = b :=
        fun ho => h.head_unique (.inl ho) (.inl hb) hp
      simp only [hp, if_true, Bool.false_eq_true, false_and, iff_false, not_and, not_not]
      exact fun ho => hp ▸ huniq (hp ▸ ho)
    · have hne : (⟨o, p⟩ : Block) ≠ b := fun heq => hp (congrArg Block.start heq)
      simp only [hp, if_false, hne, ne_eq, not_false_eq_true, and_true]
      exact h.flag o p
  · rw [freeList_take]
    split_ifs
    · exact (h.nodup o).erase _
    · exact h.nodup o
  · rw [freeList_take]
    simp only [takeBlock, Zone.rmvPageOrder, Zone.subNrFree, Zone.listDel, update_apply]
    split_ifs with ho
    · rw [ho, h.nrFree_eq, List.length_erase_of_mem hb]
    · exact h.nrFree_eq o
  · rw [hsame]
    exact h.order_lt
  · rw [hsame]
    exact h.tiles
  · intro c hc hcon
    obtain ⟨hfree, hne⟩ := (hmem c).mp hcon
    exact h.apart c (hc.resolve_left hne) hfree
  · intro c hc ho hcon
    exact h.lonely c ((hmem c).mp hc).1 ho ((hmem _).mp hcon).1

theorem put (h : BuddyInv Z (insert b A) z) (hbA : b ∉ A)
    (hbuddy : b.order < maxOrder - 1 → b.buddy ∉ freeBlocks z) (atTail : Bool) :
    BuddyInv Z A (putBlock z b atTail) := by
  have hmem : ∀ c, c ∈ freeBlocks (putBlock z b atTail) ↔ c ∈ freeBlocks z ∨ c = b :=
    fun c => mem_freeBlocks_put
  have hnew : b ∉ freeBlocks z := h.apart b (Set.mem_insert b A)
  have hperm := freeList_put_perm z b atTail
  have hsame : freeBlocks (putBlock z b atTail) ∪ A = freeBlocks z ∪ insert b A := by
    ext c
    simp only [Set.mem_union, hmem, Set.mem_insert_iff]
    exact or_assoc
  have hflags : (putBlock z b atTail).pageBuddy = update z.pageBuddy b.start true ∧
      (putBlock z b atTail).pagePrivate = update z.pagePrivate b.start b.order ∧
      (putBlock z b atTail).nrFree = update z.nrFree b.order (z.nrFree b.order + 1) := by
    cases atTail <;> exact ⟨rfl, rfl, rfl⟩
  refine ⟨fun o p => ?_, fun o => ?_, fun o => ?_, ?_, ?_, ?_, ?_⟩
  · change (⟨o, p⟩ : Block) ∈ freeBlocks (putBlock z b atTail) ↔ _
    rw [hmem, hflags.1, hflags.2.1, update_apply, update_apply]
    by_cases hp : p = b.start
    · have hnot : (⟨o, p⟩ : Block) ∉ freeBlocks z := fun ho =>
        hnew (h.head_unique (.inl ho) (.inr (Set.mem_insert b A)) hp ▸ ho)
      rw [or_iff_right hnot, if_pos hp, if_pos hp, hp]
      cases b
      simp [eq_comm]
    · have hne : (⟨o, p⟩ : Block) ≠ b := fun heq => hp (congrArg Block.start heq)
      simp only [hp, if_false, hne, or_false]
      exact h.flag o p
  · rw [(hperm o).nodup_iff]
    split_ifs with ho
    · exact List.nodup_cons.mpr ⟨ho ▸ hnew, h.nodup o⟩
    · exact h.nodup o
  · rw [hflags.2.2, update_apply, (hperm o).length_eq]
    split_ifs with ho
    · rw [List.length_cons, h.nrFree_eq, ho]
    · exact h.nrFree_eq o
  · rw [hsame]
    exact h.order_lt
  · rw [hsame]
    exact h.tiles
  · intro c hc hcon
    obtain hfree | rfl := (hmem c).mp hcon
    · exact h.apart c (.inr hc) hfree
    · exact hbA hc
  · intro c hc ho hcon
    obtain hc | rfl := (hmem c).mp hc
    · obtain hcon | hcon := (hmem _).mp hcon
      · exact h.lonely c hc ho hcon
      · -- the buddy of a free block is the new one, whose buddy is not free
        have hc' : c = b.buddy := by rw [← hcon, Block.buddy_buddy]
        have ho' : b.order < maxOrder - 1 := by rwa [← hcon]
        exact hbuddy ho' (hc' ▸ hc)
    · obtain hcon | hcon := (hmem _).mp hcon
      · exact hbuddy ho hcon
      · exact Block.buddy_ne c hcon

theorem merge (h : BuddyInv Z (insert b.buddy (insert b A)) z) (hb : b ∉ A) (hb' : b.buddy ∉ A)
    (ho : b.order + 1 < maxOrder) : BuddyInv Z (insert b.parent A) z ∧ b.parent ∉ A := by
  have hbT : b ∈ freeBlocks z ∪ insert b.buddy (insert b A) := .inr (.inr (.inl rfl))
  have hb'T : b.buddy ∈ freeBlocks z ∪ insert b.buddy (insert b A) := .inr (.inl rfl)
  have hal := h.tiles.aligned b hbT
  have hnew : ∀ c ∈ freeBlocks z ∪ insert b.buddy (insert b A), c ≠ b.parent := by
    intro c hc heq
    have hstart : b.start ∈ c.pages := by
      rw [heq, Block.pages_parent hal]
      exact .inl b.start_mem
    have := congrArg Block.order ((h.tiles.eq_of_mem hc hbT hstart b.start_mem).symm.trans heq)
    simp [Block.parent] at this
  have hfree : b ∉ freeBlocks z := h.apart b (.inr (.inl rfl))
  have hfree' : b.buddy ∉ freeBlocks z := h.apart b.buddy (.inl rfl)
  have hT : ∀ c, c ∈ freeBlocks z ∪ insert b.parent A ↔
      (c ∈ freeBlocks z ∪ insert b.buddy (insert b A) ∧ c ≠ b ∧ c ≠ b.buddy) ∨ c = b.parent := by
    intro c
    grind
  refine ⟨⟨h.flag, h.nodup, h.nrFree_eq, fun c hc => ?_, h.tiles.merge hbT hb'T hT, ?_, h.lonely⟩,
    fun hp => hnew _ (.inr (.inr (.inr hp))) rfl⟩
  · obtain ⟨hc, -, -⟩ | rfl := (hT c).mp hc
    · exact h.order_lt c hc
    · exact ho
  · intro c hc
    obtain rfl | hc := hc
    · exact fun hp => hnew _ (.inl hp) rfl
    · exact h.apart c (.inr (.inr hc))

theorem split (h : BuddyInv Z (insert b.parent A) z) (hp : b.parent ∉ A) (hal : b.Aligned) :
    BuddyInv Z (insert b.buddy (insert b A)) z ∧ b ∉ A ∧ b.buddy ∉ A := by
  have hpT : b.parent ∈ freeBlocks z ∪ insert b.parent A := .inr (.inl rfl)
  have hnew : ∀ c ∈ freeBlocks z ∪ insert b.parent A, c.order = b.order →
      c.start ∉ b.parent.pages := by
    intro c hc ho hstart
    have := h.tiles.eq_of_mem hc hpT c.start_mem hstart
    rw [this, Block.parent] at ho
    exact absurd ho (Nat.succ_ne_self b.order)
  have hb : b ∉ freeBlocks z ∪ insert b.parent A := by
    refine fun hc => hnew b hc rfl ?_
    rw [Block.pages_parent hal]
    exact .inl b.start_mem
  have hb' : b.buddy ∉ freeBlocks z ∪ insert b.parent A := by
    refine fun hc => hnew b.buddy hc rfl ?_
    rw [Block.pages_parent hal]
    exact .inr b.buddy.start_mem
  have hfree : b.parent ∉ freeBlocks z := h.apart _ (.inl rfl)
  have hT : ∀ c, c ∈ freeBlocks z ∪ insert b.buddy (insert b A) ↔
      (c ∈ freeBlocks z ∪ insert b.parent A ∧ c ≠ b.parent) ∨ c = b ∨ c = b.buddy := by
    intro c
    grind
  refine ⟨⟨h.flag, h.nodup, h.nrFree_eq, fun c hc => ?_, h.tiles.split hal hpT hT, ?_, h.lonely⟩,
    fun hc => hb (.inr (.inr hc)), fun hc => hb' (.inr (.inr hc))⟩
  · have hlt : b.order < maxOrder := (Nat.lt_succ_self _).trans (h.order_lt _ hpT)
    obtain ⟨hc, -⟩ | rfl | rfl := (hT c).mp hc
    · exact h.order_lt c hc
    · exact hlt
    · exact hlt
  · intro c hc hcon
    obtain rfl | rfl | hc := hc
    · exact hb' (.inl hcon)
    · exact hb (.inl hcon)
    · exact h.apart c (.inr hc) hcon

end BuddyInv

section Operations

variable {Z : Set ℕ} {A : Set Block} {z : Zone} {b : Block}

def pageIndex (page : ℕ) : ℕ := page % 2 ^ maxOrder

theorem pageFindBuddy_eq (ho : b.order < maxOrder) :
    pageFindBuddy b.start (pageIndex b.start) b.order = b.buddy.start := by
  rw [pageFindBuddy, pageIndex, Nat.one_shiftLeft, Block.xor_mod ho]
  exact Block.add_sub_index (Block.xor_div ho)

theorem findCombinedIndex_eq (b : Block) :
    findCombinedIndex (pageIndex b.start) b.order = pageIndex b.parent.start := by
  rw [findCombinedIndex, pageIndex, Nat.one_shiftLeft, Block.ldiff_mod]
  rfl

theorem combined_page (ho : b.order < maxOrder) :
    b.start + pageIndex b.parent.start - pageIndex b.start = b.parent.start :=
  Block.add_sub_index (Block.ldiff_div ho)

theorem mergeLoop_spec (rounds : ℕ) (h : BuddyInv Z (insert b A) z) (hbA : b ∉ A)
    (ho : b.order + rounds = maxOrder - 1) :
    ∃ z' c, mergeLoop rounds z b.start (pageIndex b.start) b.order =
        (z', c.start, pageIndex c.start, c.order) ∧
      BuddyInv Z (insert c A) z' ∧ c ∉ A ∧ (c.order < maxOrder - 1 → c.buddy ∉ freeBlocks z') := by
  induction rounds generalizing z b with
  | zero => exact ⟨z, b, rfl, h, hbA, fun hlt => absurd hlt (by omega)⟩
  | succ rounds ih =>
    have hlt : b.order < maxOrder := h.order_lt b (.inr (.inl rfl))
    have hisBuddy := h.isBuddy_iff b.buddy
    rw [mergeLoop, pageFindBuddy_eq hlt]
    dsimp only
    split_ifs with hb
    · have hfree : b.buddy ∈ freeBlocks z := hisBuddy.mp hb
      have hnot : b.buddy ∉ A := fun hA => h.apart _ (.inr hA) hfree
      obtain ⟨hmerged, hparent⟩ := (h.take hfree).merge hbA hnot (by omega)
      rw [findCombinedIndex_eq, combined_page hlt]
      have hord : b.parent.order + rounds = maxOrder - 1 := by
        simp only [Block.parent]
        omega
      exact ih hmerged hparent hord
    · exact ⟨z, b, rfl, h, hbA, fun _ hfree => hb (hisBuddy.mpr hfree)⟩

theorem freeOnePage_spec (h : BuddyInv Z (insert b A) z) (hbA : b ∉ A) :
    BuddyInv Z A (freeOnePage z b.start b.order) := by
  have hlt : b.order < maxOrder := h.order_lt b (.inr (.inl rfl))
  obtain ⟨z', c, hloop, hc, hcA, hbuddy⟩ := mergeLoop_spec (maxOrder - 1 - b.order) h hbA (by omega)
  have hidx : b.start &&& (1 <<< maxOrder - 1) = pageIndex b.start := by
    rw [Nat.one_shiftLeft, Nat.and_two_pow_sub_one_eq_mod, pageIndex]
  rw [freeOnePage, hidx, hloop]
  exact hc.put hcA hbuddy _

theorem expand_spec (page low rounds : ℕ) (h : BuddyInv Z (insert ⟨low + rounds, page⟩ A) z)
    (hA : (⟨low + rounds, page⟩ : Block) ∉ A) :
    BuddyInv Z (insert ⟨low, page⟩ A) (expand page low rounds z) ∧ (⟨low, page⟩ : Block) ∉ A := by
  induction rounds generalizing z with
  | zero => exact ⟨h, hA⟩
  | succ rounds ih =>
    rw [← Nat.add_assoc] at h hA
    obtain ⟨hal, hparent, hbuddy⟩ := Block.lower_half (h.tiles.aligned _ (.inr (.inl rfl)))
    rw [← hparent] at h hA
    obtain ⟨hsplit, hlow, hhigh⟩ := h.split hA hal
    rw [hbuddy] at hsplit hhigh
    have hnew : (⟨low + rounds, page⟩ : Block).upper ∉ insert ⟨low + rounds, page⟩ A := by
      intro hmem
      cases hmem with
      | inl heq => exact Block.buddy_ne _ (hbuddy.trans heq)
      | inr hmem => exact hhigh hmem
    have hlonely : (⟨low + rounds, page⟩ : Block).upper.buddy ∉ freeBlocks z := by
      rw [← hbuddy, Block.buddy_buddy]
      exact hsplit.apart _ (.inr (.inl rfl))
    have hput := hsplit.put hnew (fun _ => hlonely) false
    have hzone : putBlock z (⟨low + rounds, page⟩ : Block).upper false =
        ((z.listAdd (low + rounds) (page + 1 <<< (low + rounds))).addNrFree (low + rounds)).setPageOrder
          (page + 1 <<< (low + rounds)) (low + rounds) := by
      rw [Nat.one_shiftLeft]
      rfl
    rw [expand, ← hzone]
    exact ih hput hlow

theorem rmqueueLoop_spec (order rounds extra : ℕ) (h : BuddyInv Z A z) :
    match rmqueueLoop z order rounds (order + extra) with
    | (none, z') => z' = z
    | (some page, z') => BuddyInv Z (insert ⟨order, page⟩ A) z' ∧ (⟨order, page⟩ : Block) ∉ A := by
  induction rounds generalizing extra with
  | zero => rfl
  | succ rounds ih =>
    rw [rmqueueLoop]
    cases hlist : z.freeList (order + extra) with
    | nil => exact ih (extra + 1)
    | cons page rest =>
      have hfree : (⟨order + extra, page⟩ : Block) ∈ freeBlocks z := by
        change page ∈ z.freeList (order + extra)
        rw [hlist]
        exact List.mem_cons_self
      have hA : (⟨order + extra, page⟩ : Block) ∉ A := fun hmem => h.apart _ hmem hfree
      rw [Nat.add_sub_cancel_left]
      exact expand_spec page order extra (h.take hfree) hA

theorem BuddyInv.setPrivate (h : BuddyInv Z A z) (hb : b ∈ A) {page : ℕ} (hpage : page ∈ b.pages)
    (value : ℕ) :
    BuddyInv Z A { z with pagePrivate := update z.pagePrivate page value } := by
  refine ⟨fun o p => ?_, h.nodup, h.nrFree_eq, h.order_lt, h.tiles, h.apart, h.lonely⟩
  rw [h.flag o p]
  by_cases hp : p = page
  · have hclear : ¬z.pageBuddy p = true := by
      intro hset
      have hfree : (⟨z.pagePrivate p, p⟩ : Block) ∈ freeBlocks z := (h.flag _ p).mpr ⟨hset, rfl⟩
      have heq := h.tiles.eq_of_mem (.inl hfree) (.inr hb) (Block.start_mem _) (hp ▸ hpage)
      exact h.apart b hb (heq ▸ hfree)
    simp [hclear]
  · simp [hp]

end Operations

end VDLinux.Mm
