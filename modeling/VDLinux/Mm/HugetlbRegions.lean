import Mathlib

namespace VDLinux.Mm.Hugetlb

open List Set

/-- Page offsets are not negative, so their differences stay in a `long`. -/
structure FileRegion where
  «from» : ℤ
  «to» : ℤ
deriving DecidableEq

def consume (t : ℤ) : List FileRegion → ℤ × List FileRegion
  | [] => (t, [])
  | rg :: rest =>
    if rg.from > t then (t, rg :: rest) else consume (if rg.to > t then rg.to else t) rest

/-- Nothing where the cursor ends on the list head: the code then reads and writes beside it. -/
def regionAdd (head : List FileRegion) (f t : ℤ) : Option (List FileRegion) :=
  match head.span (fun rg => ¬f ≤ rg.to) with
  | (_, []) => none
  | (before, nrg :: rest) =>
    let f := if f > nrg.from then nrg.from else f
    let (t, rest) :=
      if nrg.from > t then (t, rest) else consume (if nrg.to > t then nrg.to else t) rest
    some (before ++ ⟨f, t⟩ :: rest)

def chgLoop (t chg : ℤ) : List FileRegion → ℤ
  | [] => chg
  | rg :: rest =>
    if rg.from > t then chg
    else if rg.to > t then chgLoop rg.to (chg + (rg.to - t) - (rg.to - rg.from)) rest
    else chgLoop t (chg - (rg.to - rg.from)) rest

def enomem : ℤ := -12

/-- What is returned and the new list; `kmalloc` says whether the allocation succeeds. -/
def regionChg (kmalloc : Bool) (head : List FileRegion) (f t : ℤ) : ℤ × List FileRegion :=
  match head.span (fun rg => ¬f ≤ rg.to) with
  | (before, []) => if kmalloc then (t - f, before ++ [⟨f, f⟩]) else (enomem, head)
  | (before, rg :: rest) =>
    if t < rg.from then
      if kmalloc then (t - f, before ++ ⟨f, f⟩ :: rg :: rest) else (enomem, head)
    else (chgLoop t (t - (if f > rg.from then rg.from else f)) (rg :: rest), head)

def dropLoop (chg : ℤ) : List FileRegion → ℤ
  | [] => chg
  | rg :: rest => dropLoop (chg + (rg.to - rg.from)) rest

def regionTruncate (head : List FileRegion) (stop : ℤ) : ℤ × List FileRegion :=
  match head.span (fun rg => ¬stop ≤ rg.to) with
  | (_, []) => (0, head)
  | (before, rg :: rest) =>
    if stop > rg.from then (dropLoop (rg.to - stop) rest, before ++ [⟨rg.from, stop⟩])
    else (dropLoop 0 (rg :: rest), before)

/-- The lists that calls leave behind: an addition follows the successful change for its range. -/
inductive Reached : List FileRegion → Prop
  | empty : Reached []
  | chg {l f t} (k : Bool) : Reached l → f < t → Reached (regionChg k l f t).2
  | add {l l' f t k} : Reached l → f < t → 0 ≤ (regionChg k l f t).1 →
      regionAdd (regionChg k l f t).2 f t = some l' → Reached l'
  | truncate {l} (stop : ℤ) : Reached l → Reached (regionTruncate l stop).2

def covered (l : List FileRegion) : Set ℤ := {x | ∃ r ∈ l, r.from ≤ x ∧ x < r.to}

def size (l : List FileRegion) : ℤ := (l.map fun r => r.to - r.from).sum

/-- Each region, empty or not, ends before the next begins. -/
structure Tidy (l : List FileRegion) : Prop where
  apart : l.Pairwise (·.to < ·.from)
  le : ∀ r ∈ l, r.from ≤ r.to

/-- A change counts what the addition that may follow puts into the map. -/
structure Charged (l : List FileRegion) (f t : ℤ) (c : ℤ × List FileRegion) : Prop where
  tidy : Tidy c.2
  covered_eq : covered c.2 = covered l
  added : ∃ l', regionAdd c.2 f t = some l' ∧ Tidy l' ∧ covered l' = covered l ∪ Set.Ico f t ∧
    size l' = size l + c.1

variable {l l' before rest : List FileRegion} {rg : FileRegion} {f t a b x : ℤ}

@[simp] theorem notMem_covered_nil : x ∉ covered [] := by simp [covered]

@[simp] theorem mem_covered_cons :
    x ∈ covered (rg :: l) ↔ (rg.from ≤ x ∧ x < rg.to) ∨ x ∈ covered l := by
  simp [covered]

@[simp] theorem mem_covered_append : x ∈ covered (l ++ l') ↔ x ∈ covered l ∨ x ∈ covered l' := by
  simp [covered, or_and_right, exists_or]

@[simp] theorem size_nil : size [] = 0 := rfl

@[simp] theorem size_cons : size (rg :: l) = rg.to - rg.from + size l := sum_cons

@[simp] theorem size_append : size (l ++ l') = size l + size l' := by simp [size]

namespace Tidy

theorem sublist (h : Tidy l) (hsub : l'.Sublist l) : Tidy l' :=
  ⟨h.apart.sublist hsub, fun r hr => h.le r (hsub.subset hr)⟩

theorem of_append (h : Tidy (before ++ l)) : Tidy l := h.sublist (sublist_append_right before l)

theorem of_cons (h : Tidy (rg :: rest)) : Tidy rest ∧ rg.from ≤ rg.to ∧ ∀ r ∈ rest, rg.to < r.from :=
  ⟨h.sublist (sublist_cons_self rg rest), h.le rg mem_cons_self,
    fun _ => rel_of_pairwise_cons h.apart⟩

theorem above (h : Tidy (rg :: rest)) (ht : t < rg.from) : ∀ r ∈ rg :: rest, t < r.from := by
  obtain ⟨-, hle, hgap⟩ := h.of_cons
  exact forall_mem_cons.mpr ⟨ht, fun r hr => (ht.trans_le hle).trans (hgap r hr)⟩

/-- A region is put between the regions that end below it and some of those above it. -/
theorem insert (h : Tidy (before ++ l)) (hsub : l'.Sublist l) (hb : ∀ r ∈ before, r.to < a)
    (hab : a ≤ b) (hl : ∀ r ∈ l', b < r.from) : Tidy (before ++ ⟨a, b⟩ :: l') := by
  have hkept := h.sublist (hsub.append_left before)
  obtain ⟨hbefore, hl', hcross⟩ := pairwise_append.mp hkept.apart
  obtain ⟨hle, hle'⟩ := forall_mem_append.mp hkept.le
  constructor
  · refine pairwise_append.mpr ⟨hbefore, hl'.cons hl, fun r hr => ?_⟩
    exact forall_mem_cons.mpr ⟨hb r hr, hcross r hr⟩
  · exact forall_mem_append.mpr ⟨hle, forall_mem_cons.mpr ⟨hab, hle'⟩⟩

theorem size_eq (h : Tidy l) : (covered l).Finite ∧ size l = (covered l).ncard := by
  induction l with
  | nil => simp [covered, size]
  | cons rg rest ih =>
    obtain ⟨hrest, hle, hgap⟩ := h.of_cons
    obtain ⟨hfin, hsize⟩ := ih hrest
    have hsplit : covered (rg :: rest) = Ico rg.from rg.to ∪ covered rest := by
      ext x
      exact mem_covered_cons
    have hdisj : Disjoint (Ico rg.from rg.to) (covered rest) := by
      refine Set.disjoint_left.mpr fun x hx hmem => ?_
      obtain ⟨r, hr, hrx, -⟩ := hmem
      exact absurd hx.2 ((hgap r hr).trans_le hrx).not_gt
    rw [hsplit]
    refine ⟨(finite_Ico _ _).union hfin, ?_⟩
    rw [ncard_union_eq hdisj (finite_Ico _ _) hfin, ncard_eq_toFinset_card',
      toFinset_Ico, Int.card_Ico, Nat.cast_add, ← hsize, size_cons,
      Int.toNat_of_nonneg (Int.sub_nonneg.mpr hle)]

end Tidy

theorem span_append (hb : ∀ r ∈ before, r.to < f) (hf : ∀ r ∈ rest.head?, f ≤ r.to) :
    (before ++ rest).span (fun rg => ¬f ≤ rg.to) = (before, rest) := by
  induction before with
  | nil =>
    cases rest with
    | nil => rfl
    | cons rg rest => simp_all
  | cons r before ih => simp_all

theorem exists_cut (l : List FileRegion) (f : ℤ) :
    ∃ before rest, l = before ++ rest ∧ (∀ r ∈ before, r.to < f) ∧
      ∀ r ∈ rest.head?, f ≤ r.to := by
  refine ⟨_, _, (takeWhile_append_dropWhile (p := fun rg => ¬f ≤ rg.to)).symm, ?_, ?_⟩
  · intro r hr
    simpa using mem_takeWhile_imp hr
  · intro r hr
    have := List.head?_dropWhile_not (fun rg : FileRegion => ¬f ≤ rg.to) l
    simp_all

theorem consume_spec (h : Tidy l) (hf : ∀ r ∈ l, f ≤ r.from) (hft : f ≤ t) :
    (consume t l).2.Sublist l ∧ (∀ r ∈ (consume t l).2, (consume t l).1 < r.from) ∧
      t ≤ (consume t l).1 ∧ ∀ x, x ∈ Ico f (consume t l).1 ∪ covered (consume t l).2 ↔
        x ∈ Ico f t ∪ covered l := by
  induction l generalizing t with
  | nil => simp [consume]
  | cons rg rest ih =>
    obtain ⟨hrest, hle, -⟩ := h.of_cons
    obtain ⟨hfrom, hf⟩ := forall_mem_cons.mp hf
    rw [consume]
    split
    · next hlt => exact ⟨List.Sublist.refl _, h.above hlt, le_rfl, fun x => Iff.rfl⟩
    · next hlt =>
      rw [← max_def_lt t]
      obtain ⟨hsub, hafter, hgrow, hmem⟩ := ih hrest hf (hft.trans (le_max_left t rg.to))
      refine ⟨hsub.cons rg, hafter, (le_max_left t _).trans hgrow, fun x => (hmem x).trans ?_⟩
      rw [mem_union, mem_union, mem_covered_cons, ← or_assoc, mem_Ico, mem_Ico]
      exact or_congr_left (by omega)

/-- The change counts along the walk of the addition. -/
theorem chgLoop_eq (t c : ℤ) (l : List FileRegion) :
    chgLoop t c l = c + ((consume t l).1 - t) + (size (consume t l).2 - size l) := by
  induction l generalizing t c with
  | nil => simp [chgLoop, consume]
  | cons rg rest ih =>
    rw [chgLoop, consume, size_cons]
    split
    · simp
    · rw [ih, ih]
      split <;> omega

theorem dropLoop_eq (c : ℤ) (l : List FileRegion) : dropLoop c l = c + size l := by
  induction l generalizing c with
  | nil => simp [dropLoop, size]
  | cons rg rest ih => rw [dropLoop, ih, size_cons, add_assoc]

theorem regionAdd_spec (h : Tidy (before ++ rg :: rest)) (hb : ∀ r ∈ before, r.to < f)
    (hf : f ≤ rg.to) (hft : f < t) (ht : ¬rg.from > t) :
    ∃ l', regionAdd (before ++ rg :: rest) f t = some l' ∧ Tidy l' ∧
      covered l' = covered (before ++ rg :: rest) ∪ Ico f t ∧
      size l' = size (before ++ rg :: rest) +
        chgLoop t (t - (if f > rg.from then rg.from else f)) (rg :: rest) := by
  obtain ⟨hrest, hle, hgap⟩ := h.of_append.of_cons
  obtain ⟨hsub, hafter, hgrow, hmem⟩ := consume_spec (t := max t rg.to) (f := min rg.from f) hrest
    (fun r hr => by have := hgap r hr; omega) (by omega)
  have hbelow : ∀ r ∈ before, r.to < min rg.from f := fun r hr =>
    lt_min ((pairwise_append.mp h.apart).2.2 r hr rg mem_cons_self) (hb r hr)
  rw [regionAdd, span_append hb (by simpa using hf), chgLoop_eq, consume, if_neg ht]
  simp only [gt_iff_lt, ← max_def_lt, ← min_def_lt, if_neg ht]
  refine ⟨_, rfl, h.insert (hsub.cons rg) hbelow (by omega) hafter, ?_, ?_⟩
  · ext x
    have := hmem x
    simp only [mem_union, mem_Ico, mem_covered_append, mem_covered_cons] at this ⊢
    have hiff : min rg.from f ≤ x ∧ x < max t rg.to ↔ (rg.from ≤ x ∧ x < rg.to) ∨ f ≤ x ∧ x < t := by
      omega
    rw [this, hiff, or_right_comm, ← or_assoc]
  · simp only [size_append, size_cons]
    omega

theorem charged_new (h : Tidy (before ++ rest)) (hb : ∀ r ∈ before, r.to < f) (hft : f < t)
    (hrest : ∀ r ∈ rest, t < r.from) :
    Charged (before ++ rest) f t (t - f, before ++ ⟨f, f⟩ :: rest) := by
  have htidy := h.insert (List.Sublist.refl rest) hb le_rfl fun r hr => hft.trans (hrest r hr)
  have hcov : covered (before ++ ⟨f, f⟩ :: rest) = covered (before ++ rest) := by
    ext x
    have hempty : ¬(f ≤ x ∧ x < f) := by omega
    simp [hempty]
  obtain ⟨l', hadd, htidy', hcov', hsize⟩ := regionAdd_spec htidy hb le_rfl hft hft.le.not_gt
  refine ⟨htidy, hcov, l', hadd, htidy', by rw [hcov', hcov], ?_⟩
  have hchg : chgLoop t (t - f) rest = t - f := by
    cases rest with
    | nil => rfl
    | cons rg rest => rw [chgLoop, if_pos (hrest rg mem_cons_self)]
  simp [hsize, chgLoop, hft.not_gt, hchg]

theorem regionChg_spec (h : Tidy l) (hft : f < t) (k : Bool) :
    (k = false ∧ regionChg k l f t = (enomem, l)) ∨ Charged l f t (regionChg k l f t) := by
  obtain ⟨before, rest, rfl, hb, hf⟩ := exists_cut l f
  rw [regionChg, span_append hb hf]
  cases rest with
  | nil =>
    cases k with
    | false => exact .inl ⟨rfl, rfl⟩
    | true => exact .inr (charged_new h hb hft fun r hr => nomatch hr)
  | cons rg rest =>
    by_cases ht : t < rg.from
    · simp only [if_pos ht]
      cases k with
      | false => exact .inl ⟨rfl, rfl⟩
      | true => exact .inr (charged_new h hb hft (h.of_append.above ht))
    · simp only [if_neg ht]
      exact .inr ⟨h, rfl, regionAdd_spec h hb (hf rg rfl) hft ht⟩

theorem regionTruncate_spec (h : Tidy l) (stop : ℤ) :
    Tidy (regionTruncate l stop).2 ∧ covered (regionTruncate l stop).2 = covered l \ Set.Ici stop ∧
      size l = (regionTruncate l stop).1 + size (regionTruncate l stop).2 := by
  obtain ⟨before, rest, rfl, hb, hf⟩ := exists_cut l stop
  have hbelow : ∀ x ∈ covered before, x < stop := by
    rintro x ⟨r, hr, -, hlt⟩
    exact hlt.trans (hb r hr)
  rw [regionTruncate, span_append hb hf]
  cases rest with
  | nil =>
    rw [append_nil] at h ⊢
    refine ⟨h, ?_, (zero_add _).symm⟩
    exact (sdiff_eq_left.mpr (Set.disjoint_left.mpr fun x hx => (hbelow x hx).not_ge)).symm
  | cons rg rest =>
    have hstop := hf rg rfl
    have hcov : covered (before ++ [⟨rg.from, stop⟩]) = covered (before ++ rg :: rest) \ Set.Ici stop := by
      ext x
      have : x ∈ covered rest → stop < x := by
        rintro ⟨r, hr, hx, -⟩
        exact (hstop.trans_lt (h.of_append.of_cons.2.2 r hr)).trans_le hx
      simp only [mem_sdiff, mem_Ici, mem_covered_append, mem_covered_cons, notMem_covered_nil]
      grind
    dsimp only
    split
    · next hin =>
      refine ⟨h.insert (nil_sublist _) (fun r hr => ?_) hin.le (fun r hr => nomatch hr), hcov, ?_⟩
      · exact (pairwise_append.mp h.apart).2.2 r hr rg mem_cons_self
      · simp only [dropLoop_eq, size_append, size_cons, size_nil]
        omega
    · next hout =>
      refine ⟨h.sublist (sublist_append_left _ _), hcov ▸ ?_, ?_⟩
      · ext x
        have hempty : ¬(rg.from ≤ x ∧ x < stop) := by omega
        simp [hempty]
      · rw [dropLoop_eq, size_append, zero_add, add_comm]

theorem Reached.tidy (h : Reached l) : Tidy l := by
  induction h with
  | empty => exact ⟨.nil, fun r hr => nomatch hr⟩
  | chg k _ hft ih =>
    obtain ⟨-, hfail⟩ | hok := regionChg_spec ih hft k
    · rwa [hfail]
    · exact hok.tidy
  | add _ hft hpos hadd ih =>
    obtain ⟨-, hfail⟩ | hok := regionChg_spec ih hft _
    · rw [hfail] at hpos
      exact absurd hpos (show ¬0 ≤ enomem by decide)
    · obtain ⟨l', hadd', htidy, -⟩ := hok.added
      rw [hadd] at hadd'
      cases hadd'
      exact htidy
  | truncate stop _ ih => exact (regionTruncate_spec ih stop).1

end VDLinux.Mm.Hugetlb
