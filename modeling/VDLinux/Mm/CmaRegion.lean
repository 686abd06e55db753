import VDLinux.Base.Grid

namespace VDLinux.Mm.CmaRegion

open Base

def pageSize : Nat := 4096

/-- `unsigned long` of the 32-bit ARM target. -/
def ulong (x : Nat) : Nat := x % 2 ^ 32

def pageMask (x : Nat) : Nat := x - x % pageSize

def pageOffset (x : Nat) : Nat := x % pageSize

/-- `PAGE_ALIGN(x)`, whose addition wraps in the last page of the address space. -/
def pageAlign (x : Nat) : Nat := pageMask (ulong (x + (pageSize - 1)))

structure Region where
  start : Nat
  size : Nat
  free : Nat
deriving DecidableEq, Repr

/-- The registered prefix of `cmainfo.region`; `nr_regions` is its length. -/
structure CmaInfo where
  region : List Region
deriving DecidableEq, Repr

def maxCmaRegions : Nat := 8

def einval : Int := -22

def cmaRegionsOverlap (st1 sz1 st2 sz2 : Nat) : Bool :=
  (st2 ≤ st1 && st1 < ulong (st2 + sz2)) ||
  (st2 < ulong (st1 + sz1) && ulong (st1 + sz1) < ulong (st2 + sz2)) ||
  (st1 ≤ st2 && st2 < ulong (st1 + sz1))

def cmaAddRegion (info : CmaInfo) (start size : Nat) : Int × CmaInfo :=
  if maxCmaRegions ≤ info.region.length then (einval, info)
  else if info.region.any (fun r => cmaRegionsOverlap r.start r.size start size) then (einval, info)
  else
    let size := pageAlign (ulong (size + pageOffset start))
    let region : Region := ⟨pageMask start, size, size⟩
    if region.size = 0 then (einval, info)
    else (0, ⟨info.region ++ [region]⟩)

/-- A `cma=size@start` parameter; the result of the registration is ignored. -/
structure CmaParam where
  size : UInt32
  start : UInt32
deriving DecidableEq, Repr

def earlyCma (info : CmaInfo) (p : CmaParam) : CmaInfo :=
  (cmaAddRegion info p.start.toNat p.size.toNat).2

def bootParams (ps : List CmaParam) : CmaInfo := ps.foldl earlyCma ⟨[]⟩

def Region.span (r : Region) : Set Nat := Set.Ico r.start (r.start + r.size)

/-- What the registration is for: whole pages, no page in two regions. -/
def Separated (info : CmaInfo) : Prop :=
  (∀ r ∈ info.region, pageSize ∣ r.start ∧ pageSize ∣ r.size) ∧
  info.region.Pairwise (fun r s => Disjoint r.span s.span)

/-- The request stays clear of the last page of the address space, so its end
does not wrap even after it has been rounded up. -/
def CmaParam.BelowLastPage (p : CmaParam) : Prop :=
  p.start.toNat + p.size.toNat ≤ 2 ^ 32 - pageSize

instance (p : CmaParam) : Decidable p.BelowLastPage := inferInstanceAs (Decidable (_ ≤ _))

/-- Carried by a run whose requests all stay below the last page. -/
structure Inv (info : CmaInfo) : Prop where
  separated : Separated info
  bounded : ∀ r ∈ info.region, r.start + r.size < 2 ^ 32

theorem pageMask_eq (x : Nat) : pageMask x = Grid.floor pageSize x := by
  simp only [pageMask, Grid.floor, pageSize]
  omega

theorem pageAlign_eq (start size : Nat) (h : start + size ≤ 2 ^ 32 - pageSize) :
    pageMask start + pageAlign (ulong (size + pageOffset start)) =
      Grid.ceil pageSize (start + size) := by
  simp only [pageAlign, pageMask, pageOffset, ulong, Grid.ceil, Nat.ceilDiv_eq_add_pred_div,
    pageSize] at *
  omega

theorem not_overlap {st1 sz1 st2 sz2 : Nat} (h1 : st1 + sz1 < 2 ^ 32) (h2 : st2 + sz2 < 2 ^ 32)
    (h : cmaRegionsOverlap st1 sz1 st2 sz2 = false) :
    st1 + sz1 ≤ st2 ∨ st2 + sz2 ≤ st1 := by
  simp only [cmaRegionsOverlap, ulong, Nat.mod_eq_of_lt h1, Nat.mod_eq_of_lt h2,
    Bool.or_eq_false_iff, Bool.and_eq_false_iff, decide_eq_false_iff_not] at h
  omega

/-- Everything one registration can do: refuse, or append the rounded request
after finding no overlap with the regions already there. -/
theorem cmaAddRegion_cases (info : CmaInfo) (start size : Nat) :
    (cmaAddRegion info start size).2 = info ∨
    (∀ r ∈ info.region, cmaRegionsOverlap r.start r.size start size = false) ∧
      ∃ z, z = pageAlign (ulong (size + pageOffset start)) ∧ z ≠ 0 ∧
        (cmaAddRegion info start size).2 = ⟨info.region ++ [⟨pageMask start, z, z⟩]⟩ := by
  unfold cmaAddRegion
  split
  · exact .inl rfl
  · split
    · exact .inl rfl
    · rename_i hany
      dsimp only
      split
      · exact .inl rfl
      · rename_i hz
        refine .inr ⟨?_, _, rfl, hz, rfl⟩
        simpa using hany

theorem earlyCma_inv (info : CmaInfo) (p : CmaParam) (hp : p.BelowLastPage) (hi : Inv info) :
    Inv (earlyCma info p) := by
  have hpos : 0 < pageSize := by decide
  have hround := pageAlign_eq p.start.toNat p.size.toNat hp
  rcases cmaAddRegion_cases info p.start.toNat p.size.toNat with he | ⟨hno, z, hz, _, he⟩
  · rw [earlyCma, he]
    exact hi
  · rw [earlyCma, he]
    have hend : pageMask p.start.toNat + z = Grid.ceil pageSize (p.start.toNat + p.size.toNat) := by
      rw [hz, hround]
    have hstart : pageSize ∣ pageMask p.start.toNat := pageMask_eq _ ▸ Grid.dvd_floor _ _
    have hsize : pageSize ∣ z := by
      rw [← Nat.dvd_add_right hstart, hend]
      exact Grid.dvd_ceil _ _
    have htop : pageMask p.start.toNat + z < 2 ^ 32 := by
      have hb : pageSize ∣ 2 ^ 32 - pageSize := by decide
      have hle := Grid.ceil_le hpos hb hp
      rw [hend]
      exact lt_of_le_of_lt hle (by decide)
    have hapart : ∀ r ∈ info.region,
        Disjoint r.span (Region.span ⟨pageMask p.start.toNat, z, z⟩) := by
      intro r hr
      have hr' := hi.separated.1 r hr
      have hreq : p.start.toNat + p.size.toNat < 2 ^ 32 := lt_of_le_of_lt hp (by decide)
      have hs := not_overlap (hi.bounded r hr) hreq (hno r hr)
      simp only [Region.span]
      rw [hend, pageMask_eq]
      exact Grid.disjoint_hull hpos hr'.1 ((Nat.dvd_add_right hr'.1).mpr hr'.2) hs
    refine ⟨⟨?_, ?_⟩, ?_⟩
    · exact List.forall_mem_append.mpr ⟨hi.separated.1, List.forall_mem_singleton.mpr ⟨hstart, hsize⟩⟩
    · refine List.pairwise_append.mpr ⟨hi.separated.2, List.pairwise_singleton _ _, ?_⟩
      exact fun r hr => List.forall_mem_singleton.mpr (hapart r hr)
    · exact List.forall_mem_append.mpr ⟨hi.bounded, List.forall_mem_singleton.mpr htop⟩

/-- Boot parameters that stay below the last page register page-aligned
regions that are pairwise disjoint, in whatever order they come. -/
theorem bootParams_separated (ps : List CmaParam) (h : ∀ p ∈ ps, p.BelowLastPage) :
    Separated (bootParams ps) := by
  have hi : Inv (bootParams ps) := by
    refine List.foldlRecOn ps earlyCma ?_ ?_
    · exact ⟨⟨by simp, by simp⟩, by simp⟩
    · intro info hinfo p hp
      exact earlyCma_inv info p (h p hp) hinfo
  exact hi.separated

theorem bootParams_separated_two :
    (∀ p ∈ [(⟨0x1800, 0x10000⟩ : CmaParam), ⟨0x20, 0x11c00⟩, ⟨0x10, 0x20ff8⟩], p.BelowLastPage) ∧
      Separated (bootParams [⟨0x1800, 0x10000⟩, ⟨0x20, 0x11c00⟩, ⟨0x10, 0x20ff8⟩]) :=
  ⟨by decide, bootParams_separated _ (by decide)⟩

/-- A region that reaches into the last page ends at `2 ^ 32`, which wraps to
zero in the overlap test. -/
def lastPageParam : CmaParam := ⟨0x10, 0xfffff800⟩

theorem lastPage_registered_twice : lastPageParam.start.toNat + lastPageParam.size.toNat < 2 ^ 32 ∧
      ¬ Separated (bootParams [lastPageParam, lastPageParam]) := by
  refine ⟨by decide, ?_⟩
  have hb : bootParams [lastPageParam, lastPageParam] =
      ⟨[⟨0xfffff000, 0x1000, 0x1000⟩, ⟨0xfffff000, 0x1000, 0x1000⟩]⟩ := by decide
  rw [hb]
  rintro ⟨_, hd⟩
  have hd' := List.rel_of_pairwise_cons hd (List.mem_singleton_self _)
  rw [Region.span, Set.Ico_disjoint_Ico] at hd'
  simp at hd'

end VDLinux.Mm.CmaRegion
