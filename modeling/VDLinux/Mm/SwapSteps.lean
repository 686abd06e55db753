import VDLinux.Mm.SwapCounts

namespace VDLinux.Mm.Swap

open Base.CarryChain Finset

/-- 1 for an entry in use, 0 for a free one and a bad page. -/
def useOf (b : Byte) : ℕ := if b ≠ 0 ∧ b &&& ~~~swapHasCache ≠ swapMapBad then 1 else 0

structure SwapInfo.Inv (si : SwapInfo) : Prop where
  listed : ∀ n, (si.head n).continued = true → (si.head n).lru ≠ []
  legal : ∀ e < si.max, si.Legal e
  highest : si.highestBit = 0 ∨ si.highestBit < si.max
  inuse : si.inusePages = ∑ e ∈ Finset.range si.max, useOf (si.swapMap e)

structure Moves (si si' : SwapInfo) (e : ℕ) : Prop where
  max_eq : si'.max = si.max
  listed : ∀ n, (si'.head n).continued = true → (si'.head n).lru ≠ []
  map_eq : ∀ e', e' ≠ e → si'.swapMap e' = si.swapMap e'
  others : ∀ e', e' ≠ e → si.Legal e' → si'.Legal e' ∧ si'.represented e' = si.represented e'
  legal : si'.Legal e
  highest : si'.highestBit = 0 ∨ si'.highestBit < si'.max
  inuse : si'.inusePages + useOf (si.swapMap e) = si.inusePages + useOf (si'.swapMap e)

variable {si si₁ si' : SwapInfo} {e : ℕ}

theorem sum_add_swap {f g : ℕ → ℕ} {n : ℕ} (he : e < n) (h : ∀ e', e' ≠ e → g e' = f e') :
    ∑ i ∈ Finset.range n, g i + f e = ∑ i ∈ Finset.range n, f i + g e := by
  have hmem := mem_range.mpr he
  have hrest : ∑ i ∈ (Finset.range n).erase e, g i = ∑ i ∈ (Finset.range n).erase e, f i :=
    sum_congr rfl fun i hi => h i (ne_of_mem_erase hi)
  rw [← add_sum_erase _ g hmem, ← add_sum_erase _ f hmem, hrest]
  omega

theorem SwapInfo.Inv.moves (h : si.Inv) (he : e < si.max) (hm : Moves si si' e) : si'.Inv := by
  refine ⟨hm.listed, ?_, hm.highest, ?_⟩
  · intro e' he'
    by_cases heq : e' = e
    · exact heq ▸ hm.legal
    · exact (hm.others e' heq (h.legal e' (hm.max_eq ▸ he'))).1
  · have hsum := sum_add_swap (f := fun i => useOf (si.swapMap i)) (g := fun i => useOf (si'.swapMap i))
      he fun e' hne => by simp only [hm.map_eq e' hne]
    have hinuse := hm.inuse
    have hold := h.inuse
    rw [hm.max_eq]
    omega

theorem Moves.write {b : Byte} (hre : Rechained si si₁ e)
    (hmax : si'.max = si₁.max) (hmap : si'.swapMap = Function.update si₁.swapMap e b)
    (hhead : si'.head = si₁.head)
    (hlegal : LegalCount (b &&& ~~~swapHasCache) (si₁.head (e / pageSize)).continued (si₁.chain e))
    (hhigh : si'.highestBit = 0 ∨ si'.highestBit < si'.max)
    (hinuse : si'.inusePages + useOf (si.swapMap e) = si.inusePages + useOf b) :
    Moves si si' e ∧ si'.represented e = tally (b &&& ~~~swapHasCache) (si₁.chain e) := by
  have hself : si'.swapMap e = b := by rw [hmap, Function.update_self]
  have hne : ∀ e', e' ≠ e → si'.swapMap e' = si₁.swapMap e' := fun e' he' => by
    rw [hmap, Function.update_of_ne he']
  have hold : si₁.swapMap = si.swapMap := by rw [hre.same]
  have hchain : ∀ e', si'.chain e' = si₁.chain e' := fun e' => by
    rw [SwapInfo.chain, SwapInfo.chain, hhead]
  have hcount : si'.count e = b &&& ~~~swapHasCache := by rw [SwapInfo.count, hself]
  refine ⟨⟨?_, ?_, ?_, ?_, ?_, hhigh, ?_⟩, ?_⟩
  · rw [hmax, hre.same]
  · rw [hhead]
    exact hre.listed
  · intro e' he'
    rw [hne e' he', hold]
  · intro e' he' hl
    obtain ⟨hl', hrep⟩ := hre.others e' he' hl
    obtain ⟨hl'', hrep'⟩ := hl'.keeps (hne e' he') fun hc hs => ⟨by rw [hhead, hc], by
      rw [hchain]
      exact ⟨hs, rfl⟩⟩
    exact ⟨hl'', hrep'.trans hrep⟩
  · rw [SwapInfo.Legal, hcount, hhead, hchain]
    exact hlegal
  · rw [hself]
    exact hinuse
  · rw [SwapInfo.represented, hcount, hchain]

theorem useOf_of_ne {b : Byte} (h : b ≠ 0) (hbad : b &&& ~~~swapHasCache ≠ swapMapBad) :
    useOf b = 1 := if_pos ⟨h, hbad⟩

theorem setMap_self : si.setMap e (si.count e ||| (si.swapMap e &&& swapHasCache)) = si := by
  rw [SwapInfo.setMap, SwapInfo.count, join_masks, Function.update_eq_self]

theorem SwapInfo.Inv.moves_self (h : si.Inv) (he : e < si.max) : Moves si si e :=
  ⟨rfl, h.listed, fun _ _ => rfl, fun _ _ hl => ⟨hl, rfl⟩, h.legal e he, h.highest, rfl⟩

theorem ne_zero_of_parts (b : Byte) (h : b &&& ~~~swapHasCache ≠ 0 ∨ b &&& swapHasCache ≠ 0) : b ≠ 0 := by
  rintro rfl
  exact absurd h (by decide)

theorem count_mask : si.count e &&& ~~~swapHasCache = si.count e := mask_mask _

theorem Moves.settle {b : Byte} (h : si.Inv) (he : e < si.max) (hre : Rechained si si₁ e)
    (hused : si.swapMap e ≠ 0)
    (hlegal : LegalCount (b &&& ~~~swapHasCache) (si₁.head (e / pageSize)).continued (si₁.chain e))
    (hbad : b &&& ~~~swapHasCache = swapMapBad ↔ si.count e = swapMapBad)
    (hsi' : si' = if b = 0 then (si₁.setMap e b).noteFree e else si₁.setMap e b) :
    Moves si si' e ∧ si'.represented e = tally (b &&& ~~~swapHasCache) (si₁.chain e) := by
  have hmax : si₁.max = si.max := by rw [hre.same]
  have hhigh : si₁.highestBit = si.highestBit := by rw [hre.same]
  have hinuse : si₁.inusePages = si.inusePages := by rw [hre.same]
  by_cases hb : b = 0
  · rw [if_pos hb] at hsi'
    have hcount : si.count e ≠ swapMapBad := fun hc => by
      rw [hb] at hbad
      exact absurd (hbad.mpr hc) (by decide)
    have huse : useOf (si.swapMap e) = 1 := useOf_of_ne hused hcount
    have hpos : 1 ≤ si.inusePages := by
      rw [h.inuse, ← add_sum_erase _ _ (mem_range.mpr he), huse]
      exact Nat.le_add_right _ _
    subst hsi'
    refine Moves.write hre rfl rfl rfl hlegal ?_ ?_
    · have hh := h.highest
      simp only [SwapInfo.noteFree, SwapInfo.setMap, hmax, hhigh]
      split <;> omega
    · have h0 : useOf b = 0 := by rw [hb]; rfl
      simp only [SwapInfo.noteFree, SwapInfo.setMap, hinuse, huse, h0]
      omega
  · rw [if_neg hb] at hsi'
    subst hsi'
    refine Moves.write hre rfl rfl rfl hlegal ?_ ?_
    · simp only [SwapInfo.setMap, hmax, hhigh]
      exact h.highest
    · have huse : useOf (si.swapMap e) = useOf b := by
        by_cases hc : si.count e = swapMapBad
        · rw [useOf, useOf, if_neg fun h => h.2 hc, if_neg fun h => h.2 (hbad.mpr hc)]
        · rw [useOf_of_ne hused hc, useOf_of_ne hb fun h => hc (hbad.mp h)]
      simp only [SwapInfo.setMap, hinuse, huse]

theorem Moves.settle_plain {c : Byte} (h : si.Inv) (he : e < si.max) (hre : Rechained si si₁ e)
    (hused : si.swapMap e ≠ 0) (hbad : si.count e ≠ swapMapBad) (hmask : c &&& ~~~swapHasCache = c)
    (hle : c &&& ~~~countContinued ≤ swapMapMax)
    (hmore : c &&& countContinued ≠ 0 → (si₁.head (e / pageSize)).continued = true ∧
      Sound 128 (si₁.chain e) ∧ 0 < value 128 (si₁.chain e))
    (hsi' : si' = if c ||| (si.swapMap e &&& swapHasCache) = 0
      then (si₁.setMap e (c ||| (si.swapMap e &&& swapHasCache))).noteFree e
      else si₁.setMap e (c ||| (si.swapMap e &&& swapHasCache))) :
    Moves si si' e ∧ si'.represented e = (c &&& ~~~countContinued).toNat +
      63 * (if c &&& countContinued ≠ 0 then value 128 (si₁.chain e) else 0) := by
  have hjoin := count_join hmask (cache_mask (si.swapMap e))
  obtain ⟨hs, hb⟩ := plain_of_le _ hle
  have hlegal : LegalCount c (si₁.head (e / pageSize)).continued (si₁.chain e) :=
    .inr (.inr ⟨hle, hmore⟩)
  have hset := Moves.settle h he hre hused (by rwa [hjoin]) (by
      rw [hjoin]
      exact ⟨fun h => absurd h hb, fun h => absurd h hbad⟩) hsi'
  rwa [hjoin, tally_plain hs hb] at hset

theorem represented_plain (hle : si.count e &&& ~~~countContinued ≤ swapMapMax) :
    si.represented e = (si.count e &&& ~~~countContinued).toNat + 63 * si.carried e := by
  obtain ⟨hs, hb⟩ := plain_of_le _ hle
  rw [SwapInfo.represented, tally_plain hs hb, SwapInfo.carried]

/-- What `__swap_duplicate(entry, 1)` does: a reference more, or nothing. -/
structure Duplicated (si : SwapInfo) (e : ℕ) (ret : Ret) (si' : SwapInfo) : Prop where
  moves : Moves si si' e
  gained : ret = .ok → si'.represented e = si.represented e + 1
  failed : ret ≠ .ok → si' = si
  refused : ret ≠ .ok → ret ≠ .enomem →
    si.swapMap e = 0 ∨ si.count e = swapMapBad ∨ si.count e = swapMapShmem
  nomem : ret = .enomem → si.count e &&& ~~~countContinued = swapMapMax ∧
    swapCountContinued si e (si.count e) = .ok (false, si)

theorem Moves.duplicated (hm : Moves si si' e) (hrep : si'.represented e = si.represented e + 1) :
    Duplicated si e .ok si' :=
  ⟨hm, fun _ => hrep, fun h => absurd rfl h, fun h => absurd rfl h, nofun⟩

theorem swapDuplicateLocked_spec (h : si.Inv) (he : e < si.max) :
    ∃ ret si', swapDuplicateLocked si e 1 = .ok (ret, si') ∧ Duplicated si e ret si' := by
  have hin : ¬ si.max ≤ e := Nat.not_le.mpr he
  have hone : (1 : Byte) ≠ swapHasCache := by decide
  have hself : Moves si si e := h.moves_self he
  have hcount : si.swapMap e &&& ~~~swapHasCache = si.count e := rfl
  simp only [swapDuplicateLocked, if_neg hin, if_neg hone, hcount]
  split_ifs with hused hlt hgt
  · -- the lowest digit has room
    obtain ⟨hmask, hle', hnat, hflag⟩ := plain_succ _ count_mask hlt
    have hle := BitVec.le_of_lt hlt
    obtain ⟨hs, hb⟩ := plain_of_le _ hle
    have hmore := ((h.legal e he).resolve_left hs).resolve_left hb
    have hnz : (si.count e + 1) ||| (si.swapMap e &&& swapHasCache) ≠ 0 := by
      intro h0
      have hc := (BitVec.or_eq_zero_iff.mp h0).1
      rw [hc] at hnat
      simp at hnat
    obtain ⟨hmoves, hrep⟩ := Moves.settle_plain h he (Rechained.refl h.listed) (ne_zero_of_parts _ hused) hb hmask
      hle' (fun hf => hmore.2 (by rwa [← hflag])) (if_neg hnz).symm
    refine ⟨.ok, _, rfl, hmoves.duplicated ?_⟩
    rw [hrep, represented_plain hle, hnat, hflag, SwapInfo.carried]
    omega
  · rw [setMap_self]
    refine ⟨.einval, si, rfl, hself, by rintro ⟨⟩, fun _ => rfl, fun _ _ => ?_, by rintro ⟨⟩⟩
    obtain hs | hb | hp := h.legal e he
    · exact .inr (.inr hs)
    · exact .inr (.inl hb)
    · exact absurd hgt (BitVec.not_lt.mpr hp.1)
  · -- the lowest digit is full
    have hmax := BitVec.le_antisymm (BitVec.not_lt.mp hgt) (BitVec.not_lt.mp hlt)
    have hle := BitVec.le_of_eq hmax
    obtain ⟨hs, hb⟩ := plain_of_le _ hle
    obtain hfalse | ⟨si₁, htrue, hre, hcont, hsound, hval⟩ := swapCountContinued_up h.listed (h.legal e he) hmax
    · rw [hfalse]
      simp only [setMap_self]
      exact ⟨.enomem, si, rfl, hself, by rintro ⟨⟩, fun _ => rfl, fun _ h => absurd rfl h, fun _ => ⟨hmax, hfalse⟩⟩
    · have hnz : countContinued ||| (si.swapMap e &&& swapHasCache) ≠ 0 := fun h0 =>
        absurd (BitVec.or_eq_zero_iff.mp h0).1 (by decide)
      obtain ⟨hmoves, hrep⟩ := Moves.settle_plain h he hre (ne_zero_of_parts _ hused) hb (by decide) (by decide)
        (fun _ => ⟨hcont, hsound, by omega⟩) (if_neg hnz).symm
      rw [htrue]
      refine ⟨.ok, _, rfl, hmoves.duplicated ?_⟩
      rw [hrep, represented_plain hle, hmax, if_pos (by decide), hval]
      change 0 + 63 * (si.carried e + 1) = 62 + 63 * si.carried e + 1
      omega
  · rw [setMap_self]
    obtain ⟨hc, hh⟩ := not_or.mp hused
    exact ⟨.enoent, si, rfl, hself, by rintro ⟨⟩, fun _ => rfl,
      fun _ _ => .inl (eq_zero_of_masks _ (not_not.mp hc) (not_not.mp hh)), by rintro ⟨⟩⟩

theorem swapcachePrepare_spec (h : si.Inv) (he : e < si.max) :
    ∃ ret si', swapDuplicateLocked si e swapHasCache = .ok (ret, si') ∧ Moves si si' e ∧
      si'.represented e = si.represented e ∧ ret ≠ .enomem := by
  have hin : ¬ si.max ≤ e := Nat.not_le.mpr he
  simp only [swapDuplicateLocked, if_neg hin, if_true]
  by_cases hfresh : si.swapMap e &&& swapHasCache = 0 ∧ si.swapMap e &&& ~~~swapHasCache ≠ 0
  · have hne : si.swapMap e ≠ 0 := ne_zero_of_parts _ (.inl hfresh.2)
    have hjoin : (si.count e ||| swapHasCache) &&& ~~~swapHasCache = si.count e :=
      count_join count_mask (by decide)
    have hnz : si.count e ||| swapHasCache ≠ 0 := fun h0 =>
      absurd (BitVec.or_eq_zero_iff.mp h0).2 (by decide)
    obtain ⟨hmoves, hrep⟩ := Moves.settle h he (Rechained.refl h.listed) hne
      (by rw [hjoin]; exact h.legal e he) (by rw [hjoin]) (if_neg hnz).symm
    rw [if_pos hfresh]
    rw [hjoin] at hrep
    exact ⟨.ok, _, rfl, hmoves, hrep, by rintro ⟨⟩⟩
  · rw [if_neg hfresh, ← SwapInfo.count, setMap_self]
    split_ifs with hc
    · exact ⟨.eexist, si, rfl, h.moves_self he, rfl, by rintro ⟨⟩⟩
    · exact ⟨.enoent, si, rfl, h.moves_self he, rfl, by rintro ⟨⟩⟩

/-- What a free leaves: the same count for a cache reference, one less for a reference of a map that was
there. -/
structure Freed (si : SwapInfo) (e : ℕ) (usage : Byte) (si' : SwapInfo) : Prop where
  moves : Moves si si' e
  cache : usage = swapHasCache → si'.represented e = si.represented e
  map : usage ≠ swapHasCache → 0 < si.represented e → si'.represented e + 1 = si.represented e

theorem swapEntryFree_eq {usage c hc : Byte} (hrel : releaseUsage si e usage = .ok (c, hc, si₁)) :
    swapEntryFree si e usage = .ok (c ||| hc,
      if c ||| hc = 0 then (si₁.setMap e (c ||| hc)).noteFree e else si₁.setMap e (c ||| hc)) := by
  simp only [swapEntryFree, hrel, bind, Except.bind]

variable (h : si.Inv)
include h

variable (he : e < si.max)
include he

variable (hne : si.swapMap e ≠ 0)
include hne

theorem freed_cache :
    ∃ b si', swapEntryFree si e swapHasCache = .ok (b, si') ∧ Freed si e swapHasCache si' := by
  have hrel : releaseUsage si e swapHasCache = .ok (si.count e, 0, si) := by
    rfl
  have hjoin : (si.count e ||| 0) &&& ~~~swapHasCache = si.count e := count_join count_mask (by decide)
  obtain ⟨hmoves, hrep⟩ := Moves.settle h he (Rechained.refl h.listed) hne
    (by rw [hjoin]; exact h.legal e he) (by rw [hjoin]) rfl
  refine ⟨_, _, swapEntryFree_eq hrel, hmoves, fun _ => ?_, fun h => absurd rfl h⟩
  rw [hrep, hjoin]
  rfl

theorem freed_shmem (hs : si.count e = swapMapShmem) :
    ∃ b si', swapEntryFree si e 1 = .ok (b, si') ∧ Freed si e 1 si' := by
  have hrel : releaseUsage si e 1 = .ok (0, si.swapMap e &&& swapHasCache, si) := by
    rw [SwapInfo.count] at hs
    simp only [releaseUsage]
    rw [if_neg (by decide), if_pos hs]
  obtain ⟨hmoves, hrep⟩ := Moves.settle_plain h he (Rechained.refl h.listed) hne
    (by rw [hs]; decide) (c := 0) (by decide) (by decide) (fun h => absurd rfl h) rfl
  refine ⟨_, _, swapEntryFree_eq hrel, hmoves, fun h => absurd h (by decide), fun _ _ => ?_⟩
  rw [hrep, SwapInfo.represented, tally, if_pos hs]
  rfl

omit hne in
theorem freed_bad (hb : si.count e = swapMapBad) :
    ∃ b si', swapEntryFree si e 1 = .ok (b, si') ∧ Freed si e 1 si' := by
  have hrel : releaseUsage si e 1 = .ok (si.count e, si.swapMap e &&& swapHasCache, si) := by
    simp only [releaseUsage]
    change si.swapMap e &&& ~~~swapHasCache = swapMapBad at hb
    rw [if_neg (by decide), hb, if_neg (by decide), if_neg (by decide), SwapInfo.count, hb]
  have hnz : si.count e ||| (si.swapMap e &&& swapHasCache) ≠ 0 := fun h0 => by
    have h0' := (BitVec.or_eq_zero_iff.mp h0).1
    rw [hb] at h0'
    exact absurd h0' (by decide)
  refine ⟨_, _, swapEntryFree_eq hrel, ?_⟩
  rw [if_neg hnz, setMap_self]
  have hzero : si.represented e = 0 := by
    rw [SwapInfo.represented, hb]
    rfl
  exact ⟨h.moves_self he, fun _ => rfl, fun _ hpos => absurd hpos (by omega)⟩

theorem freed_borrow (hzero : si.count e = countContinued) :
    ∃ b si', swapEntryFree si e 1 = .ok (b, si') ∧ Freed si e 1 si' := by
  obtain ⟨more, si₁, hdown, hre, hcont, hmore, hlast⟩ :=
    swapCountContinued_down h.listed (h.legal e he) hzero
  have hb : si.count e ≠ swapMapBad := by
    rw [hzero]
    decide
  have hrep : si.represented e = 0 + 63 * si.carried e := by
    rw [represented_plain (by rw [hzero]; decide), hzero]
    rfl
  have hbranch : releaseUsage si e 1 = .ok (if more then swapMapMax ||| countContinued else swapMapMax,
      si.swapMap e &&& swapHasCache, si₁) := by
    simp only [releaseUsage]
    rw [hzero] at hdown
    change si.swapMap e &&& ~~~swapHasCache = countContinued at hzero
    rw [if_neg (by decide), hzero, if_neg (by decide), if_pos (by decide), if_pos rfl, hdown]
    cases more <;> rfl
  cases more with
  | true =>
    rw [if_pos rfl] at hbranch
    obtain ⟨hsound, hpos, hval⟩ := hmore rfl
    obtain ⟨hmoves, hrep'⟩ := Moves.settle_plain h he hre hne hb
      (c := swapMapMax ||| countContinued) (by decide) (by decide)
      (fun _ => ⟨hcont, hsound, hpos⟩) rfl
    refine ⟨_, _, swapEntryFree_eq hbranch, hmoves, fun h => absurd h (by decide), fun _ _ => ?_⟩
    rw [hrep', hrep, ← hval, if_pos (by decide)]
    change 62 + 63 * value 128 (si₁.chain e) + 1 = 0 + 63 * (value 128 (si₁.chain e) + 1)
    omega
  | false =>
    rw [if_neg (by decide)] at hbranch
    obtain ⟨hmoves, hrep'⟩ := Moves.settle_plain h he hre hne hb (c := swapMapMax) (by decide)
      (by decide) (fun h => absurd (by decide) h) rfl
    refine ⟨_, _, swapEntryFree_eq hbranch, hmoves, fun h => absurd h (by decide), fun _ _ => ?_⟩
    rw [hrep', hrep, hlast rfl, if_neg (by decide)]
    rfl

theorem freed_plain
    (hle : si.count e &&& ~~~countContinued ≤ swapMapMax) (hzero : si.count e ≠ countContinued) :
    ∃ b si', swapEntryFree si e 1 = .ok (b, si') ∧ Freed si e 1 si' := by
  obtain ⟨hs, hb⟩ := plain_of_le _ hle
  have hmore := ((h.legal e he).resolve_left hs).resolve_left hb
  have hrel : releaseUsage si e 1 = .ok (si.count e - 1, si.swapMap e &&& swapHasCache, si) := by
    rw [SwapInfo.count] at hs hle hzero
    simp only [releaseUsage]
    rw [if_neg (by decide), if_neg hs, if_pos hle, if_neg hzero]
    rfl
  by_cases h0 : si.count e = 0
  · have hcache : si.swapMap e &&& swapHasCache = swapHasCache := by
      have hor : ∀ b : Byte, b ≠ 0 → b &&& ~~~swapHasCache = 0 → b &&& swapHasCache = swapHasCache := by
        decide +kernel
      exact hor _ hne h0
    have hall : (0 - 1 : Byte) ||| swapHasCache = 0xff := by decide
    have hshmem : (0xff : Byte) &&& ~~~swapHasCache = swapMapShmem := by decide
    rw [h0, hcache] at hrel
    have heq := swapEntryFree_eq hrel
    obtain ⟨hmoves, -⟩ := Moves.settle (b := 0xff) h he (Rechained.refl h.listed) hne
      (.inl hshmem) (by
        exact ⟨fun h => absurd h (by decide), fun h => absurd h hb⟩) rfl
    refine ⟨_, _, heq, hmoves, fun h => absurd h (by decide), fun _ hpos => ?_⟩
    rw [SwapInfo.represented, h0] at hpos
    exact absurd hpos (by simp [tally, swapMapShmem, swapMapBad])
  · obtain ⟨hmask, hle', hnat, hflag⟩ := plain_pred _ count_mask hle h0 hzero
    obtain ⟨hmoves, hrep⟩ := Moves.settle_plain h he (Rechained.refl h.listed) hne hb hmask hle'
      (fun hf => hmore.2 (by rwa [← hflag])) rfl
    refine ⟨_, _, swapEntryFree_eq hrel, hmoves, fun h => absurd h (by decide), fun _ _ => ?_⟩
    rw [hrep, represented_plain hle, hflag, ← hnat, SwapInfo.carried]
    omega

theorem freed_map : ∃ b si', swapEntryFree si e 1 = .ok (b, si') ∧ Freed si e 1 si' := by
  obtain hs | hb | hp := h.legal e he
  · exact freed_shmem h he hne hs
  · exact freed_bad h he hb
  · by_cases hzero : si.count e = countContinued
    · exact freed_borrow h he hne hzero
    · exact freed_plain h he hne hp.1 hzero

omit hne

theorem moves_extend {lru : List ContPage} (hne : lru ≠ [])
    (hext : (si.head (e / pageSize)).continued = true →
      ∃ room, lru = (si.head (e / pageSize)).lru ++ room) :
    Moves si (si.setLru e lru) e ∧ (si.setLru e lru).represented e = si.represented e := by
  have hcol : (si.head (e / pageSize)).continued = true → ∀ o,
      ∃ room, column o lru = column o (si.head (e / pageSize)).lru ++ room := by
    intro hc o
    obtain ⟨room, hroom⟩ := hext hc
    exact ⟨column o room, by rw [hroom, column_append]⟩
  have hre : Rechained si (si.setLru e lru) e :=
    rechained_setLru h.listed hne fun hc o _ => hcol hc o
  have hself : (si.setLru e lru).Legal e ∧ (si.setLru e lru).represented e = si.represented e := by
    refine (h.legal e he).keeps rfl fun hc hs => ?_
    obtain ⟨room, hroom⟩ := hcol hc (e % pageSize)
    rw [setLru_head, chain_setLru, hroom]
    exact ⟨rfl, (hs.append _).1, (hs.append _).2⟩
  exact ⟨⟨rfl, hre.listed, fun _ _ => rfl, hre.others, hself.1, h.highest, rfl⟩, hself.2⟩

theorem addSwapCountContinuation_eq (hmax : si.count e &&& ~~~countContinued = swapMapMax) :
    addSwapCountContinuation si e none = .ok (.enomem, si) ∧
    ∀ page, addSwapCountContinuation si e (some page) =
      let lru := if (si.head (e / pageSize)).continued then (si.head (e / pageSize)).lru else []
      if hasRoom (e % pageSize) (si.count e) lru then .ok (.ok, si.setLru e lru)
      else .ok (.ok, si.setLru e (lru ++ [page])) := by
  have hne : si.swapMap e ≠ 0 := by
    intro h0
    rw [SwapInfo.count, h0] at hmax
    exact absurd hmax (by decide)
  have hget : ¬ swapInfoGet si e = false := by
    rw [swapInfoGet, decide_eq_true ⟨he, hne⟩]
    decide
  obtain ⟨hs, hb⟩ := plain_of_le _ (BitVec.le_of_eq hmax)
  have hmore := (((h.legal e he).resolve_left hs).resolve_left hb).2
  have hbug : ¬ ((si.head (e / pageSize)).continued = false ∧
      si.swapMap e &&& ~~~swapHasCache &&& countContinued ≠ 0) := fun hbug =>
    absurd (hmore hbug.2).1 (by simp [hbug.1])
  have hmax' : ¬ si.swapMap e &&& ~~~swapHasCache &&& ~~~countContinued ≠ swapMapMax :=
    fun h => h hmax
  constructor
  · simp only [addSwapCountContinuation, if_neg hget, if_neg hmax']
  · intro page
    simp only [addSwapCountContinuation, if_neg hget, if_neg hmax', if_neg hbug, SwapInfo.count]
    rfl

theorem addSwapCountContinuation_spec (page : Option ContPage) :
    ∃ ret si', addSwapCountContinuation si e page = .ok (ret, si') ∧ Moves si si' e ∧
      si'.represented e = si.represented e ∧ (ret ≠ .ok → si' = si) := by
  have hidle : ∀ ret, Moves si si e ∧ si.represented e = si.represented e ∧ (ret ≠ Ret.ok → si = si) :=
    fun _ => ⟨h.moves_self he, rfl, fun _ => rfl⟩
  by_cases hmax : si.count e &&& ~~~countContinued = swapMapMax
  · obtain ⟨hnone, hsome⟩ := addSwapCountContinuation_eq h he hmax
    cases page with
    | none => exact ⟨_, _, hnone, hidle .enomem⟩
    | some page =>
      rw [hsome]
      cases hc : (si.head (e / pageSize)).continued with
      | false =>
        -- the list has just been initialised
        simp only [hasRoom, if_false, List.nil_append, Bool.false_eq_true]
        obtain ⟨hmoves, hrep⟩ := moves_extend h he (List.cons_ne_nil page []) (by simp [hc])
        exact ⟨_, _, rfl, hmoves, hrep, fun h => absurd rfl h⟩
      | true =>
        simp only [if_true]
        split
        · obtain ⟨hmoves, hrep⟩ := moves_extend h he (h.listed _ hc)
            fun _ => ⟨[], (List.append_nil _).symm⟩
          exact ⟨_, _, rfl, hmoves, hrep, fun h => absurd rfl h⟩
        · have hne : (si.head (e / pageSize)).lru ++ [page] ≠ [] := by simp
          obtain ⟨hmoves, hrep⟩ := moves_extend h he hne fun _ => ⟨[page], rfl⟩
          exact ⟨_, _, rfl, hmoves, hrep, fun h => absurd rfl h⟩
  · refine ⟨.ok, si, ?_, hidle .ok⟩
    unfold addSwapCountContinuation
    split
    · rfl
    · exact if_pos hmax

omit he

theorem takeEntry_spec {taker : Taker} (htake : takeEntry si e taker.usage = some si') :
    e < si.max ∧ Moves si si' e ∧ si.represented e = 0 ∧
      si'.represented e = if taker = .map then 1 else 0 := by
  unfold takeEntry at htake
  split at htake
  · cases htake
  split at htake
  · cases htake
  split at htake
  · cases htake
  rename_i hhigh hle hfree
  have hlt : e < si.max := by
    have := h.highest
    omega
  have hzero : si.swapMap e = 0 := not_not.mp hfree
  have hlegal : LegalCount (taker.usage &&& ~~~swapHasCache) (si.head (e / pageSize)).continued
      (si.chain e) := by
    cases taker <;> exact .inr (.inr ⟨by decide, fun h => absurd (by decide) h⟩)
  have huse : useOf taker.usage = 1 ∧ useOf 0 = 0 := by
    cases taker <;> decide
  have hwrite : Moves si si' e ∧
      si'.represented e = tally (taker.usage &&& ~~~swapHasCache) (si.chain e) := by
    cases htake
    refine Moves.write (Rechained.refl h.listed) rfl rfl rfl hlegal ?_ ?_
    · have := h.highest
      dsimp only
      split_ifs <;> omega
    · rw [hzero, huse.1, huse.2]
  refine ⟨hlt, hwrite.1, ?_, hwrite.2.trans ?_⟩
  · rw [SwapInfo.represented, SwapInfo.count, hzero]
    simp [tally, swapMapShmem, swapMapBad]
  · cases taker <;> simp [Taker.usage, tally, swapMapShmem, swapMapBad, swapHasCache, countContinued]

end VDLinux.Mm.Swap
