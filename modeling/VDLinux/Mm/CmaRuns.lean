import VDLinux.Mm.CmaBookkeeping

namespace VDLinux.Mm.CmaRuns

open Base CmaRegion GenAlloc CmaContext
open CmaBookkeeping Base.SearchTree Base.Packing

/-- The contexts that calls of `cm_alloc` and `cm_free` lead to. A chunk is
freed while it is live, and requests leave room for rounding to granules. -/
inductive Reachable (ops : Balance Cm) : Cma → Prop
  | create (start size minAlignment : UInt32) (migratetype : Int) (s : Cma)
      (h : cmaCreate start.toNat size.toNat minAlignment.toNat migratetype = some s) :
      Reachable ops s
  | alloc (s s' : Cma) (size alignment : UInt32) (env : AllocEnv) (r : Except Int Cm)
      (hs : Reachable ops s) (hf : Fits s.pool.order (pageAlign size.toNat))
      (h : cmAlloc ops s size.toNat alignment.toNat env = some (r, s')) : Reachable ops s'
  | free (s s' : Cma) (c : Cm) (busy : Bool) (hs : Reachable ops s) (hc : c ∈ live s)
      (h : cmFree ops s c busy = some s') : Reachable ops s'

def Cm.span (c : Cm) : Set Nat := Set.Ico c.phys (c.phys + c.size)

def granule (order : Nat) (chunk : GenPoolChunk) (i : Nat) : Set Nat :=
  Set.Ico ((chunk.start + i) * 2 ^ order) ((chunk.start + i + 1) * 2 ^ order)

structure Bookkeeping (s : Cma) : Prop where
  disjoint : (live s).Pairwise (fun a b => Disjoint (Cm.span a) (Cm.span b))
  inside : ∀ c ∈ live s, Cm.span c ⊆ s.region.span
  chunks : s.chunks = (live s).length
  free : s.region.free + ((live s).map Cm.size).sum = s.region.size
  marked : ∃ chunk, s.pool.chunks = [chunk] ∧
    chunk.start * 2 ^ s.pool.order = s.region.start ∧
    chunk.size * 2 ^ s.pool.order = s.region.size ∧
    ∀ i, i < chunk.size →
      (chunk.bits i = true ↔ ∃ c ∈ live s, ¬ Disjoint (Cm.span c) (granule s.pool.order chunk i))

/-- Length of the longest stretch of the region that no chunk occupies. -/
def longestGap (s : Cma) : Nat :=
  longest Cm.phys Cm.size (s.region.start + s.region.size) s.region.start (live s)

theorem ffs_two_pow : ∀ k, k < 32 → ffs (2 ^ k) = k + 1 := by decide

theorem isPowerOfTwo_max {m : Nat} (hm : m &&& (m - 1) = 0) : (max m pageSize).isPowerOfTwo := by
  by_cases h : m ≤ pageSize
  · rw [max_eq_right h]
    exact ⟨12, rfl⟩
  · rw [max_eq_left (by omega)]
    exact (Nat.and_sub_one_eq_zero_iff_isPowerOfTwo (by omega)).mp hm

theorem dvd_of_or_and {a b k : Nat} (h : (a ||| b) &&& (2 ^ k - 1) = 0) :
    2 ^ k ∣ a ∧ 2 ^ k ∣ b := by
  rw [Nat.and_two_pow_sub_one_eq_mod, Nat.or_mod_two_pow, Nat.or_eq_zero_iff] at h
  exact ⟨Nat.dvd_of_mod_eq_zero h.1, Nat.dvd_of_mod_eq_zero h.2⟩

theorem cmaCreate_eq {start size minAlignment : UInt32} {migratetype : Int} {s : Cma}
    (h : cmaCreate start.toNat size.toNat minAlignment.toNat migratetype = some s) :
    ∃ k, 0 < start.toNat ∧ start.toNat + size.toNat < 2 ^ 32 ∧ 2 ^ k ∣ start.toNat ∧
      2 ^ k ∣ size.toNat ∧ s = ⟨migratetype, ⟨k, [⟨start.toNat / 2 ^ k, size.toNat / 2 ^ k,
        fun _ => false⟩]⟩, ⟨start.toNat, size.toNat, size.toNat⟩, .nil, 0⟩ := by
  have hz := size.toNat_lt
  have hm := minAlignment.toNat_lt
  unfold cmaCreate at h
  split at h
  · cases h
  rename_i hzero
  rw [not_or, not_not] at hzero
  dsimp only at h
  split at h
  · cases h
  rename_i halign
  split at h
  · cases h
  rename_i hwrap
  obtain ⟨k, hk⟩ := isPowerOfTwo_max hzero.2
  have hk32 : k < 32 := by
    refine (Nat.pow_lt_pow_iff_right (by decide : 1 < 2)).mp ?_
    rw [← hk]
    exact max_lt hm (by decide)
  rw [hk, not_not] at halign
  rw [hk, ffs_two_pow k hk32, Nat.add_sub_cancel, genPoolCreate, if_neg (by omega)] at h
  simp only [Option.bind_some, genPoolAdd] at h
  split at h
  · cases h
  split at h
  · cases h
  obtain ⟨hd, hd'⟩ := dvd_of_or_and halign
  simp only [ulong] at hwrap
  refine ⟨k, by omega, by omega, hd, hd', ?_⟩
  simpa using h.symm

theorem cmaCreate_inv {start size minAlignment : UInt32} {migratetype : Int} {s : Cma}
    (h : cmaCreate start.toNat size.toNat minAlignment.toNat migratetype = some s) :
    Inv s (fun _ => false) := by
  obtain ⟨k, hpos, htop, hd, hd', rfl⟩ := cmaCreate_eq h
  refine ⟨rfl, hpos, htop, hd, hd', Nat.zero_le _, ?_, ?_, rfl, rfl, ?_⟩
  all_goals simp [live, RbTree.inorder]

theorem Reachable.inv {ops : Balance Cm} {s : Cma} (h : Reachable ops s) : ∃ bits, Inv s bits := by
  induction h with
  | create start size minAlignment migratetype s h => exact ⟨_, cmaCreate_inv h⟩
  | alloc s s' size alignment env r _ hf h ih =>
    obtain ⟨bits, hi⟩ := ih
    obtain ⟨e, he⟩ | ⟨c, i, t, l, r', hc, hlr, ht, hl, hr, he⟩ :=
      cmAlloc_cases ops hi alignment.toNat env hf
    · cases he.symm.trans h
      exact ⟨bits, hi⟩
    · cases he.symm.trans h
      exact ⟨_, hi.grant hc hlr ht hl hr⟩
  | free s s' c busy _ hc h ih =>
    obtain ⟨bits, hi⟩ := ih
    obtain he | he := cmFree_cases ops hi hc busy
    · cases he.symm.trans h
      exact ⟨bits, hi⟩
    · cases he.symm.trans h
      exact ⟨_, hi.release ops hc⟩

variable {s : Cma} {bits : Bitmap}

theorem granules_mul_lt {order size : Nat} (h : Fits order size) :
    granules order size * 2 ^ order < size + 2 ^ order := by
  have hpos := Nat.two_pow_pos order
  have hle := Nat.div_mul_le_self (ulong (size + 2 ^ order - 1)) (2 ^ order)
  simp only [Fits] at h
  rw [ulong_of_lt (by omega)] at hle
  rw [granules, ulong_of_lt (by omega)]
  omega

theorem meets_granule (hi : Inv s bits) {c : Cm} (hc : c ∈ live s) (i : Nat) :
    ¬ Disjoint (Cm.span c) (granule s.pool.order
        ⟨s.region.start / 2 ^ s.pool.order, s.region.size / 2 ^ s.pool.order, bits⟩ i) ↔
      first s c ≤ i ∧ i < first s c + count s c := by
  have hlow := granules_mul_lt (hi.size c hc).2
  have hhigh := le_granules_mul (hi.size c hc).2
  rw [Cm.span, granule, Set.Ico_disjoint_Ico, not_le, hi.phys c hc]
  simp only [Nat.add_mul, Nat.div_mul_cancel hi.start_dvd, Nat.one_mul, count, max_lt_iff, lt_min_iff]
  generalize 2 ^ s.pool.order = g at *
  constructor
  · rintro ⟨⟨_, h1⟩, h2, _⟩
    constructor
    · refine Nat.le_of_lt_succ (Nat.lt_of_mul_lt_mul_right (a := g) ?_)
      rw [Nat.succ_mul]
      omega
    · refine Nat.lt_of_mul_lt_mul_right (a := g) ?_
      rw [Nat.add_mul]
      omega
  · rintro ⟨h1, h2⟩
    have h1' := Nat.mul_le_mul_right g h1
    have h2' := Nat.mul_le_mul_right g (Nat.succ_le_of_lt h2)
    rw [Nat.succ_mul, Nat.add_mul] at h2'
    omega

theorem bookkeeping_of_inv (hi : Inv s bits) : Bookkeeping s := by
  refine ⟨?_, ?_, hi.chunks, hi.free, _, hi.chunk, Nat.div_mul_cancel hi.start_dvd,
    Nat.div_mul_cancel hi.size_dvd, ?_⟩
  · refine hi.bytes.pairwise.imp ?_
    intro a b hab
    rw [Cm.span, Cm.span, Set.Ico_disjoint_Ico]
    exact (min_le_left _ _).trans (hab.trans (le_max_right _ _))
  · intro c hc
    have hb := hi.bytes.bounds c hc
    exact Set.Ico_subset_Ico hb.1 hb.2
  · intro i _
    rw [hi.marked]
    exact exists_congr (fun c => and_congr_right (fun hc => (meets_granule hi hc i).symm))

theorem usub_usub {a p z : Nat} (ha : a < 2 ^ 32) (h : p + z ≤ a) :
    usub (usub a p) z = a - (p + z) := by
  rw [usub_of_le ha (by omega), usub_of_le (by omega) (by omega)]
  omega

theorem largestFrom_eq {stop : Nat} (hstop : stop < 2 ^ 32) (prev : Cm) (largest : Nat)
    (cs : List Cm) (h : Packed Cm.phys Cm.size stop (prev.phys + prev.size) cs) :
    largestFrom stop prev largest cs =
      max largest (longest Cm.phys Cm.size stop (prev.phys + prev.size) cs) := by
  induction cs generalizing prev largest with
  | nil =>
    rw [largestFrom, usub_usub hstop h]
    simp [longest, gaps]
  | cons c cs ih =>
    have hc := (h.bounds c (List.mem_cons_self ..)).2
    rw [largestFrom, usub_usub (by omega) h.1, ih c _ h.2, longest_cons, max_assoc]

theorem cmaGetLargest_eq (hi : Inv s bits) : cmaGetLargest s true = some (longestGap s) := by
  have hb := hi.bytes
  have htop := hi.top
  have hchunks := hi.chunks
  rw [cmaGetLargest, cmaRbGetList, longestGap]
  rw [live] at hb hchunks ⊢
  cases hl : s.rbroot.inorder with
  | nil =>
    rw [hl] at hchunks
    simp [hchunks, longest, gaps]
  | cons c cs =>
    rw [hl] at hchunks hb
    rw [List.length_cons] at hchunks
    rw [if_neg (by omega), Bool.not_true, if_neg (by decide), List.length_cons, if_neg (by omega)]
    have hlo := hb.1
    have hhi := (hb.bounds c (List.mem_cons_self ..)).2
    simp only [Option.map_some]
    rw [ulong_of_lt htop, largestFrom_eq htop c _ cs hb.2, usub_of_le (by omega) hlo, longest_cons]

theorem cmaGetLargest_failed (hi : Inv s bits) :
    cmaGetLargest s false = some (longestGap s) ↔ s.chunks = 0 := by
  have hsize : cmaGetLargest s false = some s.region.size := by
    rw [cmaGetLargest, cmaRbGetList]
    split <;> rfl
  have hgap := hi.bytes.longest_le
  have hlen := hi.length_le
  have hchunks := hi.chunks
  rw [hsize, Option.some_inj, longestGap]
  constructor
  · intro h
    omega
  · intro h
    rw [List.length_eq_zero_iff.mp (hchunks.symm.trans h)]
    simp [longest, gaps]

theorem Reachable.calls_return {ops : Balance Cm} (h : Reachable ops s) :
    (∀ (size : Nat) (alignment : Nat) (env : AllocEnv), Fits s.pool.order (pageAlign size) →
      (cmAlloc ops s size alignment env).isSome) ∧
    ∀ c ∈ live s, ∀ busy, (cmFree ops s c busy).isSome := by
  obtain ⟨bits, hi⟩ := h.inv
  constructor
  · intro size alignment env hf
    obtain ⟨e, he⟩ | ⟨c, i, t, l, r, _, _, _, _, _, he⟩ := cmAlloc_cases ops hi alignment env hf
    · rw [he]
      rfl
    · rw [he]
      rfl
  · intro c hc busy
    obtain he | he := cmFree_cases ops hi hc busy
    · rw [he]
      rfl
    · rw [he]
      rfl

/-- Allocations and frees keep the four records of a context in agreement, and
the largest free chunk is reported whenever the list of chunks can be made. -/
theorem reachable_bookkeeping (ops : Balance Cm) (s : Cma) (h : Reachable ops s) : Bookkeeping s ∧
    (∀ kmalloc, cmaGetLargest s kmalloc = some (longestGap s) ↔ kmalloc = true ∨ s.chunks = 0) ∧
    (∀ (size alignment : Nat) (env : AllocEnv), Fits s.pool.order (pageAlign size) →
      (cmAlloc ops s size alignment env).isSome) ∧
    ∀ c ∈ live s, ∀ busy, (cmFree ops s c busy).isSome := by
  obtain ⟨bits, hi⟩ := h.inv
  refine ⟨bookkeeping_of_inv hi, ?_, h.calls_return⟩
  intro kmalloc
  cases kmalloc with
  | true => simp [cmaGetLargest_eq hi]
  | false => simp [cmaGetLargest_failed hi]

def fourPages : Cma :=
  ⟨0, ⟨12, [⟨0x100, 4, fun _ => false⟩]⟩, ⟨0x100000, 0x4000, 0x4000⟩, .nil, 0⟩

def takeTwo : Option (Except Int Cm × Cma) :=
  cmAlloc Balance.degenerate fourPages 0x1800 0 ⟨true, 0, 0, false⟩

theorem takeTwo_isSome : takeTwo.isSome := by decide +kernel

def twoTaken : Cma := (takeTwo.get takeTwo_isSome).2

theorem twoTaken_reachable : Reachable Balance.degenerate twoTaken := by
  have hcreate : Reachable Balance.degenerate fourPages := .create 0x100000 0x4000 0 0 _ rfl
  exact .alloc _ _ 0x1800 0 ⟨true, 0, 0, false⟩ _ hcreate (fits_page _)
    (Option.some_get takeTwo_isSome).symm

theorem twoTaken_live : live twoTaken = [⟨0x100000, 0x2000⟩] := by decide +kernel

theorem twoTaken_bookkeeping : live twoTaken = [⟨0x100000, 0x2000⟩] ∧ Bookkeeping twoTaken ∧
      cmaGetLargest twoTaken true = some (longestGap twoTaken) := by
  have h := reachable_bookkeeping _ _ twoTaken_reachable
  exact ⟨twoTaken_live, h.1, (h.2.1 true).mpr (.inl rfl)⟩

/-- Out of memory for the list, the whole region is reported as free. -/
theorem largest_without_list :
    Reachable Balance.degenerate twoTaken ∧ longestGap twoTaken = 0x2000 ∧
      cmaGetLargest twoTaken false = some 0x4000 :=
  ⟨twoTaken_reachable, by decide +kernel, by decide +kernel⟩

end VDLinux.Mm.CmaRuns
