import VDLinux.Mm.CmaContext

namespace VDLinux.Mm.CmaBookkeeping

open Base CmaRegion GenAlloc CmaContext List
open Base.SearchTree Base.Packing

def live (cma : Cma) : List Cm := cma.rbroot.inorder

def first (cma : Cma) (cm : Cm) : Nat :=
  cm.phys / 2 ^ cma.pool.order - cma.region.start / 2 ^ cma.pool.order

def count (cma : Cma) (cm : Cm) : Nat := granules cma.pool.order cm.size

def Fits (order size : Nat) : Prop := size + 2 ^ order ≤ 2 ^ 32

instance (order size : Nat) : Decidable (Fits order size) := inferInstanceAs (Decidable (_ ≤ _))

/-- The pool, the tree, the counter and the free bytes of a context tell the
same story about its chunks. -/
structure Inv (s : Cma) (bits : Bitmap) : Prop where
  chunk : s.pool.chunks =
    [⟨s.region.start / 2 ^ s.pool.order, s.region.size / 2 ^ s.pool.order, bits⟩]
  start_pos : 0 < s.region.start
  top : s.region.start + s.region.size < 2 ^ 32
  start_dvd : 2 ^ s.pool.order ∣ s.region.start
  size_dvd : 2 ^ s.pool.order ∣ s.region.size
  packed : Packed (first s) (count s) (s.region.size / 2 ^ s.pool.order) 0 (live s)
  phys : ∀ c ∈ live s, c.phys = s.region.start + first s c * 2 ^ s.pool.order
  size : ∀ c ∈ live s, 0 < c.size ∧ Fits s.pool.order c.size
  chunks : s.chunks = (live s).length
  free : s.region.free + ((live s).map Cm.size).sum = s.region.size
  marked : ∀ i, bits i = true ↔ ∃ c ∈ live s, first s c ≤ i ∧ i < first s c + count s c

theorem le_granules_mul {order size : Nat} (h : Fits order size) :
    size ≤ granules order size * 2 ^ order := by
  have hpos := Nat.two_pow_pos order
  have hle := Grid.le_ceil (x := size) hpos
  simp only [Fits] at h
  rwa [granules, ulong, Nat.mod_eq_of_lt (by omega)]

theorem granules_pos {order size : Nat} (h : Fits order size) (hz : 0 < size) :
    0 < granules order size :=
  Nat.pos_of_mul_pos_right (lt_of_lt_of_le hz (le_granules_mul h))

theorem fits_page (size : Nat) : Fits 12 (pageAlign size) := by
  simp only [Fits, pageAlign, pageMask, ulong, pageSize]
  omega

variable {s : Cma} {bits : Bitmap}

variable (hi : Inv s bits)
include hi

theorem Inv.count_pos {c : Cm} (hc : c ∈ live s) : 0 < count s c :=
  granules_pos (hi.size c hc).2 (hi.size c hc).1

theorem Inv.sorted : (live s).Pairwise (fun a b => a.phys < b.phys) := by
  refine hi.packed.pairwise.imp_of_mem ?_
  intro a b ha hb hab
  have hp := hi.count_pos ha
  rw [hi.phys a ha, hi.phys b hb]
  exact Nat.add_lt_add_left (Nat.mul_lt_mul_of_pos_right (by omega) (Nat.two_pow_pos _)) _

theorem Inv.nodup : (live s).Nodup := hi.sorted.imp (fun hab he => by simp [he] at hab)

theorem Inv.length_le : (live s).length ≤ ((live s).map Cm.size).sum := by
  rw [← length_map (f := Cm.size)]
  refine length_le_sum_of_one_le _ ?_
  intro x hx
  obtain ⟨c, hc, rfl⟩ := mem_map.mp hx
  exact (hi.size c hc).1

theorem Inv.bytes :
    Packed Cm.phys Cm.size (s.region.start + s.region.size) s.region.start (live s) := by
  have h := hi.packed.scale hi.phys (fun c hc => le_granules_mul (hi.size c hc).2)
  rwa [Nat.zero_mul, Nat.add_zero, Nat.div_mul_cancel hi.size_dvd] at h

omit hi

structure Placement (s : Cma) (bits : Bitmap) (i : Nat) (c : Cm) : Prop where
  phys : c.phys = s.region.start + i * 2 ^ s.pool.order
  pos : 0 < c.size
  fits : Fits s.pool.order c.size
  inside : i + count s c ≤ s.region.size / 2 ^ s.pool.order
  clear : ∀ j, i ≤ j → j < i + count s c → bits j = false

variable {i : Nat} {c : Cm} {l r : List Cm}

variable (hi : Inv s bits)
include hi

variable (hc : Placement s bits i c)
include hc

theorem Placement.first_eq : first s c = i := by
  have hpos := Nat.two_pow_pos s.pool.order
  obtain ⟨k, hk⟩ := hi.start_dvd
  rw [first, hc.phys, hk, Nat.mul_comm _ k, ← Nat.add_mul, Nat.mul_div_cancel _ hpos,
    Nat.mul_div_cancel _ hpos, Nat.add_sub_cancel_left]

theorem Placement.apart {x : Cm} (hx : x ∈ live s) :
    first s x + count s x ≤ i ∨ i + count s c ≤ first s x := by
  have hp := hi.count_pos hx
  have hn : 0 < count s c := granules_pos hc.fits hc.pos
  by_contra hcon
  have hj : bits (max i (first s x)) = true := (hi.marked _).mpr ⟨x, hx, by omega, by omega⟩
  rw [hc.clear _ (by omega) (by omega)] at hj
  cases hj

theorem Placement.phys_ne {x : Cm} (hx : x ∈ live s) : c.phys ≠ x.phys := by
  intro he
  have hap := hc.apart hi hx
  have hp := hi.count_pos hx
  have hn : 0 < count s c := granules_pos hc.fits hc.pos
  have hf : first s x = i := by rw [← hc.first_eq hi, first, first, he]
  omega

theorem Placement.packed (hlr : live s = l ++ r)
    (hl : ∀ x ∈ l, x.phys < c.phys) (hr : ∀ x ∈ r, c.phys < x.phys) :
    Packed (first s) (count s) (s.region.size / 2 ^ s.pool.order) 0 (l ++ c :: r) := by
  have hfirst := hc.first_eq hi
  refine Packed.insert (hlr ▸ hi.packed) (Nat.zero_le _) (by rw [hfirst]; exact hc.inside) ?_ ?_
  · intro x hx
    have hx' : x ∈ live s := by rw [hlr]; exact mem_append_left _ hx
    have hxc := hl x hx
    rw [hc.phys, hi.phys x hx'] at hxc
    have hlt := Nat.lt_of_mul_lt_mul_right (Nat.lt_of_add_lt_add_left hxc)
    rw [hfirst]
    exact (hc.apart hi hx').resolve_right (by omega)
  · intro x hx
    have hx' : x ∈ live s := by rw [hlr]; exact mem_append_right _ hx
    have hxc := hr x hx
    rw [hc.phys, hi.phys x hx'] at hxc
    have hlt := Nat.lt_of_mul_lt_mul_right (Nat.lt_of_add_lt_add_left hxc)
    rw [hfirst]
    exact (hc.apart hi hx').resolve_left (by omega)

omit hc

omit hi

theorem usub_of_le {a b : Nat} (ha : a < 2 ^ 32) (hb : b ≤ a) : usub a b = a - b := by
  simp only [usub, ulong]
  omega

theorem ulong_of_lt {a : Nat} (ha : a < 2 ^ 32) : ulong a = a := Nat.mod_eq_of_lt ha

theorem mem_insert {x : Cm} (hlr : live s = l ++ r) : x ∈ l ++ c :: r ↔ x = c ∨ x ∈ live s := by
  rw [hlr, mem_append, mem_cons, mem_append]
  exact or_left_comm

/-- The pool of a region whose granules are marked by `b`. -/
def poolWith (s : Cma) (b : Bitmap) : GenPool :=
  ⟨s.pool.order, [⟨s.region.start / 2 ^ s.pool.order, s.region.size / 2 ^ s.pool.order, b⟩]⟩

def grant (s : Cma) (bits : Bitmap) (i : Nat) (c : Cm) (t : RbTree Cm) : Cma where
  migratetype := s.migratetype
  pool := poolWith s (bitmapSet bits i (count s c))
  region := { s.region with free := s.region.free - c.size }
  rbroot := t
  chunks := s.chunks + 1

variable (hi : Inv s bits)
include hi

theorem Placement.item (hc : Placement s bits i c) (hlr : live s = l ++ r)
    {x : Cm} (hx : x ∈ l ++ c :: r) :
    x.phys = s.region.start + first s x * 2 ^ s.pool.order ∧ 0 < x.size ∧
      Fits s.pool.order x.size := by
  obtain rfl | hx := (mem_insert hlr).mp hx
  · exact ⟨by rw [hc.first_eq hi, hc.phys], hc.pos, hc.fits⟩
  · exact ⟨hi.phys x hx, hi.size x hx⟩

theorem Placement.size_le_free (hc : Placement s bits i c)
    (hlr : live s = l ++ r) (hl : ∀ x ∈ l, x.phys < c.phys) (hr : ∀ x ∈ r, c.phys < x.phys) :
    c.size ≤ s.region.free := by
  have hsum := ((hc.packed hi hlr hl hr).scale (fun x hx => (hc.item hi hlr hx).1)
    (fun x hx => le_granules_mul (hc.item hi hlr hx).2.2)).sum_le
  have hfree := hi.free
  rw [Nat.div_mul_cancel hi.size_dvd] at hsum
  simp only [hlr, map_append, map_cons, sum_append, sum_cons] at hsum hfree
  omega

theorem Inv.chunks_lt : s.chunks + 1 < 2 ^ 32 := by
  have hlen := hi.length_le
  have hfree := hi.free
  have hstart := hi.start_pos
  have htop := hi.top
  rw [hi.chunks]
  omega

theorem Inv.grant {t : RbTree Cm} (hc : Placement s bits i c)
    (hlr : live s = l ++ r) (ht : t.inorder = l ++ c :: r)
    (hl : ∀ x ∈ l, x.phys < c.phys) (hr : ∀ x ∈ r, c.phys < x.phys) :
    Inv (grant s bits i c t) (bitmapSet bits i (count s c)) := by
  have hpacked := hc.packed hi hlr hl hr
  have hsize := hc.size_le_free hi hlr hl hr
  have hfree := hi.free
  have hchunks := hi.chunks
  have hitem := fun x => hc.item hi hlr (x := x)
  have hmem := fun x => mem_insert (x := x) (c := c) hlr
  simp only [hlr, map_append, sum_append, length_append] at hfree hchunks
  rw [← ht] at hpacked hitem hmem
  refine ⟨rfl, hi.start_pos, hi.top, hi.start_dvd, hi.size_dvd, hpacked,
    fun x hx => (hitem x hx).1, fun x hx => (hitem x hx).2, ?_, ?_, ?_⟩
  · change s.chunks + 1 = t.inorder.length
    rw [ht, length_append, length_cons]
    omega
  · change s.region.free - c.size + (t.inorder.map Cm.size).sum = s.region.size
    rw [ht]
    simp only [map_append, map_cons, sum_append, sum_cons]
    omega
  · intro j
    change _ ↔ ∃ x ∈ t.inorder, first s x ≤ j ∧ j < first s x + count s x
    simp only [bitmapSet_apply, hi.marked, hmem, exists_eq_or_imp, hc.first_eq hi]

theorem Inv.pool_eq : s.pool = poolWith s bits := by
  rw [poolWith, ← hi.chunk]

theorem Inv.genPoolFree_eq (b : Bitmap) {phys size : Nat} (hz : 0 < size)
    (hphys : phys = s.region.start + i * 2 ^ s.pool.order)
    (hin : i + granules s.pool.order size ≤ s.region.size / 2 ^ s.pool.order) :
    genPoolFree (poolWith s b) phys size =
      some (poolWith s (bitmapClear b i (granules s.pool.order size))) := by
  have hpos := Nat.two_pow_pos s.pool.order
  have hdiv : phys / 2 ^ s.pool.order = s.region.start / 2 ^ s.pool.order + i := by
    rw [hphys, Nat.add_mul_div_right _ _ hpos]
  have hle := Nat.div_le_self s.region.start (2 ^ s.pool.order)
  have hle' := Nat.div_le_self s.region.size (2 ^ s.pool.order)
  have htop := hi.top
  have h := genPoolFree_chunk (poolWith s b) _ phys size rfl (Nat.ne_of_gt hz)
    (ulong_of_lt (by simp only [poolWith, hdiv]; omega)) (by simp only [poolWith, hdiv]; omega)
    (by simp only [poolWith, hdiv]; omega)
  rw [h]
  simp only [poolWith, hdiv, Nat.add_sub_cancel_left]

theorem Inv.genPoolAlloc_cases {size : Nat} (hf : Fits s.pool.order size) (alignmentOrder : Nat) :
    genPoolAllocAligned s.pool size alignmentOrder = (0, s.pool) ∨
    ∃ i c, c.size = size ∧ c.phys ≠ 0 ∧ Placement s bits i c ∧
      genPoolAllocAligned s.pool size alignmentOrder =
        (c.phys, poolWith s (bitmapSet bits i (count s c))) := by
  have hpos := Nat.two_pow_pos s.pool.order
  obtain h | ⟨hz, i, hlt, hin, hclear, h⟩ :=
    genPoolAllocAligned_cases s.pool _ size alignmentOrder hi.chunk
  · exact .inl h
  · have hi' : i * 2 ^ s.pool.order < s.region.size := by
      rw [← Nat.div_mul_cancel hi.size_dvd]
      exact Nat.mul_lt_mul_of_pos_right hlt hpos
    have hstart := hi.start_pos
    have htop := hi.top
    have haddr : ulong ((s.region.start / 2 ^ s.pool.order + i) * 2 ^ s.pool.order) =
        s.region.start + i * 2 ^ s.pool.order := by
      rw [Nat.add_mul, Nat.div_mul_cancel hi.start_dvd, ulong_of_lt (by omega)]
    refine .inr ⟨i, ⟨s.region.start + i * 2 ^ s.pool.order, size⟩, rfl, by dsimp only; omega,
      ⟨rfl, Nat.pos_of_ne_zero hz, hf, hin, hclear⟩, ?_⟩
    rw [h]
    rw [haddr]
    rfl

omit hi

/-- An allocation that fails, wherever it does, leaves the context as it was;
one that succeeds takes a placement and links it into the tree. -/
theorem cmAlloc_cases (ops : Balance Cm) (hi : Inv s bits) {size : Nat} (alignment : Nat)
    (env : AllocEnv) (hf : Fits s.pool.order (pageAlign size)) :
    (∃ e, cmAlloc ops s size alignment env = some (.error e, s)) ∨
    ∃ c i t l r, Placement s bits i c ∧ live s = l ++ r ∧ t.inorder = l ++ c :: r ∧
      (∀ x ∈ l, x.phys < c.phys) ∧ (∀ x ∈ r, c.phys < x.phys) ∧
      cmAlloc ops s size alignment env = some (.ok c, grant s bits i c t) := by
  unfold cmAlloc
  split
  · exact .inl ⟨_, rfl⟩
  dsimp only
  split
  · exact .inl ⟨_, rfl⟩
  obtain h | ⟨i, c, hsize, hne, hc, h⟩ := hi.genPoolAlloc_cases hf
    (if alignment = 0 then 0 else ffs alignment - 1)
  · rw [h]
    exact .inl ⟨_, rfl⟩
  rw [h]
  rw [if_neg hne, ← hsize]
  by_cases hret : cmAllocPages s env = 0
  · rw [if_neg (not_not.mpr hret)]
    obtain ⟨t, l, r, ht, hlr, htr, hl, hr⟩ := s.rbroot.link_inorder Cm.phys c hi.sorted
      (fun x hx => hc.phys_ne hi hx)
    refine .inr ⟨c, i, ops.insertColor c t, l, r, hc, hlr, ?_, hl, hr, ?_⟩
    · rw [ops.inorder_insertColor, htr]
    · have hfree : s.region.free < 2 ^ 32 := by
        have hfree := hi.free
        have htop := hi.top
        omega
      simp only [cmaRbInsert, ht, Option.map_some, usub_of_le hfree (hc.size_le_free hi hlr hl hr),
        ulong_of_lt hi.chunks_lt]
      rfl
  · rw [if_pos hret, hi.genPoolFree_eq _ hc.pos hc.phys hc.inside]
    have hback : bitmapClear (bitmapSet bits i (count s c)) i (granules s.pool.order c.size) = bits :=
      bitmapClear_bitmapSet _ _ _ hc.clear
    refine .inl ⟨cmAllocPages s env, ?_⟩
    rw [hback, ← hi.pool_eq]
    rfl

def release (ops : Balance Cm) (s : Cma) (bits : Bitmap) (c : Cm) : Cma where
  migratetype := s.migratetype
  pool := poolWith s (bitmapClear bits (first s c) (count s c))
  region := { s.region with free := s.region.free + c.size }
  rbroot := ops.erase c s.rbroot
  chunks := s.chunks - 1

theorem Inv.mem_erase (hi : Inv s bits) {x : Cm} :
    x ∈ (live s).erase c ↔ x ≠ c ∧ x ∈ live s := hi.nodup.mem_erase_iff

theorem Inv.sum_erase (hi : Inv s bits) (hc : c ∈ live s) :
    s.region.free + c.size + (((live s).erase c).map Cm.size).sum = s.region.size := by
  have h := sum_map_erase Cm.size hc
  have hfree := hi.free
  omega

theorem Inv.release (ops : Balance Cm) (hi : Inv s bits) (hc : c ∈ live s) :
    Inv (release ops s bits c) (bitmapClear bits (first s c) (count s c)) := by
  have hlive : live (CmaBookkeeping.release ops s bits c) = (live s).erase c :=
    ops.inorder_erase c s.rbroot
  have hsub : ∀ x ∈ (live s).erase c, x ∈ live s := fun x => mem_of_mem_erase
  refine ⟨rfl, hi.start_pos, hi.top, hi.start_dvd, hi.size_dvd, ?_, ?_, ?_, ?_, ?_, ?_⟩
  · rw [hlive]
    exact hi.packed.erase c
  · rw [hlive]
    exact fun x hx => hi.phys x (hsub x hx)
  · rw [hlive]
    exact fun x hx => hi.size x (hsub x hx)
  · rw [hlive, length_erase_of_mem hc, ← hi.chunks]
    rfl
  · rw [hlive]
    exact hi.sum_erase hc
  · intro j
    rw [hlive, bitmapClear_apply, hi.marked]
    change _ ↔ ∃ x ∈ (live s).erase c, first s x ≤ j ∧ j < first s x + count s x
    constructor
    · rintro ⟨hn, x, hx, hj⟩
      refine ⟨x, hi.mem_erase.mpr ⟨?_, hx⟩, hj⟩
      rintro rfl
      exact hn hj
    · rintro ⟨x, hx, hj⟩
      obtain ⟨hne, hx⟩ := hi.mem_erase.mp hx
      have hap := hi.packed.apart hx hc hne
      exact ⟨by omega, x, hx, hj⟩

theorem cmFree_cases (ops : Balance Cm) (hi : Inv s bits) (hc : c ∈ live s) (busy : Bool) :
    cmFree ops s c busy = some s ∨ cmFree ops s c busy = some (release ops s bits c) := by
  cases busy with
  | true => exact .inl rfl
  | false =>
    refine .inr ?_
    have hb := (hi.packed.bounds c hc).2
    have hsum := hi.sum_erase hc
    have htop := hi.top
    have hlt := hi.chunks_lt
    have hpos : 1 ≤ s.chunks := by
      rw [hi.chunks]
      exact length_pos_of_mem hc
    have hfree := hi.genPoolFree_eq bits (hi.size c hc).1 (hi.phys c hc) hb
    rw [← hi.pool_eq] at hfree
    simp only [cmFree, cmaRbRemove, hfree, Option.map_some, ulong_of_lt (a := s.region.free + c.size)
      (by omega), usub_of_le (a := s.chunks) (by omega) hpos]
    rfl

end VDLinux.Mm.CmaBookkeeping
