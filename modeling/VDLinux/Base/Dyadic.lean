import Mathlib

namespace VDLinux.Base.Dyadic

open Nat Set

/-- The numbers `[start, start + 2 ^ order)`. -/
@[ext] structure Block where
  order : ℕ
  start : ℕ
  deriving DecidableEq, Repr

namespace Block

def size (b : Block) : ℕ := 2 ^ b.order

def pages (b : Block) : Set ℕ := Set.Ico b.start (b.start + b.size)

def Aligned (b : Block) : Prop := b.size ∣ b.start

/-- The other half of the block of the next order that `b` is a half of. -/
def buddy (b : Block) : Block := ⟨b.order, b.start ^^^ 2 ^ b.order⟩

def parent (b : Block) : Block := ⟨b.order + 1, Nat.ldiff b.start (2 ^ b.order)⟩

def upper (b : Block) : Block := ⟨b.order, b.start + b.size⟩

theorem size_pos (b : Block) : 0 < b.size := Nat.two_pow_pos b.order

theorem start_mem (b : Block) : b.start ∈ b.pages := ⟨le_refl _, Nat.lt_add_of_pos_right b.size_pos⟩

theorem xor_eq (o k : ℕ) : 2 ^ o * k ^^^ 2 ^ o = 2 ^ o * (k ^^^ 1) := by
  rw [Nat.mul_comm, Nat.mul_comm (2 ^ o), ← shiftLeft_eq, ← shiftLeft_eq,
    shiftLeft_xor_distrib, one_shiftLeft]

theorem ldiff_eq (o k : ℕ) : Nat.ldiff (2 ^ o * k) (2 ^ o) = 2 ^ (o + 1) * (k / 2) := by
  apply eq_of_testBit_eq
  intro i
  rw [testBit_ldiff, testBit_two_pow_mul, testBit_two_pow_mul, testBit_two_pow]
  by_cases hi : o + 1 ≤ i
  · obtain ⟨j, rfl⟩ := Nat.exists_eq_add_of_le' hi
    have hne : o ≠ j + (o + 1) := by omega
    rw [Nat.add_sub_cancel, ← testBit_succ, show j + (o + 1) - o = j + 1 by omega]
    simp [hne, show o ≤ j + (o + 1) by omega]
  · have hle : o ≤ i → o = i := by omega
    simpa [hi] using fun h _ => hle h

section Index

variable {o w n x : ℕ}

theorem xor_mod (h : o < w) : (n % 2 ^ w) ^^^ 2 ^ o = (n ^^^ 2 ^ o) % 2 ^ w := by
  rw [xor_mod_two_pow, mod_eq_of_lt (Nat.pow_lt_pow_right Nat.one_lt_two h)]

theorem xor_div (h : o < w) : (n ^^^ 2 ^ o) / 2 ^ w = n / 2 ^ w := by
  rw [xor_div_two_pow, div_eq_of_lt (Nat.pow_lt_pow_right Nat.one_lt_two h), xor_zero]

theorem ldiff_mod : Nat.ldiff (n % 2 ^ w) (2 ^ o) = Nat.ldiff n (2 ^ o) % 2 ^ w := by
  apply eq_of_testBit_eq
  intro i
  rw [testBit_ldiff, testBit_mod_two_pow, testBit_mod_two_pow, testBit_ldiff,
    Bool.and_assoc]

theorem ldiff_div (h : o < w) : Nat.ldiff n (2 ^ o) / 2 ^ w = n / 2 ^ w := by
  apply eq_of_testBit_eq
  intro i
  have hne : ¬o = i + w := by omega
  rw [testBit_div_two_pow, testBit_div_two_pow, testBit_ldiff, testBit_two_pow]
  simp [hne]

theorem add_sub_index (h : x / 2 ^ w = n / 2 ^ w) : n + x % 2 ^ w - n % 2 ^ w = x := by
  have hx := div_add_mod x (2 ^ w)
  have hn := div_add_mod n (2 ^ w)
  rw [h] at hx
  omega

end Index

end Block

open Block

/-- The block with the number `i` among those of its order. -/
def nth (k i : ℕ) : Block := ⟨k, 2 ^ k * i⟩

section Nth

variable {b c : Block} {k i j x : ℕ}

theorem nth_aligned (k i : ℕ) : (nth k i).Aligned := ⟨i, rfl⟩

theorem nth_inj : nth k i = nth k j ↔ i = j := by
  refine ⟨fun h => ?_, congrArg _⟩
  exact Nat.eq_of_mul_eq_mul_left (Nat.two_pow_pos k) (congrArg Block.start h)

theorem nth_eq_iff {k' i' : ℕ} : nth k' i' = nth k i ↔ k' = k ∧ i' = i := by
  refine ⟨fun h => ?_, fun h => by rw [h.1, h.2]⟩
  obtain rfl : k' = k := congrArg Block.order h
  exact ⟨rfl, nth_inj.mp h⟩

theorem mem_nth : x ∈ (nth k i).pages ↔ x / 2 ^ k = i := by
  have hpos := Nat.two_pow_pos k
  change 2 ^ k * i ≤ x ∧ x < 2 ^ k * i + 2 ^ k ↔ _
  rw [Nat.div_eq_iff hpos, Nat.mul_comm i]
  omega

theorem Block.Aligned.exists_nth (h : b.Aligned) : ∃ i, b = nth b.order i := by
  obtain ⟨i, hi⟩ := h
  exact ⟨i, Block.ext rfl hi⟩

theorem nth_of_mem (hb : b.Aligned) (hx : x ∈ b.pages) : b = nth b.order (x / 2 ^ b.order) := by
  obtain ⟨i, hi⟩ := hb.exists_nth
  rw [hi, mem_nth] at hx
  exact hx ▸ hi

theorem parent_nth (k i : ℕ) : (nth k i).parent = nth (k + 1) (i / 2) := by
  rw [parent, nth, ldiff_eq, nth]

theorem buddy_nth (k j : ℕ) : (nth k (2 * j)).buddy = nth k (2 * j + 1) := by
  rw [buddy, nth, Block.xor_eq, xor_one_of_even (even_two_mul j), nth]

theorem pages_nth_succ (k j : ℕ) :
    (nth (k + 1) j).pages = (nth k (2 * j)).pages ∪ (nth k (2 * j + 1)).pages := by
  ext x
  rw [mem_union, mem_nth, mem_nth, mem_nth, Nat.pow_succ, ← Nat.div_div_eq_div_mul]
  omega

theorem eq_of_order_eq (hb : b.Aligned) (hc : c.Aligned) (hxb : x ∈ b.pages) (hxc : x ∈ c.pages)
    (ho : b.order = c.order) : b = c := by
  rw [nth_of_mem hb hxb, nth_of_mem hc hxc, ho]

end Nth

namespace Block

variable {b : Block}

theorem Aligned.parent (h : b.Aligned) : b.parent.Aligned := by
  obtain ⟨i, hi⟩ := h.exists_nth
  rw [hi, parent_nth]
  exact nth_aligned _ _

theorem Aligned.buddy (h : b.Aligned) : b.buddy.Aligned := by
  obtain ⟨k, hk⟩ := h
  exact ⟨k ^^^ 1, by rw [Block.buddy, hk, size, xor_eq]; rfl⟩

@[simp] theorem buddy_buddy (b : Block) : b.buddy.buddy = b := by
  rw [Block.buddy, Block.buddy, Nat.xor_assoc, Nat.xor_self, xor_zero]

theorem buddy_ne (b : Block) : b.buddy ≠ b := by
  intro heq
  have hstart : b.start ^^^ 2 ^ b.order = b.start := congrArg Block.start heq
  have hzero : b.start ^^^ (b.start ^^^ 2 ^ b.order) = b.start ^^^ b.start := by rw [hstart]
  rw [← Nat.xor_assoc, Nat.xor_self, Nat.zero_xor] at hzero
  exact absurd hzero (Nat.two_pow_pos b.order).ne'

theorem pages_parent (h : b.Aligned) : b.parent.pages = b.pages ∪ b.buddy.pages := by
  obtain ⟨i, hi⟩ := h.exists_nth
  rw [hi, parent_nth, pages_nth_succ]
  obtain ⟨j, rfl | rfl⟩ := even_or_odd' i
  · rw [buddy_nth, Nat.mul_div_cancel_left j Nat.two_pos]
  · rw [show (2 * j + 1) / 2 = j by omega, ← buddy_nth, buddy_buddy, union_comm]

theorem disjoint_of_order_eq {c : Block} (hb : b.Aligned) (hc : c.Aligned) (ho : b.order = c.order)
    (hne : b ≠ c) : Disjoint b.pages c.pages := by
  rw [disjoint_left]
  exact fun x hxb hxc => hne (eq_of_order_eq hb hc hxb hxc ho)

theorem disjoint_buddy (h : b.Aligned) : Disjoint b.pages b.buddy.pages :=
  disjoint_of_order_eq h h.buddy rfl b.buddy_ne.symm

theorem lower_half {o start : ℕ} (h : Aligned ⟨o + 1, start⟩) :
    Aligned ⟨o, start⟩ ∧ parent ⟨o, start⟩ = ⟨o + 1, start⟩ ∧ buddy ⟨o, start⟩ = upper ⟨o, start⟩ := by
  obtain ⟨k, hk⟩ := h
  obtain rfl : start = 2 ^ o * (2 * k) := by
    rw [← Nat.mul_assoc, ← Nat.pow_succ]
    exact hk
  refine ⟨⟨2 * k, rfl⟩, ?_, ?_⟩
  · rw [Block.parent, ldiff_eq, Nat.mul_div_cancel_left k Nat.two_pos, Nat.pow_succ, Nat.mul_assoc]
  · exact buddy_nth o k

end Block

/-- The blocks of `T` are aligned and disjoint, and together they are `Z`. -/
structure Tiles (T : Set Block) (Z : Set ℕ) : Prop where
  aligned : ∀ b ∈ T, b.Aligned
  disjoint : ∀ b ∈ T, ∀ c ∈ T, b ≠ c → Disjoint b.pages c.pages
  cover : ∀ x, x ∈ Z ↔ ∃ b ∈ T, x ∈ b.pages

variable {T T' : Set Block} {Z : Set ℕ} {b : Block}

theorem Tiles.eq_of_mem (h : Tiles T Z) {b c : Block} (hb : b ∈ T) (hc : c ∈ T) {x : ℕ}
    (hxb : x ∈ b.pages) (hxc : x ∈ c.pages) : b = c := by
  by_contra hne
  exact disjoint_left.mp (h.disjoint b hb c hc hne) hxb hxc

theorem Tiles.subset (h : Tiles T Z) (hb : b ∈ T) : b.pages ⊆ Z := fun x hx => (h.cover x).mpr ⟨b, hb, hx⟩

theorem Tiles.remove (h : Tiles T Z) (hb : b ∈ T) : Tiles (T \ {b}) (Z \ b.pages) := by
  refine ⟨fun c hc => h.aligned c hc.1, fun c hc d hd hne => h.disjoint c hc.1 d hd.1 hne, fun x => ?_⟩
  constructor
  · rintro ⟨hx, hxb⟩
    obtain ⟨c, hc, hxc⟩ := (h.cover x).mp hx
    refine ⟨c, ⟨hc, fun heq => hxb ?_⟩, hxc⟩
    exact mem_singleton_iff.mp heq ▸ hxc
  · rintro ⟨c, ⟨hc, hne⟩, hxc⟩
    exact ⟨h.subset hc hxc, fun hxb => hne (h.eq_of_mem hc hb hxc hxb)⟩

theorem Tiles.add (h : Tiles T Z) (hal : b.Aligned) (hdis : Disjoint b.pages Z) :
    Tiles (insert b T) (Z ∪ b.pages) := by
  have hapart : ∀ c ∈ T, Disjoint b.pages c.pages := fun c hc => hdis.mono_right (h.subset hc)
  refine ⟨?_, ?_, fun x => ?_⟩
  · rintro c (rfl | hc)
    · exact hal
    · exact h.aligned c hc
  · rintro c (rfl | hc) d (rfl | hd) hne
    · exact absurd rfl hne
    · exact hapart d hd
    · exact (hapart c hc).symm
    · exact h.disjoint c hc d hd hne
  · rw [mem_union, h.cover x]
    constructor
    · rintro (⟨c, hc, hxc⟩ | hx)
      · exact ⟨c, .inr hc, hxc⟩
      · exact ⟨b, .inl rfl, hx⟩
    · rintro ⟨c, rfl | hc, hxc⟩
      · exact .inr hxc
      · exact .inl ⟨c, hc, hxc⟩

theorem Tiles.merge (h : Tiles T Z) (hb : b ∈ T) (hbuddy : b.buddy ∈ T)
    (hT : ∀ c, c ∈ T' ↔ (c ∈ T ∧ c ≠ b ∧ c ≠ b.buddy) ∨ c = b.parent) : Tiles T' Z := by
  have hal := h.aligned b hb
  have hpages := pages_parent hal
  have hsub : b.parent.pages ⊆ Z := by
    rw [hpages]
    exact union_subset (h.subset hb) (h.subset hbuddy)
  have hadd := ((h.remove hb).remove ⟨hbuddy, b.buddy_ne⟩).add hal.parent (by
    rw [Set.sdiff_sdiff, ← hpages]
    exact disjoint_sdiff_right)
  rw [Set.sdiff_sdiff (s := Z), ← hpages, sdiff_union_of_subset hsub] at hadd
  convert hadd using 1
  ext c
  rw [hT c]
  simp [or_comm, and_assoc]

theorem Tiles.split (h : Tiles T Z) (hal : b.Aligned) (hp : b.parent ∈ T)
    (hT : ∀ c, c ∈ T' ↔ (c ∈ T ∧ c ≠ b.parent) ∨ c = b ∨ c = b.buddy) : Tiles T' Z := by
  have hsub := h.subset hp
  have hlow := (h.remove hp).add hal (disjoint_sdiff_right.mono_left (by
    rw [pages_parent hal]
    exact subset_union_left))
  have hboth := hlow.add hal.buddy (disjoint_union_right.mpr ⟨disjoint_sdiff_right.mono_left (by
    rw [pages_parent hal]
    exact subset_union_right), (disjoint_buddy hal).symm⟩)
  rw [union_assoc, ← pages_parent hal, sdiff_union_of_subset hsub] at hboth
  convert hboth using 1
  ext c
  rw [hT c]
  simp only [mem_insert_iff, mem_sdiff, mem_singleton_iff]
  tauto

end VDLinux.Base.Dyadic
