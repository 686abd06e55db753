import VDLinux.Base.Tiling
import VDLinux.Fs.Mballoc

namespace VDLinux.Fs.Mballoc

open Base.Dyadic Function

variable {e4b : Ext4Buddy} {grp grp' : GroupInfo} {T : Set Block} {k k' i i' : ℕ}

def Ext4Buddy.top (e4b : Ext4Buddy) : ℕ := e4b.blkbits + 1

def Ext4Buddy.width (e4b : Ext4Buddy) (k : ℕ) : ℕ := 2 ^ (e4b.blkbits + 3 - k)

def Ext4Buddy.addr (e4b : Ext4Buddy) (k : ℕ) : Addr :=
  if k = 0 then bitmapAddr else ⟨.buddy, sMbOffsets e4b.blkbits k⟩

section Layout

theorem initOffset_add (hk : k + 1 ≤ e4b.top) : initOffset e4b.blkbits (k + 1) + 2 ^ (e4b.blkbits - k) =
    2 ^ e4b.blkbits := by
  induction k with
  | zero => rw [initOffset, Nat.zero_add, Nat.sub_zero]
  | succ k ih =>
    rw [Ext4Buddy.top] at hk ih
    have hsplit : 2 ^ (e4b.blkbits - k) = 2 ^ (e4b.blkbits - (k + 1)) + 2 ^ (e4b.blkbits - (k + 1)) := by
      rw [show e4b.blkbits - k = e4b.blkbits - (k + 1) + 1 by omega, Nat.pow_succ]
      omega
    rw [initOffset, Nat.one_shiftLeft]
    omega

theorem sMbOffsets_eq (hk : k + 1 ≤ e4b.top) :
    sMbOffsets e4b.blkbits (k + 1) = initOffset e4b.blkbits (k + 1) := by
  refine Nat.mod_eq_of_lt ?_
  have hsum := initOffset_add hk
  have hpos := Nat.two_pow_pos (e4b.blkbits - k)
  have hle : 2 ^ e4b.blkbits ≤ 2 ^ 16 := Nat.pow_le_pow_right (by omega) e4b.blkbits_le
  omega

theorem offset_add (hk : k + 1 ≤ e4b.top) :
    8 * sMbOffsets e4b.blkbits (k + 1) + 2 ^ (e4b.blkbits + 3 - k) = 2 ^ (e4b.blkbits + 3) := by
  have hsum := initOffset_add hk
  rw [Ext4Buddy.top] at hk
  rw [sMbOffsets_eq hk, show e4b.blkbits + 3 - k = e4b.blkbits - k + 3 by omega, Nat.pow_add, Nat.pow_add]
  omega

theorem sMbMaxs_eq (hk : k ≤ e4b.top) : sMbMaxs e4b.blkbits k = e4b.width k := by
  rw [Ext4Buddy.top] at hk
  cases k with
  | zero =>
    rw [sMbMaxs, Nat.one_shiftLeft, Nat.shiftLeft_eq, ← Nat.pow_add]
    rfl
  | succ k =>
    rw [sMbMaxs, Nat.one_shiftLeft, Nat.shiftLeft_eq, ← Nat.pow_add, Nat.shiftRight_eq_div_pow,
      Nat.pow_div (by omega) (by omega), Ext4Buddy.width]
    congr 1
    omega

theorem mbFindBuddy_eq (hk : k ≤ e4b.top) : mbFindBuddy e4b k = some (e4b.addr k, e4b.width k) := by
  rw [mbFindBuddy, if_neg (by rw [Ext4Buddy.top] at hk; omega), Ext4Buddy.addr]
  by_cases hzero : k = 0
  · rw [if_pos hzero, if_pos hzero, hzero, Nat.one_shiftLeft]
    rfl
  · rw [if_neg hzero, if_neg hzero, sMbMaxs_eq hk]

theorem mbFindBuddy_top (e4b : Ext4Buddy) : mbFindBuddy e4b (e4b.top + 1) = none :=
  if_pos (Nat.lt_succ_self _)

theorem theBuddy_eq (hk : k ≤ e4b.top) : theBuddy e4b k = .ok (e4b.addr k, e4b.width k) := by
  rw [theBuddy, mbFindBuddy_eq hk]

def Ext4Buddy.place (e4b : Ext4Buddy) (k i : ℕ) : ℕ := 8 * (e4b.addr k).byte + i

theorem place_lt (hk : 1 ≤ k) (hkk : k < k') (hk' : k' ≤ e4b.top) (hi : i < e4b.width k) :
    e4b.place k i < e4b.place k' i' := by
  obtain ⟨m, rfl⟩ := Nat.exists_eq_add_of_le' hk
  obtain ⟨m', rfl⟩ := Nat.exists_eq_add_of_le' (show 1 ≤ k' by omega)
  have hlow := @offset_add e4b m (by omega)
  have hhigh := offset_add hk'
  rw [Ext4Buddy.top] at hk'
  have hhalf : 2 ^ (e4b.blkbits + 3 - m) = 2 * e4b.width (m + 1) := by
    rw [Ext4Buddy.width, ← Nat.pow_succ']
    congr 1
    omega
  have hle : 2 ^ (e4b.blkbits + 3 - m') ≤ e4b.width (m + 1) := Nat.pow_le_pow_right (by omega) (by omega)
  simp only [Ext4Buddy.place, Ext4Buddy.addr, if_neg (Nat.succ_ne_zero _)]
  omega

theorem place_inj (hk : 1 ≤ k) (hkM : k ≤ e4b.top) (hi : i < e4b.width k) (hk' : 1 ≤ k') (hkM' : k' ≤ e4b.top)
    (hi' : i' < e4b.width k') : e4b.place k' i' = e4b.place k i ↔ k' = k ∧ i' = i := by
  refine ⟨fun h => ?_, fun h => by rw [h.1, h.2]⟩
  obtain hlt | heq | hgt := Nat.lt_trichotomy k k'
  · exact absurd h (place_lt hk hlt hkM' hi).ne'
  · subst heq
    simp only [Ext4Buddy.place] at h
    exact ⟨rfl, by omega⟩
  · exact absurd h (place_lt hk' hgt hkM hi').ne

end Layout

section Bits

theorem addr_zero (e4b : Ext4Buddy) : e4b.addr 0 = bitmapAddr := rfl

theorem addr_area (hk : 1 ≤ k) : (e4b.addr k).area = .buddy := by
  rw [Ext4Buddy.addr, if_neg (by omega)]

theorem test_buddy (hk : 1 ≤ k) (grp : GroupInfo) (i : ℕ) :
    mbTestBit grp i (e4b.addr k) = grp.buddy (e4b.place k i) := by
  rw [mbTestBit, addr_area hk]
  rfl

theorem set_buddy (hk : 1 ≤ k) (grp : GroupInfo) (i : ℕ) :
    mbSetBit grp i (e4b.addr k) = { grp with buddy := update grp.buddy (e4b.place k i) true } := by
  rw [mbSetBit, addr_area hk]
  rfl

theorem clear_buddy (hk : 1 ≤ k) (grp : GroupInfo) (i : ℕ) :
    mbClearBit grp i (e4b.addr k) = { grp with buddy := update grp.buddy (e4b.place k i) false } := by
  rw [mbClearBit, addr_area hk]
  rfl

variable (grp : GroupInfo)

theorem test_bitmap (i : ℕ) : mbTestBit grp i bitmapAddr = grp.bitmap i := by
  rw [mbTestBit, bitmapAddr]
  simp only [Nat.mul_zero, Nat.zero_add]
  rfl

theorem set_bitmap (i : ℕ) :
    mbSetBit grp i bitmapAddr = { grp with bitmap := update grp.bitmap i true } := by
  rw [mbSetBit, bitmapAddr]
  simp only [Nat.mul_zero, Nat.zero_add]
  rfl

theorem clear_bitmap (i : ℕ) :
    mbClearBit grp i bitmapAddr = { grp with bitmap := update grp.bitmap i false } := by
  rw [mbClearBit, bitmapAddr]
  simp only [Nat.mul_zero, Nat.zero_add]
  rfl

end Bits

/-- The bits of the orders above 0 and the counters show the blocks of `T`. -/
structure Shown (e4b : Ext4Buddy) (grp : GroupInfo) (T : Set Block) : Prop where
  clear_iff : ∀ k i, 1 ≤ k → k ≤ e4b.top → i < e4b.width k →
    (grp.buddy (e4b.place k i) = false ↔ nth k i ∈ T)
  counters_eq : ∀ k ≤ e4b.top, grp.bbCounters k = census T (e4b.width k) k

namespace Shown

theorem congr (h : Shown e4b grp T) (hbuddy : grp'.buddy = grp.buddy)
    (hcounters : grp'.bbCounters = grp.bbCounters) : Shown e4b grp' T :=
  ⟨by rw [hbuddy]; exact h.clear_iff, by rw [hcounters]; exact h.counters_eq⟩

def put (e4b : Ext4Buddy) (grp : GroupInfo) (k i : ℕ) (used : Bool) : GroupInfo :=
  { grp with
    buddy := if k = 0 then grp.buddy else Function.update grp.buddy (e4b.place k i) used
    bbCounters := Function.update grp.bbCounters k (grp.bbCounters k + if used then -1 else 1) }

theorem buddy_put (hk : k ≤ e4b.top) (hi : i < e4b.width k) (hk' : 1 ≤ k') (hkM' : k' ≤ e4b.top)
    (hi' : i' < e4b.width k') (used : Bool) :
    (put e4b grp k i used).buddy (e4b.place k' i') =
      if k' = k ∧ i' = i then used else grp.buddy (e4b.place k' i') := by
  by_cases hzero : k = 0
  · rw [if_neg (by omega)]
    simp only [put, if_pos hzero]
  · simp only [put, if_neg hzero, update_apply, place_inj (show 1 ≤ k by omega) hk hi hk' hkM' hi']

theorem change {T' : Set Block} {used : Bool} (h : Shown e4b grp T) (hk : k ≤ e4b.top)
    (hi : i < e4b.width k) (hnew : used = false ↔ nth k i ∈ T') (hold : ∀ b ≠ nth k i, b ∈ T' ↔ b ∈ T)
    (hcount : (census T' (e4b.width k) k : ℤ) = census T (e4b.width k) k + if used then -1 else 1) :
    Shown e4b (put e4b grp k i used) T' := by
  refine ⟨fun k' i' hk' hkM' hi' => ?_, fun k' hk' => ?_⟩
  · rw [buddy_put hk hi hk' hkM' hi']
    by_cases heq : k' = k ∧ i' = i
    · rw [if_pos heq, heq.1, heq.2, hnew]
    · rw [if_neg heq, h.clear_iff k' i' hk' hkM' hi', hold _ (mt nth_eq_iff.mp heq)]
  · simp only [put]
    by_cases heq : k' = k
    · subst heq
      rw [update_self, h.counters_eq k' hk', hcount]
    · rw [update_of_ne heq, h.counters_eq k' hk', census_eq_of_ne heq hold]

theorem remove (h : Shown e4b grp T) (hk : k ≤ e4b.top) (hi : i < e4b.width k) (hmem : nth k i ∈ T) :
    Shown e4b (put e4b grp k i true) (T \ {nth k i}) := by
  refine h.change hk hi (by simp) (fun b hb => by simp [hb]) ?_
  rw [← census_remove hi hmem]
  simp

theorem insert (h : Shown e4b grp T) (hk : k ≤ e4b.top) (hi : i < e4b.width k) (hnot : nth k i ∉ T) :
    Shown e4b (put e4b grp k i false) (insert (nth k i) T) := by
  refine h.change hk hi (by simp) (fun b hb => by simp [hb]) ?_
  rw [census_insert hi hnot]
  simp

end Shown

end VDLinux.Fs.Mballoc
