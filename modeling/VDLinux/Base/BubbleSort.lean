import VDLinux.Base.ExchangeSort

namespace VDLinux.Base.BubbleSort

open Base.ExchangeSort

variable {α : Type} (key : α → Nat)

/-- Exchange a cell with the next one if they are in the wrong order. -/
def order (m : Nat → α) (i : Nat) : Nat → α := if key (m (i + 1)) < key (m i) then swapAt m i (i + 1) else m

/-- Bring the least of the cells from `lo` to `lo + c` down to `lo`, from above. -/
def sink (lo : Nat) : Nat → (Nat → α) → Nat → α
  | 0, m => m
  | c + 1, m => sink lo c (order key m (lo + c))

def passes (n : Nat) : Nat → Nat → (Nat → α) → Nat → α
  | 0, _, m => m
  | c + 1, lo, m => passes n c (lo + 1) (sink key lo (n - 1 - lo) m)

def bubbleSort (n : Nat) (m : Nat → α) : Nat → α := passes key n n 0 m

variable {key} {n lo : Nat} {m : Nat → α}

/-- The cell `i` is the least from there on. -/
def Least (key : α → Nat) (n i : Nat) (m : Nat → α) : Prop := ∀ k, i ≤ k → k < n → key (m i) ≤ key (m k)

theorem order_rearranged {i : Nat} (hlo : lo ≤ i) (hn : i + 1 < n) : Rearranged lo n m (order key m i) := by
  unfold order
  split
  · exact rearranged_swapAt ⟨hlo, by omega⟩ ⟨by omega, hn⟩
  · exact .refl

theorem order_least {i : Nat} (h : Least key n (i + 1) m) : Least key n i (order key m i) := by
  intro k hk hkn
  unfold order
  split
  · rename_i hlt
    have hi : swapAt m i (i + 1) i = m (i + 1) := by simp [swapAt]
    rw [hi]
    rcases Nat.eq_or_lt_of_le hk with rfl | hk
    · exact Nat.le_of_eq (congrArg key hi).symm
    · rcases Nat.eq_or_lt_of_le hk with rfl | hk
      · rw [swapAt, Function.update_self]
        exact Nat.le_of_lt hlt
      · rw [swapAt, Function.update_of_ne (by omega), Function.update_of_ne (by omega)]
        exact h k (by omega) hkn
  · rename_i hle
    rcases Nat.eq_or_lt_of_le hk with rfl | hk
    · exact Nat.le_refl _
    · exact Nat.le_trans (Nat.le_of_not_lt hle) (h k hk hkn)

theorem sink_spec (c : Nat) (hn : lo + c < n) (h : Least key n (lo + c) m) :
    Rearranged lo n m (sink key lo c m) ∧ Least key n lo (sink key lo c m) := by
  induction c generalizing m with
  | zero => exact ⟨.refl, h⟩
  | succ c ih =>
    obtain ⟨hr, hleast⟩ := @ih (order key m (lo + c)) (by omega) (order_least h)
    exact ⟨(order_rearranged (Nat.le_add_right lo c) (by omega)).trans hr, hleast⟩

/-- The cells below `lo` are in their final places. -/
def Front (key : α → Nat) (n lo : Nat) (m : Nat → α) : Prop :=
  ∀ a b, a < lo → a ≤ b → b < n → key (m a) ≤ key (m b)

theorem Front.sink (h : Front key n lo m) (hn : lo < n) :
    Rearranged lo n m (sink key lo (n - 1 - lo) m) ∧ Front key n (lo + 1) (sink key lo (n - 1 - lo) m) := by
  have hlast : Least key n (lo + (n - 1 - lo)) m := by
    intro k hk hkn
    obtain rfl : k = lo + (n - 1 - lo) := by omega
    exact Nat.le_refl _
  obtain ⟨hr, hleast⟩ := sink_spec (n - 1 - lo) (by omega) hlast
  refine ⟨hr, fun a b ha hab hb => ?_⟩
  rcases Nat.lt_succ_iff_lt_or_eq.mp ha with ha | rfl
  · rw [hr.below ha]
    by_cases hblo : b < lo
    · rw [hr.below hblo]
      exact h a b ha hab hb
    · obtain ⟨j, hj, hjn, he⟩ := hr.inside (Nat.le_of_not_lt hblo) hb
      rw [he]
      exact h a j ha (by omega) hjn
  · exact hleast b hab hb

theorem passes_sorted (c : Nat) (hn : lo + c = n) (h : Front key n lo m) :
    Rearranged 0 n m (passes key n c lo m) ∧ Front key n n (passes key n c lo m) := by
  induction c generalizing lo m with
  | zero =>
    obtain rfl : lo = n := hn
    exact ⟨.refl, h⟩
  | succ c ih =>
    obtain ⟨hsink, hfront⟩ := h.sink (by omega)
    obtain ⟨hr, hsorted⟩ := ih (by omega) hfront
    exact ⟨(hsink.mono (Nat.zero_le lo)).trans hr, hsorted⟩

theorem bubbleSort_sorted (key : α → Nat) (n : Nat) (m : Nat → α) :
    Rearranged 0 n m (bubbleSort key n m) ∧
      ∀ a b, a ≤ b → b < n → key (bubbleSort key n m a) ≤ key (bubbleSort key n m b) := by
  have hstart : Front key n 0 m := fun a _ ha => absurd ha (Nat.not_lt_zero a)
  obtain ⟨hr, hfront⟩ := passes_sorted n (Nat.zero_add n) hstart
  exact ⟨hr, fun a b hab hb => hfront a b (by omega) hab hb⟩

end VDLinux.Base.BubbleSort
