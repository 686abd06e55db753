import Mathlib

namespace VDLinux.Base.Borders

open List

variable {α : Type*} {P s w : List α} {k m n q r : ℕ} {c : α}

/-- `k` is the length of the longest beginning of `P` that ends `w`. -/
def Longest (P w : List α) (k : ℕ) : Prop := IsGreatest {j | j ≤ P.length ∧ P.take j <:+ w} k

/-- The failure table of `P`, up to its entry `n`. An entry belongs to the text without its first
letter, so that the whole of it does not count. -/
def Table (P : List α) (tbl : ℕ → ℕ) (n : ℕ) : Prop := ∀ j < n, Longest P (P.tail.take j) (tbl j)

theorem longest_nil (P : List α) : Longest P [] 0 := by
  refine ⟨⟨Nat.zero_le _, nil_suffix⟩, ?_⟩
  rintro j ⟨hj, hs⟩
  have hl := hs.length_le
  rw [length_take, Nat.min_eq_left hj] at hl
  exact hl

theorem suffix_tail {u v : List α} (h : u <:+ v) (hl : u.length < v.length) : u <:+ v.tail := by
  cases v with
  | nil => simp at hl
  | cons a v =>
    cases suffix_cons_iff.mp h with
    | inl he => simp [he] at hl
    | inr hs => exact hs

theorem Longest.fall (h : Longest P (P.tail.take q) r) (hq : q < P.length) (hw : P.take (q + 1) <:+ w) :
    r ≤ q ∧ P.take r <:+ w ∧ ∀ j ≤ q, P.take j <:+ w → j ≤ r := by
  have hlen : ∀ j ≤ P.length, (P.take j).length = j := fun j hj => by
    rw [length_take, Nat.min_eq_left hj]
  rw [← Nat.add_sub_cancel q 1, ← tail_take_eq_take_tail] at h
  have hr := h.1.2.length_le
  rw [hlen r h.1.1, length_tail, hlen _ hq] at hr
  refine ⟨hr, (h.1.2.trans (tail_suffix _)).trans hw, fun j hj hs => h.2 ⟨by omega, ?_⟩⟩
  have hle : (P.take j).length < (P.take (q + 1)).length := by
    rw [hlen j (by omega), hlen _ hq]
    omega
  exact suffix_tail (suffix_of_suffix_length_le hs hw hle.le) hle

theorem take_succ_suffix_iff (hk : k < P.length) :
    P.take (k + 1) <:+ w ++ [c] ↔ P.take k <:+ w ∧ P[k]? = some c := by
  rw [take_succ_eq_append_getElem hk, List.getElem?_eq_getElem hk, Option.some_inj]
  constructor
  · rintro ⟨t, ht⟩
    rw [← append_assoc] at ht
    obtain ⟨h1, h2⟩ := append_inj' ht rfl
    exact ⟨⟨t, h1⟩, singleton_inj.mp h2⟩
  · rintro ⟨⟨t, rfl⟩, rfl⟩
    exact ⟨t, (append_assoc _ _ _).symm⟩

/-- One more letter: the state that could be extended is, or there is none and it is the first. -/
theorem Longest.step [DecidableEq α] (h : Longest P w q) (hkq : k ≤ q) (hk : P.take k <:+ w)
    (hmax : ∀ j ≤ q, P.take j <:+ w → P[j]? = some c → j ≤ k) (hc : k = 0 ∨ P[k]? = some c) :
    Longest P (w ++ [c]) (if P[k]? = some c then k + 1 else k) := by
  have hub : ∀ j, j + 1 ≤ P.length → P.take (j + 1) <:+ w ++ [c] → j ≤ k ∧ P[j]? = some c := by
    intro j hj hs
    obtain ⟨hw, hjc⟩ := (take_succ_suffix_iff hj).mp hs
    exact ⟨hmax j (h.2 ⟨by omega, hw⟩) hw hjc, hjc⟩
  split_ifs with hkc
  · have hlt : k < P.length := (List.getElem?_eq_some_iff.mp hkc).1
    refine ⟨⟨hlt, (take_succ_suffix_iff hlt).mpr ⟨hk, hkc⟩⟩, ?_⟩
    rintro (_ | j) ⟨hj, hs⟩
    · exact Nat.zero_le _
    · exact Nat.succ_le_succ (hub j hj hs).1
  · obtain rfl := hc.resolve_right hkc
    refine ⟨⟨Nat.zero_le _, nil_suffix⟩, ?_⟩
    rintro (_ | j) ⟨hj, hs⟩
    · exact le_rfl
    · obtain ⟨hj0, hjc⟩ := hub j hj hs
      exact absurd (Nat.le_zero.mp hj0 ▸ hjc) hkc

theorem ends_iff (hm : m ≤ s.length) :
    P <:+ s.take m ↔ P.length ≤ m ∧ P <+: s.drop (m - P.length) := by
  have hiff : P.length ≤ m → (P <:+ s.take m ↔ P <+: s.drop (m - P.length)) := by
    intro hP
    rw [suffix_iff_eq_drop, length_take, Nat.min_eq_left hm, drop_take,
      prefix_iff_eq_take, Nat.sub_sub_self hP]
  constructor
  · intro h
    have hP := h.length_le.trans (length_take_le m s)
    exact ⟨hP, (hiff hP).mp h⟩
  · exact fun h => (hiff h.1).mpr h.2

/-- `n` letters of `s` are read, and no occurrence of `P` has ended yet. -/
structure Scanned (P s : List α) (n q : ℕ) : Prop where
  longest : Longest P (s.take n) q
  le_length : n ≤ s.length
  none : ∀ k, k + P.length ≤ n → ¬ P <+: s.drop k

theorem Scanned.lt_length (h : Scanned P s n q) : q < P.length := by
  refine lt_of_le_of_ne h.longest.1.1 fun he => ?_
  have hend := h.longest.1.2
  rw [he, take_length, ends_iff h.le_length] at hend
  exact h.none _ (by omega) hend.2

theorem Scanned.next (h : Scanned P s n q) (hn : n < s.length) (hq : Longest P (s.take (n + 1)) r) :
    if r = P.length then ∃ k, k + P.length = n + 1 ∧ IsLeast {k | P <+: s.drop k} k
    else Scanned P s (n + 1) r := by
  split_ifs with hr
  · have hend := hq.1.2
    rw [hr, take_length, ends_iff hn] at hend
    refine ⟨n + 1 - P.length, by omega, hend.2, fun k hk => ?_⟩
    by_contra hlt
    exact h.none k (by omega) hk
  · refine ⟨hq, hn, fun k hk hocc => ?_⟩
    by_cases hlast : k + P.length = n + 1
    · refine hr (le_antisymm hq.1.1 (hq.2 ⟨le_rfl, ?_⟩))
      rw [take_length, ends_iff hn, Nat.succ_eq_add_one, ← hlast, Nat.add_sub_cancel]
      exact ⟨Nat.le_add_left _ _, hocc⟩
    · exact h.none k (by omega) hocc

end VDLinux.Base.Borders
