import Mathlib

namespace VDLinux.Base.Grid

/-- Rounding a stretch of addresses outwards to a grid. The lower end moves
down to a grid point and the upper end moves up to one. -/
def floor (g x : Nat) : Nat := x / g * g

def ceil (g x : Nat) : Nat := x ⌈/⌉ g * g

theorem dvd_floor (g x : Nat) : g ∣ floor g x := Dvd.intro_left _ rfl

theorem dvd_ceil (g x : Nat) : g ∣ ceil g x := Dvd.intro_left _ rfl

theorem le_floor {g a x : Nat} (hg : 0 < g) (ha : g ∣ a) (h : a ≤ x) : a ≤ floor g x := by
  obtain ⟨k, rfl⟩ := ha
  have hk : k ≤ x / g := (Nat.le_div_iff_mul_le hg).mpr (by rwa [Nat.mul_comm])
  rw [floor, Nat.mul_comm g k]
  exact Nat.mul_le_mul_right g hk

theorem le_ceil {g x : Nat} (hg : 0 < g) : x ≤ ceil g x := by
  rw [ceil, Nat.mul_comm]
  exact (ceilDiv_le_iff_le_mul hg).mp le_rfl

theorem ceil_le {g b x : Nat} (hg : 0 < g) (hb : g ∣ b) (h : x ≤ b) : ceil g x ≤ b := by
  obtain ⟨k, rfl⟩ := hb
  rw [ceil, Nat.mul_comm]
  exact Nat.mul_le_mul_left g ((ceilDiv_le_iff_le_mul hg).mpr h)

/-- A stretch whose ends lie on the grid and which a request leaves alone is
also left alone by the request rounded outwards. -/
theorem disjoint_hull {g a b s e : Nat} (hg : 0 < g) (ha : g ∣ a) (hb : g ∣ b) (h : b ≤ s ∨ e ≤ a) :
    Disjoint (Set.Ico a b) (Set.Ico (floor g s) (ceil g e)) := by
  rw [Set.Ico_disjoint_Ico]
  rcases h with hs | he
  · exact (min_le_left _ _).trans ((le_floor hg hb hs).trans (le_max_right _ _))
  · exact (min_le_right _ _).trans ((ceil_le hg ha he).trans (le_max_left _ _))

end VDLinux.Base.Grid
