import VDLinux.Lib.Swiotlb

namespace VDLinux.Lib.Swiotlb

open Base.FreeRuns Nat

section Circuit

variable (pool : Pool) (stride m0 : ℕ)

def stations : ℕ := (pool.nslabs + (stride - 1)) / stride

/-- The slot the search looks at after `t` steps. -/
def station (t : ℕ) : ℕ := stride * ((m0 + t) % stations pool stride)

variable {pool stride m0}

variable (hs : 0 < stride)
include hs

theorem stations_pos : 0 < stations pool stride :=
  Nat.div_pos (by have := pool.nslabs_pos; omega) hs

theorem lt_stations_iff (m : ℕ) : m < stations pool stride ↔ stride * m < pool.nslabs := by
  rw [stations, Nat.lt_div_iff_mul_lt hs, Nat.mul_comm]
  omega

theorem stations_le : stations pool stride ≤ pool.nslabs := by
  by_contra hno
  have h1 := (@lt_stations_iff pool stride hs pool.nslabs).mp (by omega)
  have h2 := Nat.le_mul_of_pos_left pool.nslabs hs
  omega

theorem station_lt (t : ℕ) : station pool stride m0 t < pool.nslabs :=
  (lt_stations_iff hs _).mp (mod_lt _ (stations_pos hs))

omit hs

theorem station_zero (hm : m0 < stations pool stride) : station pool stride m0 0 = stride * m0 := by
  rw [station, Nat.add_zero, mod_eq_of_lt hm]

theorem advance_station (hs : 0 < stride) (t : ℕ) :
    pool.advance stride (station pool stride m0 t) = station pool stride m0 (t + 1) := by
  have hM : 0 < stations pool stride := stations_pos hs
  have hnext := @lt_stations_iff pool stride hs ((m0 + t) % stations pool stride + 1)
  rw [mul_succ] at hnext
  rw [Pool.advance, station, station, ← Nat.add_assoc]
  by_cases hend : (m0 + t + 1) % stations pool stride = 0
  · have hlast := mod_last hM hend
    rw [if_pos (by omega), hend, Nat.mul_zero]
  · have hsucc := mod_succ hM hend
    have hlt := mod_lt (m0 + t + 1) hM
    rw [if_neg (by omega), hsucc, mul_succ]

theorem station_eq_first_iff (hs : 0 < stride) (hm : m0 < stations pool stride) {t : ℕ}
    (ht : t < stations pool stride) :
    station pool stride m0 (t + 1) = stride * m0 ↔ t + 1 = stations pool stride := by
  rw [station, Nat.mul_right_inj hs.ne']
  constructor
  · intro h
    by_contra hne
    by_cases hover : m0 + (t + 1) < stations pool stride
    · rw [mod_eq_of_lt hover] at h
      omega
    · rw [mod_eq_sub_mod (by omega), mod_eq_of_lt (by omega)] at h
      omega
  · intro h
    rw [h, add_mod_right, mod_eq_of_lt hm]

theorem exists_station (hs : 0 < stride) (hm : m0 < stations pool stride) {i : ℕ} (hi : i < pool.nslabs)
    (hdvd : stride ∣ i) : ∃ t < stations pool stride, station pool stride m0 t = i := by
  obtain ⟨m, rfl⟩ := hdvd
  have hmM := (lt_stations_iff hs m).mpr hi
  by_cases hle : m0 ≤ m
  · refine ⟨m - m0, by omega, ?_⟩
    rw [station, Nat.add_sub_cancel' hle, mod_eq_of_lt hmM]
  · refine ⟨m + stations pool stride - m0, by omega, ?_⟩
    rw [station, Nat.add_sub_cancel' (by omega), add_mod_right, mod_eq_of_lt hmM]

end Circuit

section Search

variable {pool : Pool} {stride m0 nslots : ℕ} {spans : ℕ → Bool} {list : ℕ → ℕ}

variable (hs : 0 < stride) (hm : m0 < stations pool stride)
include hs hm

theorem spanLoop_eq (fuel t : ℕ) (ht : t < stations pool stride) (hfuel : stations pool stride - t ≤ fuel) :
    (∃ u, t ≤ u ∧ u < stations pool stride ∧ (∀ v, t ≤ v → v < u → spans (station pool stride m0 v)) ∧
      spans (station pool stride m0 u) = false ∧
      spanLoop pool stride (stride * m0) spans fuel (station pool stride m0 t) =
        .slot (station pool stride m0 u)) ∨
    (∀ v, t ≤ v → v < stations pool stride → spans (station pool stride m0 v)) ∧
      spanLoop pool stride (stride * m0) spans fuel (station pool stride m0 t) = .notFound := by
  induction fuel generalizing t with
  | zero => omega
  | succ fuel ih =>
    simp only [spanLoop, advance_station hs, station_eq_first_iff hs hm ht]
    split_ifs with hspan hback
    · refine Or.inr ⟨fun v h1 h2 => ?_, rfl⟩
      rwa [show v = t by omega]
    · apply (ih (t + 1) (by omega) (by omega)).imp
      · rintro ⟨u, hu1, hu2, hbefore, hu, heq⟩
        refine ⟨u, by omega, hu2, fun v h1 h2 => ?_, hu, heq⟩
        rcases Nat.eq_or_lt_of_le h1 with rfl | hlt
        · exact hspan
        · exact hbefore v hlt h2
      · rintro ⟨hall, heq⟩
        refine ⟨fun v h1 h2 => ?_, heq⟩
        rcases Nat.eq_or_lt_of_le h1 with rfl | hlt
        · exact hspan
        · exact hall v hlt h2
    · exact Or.inl ⟨t, le_rfl, ht, fun v h1 h2 => absurd h2 (by omega), by simpa using hspan, rfl⟩

theorem searchLoop_eq (fuel t : ℕ) (ht : t < stations pool stride) (hfuel : stations pool stride - t ≤ fuel) :
    (∃ u < stations pool stride, spans (station pool stride m0 u) = false ∧
      nslots ≤ list (station pool stride m0 u) ∧
      searchLoop pool stride (stride * m0) spans list nslots fuel (station pool stride m0 t) =
        .slot (station pool stride m0 u)) ∨
    (∀ v, t ≤ v → v < stations pool stride → spans (station pool stride m0 v) = false →
      ¬ nslots ≤ list (station pool stride m0 v)) ∧
      searchLoop pool stride (stride * m0) spans list nslots fuel (station pool stride m0 t) =
        .notFound := by
  have hslabs := @stations_le pool stride hs
  induction fuel generalizing t with
  | zero => omega
  | succ fuel ih =>
    rw [searchLoop]
    rcases @spanLoop_eq pool stride m0 spans hs hm pool.nslabs t ht (by omega) with
      ⟨u, hu1, hu2, hbefore, hu, heq⟩ | ⟨hall, heq⟩
    · -- the slots before `u` will not do
      have hno : ∀ v, t ≤ v → v < u → ¬ spans (station pool stride m0 v) = false :=
        fun v h1 hlt => Bool.not_eq_false _ ▸ hbefore v h1 hlt
      simp only [heq, ge_iff_le, advance_station hs, station_eq_first_iff hs hm hu2]
      split_ifs with hfit hback
      · exact Or.inl ⟨u, hu2, hu, hfit, rfl⟩
      · refine Or.inr ⟨fun v h1 h2 hv => ?_, rfl⟩
        rcases Nat.lt_or_ge v u with hlt | hge
        · exact absurd hv (hno v h1 hlt)
        · rwa [show v = u by omega]
      · apply (ih (u + 1) (by omega) (by omega)).imp_right
        rintro ⟨hrest, heq'⟩
        refine ⟨fun v h1 h2 hv => ?_, heq'⟩
        rcases Nat.lt_trichotomy v u with hlt | rfl | hgt
        · exact absurd hv (hno v h1 hlt)
        · exact hfit
        · exact hrest v hgt h2 hv
    · refine Or.inr ⟨fun v h1 h2 hv => ?_, by simp only [heq]⟩
      exact absurd (hall v h1 h2) (Bool.eq_false_iff.mp hv)

end Search

end VDLinux.Lib.Swiotlb
