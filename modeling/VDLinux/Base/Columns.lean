import Mathlib

namespace VDLinux.Base.Columns

variable {ι β : Type}

/-- The columns `lo` to `hi - 1` of a family of rows replaced, each by what `f` makes of it. -/
def mapColumns (lo hi : ℕ) (f : (ι → β) → ι → β) (m : ι → ℕ → β) : ι → ℕ → β :=
  fun b o => if lo ≤ o ∧ o < hi then f (fun b' => m b' o) b else m b o

variable {f g : (ι → β) → ι → β} {m : ι → ℕ → β} {lo mid hi o : ℕ}

theorem mapColumns_of_mem (hlo : lo ≤ o) (hhi : o < hi) (b : ι) :
    mapColumns lo hi f m b o = f (fun b' => m b' o) b :=
  if_pos ⟨hlo, hhi⟩

theorem mapColumns_of_not_mem (h : ¬ (lo ≤ o ∧ o < hi)) (b : ι) : mapColumns lo hi f m b o = m b o :=
  if_neg h

theorem mapColumns_empty (lo : ℕ) : mapColumns lo lo f m = m := by
  funext b o
  exact mapColumns_of_not_mem (by omega) b

theorem mapColumns_append (h : lo ≤ mid) (h' : mid ≤ hi) :
    mapColumns mid hi f (mapColumns lo mid f m) = mapColumns lo hi f m := by
  funext b o
  by_cases hup : mid ≤ o ∧ o < hi
  · rw [mapColumns_of_mem hup.1 hup.2, mapColumns_of_mem (by omega) hup.2]
    congr 1
    funext b'
    exact mapColumns_of_not_mem (by omega) b'
  · rw [mapColumns_of_not_mem hup]
    by_cases hlow : lo ≤ o ∧ o < mid
    · rw [mapColumns_of_mem hlow.1 hlow.2, mapColumns_of_mem hlow.1 (by omega)]
    · rw [mapColumns_of_not_mem hlow, mapColumns_of_not_mem (by omega)]

theorem mapColumns_comp : mapColumns lo hi g (mapColumns lo hi f m) = mapColumns lo hi (g ∘ f) m := by
  funext b o
  by_cases h : lo ≤ o ∧ o < hi
  · rw [mapColumns_of_mem h.1 h.2, mapColumns_of_mem h.1 h.2]
    show g _ b = g (f _) b
    congr 1
    funext b'
    exact mapColumns_of_mem h.1 h.2 b'
  · rw [mapColumns_of_not_mem h, mapColumns_of_not_mem h, mapColumns_of_not_mem h]

end VDLinux.Base.Columns
