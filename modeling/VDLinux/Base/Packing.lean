import Mathlib

namespace VDLinux.Base.Packing

open List

variable {α : Type} (start len : α → Nat)

/-- The items lie one behind the other inside `[lo, hi)`. -/
def Packed (hi : Nat) : Nat → List α → Prop
  | lo, [] => lo ≤ hi
  | lo, c :: cs => lo ≤ start c ∧ Packed hi (start c + len c) cs

/-- Lengths of the free stretches before, between and behind the items. -/
def gaps (hi : Nat) : Nat → List α → List Nat
  | lo, [] => [hi - lo]
  | lo, c :: cs => (start c - lo) :: gaps hi (start c + len c) cs

def longest (hi lo : Nat) (cs : List α) : Nat := (gaps start len hi lo cs).foldr max 0

variable {start len} {hi lo : Nat} {cs : List α}

variable (h : Packed start len hi lo cs)
include h

theorem Packed.le : lo ≤ hi := by
  induction cs generalizing lo with
  | nil => exact h
  | cons c cs ih =>
    have h' := ih h.2
    have h'' := h.1
    omega

theorem Packed.bounds (c : α) (hc : c ∈ cs) : lo ≤ start c ∧ start c + len c ≤ hi := by
  induction cs generalizing lo with
  | nil => simp at hc
  | cons d cs ih =>
    rcases mem_cons.mp hc with rfl | hc
    · exact ⟨h.1, h.2.le⟩
    · have hd := ih h.2 hc
      have hl := h.1
      omega

theorem Packed.pairwise : cs.Pairwise (fun a b => start a + len a ≤ start b) := by
  induction cs generalizing lo with
  | nil => exact List.Pairwise.nil
  | cons c cs ih => exact pairwise_cons.mpr ⟨fun b hb => (h.2.bounds b hb).1, ih h.2⟩

theorem Packed.apart {a b : α} (ha : a ∈ cs) (hb : b ∈ cs)
    (hne : a ≠ b) : start a + len a ≤ start b ∨ start b + len b ≤ start a := by
  induction cs generalizing lo with
  | nil => simp at ha
  | cons c cs ih =>
    obtain rfl | ha' := mem_cons.mp ha
    · exact .inl (h.2.bounds b ((mem_cons.mp hb).resolve_left (Ne.symm hne))).1
    · obtain rfl | hb' := mem_cons.mp hb
      · exact .inr (h.2.bounds a ha').1
      · exact ih h.2 ha' hb'

theorem Packed.sum_le : lo + (cs.map len).sum ≤ hi := by
  induction cs generalizing lo with
  | nil => simpa [Packed] using h
  | cons c cs ih =>
    have hs := ih h.2
    have hl := h.1
    simp only [map_cons, sum_cons]
    omega

theorem Packed.of_le {lo' : Nat} (hlo : lo' ≤ lo) : Packed start len hi lo' cs := by
  cases cs with
  | nil => exact hlo.trans h
  | cons c cs => exact ⟨hlo.trans h.1, h.2⟩

/-- Items packed in units of `g` are packed in the measure the units are made
of, and stay so when they do not fill their last unit. -/
theorem Packed.scale {start' len' : α → Nat} {b g : Nat}
    (hs : ∀ c ∈ cs, start' c = b + start c * g) (hl : ∀ c ∈ cs, len' c ≤ len c * g) :
    Packed start' len' (b + hi * g) (b + lo * g) cs := by
  induction cs generalizing lo with
  | nil => exact Nat.add_le_add_left (Nat.mul_le_mul_right g h) b
  | cons c cs ih =>
    obtain ⟨hs', hs⟩ := forall_mem_cons.mp hs
    obtain ⟨hl', hl⟩ := forall_mem_cons.mp hl
    have hm := Nat.mul_le_mul_right g h.1
    refine ⟨by omega, (ih h.2 hs hl).of_le ?_⟩
    rw [Nat.add_mul]
    omega

omit h

theorem Packed.insert {l r : List α} {c : α} (h : Packed start len hi lo (l ++ r))
    (hlo : lo ≤ start c) (hhi : start c + len c ≤ hi)
    (hl : ∀ x ∈ l, start x + len x ≤ start c) (hr : ∀ x ∈ r, start c + len c ≤ start x) :
    Packed start len hi lo (l ++ c :: r) := by
  induction l generalizing lo with
  | nil =>
    refine ⟨hlo, ?_⟩
    cases r with
    | nil => exact hhi
    | cons x r => exact ⟨hr x (mem_cons_self ..), h.2⟩
  | cons x l ih =>
    obtain ⟨hx, hl⟩ := forall_mem_cons.mp hl
    exact ⟨h.1, ih h.2 hx hl⟩

theorem Packed.erase [DecidableEq α] (h : Packed start len hi lo cs) (c : α) :
    Packed start len hi lo (cs.erase c) := by
  induction cs generalizing lo with
  | nil => exact h
  | cons d cs ih =>
    by_cases hd : d = c
    · subst hd
      rw [erase_cons_head]
      exact h.2.of_le (h.1.trans (Nat.le_add_right _ _))
    · rw [erase_cons_tail (by simpa using hd)]
      exact ⟨h.1, ih h.2⟩

theorem longest_cons (c : α) :
    longest start len hi lo (c :: cs) = max (start c - lo) (longest start len hi (start c + len c) cs) :=
  rfl

theorem Packed.longest_le (h : Packed start len hi lo cs) :
    lo + (cs.map len).sum + longest start len hi lo cs ≤ hi := by
  induction cs generalizing lo with
  | nil =>
    simp only [Packed] at h
    simp [longest, gaps]
    omega
  | cons c cs ih =>
    have hs := ih h.2
    have hl := h.1
    rw [longest_cons]
    simp only [map_cons, sum_cons]
    omega

end VDLinux.Base.Packing
