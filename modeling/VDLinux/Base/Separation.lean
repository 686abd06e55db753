import Mathlib

namespace VDLinux.Base.Separation

open Multiset

variable {σ L V : Type}

/-- An assertion about the part of a memory that it owns. -/
structure Piece (read : σ → L → V) where
  footprint : Multiset L
  holds : σ → Prop
  locality : ∀ {s s'}, (∀ l ∈ footprint, read s' l = read s l) → holds s → holds s'

variable {read : σ → L → V}

def footprint (ps : Multiset (Piece read)) : Multiset L := (ps.map Piece.footprint).sum

@[simp] theorem footprint_add (ps qs : Multiset (Piece read)) :
    footprint (ps + qs) = footprint ps + footprint qs := by
  simp only [footprint, Multiset.map_add, sum_add]

@[simp] theorem footprint_singleton (p : Piece read) : footprint {p} = p.footprint := by
  simp [footprint]

theorem mem_footprint {ps : Multiset (Piece read)} {p : Piece read} (hp : p ∈ ps) {l : L}
    (hl : l ∈ p.footprint) : l ∈ footprint ps := by
  obtain ⟨qs, rfl⟩ := exists_cons_of_mem hp
  rw [← singleton_add, footprint_add, footprint_singleton]
  exact mem_add.mpr (.inl hl)

/-- The pieces hold together, each on a part of the memory of its own. -/
structure Separate (s : σ) (ps : Multiset (Piece read)) : Prop where
  holds : ∀ p ∈ ps, p.holds s
  nodup : (footprint ps).Nodup

namespace Separate

variable {s s' : σ} {ps qs rs ts rest : Multiset (Piece read)}

theorem update (h : Separate s (ps + rest)) (hq : ∀ q ∈ qs, q.holds s')
    (hfoot : footprint qs = footprint ps) (hframe : ∀ l ∉ footprint ps, read s' l = read s l) :
    Separate s' (qs + rest) := by
  have hnodup := h.nodup
  rw [footprint_add] at hnodup
  refine ⟨fun p hp => ?_, by rwa [footprint_add, hfoot]⟩
  obtain hp | hp := mem_add.mp hp
  · exact hq p hp
  · refine p.locality (fun l hl => hframe l fun hmem => ?_) (h.holds p (mem_add.mpr (.inr hp)))
    exact disjoint_left.mp (nodup_add.mp hnodup).2.2 hmem (mem_footprint hp hl)

theorem exchange (h : Separate s (ps + rest)) (hq : ∀ q ∈ qs, q.holds s)
    (hfoot : footprint qs = footprint ps) : Separate s (qs + rest) :=
  h.update hq hfoot fun _ _ => rfl

theorem write {p q : Piece read} (h : Separate s ({p} + rest)) (hq : q.holds s')
    (hfoot : q.footprint = p.footprint) (hframe : ∀ l ∉ p.footprint, read s' l = read s l) :
    Separate s' ({q} + rest) := by
  refine h.update (fun r hr => ?_) ?_ (by rwa [footprint_singleton])
  · rw [mem_singleton.mp hr]
    exact hq
  · rw [footprint_singleton, footprint_singleton, hfoot]

theorem swap {p q : Piece read} (h : Separate s ({p} + rest)) (hq : q.holds s)
    (hfoot : q.footprint = p.footprint) : Separate s ({q} + rest) :=
  h.write hq hfoot fun _ _ => rfl

theorem cons {p : Piece read} (h : Separate s ps) (hp : p.holds s) (hnodup : p.footprint.Nodup)
    (hout : ∀ l ∈ p.footprint, l ∉ footprint ps) : Separate s ({p} + ps) := by
  refine ⟨fun q hq => ?_, ?_⟩
  · obtain hq | hq := mem_add.mp hq
    · exact mem_singleton.mp hq ▸ hp
    · exact h.holds q hq
  · rw [footprint_add, footprint_singleton, nodup_add]
    exact ⟨hnodup, h.nodup, disjoint_left.mpr fun {l} hl => hout l hl⟩

theorem drop (h : Separate s (ps + rest)) : Separate s ps := by
  refine ⟨fun p hp => h.holds p (mem_add.mpr (.inl hp)), ?_⟩
  have hnodup := h.nodup
  rw [footprint_add] at hnodup
  exact (nodup_add.mp hnodup).1

theorem congr (h : Separate s ps) (heq : ∀ l ∈ footprint ps, read s' l = read s l) : Separate s' ps :=
  ⟨fun p hp => p.locality (fun l hl => heq l (mem_footprint hp hl)) (h.holds p hp), h.nodup⟩

theorem reorder (h : Separate s ps) (heq : ps = qs) : Separate s qs := heq ▸ h

theorem second (h : Separate s (ps + (qs + rest))) : Separate s (qs + (ps + rest)) :=
  h.reorder (add_left_comm ps qs rest)

theorem third (h : Separate s (ps + (qs + (rs + rest)))) : Separate s (rs + (ps + (qs + rest))) :=
  h.reorder (by abel)

theorem fourth (h : Separate s (ps + (qs + (rs + (ts + rest))))) :
    Separate s (ts + (ps + (qs + (rs + rest)))) :=
  h.reorder (by abel)

theorem last (h : Separate s (ps + (qs + (rs + ts)))) : Separate s (ts + (ps + (qs + rs))) :=
  h.reorder (by abel)

theorem tail (h : Separate s (ps + rest)) : Separate s rest :=
  drop (h.reorder (add_comm ps rest))

theorem left (h : Separate s (ps + rest)) : ∀ p ∈ ps, p.holds s :=
  fun p hp => h.holds p (mem_add.mpr (.inl hp))

theorem head {p : Piece read} (h : Separate s ({p} + rest)) : p.holds s :=
  h.left p (mem_singleton_self p)

end Separate

theorem separate_cut {s : σ} {p : Piece read} {qs rest : Multiset (Piece read)}
    (hholds : ∀ s, p.holds s ↔ ∀ q ∈ qs, q.holds s) (hfoot : p.footprint = footprint qs) :
    Separate s ({p} + rest) ↔ Separate s (qs + rest) := by
  constructor
  · intro h
    exact h.exchange ((hholds s).mp h.head) (by rw [footprint_singleton, hfoot])
  · intro h
    refine h.exchange (fun q hq => ?_) (by rw [footprint_singleton, hfoot])
    rw [mem_singleton.mp hq]
    exact (hholds s).mpr h.left

theorem separate_cut₃ {s : σ} {p q₁ q₂ q₃ : Piece read} {rest : Multiset (Piece read)}
    (hholds : ∀ s, p.holds s ↔ q₁.holds s ∧ q₂.holds s ∧ q₃.holds s)
    (hfoot : p.footprint = q₁.footprint + (q₂.footprint + q₃.footprint)) :
    Separate s ({p} + rest) ↔ Separate s ({q₁} + ({q₂} + ({q₃} + rest))) := by
  rw [← add_assoc, ← add_assoc]
  refine separate_cut (fun s => ?_) ?_
  · simp only [mem_add, mem_singleton, or_assoc, forall_eq_or_imp, forall_eq]
    exact hholds s
  · simp only [footprint_add, footprint_singleton, add_assoc]
    exact hfoot

end VDLinux.Base.Separation
