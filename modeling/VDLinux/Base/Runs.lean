import Mathlib

namespace VDLinux.Base.Runs

open List

variable {α β : Type*}

/-- Between two occurrences of an element there is no other element. -/
def Contiguous (l : List α) : Prop := ∀ x y, [x, y, x].Sublist l → y = x

/-- All occurrences of `o` may be exchanged for any number of them, if there are some or their place is
the end. -/
theorem Contiguous.replace {P M M' Q : List α} {o : α} (h : Contiguous (P ++ M ++ Q)) (hP : o ∉ P)
    (hQ : o ∉ Q) (hM : ∀ a ∈ M, a = o) (hM' : ∀ a ∈ M', a = o) (hlast : M = [] → Q = []) :
    Contiguous (P ++ M' ++ Q) := by
  intro x y hsub
  obtain ⟨s, s₂, hs, hs₁, hs₂⟩ := sublist_append_iff.mp hsub
  obtain ⟨t₁, t₂, rfl, ht₁, ht₂⟩ := sublist_append_iff.mp hs₁
  have ho₁ : o ∉ t₁ := fun ho => hP (ht₁.subset ho)
  have ho₂ : o ∉ s₂ := fun ho => hQ (hs₂.subset ho)
  have hall : ∀ a ∈ t₂, a = o := fun a ha => hM' a (ht₂.subset ha)
  cases t₂ with
  | nil =>
    refine h x y ?_
    rw [hs, append_nil, append_assoc]
    exact ht₁.append (hs₂.trans (sublist_append_right M Q))
  | cons b t₂ =>
    obtain rfl := hall b mem_cons_self
    cases t₁ with
    | nil =>
      -- the first `x` is already `o`
      simp only [List.nil_append, cons_append, List.cons.injEq] at hs
      obtain ⟨rfl, hs⟩ := hs
      cases t₂ with
      | nil =>
        rw [List.nil_append] at hs
        exact absurd (by simp [← hs]) ho₂
      | cons c t₂ =>
        simp only [cons_append, List.cons.injEq] at hs
        exact hs.1.trans (hall c (by simp))
    | cons a t₁ =>
      simp only [cons_append, List.cons.injEq] at hs
      obtain ⟨rfl, hs⟩ := hs
      cases t₁ with
      | nil =>
        simp only [List.nil_append, cons_append, List.cons.injEq] at hs
        obtain ⟨rfl, hs⟩ := hs
        cases t₂ with
        | nil =>
          -- `o` stands between what is before and what is behind its place
          rw [List.nil_append] at hs
          subst hs
          have hne : M ≠ [] := fun hM => by simp [hlast hM] at hs₂
          obtain ⟨c, M, rfl⟩ := exists_cons_of_ne_nil hne
          obtain rfl := hM c mem_cons_self
          refine h x _ ?_
          rw [append_assoc]
          exact ht₁.append (List.Sublist.cons_cons _ (hs₂.trans (sublist_append_right M Q)))
        | cons c t₂ =>
          simp only [cons_append, List.cons.injEq] at hs
          exact (hs.1.trans (hall c (by simp))).symm
      | cons a' t₁ =>
        simp only [cons_append, List.cons.injEq] at hs
        have hb : b ∈ [x] := by simp [hs.2]
        exact absurd (by simp [mem_singleton.mp hb]) ho₁

theorem Contiguous.split [DecidableEq α] {f : β → α} {l : List β} (h : Contiguous (l.map f)) (o : α) :
    ∃ mine post, l.dropWhile (fun b => o ≠ f b) = mine ++ post ∧ (∀ b ∈ mine, f b = o) ∧
      (∀ b ∈ post, f b ≠ o) ∧ (mine = [] → post = []) := by
  cases hl : l.dropWhile (fun b => o ≠ f b) with
  | nil => exact ⟨[], [], rfl, by simp, by simp, fun _ => rfl⟩
  | cons b tl =>
    have hb : f b = o := by
      have := List.head?_dropWhile_not (fun b => decide (o ≠ f b)) l
      rw [hl] at this
      exact (show o = f b by simpa using this).symm
    refine ⟨b :: tl.takeWhile (fun b => f b = o), tl.dropWhile (fun b => f b = o), ?_, ?_, ?_, by simp⟩
    · rw [cons_append, takeWhile_append_dropWhile]
    · exact forall_mem_cons.mpr ⟨hb, fun c hc => by simpa using mem_takeWhile_imp hc⟩
    · intro c hc hco
      cases hd : tl.dropWhile (fun b => f b = o) with
      | nil => simp [hd] at hc
      | cons d rest =>
        have hdo : ¬f d = o := by
          have := List.head?_dropWhile_not (fun b => decide (f b = o)) tl
          rw [hd] at this
          simpa using this
        rw [hd] at hc
        have hcd : c ≠ d := fun heq => hdo (heq ▸ hco)
        have hrest : [d, c].Sublist tl := by
          refine .trans ?_ (dropWhile_sublist (fun b => decide (f b = o)))
          rw [hd]
          exact .cons_cons d (singleton_sublist.mpr ((mem_cons.mp hc).resolve_left hcd))
        have hall : [b, d, c].Sublist l := by
          refine .trans ?_ (dropWhile_sublist (fun b => decide (o ≠ f b)))
          rw [hl]
          exact .cons_cons b hrest
        have hsub := hall.map f
        rw [map_cons, map_cons, map_cons, hb, hco, map_nil] at hsub
        exact hdo (h o (f d) hsub)

end VDLinux.Base.Runs
