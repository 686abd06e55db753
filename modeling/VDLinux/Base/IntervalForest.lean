import Mathlib

namespace VDLinux.Base.IntervalForest

open List

/-- Siblings in a row, each with a range and the siblings below it. -/
inductive Forest where
  | nil
  | node (id lo hi : ℕ) (child next : Forest)

namespace Forest

def append : Forest → Forest → Forest
  | .nil, G => G
  | .node a lo hi c n, G => .node a lo hi c (n.append G)

instance : Append Forest := ⟨append⟩

@[simp] theorem nil_append (G : Forest) : (.nil : Forest) ++ G = G := rfl

@[simp] theorem node_append (a lo hi : ℕ) (c n G : Forest) :
    (.node a lo hi c n : Forest) ++ G = .node a lo hi c (n ++ G) := rfl

def ids : Forest → List ℕ
  | .nil => []
  | .node a _ _ c n => a :: (c.ids ++ n.ids)

@[simp] theorem ids_append (F G : Forest) : (F ++ G).ids = F.ids ++ G.ids := by
  induction F with
  | nil => rfl
  | node a lo hi c n _ ih => simp [ids, ih]

def tops : Forest → List (ℕ × ℕ)
  | .nil => []
  | .node _ lo hi _ n => (lo, hi) :: n.tops

@[simp] theorem tops_append (F G : Forest) : (F ++ G).tops = F.tops ++ G.tops := by
  induction F with
  | nil => rfl
  | node a lo hi c n _ ih => simp [tops, ih]

theorem tops_length_le (F : Forest) : F.tops.length ≤ F.ids.length := by
  induction F with
  | nil => exact Nat.le_refl _
  | node a lo hi c n _ ih =>
    simp only [tops, ids, length_cons, length_append]
    omega

def nodes : Forest → List ((ℕ × ℕ) × Forest)
  | .nil => []
  | .node _ lo hi c n => ((lo, hi), c) :: (c.nodes ++ n.nodes)

/-- The rows are sorted and disjoint, and each lies in the range of the node above it. -/
def Nested (lo hi : ℕ) : Forest → Prop
  | .nil => True
  | .node _ s e c n => lo ≤ s ∧ s ≤ e ∧ e ≤ hi ∧ Nested s e c ∧ Nested (e + 1) hi n

/-- Where the room after a row begins. -/
def bound (lo : ℕ) : Forest → ℕ
  | .nil => lo
  | .node _ _ e _ n => n.bound (e + 1)

def After (x : ℕ) : Forest → Prop
  | .nil => True
  | .node _ s _ _ _ => x < s

variable {lo lo' hi hi' x : ℕ} {F G : Forest}

theorem Nested.mono (h : F.Nested lo hi) (hlo : lo' ≤ lo) (hhi : hi ≤ hi') : F.Nested lo' hi' := by
  induction F generalizing lo lo' with
  | nil => exact True.intro
  | node a s e c n _ ih =>
    obtain ⟨h₁, h₂, h₃, h₄, h₅⟩ := h
    exact ⟨Nat.le_trans hlo h₁, h₂, Nat.le_trans h₃ hhi, h₄, ih h₅ (Nat.le_refl _)⟩

theorem nested_append : (F ++ G).Nested lo hi ↔ F.Nested lo hi ∧ G.Nested (F.bound lo) hi := by
  induction F generalizing lo with
  | nil => simp [Nested, bound]
  | node a s e c n _ ih => simp only [node_append, Nested, bound, ih, and_assoc]

theorem Nested.after (h : F.Nested lo hi) (hx : F.After x) : F.Nested (x + 1) hi := by
  cases F with
  | nil => exact True.intro
  | node a s e c n => exact ⟨hx, h.2⟩

theorem Nested.le_bound (h : F.Nested lo hi) : lo ≤ F.bound lo := by
  induction F generalizing lo with
  | nil => exact Nat.le_refl _
  | node a s e c n _ ih =>
    obtain ⟨h₁, h₂, -, -, h₅⟩ := h
    have hn := ih h₅
    simp only [bound]
    omega

theorem bound_le (hlo : lo ≤ x) (h : ∀ r ∈ F.tops, r.2 < x) : F.bound lo ≤ x := by
  induction F generalizing lo with
  | nil => exact hlo
  | node a s e c n _ ih =>
    simp only [tops, mem_cons, forall_eq_or_imp] at h
    exact ih h.1 h.2

variable (h : F.Nested lo hi)
include h

theorem Nested.tops_mem : ∀ r ∈ F.tops, lo ≤ r.1 ∧ r.1 ≤ r.2 ∧ r.2 ≤ hi := by
  induction F generalizing lo with
  | nil => simp [tops]
  | node a s e c n _ ih =>
    obtain ⟨h₁, h₂, h₃, -, h₅⟩ := h
    simp only [tops, mem_cons, forall_eq_or_imp]
    refine ⟨⟨h₁, h₂, h₃⟩, fun r hr => ?_⟩
    have hr := ih h₅ r hr
    omega

theorem Nested.pairwise : F.tops.Pairwise fun r r' => r.2 < r'.1 := by
  induction F generalizing lo with
  | nil => exact .nil
  | node a s e c n _ ih =>
    obtain ⟨-, -, -, -, h₅⟩ := h
    refine .cons (fun r hr => ?_) (ih h₅)
    exact (h₅.tops_mem r hr).1

theorem Nested.nodes_mem : ∀ x ∈ F.nodes, x.2.Nested x.1.1 x.1.2 := by
  induction F generalizing lo hi with
  | nil => simp [nodes]
  | node a s e c n ihc ihn =>
    obtain ⟨-, -, -, h₄, h₅⟩ := h
    simp only [nodes, mem_cons, mem_append]
    rintro x (rfl | hx | hx)
    exacts [h₄, ihc h₄ x hx, ihn h₅ x hx]

theorem Nested.within (hF : ∀ r ∈ F.tops, lo' ≤ r.1 ∧ r.2 ≤ hi') : F.Nested lo' hi' := by
  induction F generalizing lo lo' with
  | nil => exact True.intro
  | node a s e c n _ ih =>
    obtain ⟨-, h₂, -, h₄, h₅⟩ := h
    simp only [tops, mem_cons, forall_eq_or_imp] at hF
    exact ⟨hF.1.1, h₂, hF.1.2, h₄, ih h₅ fun r hr => ⟨(h₅.tops_mem r hr).1, (hF.2 r hr).2⟩⟩

omit h

theorem Nested.insert {A M D : Forest} {a start stop : ℕ} (h : (A ++ (M ++ D)).Nested lo hi)
    (hlo : lo ≤ start) (hvalid : start ≤ stop) (hhi : stop ≤ hi) (hA : ∀ r ∈ A.tops, r.2 < start)
    (hM : ∀ r ∈ M.tops, start ≤ r.1 ∧ r.2 ≤ stop) (hD : D.After stop) :
    (A ++ .node a start stop M D).Nested lo hi := by
  obtain ⟨hnA, hn⟩ := nested_append.mp h
  obtain ⟨hnM, hnD⟩ := nested_append.mp hn
  exact nested_append.mpr ⟨hnA, bound_le hlo hA, hvalid, hhi, hnM.within hM, hnD.after hD⟩

end Forest

/-- A step of the way up from a row: the node the row is below, or the sibling it comes after. -/
inductive Frame where
  | below (id lo hi : ℕ) (next : Forest)
  | beside (id lo hi : ℕ) (child : Forest)

def Frame.fill : Frame → Forest → Forest
  | .below a lo hi n, F => .node a lo hi F n
  | .beside a lo hi c, F => .node a lo hi c F

abbrev Path := List Frame

namespace Path

def fill : Path → Forest → Forest
  | [], F => F
  | f :: k, F => fill k (f.fill F)

theorem fill_append (j k : Path) (F : Forest) : fill (j ++ k) F = fill k (fill j F) := by
  induction j generalizing F with
  | nil => rfl
  | cons f j ih => exact ih (f.fill F)

theorem exists_fill_of_mem {F : Forest} {i : ℕ} (hi : i ∈ F.ids) :
    ∃ k s e c n, F = fill k (.node i s e c n) := by
  induction F with
  | nil => cases hi
  | node a lo hi' c n ihc ihn =>
    simp only [Forest.ids, mem_cons, mem_append] at hi
    obtain rfl | hi | hi := hi
    · exact ⟨[], lo, hi', c, n, rfl⟩
    · obtain ⟨k, s, e, c', n', rfl⟩ := ihc hi
      exact ⟨k ++ [.below a lo hi' n], s, e, c', n', by rw [fill_append]; rfl⟩
    · obtain ⟨k, s, e, c', n', rfl⟩ := ihn hi
      exact ⟨k ++ [.beside a lo hi' c], s, e, c', n', by rw [fill_append]; rfl⟩

def ids : Path → List ℕ
  | [] => []
  | .below a _ _ n :: k => a :: (n.ids ++ ids k)
  | .beside a _ _ c :: k => a :: (c.ids ++ ids k)

theorem ids_fill (k : Path) (F : Forest) : (fill k F).ids.Perm (F.ids ++ ids k) := by
  induction k generalizing F with
  | nil => rw [ids, append_nil]; rfl
  | cons f k ih =>
    refine (ih (f.fill F)).trans ?_
    cases f with
    | below a s e n | beside a s e n =>
      simp only [Frame.fill, Forest.ids, ids]
      grind

theorem exists_hole {k : Path} {F : Forest} {lo hi : ℕ} (h : (fill k F).Nested lo hi) :
    ∃ lo' hi', F.Nested lo' hi' ∧ ∀ G : Forest, G.Nested lo' hi' → (fill k G).Nested lo hi := by
  induction k generalizing F with
  | nil => exact ⟨lo, hi, h, fun _ hG => hG⟩
  | cons f k ih =>
    obtain ⟨lo', hi', hF, hG⟩ := ih h
    cases f with
    | below a s e n =>
      obtain ⟨h₁, h₂, h₃, h₄, h₅⟩ := hF
      exact ⟨s, e, h₄, fun G hGs => hG _ ⟨h₁, h₂, h₃, hGs, h₅⟩⟩
    | beside a s e c =>
      obtain ⟨h₁, h₂, h₃, h₄, h₅⟩ := hF
      exact ⟨e + 1, hi', h₅, fun G hGs => hG _ ⟨h₁, h₂, h₃, h₄, hGs⟩⟩

theorem below_hole {k : Path} {F N : Forest} {a s e lo hi : ℕ}
    (h : (fill (.below a s e N :: k) F).Nested lo hi) :
    F.Nested s e ∧ ∀ G : Forest, G.Nested s e → (fill (.below a s e N :: k) G).Nested lo hi := by
  obtain ⟨lo', hi', ⟨h₁, h₂, h₃, h₄, h₅⟩, hG⟩ := exists_hole (k := k) h
  exact ⟨h₄, fun G hGs => hG _ ⟨h₁, h₂, h₃, hGs, h₅⟩⟩

end Path

/-- A root alone in its row, with nested rows below it. -/
def Rooted : Forest → Prop
  | .nil => False
  | .node _ s e c n => c.Nested s e ∧ n = .nil

theorem fill_ne_nil (k : Path) {F : Forest} (h : F ≠ .nil) : k.fill F ≠ .nil := by
  induction k generalizing F with
  | nil => exact h
  | cons f k ih =>
    refine ih ?_
    cases f <;> simp [Frame.fill]

theorem Rooted.hole {k : Path} {F N : Forest} {a s e : ℕ} (h : Rooted (Path.fill (.below a s e N :: k) F)) :
    F.Nested s e ∧ ∀ G : Forest, G.Nested s e → Rooted (Path.fill (.below a s e N :: k) G) := by
  cases k using List.reverseRecOn with
  | nil => exact ⟨h.1, fun G hG => ⟨hG, h.2⟩⟩
  | append_singleton k f =>
    rw [← cons_append, Path.fill_append] at h
    cases f with
    | below r rs re n =>
      obtain ⟨hnest, rfl⟩ := h
      obtain ⟨hF, hG⟩ := Path.below_hole hnest
      refine ⟨hF, fun G hGs => ?_⟩
      rw [← cons_append, Path.fill_append]
      exact ⟨hG G hGs, rfl⟩
    | beside r rs re c =>
      obtain ⟨-, hnil⟩ := h
      exact absurd hnil (fill_ne_nil k (by simp [Frame.fill]))

end VDLinux.Base.IntervalForest
