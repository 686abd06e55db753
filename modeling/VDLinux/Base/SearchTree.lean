import Mathlib

namespace VDLinux.Base.SearchTree

open List

/-- Binary trees with a colour in every node, as an intrusive red-black tree
keeps them. -/
inductive RbTree (α : Type) where
  | nil
  | node (red : Bool) (left : RbTree α) (item : α) (right : RbTree α)
deriving Repr

variable {α : Type}

def RbTree.inorder : RbTree α → List α
  | .nil => []
  | .node _ l x r => l.inorder ++ x :: r.inorder

/-- Link a new red leaf at the place its key belongs to. A key that is already
there has no such place. -/
def RbTree.link (key : α → Nat) (c : α) : RbTree α → Option (RbTree α)
  | .nil => some (.node true .nil c .nil)
  | .node red l x r =>
    if key c = key x then none
    else if key c < key x then (l.link key c).map (fun l' => .node red l' x r)
    else (r.link key c).map (fun r' => .node red l x r')

/-- Rebalancing code, known only by what it does to the order of the items. -/
structure Balance (α : Type) [DecidableEq α] where
  insertColor : α → RbTree α → RbTree α
  erase : α → RbTree α → RbTree α
  inorder_insertColor : ∀ c t, (insertColor c t).inorder = t.inorder
  inorder_erase : ∀ c t, (erase c t).inorder = t.inorder.erase c

def RbTree.vine : List α → RbTree α
  | [] => .nil
  | x :: xs => .node false .nil x (RbTree.vine xs)

@[simp] theorem RbTree.inorder_vine (xs : List α) : (RbTree.vine xs).inorder = xs := by
  induction xs with
  | nil => rfl
  | cons x xs ih => simp [RbTree.vine, RbTree.inorder, ih]

/-- The degenerate tree keeps the order as well as any other shape. -/
def Balance.degenerate [DecidableEq α] : Balance α where
  insertColor _ t := t
  erase c t := RbTree.vine (t.inorder.erase c)
  inorder_insertColor _ _ := rfl
  inorder_erase _ _ := RbTree.inorder_vine _

theorem RbTree.link_inorder (key : α → Nat) (c : α) (t : RbTree α)
    (hs : t.inorder.Pairwise (fun a b => key a < key b)) (hc : ∀ x ∈ t.inorder, key c ≠ key x) :
    ∃ t' l r, t.link key c = some t' ∧ t.inorder = l ++ r ∧ t'.inorder = l ++ c :: r ∧
      (∀ x ∈ l, key x < key c) ∧ ∀ x ∈ r, key c < key x := by
  induction t with
  | nil => exact ⟨_, [], [], rfl, rfl, rfl, by simp, by simp⟩
  | node red tl x tr ihl ihr =>
    obtain ⟨hl, hxr, hcross⟩ := pairwise_append.mp hs
    have hx : key c ≠ key x := hc x (by simp [RbTree.inorder])
    by_cases hlt : key c < key x
    · obtain ⟨t', l, r, ht, hi, hi', hll, hrr⟩ :=
        ihl hl (fun y hy => hc y (by simp [RbTree.inorder, hy]))
      refine ⟨.node red t' x tr, l, r ++ x :: tr.inorder, ?_, ?_, ?_, hll, ?_⟩
      · simp [RbTree.link, hx, hlt, ht]
      · simp [RbTree.inorder, hi]
      · simp [RbTree.inorder, hi']
      · refine forall_mem_append.mpr ⟨hrr, forall_mem_cons.mpr ⟨hlt, fun y hy => ?_⟩⟩
        exact Nat.lt_trans hlt (rel_of_pairwise_cons hxr hy)
    · have hgt : key x < key c := by omega
      obtain ⟨t', l, r, ht, hi, hi', hll, hrr⟩ :=
        ihr (pairwise_cons.mp hxr).2 (fun y hy => hc y (by simp [RbTree.inorder, hy]))
      refine ⟨.node red tl x t', tl.inorder ++ x :: l, r, ?_, ?_, ?_, ?_, hrr⟩
      · simp [RbTree.link, hx, hlt, ht]
      · simp [RbTree.inorder, hi]
      · simp [RbTree.inorder, hi']
      · refine forall_mem_append.mpr ⟨fun y hy => ?_, forall_mem_cons.mpr ⟨hgt, hll⟩⟩
        exact Nat.lt_trans (hcross y hy x (mem_cons_self ..)) hgt

inductive Side where
  | left
  | right
  deriving DecidableEq

def Side.flip : Side → Side
  | .left => .right
  | .right => .left

@[simp] theorem Side.flip_flip (d : Side) : d.flip.flip = d := by cases d <;> rfl

namespace RbTree

/-- A node by the subtree on the side `d` and the one across. -/
def join (d : Side) (red : Bool) (near : RbTree α) (x : α) (far : RbTree α) : RbTree α :=
  match d with
  | .left => .node red near x far
  | .right => .node red far x near

theorem join_flip (d : Side) (red : Bool) (s t : RbTree α) (x : α) :
    join d.flip red s x t = join d red t x s := by
  cases d <;> rfl

theorem exists_join (d : Side) (red : Bool) (l r : RbTree α) (x : α) :
    ∃ s t, node red l x r = join d red s x t := by
  cases d with
  | left => exact ⟨l, r, rfl⟩
  | right => exact ⟨r, l, rfl⟩

theorem inorder_rotate (d : Side) (c c' e e' : Bool) (s t u : RbTree α) (x y : α) :
    (join d e' (join d e s x t) y u).inorder = (join d c s x (join d c' t y u)).inorder := by
  cases d <;> simp [join, inorder]

theorem mem_join {d : Side} {c : Bool} {s t : RbTree α} {x a : α} :
    a ∈ (join d c s x t).inorder ↔ a = x ∨ a ∈ s.inorder ∨ a ∈ t.inorder := by
  cases d <;> simp only [join, inorder, mem_append, mem_cons] <;> tauto

theorem nodup_join {d : Side} {c : Bool} {s t : RbTree α} {x : α} :
    (join d c s x t).inorder.Nodup ↔ x ∉ s.inorder ∧ x ∉ t.inorder ∧ s.inorder.Nodup ∧
      t.inorder.Nodup ∧ ∀ a ∈ s.inorder, a ∉ t.inorder := by
  cases d <;> simp only [join, inorder, nodup_append, nodup_cons, mem_cons] <;> grind

/-- The subtrees of one black height without two red nodes in a row; `red` is the colour of the root. -/
inductive Balanced : RbTree α → Bool → ℕ → Prop where
  | nil : Balanced .nil false 0
  | red {n : ℕ} {l r : RbTree α} {x : α} (hl : Balanced l false n) (hr : Balanced r false n) :
      Balanced (.node true l x r) true n
  | black {n : ℕ} {l r : RbTree α} {x : α} {c c' : Bool} (hl : Balanced l c n) (hr : Balanced r c' n) :
      Balanced (.node false l x r) false (n + 1)

/-- The trees an intrusive red-black tree may be between two calls. -/
def Valid (t : RbTree α) : Prop := ∃ n, Balanced t false n

namespace Balanced

variable {d : Side} {c c' : Bool} {n : ℕ} {s t : RbTree α} {x : α}

theorem join_red (hs : Balanced s false n) (ht : Balanced t false n) :
    Balanced (join d true s x t) true n := by
  cases d with
  | left => exact .red hs ht
  | right => exact .red ht hs

theorem join_black (hs : Balanced s c n) (ht : Balanced t c' n) :
    Balanced (join d false s x t) false (n + 1) := by
  cases d with
  | left => exact .black hs ht
  | right => exact .black ht hs

theorem of_join_red (h : Balanced (join d true s x t) c n) :
    c = true ∧ Balanced s false n ∧ Balanced t false n := by
  cases d <;> cases h with
  | red hl hr => exact ⟨rfl, by assumption, by assumption⟩

theorem of_join_black (h : Balanced (join d false s x t) c n) :
    c = false ∧ ∃ m c₁ c₂, n = m + 1 ∧ Balanced s c₁ m ∧ Balanced t c₂ m := by
  cases d <;> cases h with
  | black hl hr => exact ⟨rfl, _, _, _, rfl, by assumption, by assumption⟩

theorem exists_join_red (h : Balanced t true n) (d : Side) : ∃ l x r, t = join d true l x r := by
  cases h with
  | @red _ l r x _ _ =>
    obtain ⟨s, t, heq⟩ := exists_join d true l r x
    exact ⟨s, x, t, heq⟩

theorem exists_join_black (h : Balanced t false (n + 1)) (d : Side) : ∃ l x r, t = join d false l x r := by
  cases h with
  | @black _ l r x _ _ _ _ =>
    obtain ⟨s, t, heq⟩ := exists_join d false l r x
    exact ⟨s, x, t, heq⟩

theorem blacken {l r : RbTree α} (h : Balanced (.node c' l x r) c n) :
    ∃ m, Balanced (.node false l x r) false m := by
  cases h with
  | red hl hr => exact ⟨_, .black hl hr⟩
  | black hl hr => exact ⟨_, .black hl hr⟩

end Balanced

end RbTree

/-- A step of the way from a node up to the root: the side it hangs on, its parent and its sibling. -/
structure Frame (α : Type) where
  side : Side
  red : Bool
  item : α
  sibling : RbTree α

namespace Frame

def fill (f : Frame α) (t : RbTree α) : RbTree α := .join f.side f.red t f.item f.sibling

end Frame

abbrev Path (α : Type) := List (Frame α)

namespace Path

variable {c c' : Bool} {n : ℕ} {k : Path α} {t t' : RbTree α}

def fill : Path α → RbTree α → RbTree α
  | [], t => t
  | f :: k, t => fill k (f.fill t)

def before : Path α → List α
  | [] => []
  | ⟨.left, _, _, _⟩ :: k => before k
  | ⟨.right, _, x, s⟩ :: k => before k ++ (s.inorder ++ [x])

def after : Path α → List α
  | [] => []
  | ⟨.left, _, x, s⟩ :: k => x :: s.inorder ++ after k
  | ⟨.right, _, _, _⟩ :: k => after k

theorem inorder_fill (k : Path α) (t : RbTree α) :
    (fill k t).inorder = before k ++ t.inorder ++ after k := by
  induction k generalizing t with
  | nil => simp [fill, before, after]
  | cons f k ih =>
    obtain ⟨d, red, x, s⟩ := f
    cases d <;> simp [fill, ih, Frame.fill, RbTree.join, RbTree.inorder, before, after]

theorem inorder_fill_congr (h : t.inorder = t'.inorder) (k : Path α) :
    (fill k t).inorder = (fill k t').inorder := by
  rw [inorder_fill, inorder_fill, h]

theorem fill_append (j k : Path α) (t : RbTree α) : fill (j ++ k) t = fill k (fill j t) := by
  induction j generalizing t with
  | nil => rfl
  | cons f j ih => exact ih (f.fill t)

theorem exists_fill_of_mem {a : α} (ha : a ∈ t.inorder) : ∃ k c l r, t = fill k (.node c l a r) := by
  induction t with
  | nil => cases ha
  | node c l x r ihl ihr =>
    simp only [RbTree.inorder, mem_append, mem_cons] at ha
    obtain ha | rfl | ha := ha
    · obtain ⟨k, c', l', r', rfl⟩ := ihl ha
      exact ⟨k ++ [⟨.left, c, x, r⟩], c', l', r', by rw [fill_append]; rfl⟩
    · exact ⟨[], c, l, r, rfl⟩
    · obtain ⟨k, c', l', r', rfl⟩ := ihr ha
      exact ⟨k ++ [⟨.right, c, x, l⟩], c', l', r', by rw [fill_append]; rfl⟩

theorem exists_leftmost (c : Bool) (l : RbTree α) (x : α) (r : RbTree α) :
    ∃ (j : Path α) (c' : Bool) (b : α) (u : RbTree α),
      (∀ f ∈ j, f.side = .left) ∧ RbTree.node c l x r = fill j (.node c' .nil b u) := by
  induction l generalizing c x r with
  | nil => exact ⟨[], c, x, r, by simp, rfl⟩
  | node c₁ l₁ x₁ r₁ ih _ =>
    obtain ⟨j, c', b, u, hj, heq⟩ := ih c₁ x₁ r₁
    refine ⟨j ++ [⟨.left, c, x, r⟩], c', b, u, ?_, ?_⟩
    · simpa [or_imp, forall_and] using hj
    · rw [fill_append, ← heq]
      rfl

theorem before_eq_nil {j : Path α} (hj : ∀ f ∈ j, f.side = .left) : before j = [] := by
  induction j with
  | nil => rfl
  | cons f j ih =>
    obtain ⟨d, red, x, s⟩ := f
    obtain rfl : d = .left := hj _ mem_cons_self
    exact ih fun f hf => hj f (mem_cons_of_mem _ hf)

/-- The ways up from a hole that a balanced tree of this colour and height fits in. -/
inductive Hole : Bool → ℕ → Path α → Prop where
  | top {n : ℕ} : Hole false n []
  | red {n : ℕ} {d : Side} {x : α} {s : RbTree α} {k : Path α} (hs : s.Balanced false n)
      (hk : Hole true n k) : Hole false n (⟨d, true, x, s⟩ :: k)
  | black {n : ℕ} {d : Side} {x : α} {s : RbTree α} {k : Path α} {c c' : Bool} (hs : s.Balanced c n)
      (hk : Hole false (n + 1) k) : Hole c' n (⟨d, false, x, s⟩ :: k)

theorem Hole.black_of_red (h : Hole true n k) : Hole false n k := by
  cases h with
  | black hs hk => exact .black hs hk

theorem Hole.valid (h : Hole c n k) (ht : t.Balanced c n) : (fill k t).Valid := by
  induction h generalizing t with
  | top => exact ⟨_, ht⟩
  | red hs hk ih => exact ih (ht.join_red hs)
  | black hs hk ih => exact ih (ht.join_black hs)

theorem Hole.relabel {j : Path α} {f : Frame α} (h : Hole c n (j ++ f :: k)) (x : α) :
    Hole c n (j ++ { f with item := x } :: k) := by
  induction j generalizing c n with
  | nil =>
    cases h with
    | red hs hk => exact .red hs hk
    | black hs hk => exact .black hs hk
  | cons g j ih =>
    cases h with
    | red hs hk => exact .red hs (ih hk)
    | black hs hk => exact .black hs (ih hk)

theorem exists_hole (h : (fill k t).Valid) : ∃ c n, t.Balanced c n ∧ Hole c n k := by
  induction k generalizing t with
  | nil =>
    obtain ⟨n, hn⟩ := h
    exact ⟨false, n, hn, .top⟩
  | cons f k ih =>
    obtain ⟨d, red, x, s⟩ := f
    obtain ⟨c, n, ht, hk⟩ := ih h
    cases red with
    | true =>
      obtain ⟨rfl, ht, hs⟩ := ht.of_join_red
      exact ⟨false, n, ht, .red hs hk⟩
    | false =>
      obtain ⟨rfl, m, c₁, c₂, rfl, ht, hs⟩ := ht.of_join_black
      exact ⟨c₁, m, ht, .black hs hk⟩

end Path

end VDLinux.Base.SearchTree
