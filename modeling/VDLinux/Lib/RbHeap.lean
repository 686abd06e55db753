import VDLinux.Lib.Rbtree
import VDLinux.Base.Separation
import VDLinux.Base.Tagged

namespace VDLinux.Lib.Rbtree

open Base.SearchTree Base.Separation Base.Tagged List

def colorBit (red : Bool) : ℕ := if red then 0 else 1

theorem colorBit_lt (red : Bool) : colorBit red < 2 ^ 2 := by cases red <;> decide

theorem colorBit_ldiff_one (red : Bool) : Nat.ldiff (colorBit red) 1 = 0 := by
  cases red <;> decide +kernel

theorem colorBit_ldiff_three (red : Bool) : Nat.ldiff (colorBit red) 3 = 0 := by
  cases red <;> decide +kernel

/-- A node by its parent, its colour and the children on the side `d` and across. -/
def record (p : ℕ) (red : Bool) (d : Side) (near far : ℕ) : RbNode :=
  match d with
  | .left => ⟨p + colorBit red, far, near⟩
  | .right => ⟨p + colorBit red, near, far⟩

section Record

variable {p q x y z : ℕ} {red red' : Bool} {d : Side}

@[simp] theorem child_record : (record p red d x y).child d = x := by cases d <;> rfl

@[simp] theorem child_flip_record : (record p red d x y).child d.flip = y := by cases d <;> rfl

@[simp] theorem setChild_record : (record p red d x y).setChild d z = record p red d z y := by
  cases d <;> rfl

@[simp] theorem setChild_flip_record : (record p red d x y).setChild d.flip z = record p red d x z := by
  cases d <;> rfl

theorem side_record (hxy : x ≠ y) : (if x = (record p red d x y).rbLeft then Side.left else .right) = d := by
  cases d with
  | left => exact if_pos rfl
  | right => exact if_neg hxy

theorem rbParentColor_record : (record p red d x y).rbParentColor = p + colorBit red := by
  cases d <;> rfl

variable (hp : 4 ∣ p)
include hp

theorem rbParent_record : (record p red d x y).rbParent = p := by
  obtain ⟨k, rfl⟩ := hp
  rw [RbNode.rbParent, rbParentColor_record]
  refine (ldiff_tag (w := 2) (colorBit_lt red) (by decide)).trans ?_
  rw [colorBit_ldiff_three]
  rfl

theorem rbColor_record : (record p red d x y).rbColor = colorBit red := by
  obtain ⟨k, rfl⟩ := hp
  rw [RbNode.rbColor, rbParentColor_record]
  refine (and_tag (w := 2) (colorBit_lt red) (by decide)).trans ?_
  cases red <;> rfl

theorem rbIsRed_record : (record p red d x y).rbIsRed = red := by
  rw [RbNode.rbIsRed, rbColor_record hp]
  cases red <;> rfl

theorem rbIsBlack_record : (record p red d x y).rbIsBlack = !red := by
  rw [RbNode.rbIsBlack, rbColor_record hp]
  cases red <;> rfl

theorem rbSetRed_record : (record p red d x y).rbSetRed = record p true d x y := by
  obtain ⟨k, rfl⟩ := hp
  have h : Nat.ldiff (2 ^ 2 * k + colorBit red) 1 = 2 ^ 2 * k + 0 := by
    rw [ldiff_tag (colorBit_lt red) (by decide), colorBit_ldiff_one]
  cases d <;> exact congrArg (RbNode.mk · _ _) h

theorem rbSetBlack_record : (record p red d x y).rbSetBlack = record p false d x y := by
  obtain ⟨k, rfl⟩ := hp
  have h : (2 ^ 2 * k + colorBit red) ||| 1 = 2 ^ 2 * k + 1 := by
    rw [or_tag (colorBit_lt red) (by decide)]
    cases red <;> rfl
  cases d <;> exact congrArg (RbNode.mk · _ _) h

theorem rbSetColor_record :
    (record p red d x y).rbSetColor (colorBit red') = record p red' d x y := by
  obtain ⟨k, rfl⟩ := hp
  have h : Nat.ldiff (2 ^ 2 * k + colorBit red) 1 ||| colorBit red' = 2 ^ 2 * k + colorBit red' := by
    rw [ldiff_tag (colorBit_lt red) (by decide), colorBit_ldiff_one, or_tag (by decide) (colorBit_lt red'),
      Nat.zero_or]
  cases d <;> exact congrArg (RbNode.mk · _ _) h

theorem rbSetParent_record (hq : 4 ∣ q) :
    (record p red d x y).rbSetParent q = record q red d x y := by
  obtain ⟨k, rfl⟩ := hp
  obtain ⟨j, rfl⟩ := hq
  have h : ((2 ^ 2 * k + colorBit red) &&& 3) ||| 2 ^ 2 * j = 2 ^ 2 * j + colorBit red := by
    rw [and_tag (colorBit_lt red) (by decide), Nat.or_comm, ← Nat.add_zero (2 ^ 2 * j),
      or_tag (by decide) (by cases red <;> decide)]
    cases red <;> rfl
  cases d <;> exact congrArg (RbNode.mk · _ _) h

end Record

def Heap.read (h : Heap) : Option ℕ → Option RbNode × ℕ
  | none => (none, h.rbNode)
  | some a => (h.nodes a, 0)

def Cell (h : Heap) (a : ℕ) (n : RbNode) : Prop := h.nodes a = some n ∧ 4 ∣ a ∧ a ≠ 0

def addr : RbTree ℕ → ℕ
  | .nil => 0
  | .node _ _ a _ => a

/-- The nodes of a tree below the parent `p`, with every link. -/
def RepTree (h : Heap) : ℕ → RbTree ℕ → Prop
  | _, .nil => True
  | p, .node red l a r => Cell h a (record p red .left (addr l) (addr r)) ∧ RepTree h a l ∧ RepTree h a r

def parentAddr : Path ℕ → ℕ
  | [] => 0
  | f :: _ => f.item

/-- The nodes around a hole and the root, with `x` in the hole. -/
def RepPath (h : Heap) : ℕ → Path ℕ → Prop
  | x, [] => h.rbNode = x
  | x, f :: k =>
    Cell h f.item (record (parentAddr k) f.red f.side x (addr f.sibling)) ∧
      RepTree h f.item f.sibling ∧ RepPath h f.item k

section Pieces

variable {h h' : Heap}

def locations (as : List ℕ) : Multiset (Option ℕ) := (as.map some : List (Option ℕ))

theorem some_mem_locations {as : List ℕ} {a : ℕ} : some a ∈ locations as ↔ a ∈ as := by
  simp [locations]

theorem Cell.congr {a : ℕ} {n : RbNode} (heq : h'.nodes a = h.nodes a) (hc : Cell h a n) : Cell h' a n :=
  ⟨heq.trans hc.1, hc.2⟩

theorem RepTree.congr {p : ℕ} {t : RbTree ℕ} (heq : ∀ a ∈ t.inorder, h'.nodes a = h.nodes a)
    (ht : RepTree h p t) : RepTree h' p t := by
  induction t generalizing p with
  | nil => exact True.intro
  | node red l a r ihl ihr =>
    obtain ⟨hc, hl, hr⟩ := ht
    simp only [RbTree.inorder, mem_append, mem_cons] at heq
    exact ⟨hc.congr (heq a (.inr (.inl rfl))), ihl (fun b hb => heq b (.inl hb)) hl,
      ihr (fun b hb => heq b (.inr (.inr hb))) hr⟩

theorem mem_path_cons {f : Frame ℕ} {k : Path ℕ} {a : ℕ} :
    a ∈ Path.before (f :: k) ++ Path.after (f :: k) ↔
      a = f.item ∨ a ∈ f.sibling.inorder ∨ a ∈ Path.before k ++ Path.after k := by
  obtain ⟨d, red, x, s⟩ := f
  cases d <;> simp only [Path.before, Path.after, mem_append, mem_cons] <;> tauto

theorem RepPath.congr {x : ℕ} {k : Path ℕ}
    (heq : ∀ a ∈ Path.before k ++ Path.after k, h'.nodes a = h.nodes a) (hroot : h'.rbNode = h.rbNode)
    (hk : RepPath h x k) : RepPath h' x k := by
  induction k generalizing x with
  | nil => exact hroot.trans hk
  | cons f k ih =>
    obtain ⟨hc, hs, hk⟩ := hk
    exact ⟨hc.congr (heq _ (mem_path_cons.mpr (.inl rfl))),
      hs.congr fun a ha => heq a (mem_path_cons.mpr (.inr (.inl ha))),
      ih (fun a ha => heq a (mem_path_cons.mpr (.inr (.inr ha)))) hk⟩

theorem nodes_eq_of_read {a : ℕ} (heq : h'.read (some a) = h.read (some a)) : h'.nodes a = h.nodes a :=
  congrArg Prod.fst heq

def cell (a : ℕ) (n : RbNode) : Piece Heap.read where
  footprint := {some a}
  holds h := Cell h a n
  locality heq := Cell.congr (nodes_eq_of_read (heq _ (Multiset.mem_singleton_self _)))

def tree (p : ℕ) (t : RbTree ℕ) : Piece Heap.read where
  footprint := locations t.inorder
  holds h := RepTree h p t
  locality heq := RepTree.congr fun _ ha => nodes_eq_of_read (heq _ (some_mem_locations.mpr ha))

def path (x : ℕ) (k : Path ℕ) : Piece Heap.read where
  footprint := none ::ₘ locations (Path.before k ++ Path.after k)
  holds h := RepPath h x k
  locality heq := RepPath.congr
    (fun _ ha => nodes_eq_of_read (heq _ (Multiset.mem_cons_of_mem (some_mem_locations.mpr ha))))
    (congrArg Prod.snd (heq none (Multiset.mem_cons_self _ _)))

theorem repTree_join {p a : ℕ} {red : Bool} {d : Side} {s t : RbTree ℕ} :
    RepTree h p (.join d red s a t) ↔
      Cell h a (record p red d (addr s) (addr t)) ∧ RepTree h a s ∧ RepTree h a t := by
  cases d with
  | left => rfl
  | right => exact and_congr_right fun _ => and_comm

theorem locations_join {a : ℕ} {red : Bool} {d : Side} {s t : RbTree ℕ} :
    locations (RbTree.join d red s a t).inorder =
      {some a} + (locations s.inorder + locations t.inorder) := by
  cases d <;> simp only [locations, RbTree.join, RbTree.inorder, map_append, map_cons,
    ← Multiset.coe_add, ← Multiset.cons_coe, ← Multiset.singleton_add] <;> abel

theorem locations_path_cons {f : Frame ℕ} {k : Path ℕ} :
    locations (Path.before (f :: k) ++ Path.after (f :: k)) =
      {some f.item} + (locations f.sibling.inorder + locations (Path.before k ++ Path.after k)) := by
  obtain ⟨d, red, x, s⟩ := f
  cases d <;> simp only [locations, Path.before, Path.after, map_append, map_cons, map_nil,
    ← Multiset.coe_add, ← Multiset.cons_coe, ← Multiset.singleton_add, Multiset.coe_nil] <;> abel

end Pieces

section Cut

variable {h : Heap} {rest : Multiset (Piece Heap.read)} {p a x : ℕ} {red : Bool} {d : Side}
  {s t : RbTree ℕ} {f : Frame ℕ} {k : Path ℕ}

@[simp] theorem addr_join : addr (.join d red s a t) = a := by cases d <;> rfl

theorem separate_join : Separate h ({tree p (.join d red s a t)} + rest) ↔
    Separate h ({cell a (record p red d (addr s) (addr t))} + ({tree a s} + ({tree a t} + rest))) :=
  separate_cut₃ (fun _ => repTree_join) locations_join

theorem separate_path_cons : Separate h ({path x (f :: k)} + rest) ↔
    Separate h ({cell f.item (record (parentAddr k) f.red f.side x (addr f.sibling))} +
      ({tree f.item f.sibling} + ({path f.item k} + rest))) := by
  refine separate_cut₃ (fun _ => Iff.rfl) ?_
  simp only [path, cell, tree, locations_path_cons, ← Multiset.singleton_add]
  abel

theorem separate_fill : Separate h ({path (addr (k.fill t)) []} + ({tree 0 (k.fill t)} + rest)) ↔
    Separate h ({path (addr t) k} + ({tree (parentAddr k) t} + rest)) := by
  induction k generalizing t with
  | nil => rfl
  | cons f k ih =>
    have haddr : addr (f.fill t) = f.item := addr_join
    rw [Path.fill, ih, haddr, separate_path_cons, ← add_assoc, add_comm {path f.item k}, add_assoc,
      Frame.fill, separate_join]
    simp only [parentAddr]
    constructor <;> intro H <;> exact H.reorder (by abel)

end Cut

section Writes

variable {h : Heap} {rest : Multiset (Piece Heap.read)} {a x y p q : ℕ} {n : RbNode} {t : RbTree ℕ}
  {k : Path ℕ} {d : Side}

theorem nodes_set (b : ℕ) : (h.set a n).nodes b = if b = a then some n else h.nodes b :=
  Function.update_apply h.nodes a (some n) b

theorem read_set {l : Option ℕ} (hl : l ≠ some a) : (h.set a n).read l = h.read l := by
  cases l with
  | none => rfl
  | some b =>
    have hb : b ≠ a := fun hb => hl (congrArg some hb)
    simp only [Heap.read, nodes_set, if_neg hb]

theorem modify_cell (H : Separate h ({cell a n} + rest)) (f : RbNode → RbNode) :
    ∃ h', h.modify a f = some h' ∧ Separate h' ({cell a (f n)} + rest) := by
  obtain ⟨hn, ha⟩ := H.head
  refine ⟨h.set a (f n), by simp [Heap.modify, hn], ?_⟩
  refine H.write ⟨by rw [nodes_set, if_pos rfl], ha⟩ rfl fun l hl => ?_
  exact read_set fun hla => hl (Multiset.mem_singleton.mpr hla)

theorem aligned_parentAddr (hk : RepPath h x k) : 4 ∣ parentAddr k := by
  cases k with
  | nil => exact ⟨0, rfl⟩
  | cons f k => exact hk.1.2.1

theorem setParentIf_tree (hp : 4 ∣ p) (hq : 4 ∣ q) (H : Separate h ({tree p t} + rest)) :
    ∃ h', h.setParentIf (addr t) q = some h' ∧ Separate h' ({tree q t} + rest) := by
  cases t with
  | nil =>
    exact ⟨h, if_pos rfl, H.swap True.intro rfl⟩
  | node red l b r =>
    have hcut := (separate_join (d := .left)).mp H
    obtain ⟨h', hmod, H'⟩ := modify_cell hcut (RbNode.rbSetParent · q)
    rw [rbSetParent_record hp hq] at H'
    exact ⟨h', by rw [Heap.setParentIf, addr, if_neg hcut.head.2.2, hmod], (separate_join (d := .left)).mpr H'⟩

theorem addr_mem (ht : t ≠ .nil) : addr t ∈ t.inorder := by
  cases t with
  | nil => exact absurd rfl ht
  | node red l b r => simp [addr, RbTree.inorder]

theorem setRoot_path (H : Separate h ({path x []} + rest)) (y : ℕ) :
    Separate { h with rbNode := y } ({path y []} + rest) := by
  refine H.write rfl rfl fun l hl => ?_
  cases l with
  | none => exact absurd (by simp [path]) hl
  | some b => rfl

theorem setChild_path (H : Separate h ({path x (f :: k)} + rest)) (y : ℕ) :
    ∃ h', h.modify f.item (RbNode.setChild · f.side y) = some h' ∧ Separate h' ({path y (f :: k)} + rest) := by
  obtain ⟨h', hmod, H'⟩ := modify_cell (separate_path_cons.mp H) (RbNode.setChild · f.side y)
  rw [setChild_record] at H'
  exact ⟨h', hmod, separate_path_cons.mpr H'⟩

theorem replaceChild_path (hx : x ≠ 0) (hout : x ∉ Path.before k ++ Path.after k)
    (H : Separate h ({path x k} + rest)) (d : Side) (y : ℕ) :
    ∃ h', h.replaceChild d (parentAddr k) x y = some h' ∧ Separate h' ({path y k} + rest) := by
  cases k with
  | nil => exact ⟨{ h with rbNode := y }, if_pos rfl, setRoot_path H y⟩
  | cons f k =>
    have hsibling : addr f.sibling ≠ x := by
      intro heq
      by_cases hnil : f.sibling = .nil
      · exact hx (by rw [← heq, hnil]; rfl)
      · exact hout (mem_path_cons.mpr (.inr (.inl (heq ▸ addr_mem hnil))))
    obtain ⟨hn, -, hpos⟩ := (separate_path_cons.mp H).head
    obtain ⟨h', hmod, H'⟩ := setChild_path H y
    refine ⟨h', ?_, H'⟩
    rw [Heap.replaceChild, parentAddr, if_neg hpos, hn]
    by_cases hd : d = f.side
    · rw [hd]
      simpa using hmod
    · obtain rfl : d = f.side.flip := by
        revert hd
        cases d <;> cases f.side <;> simp [Side.flip]
      simpa [hsibling] using hmod

end Writes

/-- The heap is the tree `t` in the place that `k` leads up from. -/
def At (h : Heap) (k : Path ℕ) (t : RbTree ℕ) : Prop :=
  Separate h ({path (addr t) k} + {tree (parentAddr k) t})

def Models (h : Heap) (t : RbTree ℕ) : Prop := At h [] t

section Places

variable {h : Heap} {k : Path ℕ} {f : Frame ℕ} {s t u : RbTree ℕ} {d : Side} {red c c' : Bool} {a b : ℕ}

theorem at_fill : Models h (k.fill t) ↔ At h k t := by
  have hfill : Separate h ({path (addr (k.fill t)) []} + ({tree 0 (k.fill t)} + 0)) ↔
      Separate h ({path (addr t) k} + ({tree (parentAddr k) t} + 0)) := separate_fill
  rwa [add_zero, add_zero] at hfill

theorem at_cons : At h (f :: k) t ↔ At h k (f.fill t) := by
  rw [← at_fill, ← at_fill, Path.fill]

theorem at_join_cut : At h k (.join d red s a t) ↔
    Separate h ({cell a (record (parentAddr k) red d (addr s) (addr t))} +
      ({path a k} + ({tree a s} + {tree a t}))) := by
  rw [At, addr_join, add_comm, separate_join]
  constructor <;> intro H <;> exact H.reorder (by abel)

theorem At.root_cell (H : At h k (.join d red s a t)) :
    Cell h a (record (parentAddr k) red d (addr s) (addr t)) :=
  (at_join_cut.mp H).head

theorem At.aligned (H : At h k t) : 4 ∣ parentAddr k := aligned_parentAddr H.head

theorem At.nodup (H : At h k t) : (k.fill t).inorder.Nodup := by
  have hn := Separate.nodup (at_fill.mpr H)
  simp only [footprint_add, footprint_singleton, path, tree, Path.before, Path.after] at hn
  have hl := (Multiset.nodup_add.mp hn).2.1
  exact (List.Nodup.of_map some (Multiset.coe_nodup.mp hl))

theorem At.notMem_path (H : At h k t) (ha : a ∈ t.inorder) : a ∉ Path.before k ++ Path.after k := by
  have hn := H.nodup
  rw [Path.inorder_fill] at hn
  grind

theorem At.root_notMem (H : At h k (.join d c s a t)) : a ∉ Path.before k ++ Path.after k :=
  H.notMem_path (RbTree.mem_join.mpr (.inl rfl))

variable (H : At h k (.join d c s a t))
include H

theorem At.recolor {f : RbNode → RbNode}
    (hf : ∀ p x y, 4 ∣ p → f (record p c d x y) = record p c' d x y) :
    ∃ h', h.modify a f = some h' ∧ At h' k (.join d c' s a t) := by
  obtain ⟨h', hmod, H'⟩ := modify_cell (at_join_cut.mp H) f
  rw [hf _ _ _ H.aligned] at H'
  exact ⟨h', hmod, at_join_cut.mpr H'⟩

theorem At.setBlack :
    ∃ h', h.modify a RbNode.rbSetBlack = some h' ∧ At h' k (.join d false s a t) :=
  H.recolor fun _ _ _ hp => rbSetBlack_record hp

theorem At.setRed : ∃ h', h.modify a RbNode.rbSetRed = some h' ∧ At h' k (.join d true s a t) :=
  H.recolor fun _ _ _ hp => rbSetRed_record hp

omit H

theorem At.rotate (H : At h k (.join d c s a (.join d c' t b u))) :
    ∃ h', rbRotate d h a = some h' ∧ At h' k (.join d c' (.join d c s a t) b u) := by
  have hk := H.aligned
  obtain ⟨hna, ha, ha0⟩ := H.root_cell
  have H0 := at_join_cut.mp H
  rw [addr_join] at H0 hna
  have hcut := separate_join.mp H0.last
  obtain ⟨hnb, hb4, -⟩ := hcut.head
  -- the six writes of the rotation, each on one piece of the memory
  have H0 : Separate h ({cell a (record (parentAddr k) c d (addr s) b)} +
      ({cell b (record a c' d (addr t) (addr u))} +
        ({tree b t} + ({path a k} + ({tree a s} + {tree b u}))))) :=
    hcut.reorder (by abel)
  obtain ⟨h₁, e₁, H₁⟩ := modify_cell H0 (RbNode.setChild · d.flip (addr t))
  rw [setChild_flip_record] at H₁
  obtain ⟨h₂, e₂, H₂⟩ := setParentIf_tree hb4 ha H₁.third
  obtain ⟨h₃, e₃, H₃⟩ := modify_cell H₂.third (RbNode.setChild · d a)
  rw [setChild_record] at H₃
  obtain ⟨h₄, e₄, H₄⟩ := modify_cell H₃ (RbNode.rbSetParent · (parentAddr k))
  rw [rbSetParent_record ha hk] at H₄
  obtain ⟨h₅, e₅, H₅⟩ := replaceChild_path ha0 H.root_notMem H₄.fourth d b
  obtain ⟨h₆, e₆, H₆⟩ := modify_cell H₅.fourth (RbNode.rbSetParent · b)
  rw [rbSetParent_record hk hb4] at H₆
  refine ⟨h₆, ?_, at_join_cut.mpr ?_⟩
  · simp only [rbRotate, hna, Option.bind_eq_bind, Option.bind_some, child_flip_record, hnb, child_record,
      rbParent_record hk, e₁, e₂, e₃, e₄, e₅, e₆]
  · rw [addr_join]
    have hjoin : Separate h₆ ({tree b (.join d c s a t)} +
        ({tree b u} + ({cell b (record (parentAddr k) c' d a (addr u))} + {path b k}))) := by
      exact separate_join.mpr (H₆.reorder (by abel))
    exact hjoin.reorder (by abel)

end Places

end VDLinux.Lib.Rbtree
