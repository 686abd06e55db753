import VDLinux.Lib.RbHeap

namespace VDLinux.Lib.Rbtree

open Base.Halting Base.SearchTree Base.Separation

section Reads

variable {h : Heap} {k : Path ℕ} {s t : RbTree ℕ} {d : Side} {c red : Bool} {a n p : ℕ}

theorem isRed_eq (H : At h k t) (ht : t.Balanced c n) : h.isRed (addr t) = some c := by
  cases ht with
  | nil => rfl
  | _ =>
    obtain ⟨hn, -, h0⟩ := At.root_cell (d := .left) H
    simp [Heap.isRed, addr, h0, hn, rbIsRed_record H.aligned]

theorem At.near (H : At h k (.join d red s a t)) : At h (⟨d, red, a, t⟩ :: k) s := at_cons.mpr H

theorem At.far (H : At h k (.join d red s a t)) : At h (⟨d.flip, red, a, s⟩ :: k) t := by
  rw [at_cons, Frame.fill, RbTree.join_flip]
  exact H

theorem At.up (H : At h (⟨d, red, a, t⟩ :: k) s) : At h k (.join d red s a t) := at_cons.mp H

theorem At.addr_ne (H : At h k (.join d red s a t)) (hs : s ≠ .nil) : addr s ≠ addr t := by
  have hn := H.nodup
  rw [Path.inorder_fill, List.append_assoc] at hn
  have hj := (List.nodup_append.mp (List.nodup_append.mp hn).2.1).1
  obtain ⟨-, -, -, -, hdisj⟩ := RbTree.nodup_join.mp hj
  intro heq
  cases t with
  | nil =>
    cases s with
    | nil => exact hs rfl
    | node c l b r =>
      have hb := At.root_cell (d := .left) H.near
      exact hb.2.2 heq
  | node c l b r => exact hdisj _ (addr_mem hs) (heq ▸ addr_mem (by simp))

end Reads

section InsertColor

variable {h : Heap} {k : Path ℕ} {s t u x y z : RbTree ℕ} {d e : Side} {c : Bool} {node parent gparent n : ℕ}

theorem insertCase_recolor {uncle : ℕ} (node : ℕ)
    (H : At h k (.join d false (.join e true t parent s) gparent (.join d true x uncle y))) :
    ∃ h', insertCase d h node parent gparent = some (h', gparent) ∧
      At h' k (.join d true (.join e false t parent s) gparent (.join d false x uncle y)) := by
  obtain ⟨hg, -⟩ := H.root_cell
  obtain ⟨hu, -, hu0⟩ := H.far.root_cell
  obtain ⟨h₁, e₁, H₁⟩ := H.far.setBlack
  have H₁ := H₁.up
  rw [RbTree.join_flip] at H₁
  obtain ⟨h₂, e₂, H₂⟩ := H₁.near.setBlack
  obtain ⟨h₃, e₃, H₃⟩ := H₂.up.setRed
  refine ⟨h₃, ?_, H₃⟩
  simp [insertCase, hg, Heap.isRed, hu, hu0, rbIsRed_record H.far.aligned, e₁, e₂, e₃]

theorem insertRotate (H : At h (⟨d, false, gparent, u⟩ :: k) (.join d true t parent s)) :
    ∃ h₁ h₂ h₃, h.modify parent RbNode.rbSetBlack = some h₁ ∧ h₁.modify gparent RbNode.rbSetRed = some h₂ ∧
      rbRotate d.flip h₂ gparent = some h₃ ∧
      At h₃ k (.join d false t parent (.join d true s gparent u)) := by
  obtain ⟨h₁, e₁, H₁⟩ := H.setBlack
  obtain ⟨h₂, e₂, H₂⟩ := H₁.up.setRed
  have H₂ : At h₂ k (.join d.flip true u gparent (.join d.flip false s parent t)) := by
    rw [RbTree.join_flip, RbTree.join_flip]
    exact H₂
  obtain ⟨h₃, e₃, H₃⟩ := H₂.rotate
  rw [RbTree.join_flip, RbTree.join_flip] at H₃
  exact ⟨h₁, h₂, h₃, e₁, e₂, e₃, H₃⟩

theorem insertCase_rotate (hu : u.Balanced false n)
    (H : At h k (.join d false (.join e true (.join d true x node y) parent s) gparent u)) :
    ∃ h' node' l r b top far, insertCase d h node parent gparent = some (h', node') ∧
      At h' k (.join d false (.join d true l node' r) top (.join d true far b u)) ∧
      (RbTree.join d false (.join d true l node' r) top (.join d true far b u)).inorder =
        (RbTree.join d false (.join e true (.join d true x node y) parent s) gparent u).inorder ∧
      ∀ m, x.Balanced false m → y.Balanced false m → s.Balanced false m →
        l.Balanced false m ∧ r.Balanced false m ∧ far.Balanced false m := by
  obtain ⟨hg, -⟩ := H.root_cell
  obtain ⟨hp, -⟩ := H.near.root_cell
  have hred : h.isRed (addr u) = some false := isRed_eq H.far hu
  by_cases he : e = d
  · subst he
    have hne : addr s ≠ node := by
      have hne := H.near.addr_ne (by cases e <;> simp [RbTree.join])
      rw [addr_join] at hne
      exact hne.symm
    obtain ⟨h₁, h₂, h₃, e₁, e₂, e₃, H₃⟩ := insertRotate H.near
    refine ⟨h₃, node, x, y, gparent, parent, s, ?_, H₃, ?_, fun m hx hy hs => ⟨hx, hy, hs⟩⟩
    · simp [insertCase, hg, hred, hp, hne, e₁, e₂, e₃]
    · cases e <;> simp [RbTree.join, RbTree.inorder]
  · obtain rfl : e = d.flip := by
      revert he
      cases e <;> cases d <;> simp [Side.flip]
    have hp' : (record gparent true d.flip node (addr s)).child d.flip = node := child_record
    have H' := H.near
    rw [RbTree.join_flip] at H'
    obtain ⟨h₀, e₀, H₀⟩ := H'.rotate
    obtain ⟨h₁, h₂, h₃, e₁, e₂, e₃, H₃⟩ := insertRotate H₀
    refine ⟨h₃, parent, s, x, gparent, node, y, ?_, H₃, ?_, fun m hx hy hs => ⟨hs, hx, hy⟩⟩
    · simp [insertCase, hg, hred, hp, hp', parentAddr, e₀, e₁, e₂, e₃]
    · cases d <;> simp [RbTree.join, RbTree.inorder, Side.flip]

/-- The state of the loop: a red node that may hang below a red parent, the only fault of the tree. -/
def RedLeaf (items : List ℕ) (m : ℕ) (h : Heap) (node : ℕ) : Prop :=
  ∃ k d l r n, k.length = m ∧ At h k (.join d true l node r) ∧ l.Balanced false n ∧ r.Balanced false n ∧
    Path.Hole false n k ∧ (Path.fill k (.join d true l node r)).inorder = items

/-- After the loop the root alone may have the wrong colour. -/
def InsertDone (items : List ℕ) : Option Heap → Prop
  | none => False
  | some h => ∃ c l a r n, Models h (.node c l a r) ∧ RbTree.Balanced (.node c l a r) c n ∧
      (RbTree.node c l a r).inorder = items

theorem fill_ne_nil (k : Path ℕ) (ht : t ≠ .nil) : k.fill t ≠ .nil := by
  induction k generalizing t with
  | nil => exact ht
  | cons f k ih =>
    refine ih ?_
    obtain ⟨d, red, a, s⟩ := f
    cases d <;> simp [Frame.fill, RbTree.join]

theorem insertDone_of_hole {items : List ℕ} {c' : Bool} (H : At h k t) (hk : Path.Hole c' n k)
    (ht : t.Balanced c' n) (hne : t ≠ .nil) (hitems : (k.fill t).inorder = items) :
    InsertDone items (some h) := by
  obtain ⟨m, hm⟩ := hk.valid ht
  have hmodels := at_fill.mpr H
  have hne := fill_ne_nil k hne
  revert hm hmodels hne hitems
  cases k.fill t with
  | nil => exact fun _ _ _ hne => absurd rfl hne
  | node c l a r =>
    intro hitems hm hmodels _
    cases hm with
    | black hl hr => exact ⟨false, l, a, r, _, hmodels, .black hl hr, hitems⟩

theorem insertStep_progress {items : List ℕ} {m : ℕ} (hs : RedLeaf items m h node) :
    (∃ e, insertStep (h, node) = .error e ∧ InsertDone items e) ∨
      ∃ s' m', insertStep (h, node) = .ok s' ∧ m' < m ∧ RedLeaf items m' s'.1 s'.2 := by
  obtain ⟨k, d, l, r, n, hm, H, hl, hr, hk, hitems⟩ := hs
  obtain ⟨hn, -, h0⟩ := H.root_cell
  have hne : RbTree.join d true l node r ≠ .nil := by cases d <;> simp [RbTree.join]
  cases hk with
  | top =>
    left
    refine ⟨some h, ?_, ?_⟩
    · have hparent : (record 0 true d (addr l) (addr r)).rbParent = 0 := rbParent_record H.aligned
      change h.nodes node = some (record 0 true d (addr l) (addr r)) at hn
      simp [insertStep, insertIter, hn, hparent]
    · have hb := RbTree.Balanced.join_red (d := d) (x := node) hl hr
      obtain ⟨l', a', r', heq⟩ : ∃ l' a' r', RbTree.join d true l node r = .node true l' a' r' := by
        cases d <;> exact ⟨_, _, _, rfl⟩
      simp only [Path.fill, heq] at hitems hb H
      exact ⟨true, l', a', r', n, H, hb, hitems⟩
  | @black _ d' p u k _ _ hu hk =>
    -- a black parent takes the red node as it is
    left
    obtain ⟨hp, -, hp0⟩ := H.up.root_cell
    refine ⟨some h, ?_, insertDone_of_hole H (.black hu hk) (hl.join_red hr) hne hitems⟩
    have hparent : (record p true d (addr l) (addr r)).rbParent = p := rbParent_record H.aligned
    change h.nodes node = some (record p true d (addr l) (addr r)) at hn
    simp [insertStep, insertIter, hn, hparent, hp, hp0, rbIsRed_record H.up.aligned]
  | @red _ e p u k hu hk =>
    right
    cases hk with
    | @black _ d' g v k cv _ hv hk =>
      have hp := H.up.root_cell
      have hg := H.up.up.root_cell
      obtain ⟨x, y, hxy⟩ : ∃ x y, RbTree.join d true l node r = .join d' true x node y := by
        cases d <;> exact RbTree.exists_join d' true _ _ node
      have hx : x.Balanced false n ∧ y.Balanced false n := by
        have hb := RbTree.Balanced.join_red (d := d) (x := node) hl hr
        rw [hxy] at hb
        exact hb.of_join_red.2
      -- the half of the loop is the one of the parent's side
      have hiter : ∀ h' node', insertCase d' h node p g = some (h', node') →
          insertStep (h, node) = .ok (h', node') := by
        intro h' node' hcase
        have hside : (if p = (record (parentAddr k) false d' p (addr v)).rbLeft then Side.left
            else .right) = d' := by
          refine side_record ?_
          have hne := H.up.up.addr_ne (by cases e <;> simp [RbTree.join])
          rwa [addr_join] at hne
        have hnp : (record p true d (addr l) (addr r)).rbParent = p := rbParent_record H.aligned
        have hpg : (record g true e node (addr u)).rbParent = g := rbParent_record H.up.aligned
        have hpr : (record g true e node (addr u)).rbIsRed = true := rbIsRed_record H.up.aligned
        have hn : h.nodes node = some (record p true d (addr l) (addr r)) := hn
        have hpn : h.nodes p = some (record g true e node (addr u)) := by
          have hnode : addr (.join d true l node r) = node := addr_join
          rw [← hnode]
          exact hp.1
        rw [addr_join] at hg
        simp only [insertStep, insertIter, hn, hnp, hp.2.2, hpn, hpr, hpg, hg.1, Option.bind_eq_bind,
          Option.bind_some, if_true, if_false, hside, hcase]
      have H' := H.up.up
      rw [hxy] at H' hitems
      cases cv with
      | true =>
        obtain ⟨vl, b, vr, rfl⟩ := hv.exists_join_red d'
        obtain ⟨-, hvl, hvr⟩ := hv.of_join_red
        obtain ⟨h', hcase, Hnew⟩ := insertCase_recolor node H'
        refine ⟨(h', g), _, hiter _ _ hcase, ?_, k, d', _, _, n + 1, rfl, Hnew,
          (hx.1.join_red hx.2).join_black hu, hvl.join_black hvr, hk, ?_⟩
        · rw [← hm]
          simp only [List.length_cons]
          omega
        · rw [← hitems]
          refine Path.inorder_fill_congr ?_ k
          cases d' <;> cases e <;> rfl
      | false =>
        obtain ⟨h', node', l', r', b, top, far, hcase, Hnew, hsame, hbal⟩ := insertCase_rotate hv H'
        obtain ⟨hl', hr', hfar⟩ := hbal n hx.1 hx.2 hu
        refine ⟨(h', node'), _, hiter _ _ hcase, ?_, _, d', l', r', n, rfl, Hnew.near, hl', hr',
          .black (hfar.join_red hv) hk, ?_⟩
        · rw [← hm]
          simp only [List.length_cons]
          omega
        · rw [← hitems]
          exact Path.inorder_fill_congr hsame k

theorem rbInsertColor_spec {items : List ℕ} {m fuel : ℕ} (hs : RedLeaf items m h node)
    (hfuel : m < fuel) :
    ∃ h' t', rbInsertColor fuel h node = some (some h') ∧ Models h' t' ∧ t'.Valid ∧ t'.inorder = items := by
  obtain ⟨e, hrun, hdone⟩ := runFor_progress (fun m s => RedLeaf items m s.1 s.2)
    (InsertDone items) (fun _ _ hs => insertStep_progress hs) (s := (h, node)) hs hfuel
  cases e with
  | none => exact hdone.elim
  | some h₁ =>
    obtain ⟨c, l, a, r, n, H, hb, hitems⟩ := hdone
    obtain ⟨h₂, e₂, H₂⟩ := At.setBlack (d := .left) H
    have hroot : h₁.rbNode = a := (Separate.head H : RepPath h₁ a [])
    exact ⟨h₂, .node false l a r, by simp [rbInsertColor, hrun, hroot, e₂], H₂, hb.blacken, hitems⟩

end InsertColor

section Link

variable {h : Heap} {k : Path ℕ} {a : ℕ}

/-- The place below the last parent of the way, or the root of the empty tree. -/
def linkOf : Path ℕ → RbLink
  | [] => .root
  | f :: _ => .child f.item f.side

theorem parent_linkOf (k : Path ℕ) : (linkOf k).parent = parentAddr k := by cases k <;> rfl

theorem rbLinkNode_spec {old : RbNode} (H : Models h (k.fill .nil)) (hnew : Cell h a old)
    (hfresh : a ∉ (k.fill .nil).inorder) :
    ∃ h', rbLinkNode h a (linkOf k) = some h' ∧ At h' k (.node true .nil a .nil) := by
  have hout : ∀ l ∈ (cell a old).footprint,
      l ∉ footprint ({path 0 k} + {tree (parentAddr k) .nil} : Multiset (Piece Heap.read)) := by
    intro l hl
    rw [Multiset.mem_singleton.mp hl, footprint_add, footprint_singleton, footprint_singleton]
    rw [Path.inorder_fill, RbTree.inorder, List.append_nil] at hfresh
    simpa [path, tree, some_mem_locations, RbTree.inorder] using hfresh
  have hcell : Separate h ({cell a old} + ({path 0 k} + {tree (parentAddr k) .nil})) :=
    (at_fill.mp H).cons hnew (Multiset.nodup_singleton _) hout
  obtain ⟨h₁, e₁, H₁⟩ := modify_cell hcell fun _ => ⟨(linkOf k).parent, 0, 0⟩
  have H₁ := H₁.second
  have hlink : ∃ h₂, rbLinkNode h a (linkOf k) = some h₂ ∧
      Separate h₂ ({path a k} + ({cell a ⟨(linkOf k).parent, 0, 0⟩} + {tree (parentAddr k) .nil})) := by
    cases k with
    | nil => exact ⟨{ h₁ with rbNode := a }, by rw [rbLinkNode, e₁]; rfl, setRoot_path H₁ a⟩
    | cons f k =>
      obtain ⟨h₂, e₂, H₂⟩ := setChild_path H₁ a
      exact ⟨h₂, by rw [rbLinkNode, e₁]; exact e₂, H₂⟩
  obtain ⟨h₂, e₂, H₂⟩ := hlink
  refine ⟨h₂, e₂, (at_join_cut (d := .left)).mpr ?_⟩
  -- the new leaf has two empty subtrees, which own nothing
  have hleaf : Separate h₂ ({tree (parentAddr k) .nil} +
      ({cell a (record (parentAddr k) true .left 0 0)} + {path a k})) := by
    rw [parent_linkOf] at H₂
    exact H₂.reorder (by rw [record, colorBit, if_pos rfl, Nat.add_zero]; abel)
  have hboth : Separate h₂ ({tree a .nil} + {tree a .nil} +
      ({cell a (record (parentAddr k) true .left 0 0)} + {path a k})) := by
    refine hleaf.exchange ?_ rfl
    simp only [Multiset.mem_add, Multiset.mem_singleton, or_self, forall_eq]
    exact True.intro
  exact hboth.reorder (by simp only [addr]; abel)

theorem redLeaf_of_link (H : At h k (.node true .nil a .nil)) (hvalid : (k.fill .nil).Valid) :
    RedLeaf (k.before ++ a :: k.after) k.length h a := by
  obtain ⟨c, n, hb, hk⟩ := Path.exists_hole hvalid
  cases hb with
  | nil =>
    refine ⟨k, .left, .nil, .nil, 0, rfl, H, .nil, .nil, hk, ?_⟩
    simp [Path.inorder_fill, RbTree.join, RbTree.inorder]

end Link

end VDLinux.Lib.Rbtree
