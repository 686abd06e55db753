import VDLinux.Lib.RbEraseColor

namespace VDLinux.Lib.Rbtree

open Base.Halting Base.SearchTree Base.Separation List

section Unlink

variable {h : Heap} {j k : Path ℕ} {l t u : RbTree ℕ} {d : Side} {c cs : Bool} {a b p n : ℕ}
  {rest : Multiset (Piece Heap.read)}

theorem unlinkNode_spec (H : At h k (.join d c t a .nil)) :
    ∃ h', unlinkNode h a (addr t) = some ⟨h', addr t, parentAddr k, colorBit c⟩ ∧ At h' k t := by
  have hk := H.aligned
  obtain ⟨hn, ha, ha0⟩ := H.root_cell
  obtain ⟨h₁, e₁, H₁⟩ := setParentIf_tree ha hk (at_join_cut.mp H).third
  obtain ⟨h₂, e₂, H₂⟩ := replaceChild_path ha0 H.root_notMem H₁.third .left (addr t)
  refine ⟨h₂, ?_, Separate.drop (H₂.reorder (add_assoc _ _ _).symm)⟩
  simp [unlinkNode, hn, rbParent_record hk, rbColor_record hk, e₁, e₂]

theorem leftmost_eq (hj : ∀ f ∈ j, f.side = .left) (H : At h k (j.fill (.node cs .nil b u)))
    {fuel : ℕ} (hfuel : j.length < fuel) :
    runFor (leftmostStep h) fuel (addr (j.fill (.node cs .nil b u))) = some (some b) := by
  induction j using List.reverseRecOn generalizing k fuel with
  | nil =>
    obtain ⟨fuel, rfl⟩ := Nat.exists_eq_succ_of_ne_zero (show fuel ≠ 0 by omega)
    obtain ⟨hn, -⟩ := At.root_cell (d := .left) H
    simp [runFor, leftmostStep, Path.fill, addr, hn, record]
  | append_singleton j f ih =>
    obtain ⟨fuel, rfl⟩ := Nat.exists_eq_succ_of_ne_zero (show fuel ≠ 0 by omega)
    obtain ⟨e, red, x, s⟩ := f
    obtain rfl : e = .left := hj ⟨e, red, x, s⟩ (by simp)
    rw [Path.fill_append] at H ⊢
    have H : At h k (.join .left red (Path.fill j (.node cs .nil b u)) x s) := H
    obtain ⟨hn, -⟩ := H.root_cell
    have hne : addr (Path.fill j (.node cs .nil b u)) ≠ 0 := by
      intro h0
      exact fill_ne_nil j (by simp) ((addr_eq_zero H.near).mp h0)
    have hrest := ih (fun f hf => hj f (by simp [hf])) H.near
      (show j.length < fuel by simp only [length_append, length_singleton] at hfuel; omega)
    have haddr : addr (Path.fill [⟨.left, red, x, s⟩] (Path.fill j (.node cs .nil b u))) = x := rfl
    have hstep : leftmostStep h x = .ok (addr (Path.fill j (.node cs .nil b u))) := by
      simp [leftmostStep, hn, record, hne]
    rw [haddr, runFor, hstep]
    exact hrest

theorem addr_fill_cons (f : Frame ℕ) (j : Path ℕ) (s t : RbTree ℕ) :
    addr (Path.fill (f :: j) s) = addr (Path.fill (f :: j) t) := by
  induction j generalizing f s t with
  | nil =>
    obtain ⟨d, red, x, u⟩ := f
    cases d <;> rfl
  | cons g j ih => exact ih g (f.fill s) (f.fill t)

theorem detach_spec {f : Frame ℕ} (hf : f.side = .left)
    (H : Separate h ({tree p (Path.fill (f :: j) (.join .right cs u b .nil))} + rest)) :
    ∃ h₁ h₂, h.setParentIf (addr u) f.item = some h₁ ∧
      h₁.modify f.item (RbNode.setChild · .left (addr u)) = some h₂ ∧
      Separate h₂ ({tree p (Path.fill (f :: j) u)} +
        ({cell b (record f.item cs .right (addr u) 0)} + rest)) := by
  induction j using List.reverseRecOn generalizing p rest with
  | nil =>
    obtain ⟨e, red, x, s⟩ := f
    obtain rfl : e = .left := hf
    have H : Separate h ({tree p (.join .left red (.join .right cs u b .nil) x s)} + rest) := H
    have H₀ := separate_join.mp H
    have ha := H₀.head.2.1
    have H₀ := separate_join.mp H₀.second
    have hb := H₀.head.2.1
    obtain ⟨h₁, e₁, H₁⟩ := setParentIf_tree hb ha H₀.second
    obtain ⟨h₂, e₂, H₂⟩ := modify_cell H₁.third.tail.third (RbNode.setChild · .left (addr u))
    rw [setChild_record] at H₂
    refine ⟨h₁, h₂, e₁, e₂, ?_⟩
    change Separate h₂ ({tree p (.join .left red u x s)} + _)
    exact separate_join.mpr (H₂.reorder (by simp only [addr]; abel))
  | append_singleton j g ih =>
    rw [← cons_append, Path.fill_append] at H ⊢
    have haddr := addr_fill_cons f j (.join .right cs u b .nil) u
    have H₀ := separate_join.mp H
    rw [haddr] at H₀
    obtain ⟨h₁, h₂, e₁, e₂, H₂⟩ := ih H₀.second
    refine ⟨h₁, h₂, e₁, e₂, ?_⟩
    exact separate_join.mpr (H₂.reorder (by abel))

theorem addr_ne_zero (ht : t ≠ .nil) (hrep : RepTree h p t) : addr t ≠ 0 := by
  cases t with
  | nil => exact absurd rfl ht
  | node red l x r => exact hrep.1.2.2

theorem takePlace {r : RbTree ℕ} {old node q z : ℕ} {e : RbNode} (hl : l ≠ .nil)
    (H : Separate h ({cell node e} + ({cell old (record q c .left (addr l) z)} +
      ({tree old l} + ({tree node r} + rest))))) (he : e.rbRight = addr r) :
    ∃ h₁ h₂ h₃, h.modify node (fun n => { n with rbParentColor := q + colorBit c }) = some h₁ ∧
      h₁.modify node (RbNode.setChild · .left (addr l)) = some h₂ ∧
      h₂.modify (addr l) (RbNode.rbSetParent · node) = some h₃ ∧
      Separate h₃ ({tree q (.node c l node r)} + rest) := by
  have hold := H.second.head.2.1
  have hnode := H.head.2.1
  obtain ⟨h₁, e₁, H₁⟩ := modify_cell H fun n => { n with rbParentColor := q + colorBit c }
  obtain ⟨h₂, e₂, H₂⟩ := modify_cell H₁ (RbNode.setChild · .left (addr l))
  have hrec : RbNode.setChild { e with rbParentColor := q + colorBit c } .left (addr l) =
      record q c .left (addr l) (addr r) := by
    rw [RbNode.setChild, record, he]
  rw [hrec] at H₂
  obtain ⟨h₃, e₃, H₃⟩ := setParentIf_tree hold hnode H₂.third
  rw [Heap.setParentIf, if_neg (addr_ne_zero hl H₂.third.head)] at e₃
  exact ⟨h₁, h₂, h₃, e₁, e₂, e₃, (separate_join (d := .left)).mpr H₃.third.tail.second⟩

theorem at_append : At h (j ++ k) t ↔ At h k (j.fill t) := by
  rw [← at_fill, ← at_fill, Path.fill_append]

theorem repTree_fill {f : Frame ℕ} (ht : RepTree h p (Path.fill (f :: j) t)) : RepTree h f.item t := by
  induction j generalizing f t with
  | nil => exact (repTree_join.mp ht).2.1
  | cons g j ih => exact (repTree_join.mp (ih ht)).2.1

theorem spliceNode_child (hl : l ≠ .nil) (H : At h k (.node c l a (.node cs .nil b u))) :
    ∃ h', spliceNode h a b = some ⟨h', addr u, b, colorBit cs⟩ ∧ At h' k (.node c l b u) := by
  have H : At h k (.join .left c l a (.node cs .nil b u)) := H
  have hk := H.aligned
  obtain ⟨hn, ha, ha0⟩ := H.root_cell
  obtain ⟨h₁, e₁, H₁⟩ := replaceChild_path ha0 H.root_notMem (at_join_cut.mp H).second .left b
  have ho : h₁.nodes a = some (record (parentAddr k) c .left (addr l) b) := H₁.second.head.1
  have H₁ := (separate_join (d := .left)).mp H₁.last
  obtain ⟨hb, -⟩ := H₁.head
  have H₁ : Separate h₁ ({cell b (record a cs .left 0 (addr u))} +
      ({cell a (record (parentAddr k) c .left (addr l) b)} + ({tree a l} + ({tree b u} +
        ({path b k} + {tree b .nil}))))) := H₁.reorder (by simp only [addr]; abel)
  obtain ⟨h₂, h₃, h₄, e₂, e₃, e₄, H₄⟩ := takePlace hl H₁ rfl
  refine ⟨h₄, ?_, ?_⟩
  · have hold : (record a cs .left 0 (addr u)).rbParent = a := rbParent_record ha
    have hcolor : (record a cs .left 0 (addr u)).rbColor = colorBit cs := rbColor_record ha
    have hright : (record a cs .left 0 (addr u)).rbRight = addr u := rfl
    have hleft : (record (parentAddr k) c .left (addr l) b).rbLeft = addr l := rfl
    have hb : h₁.nodes b = some (record a cs .left 0 (addr u)) := hb
    simp only [spliceNode, hn, rbParent_record hk, e₁, hb, hold, hcolor, hright, hleft, ho,
      rbParentColor_record, e₂, e₃, e₄, Option.bind_eq_bind, Option.bind_some, if_true]
  · have hdone : Separate h₄ ({path b k} + {tree (parentAddr k) (.node c l b u)} + {tree b .nil}) :=
      H₄.reorder (by abel)
    exact hdone.drop

theorem spliceNode_below {f : Frame ℕ} (hf : f.side = .left) (hl : l ≠ .nil)
    (H : At h k (.node c l a (Path.fill (f :: j) (.node cs .nil b u)))) :
    ∃ h', spliceNode h a b = some ⟨h', addr u, f.item, colorBit cs⟩ ∧
      At h' k (.node c l b (Path.fill (f :: j) u)) := by
  have H : At h k (.join .left c l a (Path.fill (f :: j) (.join .right cs u b .nil))) := H
  have hk := H.aligned
  obtain ⟨hn, ha, ha0⟩ := H.root_cell
  have haddr := addr_fill_cons f j (.join .right cs u b .nil) u
  have hne : f.item ≠ a := by
    have hnodup := H.nodup
    rw [Path.inorder_fill, append_assoc] at hnodup
    have hj := (nodup_append.mp (nodup_append.mp hnodup).2.1).1
    obtain ⟨-, hnot, -⟩ := RbTree.nodup_join.mp hj
    rintro rfl
    refine hnot ?_
    rw [Path.inorder_fill]
    have hmem := mem_path_cons (f := f) (k := j) (a := f.item) |>.mpr (.inl rfl)
    simp only [mem_append] at hmem ⊢
    tauto
  have H₀ := at_join_cut.mp H
  rw [haddr] at H₀ hn
  -- `old` keeps its links until its successor has taken them over
  obtain ⟨low, hlow⟩ : ∃ low, low = Path.fill (f :: j) u := ⟨_, rfl⟩
  obtain ⟨old, hold⟩ : ∃ old, old = record (parentAddr k) c .left (addr l) (addr low) := ⟨_, rfl⟩
  have hleft : old.rbLeft = addr l := by rw [hold]; rfl
  have hright' : old.rbRight = addr low := by rw [hold]; rfl
  rw [← hlow, ← hold] at H₀ hn
  obtain ⟨h₁, e₁, H₁⟩ := replaceChild_path ha0 H.root_notMem H₀.second .left b
  have H₁ := H₁.last
  have hsub : RepTree h₁ f.item (.join .right cs u b .nil) := repTree_fill H₁.head
  obtain ⟨⟨hb, hb4, -⟩, -⟩ := repTree_join.mp hsub
  obtain ⟨h₂, h₃, e₂, e₃, H₃⟩ := detach_spec hf H₁
  rw [← hlow] at H₃
  obtain ⟨ho₃, -⟩ := H₃.fourth.head
  obtain ⟨h₄, e₄, H₄⟩ := modify_cell H₃.second (RbNode.setChild · .right (addr low))
  rw [setChild_record] at H₄
  have H₄ := H₄.second
  have hpos : addr low ≠ 0 := by
    have hnil : low ≠ .nil := by
      rw [hlow]
      refine fill_ne_nil j ?_
      obtain ⟨d, red, x, s⟩ := f
      cases d <;> simp [Frame.fill, RbTree.join]
    exact addr_ne_zero hnil H₄.head
  obtain ⟨h₅, e₅, H₅⟩ := setParentIf_tree ha hb4 H₄
  rw [Heap.setParentIf, if_neg hpos] at e₅
  obtain ⟨ho₅, -⟩ := H₅.fourth.head
  rw [hold] at H₅
  have H₅ : Separate h₅ ({cell b (record f.item cs .right (addr low) 0)} +
      ({cell a (record (parentAddr k) c .left (addr l) (addr low))} + ({tree a l} +
        ({tree b low} + {path b k})))) := H₅.reorder (by abel)
  obtain ⟨h₆, h₇, h₈, e₆, e₇, e₈, H₈⟩ := takePlace hl H₅ rfl
  rw [hlow] at H₈
  refine ⟨h₈, ?_, H₈.reorder (add_comm _ _)⟩
  have hf4 : 4 ∣ f.item := by
    have hk' : At h (⟨.right, c, a, l⟩ :: k) (Path.fill (f :: j) (.join .right cs u b .nil)) := H.far
    exact ((at_append (j := f :: j)).mpr hk').aligned
  have hparent : (record f.item cs .right (addr u) 0).rbParent = f.item := rbParent_record hf4
  have hcolor : (record f.item cs .right (addr u) 0).rbColor = colorBit cs := rbColor_record hf4
  have hright : (record f.item cs .right (addr u) 0).rbRight = addr u := rfl
  have hb : h₁.nodes b = some (record f.item cs .right (addr u) 0) := hb
  have hup : old.rbParent = parentAddr k ∧ old.rbParentColor = parentAddr k + colorBit c := by
    rw [hold]
    exact ⟨rbParent_record hk, rbParentColor_record⟩
  simp only [spliceNode, hn, hup, e₁, hb, hparent, hcolor, hright, if_neg hne, e₂, e₃, ho₃, hright', e₄, e₅,
    ho₅, hleft, e₆, e₇, e₈, Option.bind_eq_bind, Option.bind_some]

end Unlink

section Erase

variable {h : Heap} {j k : Path ℕ} {l r t u : RbTree ℕ} {d : Side} {c cs : Bool} {a b n : ℕ}
  {items : List ℕ}

theorem eraseColor_of_unlink {fuel : ℕ} (H : At h k u) (hb : (RbTree.join d cs u b .nil).Balanced c n)
    (hk : Path.Hole c n k) (hitems : (k.fill u).inorder = items) (hfuel : 2 * k.length + 1 < fuel) :
    ∃ h' t', (if colorBit cs = rbBlack then rbEraseColor fuel h (addr u) (parentAddr k)
        else some (some h)) = some (some h') ∧ Models h' t' ∧ t'.Valid ∧ t'.inorder = items := by
  cases cs with
  | true =>
    obtain ⟨rfl, hu, -⟩ := hb.of_join_red
    exact ⟨h, _, if_neg (by decide), at_fill.mpr H, hk.black_of_red.valid hu, hitems⟩
  | false =>
    obtain ⟨rfl, m, cu, -, rfl, hu, -⟩ := hb.of_join_black
    cases cu with
    | false =>
      exact rbEraseColor_spec ⟨k, u, m, H, rfl, rfl, hk, hitems, .inl ⟨hu, rfl⟩⟩ hfuel
    | true =>
      obtain ⟨x, y, z, rfl⟩ := hu.exists_join_red .left
      obtain ⟨-, hx, hz⟩ := hu.of_join_red
      refine rbEraseColor_spec ⟨k, _, m, H, rfl, rfl, hk, hitems, .inr ⟨⟨⟨.left, x, y, z, rfl⟩, ?_⟩, rfl⟩⟩
        (by omega)
      rw [blacken_join]
      exact hx.join_black hz

theorem erase_append {zs : List ℕ} (xs ys : List ℕ) (hnodup : zs.Nodup) (heq : zs = xs ++ a :: ys) :
    zs.erase a = xs ++ ys := by
  subst heq
  have hnot : a ∉ xs := by grind
  rw [erase_append_right _ hnot, erase_cons_head]

theorem rbErase_single {fuel : ℕ} (H : At h k (.join d c t a .nil))
    (hvalid : (k.fill (.join d c t a .nil)).Valid) (hfuel : 2 * k.length + 1 < fuel)
    (hunlink : unlink fuel h a = some (unlinkNode h a (addr t))) :
    ∃ h' t', rbErase fuel h a = some (some h') ∧ Models h' t' ∧ t'.Valid ∧
      t'.inorder = (k.fill (.join d c t a .nil)).inorder.erase a := by
  obtain ⟨c', n, hb, hk⟩ := Path.exists_hole hvalid
  obtain ⟨h₁, e₁, H₁⟩ := unlinkNode_spec H
  have hitems : (k.fill t).inorder = (k.fill (.join d c t a .nil)).inorder.erase a := by
    cases d with
    | left =>
      rw [erase_append (k.before ++ t.inorder) k.after H.nodup
        (by simp [Path.inorder_fill, RbTree.join, RbTree.inorder]), Path.inorder_fill]
    | right =>
      rw [erase_append k.before (t.inorder ++ k.after) H.nodup
        (by simp [Path.inorder_fill, RbTree.join, RbTree.inorder]), Path.inorder_fill, append_assoc]
  obtain ⟨h', t', e', H'⟩ := eraseColor_of_unlink H₁ hb hk hitems hfuel
  refine ⟨h', t', ?_, H'⟩
  rw [rbErase, hunlink, e₁]
  exact e'

theorem rbErase_double {fuel : ℕ} (hl : l ≠ .nil) (hj : ∀ f ∈ j, f.side = .left)
    (H : At h k (.node c l a (j.fill (.node cs .nil b u))))
    (hvalid : (k.fill (.node c l a (j.fill (.node cs .nil b u)))).Valid)
    (hfuel : 2 * (j.length + k.length + 1) + 1 < fuel) :
    ∃ h' t', rbErase fuel h a = some (some h') ∧ Models h' t' ∧ t'.Valid ∧
      t'.inorder = (k.fill (.node c l a (j.fill (.node cs .nil b u)))).inorder.erase a := by
  have hshape : ∀ x s, Path.fill (j ++ ⟨.right, c, x, l⟩ :: k) s = k.fill (.node c l x (j.fill s)) := by
    intro x s
    rw [Path.fill_append]
    rfl
  obtain ⟨c', n, hb, hk⟩ := Path.exists_hole (k := j ++ ⟨.right, c, a, l⟩ :: k)
    (t := .join .right cs u b .nil) (hshape a _ ▸ hvalid)
  have hsplice : ∃ h₁, spliceNode h a b =
      some ⟨h₁, addr u, parentAddr (j ++ ⟨.right, c, b, l⟩ :: k), colorBit cs⟩ ∧
      At h₁ (j ++ ⟨.right, c, b, l⟩ :: k) u := by
    have hat : ∀ h₁, At h₁ k (.node c l b (j.fill u)) → At h₁ (j ++ ⟨.right, c, b, l⟩ :: k) u := by
      intro h₁ H₁
      rw [← at_fill, hshape]
      exact at_fill.mpr H₁
    cases j with
    | nil =>
      obtain ⟨h₁, e₁, H₁⟩ := spliceNode_child hl H
      exact ⟨h₁, e₁, hat h₁ H₁⟩
    | cons f j =>
      obtain ⟨h₁, e₁, H₁⟩ := spliceNode_below (hj f mem_cons_self) hl H
      exact ⟨h₁, e₁, hat h₁ H₁⟩
  obtain ⟨h₁, e₁, H₁⟩ := hsplice
  have hitems : (Path.fill (j ++ ⟨.right, c, b, l⟩ :: k) u).inorder =
      (k.fill (.node c l a (j.fill (.node cs .nil b u)))).inorder.erase a := by
    rw [erase_append (k.before ++ l.inorder) (b :: (u.inorder ++ j.after ++ k.after)) H.nodup
      (by simp [Path.inorder_fill, RbTree.inorder, Path.before_eq_nil hj])]
    simp [hshape, Path.inorder_fill, RbTree.inorder, Path.before_eq_nil hj]
  have hlen : 2 * (j ++ ⟨.right, c, b, l⟩ :: k).length + 1 < fuel := by
    simp only [length_append, length_cons]
    omega
  obtain ⟨h', t', e', H'⟩ := eraseColor_of_unlink H₁ hb (hk.relabel b) hitems hlen
  refine ⟨h', t', ?_, H'⟩
  have H : At h k (.join .left c l a (j.fill (.node cs .nil b u))) := H
  obtain ⟨hn, -⟩ := H.root_cell
  have hleft : addr l ≠ 0 := fun h0 => hl ((addr_eq_zero H.near).mp h0)
  have hright : addr (j.fill (.node cs .nil b u)) ≠ 0 :=
    fun h0 => fill_ne_nil j (by simp) ((addr_eq_zero H.far).mp h0)
  have hwalk := leftmost_eq hj H.far (show j.length < fuel by omega)
  have hunlink : unlink fuel h a = some (spliceNode h a b) := by
    simp [unlink, hn, record, hleft, hright, hwalk]
  rw [rbErase, hunlink, e₁]
  exact e'

theorem rbErase_spec (H : Models h t) (hvalid : t.Valid) (ha : a ∈ t.inorder) :
    ∃ N, ∀ fuel ≥ N, ∃ h' t', rbErase fuel h a = some (some h') ∧ Models h' t' ∧ t'.Valid ∧
      t'.inorder = t.inorder.erase a := by
  obtain ⟨k, c, l, r, rfl⟩ := Path.exists_fill_of_mem ha
  have H := at_fill.mp H
  obtain ⟨hn, -⟩ := At.root_cell (d := .left) H
  cases l with
  | nil =>
    refine ⟨2 * k.length + 2, fun fuel hfuel => rbErase_single (d := .right) H hvalid (by omega) ?_⟩
    simp [unlink, hn, record, addr]
  | node cl ll xl rl =>
    have hleft : xl ≠ 0 := (At.root_cell (d := .left) (At.near (d := .left) H)).2.2
    cases r with
    | nil =>
      refine ⟨2 * k.length + 2, fun fuel hfuel => rbErase_single (d := .left) H hvalid (by omega) ?_⟩
      simp [unlink, hn, record, hleft, addr]
    | node cr lr xr rr =>
      obtain ⟨j, cs, b, u, hj, heq⟩ := Path.exists_leftmost cr lr xr rr
      rw [heq] at H hvalid ⊢
      exact ⟨2 * (j.length + k.length + 1) + 2,
        fun fuel hfuel => rbErase_double (by simp) hj H hvalid (by omega)⟩

end Erase

/-- Linking a red leaf at any place of a valid tree and erasing any of its nodes both give a valid tree,
with the node added to the order of the others or taken out of it. -/
theorem redBlack_kept {h : Heap} {t : RbTree ℕ} (H : Models h t) (hvalid : t.Valid) :
    (∀ k a old, t = Path.fill k .nil → Cell h a old → a ∉ t.inorder →
      ∃ h₁, rbLinkNode h a (linkOf k) = some h₁ ∧ ∃ N, ∀ fuel ≥ N, ∃ h' t',
        rbInsertColor fuel h₁ a = some (some h') ∧ Models h' t' ∧ t'.Valid ∧
        t.inorder = k.before ++ k.after ∧ t'.inorder = k.before ++ a :: k.after) ∧
    ∀ a ∈ t.inorder, ∃ N, ∀ fuel ≥ N, ∃ h' t', rbErase fuel h a = some (some h') ∧ Models h' t' ∧
      t'.Valid ∧ t'.inorder = t.inorder.erase a := by
  refine ⟨?_, fun a ha => rbErase_spec H hvalid ha⟩
  rintro k a old rfl hnew hfresh
  obtain ⟨h₁, e₁, H₁⟩ := rbLinkNode_spec H hnew hfresh
  refine ⟨h₁, e₁, k.length + 1, fun fuel hfuel => ?_⟩
  obtain ⟨h', t', e', H', hvalid', hitems⟩ :=
    rbInsertColor_spec (redLeaf_of_link H₁ hvalid) (show k.length < fuel by omega)
  refine ⟨h', t', e', H', hvalid', ?_, hitems⟩
  simp [Path.inorder_fill, RbTree.inorder]

def oneNode : Heap := ⟨fun a => if a = 4 then some ⟨1, 0, 0⟩ else if a = 8 then some ⟨0, 0, 0⟩ else none, 4⟩

theorem oneNode_models : Models oneNode (.node false .nil 4 .nil) := by
  refine ⟨fun p hp => ?_, by decide⟩
  simp only [Multiset.mem_add, Multiset.mem_singleton] at hp
  obtain rfl | rfl := hp
  · exact rfl
  · exact ⟨⟨rfl, by decide, by decide⟩, True.intro, True.intro⟩

theorem redBlack_kept_oneNode :
    Models oneNode (.node false .nil 4 .nil) ∧ (RbTree.node false .nil 4 .nil).Valid ∧
    (∃ h₁, rbLinkNode oneNode 8 (.child 4 .right) = some h₁ ∧ ∃ N, ∀ fuel ≥ N, ∃ h' t',
      rbInsertColor fuel h₁ 8 = some (some h') ∧ Models h' t' ∧ t'.Valid ∧ t'.inorder = [4, 8]) ∧
    ∃ N, ∀ fuel ≥ N, ∃ h' t', rbErase fuel oneNode 4 = some (some h') ∧ Models h' t' ∧ t'.Valid ∧
      t'.inorder = [] := by
  have hvalid : (RbTree.node false .nil 4 .nil).Valid := ⟨1, .black .nil .nil⟩
  obtain ⟨hinsert, herase⟩ := redBlack_kept oneNode_models hvalid
  refine ⟨oneNode_models, hvalid, ?_, herase 4 (by decide)⟩
  obtain ⟨h₁, e₁, N, hN⟩ := hinsert [⟨.right, false, 4, .nil⟩] 8 ⟨0, 0, 0⟩ rfl
    ⟨rfl, by decide, by decide⟩ (by decide)
  refine ⟨h₁, e₁, N, fun fuel hfuel => ?_⟩
  obtain ⟨h', t', e', H', hv, -, hitems⟩ := hN fuel hfuel
  exact ⟨h', t', e', H', hv, hitems⟩

end VDLinux.Lib.Rbtree
