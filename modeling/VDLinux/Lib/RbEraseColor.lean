import VDLinux.Lib.RbInsert

namespace VDLinux.Lib.Rbtree

open Base.Halting Base.SearchTree Base.Separation

section Halves

variable {h : Heap} {k : Path ℕ} {s t u x y z : RbTree ℕ} {d : Side} {c cp cx cy : Bool}
  {node parent other n p o b : ℕ}

theorem nullOrBlack_eq (H : At h k t) (ht : t.Balanced c n) : h.nullOrBlack (addr t) = some !c := by
  cases ht with
  | nil => rfl
  | _ =>
    obtain ⟨hn, -, h0⟩ := At.root_cell (d := .left) H
    simp [Heap.nullOrBlack, addr, h0, hn, rbIsBlack_record H.aligned]

theorem blackSibling_black (H : At h k (.join d cp t p (.join d false x o y))) :
    blackSibling d h p = some (h, o) := by
  obtain ⟨hp, -⟩ := H.root_cell
  obtain ⟨ho, -⟩ := H.far.root_cell
  have hred : (record p false d (addr x) (addr y)).rbIsRed = false := rbIsRed_record H.far.aligned
  have ho : h.nodes o = some (record p false d (addr x) (addr y)) := ho
  simp [blackSibling, hp, ho, hred]

theorem blackSibling_red (H : At h k (.join d cp t p (.join d true x o y))) :
    ∃ h', blackSibling d h p = some (h', addr x) ∧
      At h' (⟨d, false, o, y⟩ :: k) (.join d true t p x) := by
  obtain ⟨hp, -⟩ := H.root_cell
  obtain ⟨ho, -⟩ := H.far.root_cell
  have hred : (record p true d (addr x) (addr y)).rbIsRed = true := rbIsRed_record H.far.aligned
  have ho : h.nodes o = some (record p true d (addr x) (addr y)) := ho
  obtain ⟨h₁, e₁, H₁⟩ := H.far.setBlack
  have H₁ := H₁.up
  rw [RbTree.join_flip] at H₁
  obtain ⟨h₂, e₂, H₂⟩ := H₁.setRed
  obtain ⟨h₃, e₃, H₃⟩ := H₂.rotate
  obtain ⟨hp', -⟩ := H₃.near.root_cell
  refine ⟨h₃, ?_, H₃.near⟩
  simp [blackSibling, hp, ho, hred, e₁, e₂, e₃, hp']

theorem redNephew_far (H : At h k (.join d cp t p (.join d c x o y))) (hy : y.Balanced true n) :
    redNephew d h p o = some (h, o) := by
  obtain ⟨ho, -⟩ := H.far.root_cell
  have hnull : h.nullOrBlack (addr y) = some false := nullOrBlack_eq H.far.far hy
  simp [redNephew, ho, hnull]

theorem redNephew_near (H : At h k (.join d cp t p (.join d c (.join d true x b z) o y)))
    (hy : y.Balanced false n) :
    ∃ h', redNephew d h p o = some (h', b) ∧
      At h' k (.join d cp t p (.join d false x b (.join d true z o y))) := by
  obtain ⟨ho, -⟩ := H.far.root_cell
  have hnull : h.nullOrBlack (addr y) = some true := nullOrBlack_eq H.far.far hy
  obtain ⟨h₁, e₁, H₁⟩ := H.far.near.setBlack
  obtain ⟨h₂, e₂, H₂⟩ := H₁.up.setRed
  have H₂ : At h₂ (⟨d.flip, cp, p, t⟩ :: k) (.join d.flip true y o (.join d.flip false z b x)) := by
    rw [RbTree.join_flip, RbTree.join_flip]
    exact H₂
  obtain ⟨h₃, e₃, H₃⟩ := H₂.rotate
  rw [RbTree.join_flip, RbTree.join_flip] at H₃
  have H₃ := H₃.up
  rw [RbTree.join_flip] at H₃
  obtain ⟨hp, -⟩ := H₃.root_cell
  refine ⟨h₃, ?_, H₃⟩
  simp [redNephew, ho, hnull, e₁, e₂, e₃, hp]

theorem eraseRotate_spec (H : At h k (.join d cp t p (.join d c x o (.join d cy y b z)))) :
    ∃ h', eraseRotate d h p o = some h' ∧
      At h' k (.join d cp (.join d false t p x) o (.join d false y b z)) := by
  obtain ⟨hp, -⟩ := H.root_cell
  have hcolor : (record (parentAddr k) cp d (addr t) o).rbColor = colorBit cp := rbColor_record H.aligned
  obtain ⟨h₁, e₁, H₁⟩ : ∃ h', h.modify o (RbNode.rbSetColor · (colorBit cp)) = some h' ∧
      At h' (⟨d.flip, cp, p, t⟩ :: k) (.join d cp x o (.join d cy y b z)) :=
    H.far.recolor fun _ _ _ hq => rbSetColor_record hq
  have H₁ := H₁.up
  rw [RbTree.join_flip] at H₁
  obtain ⟨h₂, e₂, H₂⟩ := H₁.setBlack
  obtain ⟨ho, -⟩ := H₂.far.root_cell
  obtain ⟨h₃, e₃, H₃⟩ := H₂.far.far.setBlack
  have H₃ := H₃.up
  rw [RbTree.join_flip] at H₃
  have H₃ := H₃.up
  rw [RbTree.join_flip] at H₃
  obtain ⟨h₄, e₄, H₄⟩ := H₃.rotate
  refine ⟨h₄, ?_, H₄⟩
  simp [eraseRotate, hp, hcolor, e₁, e₂, ho, e₃, e₄]

end Halves

section EraseColor

variable {h : Heap} {k : Path ℕ} {s t x y : RbTree ℕ} {d : Side} {c cp cx cy : Bool} {n p o : ℕ}
  {items : List ℕ}

def blacken : RbTree ℕ → RbTree ℕ
  | .nil => .nil
  | .node _ l a r => .node false l a r

/-- A subtree with a red root that is in order once the root is black. -/
def RedTop (t : RbTree ℕ) (n : ℕ) : Prop :=
  (∃ d l a r, t = .join d true l a r) ∧ (blacken t).Balanced false (n + 1)

/-- The state of the loop: a subtree that is one black node short. Below a red sibling it goes down
before it ends, so that a red root is nearer to the end than a black one. -/
def Shortage (items : List ℕ) (m : ℕ) (s : EraseColor) : Prop :=
  ∃ k t n, At s.heap k t ∧ addr t = s.node ∧ parentAddr k = s.parent ∧ Path.Hole false (n + 1) k ∧
    (Path.fill k t).inorder = items ∧
    (t.Balanced false n ∧ m = 2 * k.length + 1 ∨ RedTop t n ∧ m = 2 * k.length)

/-- After the loop a black node makes the tree valid. -/
def EraseDone (items : List ℕ) : Option EraseColor → Prop
  | none => False
  | some s => ∃ k t, At s.heap k t ∧ addr t = s.node ∧ (Path.fill k (blacken t)).Valid ∧
      (Path.fill k t).inorder = items

theorem blacken_join : blacken (.join d c s p t) = .join d false s p t := by cases d <;> rfl

variable {h₀ : Heap}

variable (hsib : blackSibling d h₀ p = some (h, o))
include hsib

theorem eraseCase_eq (hx : x.Balanced cx n)
    (hy : y.Balanced cy n) (H : At h k (.join d cp t p (.join d false x o y))) :
    eraseCase d h₀ p = (if cx = false ∧ cy = false then do
        let h ← h.modify o RbNode.rbSetRed
        let n ← h.nodes p
        some (false, ⟨h, p, n.rbParent⟩)
      else do
        let (h, other) ← redNephew d h p o
        let h ← eraseRotate d h p other
        some (true, ⟨h, h.rbNode, p⟩)) := by
  obtain ⟨ho, -⟩ := H.far.root_cell
  have hnx : h.nullOrBlack (addr x) = some !cx := nullOrBlack_eq H.far.near hx
  have hny : h.nullOrBlack (addr y) = some !cy := nullOrBlack_eq H.far.far hy
  cases d <;> cases cx <;> cases cy <;> simp [eraseCase, hsib, ho, record, hnx, hny]

theorem eraseCase_break (ht : t.Balanced false n) (hx : x.Balanced cx n) (hy : y.Balanced cy n)
    (hred : ¬(cx = false ∧ cy = false)) (H : At h k (.join d cp t p (.join d false x o y))) :
    ∃ h' s₁ s₂ a, eraseCase d h₀ p = some (true, ⟨h', h'.rbNode, p⟩) ∧
      At h' k (.join d cp s₁ a s₂) ∧ s₁.Balanced false (n + 1) ∧ s₂.Balanced false (n + 1) ∧
      (RbTree.join d cp s₁ a s₂).inorder = (RbTree.join d cp t p (.join d false x o y)).inorder := by
  rw [eraseCase_eq hsib hx hy H, if_neg hred]
  cases cy with
  | true =>
    obtain ⟨l, b, r, rfl⟩ := hy.exists_join_red d
    obtain ⟨-, hl, hr⟩ := hy.of_join_red
    obtain ⟨h', e, H'⟩ := eraseRotate_spec H
    refine ⟨h', _, _, o, ?_, H', ht.join_black hx, hl.join_black hr, ?_⟩
    · simp [redNephew_far H hy, e]
    · cases d <;> simp [RbTree.join, RbTree.inorder]
  | false =>
    obtain rfl : cx = true := by simpa using hred
    obtain ⟨l, b, r, rfl⟩ := hx.exists_join_red d
    obtain ⟨-, hl, hr⟩ := hx.of_join_red
    obtain ⟨h₁, e₁, H₁⟩ := redNephew_near H hy
    obtain ⟨h', e, H'⟩ := eraseRotate_spec H₁
    refine ⟨h', _, _, b, ?_, H', ht.join_black hl, hr.join_black hy, ?_⟩
    · simp [e₁, e]
    · cases d <;> simp [RbTree.join, RbTree.inorder]

theorem eraseCase_up (hx : x.Balanced false n)
    (hy : y.Balanced false n) (H : At h k (.join d cp t p (.join d false x o y))) :
    ∃ h', eraseCase d h₀ p = some (false, ⟨h', p, parentAddr k⟩) ∧
      At h' k (.join d cp t p (.join d true x o y)) := by
  rw [eraseCase_eq hsib hx hy H, if_pos ⟨rfl, rfl⟩]
  obtain ⟨h', e, H'⟩ := H.far.setRed
  have H' := H'.up
  rw [RbTree.join_flip] at H'
  obtain ⟨hp, -⟩ := H'.root_cell
  refine ⟨h', ?_, H'⟩
  simp [e, hp, rbParent_record H'.aligned]

omit hsib

theorem root_mem_path {a : ℕ} {f : Frame ℕ} (hk : RepPath h a (f :: k)) :
    h.rbNode ∈ Path.before (f :: k) ++ Path.after (f :: k) ∧ h.rbNode ≠ 0 := by
  induction k generalizing a f with
  | nil =>
    obtain ⟨hc, -, hroot⟩ := hk
    rw [show h.rbNode = f.item from hroot]
    exact ⟨mem_path_cons.mpr (.inl rfl), hc.2.2⟩
  | cons g k ih =>
    obtain ⟨-, -, hk⟩ := hk
    exact ⟨mem_path_cons.mpr (.inr (.inr (ih hk).1)), (ih hk).2⟩

theorem At.addr_ne_root {f : Frame ℕ} (H : At h (f :: k) t) : addr t ≠ h.rbNode := by
  obtain ⟨hmem, h0⟩ := root_mem_path H.head
  intro heq
  by_cases ht : t = .nil
  · exact h0 (by rw [← heq, ht]; rfl)
  · exact H.notMem_path (addr_mem ht) (heq ▸ hmem)

theorem eraseDone_break {c' : Bool} (H : At h k t) (hk : Path.Hole c' n k) (ht : t.Balanced c' n)
    (hitems : (k.fill t).inorder = items) (parent : ℕ) :
    EraseDone items (some ⟨h, h.rbNode, parent⟩) := by
  obtain ⟨m, hm⟩ := hk.valid ht
  have hmodels := at_fill.mpr H
  have hroot : h.rbNode = addr (k.fill t) := Separate.head hmodels
  refine ⟨[], k.fill t, hmodels, hroot.symm, ⟨m, ?_⟩, hitems⟩
  revert hm
  cases k.fill t with
  | nil => exact id
  | node c l a r =>
    intro hm
    cases hm with
    | black hl hr => exact .black hl hr

theorem eraseCase_progress (hsib : blackSibling d h₀ p = some (h, addr s))
    (ht : t.Balanced false n) (hs : s.Balanced false (n + 1)) (H : At h k (.join d cp t p s))
    (hk : Path.Hole cp (n + if cp then 1 else 2) k)
    (hitems : (k.fill (.join d cp t p s)).inorder = items) :
    (∃ s', eraseCase d h₀ p = some (true, s') ∧ EraseDone items (some s')) ∨
      ∃ s', eraseCase d h₀ p = some (false, s') ∧
        Shortage items (2 * k.length + if cp then 0 else 1) s' := by
  obtain ⟨x, o, y, rfl⟩ := hs.exists_join_black d
  obtain ⟨-, m, cx, cy, hm, hx, hy⟩ := hs.of_join_black
  obtain rfl : n = m := by omega
  rw [addr_join] at hsib
  by_cases hboth : cx = false ∧ cy = false
  · right
    obtain ⟨rfl, rfl⟩ := hboth
    obtain ⟨h', e, H'⟩ := eraseCase_up hsib hx hy H
    have hbal := ht.join_black (d := d) (x := p) (hx.join_red (d := d) (x := o) hy)
    have hsame : (k.fill (.join d cp t p (.join d true x o y))).inorder = items := by
      rw [← hitems]
      refine Path.inorder_fill_congr ?_ k
      cases d <;> rfl
    cases cp with
    | true =>
      refine ⟨_, e, k, _, n, H', addr_join, rfl, hk.black_of_red, hsame, .inr ⟨⟨⟨d, _, _, _, rfl⟩, ?_⟩, rfl⟩⟩
      rw [blacken_join]
      exact hbal
    | false => exact ⟨_, e, k, _, n + 1, H', addr_join, rfl, hk, hsame, .inl ⟨hbal, rfl⟩⟩
  · left
    obtain ⟨h', s₁, s₂, a, e, H', h₁, h₂, hsame⟩ := eraseCase_break hsib ht hx hy hboth H
    have hfill := (Path.inorder_fill_congr hsame k).trans hitems
    cases cp with
    | true => exact ⟨_, e, eraseDone_break H' hk (h₁.join_red h₂) hfill p⟩
    | false => exact ⟨_, e, eraseDone_break H' hk (h₁.join_black h₂) hfill p⟩

theorem eraseIter_eq (ht : t.Balanced false n) (hs : s ≠ .nil) (H : At h k (.join d cp t p s)) :
    eraseIter ⟨h, addr t, p⟩ = eraseCase d h p := by
  have hroot : addr t ≠ h.rbNode := H.near.addr_ne_root
  have hblack : h.nullOrBlack (addr t) = some true := nullOrBlack_eq H.near ht
  obtain ⟨hp, -⟩ := H.root_cell
  have hne : addr t ≠ addr s := by
    rw [← RbTree.join_flip] at H
    exact (H.addr_ne hs).symm
  have hside : (if (record (parentAddr k) cp d (addr t) (addr s)).rbLeft = addr t then Side.left
      else .right) = d := by
    simpa only [eq_comm] using side_record (p := parentAddr k) (d := d) hne
  simp [eraseIter, hblack, hroot, hp, hside]

theorem eraseStep_of_case {s : EraseColor} {c : Option (Bool × EraseColor)} {m m' : ℕ} (hm : m' < m)
    (hiter : eraseIter s = c) (hcase : (∃ s', c = some (true, s') ∧ EraseDone items (some s')) ∨
      ∃ s', c = some (false, s') ∧ Shortage items m' s') :
    (∃ e, eraseStep s = .error e ∧ EraseDone items e) ∨
      ∃ s' m', eraseStep s = .ok s' ∧ m' < m ∧ Shortage items m' s' := by
  obtain ⟨s', rfl, hdone⟩ | ⟨s', rfl, hshort⟩ := hcase
  · exact .inl ⟨some s', by simp only [eraseStep, hiter], hdone⟩
  · exact .inr ⟨s', m', by simp only [eraseStep, hiter], hm, hshort⟩

theorem eraseStep_progress {m : ℕ} {s : EraseColor} (hs : Shortage items m s) :
    (∃ e, eraseStep s = .error e ∧ EraseDone items e) ∨
      ∃ s' m', eraseStep s = .ok s' ∧ m' < m ∧ Shortage items m' s' := by
  obtain ⟨h, node, parent⟩ := s
  obtain ⟨k, t, n, H, rfl, rfl, hk, hitems, ⟨ht, rfl⟩ | ⟨⟨⟨d, l, a, r, rfl⟩, hred⟩, rfl⟩⟩ := hs
  · cases hk with
    | top =>
      -- the shortage is that of the whole tree
      left
      have hroot : h.rbNode = addr t := Separate.head H
      have hvalid : (blacken t).Valid := by
        cases ht with
        | nil => exact ⟨_, .nil⟩
        | black hl hr => exact ⟨_, .black hl hr⟩
      have hblack : h.nullOrBlack (addr t) = some true := nullOrBlack_eq H ht
      refine ⟨some ⟨h, addr t, 0⟩, ?_, [], t, H, rfl, hvalid, hitems⟩
      simp [eraseStep, eraseIter, hroot, hblack, parentAddr]
    | @red _ d p s k hs hk =>
      obtain ⟨x, o, y, rfl⟩ := hs.exists_join_black d
      have hsib : blackSibling d h p = some (h, addr (.join d false x o y)) := by
        rw [addr_join]
        exact blackSibling_black H.up
      refine eraseStep_of_case ?_ (eraseIter_eq ht (by cases d <;> simp [RbTree.join]) H.up)
        (eraseCase_progress hsib ht hs H.up hk hitems)
      simp only [List.length_cons, if_true]
      omega
    | @black _ d p s k cs _ hs hk =>
      cases cs with
      | false =>
        obtain ⟨x, o, y, rfl⟩ := hs.exists_join_black d
        have hsib : blackSibling d h p = some (h, addr (.join d false x o y)) := by
          rw [addr_join]
          exact blackSibling_black H.up
        refine eraseStep_of_case ?_ (eraseIter_eq ht (by cases d <;> simp [RbTree.join]) H.up)
          (eraseCase_progress hsib ht hs H.up hk hitems)
        simp only [List.length_cons, Bool.false_eq_true, if_false]
        omega
      | true =>
        obtain ⟨x, o, y, rfl⟩ := hs.exists_join_red d
        obtain ⟨-, hx, hy⟩ := hs.of_join_red
        obtain ⟨h₁, hsib, H₁⟩ := blackSibling_red H.up
        have hsame : (Path.fill (⟨d, false, o, y⟩ :: k) (.join d true t p x)).inorder = items := by
          rw [← hitems]
          refine Path.inorder_fill_congr ?_ k
          exact RbTree.inorder_rotate d _ _ _ _ t x y p o
        refine eraseStep_of_case ?_ (eraseIter_eq ht (by cases d <;> simp [RbTree.join]) H.up)
          (eraseCase_progress hsib ht hx H₁ (.black hy hk) hsame)
        simp only [List.length_cons, if_true]
        omega
  · left
    have H : At h k (.join d true l a r) := H
    obtain ⟨hn, -, h0⟩ := H.root_cell
    refine ⟨some ⟨h, a, parentAddr k⟩, ?_, k, _, H, addr_join, hk.valid hred, hitems⟩
    simp [eraseStep, eraseIter, Heap.nullOrBlack, hn, h0, rbIsBlack_record H.aligned]

theorem addr_eq_zero (H : At h k t) : addr t = 0 ↔ t = .nil := by
  cases t with
  | nil => exact ⟨fun _ => rfl, fun _ => rfl⟩
  | node c l a r =>
    obtain ⟨-, -, h0⟩ := At.root_cell (d := .left) H
    simpa [addr] using h0

theorem rbEraseColor_spec {m fuel node parent : ℕ} (hs : Shortage items m ⟨h, node, parent⟩)
    (hfuel : m < fuel) : ∃ h' t', rbEraseColor fuel h node parent = some (some h') ∧ Models h' t' ∧
      t'.Valid ∧ t'.inorder = items := by
  obtain ⟨e, hrun, hdone⟩ := runFor_progress (Shortage items) (EraseDone items)
    (fun _ _ hs => eraseStep_progress hs) hs hfuel
  cases e with
  | none => exact hdone.elim
  | some s =>
    obtain ⟨k, t, H, haddr, hvalid, hitems⟩ := hdone
    by_cases h0 : s.node = 0
    · obtain rfl := (addr_eq_zero H).mp (haddr.trans h0)
      exact ⟨s.heap, _, by simp [rbEraseColor, hrun, h0], at_fill.mpr H, hvalid, hitems⟩
    · cases t with
      | nil => exact absurd haddr.symm h0
      | node c l a r =>
        obtain ⟨h', e', H'⟩ := At.setBlack (d := .left) H
        have hnode : s.node = a := haddr.symm
        refine ⟨h', _, ?_, at_fill.mpr H', hvalid, ?_⟩
        · rw [hnode] at h0
          simp [rbEraseColor, hrun, hnode, h0, e']
        · rw [← hitems]
          refine Path.inorder_fill_congr ?_ k
          rfl

end EraseColor

end VDLinux.Lib.Rbtree
