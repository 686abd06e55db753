import VDLinux.Kernel.Resource
import VDLinux.Base.IntervalForest
import VDLinux.Base.Separation

namespace VDLinux.Kernel.Resources

open Base.IntervalForest Base.Separation Base.Halting List

def Heap.read (h : Heap) (a : ℕ) : Option Resource := h a

def Cell (h : Heap) (a : ℕ) (r : Resource) : Prop := h a = some r ∧ a ≠ 0

/-- The first of a row, or what comes after an empty one. -/
def addrOr (x : ℕ) : Forest → ℕ
  | .nil => x
  | .node a _ _ _ _ => a

/-- The descriptors of a row below `p` that goes on with `x`, with every link. -/
def RepSeg (h : Heap) : ℕ → ℕ → Forest → Prop
  | _, _, .nil => True
  | p, x, .node a s e c n =>
    Cell h a ⟨s, e, p, addrOr x n, addrOr 0 c⟩ ∧ RepSeg h a 0 c ∧ RepSeg h p x n

def parentOf : Path → ℕ
  | [] => 0
  | .below a _ _ _ :: _ => a
  | .beside _ _ _ _ :: k => parentOf k

/-- The descriptors around a row that begins with `x`. -/
def RepPath (h : Heap) : ℕ → Path → Prop
  | _, [] => True
  | x, .below a s e n :: k =>
    Cell h a ⟨s, e, parentOf k, addrOr 0 n, x⟩ ∧ RepSeg h (parentOf k) 0 n ∧ RepPath h a k
  | x, .beside a s e c :: k =>
    Cell h a ⟨s, e, parentOf k, x, addrOr 0 c⟩ ∧ RepSeg h a 0 c ∧ RepPath h a k

section Pieces

variable {h h' : Heap} {p x a : ℕ} {F G : Forest} {k : Path}

theorem Cell.congr {r : Resource} (heq : h' a = h a) (hc : Cell h a r) : Cell h' a r :=
  ⟨heq.trans hc.1, hc.2⟩

theorem RepSeg.congr (heq : ∀ a ∈ F.ids, h' a = h a) (hF : RepSeg h p x F) : RepSeg h' p x F := by
  induction F generalizing p x with
  | nil => exact True.intro
  | node a s e c n ihc ihn =>
    obtain ⟨hcell, hc, hn⟩ := hF
    simp only [Forest.ids, mem_cons, mem_append] at heq
    exact ⟨hcell.congr (heq a (.inl rfl)), ihc (fun b hb => heq b (.inr (.inl hb))) hc,
      ihn (fun b hb => heq b (.inr (.inr hb))) hn⟩

theorem RepPath.congr (heq : ∀ a ∈ k.ids, h' a = h a) (hk : RepPath h x k) : RepPath h' x k := by
  induction k generalizing x with
  | nil => exact True.intro
  | cons f k ih =>
    cases f with
    | below a s e n | beside a s e n =>
      obtain ⟨hcell, hn, hk⟩ := hk
      simp only [Path.ids, mem_cons, mem_append] at heq
      exact ⟨hcell.congr (heq a (.inl rfl)), hn.congr fun b hb => heq b (.inr (.inl hb)),
        ih (fun b hb => heq b (.inr (.inr hb))) hk⟩

def cell (a : ℕ) (r : Resource) : Piece Heap.read where
  footprint := {a}
  holds h := Cell h a r
  locality heq := Cell.congr (heq _ (Multiset.mem_singleton_self _))

def seg (p x : ℕ) (F : Forest) : Piece Heap.read where
  footprint := (F.ids : Multiset ℕ)
  holds h := RepSeg h p x F
  locality heq := RepSeg.congr fun a ha => heq a (Multiset.mem_coe.mpr ha)

def path (x : ℕ) (k : Path) : Piece Heap.read where
  footprint := (k.ids : Multiset ℕ)
  holds h := RepPath h x k
  locality heq := RepPath.congr fun a ha => heq a (Multiset.mem_coe.mpr ha)

def spare (a : ℕ) : Piece Heap.read where
  footprint := {a}
  holds h := ∃ s e y, Cell h a ⟨s, e, 0, y, 0⟩
  locality heq := by
    rintro ⟨s, e, y, hc⟩
    exact ⟨s, e, y, hc.congr (heq _ (Multiset.mem_singleton_self _))⟩

theorem addrOr_append (x : ℕ) (F G : Forest) : addrOr x (F ++ G) = addrOr (addrOr x G) F := by
  cases F <;> rfl

theorem repSeg_append : RepSeg h p x (F ++ G) ↔ RepSeg h p (addrOr x G) F ∧ RepSeg h p x G := by
  induction F with
  | nil => simp [RepSeg]
  | node a s e c n _ ih =>
    simp only [Forest.node_append, RepSeg, addrOr_append, ih, and_assoc]

end Pieces

section Cut

variable {h : Heap} {rest : Multiset (Piece Heap.read)} {p x a s e : ℕ} {c n F G : Forest} {k : Path}

theorem separate_node : Separate h ({seg p x (.node a s e c n)} + rest) ↔
    Separate h ({cell a ⟨s, e, p, addrOr x n, addrOr 0 c⟩} + ({seg a 0 c} + ({seg p x n} + rest))) := by
  refine separate_cut₃ (fun _ => Iff.rfl) ?_
  simp only [seg, cell, Forest.ids, ← Multiset.cons_coe, ← Multiset.coe_add, ← Multiset.singleton_add]

theorem separate_append : Separate h ({seg p x (F ++ G)} + rest) ↔
    Separate h ({seg p (addrOr x G) F} + ({seg p x G} + rest)) := by
  rw [← add_assoc]
  refine separate_cut (fun h => ?_) ?_
  · simp only [Multiset.mem_add, Multiset.mem_singleton, forall_eq_or_imp, forall_eq]
    exact repSeg_append
  · simp only [footprint_add, footprint_singleton]
    simp only [seg, Forest.ids_append, ← Multiset.coe_add]

theorem separate_below : Separate h ({path x (.below a s e n :: k)} + rest) ↔
    Separate h ({cell a ⟨s, e, parentOf k, addrOr 0 n, x⟩} + ({seg (parentOf k) 0 n} +
      ({path a k} + rest))) := by
  refine separate_cut₃ (fun _ => Iff.rfl) ?_
  simp only [seg, cell, path, Path.ids, ← Multiset.cons_coe, ← Multiset.coe_add, ← Multiset.singleton_add]

theorem separate_beside : Separate h ({path x (.beside a s e c :: k)} + rest) ↔
    Separate h ({cell a ⟨s, e, parentOf k, x, addrOr 0 c⟩} + ({seg a 0 c} + ({path a k} + rest))) := by
  refine separate_cut₃ (fun _ => Iff.rfl) ?_
  simp only [seg, cell, path, Path.ids, ← Multiset.cons_coe, ← Multiset.coe_add, ← Multiset.singleton_add]

end Cut

/-- The heap has the row `F` in the place that `k` leads up from, and the other pieces. -/
def At (h : Heap) (k : Path) (F : Forest) (rest : Multiset (Piece Heap.read)) : Prop :=
  Separate h ({path (addrOr 0 F) k} + ({seg (parentOf k) 0 F} + rest))

section Places

variable {h : Heap} {rest : Multiset (Piece Heap.read)} {p x a s e : ℕ} {c n F G : Forest} {j k : Path}

theorem At.repSeg (H : At h k F rest) : RepSeg h (parentOf k) 0 F :=
  Separate.holds H (seg (parentOf k) 0 F) (by simp)

theorem at_node : At h k (.node a s e c n) rest ↔
    Separate h ({cell a ⟨s, e, parentOf k, addrOr 0 n, addrOr 0 c⟩} +
      ({seg a 0 c} + ({seg (parentOf k) 0 n} + ({path a k} + rest)))) :=
  ⟨fun H => separate_node.mp (Separate.second H), fun H => Separate.second (separate_node.mpr H)⟩

theorem at_cons {f : Frame} : At h (f :: k) F rest ↔ At h k (f.fill F) rest := by
  cases f with
  | below a s e n =>
    rw [At, separate_below, Frame.fill, at_node, parentOf]
    constructor <;> intro H <;> exact H.reorder (by abel)
  | beside a s e c =>
    rw [At, separate_beside, Frame.fill, at_node, parentOf]
    constructor <;> intro H <;> exact H.reorder (by abel)

theorem at_append : At h (j ++ k) F rest ↔ At h k (j.fill F) rest := by
  induction j generalizing F with
  | nil => rfl
  | cons f j ih => exact at_cons.trans ih

theorem at_fill : At h [] (k.fill F) rest ↔ At h k F rest := by
  rw [← at_append, append_nil]

/-- The frames of a row that another one comes after. -/
def besides : Forest → Path → Path
  | .nil, k => k
  | .node a s e c n, k => besides n (.beside a s e c :: k)

theorem at_besides : At h (besides F k) G rest ↔ At h k (F ++ G) rest := by
  induction F generalizing k with
  | nil => rfl
  | node a s e c n _ ih => exact ih.trans at_cons

theorem fill_besides (F G : Forest) (k : Path) : (besides F k).fill G = k.fill (F ++ G) := by
  induction F generalizing k with
  | nil => rfl
  | node a s e c n _ ih => exact ih _

theorem at_below : At h (.below a s e n :: k) F rest ↔
    Separate h ({cell a ⟨s, e, parentOf k, addrOr 0 n, addrOr 0 F⟩} +
      ({seg a 0 F} + ({seg (parentOf k) 0 n} + ({path a k} + rest)))) :=
  at_cons.trans at_node

theorem at_row_cut : At h (.below a s e n :: k) (F ++ G) rest ↔
    Separate h ({cell a ⟨s, e, parentOf k, addrOr 0 n, addrOr (addrOr 0 G) F⟩} +
      ({seg a (addrOr 0 G) F} + ({seg a 0 G} + ({path a k} + ({seg (parentOf k) 0 n} + rest))))) := by
  rw [at_below, addrOr_append, add_left_comm, separate_append]
  constructor <;> intro H <;> exact H.reorder (by abel)

end Places

section Links

variable {h : Heap} {rest : Multiset (Piece Heap.read)} {p x y a s e : ℕ} {r : Resource}
  {c n A F : Forest} {l : Link}

theorem load_eq (hc : Cell h a r) : load h a = .ok r := by rw [load, hc.1]

theorem modify_cell (H : Separate h ({cell a r} + rest)) (f : Resource → Resource) :
    ∃ h', modify h a f = .ok h' ∧ Separate h' ({cell a (f r)} + rest) := by
  have hc : Cell h a r := H.head
  refine ⟨Function.update h a (some (f r)), by rw [modify, load_eq hc]; rfl, ?_⟩
  refine H.write ⟨Function.update_self a _ h, hc.2⟩ rfl fun b hb => ?_
  exact Function.update_of_ne (fun heq => hb (Multiset.mem_singleton.mpr heq)) _ h

theorem At.other {k : Path} {p : Piece Heap.read} (H : At h k F ({p} + rest)) : p.holds h :=
  Separate.holds H p (by simp)

theorem At.modify_other {k : Path} (H : At h k F ({cell a r} + rest)) (f : Resource → Resource) :
    ∃ h', modify h a f = .ok h' ∧ At h' k F ({cell a (f r)} + rest) := by
  obtain ⟨h', hmod, H'⟩ := modify_cell (Separate.third H) f
  exact ⟨h', hmod, H'.third.third⟩

def lastLink (l : Link) : Forest → Link
  | .nil => l
  | .node a _ _ _ n => lastLink (.sibling a) n

theorem loadLink_lastLink (hl : loadLink h l = .ok (addrOr x A)) (hA : RepSeg h p x A) :
    loadLink h (lastLink l A) = .ok x := by
  induction A generalizing l with
  | nil => exact hl
  | node a s e c n _ ih =>
    obtain ⟨hc, -, hn⟩ := hA
    refine ih ?_ hn
    rw [loadLink, load_eq hc]
    rfl

theorem storeLink_row (H : Separate h ({seg p x (.node a s e c n)} + rest)) (y : ℕ) :
    ∃ h', storeLink h (lastLink (.sibling a) n) y = .ok h' ∧
      Separate h' ({seg p y (.node a s e c n)} + rest) := by
  induction n generalizing a s e c rest with
  | nil =>
    obtain ⟨h', hmod, H'⟩ := modify_cell (separate_node.mp H) ({ · with sibling := y })
    have H' := H'.third.swap (q := seg p y .nil) True.intro rfl
    exact ⟨h', hmod, separate_node.mpr H'.third.third⟩
  | node b t u d m _ ih =>
    obtain ⟨h', hmod, H'⟩ := ih (separate_node.mp H).third
    exact ⟨h', hmod, separate_node.mpr H'.third.third⟩

theorem storeLink_lastLink {q z : ℕ}
    (H : Separate h ({cell p ⟨s, e, q, z, addrOr x A⟩} + ({seg p x A} + rest))) (y : ℕ) :
    ∃ h', storeLink h (lastLink (.child p) A) y = .ok h' ∧
      Separate h' ({cell p ⟨s, e, q, z, addrOr y A⟩} + ({seg p y A} + rest)) := by
  cases A with
  | nil =>
    obtain ⟨h', hmod, H'⟩ := modify_cell H ({ · with child := y })
    have H' := H'.second.swap (q := seg p y .nil) True.intro rfl
    exact ⟨h', hmod, H'.second⟩
  | node a t u d m =>
    obtain ⟨h', hmod, H'⟩ := storeLink_row H.second y
    exact ⟨h', hmod, H'.second⟩

end Links

section Walks

variable {h : Heap} {p x a s e : ℕ} {r : Resource} {c n A F : Forest} {l : Link} {fuel : ℕ}

def rowLength (F : Forest) : ℕ := F.tops.length

theorem rowLength_next (hfuel : rowLength (.node a s e c n) < fuel) : rowLength n < fuel - 1 := by
  simp only [rowLength, Forest.tops, length_cons] at hfuel ⊢
  omega

/-- The walk of `__request_resource` stops at the first resource that does not end before the range. -/
theorem requestWalk (start «end» : ℕ) (hl : loadLink h l = .ok (addrOr 0 F)) (hF : RepSeg h p 0 F)
    (hfuel : rowLength F < fuel) :
    ∃ A B, F = A ++ B ∧ (∀ r ∈ A.tops, r.2 < start) ∧
      (B.After «end» ∧ loop (requestStep h start «end») .fuel fuel l =
          .ok (.vacant (lastLink l A) (addrOr 0 B)) ∨
        ∃ b s e c n, B = .node b s e c n ∧ s ≤ «end» ∧ start ≤ e ∧
          loop (requestStep h start «end») .fuel fuel l = .ok (.conflict b)) := by
  induction F generalizing l fuel with
  | nil =>
    refine ⟨.nil, .nil, rfl, by simp [Forest.tops], .inl ⟨True.intro, loop_done ?_ (by omega)⟩⟩
    simp [requestStep, hl, addrOr, bind, Except.bind, lastLink]
  | node a s e c n _ ih =>
    obtain ⟨hc, -, hn⟩ := hF
    have hstep : requestStep h start «end» l = if «end» < s then .ok (.inr (.vacant l a))
        else if e < start then .ok (.inl (.sibling a)) else .ok (.inr (.conflict a)) := by
      simp [requestStep, hl, addrOr, load_eq hc, hc.2, bind, Except.bind]
    by_cases hafter : «end» < s
    · refine ⟨.nil, _, rfl, by simp [Forest.tops], .inl ⟨hafter, loop_done ?_ (by omega)⟩⟩
      rw [hstep, if_pos hafter]
      rfl
    · by_cases hbefore : e < start
      · have hlink : loadLink h (.sibling a) = .ok (addrOr 0 n) := by
          rw [loadLink, load_eq hc]
          rfl
        obtain ⟨A, B, rfl, hA, hB⟩ := ih hlink hn (rowLength_next hfuel)
        rw [if_neg hafter, if_pos hbefore] at hstep
        refine ⟨.node a s e c A, B, rfl, by simpa [Forest.tops, hbefore] using hA, ?_⟩
        rw [loop_next hstep (by omega)]
        exact hB
      · refine ⟨.nil, _, rfl, by simp [Forest.tops], .inr ⟨a, s, e, c, n, rfl, by omega, by omega,
          loop_done ?_ (by omega)⟩⟩
        rw [hstep, if_neg hafter, if_neg hbefore]

theorem previousWalk (hA : RepSeg h p x (.node a s e c n)) (hx : x ∉ (Forest.node a s e c n).ids)
    (hfuel : rowLength (.node a s e c n) < fuel) :
    ∃ b t u d, loop (previousStep h x) .fuel fuel a = .ok b ∧ lastLink (.sibling a) n = .sibling b ∧
      Cell h b ⟨t, u, p, x, addrOr 0 d⟩ ∧ (t, u) ∈ (Forest.node a s e c n).tops ∧
      ∀ lo, (Forest.node a s e c n).bound lo = u + 1 := by
  induction n generalizing a s e c fuel with
  | nil =>
    obtain ⟨hc, -, -⟩ := hA
    refine ⟨a, s, e, c, loop_done ?_ (by omega), rfl, hc, by simp [Forest.tops], fun lo => rfl⟩
    simp [previousStep, load_eq hc, bind, Except.bind, addrOr]
  | node b t u d m _ ih =>
    obtain ⟨hc, -, hn⟩ := hA
    simp only [Forest.ids, mem_cons, mem_append, not_or] at hx
    have hstep : previousStep h x a = .ok (.inl b) := by
      have hne : ¬b = x := fun heq => hx.2.2.1 heq.symm
      simp [previousStep, load_eq hc, bind, Except.bind, addrOr, hne]
    obtain ⟨b', t', u', d', hloop, hlast, hcell, hmem, hbound⟩ :=
      ih hn (by simp only [Forest.ids, mem_cons, mem_append, not_or]; exact hx.2.2)
        (rowLength_next hfuel)
    refine ⟨b', t', u', d', ?_, hlast, hcell, ?_, fun lo => hbound (e + 1)⟩
    · rw [loop_next hstep (by omega)]
      exact hloop
    · exact mem_cons_of_mem _ hmem

end Walks

end VDLinux.Kernel.Resources
