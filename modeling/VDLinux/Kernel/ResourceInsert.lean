import VDLinux.Kernel.ResourceForest

namespace VDLinux.Kernel.Resources

open Base.Halting Base.IntervalForest Base.Separation List

section Request

variable {h : Heap} {rest : Multiset (Piece Heap.read)} {k : Path} {C N A B : Forest}
  {P s e new start «end» q y fuel : ℕ}

theorem separate_nil {ps : Multiset (Piece Heap.read)} (p x : ℕ) (H : Separate h ps) :
    Separate h ({seg p x .nil} + ps) :=
  H.cons True.intro Multiset.nodup_zero fun _ ha => absurd ha (Multiset.notMem_zero _)

theorem at_node_between (H : Separate h ({cell P ⟨s, e, parentOf k, addrOr 0 N, addrOr new A⟩} + ({seg P new A} +
      ({cell new ⟨start, «end», P, addrOr 0 B, addrOr 0 C⟩} + ({seg new 0 C} + ({seg P 0 B} +
        ({path P k} + ({seg (parentOf k) 0 N} + rest)))))))) :
    At h (.below P s e N :: k) (A ++ .node new start «end» C B) rest := by
  refine at_row_cut.mpr (Separate.third (Separate.third (separate_node.mpr ?_)))
  exact H.reorder (by simp only [addrOr]; abel)

theorem requestResourceLocked_outside {n r : Resource} (hn : Cell h new n) (hr : Cell h P r)
    (hnot : ¬(n.start ≤ n.end ∧ r.start ≤ n.start ∧ n.end ≤ r.end)) :
    requestResourceLocked fuel h P new = .ok (h, P) := by
  simp only [requestResourceLocked, load_eq hn, load_eq hr, bind, Except.bind]
  split_ifs <;> first | rfl | omega

theorem requestResourceLocked_spec
    (H : At h (.below P s e N :: k) C ({cell new ⟨start, «end», q, y, 0⟩} + rest))
    (hfuel : rowLength C < fuel) :
    (¬(start ≤ «end» ∧ s ≤ start ∧ «end» ≤ e) ∧ requestResourceLocked fuel h P new = .ok (h, P)) ∨
    (start ≤ «end» ∧ s ≤ start ∧ «end» ≤ e) ∧ ∃ A B, C = A ++ B ∧ (∀ r ∈ A.tops, r.2 < start) ∧
      (B.After «end» ∧ (∃ h', requestResourceLocked fuel h P new = .ok (h', 0) ∧
          At h' (.below P s e N :: k) (A ++ .node new start «end» .nil B) rest) ∨
        ∃ b t u d m, B = .node b t u d m ∧ t ≤ «end» ∧ start ≤ u ∧
          requestResourceLocked fuel h P new = .ok (h, b)) := by
  have hP : Cell h P ⟨s, e, parentOf k, addrOr 0 N, addrOr 0 C⟩ := (at_below.mp H).head
  have hn : Cell h new ⟨start, «end», q, y, 0⟩ := H.other
  by_cases hfit : start ≤ «end» ∧ s ≤ start ∧ «end» ≤ e
  · refine .inr ⟨hfit, ?_⟩
    have hlink : loadLink h (.child P) = .ok (addrOr 0 C) := by
      rw [loadLink, load_eq hP]
      rfl
    obtain ⟨A, B, rfl, hA, hB⟩ := requestWalk start «end» hlink H.repSeg hfuel
    refine ⟨A, B, rfl, hA, ?_⟩
    have h₁ : ¬«end» < start := by omega
    have h₂ : ¬start < s := by omega
    have h₃ : ¬e < «end» := by omega
    obtain ⟨hafter, hloop⟩ | ⟨b, t, u, d, m, rfl, ht, hu, hloop⟩ := hB
    · refine .inl ⟨hafter, ?_⟩
      -- the sibling of the new resource, the link to it and its parent
      obtain ⟨h₄, e₄, H₄⟩ := H.modify_other ({ · with sibling := addrOr 0 B })
      obtain ⟨h₅, e₅, H₅⟩ := storeLink_lastLink (at_row_cut.mp H₄) new
      have H₅ : Separate h₅ ({cell new ⟨start, «end», q, addrOr 0 B, 0⟩} +
          ({cell P ⟨s, e, parentOf k, addrOr 0 N, addrOr new A⟩} + ({seg P new A} + ({seg P 0 B} +
            ({path P k} + ({seg (parentOf k) 0 N} + rest)))))) := H₅.reorder (by abel)
      obtain ⟨h₆, e₆, H₆⟩ := modify_cell H₅ ({ · with parent := P })
      refine ⟨h₆, ?_, at_node_between ((separate_nil new 0 H₆).reorder ?_)⟩
      · simp only [requestResourceLocked, load_eq hn, load_eq hP, bind, Except.bind, if_neg h₁, if_neg h₂,
          if_neg h₃, hloop, e₄, e₅, e₆]
      · simp only [addrOr]
        abel
    · refine .inr ⟨b, t, u, d, m, rfl, ht, hu, ?_⟩
      simp only [requestResourceLocked, load_eq hn, load_eq hP, bind, Except.bind, if_neg h₁, if_neg h₂,
        if_neg h₃, hloop]
  · exact .inl ⟨hfit, requestResourceLocked_outside hn hP hfit⟩

end Request

section Descend

variable {h : Heap} {rest : Multiset (Piece Heap.read)} {k K : Path} {C N N' A B T : Forest}
  {P P' s s' e e' new start «end» q y fuel : ℕ}

/-- A place for the range `[start, end]` in a tree: the row below `P`, cut where the range would be. -/
structure Spot (T : Forest) (start «end» P s e : ℕ) (N : Forest) (K : Path) (A B : Forest) : Prop where
  fill_eq : T = Path.fill (.below P s e N :: K) (A ++ B)
  fits : s ≤ start ∧ «end» ≤ e
  before : ∀ r ∈ A.tops, r.2 < start
  nested : (A ++ B).Nested s e

theorem At.nodup (H : At h k C rest) : C.ids.Nodup := by
  have hn := Separate.nodup H
  simp only [footprint_add, footprint_singleton, seg] at hn
  exact Multiset.coe_nodup.mp (Multiset.nodup_add.mp (Multiset.nodup_add.mp hn).2.1).1

theorem At.notMem (H : At h (.below P s e N :: k) C rest) : P ∉ C.ids := by
  have hn := (at_below.mp H).nodup
  simp only [footprint_add, footprint_singleton, cell, seg] at hn
  have hdisj := (Multiset.nodup_add.mp hn).2.2
  intro hmem
  exact Multiset.disjoint_left.mp hdisj (Multiset.mem_singleton_self P)
    (Multiset.mem_add.mpr (.inl (Multiset.mem_coe.mpr hmem)))

theorem at_below_row {b t u : ℕ} {d m : Forest} :
    At h (.below P s e N :: k) (A ++ .node b t u d m) rest ↔
      At h (.below b t u m :: besides A (.below P s e N :: k)) d rest := by
  exact at_besides.symm.trans (at_cons (f := .below b t u m)).symm

theorem descend_spec {inner : ℕ}
    (H : At h (.below P s e N :: k) C ({cell new ⟨start, «end», q, y, 0⟩} + rest))
    (hC : C.Nested s e) (hvalid : start ≤ «end») (hfit : s ≤ start ∧ «end» ≤ e)
    (hinner : C.ids.length < inner) (hfuel : C.ids.length < fuel) :
    ∃ P' s' e' N' K A B, Spot (Path.fill (.below P s e N :: k) C) start «end» P' s' e' N' K A B ∧
      s ≤ s' ∧ e' ≤ e ∧ (∀ i ∈ (A ++ B).ids, i ∈ C.ids) ∧
      (B.After «end» ∧ (∃ h', loop (descendStep inner h new) .fuel fuel P = .ok (.linked h') ∧
          At h' (.below P' s' e' N' :: K) (A ++ .node new start «end» .nil B) rest) ∨
        ∃ b t u d m, B = .node b t u d m ∧ t ≤ «end» ∧ start ≤ u ∧
          loop (descendStep inner h new) .fuel fuel P = .ok (.above P' b)) := by
  induction hsize : C.ids.length using Nat.strong_induction_on generalizing P s e N k C fuel with
  | _ size ih =>
    have hlen : rowLength C < inner := lt_of_le_of_lt C.tops_length_le hinner
    obtain ⟨hnot, -⟩ | ⟨-, A, B, rfl, hA, hB⟩ := requestResourceLocked_spec H hlen
    · exact absurd ⟨hvalid, hfit⟩ hnot
    · have hspot : Spot (Path.fill (.below P s e N :: k) (A ++ B)) start «end» P s e N k A B :=
        ⟨rfl, hfit, hA, hC⟩
      obtain ⟨hafter, h', hreq, H'⟩ | ⟨b, t, u, d, m, rfl, ht, hu, hreq⟩ := hB
      · refine ⟨P, s, e, N, k, A, B, hspot, le_rfl, le_rfl, fun i hi => hi,
          .inl ⟨hafter, h', loop_done ?_ (by omega), H'⟩⟩
        simp [descendStep, hreq, bind, Except.bind]
      · -- the resource `b` is in the way: it holds the range, or the search ends here
        have hbelow := at_below_row.mp H
        have hb : Cell h b ⟨t, u, _, _, _⟩ := (at_below.mp hbelow).head
        have hn : Cell h new ⟨start, «end», q, y, 0⟩ := H.other
        have hne : b ≠ P := by
          rintro rfl
          exact H.notMem (by simp [Forest.ids])
        have hstep : descendStep inner h new P =
            if start < t ∨ u < «end» then .ok (.inr (.above P b))
            else if t = start ∧ u = «end» then .ok (.inr (.above P b)) else .ok (.inl b) := by
          simp [descendStep, hreq, bind, Except.bind, hb.2, hne, load_eq hb, load_eq hn]
        by_cases hin : ¬(start < t ∨ u < «end») ∧ ¬(t = start ∧ u = «end»)
        · rw [if_neg hin.1, if_neg hin.2] at hstep
          obtain ⟨hfirst, hrow⟩ := Forest.nested_append.mp hC
          obtain ⟨h₁, h₂, h₃, hd, -⟩ := hrow
          have hsub : ∀ i ∈ d.ids, i ∈ (A ++ .node b t u d m).ids := by
            intro i hi
            simp [Forest.ids, hi]
          have hlt : d.ids.length < (A ++ .node b t u d m).ids.length := by
            simp only [Forest.ids_append, Forest.ids, length_append, length_cons]
            omega
          obtain ⟨P', s', e', N', K, A', B', hspot', hs', he', hids, hres⟩ :=
            ih d.ids.length (by omega) hbelow hd (by omega) (by omega)
              (show d.ids.length < fuel - 1 by omega) rfl
          have hbound := hfirst.le_bound
          refine ⟨P', s', e', N', K, A', B', ?_, by omega, by omega, fun i hi => hsub i (hids i hi), ?_⟩
          · have hfill : Path.fill (.below P s e N :: k) (A ++ .node b t u d m) =
                Path.fill (.below b t u m :: besides A (.below P s e N :: k)) d :=
              (fill_besides A (.node b t u d m) (.below P s e N :: k)).symm
            rw [hfill]
            exact hspot'
          · rw [loop_next hstep (by omega)]
            exact hres
        · have hstop : descendStep inner h new P = .ok (.inr (.above P b)) := by
            rw [hstep]
            split_ifs with h₁ h₂
            · rfl
            · rfl
            · exact absurd ⟨h₁, h₂⟩ hin
          exact ⟨P, s, e, N, k, A, _, hspot, le_rfl, le_rfl, fun i hi => hi,
            .inr ⟨b, t, u, d, m, rfl, ht, hu, loop_done hstop (by omega)⟩⟩

end Descend

section Cover

variable {h : Heap} {rest : Multiset (Piece Heap.read)} {k : Path} {N A D F d m : Forest}
  {P p s e b t u x new start «end» q y z last fuel : ℕ}

/-- The second loop of `__insert_resource`: the row that the range covers, or a resource that it only
overlaps. -/
theorem coverWalk (hrow : RepSeg h p 0 (.node b t u d m)) (hn : Cell h new ⟨start, «end», q, y, z⟩)
    (hfuel : rowLength (.node b t u d m) < fuel) :
    (∃ c v w a f, loop (coverStep h new) .fuel fuel b = .ok (.conflict c) ∧
        c ∈ (Forest.node b t u d m).ids ∧ Cell h c ⟨v, w, p, a, f⟩ ∧ (v < start ∨ «end» < w) ∧
        (v, w) ∈ (Forest.node b t u d m).tops) ∨
    ∃ M D last, m = M ++ D ∧ (∀ r ∈ (Forest.node b t u d M).tops, start ≤ r.1 ∧ r.2 ≤ «end») ∧
      D.After «end» ∧ loop (coverStep h new) .fuel fuel b = .ok (.last last) ∧
      lastLink (.sibling b) M = .sibling last := by
  induction m generalizing b t u d fuel with
  | nil =>
    obtain ⟨hb, -, -⟩ := hrow
    have hstep : coverStep h new b = if t < start ∨ «end» < u then .ok (.inr (.conflict b))
        else .ok (.inr (.last b)) := by
      simp [coverStep, load_eq hb, load_eq hn, bind, Except.bind, addrOr]
    by_cases hpart : t < start ∨ «end» < u
    · rw [if_pos hpart] at hstep
      exact .inl ⟨b, t, u, _, _, loop_done hstep (by omega), by simp [Forest.ids], hb, hpart,
        by simp [Forest.tops]⟩
    · rw [if_neg hpart] at hstep
      refine .inr ⟨.nil, .nil, b, rfl, ?_, True.intro, loop_done hstep (by omega), rfl⟩
      simp only [Forest.tops, mem_singleton, forall_eq]
      omega
  | node b' t' u' d' m' _ ih =>
    obtain ⟨hb, -, hrow⟩ := hrow
    have hb' := hrow.1
    have hstep : coverStep h new b = if t < start ∨ «end» < u then .ok (.inr (.conflict b))
        else if «end» < t' then .ok (.inr (.last b)) else .ok (.inl b') := by
      simp [coverStep, load_eq hb, load_eq hn, bind, Except.bind, addrOr, hb'.2, load_eq hb']
    by_cases hpart : t < start ∨ «end» < u
    · rw [if_pos hpart] at hstep
      exact .inl ⟨b, t, u, _, _, loop_done hstep (by omega), by simp [Forest.ids], hb, hpart,
        by simp [Forest.tops]⟩
    · rw [if_neg hpart] at hstep
      by_cases hafter : «end» < t'
      · rw [if_pos hafter] at hstep
        refine .inr ⟨.nil, _, b, rfl, ?_, hafter, loop_done hstep (by omega), rfl⟩
        simp only [Forest.tops, mem_singleton, forall_eq]
        omega
      · rw [if_neg hafter] at hstep
        rw [loop_next hstep (by omega)]
        obtain ⟨c, v, w, a, f, hloop, hmem, hc, hvw, htop⟩ | ⟨M, D, last, rfl, hM, hD, hloop, hlast⟩ :=
          ih hrow (rowLength_next hfuel)
        · refine .inl ⟨c, v, w, a, f, hloop, ?_, hc, hvw, mem_cons_of_mem _ htop⟩
          exact mem_cons_of_mem _ (mem_append_right _ hmem)
        · refine .inr ⟨.node b' t' u' d' M, D, last, rfl, ?_, hD, hloop, hlast⟩
          intro r hr
          cases hr with
          | head =>
            omega
          | tail _ hr => exact hM r hr

theorem reparentWalk (H : Separate h ({seg p 0 F} + rest)) (hfuel : rowLength F < fuel) :
    ∃ h', loop (reparentStep q) .fuel fuel (h, addrOr 0 F) = .ok h' ∧
      Separate h' ({seg q 0 F} + rest) := by
  induction F generalizing h fuel rest with
  | nil =>
    exact ⟨h, loop_done rfl (by omega), H.swap True.intro rfl⟩
  | node a s e c n _ ih =>
    have H₀ := separate_node.mp H
    have ha0 : a ≠ 0 := H₀.head.2
    obtain ⟨h₁, e₁, H₁⟩ := modify_cell H₀ ({ · with parent := q })
    have ha : Cell h₁ a ⟨s, e, q, addrOr 0 n, addrOr 0 c⟩ := H₁.head
    obtain ⟨h₂, e₂, H₂⟩ := ih H₁.third (rowLength_next hfuel)
    refine ⟨h₂, ?_, separate_node.mpr H₂.third.third⟩
    have hstep : reparentStep q (h, a) = .ok (.inl (h₁, addrOr 0 n)) := by
      simp [reparentStep, ha0, e₁, load_eq ha, bind, Except.bind]
    rw [addrOr, loop_next hstep (by omega)]
    exact e₂

theorem load_last (hrow : RepSeg h p x (.node b t u d m)) (hlast : lastLink (.sibling b) m = .sibling last) :
    ∃ r, load h last = .ok r ∧ r.sibling = x := by
  have hlink : loadLink h (.sibling b) = .ok (addrOr x m) := by
    rw [loadLink, load_eq hrow.1]
    rfl
  have hload := loadLink_lastLink hlink hrow.2.2
  rw [hlast, loadLink] at hload
  cases hr : load h last with
  | error f => simp [hr, bind, Except.bind] at hload
  | ok r => exact ⟨r, rfl, by simpa [hr, bind, Except.bind] using hload⟩

theorem relink (new : ℕ) (hfuel : rowLength A < fuel)
    (H : Separate h ({cell P ⟨s, e, q, z, addrOr b A⟩} + ({seg P b A} + rest))) (hb : b ∉ A.ids) :
    ∃ h', (do
        let p ← load h P
        if p.child = b then modify h P ({ · with child := new })
        else
          let prev ← loop (previousStep h b) .fuel fuel p.child
          modify h prev ({ · with sibling := new })) = .ok h' ∧
      Separate h' ({cell P ⟨s, e, q, z, addrOr new A⟩} + ({seg P new A} + rest)) := by
  obtain ⟨h', hstore, H'⟩ := storeLink_lastLink H new
  have hP : Cell h P ⟨s, e, q, z, addrOr b A⟩ := H.head
  refine ⟨h', ?_, H'⟩
  cases A with
  | nil => simpa [load_eq hP, bind, Except.bind, addrOr, lastLink, storeLink] using hstore
  | node a t u d m =>
    obtain ⟨prev, -, -, -, hloop, hlast, -⟩ := previousWalk H.second.head hb hfuel
    have hab : a ≠ b := fun heq => hb (by simp [Forest.ids, heq])
    have hstore : modify h prev ({ · with sibling := new }) = .ok h' := by
      rw [lastLink, hlast] at hstore
      exact hstore
    simp [load_eq hP, bind, Except.bind, addrOr, hab, hloop, hstore]

theorem coverRow_spec (hlast : lastLink (.sibling b) m = .sibling last)
    (H : At h (.below P s e N :: k) (A ++ .node b t u d (m ++ D))
      ({cell new ⟨start, «end», q, y, 0⟩} + rest))
    (hfuel : (A ++ .node b t u d (m ++ D)).ids.length < fuel) :
    ∃ h', coverRow fuel h P new b last = .ok h' ∧
      At h' (.below P s e N :: k) (A ++ .node new start «end» (.node b t u d m) D) rest := by
  have hb : b ∉ A.ids := by
    have hn := H.nodup
    simp only [Forest.ids_append, Forest.ids] at hn
    intro hmem
    exact (nodup_append.mp hn).2.2 b hmem b mem_cons_self rfl
  obtain ⟨h₁, e₁, H₁⟩ := H.modify_other ({ · with parent := P })
  have hrow : RepSeg h₁ P (addrOr 0 D) (.node b t u d m) :=
    (repSeg_append.mp (repSeg_append.mp H₁.repSeg).2).1
  obtain ⟨r, hr, hsibling⟩ := load_last hrow hlast
  obtain ⟨h₂, e₂, H₂⟩ := H₁.modify_other ({ · with sibling := addrOr 0 D })
  obtain ⟨h₃, e₃, H₃⟩ := H₂.modify_other ({ · with child := b })
  have H₃ := (separate_append (F := .node b t u d m)).mp (at_row_cut.mp H₃).third
  -- the covered row ends here, and its resources get the new parent
  obtain ⟨h₄, e₄, H₄⟩ := storeLink_row H₃ 0
  rw [hlast] at e₄
  have hlen : rowLength (.node b t u d m) < fuel ∧ rowLength A < fuel := by
    have hA := A.tops_length_le
    have hm := (Forest.node b t u d m).tops_length_le
    simp only [rowLength, Forest.ids_append, Forest.ids, length_append, length_cons] at hfuel hA hm ⊢
    omega
  obtain ⟨h₅, e₅, H₅⟩ := reparentWalk (q := new) H₄ hlen.1
  have H₅ : Separate h₅ ({cell P ⟨s, e, parentOf k, addrOr 0 N, addrOr b A⟩} + ({seg P b A} +
      ({cell new ⟨start, «end», P, addrOr 0 D, b⟩} + ({seg new 0 (.node b t u d m)} + ({seg P 0 D} +
        ({path P k} + ({seg (parentOf k) 0 N} + rest))))))) := H₅.reorder (by simp only [addrOr]; abel)
  obtain ⟨h₆, e₆, H₆⟩ := relink new hlen.2 H₅ hb
  refine ⟨h₆, ?_, at_node_between H₆⟩
  have e₄ : modify h₃ last ({ · with sibling := 0 }) = .ok h₄ := e₄
  simp only [coverRow, e₁, hr, hsibling, e₂, e₃, e₄, bind, Except.bind]
  have e₅ : loop (reparentStep new) .fuel fuel (h₄, b) = .ok h₅ := e₅
  simp only [e₅]
  exact e₆

end Cover

section Insert

variable {h : Heap} {rest : Multiset (Piece Heap.read)} {k : Path} {C N : Forest}
  {P s e new start «end» q y fuel : ℕ}

def InRow (T : Forest) (res : ℕ) (d : Forest) : Prop :=
  ∃ P s e N k A t u m, T = Path.fill (.below P s e N :: k) (A ++ .node res t u d m)

/-- The tree `T` with the new resource in it, as the heap has it. -/
def Inserted (h : Heap) (T : Forest) (new : ℕ) (rest : Multiset (Piece Heap.read)) : Prop :=
  ∃ T', At h [] T' rest ∧ T'.ids.Perm (new :: T.ids) ∧ addrOr 0 T' = addrOr 0 T ∧ (∃ d, InRow T' new d) ∧
    (Rooted T → Rooted T')

theorem addrOr_fill_cons (f : Frame) (k : Path) (F G : Forest) :
    addrOr 0 (Path.fill (f :: k) F) = addrOr 0 (Path.fill (f :: k) G) := by
  induction k generalizing f F G with
  | nil => cases f <;> rfl
  | cons g k ih => exact ih g (f.fill F) (f.fill G)

theorem inserted_of_spot {h' : Heap} {T A M D N : Forest} {K : Path} (hspot : Spot T start «end» P s e N K A (M ++ D))
    (hvalid : start ≤ «end») (hM : ∀ r ∈ M.tops, start ≤ r.1 ∧ r.2 ≤ «end») (hD : D.After «end»)
    (H : At h' (.below P s e N :: K) (A ++ .node new start «end» M D) rest) : Inserted h' T new rest := by
  refine ⟨Path.fill (.below P s e N :: K) (A ++ .node new start «end» M D), at_fill.mpr H, ?_, ?_,
    ⟨M, P, s, e, N, K, A, start, «end», D, rfl⟩, ?_⟩
  · rw [hspot.fill_eq]
    refine (Path.ids_fill _ _).trans (.trans ?_ ((Path.ids_fill _ _).symm.cons new))
    simp only [Forest.ids_append, Forest.ids]
    grind
  · rw [hspot.fill_eq]
    exact addrOr_fill_cons _ _ _ _
  · intro hroot
    rw [hspot.fill_eq] at hroot
    obtain ⟨hnested, hfill⟩ := hroot.hole
    exact hfill _ (hnested.insert hspot.fits.1 hvalid hspot.fits.2 hspot.before hM hD)

/-- What `__insert_resource` does below `P`: the range does not fit, the new resource is in the tree, or a
resource inside the range of `P` overlaps it in part. -/
theorem insertResourceLocked_spec
    (H : At h (.below P s e N :: k) C ({cell new ⟨start, «end», q, y, 0⟩} + rest)) (hC : C.Nested s e)
    (hfuel : C.ids.length < fuel) :
    (¬(start ≤ «end» ∧ s ≤ start ∧ «end» ≤ e) ∧ insertResourceLocked fuel h P new = .ok (h, P)) ∨
    (start ≤ «end» ∧ s ≤ start ∧ «end» ≤ e) ∧
      ((∃ h', insertResourceLocked fuel h P new = .ok (h', 0) ∧
          Inserted h' (Path.fill (.below P s e N :: k) C) new rest) ∨
        ∃ c v w p a f, insertResourceLocked fuel h P new = .ok (h, c) ∧ c ≠ P ∧
          Cell h c ⟨v, w, p, a, f⟩ ∧ (v < start ∨ «end» < w) ∧ s ≤ v ∧ v ≤ w ∧ w ≤ e) := by
  have hlen : rowLength C < fuel := lt_of_le_of_lt C.tops_length_le hfuel
  by_cases hfit : start ≤ «end» ∧ s ≤ start ∧ «end» ≤ e
  · refine .inr ⟨hfit, ?_⟩
    obtain ⟨P', s', e', N', K, A, B, hspot, hs', he', hids, hres⟩ :=
      descend_spec H hC hfit.1 hfit.2 hfuel hfuel
    obtain ⟨hafter, h', hloop, H'⟩ | ⟨b, t, u, d, m, rfl, ht, hu, hloop⟩ := hres
    · refine .inl ⟨h', ?_, inserted_of_spot (M := .nil) hspot hfit.1 (by simp [Forest.tops]) hafter H'⟩
      simp [insertResourceLocked, hloop, bind, Except.bind]
    · have H' : At h (.below P' s' e' N' :: K) (A ++ .node b t u d m)
          ({cell new ⟨start, «end», q, y, 0⟩} + rest) := by
        rw [← at_fill, ← hspot.fill_eq]
        exact at_fill.mpr H
      have hsize : (A ++ .node b t u d m).ids.length ≤ C.ids.length :=
        (subperm_of_subset H'.nodup hids).length_le
      have hrow : RepSeg h P' 0 (.node b t u d m) := (repSeg_append.mp H'.repSeg).2
      have hlenB : rowLength (.node b t u d m) < fuel := by
        have hle := (Forest.node b t u d m).tops_length_le
        simp only [rowLength, Forest.ids_append, length_append] at hsize hle ⊢
        omega
      obtain ⟨c, v, w, a, f, hcover, hmem, hc, hvw, htop⟩ | ⟨M, D, last, rfl, hM, hD, hcover, hlast⟩ :=
        coverWalk hrow H'.other hlenB
      · have hin := hspot.nested.tops_mem (v, w) (by rw [Forest.tops_append]; exact mem_append_right _ htop)
        refine .inr ⟨c, v, w, P', a, f, ?_, ?_, hc, hvw, by omega, by omega, by omega⟩
        · simp [insertResourceLocked, hloop, hcover, bind, Except.bind]
        · rintro rfl
          exact H.notMem (hids c (by rw [Forest.ids_append]; exact mem_append_right _ hmem))
      · obtain ⟨h', hrowed, Hnew⟩ := coverRow_spec hlast H' (lt_of_le_of_lt hsize hfuel)
        refine .inl ⟨h', ?_, inserted_of_spot (M := .node b t u d M) hspot hfit.1 hM hD Hnew⟩
        simp [insertResourceLocked, hloop, hcover, hrowed, bind, Except.bind]
  · obtain ⟨-, hreq⟩ | ⟨hfit', -⟩ := requestResourceLocked_spec H hlen
    · refine .inl ⟨hfit, ?_⟩
      have hP : P ≠ 0 := (at_below.mp H).head.2
      have hstep : descendStep fuel h new P = .ok (.inr (.conflict P)) := by
        simp [descendStep, hreq, bind, Except.bind, hP]
      simp [insertResourceLocked, loop_done hstep (show 0 < fuel by omega), bind, Except.bind]
    · exact absurd hfit' hfit

end Insert

end VDLinux.Kernel.Resources
