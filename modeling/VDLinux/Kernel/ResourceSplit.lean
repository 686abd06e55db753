import VDLinux.Kernel.ResourceRuns

namespace VDLinux.Kernel.Resources

open Base.Halting Base.IntervalForest Base.Separation List

/-- `__reserve_region_with_split`, where `alloc i` is what the `i`-th `kzalloc` returns. -/
def reserveRegionWithSplit (alloc : ℕ → ℕ) (root : ℕ) :
    ℕ → Heap → ℕ → ℕ → ℕ → Except Stop (Heap × ℕ)
  | 0, _, _, _, _ => .error .fuel
  | fuel + 1, h, i, start, «end» =>
    let res := alloc i
    if res = 0 then .ok (h, i + 1)
    else do
      let h := Function.update h res (some ⟨start, «end», 0, 0, 0⟩)
      let (h, conflict) ← requestResourceLocked fuel h root res
      if conflict = 0 then .ok (h, i + 1)
      else
        let h := Function.update h res none
        let c ← load h conflict
        if c.start ≤ start ∧ «end» ≤ c.end then .ok (h, i + 1)
        else
          let (h, i) ←
            (if start < c.start then reserveRegionWithSplit alloc root fuel h (i + 1) start (c.start - 1)
            else .ok (h, i + 1))
          let c ← load h conflict
          if c.end < «end» then reserveRegionWithSplit alloc root fuel h i (c.end + 1) «end»
          else .ok (h, i)

/-- The resources of a row, each with what is below it. -/
def row : Forest → List ((ℕ × ℕ × ℕ) × Forest)
  | .nil => []
  | .node a s e c n => ((a, s, e), c) :: row n

theorem row_append (F G : Forest) : row (F ++ G) = row F ++ row G := by
  induction F with
  | nil => rfl
  | node a s e c n _ ih => rw [Forest.node_append, row, row, ih, cons_append]

theorem cell_of_row {h : Heap} {p x b t u : ℕ} {d F : Forest} (hF : RepSeg h p x F)
    (hmem : ((b, t, u), d) ∈ row F) : ∃ y z, Cell h b ⟨t, u, p, y, z⟩ := by
  induction F with
  | nil => cases hmem
  | node a s e c n _ ih =>
    cases hmem with
    | head => exact ⟨_, _, hF.1⟩
    | tail _ hmem => exact ih hF.2.2 hmem

section Split

variable {alloc : ℕ → ℕ} {h : Heap} {root i start «end» fuel : ℕ}

/-- A range that reaches out of the root conflicts with the root, which leaves the part outside as it is. -/
theorem reserveRegionWithSplit_outside {r : Resource} (hr : Cell h root r)
    (halloc : ∀ j, alloc j ≠ 0 ∧ alloc j ≠ root) (hle : start ≤ «end»)
    (hout : ¬(r.start ≤ start ∧ «end» ≤ r.end)) :
    reserveRegionWithSplit alloc root fuel h i start «end» = .error .fuel := by
  induction fuel generalizing h i start «end» with
  | zero => rfl
  | succ fuel ih =>
    have hkeep : ∀ {h : Heap} v, Cell h root r → Cell (Function.update h (alloc i) v) root r := fun v hc =>
      hc.congr (Function.update_of_ne (β := fun _ => Option Resource) (halloc i).2.symm v _)
    have hroot := hkeep (some ⟨start, «end», 0, 0, 0⟩) hr
    have hreq : requestResourceLocked fuel _ root (alloc i) = _ :=
      requestResourceLocked_outside ⟨Function.update_self (alloc i) _ h, (halloc i).1⟩ hroot (by tauto)
    have hroot := hkeep none hroot
    simp only [reserveRegionWithSplit, if_neg (halloc i).1, hreq, bind, Except.bind, if_neg hr.2, load_eq hroot,
      if_neg hout]
    split_ifs with hlt
    · rw [ih hroot (by omega) (by omega)]
    · simp only [load_eq hroot, if_pos (show r.end < «end» by omega)]
      exact ih hroot (by omega) (by omega)

/-- A resource of the row has the address. -/
def Covers (F : Forest) (x : ℕ) : Prop := ∃ r ∈ row F, r.1.2.1 ≤ x ∧ x ≤ r.1.2.2

variable {s e : ℕ} {N C : Forest} {K k : Path}

theorem notMem_footprint {a : ℕ} (hK : a ∉ K.ids) (hC : a ∉ C.ids) :
    a ∉ footprint ({path (addrOr 0 C) K} + ({seg (parentOf K) 0 C} + 0)) := by
  simp only [footprint_add, footprint_singleton, add_zero, Multiset.mem_add]
  exact fun hmem => hmem.elim hK hC

theorem At.write_outside (H : At h K C 0) {a : ℕ} (hK : a ∉ K.ids) (hC : a ∉ C.ids)
    (v : Option Resource) : At (Function.update h a v) K C 0 := by
  refine Separate.congr H fun l hl => Function.update_of_ne (β := fun _ => Option Resource) ?_ v h
  rintro rfl
  exact notMem_footprint hK hC hl

/-- The row `C` has grown to `C'` by at most `n` resources, and the descriptors from the `i`-th on are unused. -/
structure Grown (alloc : ℕ → ℕ) (K : Path) (C C' : Forest) (h : Heap) (i n : ℕ) : Prop where
  tree : At h K C' 0
  fresh : ∀ j ≥ i, alloc j ∉ C'.ids
  kept : (row C).Sublist (row C')
  length_le : rowLength C' ≤ rowLength C + n

theorem Covers.mono {C' : Forest} {x : ℕ} (hkept : (row C).Sublist (row C')) : Covers C x → Covers C' x
  | ⟨r, hr, hx⟩ => ⟨r, hkept.subset hr, hx⟩

-- A conflict may leave a part on either side of it, so the calls are counted by a power of two.
theorem reserveRegionWithSplit_inside {n : ℕ} (hinj : Function.Injective alloc) (halloc : ∀ j, alloc j ≠ 0)
    (hpath : ∀ j, alloc j ∉ Path.ids (.below root s e N :: k)) (hs : s ≤ start) (hle : start ≤ «end»)
    (he : «end» ≤ e) (hn : «end» - start < n) (H : At h (.below root s e N :: k) C 0)
    (hfresh : ∀ j ≥ i, alloc j ∉ C.ids) (hfuel : 2 ^ (n + 1) + rowLength C < fuel) :
    ∃ h' i' C', reserveRegionWithSplit alloc root fuel h i start «end» = .ok (h', i') ∧
      Grown alloc (.below root s e N :: k) C C' h' i' (2 ^ n) ∧
      ∀ x, start ≤ x → x ≤ «end» → Covers C' x := by
  induction n generalizing h i start «end» C fuel with
  | zero => omega
  | succ n ih =>
    have hpow := Nat.two_pow_pos n
    obtain _ | fuel := fuel
    · omega
    -- a call for what lies on one side of a conflict
    have side : ∀ {h i C} (lo hi : ℕ) (c : Prop) [Decidable c], (c → s ≤ lo ∧ lo ≤ hi ∧ hi ≤ e ∧ hi - lo < n) →
        At h (.below root s e N :: k) C 0 → (∀ j ≥ i, alloc j ∉ C.ids) → 2 ^ n * 2 + rowLength C < fuel →
        ∃ h' i' C', (if c then reserveRegionWithSplit alloc root fuel h i lo hi else .ok (h, i)) = .ok (h', i') ∧
          Grown alloc (.below root s e N :: k) C C' h' i' (2 ^ n) ∧
          (c → ∀ x, lo ≤ x → x ≤ hi → Covers C' x) := by
      intro h i C lo hi c _ hc H hfresh hfuel
      split_ifs with h₀
      · obtain ⟨hs, hle, he, hn⟩ := hc h₀
        obtain ⟨h', i', C', hrun, H', hcov⟩ := ih hs hle he hn H hfresh hfuel
        exact ⟨h', i', C', hrun, H', fun _ => hcov⟩
      · exact ⟨h, i, C, rfl, ⟨H, hfresh, .refl _, Nat.le_add_right _ _⟩, fun hc => absurd hc h₀⟩
    have hi := hfresh i le_rfl
    have hnext : ∀ j ≥ i + 1, alloc j ∉ C.ids := fun j hj => hfresh j (by omega)
    -- the new descriptor beside the tree
    have hcell := H.write_outside (hpath i) hi (some ⟨start, «end», 0, 0, 0⟩)
    have hfree := hcell.write_outside (hpath i) hi none
    have hnew : At (Function.update h (alloc i) (some ⟨start, «end», 0, 0, 0⟩)) (.below root s e N :: k) C
        ({cell (alloc i) ⟨start, «end», 0, 0, 0⟩} + 0) := by
      refine (Separate.cons (p := cell (alloc i) ⟨start, «end», 0, 0, 0⟩) hcell
        ⟨Function.update_self (alloc i) _ h, halloc i⟩ (Multiset.nodup_singleton _) fun l hl => ?_).reorder
        (by abel)
      exact Multiset.mem_singleton.mp hl ▸ notMem_footprint (hpath i) hi
    obtain ⟨hnot, -⟩ | ⟨-, A, B, rfl, -, ⟨-, h', hreq, H'⟩ | ⟨b, t, u, d, m, rfl, ht, hu, hreq⟩⟩ :=
      requestResourceLocked_spec hnew (show rowLength C < fuel by omega)
    · exact absurd ⟨hle, hs, he⟩ hnot
    · refine ⟨h', i + 1, _, ?_, ⟨H', fun j hj => ?_, ?_, ?_⟩, fun x hx hx' => ?_⟩
      · simp only [reserveRegionWithSplit, if_neg (halloc i), hreq, bind, Except.bind, if_true]
      · have hne : alloc j ≠ alloc i := hinj.ne (by omega)
        have hj := hnext j hj
        simp only [Forest.ids_append, Forest.ids, mem_append, mem_cons, not_mem_nil] at hj ⊢
        tauto
      · rw [row_append, row_append, row]
        exact (List.Sublist.refl _).append (sublist_cons_self _ _)
      · simp only [rowLength, Forest.tops_append, Forest.tops, length_append, length_cons]
        omega
      · exact ⟨((alloc i, start, «end»), .nil), by simp [row_append, row], hx, hx'⟩
    · have hmem : ((b, t, u), d) ∈ row (A ++ .node b t u d m) := by simp [row_append, row]
      obtain ⟨y, z, hb⟩ := cell_of_row hfree.repSeg hmem
      by_cases hin : t ≤ start ∧ «end» ≤ u
      · refine ⟨_, i + 1, _, ?_, ⟨hfree, hnext, .refl _, Nat.le_add_right _ _⟩, fun x hx hx' =>
          ⟨_, hmem, hin.1.trans hx, hx'.trans hin.2⟩⟩
        simp only [reserveRegionWithSplit, if_neg (halloc i), hreq, bind, Except.bind, if_neg hb.2, load_eq hb,
          if_pos hin]
      · obtain ⟨h₁, i₁, C₁, hrun₁, H₁, hcov₁⟩ :=
          side start (t - 1) (start < t) (fun hlt => by omega) hfree hnext (by omega)
        obtain ⟨y₁, z₁, hb₁⟩ := cell_of_row H₁.tree.repSeg (H₁.kept.subset hmem)
        have hlen := H₁.length_le
        obtain ⟨h₂, i₂, C₂, hrun₂, H₂, hcov₂⟩ :=
          side (u + 1) «end» (u < «end») (fun hlt => by omega) H₁.tree H₁.fresh (by omega)
        have hlen₂ := H₂.length_le
        refine ⟨h₂, i₂, C₂, ?_, ⟨H₂.tree, H₂.fresh, H₁.kept.trans H₂.kept, by omega⟩, fun x hx hx' => ?_⟩
        · simp only [reserveRegionWithSplit, if_neg (halloc i), hreq, bind, Except.bind, if_neg hb.2, load_eq hb,
            if_neg hin, hrun₁, load_eq hb₁, hrun₂]
        · by_cases hlo : x < t
          · exact (hcov₁ (by omega) x hx (by omega)).mono H₂.kept
          · by_cases hhi : u < x
            · exact hcov₂ (by omega) x (by omega) hx'
            · exact .mono (H₁.kept.trans H₂.kept) ⟨_, hmem, not_lt.mp hlo, not_lt.mp hhi⟩

/-- The call returns with the range covered exactly if the range lies in the root. -/
theorem reserveRegionWithSplit_iff (H : At h (.below root s e N :: k) C 0) (hinj : Function.Injective alloc)
    (halloc : ∀ j, alloc j ≠ 0 ∧ alloc j ∉ Path.ids (.below root s e N :: k) ∧ alloc j ∉ C.ids)
    (hle : start ≤ «end») :
    (∃ fuel h' i' C', reserveRegionWithSplit alloc root fuel h i start «end» = .ok (h', i') ∧
      At h' (.below root s e N :: k) C' 0 ∧ (row C).Sublist (row C') ∧
      ∀ x, start ≤ x → x ≤ «end» → s ≤ x → x ≤ e → Covers C' x) ↔ s ≤ start ∧ «end» ≤ e := by
  constructor
  · rintro ⟨fuel, h', i', C', hrun, -⟩
    by_contra hout
    have hroot : Cell h root ⟨s, e, _, _, _⟩ := (at_below.mp H).head
    rw [reserveRegionWithSplit_outside hroot (fun j => ⟨(halloc j).1, fun heq => (halloc j).2.1 ?_⟩) hle hout]
      at hrun
    · cases hrun
    · exact heq ▸ mem_cons_self
  · rintro ⟨hs, he⟩
    obtain ⟨h', i', C', hrun, H', hcov⟩ := reserveRegionWithSplit_inside hinj (fun j => (halloc j).1)
      (fun j => (halloc j).2.1) hs hle he (Nat.lt_succ_self _) H (fun j _ => (halloc j).2.2) (Nat.lt_succ_self _)
    exact ⟨_, h', i', C', hrun, H'.tree, H'.kept, fun x hx hx' _ _ => hcov x hx hx'⟩

end Split

theorem soleRoot_at : At soleRoot [.below 4 0 100 .nil] .nil 0 := by
  refine ⟨fun p hp => ?_, by decide⟩
  simp only [add_zero, Multiset.mem_add, Multiset.mem_singleton] at hp
  obtain rfl | rfl := hp
  · exact ⟨⟨rfl, by decide⟩, True.intro, True.intro⟩
  · exact True.intro

theorem reserveRegionWithSplit_iff_soleRoot : ∃ fuel h' i' C',
    reserveRegionWithSplit (· + 9) 4 fuel soleRoot 0 10 20 = .ok (h', i') ∧ Covers C' 15 := by
  obtain ⟨fuel, h', i', C', hrun, -, -, hcov⟩ := (reserveRegionWithSplit_iff (i := 0) soleRoot_at
    (add_left_injective 9) (fun j => ⟨by simp, by simp [Path.ids, Forest.ids], by simp [Forest.ids]⟩)
    (show 10 ≤ 20 by decide)).mpr (by decide)
  exact ⟨fuel, h', i', C', hrun, hcov 15 (by decide) (by decide) (by decide) (by decide)⟩

/-- A range that begins in the root and ends behind it. -/
theorem reserveRegionWithSplit_endless :
    ¬∃ fuel r, reserveRegionWithSplit (· + 9) 4 fuel soleRoot 0 50 150 = .ok r := by
  rintro ⟨fuel, r, hrun⟩
  rw [reserveRegionWithSplit_outside (r := ⟨0, 100, 0, 0, 0⟩) ⟨rfl, by decide⟩
    (fun j => ⟨by simp, by simp⟩) (by decide) (by decide)] at hrun
  cases hrun

end VDLinux.Kernel.Resources
