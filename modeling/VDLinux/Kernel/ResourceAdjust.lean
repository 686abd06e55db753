import VDLinux.Kernel.ResourceInsert

namespace VDLinux.Kernel.Resources

open Base.Halting Base.IntervalForest Base.Separation

section Expand

variable {h : Heap} {rest : Multiset (Piece Heap.read)} {k : Path} {C N : Forest}
  {P s e new start «end» y fuel : ℕ}

/-- The tree as it was, with a new resource of some range that is not in it. -/
def Outside (h : Heap) (k : Path) (C : Forest) (new y : ℕ) (rest : Multiset (Piece Heap.read)) : Prop :=
  ∃ start «end», At h k C ({cell new ⟨start, «end», 0, y, 0⟩} + rest)

theorem expandStep_progress {inner : ℕ} (hC : C.Nested s e) (hinner : C.ids.length < inner)
    (H : At h (.below P s e N :: k) C ({cell new ⟨start, «end», 0, y, 0⟩} + rest)) :
    (∃ h', expandStep inner P new h = .ok (.inr h') ∧
      (Inserted h' (Path.fill (.below P s e N :: k) C) new rest ∨
        Outside h' (.below P s e N :: k) C new y rest)) ∨
    ∃ h' start' end', expandStep inner P new h = .ok (.inl h') ∧
      At h' (.below P s e N :: k) C ({cell new ⟨start', end', 0, y, 0⟩} + rest) ∧
      (start' - s) + (e - end') < (start - s) + (e - «end») := by
  have hP : P ≠ 0 := (at_below.mp H).head.2
  obtain ⟨-, hins⟩ | ⟨hfit, ⟨h', hins, hdone⟩ | ⟨c, v, w, p, a, f, hins, hcP, hc, hvw, hsv, hle, hwe⟩⟩ :=
    insertResourceLocked_spec H hC hinner
  · refine .inl ⟨h, ?_, .inr ⟨start, «end», H⟩⟩
    simp [expandStep, hins, bind, Except.bind, hP]
  · exact .inl ⟨h', by simp [expandStep, hins, bind, Except.bind], .inl hdone⟩
  · right
    have hn : Cell h new ⟨start, «end», 0, y, 0⟩ := H.other
    obtain ⟨h₁, e₁, H₁⟩ : ∃ h₁,
        modifyIf (decide (v < start)) h new ({ · with start := v }) = .ok h₁ ∧
        At h₁ (.below P s e N :: k) C ({cell new ⟨min v start, «end», 0, y, 0⟩} + rest) := by
      by_cases hv : v < start
      · obtain ⟨h₁, e₁, H₁⟩ := H.modify_other ({ · with start := v })
        rw [min_eq_left hv.le]
        exact ⟨h₁, by rw [modifyIf, if_pos (decide_eq_true hv), e₁], H₁⟩
      · rw [min_eq_right (not_lt.mp hv)]
        exact ⟨h, if_neg (by simpa using hv), H⟩
    have hn₁ : Cell h₁ new ⟨min v start, «end», 0, y, 0⟩ := H₁.other
    obtain ⟨h₂, e₂, H₂⟩ : ∃ h₂,
        modifyIf (decide («end» < w)) h₁ new ({ · with «end» := w }) = .ok h₂ ∧
        At h₂ (.below P s e N :: k) C ({cell new ⟨min v start, max w «end», 0, y, 0⟩} + rest) := by
      by_cases hw : «end» < w
      · obtain ⟨h₂, e₂, H₂⟩ := H₁.modify_other ({ · with «end» := w })
        rw [max_eq_left hw.le]
        exact ⟨h₂, by rw [modifyIf, if_pos (decide_eq_true hw), e₂], H₂⟩
      · rw [max_eq_right (not_lt.mp hw)]
        exact ⟨h₁, if_neg (by simpa using hw), H₁⟩
    refine ⟨h₂, min v start, max w «end», ?_, H₂, by omega⟩
    simp only [expandStep, hins, bind, Except.bind, if_neg hc.2, if_neg hcP, load_eq hc, load_eq hn, e₁,
      load_eq hn₁, e₂]

theorem insertResourceExpandToFit_spec (hC : C.Nested s e)
    (H : At h (.below P s e N :: k) C ({cell new ⟨start, «end», 0, y, 0⟩} + rest)) :
    ∃ M, ∀ fuel ≥ M, ∃ h', insertResourceExpandToFit fuel h P new = .ok h' ∧
      (Inserted h' (Path.fill (.below P s e N :: k) C) new rest ∨
        Outside h' (.below P s e N :: k) C new y rest) := by
  refine ⟨C.ids.length + ((start - s) + (e - «end»)) + 1, fun fuel hfuel => ?_⟩
  have hrun : ∃ h', loop (expandStep fuel P new) .fuel fuel h = .ok h' ∧
      (Inserted h' (Path.fill (.below P s e N :: k) C) new rest ∨
        Outside h' (.below P s e N :: k) C new y rest) := by
    refine loop_progress (fun n h => ∃ start «end», At h (.below P s e N :: k) C
      ({cell new ⟨start, «end», 0, y, 0⟩} + rest) ∧ (start - s) + (e - «end») = n) _ ?_
      ⟨start, «end», H, rfl⟩ (by omega)
    rintro n h ⟨start, «end», H, rfl⟩
    obtain hdone | ⟨h', start', end', hstep, H', hlt⟩ :=
      expandStep_progress hC (show C.ids.length < fuel by omega) H
    · exact .inl hdone
    · exact .inr ⟨h', _, hstep, hlt, start', end', H', rfl⟩
  obtain ⟨h', hloop, hdone⟩ := hrun
  have hn : Cell h new ⟨start, «end», 0, y, 0⟩ := H.other
  exact ⟨h', by simp [insertResourceExpandToFit, load_eq hn, bind, Except.bind, hloop], hdone⟩

end Expand

section Adjust

variable {h : Heap} {rest : Multiset (Piece Heap.read)} {k : Path} {N A d m : Forest}
  {P p s e res t u start size «end» x w fuel : ℕ}

theorem fitWalk (start «end» : ℕ) (hrow : RepSeg h p 0 d) (hfuel : rowLength d < fuel) :
    ∃ fits, loop (fitStep h start «end») .fuel fuel (addrOr 0 d) = .ok fits ∧
      (fits = true → ∀ r ∈ d.tops, start ≤ r.1 ∧ r.2 ≤ «end») := by
  induction d generalizing fuel with
  | nil => exact ⟨true, loop_done rfl (by omega), by simp [Forest.tops]⟩
  | node a t u c n _ ih =>
    obtain ⟨ha, -, hn⟩ := hrow
    have hstep : fitStep h start «end» a = if t < start ∨ «end» < u then .ok (.inr false)
        else .ok (.inl (addrOr 0 n)) := by
      simp [fitStep, ha.2, load_eq ha, bind, Except.bind]
    by_cases hout : t < start ∨ «end» < u
    · rw [if_pos hout] at hstep
      exact ⟨false, loop_done hstep (by omega), by simp⟩
    · rw [if_neg hout] at hstep
      obtain ⟨fits, hloop, hfits⟩ := ih hn (rowLength_next hfuel)
      refine ⟨fits, by rw [addrOr, loop_next hstep (by omega), hloop], fun htrue r hr => ?_⟩
      cases hr with
      | head =>
        omega
      | tail _ hr => exact hfits htrue r hr

theorem nextBlocks_spec («end» : ℕ) (hrow : RepSeg h p 0 m) :
    ∃ blocked, nextBlocks h (addrOr 0 m) «end» = .ok blocked ∧ (blocked = false → m.After «end») := by
  cases m with
  | nil => exact ⟨false, rfl, fun _ => True.intro⟩
  | node a t u c n =>
    obtain ⟨ha, -, -⟩ := hrow
    refine ⟨decide (t ≤ «end»), ?_, fun hnot => ?_⟩
    · simp [nextBlocks, addrOr, ha.2, load_eq ha, bind, Except.bind]
    · have hlt := of_decide_eq_false hnot
      exact not_le.mp hlt

theorem previousBlocks_spec (hrow : RepSeg h p res A) (hres : res ∉ A.ids) (hfuel : rowLength A < fuel)
    (hs : s ≤ start) :
    ∃ blocked, previousBlocks fuel h (addrOr res A) res start = .ok blocked ∧
      (blocked = false → A.bound s ≤ start) := by
  cases A with
  | nil => exact ⟨false, if_pos rfl, fun _ => hs⟩
  | node a t u c n =>
    obtain ⟨b, v, w, f, hloop, -, hb, -, hbound⟩ := previousWalk hrow hres hfuel
    have hne : a ≠ res := fun heq => hres (by simp [Forest.ids, heq])
    refine ⟨decide (start ≤ w), ?_, fun hnot => ?_⟩
    · simp [previousBlocks, addrOr, hne, hloop, load_eq hb, bind, Except.bind]
    · have hlt := of_decide_eq_false hnot
      rw [hbound]
      omega

variable (H : At h (.below P s e N :: k) (A ++ .node res t u d m) rest)
include H

theorem at_row : Cell h P ⟨s, e, parentOf k, addrOr 0 N, addrOr res A⟩ ∧ RepSeg h P res A ∧
      Cell h res ⟨t, u, P, addrOr 0 m, addrOr 0 d⟩ ∧ RepSeg h res 0 d ∧ RepSeg h P 0 m ∧ res ∉ A.ids := by
  have H₀ := at_below.mp H
  have hP : Cell h P ⟨s, e, parentOf k, addrOr 0 N, addrOr 0 (A ++ .node res t u d m)⟩ := H₀.head
  obtain ⟨hA, hres, hd, hm⟩ := repSeg_append.mp H.repSeg
  rw [addrOr_append] at hP
  refine ⟨hP, hA, hres, hd, hm, fun hmem => ?_⟩
  have hn := H.nodup
  simp only [Forest.ids_append, Forest.ids] at hn
  exact (List.nodup_append.mp hn).2.2 res hmem res List.mem_cons_self rfl

theorem adjustResource_spec
    (hnest : (A ++ .node res t u d m).Nested s e) (hsize : 1 ≤ size) (hwrap : start + size - 1 < 2 ^ w)
    (hfuel : (A ++ .node res t u d m).ids.length < fuel) :
    adjustResource w fuel h res start size = .ok (h, .ebusy) ∨
    ∃ h', adjustResource w fuel h res start size = .ok (h', .ok) ∧
      At h' (.below P s e N :: k) (A ++ .node res start (start + size - 1) d m) rest ∧
      (A ++ .node res start (start + size - 1) d m).Nested s e := by
  obtain ⟨hP, hA, hres, hd, hm, hnot⟩ := at_row H
  have hend : (start + size - 1) % 2 ^ w = start + size - 1 := Nat.mod_eq_of_lt hwrap
  have hlen : rowLength d < fuel ∧ rowLength A < fuel := by
    have hA' := A.tops_length_le
    have hd' := d.tops_length_le
    simp only [rowLength, Forest.ids_append, Forest.ids, List.length_append, List.length_cons] at hfuel ⊢
    omega
  by_cases hrange : start < s ∨ e < start + size - 1
  · left
    simp [adjustResource, load_eq hres, load_eq hP, hend, bind, Except.bind, hrange]
  obtain ⟨fits, hfitloop, hfits⟩ := fitWalk start (start + size - 1) hd hlen.1
  obtain ⟨b₁, hb₁, hafter⟩ := nextBlocks_spec (start + size - 1) hm
  obtain ⟨b₂, hb₂, hbefore⟩ := previousBlocks_spec hA hnot hlen.2 (show s ≤ start by omega)
  by_cases hfree : fits = true ∧ b₁ = false ∧ b₂ = false
  · right
    obtain ⟨rfl, rfl, rfl⟩ := hfree
    have H₀ := at_node.mp (at_besides.mpr H)
    obtain ⟨h', hmod, H'⟩ := modify_cell H₀ ({ · with start := start, «end» := start + size - 1 })
    refine ⟨h', ?_, at_besides.mp (at_node.mpr H'), ?_⟩
    · simp [adjustResource, load_eq hres, load_eq hP, hend, bind, Except.bind, hrange, hfitloop, hb₁, hb₂, hmod]
    · obtain ⟨hnA, -, -, -, hnd, hnm⟩ := Forest.nested_append.mp hnest
      exact Forest.nested_append.mpr ⟨hnA, hbefore rfl, by omega, by omega, hnd.within (hfits rfl),
        hnm.after (hafter rfl)⟩
  · left
    simp only [adjustResource, load_eq hres, load_eq hP, hend, bind, Except.bind, if_neg hrange, hfitloop, hb₁, hb₂]
    cases fits <;> cases b₁ <;> cases b₂ <;> simp_all

end Adjust

section Release

variable {h : Heap} {rest : Multiset (Piece Heap.read)} {k : Path} {N A m : Forest} {l : Link}
  {P p s e old t u fuel : ℕ}

theorem releaseWalk (hl : loadLink h l = .ok (addrOr old A)) (hA : RepSeg h p old A) (hold : old ≠ 0)
    (hnot : old ∉ A.ids) (hfuel : rowLength A < fuel) :
    loop (releaseStep h old) .fuel fuel l = .ok (some (lastLink l A)) := by
  induction A generalizing l fuel with
  | nil =>
    refine loop_done ?_ (by omega)
    simp [releaseStep, hl, addrOr, hold, bind, Except.bind, lastLink]
  | node a s e c n _ ih =>
    obtain ⟨ha, -, hn⟩ := hA
    simp only [Forest.ids, List.mem_cons, List.mem_append, not_or] at hnot
    have hstep : releaseStep h old l = .ok (.inl (.sibling a)) := by
      simp [releaseStep, hl, addrOr, ha.2, Ne.symm hnot.1, bind, Except.bind]
    have hlink : loadLink h (.sibling a) = .ok (addrOr old n) := by
      rw [loadLink, load_eq ha]
      rfl
    rw [loop_next hstep (by omega)]
    exact ih hlink hn hnot.2.2 (rowLength_next hfuel)

theorem releaseResource_spec (H : At h (.below P s e N :: k) (A ++ .node old t u .nil m) rest)
    (hfuel : (A ++ .node old t u .nil m).ids.length < fuel) :
    ∃ h', releaseResource fuel h old = .ok (h', .ok) ∧
      At h' (.below P s e N :: k) (A ++ m) ({cell old ⟨t, u, 0, addrOr 0 m, 0⟩} + rest) := by
  obtain ⟨hP, hA, hold, -, -, hnot⟩ := at_row H
  have hlen : rowLength A < fuel := by
    have hA' := A.tops_length_le
    simp only [rowLength, Forest.ids_append, List.length_append] at hfuel ⊢
    omega
  have hlink : loadLink h (.child P) = .ok (addrOr old A) := by
    rw [loadLink, load_eq hP]
    rfl
  have hloop := releaseWalk hlink hA hold.2 hnot hlen
  obtain ⟨h₁, e₁, H₁⟩ := storeLink_lastLink (at_row_cut.mp H) (addrOr 0 m)
  obtain ⟨h₂, e₂, H₂⟩ := modify_cell (separate_node.mp H₁.third) ({ · with parent := 0 })
  refine ⟨h₂, ?_, at_row_cut.mpr (H₂.second.tail.reorder (by simp only [addrOr]; abel))⟩
  simp only [releaseResource, load_eq hold, bind, Except.bind, hloop, e₁, e₂]

end Release

end VDLinux.Kernel.Resources
