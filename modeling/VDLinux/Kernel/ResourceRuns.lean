import VDLinux.Kernel.ResourceAdjust

namespace VDLinux.Kernel.Resources

open Base.Halting Base.IntervalForest Base.Separation

/-- The heap is the tree, with the links of every node, and the descriptors that are in no tree. -/
def Models (h : Heap) (T : Forest) (free : Multiset ℕ) : Prop := At h [] T (free.map spare)

inductive Call where
  | request (root new : ℕ)
  | insert (root new : ℕ)
  | expand (root new : ℕ)
  | adjust (res start size : ℕ)
  | release (old : ℕ)

def Call.run (w fuel : ℕ) (h : Heap) : Call → Except Stop (Heap × Ret)
  | .request root new => requestResource fuel h root new
  | .insert root new => insertResource fuel h root new
  | .expand root new => do
    let h ← insertResourceExpandToFit fuel h root new
    .ok (h, .ok)
  | .adjust res start size => adjustResource w fuel h res start size
  | .release old => releaseResource fuel h old

/-- The calls with descriptors as their callers have them: a root in the tree and a new resource outside
of it, a resource below the root with a range that does not wrap, a leaf below the root. -/
def Call.Allowed (w : ℕ) (T : Forest) (free : Multiset ℕ) : Call → Prop
  | .request root new | .insert root new => root ∈ T.ids ∧ new ∈ free
  | .expand root new => root ∈ T.ids ∧ (new ∈ free ∨ ∃ d, InRow T new d)
  | .adjust res start size => (∃ d, InRow T res d) ∧ 1 ≤ size ∧ start + size - 1 < 2 ^ w
  | .release old => InRow T old .nil

/-- The call returns, with the same result for every bound on its loops that is large enough. -/
def Call.Returns (w : ℕ) (call : Call) (h h' : Heap) (ret : Ret) : Prop :=
  ∃ M, ∀ fuel ≥ M, call.run w fuel h = .ok (h', ret)

/-- A call has failed by its result; the one without a result when the resource is still outside. -/
def Call.Failed (h' : Heap) (ret : Ret) : Call → Prop
  | .expand _ new => ∃ r, h' new = some r ∧ r.parent = 0
  | _ => ret ≠ .ok

/-- The trees that are reached from a root alone. Between the calls a descriptor outside the tree may
get any range. -/
inductive Reached (w root : ℕ) : Heap → Forest → Multiset ℕ → Prop where
  | start {h : Heap} {s e : ℕ} {free : Multiset ℕ} (hm : Models h (.node root s e .nil .nil) free) :
      Reached w root h (.node root s e .nil .nil) free
  | prepare {h h' : Heap} {T : Forest} {free free' : Multiset ℕ} (hr : Reached w root h T free)
      (hm : Models h' T free') : Reached w root h' T free'
  | call {h h' : Heap} {T T' : Forest} {free free' : Multiset ℕ} {call : Call} {ret : Ret}
      (hr : Reached w root h T free) (hallowed : call.Allowed w T free)
      (hret : call.Returns w h h' ret) (hm : Models h' T' free') (hroot : addrOr 0 T' = root) :
      Reached w root h' T' free'

section Fuel

variable {fuel fuel' : ℕ}

variable (hfuel : fuel ≤ fuel')
include hfuel

theorem requestResourceLocked_agrees (h : Heap) (root new : ℕ) :
    Agrees (requestResourceLocked fuel h root new) (requestResourceLocked fuel' h root new) := by
  refine .bind (.refl _) fun n => .bind (.refl _) fun r => ?_
  refine .ite (.refl _) (.ite (.refl _) (.ite (.refl _) ?_))
  exact .bind (loop_agrees (fun _ => .refl _) hfuel _) fun _ => .refl _

theorem coverRow_agrees (h : Heap) (parent new first next : ℕ) :
    Agrees (coverRow fuel h parent new first next) (coverRow fuel' h parent new first next) := by
  refine .bind (.refl _) fun h => .bind (.refl _) fun x => .bind (.refl _) fun h => .bind (.refl _) fun h => ?_
  refine .bind (.refl _) fun h => .bind (loop_agrees (fun _ => .refl _) hfuel _) fun h => ?_
  refine .bind (.refl _) fun p => .ite (.refl _) ?_
  exact .bind (loop_agrees (fun _ => .refl _) hfuel _) fun _ => .refl _

theorem insertResourceLocked_agrees (h : Heap) (parent new : ℕ) :
    Agrees (insertResourceLocked fuel h parent new) (insertResourceLocked fuel' h parent new) := by
  refine .bind (loop_agrees (fun parent => ?_) hfuel _) fun d => ?_
  · exact .bind (requestResourceLocked_agrees hfuel h parent new) fun _ => .refl _
  cases d with
  | linked h => exact .refl _
  | conflict first => exact .refl _
  | above parent first =>
    refine .bind (loop_agrees (fun _ => .refl _) hfuel _) fun c => ?_
    cases c with
    | conflict next => exact .refl _
    | last next => exact .bind (coverRow_agrees hfuel h parent new first next) fun _ => .refl _

theorem adjustResource_agrees (w : ℕ) (h : Heap) (res start size : ℕ) :
    Agrees (adjustResource w fuel h res start size) (adjustResource w fuel' h res start size) := by
  have hprev : ∀ first, Agrees (previousBlocks fuel h first res start)
      (previousBlocks fuel' h first res start) := fun first =>
    .ite (.refl _) (.bind (loop_agrees (fun _ => .refl _) hfuel _) fun _ => .refl _)
  refine .bind (.refl _) fun r => .bind (.refl _) fun p => .ite (.refl _) ?_
  refine .bind (loop_agrees (fun _ => .refl _) hfuel _) fun fits => .ite (.refl _) ?_
  refine .bind (.refl _) fun b => .ite (.refl _) (.bind (hprev _) fun _ => .refl _)

theorem Call.run_agrees (w : ℕ) (h : Heap) (call : Call) :
    Agrees (call.run w fuel h) (call.run w fuel' h) := by
  cases call with
  | request root new => exact .bind (requestResourceLocked_agrees hfuel h root new) fun _ => .refl _
  | insert root new => exact .bind (insertResourceLocked_agrees hfuel h root new) fun _ => .refl _
  | expand root new =>
    refine .bind (.bind (.refl _) fun n => .ite (.refl _) ?_) fun _ => .refl _
    refine loop_agrees (fun h => ?_) hfuel h
    exact .bind (insertResourceLocked_agrees hfuel h root new) fun _ => .refl _
  | adjust res start size => exact adjustResource_agrees hfuel w h res start size
  | release old => exact .bind (.refl _) fun o => .bind (loop_agrees (fun _ => .refl _) hfuel _) fun _ => .refl _

omit hfuel

theorem Call.Returns.of_run {w : ℕ} {call : Call} {h h' : Heap} {ret : Ret} (fuel : ℕ)
    (hrun : call.run w fuel h = .ok (h', ret)) : call.Returns w h h' ret :=
  ⟨fuel, fun _ hfuel => call.run_agrees hfuel w h _ hrun⟩

theorem Call.Returns.unique {w : ℕ} {call : Call} {h h' h'' : Heap} {ret ret' : Ret}
    (hret : call.Returns w h h' ret) (hret' : call.Returns w h h'' ret') : h' = h'' ∧ ret = ret' := by
  obtain ⟨M, hM⟩ := hret
  obtain ⟨M', hM'⟩ := hret'
  have heq := (hM (max M M') (le_max_left M M')).symm.trans (hM' (max M M') (le_max_right M M'))
  exact Prod.mk.inj (Except.ok.inj heq)

end Fuel

section Unique

variable {h : Heap} {p : ℕ} {F G : Forest}

theorem repSeg_unique (hF : RepSeg h p 0 F) (hG : RepSeg h p 0 G) (haddr : addrOr 0 F = addrOr 0 G) :
    F = G := by
  induction F generalizing p G with
  | nil =>
    cases G with
    | nil => rfl
    | node a s e c n => exact absurd haddr.symm hG.1.2
  | node a s e c n ihc ihn =>
    cases G with
    | nil => exact absurd haddr hF.1.2
    | node a' s' e' c' n' =>
      obtain rfl : a = a' := haddr
      have hcell := Option.some.inj (hF.1.1.symm.trans hG.1.1)
      simp only [Resource.mk.injEq, true_and] at hcell
      obtain ⟨rfl, rfl, hn, hc⟩ := hcell
      rw [ihc hF.2.1 hG.2.1 hc, ihn hF.2.2 hG.2.2 hn]

theorem Models.unique {T T' : Forest} {free free' : Multiset ℕ} (hm : Models h T free)
    (hm' : Models h T' free') (haddr : addrOr 0 T = addrOr 0 T') : T = T' :=
  repSeg_unique (At.repSeg hm) (At.repSeg hm') haddr

end Unique

section Calls

variable {h : Heap} {T : Forest} {free : Multiset ℕ} {k : Path} {C : Forest} {w root new : ℕ}

theorem At.open_spare (H : At h k C (free.map spare)) (hnew : new ∈ free) :
    ∃ start «end» y, At h k C ({cell new ⟨start, «end», 0, y, 0⟩} + (free.erase new).map spare) := by
  have hfree : free.map spare = {spare new} + (free.erase new).map spare := by
    rw [Multiset.singleton_add, ← Multiset.map_cons, Multiset.cons_erase hnew]
  rw [hfree] at H
  obtain ⟨start, «end», y, hcell⟩ : ∃ s e y, Cell h new ⟨s, e, 0, y, 0⟩ := H.other
  have H := (Separate.third H).swap (q := cell new ⟨start, «end», 0, y, 0⟩) hcell rfl
  exact ⟨start, «end», y, H.third.third⟩

theorem At.close_spare {s e y : ℕ} (H : At h k C ({cell new ⟨s, e, 0, y, 0⟩} + free.map spare)) :
    At h k C ((new ::ₘ free).map spare) := by
  have hcell : Cell h new ⟨s, e, 0, y, 0⟩ := H.other
  have H := (Separate.third H).swap (q := spare new) ⟨s, e, y, hcell⟩ rfl
  rw [Multiset.map_cons, ← Multiset.singleton_add]
  exact H.third.third

def Kept (w : ℕ) (call : Call) (h : Heap) (T : Forest) : Prop :=
  ∃ h' ret T' free', call.Returns w h h' ret ∧ Models h' T' free' ∧ addrOr 0 T' = addrOr 0 T ∧ Rooted T' ∧
    (call.Failed h' ret → T' = T)

theorem kept_of_inserted {call : Call} {h' : Heap} (hroot : Rooted T)
    (hret : call.Returns w h h' .ok) (hins : Inserted h' T new (free.map spare))
    (hfail : call.Failed h' .ok → ∃ r, h' new = some r ∧ r.parent = 0) : Kept w call h T := by
  obtain ⟨T', H', -, haddr, ⟨d, P, s, e, N, k, A, t, u, m, rfl⟩, hrooted⟩ := hins
  refine ⟨h', .ok, _, free, hret, H', haddr, hrooted hroot, fun hf => ?_⟩
  -- a resource in the tree has a parent
  obtain ⟨r, hr, hr0⟩ := hfail hf
  obtain ⟨hP, -, hnew, -⟩ := at_row (at_fill.mp H')
  rw [hnew.1] at hr
  cases hr
  exact absurd hr0 hP.2

theorem kept_of_same {call : Call} {h' : Heap} {free' : Multiset ℕ} (hroot : Rooted T) (ret : Ret)
    (hret : call.Returns w h h' ret) (hm : Models h' T free') : Kept w call h T :=
  ⟨h', ret, T, free', hret, hm, rfl, hroot, fun _ => rfl⟩

variable (hm : Models h T free)
include hm

theorem Models.below (hmem : root ∈ T.ids) (hnew : new ∈ free) :
    ∃ k s e C N start «end» y, T = Path.fill (.below root s e N :: k) C ∧
      At h (.below root s e N :: k) C (free.map spare) ∧ At h (.below root s e N :: k) C
        ({cell new ⟨start, «end», 0, y, 0⟩} + (free.erase new).map spare) := by
  obtain ⟨k, s, e, C, N, rfl⟩ := Path.exists_fill_of_mem hmem
  have hm₀ : At h (.below root s e N :: k) C (free.map spare) := at_fill.mp hm
  obtain ⟨start, «end», y, H⟩ := hm₀.open_spare hnew
  exact ⟨k, s, e, C, N, start, «end», y, rfl, hm₀, H⟩

variable (hroot : Rooted T)
include hroot

theorem Call.request_kept (hmem : root ∈ T.ids)
    (hnew : new ∈ free) : Kept w (.request root new) h T := by
  obtain ⟨k, s, e, C, N, start, «end», y, rfl, hm₀, H⟩ := hm.below hmem hnew
  have hP : root ≠ 0 := (at_below.mp H).head.2
  obtain ⟨fuel, hlen⟩ : ∃ fuel, rowLength C < fuel := ⟨_, Nat.lt_succ_self _⟩
  obtain ⟨-, hreq⟩ | ⟨hfit, A, B, rfl, hA, ⟨hafter, h', hreq, H'⟩ | ⟨b, t, u, d, m, rfl, -, -, hreq⟩⟩ :=
    requestResourceLocked_spec H hlen
  · refine kept_of_same hroot .ebusy (.of_run fuel ?_) hm
    simp [Call.run, requestResource, hreq, bind, Except.bind, hP]
  · have hspot : Spot (Path.fill (.below root s e N :: k) (A ++ B)) start «end» root s e N k A (.nil ++ B) :=
      ⟨rfl, hfit.2, hA, hroot.hole.1⟩
    refine kept_of_inserted hroot (.of_run fuel ?_)
      (inserted_of_spot hspot hfit.1 (by simp [Forest.tops]) hafter H') (fun hf => absurd rfl hf)
    simp [Call.run, requestResource, hreq, bind, Except.bind]
  · have hb : b ≠ 0 := (at_row hm₀).2.2.1.2
    refine kept_of_same hroot .ebusy (.of_run fuel ?_) hm
    simp [Call.run, requestResource, hreq, bind, Except.bind, hb]

theorem Call.insert_kept (hmem : root ∈ T.ids)
    (hnew : new ∈ free) : Kept w (.insert root new) h T := by
  obtain ⟨k, s, e, C, N, start, «end», y, rfl, -, H⟩ := hm.below hmem hnew
  have hP : root ≠ 0 := (at_below.mp H).head.2
  obtain ⟨fuel, hlen⟩ : ∃ fuel, C.ids.length < fuel := ⟨_, Nat.lt_succ_self _⟩
  obtain ⟨-, hins⟩ | ⟨-, ⟨h', hins, hdone⟩ | ⟨c, v, z, p, a, f, hins, -, hc, -⟩⟩ :=
    insertResourceLocked_spec H hroot.hole.1 hlen
  · refine kept_of_same hroot .ebusy (.of_run fuel ?_) hm
    simp [Call.run, insertResource, hins, bind, Except.bind, hP]
  · refine kept_of_inserted hroot (.of_run fuel ?_) hdone (fun hf => absurd rfl hf)
    simp [Call.run, insertResource, hins, bind, Except.bind]
  · refine kept_of_same hroot .ebusy (.of_run fuel ?_) hm
    simp [Call.run, insertResource, hins, bind, Except.bind, hc.2]

theorem Call.expand_kept (hmem : root ∈ T.ids)
    (hnew : new ∈ free ∨ ∃ d, InRow T new d) : Kept w (.expand root new) h T := by
  obtain hnew | ⟨d, P, s, e, N, k, A, t, u, m, rfl⟩ := hnew
  · obtain ⟨k, s, e, C, N, start, «end», y, rfl, -, H⟩ := hm.below hmem hnew
    obtain ⟨M, hM⟩ := insertResourceExpandToFit_spec hroot.hole.1 H
    obtain ⟨h', hrun, hins | ⟨start', end', H'⟩⟩ := hM M le_rfl
    · refine kept_of_inserted hroot (.of_run M ?_) hins id
      simp [Call.run, hrun, bind, Except.bind]
    · refine kept_of_same hroot .ok (.of_run M ?_) ((at_fill (k := .below root s e N :: k)).mpr H'.close_spare)
      simp [Call.run, hrun, bind, Except.bind]
  · -- a resource that has a parent is left alone
    obtain ⟨hP, -, hcell, -⟩ := at_row (at_fill.mp hm)
    refine kept_of_same hroot .ok (.of_run 0 ?_) hm
    simp [Call.run, insertResourceExpandToFit, load_eq hcell, bind, Except.bind, hP.2]

theorem Call.adjust_kept {res start size : ℕ}
    (hres : ∃ d, InRow T res d) (hsize : 1 ≤ size) (hwrap : start + size - 1 < 2 ^ w) :
    Kept w (.adjust res start size) h T := by
  obtain ⟨d, P, s, e, N, k, A, t, u, m, rfl⟩ := hres
  obtain ⟨hnest, hhole⟩ := hroot.hole
  obtain hrun | ⟨h', hrun, H', hnest'⟩ :=
    adjustResource_spec (at_fill.mp hm) hnest hsize hwrap (Nat.lt_succ_self _)
  · exact kept_of_same hroot .ebusy (.of_run _ hrun) hm
  · exact ⟨h', .ok, _, free, .of_run _ hrun, at_fill.mpr H', addrOr_fill_cons _ _ _ _, hhole _ hnest',
      fun hf => absurd rfl hf⟩

theorem Call.release_kept {old : ℕ} (hold : InRow T old .nil) : Kept w (.release old) h T := by
  obtain ⟨P, s, e, N, k, A, t, u, m, rfl⟩ := hold
  obtain ⟨hnest, hhole⟩ := hroot.hole
  obtain ⟨h', hrun, H'⟩ := releaseResource_spec (at_fill.mp hm) (Nat.lt_succ_self _)
  refine ⟨h', .ok, _, old ::ₘ free, .of_run _ hrun, at_fill.mpr H'.close_spare, addrOr_fill_cons _ _ _ _,
    hhole _ ?_, fun hf => absurd rfl hf⟩
  obtain ⟨hnA, h₁, h₂, -, -, hnm⟩ := Forest.nested_append.mp hnest
  exact Forest.nested_append.mpr ⟨hnA, hnm.mono (by omega) le_rfl⟩

theorem Call.kept {call : Call} (hallowed : call.Allowed w T free) : Kept w call h T := by
  cases call with
  | request root new => exact Call.request_kept hm hroot hallowed.1 hallowed.2
  | insert root new => exact Call.insert_kept hm hroot hallowed.1 hallowed.2
  | expand root new => exact Call.expand_kept hm hroot hallowed.1 hallowed.2
  | adjust res start size => exact Call.adjust_kept hm hroot hallowed.1 hallowed.2.1 hallowed.2.2
  | release old => exact Call.release_kept hm hroot hallowed

end Calls

section Runs

variable {h : Heap} {T : Forest} {free : Multiset ℕ} {w root : ℕ}

theorem Reached.inv (hr : Reached w root h T free) :
    Models h T free ∧ Rooted T ∧ addrOr 0 T = root := by
  induction hr with
  | start hm => exact ⟨hm, ⟨True.intro, rfl⟩, rfl⟩
  | prepare _ hm ih => exact ⟨hm, ih.2⟩
  | call _ hallowed hret hm hroot ih =>
    obtain ⟨h'', ret', T'', free'', hret', hm', haddr, hrooted, -⟩ := Call.kept ih.1 ih.2.1 hallowed
    obtain ⟨rfl, rfl⟩ := hret.unique hret'
    obtain rfl := hm.unique hm' (by rw [hroot, haddr, ih.2.2])
    exact ⟨hm, hrooted, hroot⟩

/-- In every reachable tree the children of each node are sorted, disjoint and inside the node, and the
links are those of the tree; every call returns to such a tree, the same one if the call fails. -/
theorem resourceTree_nested (hr : Reached w root h T free) : Models h T free ∧
    (∀ x ∈ T.nodes, x.2.tops.Pairwise (fun r r' => r.1 ≤ r.2 ∧ r.2 < r'.1) ∧
      ∀ r ∈ x.2.tops, x.1.1 ≤ r.1 ∧ r.1 ≤ r.2 ∧ r.2 ≤ x.1.2) ∧
    ∀ call : Call, call.Allowed w T free → ∃ h' ret T' free', call.Returns w h h' ret ∧
      Reached w root h' T' free' ∧ (call.Failed h' ret → T' = T) := by
  obtain ⟨hm, hroot, haddr⟩ := hr.inv
  refine ⟨hm, fun x hx => ?_, fun call hallowed => ?_⟩
  · have hrow : x.2.Nested x.1.1 x.1.2 := by
      cases T with
      | nil => cases hx
      | node a s e c n =>
        obtain ⟨hc, rfl⟩ := hroot
        simp only [Forest.nodes, List.append_nil, List.mem_cons] at hx
        obtain rfl | hx := hx
        · exact hc
        · exact hc.nodes_mem x hx
    refine ⟨?_, hrow.tops_mem⟩
    refine hrow.pairwise.imp_of_mem fun hr _ hlt => ⟨(hrow.tops_mem _ hr).2.1, hlt⟩
  · obtain ⟨h', ret, T', free', hret, hm', haddr', -, hfail⟩ := Call.kept hm hroot hallowed
    exact ⟨h', ret, T', free', hret, hr.call hallowed hret hm' (haddr'.trans haddr), hfail⟩

end Runs

def soleRoot : Heap := fun a =>
  if a = 4 then some ⟨0, 100, 0, 0, 0⟩ else if a = 8 then some ⟨10, 20, 0, 0, 0⟩ else none

theorem soleRoot_models : Models soleRoot (.node 4 0 100 .nil .nil) {8} := by
  refine ⟨fun p hp => ?_, by decide⟩
  simp only [Multiset.map_singleton, Multiset.mem_add, Multiset.mem_singleton] at hp
  obtain rfl | rfl | rfl := hp
  · exact True.intro
  · exact ⟨⟨rfl, by decide⟩, True.intro, True.intro⟩
  · exact ⟨10, 20, 0, rfl, by decide⟩

theorem resourceTree_nested_soleRoot : Reached 32 4 soleRoot (.node 4 0 100 .nil .nil) {8} ∧
    ∃ h' ret T' free', (Call.insert 4 8).Returns 32 soleRoot h' ret ∧ Reached 32 4 h' T' free' ∧
      ((Call.insert 4 8).Failed h' ret → T' = .node 4 0 100 .nil .nil) := by
  have hr : Reached 32 4 soleRoot (.node 4 0 100 .nil .nil) {8} := .start soleRoot_models
  have hallowed : (Call.insert 4 8).Allowed 32 (.node 4 0 100 .nil .nil) {8} := ⟨by decide, by decide⟩
  exact ⟨hr, (resourceTree_nested hr).2.2 (.insert 4 8) hallowed⟩

end VDLinux.Kernel.Resources
