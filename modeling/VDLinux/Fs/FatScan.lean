import VDLinux.Fs.FatChain

namespace VDLinux.Fs.Fat

open Base.Threaded List

variable {vol : Volume} {fat : SbInfo} {fatent : FatEntry} {c e k n : ℕ} {l : List ℕ}

def scanned (vol : Volume) : ℕ → ℕ → List ℕ
  | 0, _ => []
  | k + 1, e =>
    let e := if vol.maxCluster ≤ e then fatStartEnt else e
    e :: scanned vol k (e + 1)

section Scanned

theorem scanned_succ_of_lt (h : e < vol.maxCluster) : scanned vol (k + 1) e = e :: scanned vol k (e + 1) := by
  rw [scanned, if_neg (by omega)]

theorem scanned_wrap (h : vol.maxCluster ≤ e) (hmax : fatStartEnt < vol.maxCluster) :
    scanned vol k e = scanned vol k fatStartEnt := by
  cases k with
  | zero => rfl
  | succ k => rw [scanned, if_pos h, scanned_succ_of_lt hmax]

theorem scanned_append (h : e + k ≤ vol.maxCluster) (j : ℕ) :
    scanned vol (k + j) e = List.range' e k ++ scanned vol j (e + k) := by
  induction k generalizing e with
  | zero => rw [Nat.zero_add]; rfl
  | succ k ih =>
    rw [Nat.succ_add_eq_add_succ, Nat.add_succ, scanned_succ_of_lt (by omega), ih (by omega), range'_succ,
      cons_append, Nat.add_right_comm, Nat.add_assoc]

theorem scanned_eq_range (h : e + k ≤ vol.maxCluster) : scanned vol k e = List.range' e k := by
  rw [← Nat.add_zero k, scanned_append h, scanned, append_nil]
  rfl

theorem le_of_mem_scanned (he : fatStartEnt ≤ e) (h : c ∈ scanned vol k e) : fatStartEnt ≤ c := by
  induction k generalizing e with
  | zero => exact nomatch h
  | succ k ih =>
    have hlo : fatStartEnt ≤ if vol.maxCluster ≤ e then fatStartEnt else e := by split <;> omega
    cases h with
    | head => exact hlo
    | tail _ h => exact ih (by omega) h

theorem nodup_scanned (hk : k ≤ vol.maxCluster - fatStartEnt) (hmax : fatStartEnt < vol.maxCluster) :
    (scanned vol k e).Nodup := by
  by_cases hwrap : vol.maxCluster ≤ e
  · rw [scanned_wrap hwrap hmax, scanned_eq_range (by omega)]
    exact nodup_range'
  by_cases hfit : e + k ≤ vol.maxCluster
  · rw [scanned_eq_range hfit]
    exact nodup_range'
  obtain ⟨j, rfl⟩ : ∃ j, k = vol.maxCluster - e + j := ⟨k - (vol.maxCluster - e), by omega⟩
  rw [scanned_append (by omega), scanned_wrap (by omega) hmax, scanned_eq_range (by omega)]
  refine List.Nodup.append nodup_range' nodup_range' fun x hx hx' => ?_
  have hlo := left_le_of_mem_range' hx
  have hhi := (mem_range'_1.mp hx').2
  omega

theorem le_of_mem_filter_scanned (p : ℕ → Bool)
    (hhead : ∀ c ∈ ((scanned vol k e).filter p).head?, fatStartEnt ≤ c)
    (h : c ∈ (scanned vol k e).filter p) : fatStartEnt ≤ c := by
  induction k generalizing e with
  | zero => exact nomatch h
  | succ k ih =>
    rw [scanned] at h hhead
    generalize (if vol.maxCluster ≤ e then fatStartEnt else e) = e' at h hhead
    cases hp : p e' with
    | true =>
      rw [filter_cons_of_pos hp] at h hhead
      have he' : fatStartEnt ≤ e' := hhead e' rfl
      cases h with
      | head => exact he'
      | tail _ h => exact le_of_mem_scanned (by omega) (mem_filter.mp h).1
    | false =>
      rw [filter_cons_of_neg (by simp [hp])] at h hhead
      exact ih hhead h

end Scanned

section Take

abbrev chained (vol : Volume) (disk : Disk) (l : List ℕ) : ℕ → BitVec 32 :=
  thread (entMerge vol.fatBits) (BitVec.ofNat 32) fatEntEof (rawEntry vol disk) l

def stepDown (count : BitVec 32) : BitVec 32 := if count ≠ unknownCount then count - 1 else count

/-- The entries `l` have been taken from the free entries of `fat`. -/
structure Taken (vol : Volume) (fat : SbInfo) (l : List ℕ) (st : Alloc) : Prop where
  clusters_eq : st.clusters = l.reverse
  table_eq : rawEntry vol st.fat.disk = chained vol fat.disk l
  count_eq : st.fat.freeClusters = stepDown^[l.length] fat.freeClusters
  nodup : l.Nodup
  lt_max : ∀ c ∈ l, c < vol.maxCluster
  free : ∀ c ∈ l, fatValue vol fat.disk c = fatEntFree

def PrevEnt (vol : Volume) (l : List ℕ) (prevEnt : FatEntry) : Prop :=
  (l = [] → prevEnt.nrBhs = 0) ∧ ∀ h : l ≠ [], Positioned vol prevEnt (l.getLast h)

variable {st : Alloc}

@[simp]
theorem countDown_disk (fat : SbInfo) : fat.countDown.disk = fat.disk := by
  rw [SbInfo.countDown]
  split <;> rfl

theorem countDown_freeClusters (fat : SbInfo) : fat.countDown.freeClusters = stepDown fat.freeClusters := by
  rw [SbInfo.countDown, stepDown]
  split <;> rfl

theorem Taken.takeEntry (h : Taken vol fat l st) (hprev : PrevEnt vol l st.prevEnt)
    (hpos : Positioned vol st.fatent e) (he : e < vol.maxCluster) (hel : e ∉ l)
    (hfree : fatValue vol fat.disk e = fatEntFree) : Taken vol fat (l ++ [e]) (takeEntry vol st) := by
  have hraw : rawEntry vol st.fat.disk e = rawEntry vol fat.disk e := by
    rw [h.table_eq]
    exact thread_of_notMem hel
  have hput : rawEntry vol (entPut vol st.fat.disk st.fatent fatEntEof) =
      Function.update (chained vol fat.disk l) e (entMerge vol.fatBits (rawEntry vol fat.disk e) fatEntEof) := by
    rw [rawEntry_put hpos (.inl rfl), hraw, h.table_eq]
  refine ⟨?_, ?_, ?_, ?_, ?_, ?_⟩
  · simp [Fat.takeEntry, h.clusters_eq, hpos.entry_eq]
  · simp only [Fat.takeEntry, countDown_disk, hpos.entry_eq]
    by_cases hl : l = []
    · rw [if_neg (by rw [hprev.1 hl]; simp), hput]
      subst hl
      rfl
    · have hlast := hprev.2 hl
      have hne : l.getLast hl ≠ e := fun heq => hel (heq ▸ getLast_mem hl)
      rw [if_pos hlast.nrBhs_ne, rawEntry_put hlast (.inr (vol.cluster_mask he)), hput,
        Function.update_of_ne hne]
      exact (thread_append (fun a d => entMerge_entMerge (.inl rfl)) hl h.nodup hel).symm
  · simp only [Fat.takeEntry, countDown_freeClusters, h.count_eq, length_append, length_singleton,
      Function.iterate_succ_apply']
  · exact nodup_append.mpr ⟨h.nodup, nodup_singleton e, fun a ha b hb hab =>
      hel (mem_singleton.mp hb ▸ hab ▸ ha)⟩
  · exact forall_mem_append.mpr ⟨h.lt_max, forall_mem_singleton.mpr he⟩
  · exact forall_mem_append.mpr ⟨h.free, forall_mem_singleton.mpr hfree⟩

end Take

section Loop

def found (vol : Volume) (disk : Disk) (k e : ℕ) : List ℕ :=
  (scanned vol k e).filter fun e => fatValue vol disk e = fatEntFree

variable {st : Alloc} {inBlock : Bool}

def AtEntry (vol : Volume) (inBlock : Bool) (fatent : FatEntry) : Prop :=
  inBlock = true → Positioned vol fatent fatent.entry ∧ fatent.entry < vol.maxCluster

theorem fatEntNext_spec (h : Positioned vol fatent e) : (fatEntNext vol fatent).1.entry = e + 1 ∧
      AtEntry vol (fatEntNext vol fatent).2 (fatEntNext vol fatent).1 := by
  obtain ⟨hentry, hpos⟩ := entNext_spec h
  refine ⟨hentry, fun hin => ?_⟩
  simp only [fatEntNext, Bool.and_eq_true, decide_eq_true_eq] at hin ⊢
  exact ⟨hentry ▸ hpos hin.1, hin.2⟩

def nextEntry (vol : Volume) (e : ℕ) : ℕ := if vol.maxCluster ≤ e then fatStartEnt else e

theorem nextEntry_lt (hmax : fatStartEnt < vol.maxCluster) (e : ℕ) : nextEntry vol e < vol.maxCluster := by
  rw [nextEntry]
  split <;> omega

def currentEntry (vol : Volume) (inBlock : Bool) (fatent : FatEntry) : FatEntry :=
  if inBlock then fatent else fatEntReadBlock vol { fatent with entry := nextEntry vol fatent.entry }

theorem AtEntry.positioned (h : AtEntry vol inBlock fatent) :
    Positioned vol (currentEntry vol inBlock fatent) (nextEntry vol fatent.entry) := by
  cases inBlock with
  | false => exact fatEntReadBlock_positioned vol { fatent with entry := nextEntry vol fatent.entry }
  | true =>
    obtain ⟨hpos, hlt⟩ := h rfl
    rw [nextEntry, if_neg (by omega)]
    exact hpos

def takenOn (vol : Volume) (st : Alloc) : Alloc :=
  { takeEntry vol st with prevEnt := st.fatent, fatent := (fatEntNext vol st.fatent).1 }

theorem allocLoop_succ (hcur : currentEntry vol inBlock st.fatent = fatent) :
    allocLoop vol n (k + 1) inBlock st = if entGet vol st.fat.disk fatent = fatEntFree then
        if (takeEntry vol { st with fatent := fatent }).clusters.length = n then
          (takeEntry vol { st with fatent := fatent }, true)
        else allocLoop vol n k (fatEntNext vol fatent).2 (takenOn vol { st with fatent := fatent })
      else allocLoop vol n k (fatEntNext vol fatent).2 { st with fatent := (fatEntNext vol fatent).1 } := by
  subst hcur
  rfl

theorem allocLoop_taken (h : Taken vol fat l st) (hprev : PrevEnt vol l st.prevEnt)
    (hat : AtEntry vol inBlock st.fatent) (hmax : fatStartEnt < vol.maxCluster)
    (hnodup : (scanned vol k st.fatent.entry).Nodup) (hfresh : ∀ c ∈ scanned vol k st.fatent.entry, c ∉ l)
    (hlt : l.length < n) :
    Taken vol fat (l ++ (found vol fat.disk k st.fatent.entry).take (n - l.length))
        (allocLoop vol n k inBlock st).1 ∧
      ((allocLoop vol n k inBlock st).2 = true ↔
        (l ++ (found vol fat.disk k st.fatent.entry).take (n - l.length)).length = n) := by
  induction k generalizing l st inBlock with
  | zero =>
    have hnone : l ++ (found vol fat.disk 0 st.fatent.entry).take (n - l.length) = l := by
      simp [found, scanned]
    rw [hnone]
    exact ⟨h, nofun, fun hno => absurd hno (by omega)⟩
  | succ k ih =>
    have hscan : scanned vol (k + 1) st.fatent.entry = nextEntry vol st.fatent.entry ::
        scanned vol k (nextEntry vol st.fatent.entry + 1) := rfl
    have hpos := hat.positioned
    have hemax : nextEntry vol st.fatent.entry < vol.maxCluster := nextEntry_lt hmax _
    rw [hscan] at hnodup hfresh
    rw [allocLoop_succ rfl, found, hscan]
    generalize nextEntry vol st.fatent.entry = e at *
    generalize currentEntry vol inBlock st.fatent = fatent at *
    obtain ⟨hnext, hatNext⟩ := fatEntNext_spec hpos
    have hel : e ∉ l := hfresh e mem_cons_self
    obtain ⟨herest, hnodup'⟩ := nodup_cons.mp hnodup
    have hvalue : entGet vol st.fat.disk fatent = fatValue vol fat.disk e := by
      rw [entGet_eq hpos, h.table_eq, fatValue]
      exact congrArg _ (thread_of_notMem hel)
    rw [hvalue]
    by_cases hfree : fatValue vol fat.disk e = fatEntFree
    · have htake : Taken vol fat (l ++ [e]) (takeEntry vol { st with fatent := fatent }) :=
        Taken.takeEntry ⟨h.1, h.2, h.3, h.4, h.5, h.6⟩ hprev hpos hemax hel hfree
      have hlen : (takeEntry vol { st with fatent := fatent }).clusters.length = l.length + 1 := by
        rw [htake.clusters_eq, length_reverse, length_append, length_singleton]
      rw [if_pos hfree, hlen, filter_cons_of_pos (by simpa using hfree)]
      by_cases hn : l.length + 1 = n
      · rw [if_pos hn, show n - l.length = 1 by omega, take_succ_cons, take_zero]
        exact ⟨htake, fun _ => by simpa using hn, fun _ => rfl⟩
      · rw [if_neg hn, show n - l.length = n - (l.length + 1) + 1 by omega, take_succ_cons,
          append_cons]
        have hlen' : (l ++ [e]).length = l.length + 1 := by simp
        have hentry : (takenOn vol { st with fatent := fatent }).fatent.entry = e + 1 := hnext
        have hprev' : PrevEnt vol (l ++ [e]) (takenOn vol { st with fatent := fatent }).prevEnt :=
          ⟨fun hnil => absurd hnil (by simp), fun _ => by rw [getLast_concat]; exact hpos⟩
        have hrest := @ih (l ++ [e]) (takenOn vol { st with fatent := fatent }) _
          ⟨htake.1, htake.2, htake.3, htake.4, htake.5, htake.6⟩ hprev' hatNext
        rw [hentry, hlen'] at hrest
        refine hrest hnodup' (fun c hc hmem => ?_) (by omega)
        cases mem_append.mp hmem with
        | inl hmem => exact hfresh c (mem_cons_of_mem _ hc) hmem
        | inr hmem => exact herest (mem_singleton.mp hmem ▸ hc)
    · rw [if_neg hfree, filter_cons_of_neg (by simpa using hfree)]
      have hrest := @ih l { st with fatent := (fatEntNext vol fatent).1 } _
        ⟨h.1, h.2, h.3, h.4, h.5, h.6⟩ hprev hatNext
      rw [hnext] at hrest
      exact hrest hnodup' (fun c hc => hfresh c (mem_cons_of_mem _ hc)) hlt

end Loop

end VDLinux.Fs.Fat
