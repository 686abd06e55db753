import VDLinux.Fs.FatScan

namespace VDLinux.Fs.Fat

open Base.Threaded List

variable {vol : Volume} {fat fat' : SbInfo} {disk disk' : Disk} {c n : ℕ} {l : List ℕ}

structure Allocated (vol : Volume) (fat fat' : SbInfo) (n : ℕ) (clusters : List ℕ) : Prop where
  length_eq : clusters.length = n
  nodup : clusters.Nodup
  free : ∀ c ∈ clusters, fatValue vol fat.disk c = fatEntFree
  chain : ∃ c, ChainAt vol fat'.disk c clusters
  frame : ∀ e ∉ clusters, rawEntry vol fat'.disk e = rawEntry vol fat.disk e
  count : fat'.freeClusters.toNat + n = fat.freeClusters.toNat

def AllocExact (vol : Volume) (fat : SbInfo) (n : ℕ) : Prop :=
  ∃ fat' res, (∀ fuel, vol.maxCluster < fuel → fatAllocClusters vol fuel fat n = some (fat', res)) ∧
    (∀ clusters, res = .ok clusters → Allocated vol fat fat' n clusters) ∧
    (res = .error .enospc → ∀ e, rawEntry vol fat'.disk e = rawEntry vol fat.disk e)

def FreeExact (vol : Volume) (fat : SbInfo) (c : ℕ) : Prop :=
  ∃ fat' res, (∀ fuel, vol.maxCluster < fuel → fatFreeClusters vol fuel fat c = some (fat', res)) ∧
    ∀ l, ChainAt vol fat.disk c l → res = .ok () ∧ (∀ e ∈ l, fatValue vol fat'.disk e = fatEntFree) ∧
      ∀ e ∉ l, rawEntry vol fat'.disk e = rawEntry vol fat.disk e

/-- The first `n` free entries behind `prev_free`. -/
def picked (vol : Volume) (fat : SbInfo) (n : ℕ) : List ℕ :=
  (found vol fat.disk (vol.maxCluster - fatStartEnt) (fat.prevFree + 1).toNat).take n

/-- The free entries are no reserved ones and can be pointed to, and the count of them is known and large
enough for those that are taken. -/
structure Allocatable (vol : Volume) (fat : SbInfo) (n : ℕ) : Prop where
  start : ∀ c ∈ (picked vol fat n).head?, fatStartEnt ≤ c
  named : ∀ c ∈ (picked vol fat n).tail, c < vol.fatBits.badFat
  counted : (picked vol fat n).length = n → fat.freeClusters ≠ unknownCount ∧ n ≤ fat.freeClusters.toNat

/-- The count already says that there are too few free entries. -/
def Refused (fat : SbInfo) (n : ℕ) : Prop :=
  fat.freeClusters ≠ unknownCount ∧ fat.freeClusValid ∧ fat.freeClusters.toNat < n

section Count

theorem stepDown_toNat {count : BitVec 32} (h : count ≠ unknownCount) (hpos : 0 < count.toNat) :
    stepDown count ≠ unknownCount ∧ (stepDown count).toNat = count.toNat - 1 := by
  have hsub : (stepDown count).toNat = count.toNat - 1 := by
    rw [stepDown, if_pos h, BitVec.toNat_sub]
    simp only [BitVec.ofNat_eq_ofNat, BitVec.toNat_ofNat]
    omega
  refine ⟨fun heq => ?_, hsub⟩
  rw [heq, show unknownCount.toNat = 4294967295 from rfl] at hsub
  omega

theorem iterate_stepDown {count : BitVec 32} (h : count ≠ unknownCount) (hn : n ≤ count.toNat) :
    (stepDown^[n] count).toNat = count.toNat - n := by
  induction n generalizing count with
  | zero => rfl
  | succ n ih =>
    obtain ⟨hknown, htoNat⟩ := stepDown_toNat h (by omega)
    rw [Function.iterate_succ_apply, ih hknown (by omega), htoNat]
    omega

theorem stepDown_exact_iff {count : BitVec 32} (hn : 0 < n) :
    (stepDown^[n] count).toNat + n = count.toNat ↔ count ≠ unknownCount ∧ n ≤ count.toNat := by
  refine ⟨fun h => ⟨fun hunknown => ?_, by omega⟩, fun h => by rw [iterate_stepDown h.1 h.2]; omega⟩
  have hfix : stepDown^[n] count = count := Function.iterate_fixed (by rw [hunknown]; decide) n
  rw [hfix] at h
  omega

end Count

section Chain

theorem chained_path (hnodup : (c :: l).Nodup) (hmax : ∀ d ∈ c :: l, d < vol.maxCluster)
    (htable : rawEntry vol disk' = chained vol disk (c :: l)) :
    Path (nextCluster vol disk') c (c :: l.takeWhile (· < vol.fatBits.badFat)) := by
  have hnext : nextCluster vol disk' = fun e => entTarget vol.fatBits (chained vol disk (c :: l) e) := by
    funext e
    rw [nextCluster, htable]
  rw [hnext]
  refine thread_path _ (fun a => entTarget_eq_none.mpr (entValue_entMerge_eof a)) (fun a d hd hlt => ?_)
    (fun a d hd hge => ?_) hnodup
  · have hdmax := hmax d (mem_cons_of_mem _ hd)
    rw [entTarget_eq_some, entValue_entMerge_cluster hdmax, if_pos (by simpa using hlt)]
    exact ⟨vol.cluster_ne_eof hdmax, vol.cluster_toNat hdmax⟩
  · have hdmax := hmax d (mem_cons_of_mem _ hd)
    rw [entTarget_eq_none, entValue_entMerge_cluster hdmax, if_neg (by simpa using hge)]

theorem takeWhile_named_iff : l.takeWhile (· < vol.fatBits.badFat) = l ↔ ∀ d ∈ l, d < vol.fatBits.badFat := by
  simp

theorem getLast_notMem_takeWhile (hnodup : (c :: l).Nodup) {p : ℕ → Bool} (hcut : l.takeWhile p ≠ l) :
    (c :: l).getLast (cons_ne_nil c l) ∉ c :: l.takeWhile p := by
  have hdrop : l.dropWhile p ≠ [] :=
    fun hnil => hcut (takeWhile_eq_self_iff.mpr (dropWhile_eq_nil_iff.mp hnil))
  have hsplit : c :: l = (c :: l.takeWhile p) ++ l.dropWhile p := by
    rw [cons_append, takeWhile_append_dropWhile]
  have hlast : (c :: l).getLast (cons_ne_nil c l) = (l.dropWhile p).getLast hdrop := by
    simp only [hsplit]
    exact getLast_append_of_ne_nil _ hdrop
  rw [hsplit] at hnodup
  rw [hlast]
  exact fun hmem => (nodup_append.mp hnodup).2.2 _ hmem _ (getLast_mem hdrop) rfl

theorem chained_iff (hnodup : (c :: l).Nodup) (hmax : ∀ d ∈ c :: l, d < vol.maxCluster)
    (htable : rawEntry vol disk' = chained vol disk (c :: l)) :
    Path (nextCluster vol disk') c (c :: l) ↔ ∀ d ∈ l, d < vol.fatBits.badFat := by
  have hpath := chained_path hnodup hmax htable
  rw [← takeWhile_named_iff]
  refine ⟨fun h => ?_, fun h => h ▸ hpath⟩
  exact (List.cons.inj (hpath.unique h)).2

theorem chained_getLast_ne (hl : l ≠ []) (hnodup : l.Nodup)
    (hfree : ∀ c ∈ l, fatValue vol disk c = fatEntFree) :
    chained vol disk l (l.getLast hl) ≠ rawEntry vol disk (l.getLast hl) := by
  intro heq
  have hvalue := hfree _ (getLast_mem hl)
  rw [fatValue, ← heq, chained, thread_getLast hl hnodup, entValue_entMerge_eof] at hvalue
  exact absurd hvalue (by decide)

end Chain

theorem fatFreeClusters_exact (vol : Volume) (fat : SbInfo) (c : ℕ) : FreeExact vol fat c := by
  obtain ⟨⟨fat', res⟩, hends⟩ := fatFreeClusters_ends vol fat c
  refine ⟨fat', res, hends, fun l hchain => ?_⟩
  obtain ⟨fat'', hloop, htable⟩ := freeLoop_chain hchain fatentInit
    (Nat.le_add_left l.length (vol.maxCluster + 1))
  have hsame := (hends _ (by omega)).symm.trans hloop
  obtain ⟨rfl, rfl⟩ : fat' = fat'' ∧ res = .ok () := by simpa using hsame
  refine ⟨rfl, fun e he => ?_, fun e he => ?_⟩
  · rw [fatValue, htable, if_pos he, entValue_entMerge_free]
  · rw [htable, if_neg he]

section Alloc

def scanStart (fat : SbInfo) : Alloc :=
  { fat := fat
    fatent := { fatentInit with entry := (fat.prevFree + 1).toNat }
    prevEnt := fatentInit
    clusters := [] }

def scanResult (vol : Volume) (fat : SbInfo) (n : ℕ) : Alloc × Bool :=
  allocLoop vol n (vol.maxCluster - fatStartEnt) false (scanStart fat)

theorem scanResult_taken (vol : Volume) (fat : SbInfo) (hn : 0 < n) :
    Taken vol fat (picked vol fat n) (scanResult vol fat n).1 ∧
      ((scanResult vol fat n).2 = true ↔ (picked vol fat n).length = n) := by
  have hstart : Taken vol fat [] (scanStart fat) :=
    ⟨rfl, rfl, rfl, nodup_nil, by simp, by simp⟩
  by_cases hmax : fatStartEnt < vol.maxCluster
  · have hprev : PrevEnt vol [] (scanStart fat).prevEnt := ⟨fun _ => rfl, fun hne => absurd rfl hne⟩
    have hat : AtEntry vol false (scanStart fat).fatent := by simp [AtEntry]
    exact allocLoop_taken hstart hprev hat hmax (nodup_scanned le_rfl hmax) (by simp) hn
  · have hzero : vol.maxCluster - fatStartEnt = 0 := by omega
    rw [scanResult, picked, hzero, found, scanned, filter_nil, take_nil]
    exact ⟨hstart, by rintro ⟨⟩, fun hno => absurd hno hn.ne⟩

theorem le_of_mem_picked (h : ∀ c ∈ (picked vol fat n).head?, fatStartEnt ≤ c) (hc : c ∈ picked vol fat n) :
    fatStartEnt ≤ c := by
  have hn : n ≠ 0 := by
    rintro rfl
    exact nomatch hc
  refine le_of_mem_filter_scanned _ (fun d hd => h d ?_) (mem_of_mem_take hc)
  rwa [picked, List.head?_take, if_neg hn]

theorem fatAllocClusters_scan (vol : Volume) (hn : n ≤ maxBufPerPage / 2) (hgo : ¬ Refused fat n) (fuel : ℕ) :
    fatAllocClusters vol fuel fat n = if (scanResult vol fat n).2 then
        some ((scanResult vol fat n).1.fat, .ok (scanResult vol fat n).1.clusters.reverse)
      else (match (scanResult vol fat n).1.clusters.reverse with
        | [] => some ({ (scanResult vol fat n).1.fat with freeClusters := 0, freeClusValid := true },
            .error .enospc)
        | first :: _ => do
          let r ← fatFreeClusters vol fuel
            { (scanResult vol fat n).1.fat with freeClusters := 0, freeClusValid := true } first
          some (r.1, .error .enospc)) := by
  have hgo' : ¬ (fat.freeClusters ≠ unknownCount ∧ fat.freeClusValid ∧ fat.freeClusters.toNat < n) := hgo
  rw [fatAllocClusters, if_neg (by omega), if_neg hgo']
  rfl

theorem allocated_iff (hn : 0 < n) (hlen : (picked vol fat n).length = n)
    (h : Taken vol fat (picked vol fat n) (scanResult vol fat n).1) :
    Allocated vol fat (scanResult vol fat n).1.fat n (picked vol fat n) ↔ Allocatable vol fat n := by
  have hcount : (scanResult vol fat n).1.fat.freeClusters.toNat + n = fat.freeClusters.toNat ↔
      fat.freeClusters ≠ unknownCount ∧ n ≤ fat.freeClusters.toNat := by
    rw [h.count_eq, hlen]
    exact stepDown_exact_iff hn
  have htable := h.table_eq
  have hnodup := h.nodup
  have hmax := h.lt_max
  constructor
  · intro halloc
    obtain ⟨c', hpath, hrange⟩ := halloc.chain
    refine ⟨fun c hc => (hrange c (List.mem_of_mem_head? hc)).1, ?_, fun _ => hcount.mp halloc.count⟩
    cases hp : picked vol fat n with
    | nil => exact nofun
    | cons c l =>
      rw [hp] at hpath htable hnodup hmax
      have hhead : c' = c := by cases hpath <;> rfl
      exact (chained_iff hnodup hmax htable).mp (hhead ▸ hpath)
  · intro hcan
    refine ⟨hlen, hnodup, h.free, ?_, fun e he => ?_, hcount.mpr (hcan.counted hlen)⟩
    · have hrange : ∀ e ∈ picked vol fat n, fatStartEnt ≤ e ∧ e < vol.maxCluster :=
        fun e he => ⟨le_of_mem_picked hcan.start he, hmax e he⟩
      have hnamed := hcan.named
      cases hp : picked vol fat n with
      | nil =>
        rw [hp] at hlen
        exact absurd hlen hn.ne
      | cons c l =>
        rw [hp] at htable hnodup hmax hrange hnamed
        exact ⟨c, (chained_iff hnodup hmax htable).mpr hnamed, hrange⟩
    · rw [htable]
      exact thread_of_notMem he

theorem undone_iff (hcons : picked vol fat n = c :: l) (hshort : (picked vol fat n).length ≠ n)
    (h : Taken vol fat (picked vol fat n) (scanResult vol fat n).1) {res : Except Error Unit}
    (hdisk : fat'.disk = (scanResult vol fat n).1.fat.disk) {fat'' : SbInfo}
    (hfree : ∀ fuel, vol.maxCluster < fuel → fatFreeClusters vol fuel fat' c = some (fat'', res)) :
    (∀ e, rawEntry vol fat''.disk e = rawEntry vol fat.disk e) ↔ Allocatable vol fat n := by
  have htable := h.table_eq
  have hnodup := h.nodup
  have hmax := h.lt_max
  have hwasFree := h.free
  rw [hcons] at htable hnodup hmax hwasFree
  rw [← hdisk] at htable
  have hlast := chained_getLast_ne (cons_ne_nil c l) hnodup hwasFree
  have hpath := chained_path hnodup hmax htable
  have hfreed : fatStartEnt ≤ c → ∀ e, rawEntry vol fat''.disk e =
      if e ∈ c :: l.takeWhile (· < vol.fatBits.badFat) then
        entMerge vol.fatBits (chained vol fat.disk (c :: l) e) fatEntFree
      else chained vol fat.disk (c :: l) e := by
    intro hc
    have hchain : ChainAt vol fat'.disk c (c :: l.takeWhile (· < vol.fatBits.badFat)) := by
      refine ⟨hpath, fun e he => ?_⟩
      have hmem : e ∈ c :: l := (cons_subset_cons c (takeWhile_subset _)) he
      refine ⟨le_of_mem_picked ?_ (hcons ▸ hmem), hmax e hmem⟩
      rw [hcons]
      exact fun d hd => Option.mem_some.mp hd ▸ hc
    obtain ⟨fat₁, hloop, hentries⟩ := freeLoop_chain hchain fatentInit
      (Nat.le_add_left _ (vol.maxCluster + 1))
    have hsame := (hfree _ (by omega)).symm.trans hloop
    obtain ⟨rfl, -⟩ : fat'' = fat₁ ∧ res = .ok () := by simpa using hsame
    rw [← htable]
    exact hentries
  constructor
  · intro hsame
    have hstart : fatStartEnt ≤ c := by
      by_contra hc
      have hnone := @freeLoop_outside vol fat' c (by omega) fatentInit vol.maxCluster
      have heq := (hfree _ (Nat.lt_succ_self _)).symm.trans hnone
      obtain ⟨rfl, -⟩ : fat'' = fat' ∧ res = .error .eio := by simpa using heq
      exact hlast (by rw [← htable, hsame])
    refine ⟨by rw [hcons]; exact fun d hd => Option.mem_some.mp hd ▸ hstart, ?_, fun hlen => absurd hlen hshort⟩
    rw [hcons, tail_cons, ← takeWhile_named_iff]
    by_contra hcut
    refine hlast ?_
    rw [← hsame, hfreed hstart, if_neg (getLast_notMem_takeWhile hnodup hcut)]
  · intro hcan e
    have hstart : fatStartEnt ≤ c := hcan.start c (by rw [hcons]; rfl)
    have hnamed := hcan.named
    rw [hcons, tail_cons, ← takeWhile_named_iff] at hnamed
    rw [hfreed hstart, hnamed]
    split_ifs with he
    · obtain ⟨w, hw, heq⟩ := thread_of_mem he hnodup
      have hfits : w = fatEntEof ∨ w &&& vol.fatBits.mask = w := by
        refine hw.imp_right ?_
        rintro ⟨d, hd, rfl⟩
        exact vol.cluster_mask (hmax d hd)
      rw [chained, heq, entMerge_entMerge hfits, entMerge_free_of_free fat.disk (hwasFree e he)]
    · exact thread_of_notMem he

theorem allocExact_of_result {res : Except Error (List ℕ)}
    (h : ∀ fuel, vol.maxCluster < fuel → fatAllocClusters vol fuel fat n = some (fat', res)) :
    AllocExact vol fat n ↔ (∀ clusters, res = .ok clusters → Allocated vol fat fat' n clusters) ∧
      (res = .error .enospc → ∀ e, rawEntry vol fat'.disk e = rawEntry vol fat.disk e) := by
  refine ⟨?_, fun hexact => ⟨fat', res, h, hexact⟩⟩
  rintro ⟨fat₁, res₁, h₁, hexact⟩
  have hsame := (h _ (Nat.lt_succ_self _)).symm.trans (h₁ _ (Nat.lt_succ_self _))
  obtain ⟨rfl, rfl⟩ : fat' = fat₁ ∧ res = res₁ := by simpa using hsame
  exact hexact

theorem allocExact_iff (hn : 0 < n) (hsmall : n ≤ maxBufPerPage / 2) (hgo : ¬ Refused fat n) :
    AllocExact vol fat n ↔ Allocatable vol fat n := by
  obtain ⟨htaken, hfound⟩ := scanResult_taken vol fat hn
  have hclusters : (scanResult vol fat n).1.clusters.reverse = picked vol fat n := by
    rw [htaken.clusters_eq, reverse_reverse]
  have hscan := fatAllocClusters_scan vol hsmall hgo
  simp only [hclusters] at hscan
  by_cases hlen : (picked vol fat n).length = n
  · simp only [if_pos (hfound.mpr hlen)] at hscan
    rw [allocExact_of_result fun fuel _ => hscan fuel, ← allocated_iff hn hlen htaken]
    refine ⟨fun h => h.1 _ rfl, fun h => ⟨fun clusters heq => ?_, nofun⟩⟩
    cases heq
    exact h
  simp only [if_neg (mt hfound.mp hlen)] at hscan
  cases hp : picked vol fat n with
  | nil =>
    simp only [hp] at hscan
    have hkeep : rawEntry vol (scanResult vol fat n).1.fat.disk = rawEntry vol fat.disk := by
      rw [htaken.table_eq, hp]
      rfl
    rw [allocExact_of_result fun fuel _ => hscan fuel]
    refine ⟨fun _ => ?_, fun _ => ⟨nofun, fun _ e => congrFun hkeep e⟩⟩
    refine ⟨?_, ?_, fun hno => absurd hno hlen⟩ <;> rw [hp] <;> exact nofun
  | cons c l =>
    simp only [hp] at hscan
    obtain ⟨⟨fat'', res⟩, hends⟩ := fatFreeClusters_ends vol
      { (scanResult vol fat n).1.fat with freeClusters := 0, freeClusValid := true } c
    have hresult : ∀ fuel, vol.maxCluster < fuel →
        fatAllocClusters vol fuel fat n = some (fat'', .error .enospc) := by
      intro fuel hfuel
      rw [hscan]
      simp only [hends fuel hfuel, bind, Option.bind]
    have hdisk : { (scanResult vol fat n).1.fat with freeClusters := 0, freeClusValid := true }.disk =
        (scanResult vol fat n).1.fat.disk := rfl
    rw [allocExact_of_result hresult, ← undone_iff hp hlen htaken hdisk hends]
    exact ⟨fun h => h.2 rfl, fun h => ⟨nofun, fun _ => h⟩⟩

end Alloc

theorem allocExact_of_refused (h : maxBufPerPage / 2 < n ∨ Refused fat n) : AllocExact vol fat n := by
  by_cases hbug : maxBufPerPage / 2 < n
  · refine ⟨fat, .error .bug, fun fuel _ => ?_, nofun, nofun⟩
    rw [fatAllocClusters, if_pos hbug]
  · have hfew : fat.freeClusters ≠ unknownCount ∧ fat.freeClusValid ∧ fat.freeClusters.toNat < n :=
      h.resolve_left hbug
    refine ⟨fat, .error .enospc, fun fuel _ => ?_, nofun, fun _ e => rfl⟩
    rw [fatAllocClusters, if_neg hbug, if_pos hfew]

/-- Allocation and freeing are exact just if the call is refused at once, or the entries it finds can be
chained and counted. -/
theorem fat_exact_iff (vol : Volume) (fat : SbInfo) (n : ℕ) (hn : 0 < n) :
    (AllocExact vol fat n ∧ ∀ c, FreeExact vol fat c) ↔
      (maxBufPerPage / 2 < n ∨ Refused fat n ∨ Allocatable vol fat n) := by
  rw [and_iff_left (fatFreeClusters_exact vol fat)]
  by_cases hgo : maxBufPerPage / 2 < n ∨ Refused fat n
  · exact ⟨fun _ => or_assoc.mp (.inl hgo), fun _ => allocExact_of_refused hgo⟩
  · obtain ⟨hsmall, hnot⟩ := not_or.mp hgo
    rw [allocExact_iff hn (Nat.le_of_not_lt hsmall) hnot, ← or_assoc]
    exact ⟨.inr, fun h => h.resolve_left hgo⟩

def tinyVolume : Volume where
  fatBits := .fat12
  maxCluster := 6
  fatStart := 1
  blocksizeBits := 9
  max_le := by decide
  bits_le := by decide

def tinyFat : SbInfo :=
  { disk := fun _ _ => 0, prevFree := 3, freeClusters := 4, freeClusValid := true }

theorem fat_exact_iff_wrap :
    picked tinyVolume tinyFat 3 = [4, 5, 2] ∧ AllocExact tinyVolume tinyFat 3 ∧
      ∀ c, FreeExact tinyVolume tinyFat c := by
  have hpicked : picked tinyVolume tinyFat 3 = [4, 5, 2] := by decide +kernel
  have hcan : Allocatable tinyVolume tinyFat 3 := by
    refine ⟨?_, ?_, fun _ => by decide⟩
    · decide
    · decide
  exact ⟨hpicked, (fat_exact_iff tinyVolume tinyFat 3 (by decide)).mpr (.inr (.inr hcan))⟩

def limitVolume : Volume where
  fatBits := .fat32
  maxCluster := 0x0ffffff8
  fatStart := 32
  blocksizeBits := 9
  max_le := by decide
  bits_le := by decide

def limitFat : SbInfo :=
  { disk := fun _ _ => 0, prevFree := 0x0ffffff5, freeClusters := 0x0ffffff6, freeClusValid := true }

/-- The last cluster of the volume has the number of the mark for bad clusters: the pointer to it is read
as EOF, and the chain is broken. -/
theorem fat_breaks_chain : (∃ fat', (∀ fuel, fatAllocClusters limitVolume fuel limitFat 2 =
        some (fat', .ok [0x0ffffff6, 0x0ffffff7])) ∧
      fatValue limitVolume fat'.disk 0x0ffffff6 = fatEntEof) ∧
    ¬ (AllocExact limitVolume limitFat 2 ∧ ∀ c, FreeExact limitVolume limitFat c) := by
  have hfound : (scanResult limitVolume limitFat 2).2 = true := by decide +kernel
  have hclusters : (scanResult limitVolume limitFat 2).1.clusters.reverse = [0x0ffffff6, 0x0ffffff7] := by
    decide +kernel
  have heof : fatValue limitVolume (scanResult limitVolume limitFat 2).1.fat.disk 0x0ffffff6 = fatEntEof := by
    decide +kernel
  have hresult : ∀ fuel, fatAllocClusters limitVolume fuel limitFat 2 =
      some ((scanResult limitVolume limitFat 2).1.fat, .ok [0x0ffffff6, 0x0ffffff7]) := by
    intro fuel
    have hgo : ¬ Refused limitFat 2 := fun h => absurd h.2.2 (by decide)
    rw [fatAllocClusters_scan limitVolume (by decide) hgo, if_pos hfound, hclusters]
  refine ⟨⟨_, hresult, heof⟩, fun h => ?_⟩
  obtain ⟨c, hpath, -⟩ := (((allocExact_of_result fun fuel _ => hresult fuel).mp h.1).1 _ rfl).chain
  cases hpath with
  | step hnext hrest => exact nomatch (entTarget_eq_none.mpr heof).symm.trans hnext

end VDLinux.Fs.Fat
