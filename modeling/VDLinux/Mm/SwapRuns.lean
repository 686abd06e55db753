import VDLinux.Mm.SwapSteps

namespace VDLinux.Mm.Swap

open Base.CarryChain List

def acquires (e : ℕ) : Event → ℕ
  | (.duplicate offset, some .ok) => if offset = e then 1 else 0
  | (.take offset .map, some .ok) => if offset = e then 1 else 0
  | _ => 0

def releases (e : ℕ) : Event → ℕ
  | (.swapFree offset, some .ok) => if offset = e then 1 else 0
  | _ => 0

def total (f : Event → ℕ) (log : List Event) : ℕ := (log.map f).sum

variable {si si' : SwapInfo} {e : ℕ} {step : Step}

theorem acquires_of_ne (ret : Option Ret) (h : e ≠ step.offset) : acquires e (step, ret) = 0 := by
  unfold acquires
  split
  · rename_i heq
    cases heq
    exact if_neg (Ne.symm h)
  · rename_i heq
    cases heq
    exact if_neg (Ne.symm h)
  · rfl

theorem releases_of_ne (ret : Option Ret) (h : e ≠ step.offset) : releases e (step, ret) = 0 := by
  unfold releases
  split
  · rename_i heq
    cases heq
    exact if_neg (Ne.symm h)
  · rfl

structure Performed (si : SwapInfo) (step : Step) (ret : Option Ret) (si' : SwapInfo) : Prop where
  inv : si'.Inv
  max_eq : si'.max = si.max
  others : ∀ e < si.max, e ≠ step.offset →
    si'.swapMap e = si.swapMap e ∧ si'.represented e = si.represented e
  nomem : ret = some .enomem → si' = si
  balance : ∀ e < si.max, releases e (step, ret) ≤ si.represented e →
    si'.represented e + releases e (step, ret) = si.represented e + acquires e (step, ret)

theorem Performed.of_moves {ret : Option Ret} (h : si.Inv) (he : step.offset < si.max)
    (hm : Moves si si' step.offset) (hnomem : ret = some .enomem → si' = si)
    (hbalance : releases step.offset (step, ret) ≤ si.represented step.offset →
      si'.represented step.offset + releases step.offset (step, ret) =
        si.represented step.offset + acquires step.offset (step, ret)) :
    Performed si step ret si' := by
  have hothers : ∀ e < si.max, e ≠ step.offset →
      si'.swapMap e = si.swapMap e ∧ si'.represented e = si.represented e := fun e hlt hne =>
    ⟨hm.map_eq e hne, (hm.others e hne (h.legal e hlt)).2⟩
  refine ⟨h.moves he hm, hm.max_eq, hothers, hnomem, ?_⟩
  intro e hlt hle
  by_cases heq : e = step.offset
  · subst heq
    exact hbalance hle
  · rw [releases_of_ne ret heq, acquires_of_ne ret heq, (hothers e hlt heq).2]

theorem Performed.idle {ret : Option Ret} (h : si.Inv)
    (hacq : ∀ e < si.max, acquires e (step, ret) = 0) (hrel : ∀ e < si.max, releases e (step, ret) = 0) :
    Performed si step ret si :=
  ⟨h, rfl, fun _ _ _ => ⟨rfl, rfl⟩, fun _ => rfl, fun e he _ => by rw [hacq e he, hrel e he]⟩

theorem perform_free {usage : Byte} (step : Step) (h : si.Inv)
    (hfree : ∀ ret, ∀ e < si.max, acquires e (step, ret) = 0)
    (hrel : ∀ e, releases e (step, none) = 0)
    (hspec : step.offset < si.max → si.swapMap step.offset ≠ 0 →
      ∃ b si', swapEntryFree si step.offset usage = .ok (b, si') ∧ Moves si si' step.offset ∧
        (releases step.offset (step, some .ok) ≤ si.represented step.offset →
          si'.represented step.offset + releases step.offset (step, some .ok) =
            si.represented step.offset)) :
    ∃ ret si', freeThrough si step.offset usage = .ok (ret, si') ∧ Performed si step ret si' := by
  unfold freeThrough
  by_cases hget : swapInfoGet si step.offset = true
  · obtain ⟨he, hne⟩ : step.offset < si.max ∧ si.swapMap step.offset ≠ 0 := by
      simpa [swapInfoGet] using hget
    obtain ⟨b, si', hres, hm, hbal⟩ := hspec he hne
    rw [if_pos hget]
    refine ⟨some .ok, si', by simp [hres, bind, Except.bind], ?_⟩
    refine Performed.of_moves h he hm (by rintro ⟨⟩) ?_
    rw [hfree _ _ he]
    exact hbal
  · rw [if_neg hget]
    exact ⟨none, si, rfl, Performed.idle h (hfree none) fun e _ => hrel e⟩

theorem swapDuplicateLocked_outside {usage : Byte} (he : ¬ e < si.max) :
    swapDuplicateLocked si e usage = .ok (.einval, si) := if_pos (Nat.not_lt.mp he)

theorem perform_spec (h : si.Inv) (step : Step) :
    ∃ ret si', perform si step = .ok (ret, si') ∧ Performed si step ret si' := by
  cases step with
  | take offset taker =>
    cases htake : takeEntry si offset taker.usage with
    | none =>
      exact ⟨none, si, by simp only [perform, htake],
        Performed.idle h (fun _ _ => by cases taker <;> rfl) fun _ _ => rfl⟩
    | some si' =>
      obtain ⟨he, hm, hzero, hrep⟩ := takeEntry_spec h htake
      refine ⟨some .ok, si', by simp only [perform, htake],
        Performed.of_moves h he hm nofun fun _ => ?_⟩
      change si'.represented offset + 0 = si.represented offset + _
      rw [hzero, hrep]
      cases taker with
      | cache => rfl
      | map => simp [acquires, Step.offset]
  | duplicate offset =>
    by_cases he : offset < si.max
    · obtain ⟨ret, si', hres, hd⟩ := swapDuplicateLocked_spec h he
      refine ⟨some ret, si', by simp only [perform, hres, bind, Except.bind],
        Performed.of_moves h he hd.moves (fun hn => hd.failed ?_) fun _ => ?_⟩
      · cases hn
        exact nofun
      · change si'.represented offset + 0 = si.represented offset + _
        cases ret with
        | ok =>
          rw [hd.gained rfl]
          simp [acquires, Step.offset]
        | einval | eexist | enoent | enomem =>
          rw [hd.failed fun h => nomatch h]
          rfl
    · refine ⟨some .einval, si, ?_, Performed.idle h (fun _ _ => rfl) fun _ _ => rfl⟩
      simp [perform, swapDuplicateLocked_outside he, bind, Except.bind]
  | swapcachePrepare offset =>
    by_cases he : offset < si.max
    · obtain ⟨ret, si', hres, hm, hrep, hne⟩ := swapcachePrepare_spec h he
      refine ⟨some ret, si', by simp only [perform, hres, bind, Except.bind],
        Performed.of_moves h he hm (fun hn => absurd (Option.some.inj hn) hne) fun _ => ?_⟩
      exact hrep
    · refine ⟨some .einval, si, ?_, Performed.idle h (fun _ _ => rfl) fun _ _ => rfl⟩
      simp [perform, swapDuplicateLocked_outside he, bind, Except.bind]
  | swapFree offset =>
    refine perform_free (.swapFree offset) h (fun _ _ _ => rfl) (fun _ => rfl) fun he hne => ?_
    obtain ⟨b, si', hres, hf⟩ := freed_map h he hne
    refine ⟨b, si', hres, hf.moves, fun hle => ?_⟩
    have hone : releases offset (.swapFree offset, some .ok) = 1 := if_pos rfl
    simp only [Step.offset, hone] at hle ⊢
    exact hf.map (by decide) hle
  | swapcacheFree offset =>
    refine perform_free (.swapcacheFree offset) h (fun _ _ _ => rfl) (fun _ => rfl) fun he hne => ?_
    obtain ⟨b, si', hres, hf⟩ := freed_cache h he hne
    exact ⟨b, si', hres, hf.moves, fun _ => hf.cache rfl⟩
  | addContinuation offset page =>
    by_cases he : offset < si.max
    · obtain ⟨ret, si', hres, hm, hrep, hfail⟩ := addSwapCountContinuation_spec h he page
      refine ⟨some ret, si', by simp only [perform, hres, bind, Except.bind],
        Performed.of_moves h he hm (fun hn => hfail ?_) fun _ => hrep⟩
      cases hn
      exact nofun
    · refine ⟨some .ok, si, ?_, Performed.idle h (fun _ _ => rfl) fun _ _ => rfl⟩
      have hget : swapInfoGet si offset = false := by simp [swapInfoGet, he]
      simp [perform, addSwapCountContinuation, hget, bind, Except.bind]

theorem run_spec (h : si.Inv) (steps : List Step) :
    ∃ log si', run steps si = .ok (log, si') ∧ si'.Inv ∧ si'.max = si.max ∧ ∀ e < si.max,
        (∀ k ≤ log.length, total (releases e) (log.take k) ≤
          si.represented e + total (acquires e) (log.take k)) →
        si'.represented e + total (releases e) log = si.represented e + total (acquires e) log := by
  induction steps generalizing si with
  | nil => exact ⟨[], si, rfl, h, rfl, fun _ _ _ => rfl⟩
  | cons step steps ih =>
    obtain ⟨ret, si₁, hstep, hp⟩ := perform_spec h step
    obtain ⟨log, si', hrun, hinv, hmax, hbal⟩ := ih hp.inv
    refine ⟨(step, ret) :: log, si', by simp [run, hstep, hrun, bind, Except.bind], hinv,
      hmax.trans hp.max_eq, ?_⟩
    intro e he hheld
    have hfirst : releases e (step, ret) ≤ si.represented e := by
      have h1 := hheld 1 (Nat.le_add_left _ _)
      simp only [take_succ_cons, take_zero, total, map_cons, map_nil,
        sum_cons, sum_nil] at h1
      -- no event both hands out a reference and gives one back
      have hboth : releases e (step, ret) = 0 ∨ acquires e (step, ret) = 0 := by
        cases step with
        | swapFree offset => exact .inr rfl
        | _ => exact .inl rfl
      omega
    have hone := hp.balance e he hfirst
    have hrest := hbal e (hp.max_eq ▸ he) fun k hk => by
      have hk' := hheld (k + 1) (Nat.succ_le_succ hk)
      simp only [take_succ_cons, total, map_cons, sum_cons] at hk' ⊢
      omega
    simp only [total, map_cons, sum_cons] at hrest ⊢
    omega

theorem addSwapCountContinuation_room (h : si.Inv) (he : e < si.max) (page : ContPage)
    (hmax : si.count e &&& ~~~countContinued = swapMapMax)
    (hfull : swapCountContinued si e (si.count e) = .ok (false, si)) :
    ∃ lru, addSwapCountContinuation si e (some page) = .ok (.ok, si.setLru e lru) ∧
      ∀ si', swapCountContinued (si.setLru e lru) e (si.count e) ≠ .ok (false, si') := by
  rw [(addSwapCountContinuation_eq h he hmax).2 page]
  cases hc : (si.head (e / pageSize)).continued with
  | false =>
    have hcount : si.count e = swapMapMax := by
      refine (eq_of_max _ hmax).resolve_right fun hcont => ?_
      rw [swapCountContinued, hc, hcont] at hfull
      simp [swapMapMax, countContinued] at hfull
    refine ⟨[page], by simp [hasRoom], fun si' hres => ?_⟩
    simp [swapCountContinued, setLru_head, hcount] at hres
  | true =>
    cases hl : (si.head (e / pageSize)).lru with
    | nil => exact absurd hl (h.listed _ hc)
    | cons first after =>
      have hcount : si.count e = swapMapMax ||| countContinued := by
        refine (eq_of_max _ hmax).resolve_left fun hfirst => ?_
        simp [swapCountContinued, hc, hl, hfirst] at hfull
      have hne : swapMapMax ||| countContinued ≠ swapMapMax := by decide
      have hcarry : carry (e % pageSize) [] first after = .ok none := by
        simp only [swapCountContinued, hc, hl, hcount, if_neg hne, if_true] at hfull
        cases hcar : carry (e % pageSize) [] first after with
        | error b => simp [hcar] at hfull
        | ok r => cases r with
          | none => rfl
          | some lru => simp [hcar] at hfull
      have hf : Full (e % pageSize) (first :: after) := full_of_carry hcarry
      have hroom : hasRoom (e % pageSize) (si.count e) (first :: after) = false := by
        refine hf.hasRoom ?_
        rw [hcount]
        decide
      refine ⟨first :: after ++ [page], by simp [hroom], fun si' hres => ?_⟩
      obtain ⟨lru, hsome⟩ : ∃ lru, carry (e % pageSize) [] first (after ++ [page]) = .ok (some lru) :=
        hf.carry_append page
      simp [swapCountContinued, setLru_head, hcount, hne, hsome] at hres

section

variable {fuel : ℕ} {alloc : ℕ → Option ContPage}

theorem swapDuplicate_done {ret : Ret} (hres : swapDuplicateLocked si e 1 = .ok (ret, si'))
    (hret : ret ≠ .enomem) : swapDuplicate e (fuel + 1) alloc si = .ok (some (.ok, si')) := by
  simp only [swapDuplicate, hres, bind, Except.bind, if_pos hret]

theorem swapDuplicate_full (hres : swapDuplicateLocked si e 1 = .ok (.enomem, si)) {err : Ret}
    (hadd : addSwapCountContinuation si e (alloc 0) = .ok (err, si')) :
    swapDuplicate e (fuel + 1) alloc si = if err ≠ .ok then .ok (some (err, si'))
      else swapDuplicate e fuel (fun n => alloc (n + 1)) si' := by
  simp only [swapDuplicate, hres, bind, Except.bind, ne_eq, not_true, if_false, hadd]

end

theorem swapDuplicate_spec (h : si.Inv) (he : e < si.max) (alloc : ℕ → Option ContPage) {fuel : ℕ}
    (hfuel : 2 ≤ fuel) :
    ∃ ret si', swapDuplicate e fuel alloc si = .ok (some (ret, si')) ∧ (∀ e' < si.max, e' ≠ e →
        si'.swapMap e' = si.swapMap e' ∧ si'.represented e' = si.represented e') ∧
      (ret = .enomem ∧ si' = si ∨ ret = .ok ∧ si'.represented e = si.represented e + 1 ∨
        ret = .ok ∧ si' = si ∧
          (si.swapMap e = 0 ∨ si.count e = swapMapBad ∨ si.count e = swapMapShmem)) := by
  obtain ⟨fuel, rfl⟩ := Nat.exists_eq_add_of_le' hfuel
  obtain ⟨ret, si₁, hres, hd⟩ := swapDuplicateLocked_spec h he
  by_cases hnomem : ret = .enomem
  · subst hnomem
    obtain rfl : si₁ = si := hd.failed (by rintro ⟨⟩)
    obtain ⟨hmax, hfull⟩ := hd.nomem rfl
    cases halloc : alloc 0 with
    | none =>
      have hadd : addSwapCountContinuation si₁ e (alloc 0) = .ok (.enomem, si₁) := by
        rw [halloc]
        exact (addSwapCountContinuation_eq h he hmax).1
      exact ⟨.enomem, si₁, swapDuplicate_full hres hadd, fun _ _ _ => ⟨rfl, rfl⟩, .inl ⟨rfl, rfl⟩⟩
    | some page =>
      obtain ⟨lru, hadd, hroom⟩ := addSwapCountContinuation_room h he page hmax hfull
      obtain ⟨_, _, hadd', hm, hrep, -⟩ := addSwapCountContinuation_spec h he (some page)
      obtain ⟨rfl, rfl⟩ : Ret.ok = _ ∧ si₁.setLru e lru = _ := by
        simpa using hadd.symm.trans hadd'
      obtain ⟨ret₂, si₂, hres₂, hd₂⟩ := swapDuplicateLocked_spec (h.moves he hm) he
      have hok : ret₂ = .ok := by
        by_contra hne
        by_cases hno : ret₂ = .enomem
        · exact hroom _ (hd₂.nomem hno).2
        · have hold : si₁.swapMap e = 0 ∨ si₁.count e = swapMapBad ∨ si₁.count e = swapMapShmem :=
            hd₂.refused hne hno
          obtain h0 | hb | hs := hold
          · rw [SwapInfo.count, h0] at hmax
            exact absurd hmax (by decide)
          · rw [hb] at hmax
            exact absurd hmax (by decide)
          · rw [hs] at hmax
            exact absurd hmax (by decide)
      refine ⟨.ok, si₂, ?_, ?_, .inr (.inl ⟨rfl, by rw [hd₂.gained hok, hrep]⟩)⟩
      · have hno : ret₂ ≠ .enomem := by
          rw [hok]
          rintro ⟨⟩
        rw [← halloc] at hadd
        rw [swapDuplicate_full hres hadd, if_neg (not_not.mpr rfl)]
        exact swapDuplicate_done hres₂ hno
      · intro e' hlt hne
        have hl := hm.others e' hne (h.legal e' hlt)
        exact ⟨(hd₂.moves.map_eq e' hne).trans (hm.map_eq e' hne),
          (hd₂.moves.others e' hne hl.1).2.trans hl.2⟩
  · refine ⟨.ok, si₁, swapDuplicate_done hres hnomem, ?_, ?_⟩
    · exact fun e' hlt hne => ⟨hd.moves.map_eq e' hne, (hd.moves.others e' hne (h.legal e' hlt)).2⟩
    · by_cases hok : ret = .ok
      · exact .inr (.inl ⟨rfl, hd.gained hok⟩)
      · exact .inr (.inr ⟨rfl, hd.failed hok, hd.refused hok hnomem⟩)

/-- A swap map as the first entries of an area are handed out: no continuation page yet, and every byte
a count, the mark of a bad page or the mark of shmem, with or without the cache flag. -/
structure SwapInfo.Fresh (si : SwapInfo) : Prop where
  plain : ∀ n, (si.head n).continued = false
  counts : ∀ e < si.max, si.count e ≤ swapMapBad ∨ si.count e = swapMapShmem
  highest : si.highestBit = 0 ∨ si.highestBit < si.max
  inuse : si.inusePages = ∑ e ∈ Finset.range si.max, useOf (si.swapMap e)

theorem SwapInfo.Fresh.inv (h : si.Fresh) : si.Inv := by
  refine ⟨fun n hn => ?_, fun e he => ?_, h.highest, h.inuse⟩
  · rw [h.plain n] at hn
    cases hn
  · have hbyte : ∀ c : Byte, c ≤ swapMapBad → c = swapMapBad ∨
        (c &&& ~~~countContinued ≤ swapMapMax ∧ c &&& countContinued = 0) := by
      decide +kernel
    obtain hc | hs := h.counts e he
    · obtain hb | ⟨hle, h0⟩ := hbyte _ hc
      · exact .inr (.inl hb)
      · exact .inr (.inr ⟨hle, fun hne => absurd h0 hne⟩)
    · exact .inl hs

theorem SwapInfo.Inv.free_iff (h : si.Inv) (he : e < si.max) :
    si.swapMap e = 0 ↔ si.represented e = 0 ∧ ¬ si.cached e ∧ si.count e ≠ swapMapBad := by
  constructor
  · intro h0
    rw [SwapInfo.represented, SwapInfo.cached, SwapInfo.count, h0]
    exact ⟨by simp [tally, swapMapShmem, swapMapBad], by decide, by decide⟩
  · rintro ⟨hrep, hcached, hbad⟩
    obtain hs | hb | ⟨hle, hmore⟩ := h.legal e he
    · rw [SwapInfo.represented, tally, if_pos hs] at hrep
      cases hrep
    · exact absurd hb hbad
    · rw [represented_plain hle] at hrep
      have hcont : si.count e &&& countContinued = 0 := by
        by_contra hne
        have hpos := (hmore hne).2.2
        rw [SwapInfo.carried, if_pos hne] at hrep
        omega
      have hcount : si.count e = 0 := eq_zero_of_digits _ (by omega) hcont
      exact eq_zero_of_masks _ hcount (not_not.mp hcached)

/-- Swap reference counts are exact. Whatever is done to the entries of an area, no check of the code
fails; the count of an entry is what was handed out less what was given back as long as nobody gives back
a reference that was not handed out; an entry is free just when its count and its cache reference are
gone; and from every state that is reached a step leaves the other entries alone, a step that fails for
want of memory changes nothing, and `swap_duplicate` ends after at most two rounds. -/
theorem swapCounts_exact (si : SwapInfo) (h : si.Fresh) (steps : List Step) :
    ∃ log si', run steps si = .ok (log, si') ∧ (∀ e < si.max,
        (∀ k ≤ log.length, total (releases e) (log.take k) ≤
          si.represented e + total (acquires e) (log.take k)) →
        si'.represented e + total (releases e) log = si.represented e + total (acquires e) log) ∧
      (∀ e < si.max, si'.swapMap e = 0 ↔
        si'.represented e = 0 ∧ ¬ si'.cached e ∧ si'.count e ≠ swapMapBad) ∧
      si'.inusePages = ∑ e ∈ Finset.range si.max, useOf (si'.swapMap e) ∧
      (∀ step, ∃ ret si'', perform si' step = .ok (ret, si'') ∧ (∀ e < si.max, e ≠ step.offset →
          si''.swapMap e = si'.swapMap e ∧ si''.represented e = si'.represented e) ∧
        (ret = some .enomem → si'' = si')) ∧
      (∀ e < si.max, ∀ alloc, ∀ fuel ≥ 2, ∃ ret si'',
        swapDuplicate e fuel alloc si' = .ok (some (ret, si'')) ∧
        (∀ e' < si.max, e' ≠ e →
          si''.swapMap e' = si'.swapMap e' ∧ si''.represented e' = si'.represented e') ∧
        (ret = .enomem ∧ si'' = si' ∨ ret = .ok ∧ si''.represented e = si'.represented e + 1 ∨
          ret = .ok ∧ si'' = si' ∧
            (si'.swapMap e = 0 ∨ si'.count e = swapMapBad ∨ si'.count e = swapMapShmem))) := by
  obtain ⟨log, si', hrun, hinv, hmax, hbal⟩ := run_spec h.inv steps
  refine ⟨log, si', hrun, hbal, ?_, ?_, ?_, ?_⟩
  · intro e he
    exact hinv.free_iff (hmax ▸ he)
  · rw [← hmax]
    exact hinv.inuse
  · intro step
    obtain ⟨ret, si'', hres, hp⟩ := perform_spec hinv step
    exact ⟨ret, si'', hres, hmax ▸ hp.others, hp.nomem⟩
  · intro e he alloc fuel hfuel
    rw [← hmax] at he ⊢
    exact swapDuplicate_spec hinv he alloc hfuel

def twoEntries : SwapInfo where
  max := 2
  pages := 2
  swapMap := fun _ => 0
  head := fun _ => ⟨false, []⟩
  lowestBit := 0
  highestBit := 1
  inusePages := 0
  nrSwapPages := 2

theorem twoEntries_fresh : twoEntries.Fresh :=
  ⟨fun _ => rfl, fun _ _ => .inl (show (0 : Byte) &&& ~~~swapHasCache ≤ swapMapBad by decide),
    .inr (by decide), by decide⟩

theorem swapCounts_exact_twoEntries : twoEntries.Fresh ∧
    ∃ log si', run [.take 1 .map, .duplicate 1, .swapFree 1] twoEntries = .ok (log, si') ∧
      si'.represented 1 = 1 := by
  refine ⟨twoEntries_fresh, ?_⟩
  obtain ⟨log, si', hrun, hbal, -⟩ := swapCounts_exact twoEntries twoEntries_fresh
    [.take 1 .map, .duplicate 1, .swapFree 1]
  have hlog : log = [(.take 1 .map, some .ok), (.duplicate 1, some .ok), (.swapFree 1, some .ok)] := by
    have hfst := congrArg (Except.map Prod.fst) hrun
    exact (Except.ok.inj hfst).symm
  have hone := hbal 1 (by decide) (by rw [hlog]; decide)
  rw [hlog] at hone
  have hsum : si'.represented 1 + 1 = 0 + 2 := hone
  exact ⟨log, si', hrun, by omega⟩

end VDLinux.Mm.Swap
