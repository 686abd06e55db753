import VDLinux.Net.TsnSteps

namespace VDLinux.Net.Sctp

open Base.Scan Base.Serial List

variable {map : TsnMap} {c : ℤ} {m : ℕ} {R : Set ℤ}

/-- The next block of set bits from `off` on: the bits before it are clear, its bits are set, and the bit
behind it is clear. -/
structure IsBlock (bits : ℕ → Bool) (off start stop : ℕ) : Prop where
  off_le : off ≤ start
  start_le : start ≤ stop
  before : ∀ i, off ≤ i → i < start → bits i = false
  inside : ∀ i, start ≤ i → i ≤ stop → bits i = true
  behind : bits (stop + 1) = false

theorem tsnmapFindGapAck_cases {bits : ℕ → Bool} {off len : ℕ} (hzero : bits 0 = false) (hoff : off ≤ len)
    (hpast : ∀ i, len ≤ i → bits i = false) :
    (tsnmapFindGapAck bits off len = (0, 0) ∧ ∀ i, off ≤ i → bits i = false) ∨
    ∃ start stop stop', tsnmapFindGapAck bits off len = (start, stop) ∧ start ≠ 0 ∧
      (if start ≠ 0 ∧ stop = 0 then len - 1 else stop) = stop' ∧ stop' < len ∧
      IsBlock bits off start stop' := by
  have hle : off ≤ findNextBit bits len off := le_scan hoff
  have hmiss : ∀ i, off ≤ i → i < findNextBit bits len off → bits i = false :=
    fun i hi hlt => scan_miss hi hlt
  have hhit : findNextBit bits len off < len → bits (findNextBit bits len off) = true := scan_hit
  unfold tsnmapFindGapAck
  dsimp only
  generalize findNextBit bits len off = start at hle hmiss hhit ⊢
  by_cases hfound : start < len
  · right
    have hset := hhit hfound
    have hstart : start ≠ 0 := by
      rintro rfl
      rw [hzero] at hset
      exact Bool.false_ne_true hset
    have hge : start ≤ findNextZeroBit bits len start := le_scan (Nat.le_of_lt hfound)
    have hlen : findNextZeroBit bits len start ≤ len := scan_le _ _
    have hinside : ∀ i, start ≤ i → i < findNextZeroBit bits len start → bits i = true := by
      intro i hi hlt
      have := scan_miss hi hlt
      simpa using this
    have hbehind : bits (findNextZeroBit bits len start) = false := by
      by_cases hlt : findNextZeroBit bits len start < len
      · have hclear : (!bits (findNextZeroBit bits len start)) = true := scan_hit hlt
        simpa using hclear
      · exact hpast _ (by omega)
    rw [if_pos hfound, if_pos hstart]
    generalize findNextZeroBit bits len start = stop at hge hlen hinside hbehind ⊢
    have hgt : start < stop := by
      by_contra hno
      rw [show stop = start by omega, hset] at hbehind
      exact Bool.false_ne_true hbehind.symm
    have hstop : (if start ≠ 0 ∧ (if stop < len then stop - 1 else 0) = 0 then len - 1
        else if stop < len then stop - 1 else 0) = stop - 1 := by
      by_cases hlt : stop < len
      · rw [if_pos hlt, if_neg (by omega)]
      · rw [if_neg hlt, if_pos ⟨hstart, rfl⟩]
        omega
    refine ⟨start, _, stop - 1, rfl, hstart, hstop, by omega, hle, by omega, hmiss,
      fun i hi hi' => hinside i hi (by omega), ?_⟩
    rw [show stop - 1 + 1 = stop by omega]
    exact hbehind
  · left
    rw [if_neg hfound, if_neg (by omega)]
    refine ⟨rfl, fun i hi => ?_⟩
    by_cases hlt : i < len
    · exact hmiss i hi (by omega)
    · exact hpast i (by omega)

theorem tsnmapNextGapAck_cases (h : Settled map c m R) {off : ℕ} (hoff : off ≤ map.len)
    (hclear : map.tsnMap off = false) :
    (tsnmapNextGapAck map (BitVec.ofInt 32 (c + 1 + off)) = none ∧ ∀ i, off ≤ i → map.tsnMap i = false) ∨
    ∃ start stop, tsnmapNextGapAck map (BitVec.ofInt 32 (c + 1 + off)) =
        some ((start + 1, stop + 1), BitVec.ofInt 32 (c + 1 + (stop + 1 : ℕ))) ∧
      stop < map.len ∧ IsBlock map.tsnMap off start stop := by
  have hlen := h.len_lt
  have hm := h.max_le_len
  have hend : tsnLte map.maxTsnSeen (BitVec.ofInt 32 (c + 1 + off)) = true ↔ m ≤ off + 1 := by
    rw [h.max_eq, tsnLte_iff (by omega) (by omega)]
    omega
  unfold tsnmapNextGapAck
  by_cases hpast : m ≤ off + 1
  · left
    rw [if_pos (hend.mpr hpast)]
    refine ⟨rfl, fun i hi => ?_⟩
    by_cases heq : i = off
    · rw [heq, hclear]
    · exact h.clear (by omega)
  rw [if_neg fun h' => hpast (hend.mp h')]
  have hoffset : (BitVec.ofInt 32 (c + 1 + off) - map.baseTsn).toNat % 2 ^ 16 = off := by
    rw [h.base_eq, sub_toNat (n := off) (by omega) (by omega)]
    omega
  rw [hoffset]
  dsimp only
  cases tsnmapFindGapAck_cases h.missing hoff fun i hi => h.clear (by omega) with
  | inl hnone =>
    left
    rw [hnone.1]
    exact ⟨rfl, hnone.2⟩
  | inr hsome =>
    right
    obtain ⟨start, stop, stop', hfind, hstart, hstop, hlt, hblock⟩ := hsome
    have hle := hblock.start_le
    refine ⟨start, stop', ?_, hlt, hblock⟩
    simp only [hfind, hstop]
    rw [if_pos (by omega), show (start + 1) % 2 ^ 16 = start + 1 by omega,
      show (stop' + 1) % 2 ^ 16 = stop' + 1 by omega, h.cum_eq, ofInt_add_ofNat]
    have hnext := ofInt_add_ofNat (c + ((stop' + 1 : ℕ) : ℤ)) 1
    rw [show c + ((stop' + 1 : ℕ) : ℤ) + ((1 : ℕ) : ℤ) = c + 1 + ((stop' + 1 : ℕ) : ℤ) by omega] at hnext
    rw [← hnext]
    rfl

/-- The blocks that are listed from `off` on hold exactly the set bits, if the list is not cut off. -/
theorem tsnmapGabs_spec (h : Settled map c m R) (n : ℕ) {off : ℕ} (hoff : off ≤ map.len)
    (hclear : map.tsnMap off = false) :
    (∀ gab ∈ tsnmapGabs map n (BitVec.ofInt 32 (c + 1 + off)), off < gab.1) ∧
    ((tsnmapGabs map n (BitVec.ofInt 32 (c + 1 + off))).length < n → ∀ i, off ≤ i →
      (map.tsnMap i = true ↔
        ∃ gab ∈ tsnmapGabs map n (BitVec.ofInt 32 (c + 1 + off)), gab.1 ≤ i + 1 ∧ i + 1 ≤ gab.2)) := by
  induction n generalizing off with
  | zero => exact ⟨nofun, fun hno => absurd hno (Nat.not_lt_zero _)⟩
  | succ n ih =>
    rw [tsnmapGabs]
    cases tsnmapNextGapAck_cases h hoff hclear with
    | inl hnone =>
      rw [hnone.1]
      refine ⟨nofun, fun _ i hi => ?_⟩
      rw [hnone.2 i hi]
      exact ⟨nofun, fun ⟨_, hno, _⟩ => nomatch hno⟩
    | inr hsome =>
      obtain ⟨start, stop, hnext, hstop, hblock⟩ := hsome
      rw [hnext]
      obtain ⟨hbehind, hrest⟩ := ih hstop hblock.behind
      have hle := hblock.off_le
      have hle' := hblock.start_le
      refine ⟨?_, fun hlen i hi => ?_⟩
      · intro gab hgab
        cases hgab with
        | head => exact Nat.lt_succ_of_le hle
        | tail _ hgab =>
          have := hbehind gab hgab
          omega
      · have hlen' : (tsnmapGabs map n (BitVec.ofInt 32 (c + 1 + (stop + 1 : ℕ)))).length < n :=
          Nat.lt_of_succ_lt_succ hlen
        simp only [mem_cons, exists_eq_or_imp]
        -- before the block, in it, or behind it
        by_cases hbefore : i < start
        · rw [hblock.before i hi hbefore]
          refine ⟨nofun, fun hor => ?_⟩
          cases hor with
          | inl hin => omega
          | inr hin =>
            obtain ⟨gab, hgab, hin⟩ := hin
            have := hbehind gab hgab
            omega
        · by_cases hin : i ≤ stop
          · rw [hblock.inside i (by omega) hin]
            exact ⟨fun _ => .inl ⟨by omega, by omega⟩, fun _ => rfl⟩
          · rw [hrest hlen' i (by omega)]
            exact ⟨.inr, fun hor => hor.resolve_left (by omega)⟩

theorem tsnmapNumGabs_spec (h : Settled map c m R) (hroom : (tsnmapNumGabs map).length < sctpMaxGabs)
    {n : ℤ} (hn : c < n) :
    n ∈ R ↔ ∃ gab ∈ tsnmapNumGabs map, (gab.1 : ℤ) ≤ n - c ∧ n - c ≤ gab.2 := by
  obtain ⟨i, rfl⟩ : ∃ i : ℕ, n = c + 1 + i := ⟨(n - (c + 1)).toNat, by omega⟩
  rw [← h.bit_iff]
  unfold tsnmapNumGabs at hroom ⊢
  by_cases hgap : tsnmapHasGap map = true
  · rw [if_pos hgap] at hroom ⊢
    have hstart : map.cumulativeTsnAckPoint + 1 = BitVec.ofInt 32 (c + 1 + (0 : ℕ)) := by
      rw [h.cum_eq]
      exact (ofInt_add_ofNat c 1).trans
        (congrArg (BitVec.ofInt 32) (show c + ((1 : ℕ) : ℤ) = c + 1 + ((0 : ℕ) : ℤ) by omega))
    rw [hstart] at hroom ⊢
    rw [(tsnmapGabs_spec h _ (Nat.zero_le _) h.missing).2 hroom i (Nat.zero_le i)]
    refine exists_congr fun gab => and_congr_right fun _ => ?_
    omega
  · rw [if_neg hgap]
    have hm : m = 0 := not_not.mp (mt h.hasGap_iff.mpr hgap)
    rw [h.clear (hm ▸ Nat.zero_le i)]
    exact ⟨nofun, fun ⟨_, hno, _⟩ => nomatch hno⟩

/-- What has been received, as a set of unbounded sequence numbers. A number on the wire stands for the
number nearest to the watermark; calls outside the window of the map are ignored. -/
noncomputable def receive (R : Set ℤ) : Call → Set ℤ
  | .mark tsn =>
    if unwrap (watermark R) tsn ≤ watermark R + sctpTsnMapSize then insert (unwrap (watermark R) tsn) R else R
  | .skip tsn =>
    if unwrap (watermark R) tsn ≤ watermark R + sctpTsnMapSize then R ∪ Set.Iic (unwrap (watermark R) tsn)
    else R
  | .renege tsn => if watermark R < unwrap (watermark R) tsn then R \ {unwrap (watermark R) tsn} else R

noncomputable def received (initialTsn : BitVec 32) (calls : List Call) : Set ℤ :=
  calls.foldl receive (Set.Iio initialTsn.toNat)

structure Exact (map : TsnMap) (R : Set ℤ) : Prop where
  isGreatest : IsGreatest { c | Set.Iic c ⊆ R } (watermark R)
  ackPoint : map.cumulativeTsnAckPoint = BitVec.ofInt 32 (watermark R)
  check : ∀ tsn, 0 < tsnmapCheck map tsn ↔ unwrap (watermark R) tsn ∈ R
  gabs : (tsnmapNumGabs map).length < sctpMaxGabs → ∀ n, watermark R < n →
    (n ∈ R ↔ ∃ gab ∈ tsnmapNumGabs map, (gab.1 : ℤ) ≤ n - watermark R ∧ n - watermark R ≤ gab.2)

theorem Settled.check_pos_iff (h : Settled map c m R) (tsn : BitVec 32) :
    0 < tsnmapCheck map tsn ↔ unwrap c tsn ∈ R := by
  cases tsnmapCheck_eq h.toTracks tsn with
  | inl hnot =>
    rw [hnot.1]
    refine ⟨fun hpos => ?_, fun hmem => absurd hmem hnot.2⟩
    split at hpos
    · exact absurd hpos (by decide)
    · exact absurd hpos (by decide)
  | inr hmem =>
    rw [hmem.1]
    exact ⟨fun _ => hmem.2, fun _ => by decide⟩

theorem Settled.exact (h : Settled map c m R) : Exact map R where
  isGreatest := by
    rw [h.watermark_eq]
    exact isGreatest_watermark h.below h.next_notMem
  ackPoint := by rw [h.watermark_eq, h.cum_eq]
  check := by
    rw [h.watermark_eq]
    exact h.check_pos_iff
  gabs := by
    rw [h.watermark_eq]
    exact fun hroom n hn => tsnmapNumGabs_spec h hroom hn

theorem init_settled {len : ℕ} (hlen : len < 2 ^ 16) (hdvd : 32 ∣ len) (initialTsn : BitVec 32) :
    Settled (tsnmapInit len initialTsn) (initialTsn.toNat - 1) 0 (Set.Iio initialTsn.toNat) := by
  have hbase : BitVec.ofInt 32 (initialTsn.toNat : ℤ) = initialTsn := by
    rw [BitVec.ofInt_natCast, BitVec.ofNat_toNat, BitVec.setWidth_eq]
  have hcum : initialTsn - 1 = BitVec.ofInt 32 ((initialTsn.toNat : ℤ) - 1) := by
    rw [ofInt_sub, hbase]
    rfl
  refine ⟨⟨?_, hcum, ?_, ?_, ?_, nofun, Nat.zero_le _, Nat.zero_le _, hlen, hdvd⟩, rfl⟩
  · rw [sub_add_cancel]
    exact hbase.symm
  · exact hcum.trans (congrArg (BitVec.ofInt 32) (by omega))
  · intro i
    refine ⟨nofun, fun hmem => ?_⟩
    have hlt : (initialTsn.toNat : ℤ) - 1 + 1 + i < initialTsn.toNat := hmem
    omega
  · intro n hn
    have hle : n ≤ (initialTsn.toNat : ℤ) - 1 := hn
    exact show n < (initialTsn.toNat : ℤ) by omega

theorem perform_settled (h : Settled map c m R) (call : Call)
    (hkeep : ∀ tsn, call = .mark tsn → ¬ Lossy map tsn) :
    ∃ c' m', Settled (perform map call) c' m' (receive R call) := by
  cases call with
  | mark tsn =>
    simp only [perform, receive, h.watermark_eq]
    cases tsnmapCheck_eq h.toTracks tsn with
    | inl hnot =>
      by_cases hfar : c + sctpTsnMapSize < unwrap c tsn
      · rw [if_pos hfar] at hnot
        rw [hnot.1, if_neg (by decide), if_neg (by omega)]
        exact ⟨c, m, h⟩
      · rw [if_neg hfar] at hnot
        obtain ⟨map', c', m', hmark, hset⟩ := tsnmapMark_settled h hnot.1 (hkeep tsn rfl)
        rw [if_pos hnot.1, if_pos (by omega), hmark]
        exact ⟨c', m', hset⟩
    | inr hmem =>
      rw [hmem.1, if_neg (by decide), Set.insert_eq_of_mem hmem.2, ite_self]
      exact ⟨c, m, h⟩
  | skip tsn =>
    simp only [perform, receive, h.watermark_eq]
    exact tsnmapSkip_settled h tsn
  | renege tsn =>
    simp only [perform, receive, h.watermark_eq]
    exact ⟨c, m, tsnmapRenege_settled h tsn⟩

theorem run_settled {len : ℕ} (hlen : len < 2 ^ 16) (hdvd : 32 ∣ len) (initialTsn : BitVec 32)
    (calls : List Call)
    (hkeep : ∀ before tsn after, calls = before ++ .mark tsn :: after →
      ¬ Lossy (run (tsnmapInit len initialTsn) before) tsn) :
    ∃ c m, Settled (run (tsnmapInit len initialTsn) calls) c m (received initialTsn calls) := by
  -- from the end of the run, so that the state before the last call is that of a run
  induction calls using List.reverseRecOn with
  | nil => exact ⟨_, _, init_settled hlen hdvd initialTsn⟩
  | append_singleton calls call ih =>
    obtain ⟨c, m, hset⟩ := ih fun before tsn after hsplit =>
      hkeep before tsn (after ++ [call]) (by rw [hsplit, append_assoc, cons_append])
    have hstep := perform_settled hset call fun tsn htsn => hkeep calls tsn [] (by rw [htsn])
    simpa only [run, received, foldl_append, foldl_cons, foldl_nil] using hstep

theorem not_exact_of_lossy (h : Settled map c m R) {tsn : BitVec 32} (hloss : Lossy map tsn) :
    ¬ Exact (perform map (.mark tsn)) (receive R (.mark tsn)) := by
  obtain ⟨map', m', hmark, hmem, hne, hnext, hpos, hset⟩ := tsnmapMark_lossy h hloss
  have hm : m ≤ 4096 := h.max_le
  have hwindow : unwrap c tsn ≤ c + sctpTsnMapSize := by
    obtain ⟨i, hn, -, hlt, -⟩ := accepted_index h.toTracks hloss.1
    omega
  have hwater : watermark (insert (unwrap c tsn) R) = c := by
    refine watermark_eq (h.below.trans (Set.subset_insert _ _)) fun hmem' => ?_
    cases hmem' with
    | inl heq => exact hnext heq.symm
    | inr hmem' => exact h.next_notMem hmem'
  intro hexact
  simp only [perform, receive, h.watermark_eq, if_pos hloss.1, if_pos hwindow, hmark, Option.getD_some]
    at hexact
  have hlost := hexact.check (BitVec.ofInt 32 (c + m))
  rw [hwater, hset.check_pos_iff, unwrap_ofInt (by decide) (by omega) (by omega)] at hlost
  have hcontra := hlost.mpr (.inr hmem)
  cases hcontra with
  | inl heq => exact hne heq.symm
  | inr hdiff => exact hdiff.2 rfl

/-- Along a run the map tells exactly what has been received if and only if it never grows while the
greatest TSN seen is received and stands at the beginning of a long. -/
theorem tsnmap_exact_iff {len : ℕ} (hlen : len < 2 ^ 16) (hdvd : 32 ∣ len) (initialTsn : BitVec 32)
    (calls : List Call) :
    (∀ before after, calls = before ++ after →
      Exact (run (tsnmapInit len initialTsn) before) (received initialTsn before)) ↔
    ∀ before tsn after, calls = before ++ .mark tsn :: after →
      ¬ Lossy (run (tsnmapInit len initialTsn) before) tsn := by
  constructor
  · intro hexact
    -- the first loss comes behind a run without one
    induction calls using List.reverseRecOn with
    | nil => exact fun before tsn after hsplit => absurd hsplit (by simp)
    | append_singleton calls call ih =>
      have hold := ih fun before after hsplit =>
        hexact before (after ++ [call]) (by rw [hsplit, append_assoc])
      intro before tsn after hsplit hloss
      cases after using List.reverseRecOn with
      | nil =>
        obtain ⟨rfl, hlast⟩ := append_inj' hsplit rfl
        cases hlast
        obtain ⟨c, m, hset⟩ := run_settled hlen hdvd initialTsn calls hold
        have hend := hexact (calls ++ [.mark tsn]) [] (append_nil _).symm
        simp only [run, received, foldl_append, foldl_cons, foldl_nil] at hend
        exact not_exact_of_lossy hset hloss hend
      | append_singleton after last =>
        rw [← cons_append, ← append_assoc] at hsplit
        exact hold before tsn after (append_inj' hsplit rfl).1 hloss
  · intro hkeep before after hsplit
    obtain ⟨c, m, hset⟩ := run_settled hlen hdvd initialTsn before fun before' tsn after' hsplit' =>
      hkeep before' tsn (after' ++ after) (by rw [hsplit, hsplit', append_assoc, cons_append])
    exact hset.exact

/-- The second TSN makes the map grow and the first one is lost. -/
theorem tsnmap_loses_mark : tsnmapCheck (run (tsnmapInit 32 1) [.mark 33]) 33 = 1 ∧
    tsnmapCheck (run (tsnmapInit 32 1) [.mark 33, .mark 65]) 33 = 0 ∧
    ¬ Exact (run (tsnmapInit 32 1) [.mark 33, .mark 65]) (received 1 [.mark 33, .mark 65]) := by
  refine ⟨by decide, by decide, ?_⟩
  have hfirst : ¬ Lossy (tsnmapInit 32 1) 33 := by decide
  obtain ⟨c, m, hset⟩ := perform_settled (init_settled (show 32 < 2 ^ 16 by decide) (Nat.dvd_refl 32) 1)
    (.mark 33) fun tsn htsn => by
      cases htsn
      exact hfirst
  exact not_exact_of_lossy hset (show Lossy (run (tsnmapInit 32 1) [.mark 33]) 65 by decide)

theorem tsnmap_exact_iff_outOfOrder : 32 < 2 ^ 16 ∧ 32 ∣ 32 ∧
      Exact (run (tsnmapInit 32 1) [.mark 3, .mark 1]) (received 1 [.mark 3, .mark 1]) := by
  refine ⟨by decide, Nat.dvd_refl 32, ?_⟩
  refine (tsnmap_exact_iff (by decide) (Nat.dvd_refl 32) 1 [.mark 3, .mark 1]).mpr ?_ _ []
    (append_nil _).symm
  intro before tsn after hsplit
  cases before with
  | nil =>
    cases hsplit
    decide
  | cons call before =>
    cases before with
    | nil =>
      cases hsplit
      decide
    | cons call before => cases before <;> cases hsplit

end VDLinux.Net.Sctp
