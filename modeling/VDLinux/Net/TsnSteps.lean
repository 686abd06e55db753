import VDLinux.Net.TsnMap

namespace VDLinux.Net.Sctp

open Base.Scan Base.Serial

variable {map : TsnMap} {c : ℤ} {m : ℕ} {R : Set ℤ}

theorem accepted_index (h : Tracks map c m R) {tsn : BitVec 32} (hcheck : tsnmapCheck map tsn = 0) :
    ∃ i : ℕ, unwrap c tsn = c + 1 + i ∧ tsn = BitVec.ofInt 32 (c + 1 + i) ∧ i < sctpTsnMapSize ∧
      (tsn - map.baseTsn).toNat = i ∧ tsnLt tsn map.baseTsn = false ∧ c + 1 + i ∉ R := by
  have hcases := tsnmapCheck_eq h tsn
  obtain ⟨n, hn, rfl, hlo, hhi⟩ := exists_tsn c tsn
  rw [hn, hcheck] at hcases
  cases hcases with
  | inr hone => exact absurd hone.1 (by decide)
  | inl hnew =>
    obtain ⟨hwindow, hnot⟩ := hnew
    have hgt : c < n := by
      by_contra hold
      exact hnot (h.below (show n ≤ c by omega))
    obtain ⟨i, hi, hgap⟩ := h.index hgt (by omega)
    exact ⟨i, hn.trans hi, congrArg _ hi, by omega, hgap, h.lt_base hgt hhi, hi ▸ hnot⟩

theorem Tracks.max_index (h : Tracks map c m R) (hm : m ≠ 0) :
    (map.maxTsnSeen - map.baseTsn).toNat = m - 1 := by
  have hle : m ≤ 4096 := h.max_le
  rw [h.max_eq, h.base_eq]
  exact sub_toNat (by omega) (by omega)

theorem bitmapCopy_keeps (h : Tracks map c m R) {i : ℕ} (hi : i + 1 < m ∨ ¬ 32 ∣ (m - 1)) :
    bitmapCopy map.tsnMap (map.maxTsnSeen - map.baseTsn) i = map.tsnMap i := by
  rw [h.bitmapCopy_eq]
  by_cases hset : map.tsnMap i = true
  · have hlt := h.lt_max i hset
    rw [if_pos]
    unfold alignLong
    omega
  · rw [Bool.not_eq_true] at hset
    rw [hset, ite_self]

theorem Settled.remove (h : Settled map c m R) {i len : ℕ} {bits : ℕ → Bool}
    (hbits : ∀ j, bits j = true ↔ map.tsnMap j = true ∧ j ≠ i) (hlen : map.len ≤ len) (hlt : len < 2 ^ 16)
    (hdvd : 32 ∣ len) : Settled { map with tsnMap := bits, len := len } c m (R \ {c + 1 + (i : ℤ)}) := by
  refine ⟨⟨h.base_eq, h.cum_eq, h.max_eq, fun j => ?_, fun n hn => ⟨h.below hn, fun heq => ?_⟩,
    fun j hset => h.lt_max j ((hbits j).mp hset).1, h.max_le, h.max_le_len.trans hlen, hlt, hdvd⟩, ?_⟩
  · rw [hbits, h.bit_iff, Set.mem_sdiff, Set.mem_singleton_iff]
    refine and_congr_right fun _ => not_congr ?_
    omega
  · have hn' : n ≤ c := hn
    rw [Set.mem_singleton_iff] at heq
    omega
  · rw [← Bool.not_eq_true, hbits, h.missing]
    exact fun hno => nomatch hno.1

section Grow

variable {tsn : BitVec 32} {i : ℕ} {len : ℕ}

theorem grown_settled (h : Settled map c m R) (hcheck : tsnmapCheck map tsn = 0)
    (hgrow : map.len ≤ (tsn - map.baseTsn).toNat) (hkeep : ¬ Lossy map tsn)
    (hlen : map.len ≤ len) (hlt : len < 2 ^ 16) (hdvd : 32 ∣ len) :
    Settled { map with tsnMap := bitmapCopy map.tsnMap (map.maxTsnSeen - map.baseTsn), len := len }
      c m R := by
  have hsame : bitmapCopy map.tsnMap (map.maxTsnSeen - map.baseTsn) = map.tsnMap := by
    funext i
    by_cases hset : map.tsnMap i = true
    · have him := h.lt_max i hset
      refine bitmapCopy_keeps h.toTracks ?_
      by_cases hlast : i + 1 < m
      · exact .inl hlast
      · right
        intro hdiv
        have hidx := h.max_index (by omega)
        refine hkeep ⟨hcheck, hgrow, hidx ▸ hdiv, ?_⟩
        rw [hidx, show m - 1 = i by omega]
        exact hset
    · rw [h.bitmapCopy_eq]
      rw [Bool.not_eq_true] at hset
      rw [hset, ite_self]
  rw [hsame]
  exact ⟨⟨h.base_eq, h.cum_eq, h.max_eq, h.bit_iff, h.below, h.lt_max, h.max_le, h.max_le_len.trans hlen,
    hlt, hdvd⟩, h.missing⟩

theorem grown_lossy (h : Settled map c m R) (hloss : Lossy map tsn) (hlen : map.len ≤ len)
    (hlt : len < 2 ^ 16) (hdvd : 32 ∣ len) :
    32 < m ∧ c + m ∈ R ∧
    Settled { map with tsnMap := bitmapCopy map.tsnMap (map.maxTsnSeen - map.baseTsn), len := len }
      c m (R \ {c + (m : ℤ)}) := by
  obtain ⟨hcheck, hgrow, hdiv, hset⟩ := hloss
  have hm : m ≠ 0 := by
    rintro rfl
    rw [h.max_eq, h.base_eq, ← ofInt_sub, show c + ((0 : ℕ) : ℤ) - (c + 1) = -1 by omega] at hdiv
    exact absurd hdiv (by decide)
  rw [h.max_index hm] at hdiv hset
  have hfirst : m - 1 ≠ 0 := by
    intro hzero
    rw [hzero, h.missing] at hset
    exact Bool.false_ne_true hset
  have hbits : ∀ i, bitmapCopy map.tsnMap (map.maxTsnSeen - map.baseTsn) i = true ↔
      map.tsnMap i = true ∧ i ≠ m - 1 := by
    intro i
    by_cases hlast : i = m - 1
    · rw [h.bitmapCopy_eq, if_neg (by unfold alignLong; omega)]
      simp [hlast]
    · by_cases hset' : map.tsnMap i = true
      · rw [bitmapCopy_keeps h.toTracks (.inl (by have := h.lt_max i hset'; omega))]
        simp [hset', hlast]
      · rw [h.bitmapCopy_eq]
        simp [hset']
  have hmem := (h.bit_iff (m - 1)).mp hset
  have hrest := h.remove hbits hlen hlt hdvd
  rw [show c + 1 + ((m - 1 : ℕ) : ℤ) = c + m by omega] at hmem hrest
  exact ⟨by omega, hmem, hrest⟩

end Grow

theorem tsnmapMark_settled (h : Settled map c m R) {tsn : BitVec 32} (hcheck : tsnmapCheck map tsn = 0)
    (hkeep : ¬ Lossy map tsn) :
    ∃ map' c' m', tsnmapMark map tsn = some map' ∧ Settled map' c' m' (insert (unwrap c tsn) R) := by
  obtain ⟨i, hn, htsn, hwindow, hgap, hnew, -⟩ := accepted_index h.toTracks hcheck
  have hw : i < 4096 := hwindow
  unfold tsnmapMark
  rw [if_neg (by rw [hnew]; exact Bool.false_ne_true), hn]
  simp only [hgap, show i % 2 ^ 16 = i by omega]
  by_cases hgrow : map.len ≤ i
  · obtain ⟨len, hres, hlt, hlen, hdvd, hle⟩ := tsnmapGrow_eq h.toTracks hgrow hwindow
    have hgrown := grown_settled h hcheck (hgap ▸ hgrow) hkeep hle hlen hdvd
    obtain ⟨c', m', hset⟩ := tsnmapRecord_settled hgrown hlt hwindow
    rw [← htsn] at hset
    exact ⟨_, c', m', by simp only [if_pos hgrow, hres, bind, Option.bind], hset⟩
  · obtain ⟨c', m', hset⟩ := tsnmapRecord_settled h (Nat.lt_of_not_le hgrow) hwindow
    rw [← htsn] at hset
    exact ⟨_, c', m', by simp only [if_neg hgrow, bind, Option.bind], hset⟩

theorem tsnmapMark_lossy (h : Settled map c m R) {tsn : BitVec 32} (hloss : Lossy map tsn) :
    ∃ map' m', tsnmapMark map tsn = some map' ∧ c + m ∈ R ∧ unwrap c tsn ≠ c + m ∧ unwrap c tsn ≠ c + 1 ∧
      0 < m ∧ Settled map' c m' (insert (unwrap c tsn) (R \ {c + (m : ℤ)})) := by
  obtain ⟨i, hn, htsn, hwindow, hgap, hnew, -⟩ := accepted_index h.toTracks hloss.1
  have hgrow : map.len ≤ i := hgap ▸ hloss.2.1
  obtain ⟨len, hres, hlt, hlen, hdvd, hle⟩ := tsnmapGrow_eq h.toTracks hgrow hwindow
  obtain ⟨hm, hmem, hgrown⟩ := grown_lossy h hloss hle hlen hdvd
  obtain ⟨c', m', hset⟩ := tsnmapRecord_settled hgrown hlt hwindow
  have hmlen := h.max_le_len
  have hc : c' = c := by
    rw [← hset.watermark_eq]
    refine watermark_eq (hgrown.below.trans (Set.subset_insert _ _)) fun hnext => ?_
    cases hnext with
    | inl heq => omega
    | inr hnext => exact h.next_notMem hnext.1
  subst hc
  rw [← htsn] at hset
  unfold tsnmapMark
  rw [if_neg (by rw [hnew]; exact Bool.false_ne_true), hn]
  simp only [hgap, show i % 2 ^ 16 = i by omega]
  exact ⟨_, m', by simp only [if_pos hgrow, hres, bind, Option.bind], hmem, by omega, by omega, by omega, hset⟩

theorem tsnmapSkip_settled (h : Settled map c m R) (tsn : BitVec 32) :
    ∃ c' m', Settled (tsnmapSkip map tsn) c' m'
      (if unwrap c tsn ≤ c + sctpTsnMapSize then R ∪ Set.Iic (unwrap c tsn) else R) := by
  obtain ⟨n, hn, rfl, hlo, hhi⟩ := exists_tsn c tsn
  rw [hn]
  unfold tsnmapSkip
  rw [h.ite_window hlo hhi (show sctpTsnMapSize < 2 ^ 16 by decide)]
  by_cases hin : c < n ∧ n ≤ c + sctpTsnMapSize
  case neg =>
    refine ⟨c, m, ?_⟩
    split_ifs with hfar
    · have hsub : Set.Iic n ⊆ R := (Set.Iic_subset_Iic.mpr (by omega)).trans h.below
      rw [Set.union_eq_self_of_subset_right hsub]
      exact h
    · exact h
  rw [if_pos hin, if_pos hin.2]
  obtain ⟨i, rfl, -⟩ := h.index hin.1 (by omega)
  have hi : i < sctpTsnMapSize := by omega
  have hlen := h.max_le_len
  have hgap : BitVec.ofInt 32 (c + 1 + i) - map.baseTsn + 1 = BitVec.ofNat 32 (i + 1) := by
    rw [h.base_eq, ← ofInt_sub, show c + 1 + (i : ℤ) - (c + 1) = i by omega, BitVec.ofInt_natCast,
      BitVec.ofNat_add]
    rfl
  have hgap' : (BitVec.ofNat 32 (i + 1)).toNat = i + 1 := by
    rw [BitVec.toNat_ofNat]
    omega
  rw [h.bump hi]
  dsimp only
  rw [hgap, hgap', show c + 1 + (i : ℤ) = c + ((i + 1 : ℕ) : ℤ) by omega]
  split_ifs with hall
  · refine ⟨_, _, rebased_tracks h.toTracks (fun j => ⟨nofun, fun hset => ?_⟩) rfl, rfl⟩
    have := h.lt_max _ hset
    omega
  · obtain ⟨z, hz⟩ := tsnmapUpdate_settled (rebased_tracks h.toTracks (h.shift_iff (i + 1)) rfl)
    exact ⟨_, _, hz⟩

theorem tsnmapRenege_settled (h : Settled map c m R) (tsn : BitVec 32) :
    Settled (tsnmapRenege map tsn) c m (if c < unwrap c tsn then R \ {unwrap c tsn} else R) := by
  obtain ⟨n, hn, rfl, hlo, hhi⟩ := exists_tsn c tsn
  rw [hn]
  unfold tsnmapRenege
  rw [h.ite_window hlo hhi h.len_lt]
  by_cases hin : c < n ∧ n ≤ c + map.len
  · rw [if_pos hin, if_pos hin.1]
    obtain ⟨i, rfl, hgap⟩ := h.index hin.1 (by omega)
    rw [hgap]
    refine h.remove (fun j => ?_) le_rfl h.len_lt h.dvd_len
    by_cases hj : j = i
    · simp [setBit, hj]
    · simp [setBit, hj]
  · split_ifs with hnew
    · have hnot : n ∉ R := by
        intro hmem
        have := h.mem_le hmem
        have := h.max_le_len
        omega
      rw [Set.sdiff_singleton_eq_self hnot]
      exact h
    · exact h

end VDLinux.Net.Sctp
