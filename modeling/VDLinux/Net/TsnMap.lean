import VDLinux.Base.Scan
import VDLinux.Base.Serial

namespace VDLinux.Net.Sctp

open Base.Scan Base.Serial BitVec

def sctpTsnMapSize : ℕ := 4096
def sctpTsnMapIncrement : ℕ := 32
def sctpMaxGabs : ℕ := 16

/-- `struct sctp_tsnmap` on a machine with 32-bit longs; `tsnMap i` is bit `i` of the bitmap. -/
structure TsnMap where
  tsnMap : ℕ → Bool
  baseTsn : BitVec 32
  cumulativeTsnAckPoint : BitVec 32
  maxTsnSeen : BitVec 32
  len : ℕ

def tsnLt (s t : BitVec 32) : Bool := (s - t) &&& 0x80000000 ≠ 0

def tsnLte (s t : BitVec 32) : Bool := s = t ∨ (s - t) &&& 0x80000000 ≠ 0

def tsnmapInit (len : ℕ) (initialTsn : BitVec 32) : TsnMap where
  tsnMap := fun _ => false
  baseTsn := initialTsn
  cumulativeTsnAckPoint := initialTsn - 1
  maxTsnSeen := initialTsn - 1
  len := len

def tsnmapCheck (map : TsnMap) (tsn : BitVec 32) : ℤ :=
  if tsnLte tsn map.cumulativeTsnAckPoint then 1
  else if ¬ tsnLt tsn (map.baseTsn + BitVec.ofNat 32 sctpTsnMapSize) then -1
  else
    let gap := (tsn - map.baseTsn).toNat
    if gap < map.len ∧ map.tsnMap gap then 1 else 0

def tsnmapHasGap (map : TsnMap) : Bool := map.cumulativeTsnAckPoint ≠ map.maxTsnSeen

def findFirstZeroBit (bits : ℕ → Bool) (size : ℕ) : ℕ := scan (fun i => !bits i) size 0

def findNextBit (bits : ℕ → Bool) (size off : ℕ) : ℕ := scan bits size off

def findNextZeroBit (bits : ℕ → Bool) (size off : ℕ) : ℕ := scan (fun i => !bits i) size off

def bitmapShiftRight (bits : ℕ → Bool) (shift size : ℕ) : ℕ → Bool :=
  fun i => if i + shift < size then bits (i + shift) else false

def setBit (bits : ℕ → Bool) (n : ℕ) (b : Bool) : ℕ → Bool := fun i => if i = n then b else bits i

/-- `BITS_TO_LONGS`, in the 32-bit arithmetic that `sizeof` brings into it. -/
def bitsToLongs (nbits : BitVec 32) : ℕ := (nbits + 32 - 1).toNat / 32

/-- `bitmap_copy` into zeroed memory: whole longs are copied. -/
def bitmapCopy (bits : ℕ → Bool) (nbits : BitVec 32) : ℕ → Bool :=
  fun i => if i < 32 * bitsToLongs nbits then bits i else false

def alignLong (n : ℕ) : ℕ := (n + 31) / 32 * 32

/-- Nothing if the gap is too large; the allocation succeeds. -/
def tsnmapGrow (map : TsnMap) (gap : ℕ) : Option TsnMap :=
  if sctpTsnMapSize ≤ gap then none
  else
    let inc := alignLong (gap - map.len) + sctpTsnMapIncrement
    let len := min ((map.len + inc) % 2 ^ 16) sctpTsnMapSize
    some { map with tsnMap := bitmapCopy map.tsnMap (map.maxTsnSeen - map.baseTsn), len := len }

def tsnmapUpdate (map : TsnMap) : TsnMap :=
  let len := (map.maxTsnSeen - map.cumulativeTsnAckPoint).toNat % 2 ^ 16
  let zeroBit := findFirstZeroBit map.tsnMap len
  if zeroBit = 0 then map
  else
    { map with
      baseTsn := map.baseTsn + BitVec.ofNat 32 zeroBit
      cumulativeTsnAckPoint := map.cumulativeTsnAckPoint + BitVec.ofNat 32 zeroBit
      tsnMap := bitmapShiftRight map.tsnMap zeroBit map.len }

def tsnmapRecord (map : TsnMap) (tsn : BitVec 32) (gap : ℕ) : TsnMap :=
  if ¬ tsnmapHasGap map ∧ gap = 0 then
    { map with
      maxTsnSeen := map.maxTsnSeen + 1
      cumulativeTsnAckPoint := map.cumulativeTsnAckPoint + 1
      baseTsn := map.baseTsn + 1 }
  else
    let map := if tsnLt map.maxTsnSeen tsn then { map with maxTsnSeen := tsn } else map
    tsnmapUpdate { map with tsnMap := setBit map.tsnMap gap true }

/-- Nothing for `-ENOMEM`. -/
def tsnmapMark (map : TsnMap) (tsn : BitVec 32) : Option TsnMap :=
  if tsnLt tsn map.baseTsn then some map
  else do
    let gap := (tsn - map.baseTsn).toNat % 2 ^ 16
    let map ← if map.len ≤ gap then tsnmapGrow map gap else some map
    some (tsnmapRecord map tsn gap)

def tsnmapSkip (map : TsnMap) (tsn : BitVec 32) : TsnMap :=
  if tsnLt tsn map.baseTsn then map
  else if ¬ tsnLt tsn (map.baseTsn + BitVec.ofNat 32 sctpTsnMapSize) then map
  else
    let map := if tsnLt map.maxTsnSeen tsn then { map with maxTsnSeen := tsn } else map
    let gap := tsn - map.baseTsn + 1
    let map := { map with baseTsn := map.baseTsn + gap,
                          cumulativeTsnAckPoint := map.cumulativeTsnAckPoint + gap }
    if map.len ≤ gap.toNat then { map with tsnMap := fun _ => false }
    else tsnmapUpdate { map with tsnMap := bitmapShiftRight map.tsnMap gap.toNat map.len }

def tsnmapRenege (map : TsnMap) (tsn : BitVec 32) : TsnMap :=
  if tsnLt tsn map.baseTsn then map
  else if ¬ tsnLt tsn (map.baseTsn + BitVec.ofNat 32 map.len) then map
  else { map with tsnMap := setBit map.tsnMap (tsn - map.baseTsn).toNat false }

/-- `*start` and `*end`, which are 0 where nothing is found. -/
def tsnmapFindGapAck (bits : ℕ → Bool) (off len : ℕ) : ℕ × ℕ :=
  let i := findNextBit bits len off
  let start := if i < len then i else 0
  if start ≠ 0 then
    let i := findNextZeroBit bits len i
    (start, if i < len then i - 1 else 0)
  else (start, 0)

def tsnmapNextGapAck (map : TsnMap) (iterStart : BitVec 32) : Option ((ℕ × ℕ) × BitVec 32) :=
  if tsnLte map.maxTsnSeen iterStart then none
  else
    let offset := (iterStart - map.baseTsn).toNat % 2 ^ 16
    let (start, stop) := tsnmapFindGapAck map.tsnMap offset map.len
    let stop := if start ≠ 0 ∧ stop = 0 then map.len - 1 else stop
    if stop ≠ 0 then
      let stop := (stop + 1) % 2 ^ 16
      some ((((start + 1) % 2 ^ 16), stop), map.cumulativeTsnAckPoint + BitVec.ofNat 32 stop + 1)
    else none

/-- The loop of `sctp_tsnmap_num_gabs`, with room for `n` more blocks. -/
def tsnmapGabs (map : TsnMap) : ℕ → BitVec 32 → List (ℕ × ℕ)
  | 0, _ => []
  | n + 1, iterStart =>
    match tsnmapNextGapAck map iterStart with
    | none => []
    | some (gab, iterStart) => gab :: tsnmapGabs map n iterStart

def tsnmapNumGabs (map : TsnMap) : List (ℕ × ℕ) :=
  if tsnmapHasGap map then tsnmapGabs map sctpMaxGabs (map.cumulativeTsnAckPoint + 1) else []

inductive Call
  | mark (tsn : BitVec 32)
  | skip (tsn : BitVec 32)
  | renege (tsn : BitVec 32)

def perform (map : TsnMap) : Call → TsnMap
  | .mark tsn => if tsnmapCheck map tsn = 0 then (tsnmapMark map tsn).getD map else map
  | .skip tsn => tsnmapSkip map tsn
  | .renege tsn => tsnmapRenege map tsn

def run (map : TsnMap) (calls : List Call) : TsnMap := calls.foldl perform map

section Order

variable {a b : ℤ}

theorem sign_ne_zero_iff (x : BitVec 32) : x &&& 0x80000000 ≠ 0 ↔ x.toInt < 0 := by
  have hbit : x &&& 0x80000000 = if x.getLsbD 31 then 0x80000000 else 0 := and_twoPow x 31
  have hmsb : x.getLsbD 31 = decide (x.toInt < 0) := by
    rw [← msb_eq_toInt, msb_eq_getLsbD_last]
  rw [hbit, hmsb]
  by_cases h : x.toInt < 0
  · simp [h]
  · simp [h]

theorem sub_toInt (hlo : -2 ^ 31 ≤ a - b) (hhi : a - b < 2 ^ 31) :
    (BitVec.ofInt 32 a - BitVec.ofInt 32 b).toInt = a - b := by
  rw [← ofInt_sub]
  exact toInt_ofInt_eq_self (by decide) hlo hhi

theorem tsnLt_iff (hlo : -2 ^ 31 ≤ a - b) (hhi : a - b < 2 ^ 31) :
    tsnLt (BitVec.ofInt 32 a) (BitVec.ofInt 32 b) = true ↔ a < b := by
  rw [tsnLt, decide_eq_true_iff, sign_ne_zero_iff, sub_toInt hlo hhi]
  omega

theorem tsnLte_iff (hlo : -2 ^ 31 ≤ a - b) (hhi : a - b < 2 ^ 31) :
    tsnLte (BitVec.ofInt 32 a) (BitVec.ofInt 32 b) = true ↔ a ≤ b := by
  have hsub := sub_toInt hlo hhi
  rw [tsnLte, decide_eq_true_iff, sign_ne_zero_iff, hsub]
  constructor
  · intro h
    cases h with
    | inl heq =>
      rw [heq, BitVec.sub_self, toInt_zero] at hsub
      omega
    | inr hlt => omega
  · intro h
    by_cases heq : a = b
    · exact .inl (congrArg _ heq)
    · exact .inr (by omega)

theorem ofInt_add_ofNat (a : ℤ) (n : ℕ) :
    BitVec.ofInt 32 a + BitVec.ofNat 32 n = BitVec.ofInt 32 (a + n) := by
  rw [ofInt_add, ofInt_natCast]

theorem sub_toNat {n : ℕ} (h : a - b = n) (hn : n < 2 ^ 32) :
    (BitVec.ofInt 32 a - BitVec.ofInt 32 b).toNat = n := by
  rw [← ofInt_sub, h, ofInt_natCast, toNat_ofNat, Nat.mod_eq_of_lt hn]

end Order

/-- The map holds the set `R` of received TSNs: all up to `c`, and above `c` those whose bit is set. The
greatest TSN seen is `c + m`. -/
structure Tracks (map : TsnMap) (c : ℤ) (m : ℕ) (R : Set ℤ) : Prop where
  base_eq : map.baseTsn = BitVec.ofInt 32 (c + 1)
  cum_eq : map.cumulativeTsnAckPoint = BitVec.ofInt 32 c
  max_eq : map.maxTsnSeen = BitVec.ofInt 32 (c + m)
  bit_iff : ∀ i : ℕ, map.tsnMap i = true ↔ c + 1 + i ∈ R
  below : Set.Iic c ⊆ R
  lt_max : ∀ i : ℕ, map.tsnMap i = true → i < m
  max_le : m ≤ sctpTsnMapSize
  max_le_len : m ≤ map.len
  len_lt : map.len < 2 ^ 16
  dvd_len : 32 ∣ map.len

/-- A map between two calls: the TSN behind the cumulative one is missing. -/
structure Settled (map : TsnMap) (c : ℤ) (m : ℕ) (R : Set ℤ) : Prop extends Tracks map c m R where
  missing : map.tsnMap 0 = false

variable {map : TsnMap} {c : ℤ} {m : ℕ} {R : Set ℤ}

theorem Settled.next_notMem (h : Settled map c m R) : c + 1 ∉ R := by
  intro hmem
  have hbit := (h.bit_iff 0).mpr (by simpa using hmem)
  rw [h.missing] at hbit
  exact Bool.false_ne_true hbit

theorem Settled.watermark_eq (h : Settled map c m R) : watermark R = c :=
  Base.Serial.watermark_eq h.below h.next_notMem

theorem exists_tsn (c : ℤ) (tsn : BitVec 32) :
    ∃ n, unwrap c tsn = n ∧ tsn = BitVec.ofInt 32 n ∧ -2 ^ 31 ≤ n - c ∧ n - c < 2 ^ 31 :=
  ⟨_, rfl, (ofInt_unwrap c tsn).symm, unwrap_bounds c tsn⟩

variable (h : Tracks map c m R)
include h

theorem Tracks.index {n : ℤ} (hn : c < n) (hle : n ≤ c + 2 ^ 31) :
    ∃ i : ℕ, n = c + 1 + i ∧ (BitVec.ofInt 32 n - map.baseTsn).toNat = i := by
  refine ⟨(n - (c + 1)).toNat, by omega, ?_⟩
  rw [h.base_eq]
  exact sub_toNat (by omega) (by omega)

theorem Tracks.lt_window {n : ℤ} (hn : c < n) (hhi : n - c < 2 ^ 31) {k : ℕ} (hk : k < 2 ^ 16) :
    tsnLt (BitVec.ofInt 32 n) (map.baseTsn + BitVec.ofNat 32 k) = true ↔ n ≤ c + k := by
  rw [h.base_eq, ofInt_add_ofNat, tsnLt_iff (by omega) (by omega)]
  omega

theorem Tracks.lt_base {n : ℤ} (hn : c < n) (hhi : n - c < 2 ^ 31) :
    tsnLt (BitVec.ofInt 32 n) map.baseTsn = false := by
  rw [← Bool.not_eq_true, h.base_eq, tsnLt_iff (by omega) (by omega)]
  omega

theorem Tracks.old {n : ℤ} (hn : n ≤ c) (hlo : -2 ^ 31 ≤ n - c) {k : ℕ} (hk : k < 2 ^ 16) :
    tsnLt (BitVec.ofInt 32 n) map.baseTsn = true ∨
      tsnLt (BitVec.ofInt 32 n) (map.baseTsn + BitVec.ofNat 32 k) = false := by
  by_cases hfar : n - c = -2 ^ 31
  · right
    have hwrap : BitVec.ofInt 32 n = BitVec.ofInt 32 (n + 2 ^ 32) := by
      rw [ofInt_add]
      exact (BitVec.add_zero _).symm
    rw [← Bool.not_eq_true, h.base_eq, ofInt_add_ofNat, hwrap, tsnLt_iff (by omega) (by omega)]
    omega
  · left
    rw [h.base_eq, tsnLt_iff (by omega) (by omega)]
    omega

theorem Tracks.ite_window {n : ℤ} (hlo : -2 ^ 31 ≤ n - c) (hhi : n - c < 2 ^ 31) {k : ℕ} (hk : k < 2 ^ 16)
    (map' : TsnMap) : (if tsnLt (BitVec.ofInt 32 n) map.baseTsn = true then map
      else if ¬ tsnLt (BitVec.ofInt 32 n) (map.baseTsn + BitVec.ofNat 32 k) = true then map else map') =
        if c < n ∧ n ≤ c + k then map' else map := by
  by_cases hnew : c < n
  · rw [if_neg (by rw [h.lt_base hnew hhi]; exact Bool.false_ne_true), ite_not,
      if_congr ((h.lt_window hnew hhi hk).trans (and_iff_right hnew).symm) rfl rfl]
  · rw [if_neg (show ¬ (c < n ∧ n ≤ c + k) from fun hin => hnew hin.1)]
    cases h.old (Int.not_lt.mp hnew) hlo hk with
    | inl hfirst => rw [if_pos hfirst]
    | inr hsecond => rw [hsecond, if_pos Bool.false_ne_true, ite_self]

theorem Tracks.clear {i : ℕ} (hi : m ≤ i) : map.tsnMap i = false := by
  rw [← Bool.not_eq_true]
  exact fun hset => absurd (h.lt_max i hset) (Nat.not_lt.mpr hi)

theorem Tracks.hasGap_iff : tsnmapHasGap map = true ↔ m ≠ 0 := by
  have hm : m ≤ 4096 := h.max_le
  rw [tsnmapHasGap, decide_eq_true_iff, h.cum_eq, h.max_eq]
  constructor
  · rintro hne rfl
    exact hne (congrArg _ (by omega))
  · intro hm0 heq
    have hsub : (BitVec.ofInt 32 (c + m) - BitVec.ofInt 32 c).toNat = m := sub_toNat (by omega) (by omega)
    rw [← heq, BitVec.sub_self] at hsub
    exact hm0 hsub.symm

theorem Tracks.mem_le {n : ℤ} (hn : n ∈ R) : n ≤ c + m := by
  by_contra hlt
  have hbit := (h.bit_iff (n - (c + 1)).toNat).mpr (by
    rw [show c + 1 + ((n - (c + 1)).toNat : ℤ) = n by omega]
    exact hn)
  have := h.lt_max _ hbit
  omega

theorem tsnmapCheck_eq (tsn : BitVec 32) :
    tsnmapCheck map tsn = (if c + sctpTsnMapSize < unwrap c tsn then -1 else 0) ∧ unwrap c tsn ∉ R ∨
      tsnmapCheck map tsn = 1 ∧ unwrap c tsn ∈ R := by
  obtain ⟨n, hn, rfl, hlo, hhi⟩ := exists_tsn c tsn
  rw [hn]
  unfold tsnmapCheck
  rw [h.cum_eq]
  by_cases hold : n ≤ c
  · right
    rw [if_pos ((tsnLte_iff hlo hhi).mpr hold)]
    exact ⟨rfl, h.below hold⟩
  have hnew : c < n := by omega
  rw [if_neg (fun hle => hold ((tsnLte_iff hlo hhi).mp hle))]
  have hwindow := h.lt_window hnew hhi (show sctpTsnMapSize < 2 ^ 16 by decide)
  by_cases hfar : c + sctpTsnMapSize < n
  · left
    rw [if_pos (fun hlt => by have := hwindow.mp hlt; omega), if_pos hfar]
    refine ⟨rfl, fun hmem => ?_⟩
    have := h.mem_le hmem
    have := h.max_le
    omega
  rw [if_neg (not_not_intro (hwindow.mpr (by omega))), if_neg hfar]
  obtain ⟨i, hi, hgap⟩ := h.index hnew (by omega)
  rw [hgap, hi, ← h.bit_iff i]
  by_cases hbit : map.tsnMap i = true
  · right
    have hlen : i < map.len := Nat.lt_of_lt_of_le (h.lt_max i hbit) h.max_le_len
    rw [if_pos ⟨hlen, hbit⟩]
    exact ⟨rfl, hbit⟩
  · left
    rw [if_neg fun hand => hbit hand.2]
    exact ⟨rfl, hbit⟩

/-- The two ways to bump the greatest TSN come to one value. -/
theorem Tracks.bump {i : ℕ} (hi : i < sctpTsnMapSize) :
    (if tsnLt map.maxTsnSeen (BitVec.ofInt 32 (c + 1 + i)) = true
      then { map with maxTsnSeen := BitVec.ofInt 32 (c + 1 + i) } else map) =
        { map with maxTsnSeen := BitVec.ofInt 32 (c + (max m (i + 1) : ℕ)) } := by
  have hm : m ≤ 4096 := h.max_le
  have hi' : i < 4096 := hi
  have hlt : tsnLt map.maxTsnSeen (BitVec.ofInt 32 (c + 1 + i)) = true ↔ m ≤ i := by
    rw [h.max_eq, tsnLt_iff (by omega) (by omega)]
    omega
  by_cases hmi : m ≤ i
  · rw [if_pos (hlt.mpr hmi), show c + 1 + (i : ℤ) = c + ((max m (i + 1) : ℕ) : ℤ) by omega]
  · rw [if_neg fun h' => hmi (hlt.mp h'), show max m (i + 1) = m by omega, ← h.max_eq]

theorem Tracks.shift_iff (k j : ℕ) :
    bitmapShiftRight map.tsnMap k map.len j = true ↔ map.tsnMap (j + k) = true := by
  unfold bitmapShiftRight
  split
  · rfl
  · refine ⟨nofun, fun hset => ?_⟩
    have := h.lt_max _ hset
    have := h.max_le_len
    omega

theorem rebased_tracks {k : ℕ} {bits : ℕ → Bool} {maxTsnSeen : BitVec 32}
    (hbits : ∀ j, bits j = true ↔ map.tsnMap (j + k) = true)
    (hmax : maxTsnSeen = BitVec.ofInt 32 (c + (max m k : ℕ))) :
    Tracks { map with
        maxTsnSeen := maxTsnSeen
        baseTsn := map.baseTsn + BitVec.ofNat 32 k
        cumulativeTsnAckPoint := map.cumulativeTsnAckPoint + BitVec.ofNat 32 k
        tsnMap := bits } (c + k) (m - k) (R ∪ Set.Iic (c + k)) := by
  refine ⟨?_, ?_, ?_, fun j => ?_, Set.subset_union_right, fun j hset => ?_, (Nat.sub_le _ _).trans h.max_le,
    (Nat.sub_le _ _).trans h.max_le_len, h.len_lt, h.dvd_len⟩
  · rw [h.base_eq, ofInt_add_ofNat]
    exact congrArg (BitVec.ofInt 32) (show c + 1 + (k : ℤ) = c + k + 1 by omega)
  · rw [h.cum_eq, ofInt_add_ofNat]
  · exact hmax.trans (congrArg (BitVec.ofInt 32)
      (show c + ((max m k : ℕ) : ℤ) = c + k + ((m - k : ℕ) : ℤ) by omega))
  · rw [hbits, h.bit_iff, show c + 1 + ((j + k : ℕ) : ℤ) = c + k + 1 + j by omega]
    refine ⟨.inl, fun hor => hor.resolve_right fun hlow => ?_⟩
    have hlow' : c + k + 1 + (j : ℤ) ≤ c + k := hlow
    omega
  · have := h.lt_max _ ((hbits j).mp hset)
    omega

theorem tsnmapUpdate_settled : ∃ z : ℕ, Settled (tsnmapUpdate map) (c + z) (m - z) R := by
  have hm : m ≤ 4096 := h.max_le
  have hlen : (map.maxTsnSeen - map.cumulativeTsnAckPoint).toNat % 2 ^ 16 = m := by
    rw [h.max_eq, h.cum_eq, sub_toNat (n := m) (by omega) (by omega)]
    omega
  unfold tsnmapUpdate
  rw [hlen]
  dsimp only
  have hle : findFirstZeroBit map.tsnMap m ≤ m := scan_le m 0
  have hbits : ∀ i < findFirstZeroBit map.tsnMap m, map.tsnMap i = true := by
    intro i hi
    have := scan_miss (Nat.zero_le i) hi
    simpa using this
  have hstop : map.tsnMap (findFirstZeroBit map.tsnMap m) = false := by
    rw [← Bool.not_eq_true]
    intro hset
    have hlt := h.lt_max _ hset
    have hhit : (!map.tsnMap (findFirstZeroBit map.tsnMap m)) = true := scan_hit hlt
    rw [hset] at hhit
    exact Bool.false_ne_true hhit
  generalize findFirstZeroBit map.tsnMap m = z at hle hbits hstop ⊢
  split_ifs with hz
  · subst hz
    exact ⟨0, by simpa using ⟨h, hstop⟩⟩
  have hsub : Set.Iic (c + z) ⊆ R := by
    intro n hn
    by_cases hold : n ≤ c
    · exact h.below hold
    · have hn' : n ≤ c + z := hn
      have hmem := (h.bit_iff (n - (c + 1)).toNat).mp (hbits _ (by omega))
      rwa [show c + 1 + ((n - (c + 1)).toNat : ℤ) = n by omega] at hmem
  have hnext := rebased_tracks h (h.shift_iff z) (h.max_eq.trans (by rw [max_eq_left hle]))
  rw [Set.union_eq_self_of_subset_right hsub] at hnext
  refine ⟨z, hnext, ?_⟩
  simp only [bitmapShiftRight, Nat.zero_add, hstop, ite_self]

omit h

theorem tsnmapRecord_settled (h : Settled map c m R) {i : ℕ} (hi : i < map.len)
    (hwindow : i < sctpTsnMapSize) :
    ∃ c' m', Settled (tsnmapRecord map (BitVec.ofInt 32 (c + 1 + i)) i) c' m' (insert (c + 1 + i) R) := by
  have hm' := h.max_le_len
  unfold tsnmapRecord
  by_cases hfast : ¬ tsnmapHasGap map = true ∧ i = 0
  · obtain ⟨hnogap, rfl⟩ := hfast
    have hm0 : m = 0 := by
      by_contra hne
      exact hnogap (h.hasGap_iff.mpr hne)
    subst hm0
    have hclear : ∀ i, map.tsnMap i = false := fun i => h.clear (Nat.zero_le i)
    rw [if_pos ⟨hnogap, rfl⟩]
    have hset : insert (c + 1 + ((0 : ℕ) : ℤ)) R = R ∪ Set.Iic (c + ((1 : ℕ) : ℤ)) := by
      ext n
      simp only [Set.mem_insert_iff, Set.mem_union, Set.mem_Iic]
      by_cases hold : n ≤ c
      · simp [h.below hold]
      · by_cases hn : n ∈ R
        · simp [hn]
        · simp only [hn, or_false, false_or]
          omega
    rw [hset]
    exact ⟨_, _, rebased_tracks h.toTracks (fun j => by rw [hclear, hclear])
      ((congrArg (· + BitVec.ofNat 32 1) h.max_eq).trans ((ofInt_add_ofNat _ 1).trans (by simp))), h.missing⟩
  · rw [if_neg hfast, h.bump hwindow]
    have htracks : Tracks { map with
        maxTsnSeen := BitVec.ofInt 32 (c + (max m (i + 1) : ℕ)), tsnMap := setBit map.tsnMap i true } c
          (max m (i + 1)) (insert (c + 1 + i) R) := by
      refine ⟨h.base_eq, h.cum_eq, rfl, ?_, h.below.trans (Set.subset_insert _ _), ?_, ?_, ?_, h.len_lt,
        h.dvd_len⟩
      · intro j
        simp only [setBit, Set.mem_insert_iff, ← h.bit_iff j]
        by_cases hj : j = i
        · simp [hj]
        · rw [if_neg hj]
          exact ⟨.inr, fun hor => hor.resolve_left (by omega)⟩
      · intro j hset
        simp only [setBit] at hset
        split at hset
        · omega
        · have := h.lt_max j hset
          omega
      · exact max_le h.max_le hwindow
      · exact max_le hm' hi
    obtain ⟨z, hz⟩ := tsnmapUpdate_settled htracks
    exact ⟨_, _, hz⟩

/-- What the copy of the bitmap keeps: whole longs up to the greatest TSN, without that TSN itself. -/
theorem Tracks.bitmapCopy_eq (h : Tracks map c m R) (i : ℕ) :
    bitmapCopy map.tsnMap (map.maxTsnSeen - map.baseTsn) i =
      if i < alignLong (m - 1) then map.tsnMap i else false := by
  have hm : m ≤ 4096 := h.max_le
  have hlongs : 32 * bitsToLongs (map.maxTsnSeen - map.baseTsn) = alignLong (m - 1) := by
    rw [bitsToLongs, h.max_eq, h.base_eq, ← ofInt_sub, alignLong]
    cases m with
    | zero =>
      rw [show c + ((0 : ℕ) : ℤ) - (c + 1) = -1 by omega]
      decide
    | succ k =>
      rw [show c + ((k + 1 : ℕ) : ℤ) - (c + 1) = (k : ℤ) by omega, ofInt_natCast]
      have hsum : (BitVec.ofNat 32 k + 32 - 1).toNat = k + 31 := by
        bv_omega
      omega
  rw [bitmapCopy, hlongs]

/-- The call of `mark` loses a TSN: the map grows, and the greatest TSN seen is received and stands at the
beginning of a long. -/
def Lossy (map : TsnMap) (tsn : BitVec 32) : Prop :=
  tsnmapCheck map tsn = 0 ∧ map.len ≤ (tsn - map.baseTsn).toNat ∧
    32 ∣ (map.maxTsnSeen - map.baseTsn).toNat ∧ map.tsnMap (map.maxTsnSeen - map.baseTsn).toNat = true

instance (map : TsnMap) (tsn : BitVec 32) : Decidable (Lossy map tsn) :=
  inferInstanceAs (Decidable (_ ∧ _ ∧ _ ∧ _))

theorem tsnmapGrow_eq (h : Tracks map c m R) {gap : ℕ} (hgap : map.len ≤ gap) (hwindow : gap < sctpTsnMapSize) :
    ∃ len, tsnmapGrow map gap =
        some { map with tsnMap := bitmapCopy map.tsnMap (map.maxTsnSeen - map.baseTsn), len := len } ∧
      gap < len ∧ len < 2 ^ 16 ∧ 32 ∣ len ∧ map.len ≤ len := by
  have hw : gap < 4096 := hwindow
  have hdvd := h.dvd_len
  rw [tsnmapGrow, if_neg (Nat.not_le.mpr hwindow)]
  refine ⟨_, rfl, ?_⟩
  simp only [alignLong, sctpTsnMapIncrement, sctpTsnMapSize]
  omega

end VDLinux.Net.Sctp
