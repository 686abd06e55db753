import VDLinux.Base.Scan

namespace VDLinux.Lib.BitmapRemap

open Base.Scan Function Nat

abbrev Bitmap := ℕ → Bool

/-- The bitmaps behind the pointers: two pointers are equal or their bitmaps do not overlap. -/
abbrev Mem := ℕ → Bitmap

def findNextBit (buf : Bitmap) (size offset : ℕ) : ℕ := scan buf size offset

def findFirstBit (buf : Bitmap) (size : ℕ) : ℕ := findNextBit buf size 0

/-- Whole words of `long` bits are cleared. -/
def bitmapZero (long : ℕ) (dst : Bitmap) (bits : ℕ) : Bitmap :=
  fun i => if i / long < (bits + long - 1) / long then false else dst i

def setBit (pos : ℕ) (dst : Bitmap) : Bitmap := Function.update dst pos true

def bitmapWeight (buf : Bitmap) (bits : ℕ) : ℕ := Nat.count (fun i => buf i = true) bits

/-- The loop of `bitmap_pos_to_ord`; `none` is its `BUG_ON`. -/
def ordLoop (buf : Bitmap) (pos bits : ℕ) : ℕ → ℕ → ℕ → Option ℤ
  | 0, _, _ => none
  | fuel + 1, i, ord =>
    if i < pos then ordLoop buf pos bits fuel (findNextBit buf bits (i + 1)) (ord + 1)
    else if i ≠ pos then none
    else some ord

def bitmapPosToOrd (buf : Bitmap) (pos bits : ℕ) : Option ℤ :=
  if bits ≤ pos ∨ buf pos = false then some (-1)
  else ordLoop buf pos bits (bits + 1) (findFirstBit buf bits) 0

/-- The loop of `bitmap_ord_to_pos` with the choice behind it. -/
def posLoop (buf : Bitmap) (bits : ℕ) : ℕ → ℕ → ℕ → ℕ
  | 0, _, _ => 0
  | fuel + 1, i, ord =>
    if i < bits ∧ 0 < ord then posLoop buf bits fuel (findNextBit buf bits (i + 1)) (ord - 1)
    else if i < bits ∧ ord = 0 then i
    else 0

def bitmapOrdToPos (buf : Bitmap) (ord bits : ℕ) : ℕ :=
  if ord < bits then posLoop buf bits (bits + 1) (findFirstBit buf bits) ord else 0

def remapLoop (dst src old new bits w : ℕ) : ℕ → ℕ → Mem → Option Mem
  | 0, _, _ => none
  | fuel + 1, oldbit, mem =>
    if oldbit < bits then do
      let n ← bitmapPosToOrd (mem old) oldbit bits
      let pos := if n < 0 ∨ w = 0 then oldbit else bitmapOrdToPos (mem new) (n.toNat % w) bits
      let mem := Function.update mem dst (setBit pos (mem dst))
      remapLoop dst src old new bits w fuel (findNextBit (mem src) bits (oldbit + 1)) mem
    else some mem

def bitmapRemap (long : ℕ) (mem : Mem) (dst src old new bits : ℕ) : Option Mem :=
  if dst = src then some mem
  else
    let mem := Function.update mem dst (bitmapZero long (mem dst) bits)
    let w := bitmapWeight (mem new) bits
    remapLoop dst src old new bits w (bits + 1) (findFirstBit (mem src) bits) mem

/-- The position `j` is that of the set bit number `n`, counted from zero. -/
def IsNth (buf : Bitmap) (bits n j : ℕ) : Prop := j < bits ∧ buf j = true ∧ bitmapWeight buf j = n

/-- The documented map of positions. Without a set bit in `new` it is the identity. -/
def Maps (old new : Bitmap) (bits i j : ℕ) : Prop :=
  if old i = true ∧ bitmapWeight new bits ≠ 0 then
    IsNth new bits (bitmapWeight old i % bitmapWeight new bits) j
  else j = i

section Scans

variable {buf : Bitmap} {bits i j n : ℕ}

theorem findNextBit_le (hi : i ≤ j) (hj : buf j = true) : findNextBit buf bits i ≤ j := by
  by_contra hlt
  have hmiss := scan_miss hi (Nat.lt_of_not_le hlt)
  rw [hj] at hmiss
  cases hmiss

theorem bitmapZero_apply {long : ℕ} (hlong : 0 < long) (dst : Bitmap) (hj : j < bits) :
    bitmapZero long dst bits j = false := by
  have hword : j / long < (bits + long - 1) / long := by
    rw [Nat.div_lt_iff_lt_mul hlong, Nat.mul_comm]
    have := div_add_mod (bits + long - 1) long
    have := mod_lt (bits + long - 1) hlong
    omega
  exact if_pos hword

theorem weight_congr (hij : i ≤ j) (h : ∀ k, i ≤ k → k < j → buf k = false) :
    bitmapWeight buf j = bitmapWeight buf i := by
  obtain ⟨d, rfl⟩ := Nat.exists_eq_add_of_le hij
  have hnone : Nat.count (fun k => buf (i + k) = true) d = 0 := by
    rw [count_iff_forall_not]
    intro k hk
    simp [h (i + k) (Nat.le_add_right i k) (by omega)]
  rw [bitmapWeight, count_add, hnone, Nat.add_zero, bitmapWeight]

theorem weight_findNextBit (hi : i ≤ bits) : bitmapWeight buf (findNextBit buf bits i) = bitmapWeight buf i :=
  weight_congr (le_scan hi) fun _ hlo hhi => scan_miss hlo hhi

theorem weight_succ (h : buf i = true) : bitmapWeight buf (i + 1) = bitmapWeight buf i + 1 := by
  rw [bitmapWeight, count_succ, if_pos h, bitmapWeight]

theorem IsNth.unique (h : IsNth buf bits n i) (h' : IsNth buf bits n j) : i = j :=
  count_injective h.2.1 h'.2.1 (h.2.2.trans h'.2.2.symm)

theorem IsNth.lt (h : IsNth buf bits n i) : n < bitmapWeight buf bits :=
  h.2.2 ▸ count_strict_mono h.2.1 h.1

theorem ordLoop_eq (fuel : ℕ) (hpos : j < bits) (hj : buf j = true) (hi : i ≤ j) (hset : buf i = true)
    (hfuel : j < i + fuel) : ordLoop buf j bits fuel i (bitmapWeight buf i) = some (bitmapWeight buf j : ℤ) := by
  induction fuel generalizing i with
  | zero => omega
  | succ fuel ih =>
    rw [ordLoop]
    split_ifs with hlt hne
    · have hle : findNextBit buf bits (i + 1) ≤ j := findNextBit_le (succ_le_of_lt hlt) hj
      have hlow : i + 1 ≤ findNextBit buf bits (i + 1) := le_scan (by omega)
      rw [← weight_succ hset, ← weight_findNextBit (by omega : i + 1 ≤ bits)]
      exact ih hle (scan_hit (Nat.lt_of_le_of_lt hle hpos)) (by omega)
    · omega
    · obtain rfl : i = j := not_ne_iff.mp hne
      rfl

theorem bitmapPosToOrd_eq (hpos : i < bits) :
    bitmapPosToOrd buf i bits = some (if buf i = true then (bitmapWeight buf i : ℤ) else -1) := by
  unfold bitmapPosToOrd
  cases hset : buf i with
  | false => simp
  | true =>
    have hle : findFirstBit buf bits ≤ i := findNextBit_le (Nat.zero_le i) hset
    have hzero : bitmapWeight buf (findFirstBit buf bits) = 0 := weight_findNextBit (Nat.zero_le bits)
    rw [if_neg (by simp [hpos]), if_pos rfl, ← hzero]
    exact ordLoop_eq _ hpos hset hle (scan_hit (Nat.lt_of_le_of_lt hle hpos)) (by omega)

theorem posLoop_isNth (fuel : ℕ) (hn : n + bitmapWeight buf i < bitmapWeight buf bits)
    (hset : i < bits → buf i = true) (hi : i ≤ bits) (hfuel : bits < i + fuel) :
    IsNth buf bits (n + bitmapWeight buf i) (posLoop buf bits fuel i n) := by
  induction fuel generalizing i n with
  | zero => omega
  | succ fuel ih =>
    have hlt : i < bits := by
      refine Nat.lt_of_le_of_ne hi fun heq => ?_
      rw [heq] at hn
      omega
    have hnext := weight_succ (hset hlt)
    rw [posLoop]
    cases n with
    | zero =>
      rw [if_neg (by simp), if_pos ⟨hlt, rfl⟩, Nat.zero_add]
      exact ⟨hlt, hset hlt, rfl⟩
    | succ n =>
      have hlow : i + 1 ≤ findNextBit buf bits (i + 1) := le_scan hlt
      have hweight : n + 1 + bitmapWeight buf i = n + bitmapWeight buf (findNextBit buf bits (i + 1)) := by
        rw [weight_findNextBit hlt, hnext]
        omega
      rw [if_pos ⟨hlt, succ_pos n⟩, succ_sub_one, hweight]
      exact ih (hweight ▸ hn) scan_hit (scan_le _ _) (by omega)

theorem bitmapOrdToPos_isNth (hn : n < bitmapWeight buf bits) : IsNth buf bits n (bitmapOrdToPos buf n bits) := by
  have hzero : bitmapWeight buf (findFirstBit buf bits) = 0 := weight_findNextBit (Nat.zero_le bits)
  have hlt : n < bits := Nat.lt_of_lt_of_le hn (count_le _)
  rw [bitmapOrdToPos, if_pos hlt]
  have h : IsNth buf bits (n + bitmapWeight buf (findFirstBit buf bits)) _ :=
    posLoop_isNth (bits + 1) (by rwa [hzero]) scan_hit (scan_le _ _) (by omega)
  rwa [hzero] at h

end Scans

section Remap

variable {mem mem' : Mem} {dst src old new bits i : ℕ}

theorem maps_chosen (a b : Bitmap) (hi : i < bits) :
    ∃ pos, Maps a b bits i pos ∧ pos < bits ∧ (∀ j, Maps a b bits i j → j = pos) ∧
      ∃ n, bitmapPosToOrd a i bits = some n ∧ (if n < 0 ∨ bitmapWeight b bits = 0 then i
          else bitmapOrdToPos b (n.toNat % bitmapWeight b bits) bits) = pos := by
  rw [bitmapPosToOrd_eq hi]
  by_cases hmap : a i = true ∧ bitmapWeight b bits ≠ 0
  · have hnth := bitmapOrdToPos_isNth (mod_lt (bitmapWeight a i) (Nat.pos_of_ne_zero hmap.2))
    refine ⟨_, by rwa [Maps, if_pos hmap], hnth.1, fun j hj => ?_, _, rfl, ?_⟩
    · rw [Maps, if_pos hmap] at hj
      exact hj.unique hnth
    · rw [if_pos hmap.1, if_neg (by omega), Int.toNat_natCast]
  · refine ⟨i, by rw [Maps, if_neg hmap], hi, fun j hj => by rwa [Maps, if_neg hmap] at hj, _, rfl, if_pos ?_⟩
    by_cases ha : a i = true
    · exact .inr (not_not.mp fun hb => hmap ⟨ha, hb⟩)
    · exact .inl (by simp [ha])

/-- In `dst` are the images of the bits of `src` below `i`; the other bitmaps are as before. -/
def Mapped (mem mem' : Mem) (dst src old new bits i : ℕ) : Prop :=
  (∀ p, p ≠ dst → mem' p = mem p) ∧
    ∀ j < bits, mem' dst j = true ↔ ∃ k < i, mem src k = true ∧ Maps (mem old) (mem new) bits k j

theorem Mapped.skip {i' : ℕ} (h : Mapped mem mem' dst src old new bits i) (hle : i ≤ i')
    (hnone : ∀ k, i ≤ k → k < i' → mem src k = false) : Mapped mem mem' dst src old new bits i' := by
  refine ⟨h.1, fun j hj => (h.2 j hj).trans ⟨fun ⟨k, hk, hs⟩ => ⟨k, by omega, hs⟩, ?_⟩⟩
  rintro ⟨k, hk, hs, hm⟩
  refine ⟨k, ?_, hs, hm⟩
  by_contra hlow
  rw [hnone k (Nat.le_of_not_lt hlow) hk] at hs
  cases hs

theorem Mapped.set {pos : ℕ} (h : Mapped mem mem' dst src old new bits i) (hset : mem src i = true)
    (hpos : Maps (mem old) (mem new) bits i pos)
    (honly : ∀ j, Maps (mem old) (mem new) bits i j → j = pos) :
    Mapped mem (update mem' dst (setBit pos (mem' dst))) dst src old new bits (i + 1) := by
  refine ⟨fun p hp => by rw [update_of_ne hp, h.1 p hp], fun j hj => ?_⟩
  rw [update_self, setBit, update_apply]
  constructor
  · intro hbit
    split_ifs at hbit with heq
    · exact ⟨i, lt_succ_self i, hset, heq ▸ hpos⟩
    · obtain ⟨k, hk, hs⟩ := (h.2 j hj).mp hbit
      exact ⟨k, lt_succ_of_lt hk, hs⟩
  · rintro ⟨k, hk, hs, hm⟩
    split_ifs with hne
    · rfl
    · refine (h.2 j hj).mpr ⟨k, ?_, hs, hm⟩
      refine Nat.lt_of_le_of_ne (le_of_lt_succ hk) fun heq => hne (honly j (heq ▸ hm))

theorem remapLoop_mapped (fuel : ℕ) (hsrc : src ≠ dst) (hold : old ≠ dst) (hnew : new ≠ dst)
    (h : Mapped mem mem' dst src old new bits i) (hset : i < bits → mem src i = true) (hi : i ≤ bits)
    (hfuel : bits < i + fuel) :
    ∃ m, remapLoop dst src old new bits (bitmapWeight (mem new) bits) fuel i mem' = some m ∧
      Mapped mem m dst src old new bits bits := by
  induction fuel generalizing i mem' with
  | zero => omega
  | succ fuel ih =>
    rw [remapLoop]
    split_ifs with hlt
    · obtain ⟨pos, hpos, -, honly, n, hn, hchoice⟩ := maps_chosen (mem old) (mem new) hlt
      have hlow : i + 1 ≤ findNextBit (mem src) bits (i + 1) := le_scan hlt
      have hstep := (h.set (hset hlt) hpos honly).skip hlow fun k hk hk' => scan_miss hk hk'
      obtain ⟨m, hm, hres⟩ := ih hstep scan_hit (scan_le _ _) (by omega)
      refine ⟨m, ?_, hres⟩
      simp only [h.1 old hold, h.1 new hnew, hn, Option.bind_eq_bind, Option.bind_some, hchoice,
        update_of_ne hsrc, h.1 src hsrc]
      exact hm
    · obtain rfl : i = bits := by omega
      exact ⟨mem', rfl, h⟩

theorem bitmapRemap_mapped {long : ℕ} (hlong : 0 < long) (mem : Mem) (bits : ℕ) (hsrc : src ≠ dst)
    (hold : old ≠ dst) (hnew : new ≠ dst) :
    ∃ m, bitmapRemap long mem dst src old new bits = some m ∧ Mapped mem m dst src old new bits bits := by
  have hstart : Mapped mem (update mem dst (bitmapZero long (mem dst) bits)) dst src old new bits 0 := by
    refine ⟨fun p hp => update_of_ne hp _ _, fun j hj => ?_⟩
    simp [bitmapZero_apply hlong _ hj]
  have hfirst : Mapped mem _ dst src old new bits (findFirstBit (mem src) bits) :=
    hstart.skip (Nat.zero_le _) fun k _ hk => scan_miss (Nat.zero_le k) hk
  rw [bitmapRemap, if_neg hsrc.symm]
  simp only [update_of_ne hsrc, update_of_ne hnew]
  exact remapLoop_mapped _ hsrc hold hnew hfirst scan_hit (scan_le _ _) (by omega)

theorem maps_of_isNth {a b : Bitmap} {n j : ℕ} (ha : IsNth a bits n i) (hb : IsNth b bits n j) :
    Maps a b bits i j := by
  have hn := hb.lt
  rw [Maps, if_pos ⟨ha.2.1, by omega⟩, ha.2.2, mod_eq_of_lt hn]
  exact hb

theorem maps_back {a b : Bitmap} {k : ℕ} (hle : bitmapWeight a bits ≤ bitmapWeight b bits) (hi : i < bits)
    (ha : a i = true) :
    ∃ j < bits, Maps a b bits i j ∧ (∀ j', Maps a b bits i j' → j' = j) ∧ (Maps b a bits j k ↔ k = i) := by
  have hnth : IsNth a bits (bitmapWeight a i) i := ⟨hi, ha, rfl⟩
  have hto := bitmapOrdToPos_isNth (Nat.lt_of_lt_of_le hnth.lt hle)
  obtain ⟨pos, -, -, honly, -⟩ := maps_chosen a b hi
  obtain ⟨pos', -, -, honly', -⟩ := maps_chosen b a hto.1
  have hmaps := maps_of_isNth hnth hto
  have hback := maps_of_isNth hto hnth
  refine ⟨_, hto.1, hmaps, fun j' hj' => (honly j' hj').trans (honly _ hmaps).symm, fun hk => ?_, fun hk => ?_⟩
  · exact (honly' k hk).trans (honly' i hback).symm
  · exact hk ▸ hback

end Remap

/-- For a `dst` of its own the call ends with the image of `src` in `dst` and nothing else changed, and
where the map is one-to-one a call with `old` and `new` exchanged brings `src` back. -/
theorem bitmapRemap_image {long : ℕ} (hlong : 0 < long) (mem : Mem) (bits : ℕ) {dst src old new : ℕ}
    (hsrc : src ≠ dst) (hold : old ≠ dst) (hnew : new ≠ dst) :
    ∃ m, bitmapRemap long mem dst src old new bits = some m ∧ (∀ p, p ≠ dst → m p = mem p) ∧
      (∀ j < bits, m dst j = true ↔ ∃ i < bits, mem src i = true ∧ Maps (mem old) (mem new) bits i j) ∧
      ∀ back, back ≠ dst → back ≠ old → back ≠ new → (∀ i < bits, mem src i = true → mem old i = true) →
        bitmapWeight (mem old) bits ≤ bitmapWeight (mem new) bits →
        ∃ m', bitmapRemap long m back dst new old bits = some m' ∧ ∀ i < bits, m' back i = mem src i := by
  obtain ⟨m, hm, hframe, himage⟩ := bitmapRemap_mapped hlong mem bits hsrc hold hnew
  refine ⟨m, hm, hframe, himage, fun back hbd hbo hbn hsub hle => ?_⟩
  obtain ⟨m', hm', -, himage'⟩ := bitmapRemap_mapped hlong m bits hbd.symm hbn.symm hbo.symm
  refine ⟨m', hm', fun i hi => ?_⟩
  rw [Bool.eq_iff_iff, himage' i hi, hframe new hnew, hframe old hold]
  constructor
  · rintro ⟨j, hj, hbit, hmaps⟩
    obtain ⟨k, hk, hs, hto⟩ := (himage j hj).mp hbit
    obtain ⟨j', -, -, honly, hback⟩ := maps_back (k := i) hle hk (hsub k hk hs)
    rw [honly j hto] at hmaps
    exact hback.mp hmaps ▸ hs
  · intro hs
    obtain ⟨j, hj, hto, -, hback⟩ := maps_back (k := i) hle hi (hsub i hi hs)
    exact ⟨j, hj, (himage j hj).mpr ⟨i, hi, hs, hto⟩, hback.mpr rfl⟩

def threeMaps : Mem := fun p i =>
  match p with
  | 1 => i == 0 || i == 2
  | 2 => i == 0 || i == 2 || i == 3
  | 3 => i == 1 || i == 3 || i == 4
  | _ => false

theorem bitmapRemap_image_three :
    ∃ m m', bitmapRemap 32 threeMaps 0 1 2 3 5 = some m ∧ bitmapRemap 32 m 4 0 3 2 5 = some m' ∧
      m' 4 0 = true ∧ m' 4 1 = false := by
  obtain ⟨m, hm, -, -, hback⟩ := bitmapRemap_image (by decide : 0 < 32) threeMaps 5
    (by decide : 1 ≠ 0) (by decide : 2 ≠ 0) (by decide : 3 ≠ 0)
  obtain ⟨m', hm', hsame⟩ := hback 4 (by decide) (by decide) (by decide) (by decide) (by decide)
  exact ⟨m, m', hm, hm', (hsame 0 (by decide)).trans rfl, (hsame 1 (by decide)).trans rfl⟩

/-- With `dst` in the place of `old` the domain is cleared first, and `src` is copied. -/
theorem bitmapRemap_over_old :
    ∃ m, bitmapRemap 32 threeMaps 2 1 2 3 5 = some m ∧ m 2 0 = true ∧ m 2 1 = false ∧
      Maps (threeMaps 2) (threeMaps 3) 5 0 1 ∧ threeMaps 1 0 = true := by
  refine ⟨_, rfl, by decide, by decide, ?_, rfl⟩
  exact ⟨by decide, rfl, by decide⟩

end VDLinux.Lib.BitmapRemap
