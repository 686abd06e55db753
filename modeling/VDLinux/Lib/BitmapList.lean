import VDLinux.Lib.BitmapRemap

namespace VDLinux.Lib.BitmapList

open Base.Scan BitmapRemap List Nat

/-- The number that `simple_strtoull` reads in base 10, and where it stops. -/
def simpleStrtoull : List Char → ℕ → ℕ × List Char
  | [], result => (result, [])
  | c :: cp, result =>
    if c.isDigit then simpleStrtoull cp ((10 * result + (c.toNat - '0'.toNat)) % 2 ^ 64) else (result, c :: cp)

/-- The assignment to an `unsigned` keeps 32 bits, whatever the size of a `long`. -/
def readUnsigned (bp : List Char) : ℕ × List Char :=
  ((simpleStrtoull bp 0).1 % 2 ^ 32, (simpleStrtoull bp 0).2)

/-- A string ends with its list or with the character that is a zero byte. -/
def here (bp : List Char) : Char := bp.headD '\x00'

/-- A number or a range at `bp`, with the numbers as `read` takes them. -/
def readItem (read : List Char → ℕ × List Char) (bp : List Char) : Option ((ℕ × ℕ) × List Char) :=
  if (here bp).isDigit then
    if here (read bp).2 = '-' then
      if (here (read bp).2.tail).isDigit then
        some (((read bp).1, (read (read bp).2.tail).1), (read (read bp).2.tail).2)
      else none
    else some (((read bp).1, (read bp).1), (read bp).2)
  else none

def skipComma (bp : List Char) : List Char := if here bp = ',' then bp.tail else bp

def atEnd (bp : List Char) : Bool := here bp == '\x00' || here bp == '\n'

def setBits (a b : ℕ) (maskp : Bitmap) : Bitmap := (List.range' a (b + 1 - a)).foldl (fun m i => setBit i m) maskp

def parselistLoop (nmaskbits : ℕ) : ℕ → List Char → Bitmap → Option (ℤ × Bitmap)
  | 0, _, _ => none
  | fuel + 1, bp, maskp =>
    match readItem readUnsigned bp with
    | none => some (-22, maskp)
    | some ((a, b), bp) =>
      if b < a then some (-22, maskp)
      else if nmaskbits ≤ b then some (-34, maskp)
      else if atEnd (skipComma bp) then some (0, setBits a b maskp)
      else parselistLoop nmaskbits fuel (skipComma bp) (setBits a b maskp)

def bitmapParselist (long : ℕ) (bp : List Char) (maskp : Bitmap) (nmaskbits : ℕ) : Option (ℤ × Bitmap) :=
  parselistLoop nmaskbits (bp.length + 1) bp (bitmapZero long maskp nmaskbits)

/-- What `scnprintf` puts before the zero byte in a buffer of `size` bytes. -/
def scnprintf (size : ℕ) (s : List Char) : List Char := s.take (size - 1)

def rangeText (r : ℕ × ℕ) : List Char :=
  if r.1 = r.2 then Nat.toDigits 10 r.1 else Nat.toDigits 10 r.1 ++ '-' :: Nat.toDigits 10 r.2

def bscnlEmit (buflen : ℕ) (buf : List Char) (rbot rtop : ℕ) : List Char :=
  let buf := if 0 < buf.length then buf ++ scnprintf (buflen - buf.length) [','] else buf
  buf ++ scnprintf (buflen - buf.length) (rangeText (rbot, rtop))

def scnlistLoop (buflen : ℕ) (maskp : Bitmap) (nmaskbits : ℕ) : ℕ → ℕ → ℕ → List Char → List Char
  | 0, _, _, buf => buf
  | fuel + 1, cur, rbot, buf =>
    if cur < nmaskbits then
      let next := findNextBit maskp nmaskbits (cur + 1)
      if nmaskbits ≤ next ∨ cur + 1 < next then
        scnlistLoop buflen maskp nmaskbits fuel next next (bscnlEmit buflen buf rbot cur)
      else scnlistLoop buflen maskp nmaskbits fuel next rbot buf
    else buf

def bitmapScnlistprintf (buflen : ℕ) (maskp : Bitmap) (nmaskbits : ℕ) : List Char :=
  if buflen = 0 then []
  else
    scnlistLoop buflen maskp nmaskbits (nmaskbits + 1) (findFirstBit maskp nmaskbits)
      (findFirstBit maskp nmaskbits) []

/-- The unbounded number at the head of a string. -/
def readNumber (bp : List Char) : ℕ × List Char :=
  (Nat.ofDigitChars 10 (bp.takeWhile Char.isDigit) 0, bp.dropWhile Char.isDigit)

/-- The numbers and ranges of a list, a single number as a range of its own. -/
def listedFrom : ℕ → List Char → List (ℕ × ℕ)
  | 0, _ => []
  | fuel + 1, bp =>
    match readItem readNumber bp with
    | none => []
    | some (r, bp) => r :: if atEnd (skipComma bp) then [] else listedFrom fuel (skipComma bp)

def listed (bp : List Char) : List (ℕ × ℕ) := listedFrom (bp.length + 1) bp

def Inside (rs : List (ℕ × ℕ)) (i : ℕ) : Prop := ∃ r ∈ rs, r.1 ≤ i ∧ i ≤ r.2

section Parse

variable {n fuel : ℕ} {bp rest : List Char} {m : Bitmap}

theorem simpleStrtoull_eq (bp : List Char) (v : ℕ) : simpleStrtoull bp (v % 2 ^ 64) =
      (Nat.ofDigitChars 10 (bp.takeWhile Char.isDigit) v % 2 ^ 64, bp.dropWhile Char.isDigit) := by
  induction bp generalizing v with
  | nil => simp [simpleStrtoull]
  | cons c cp ih =>
    rw [simpleStrtoull]
    split_ifs with hd
    · have hmod : (10 * (v % 2 ^ 64) + (c.toNat - '0'.toNat)) % 2 ^ 64 =
          (10 * v + (c.toNat - '0'.toNat)) % 2 ^ 64 := by omega
      rw [hmod, ih, takeWhile_cons_of_pos hd, dropWhile_cons_of_pos hd, ofDigitChars_cons]
    · rw [takeWhile_cons_of_neg hd, dropWhile_cons_of_neg hd, ofDigitChars_nil]

theorem readUnsigned_eq (bp : List Char) : readUnsigned bp = ((readNumber bp).1 % 2 ^ 32, (readNumber bp).2) := by
  have h := simpleStrtoull_eq bp 0
  rw [zero_mod] at h
  rw [readUnsigned, h, readNumber]
  exact Prod.ext (mod_mod_of_dvd _ (by decide)) rfl

theorem readItem_unsigned (bp : List Char) : readItem readUnsigned bp =
      (readItem readNumber bp).map fun p => ((p.1.1 % 2 ^ 32, p.1.2 % 2 ^ 32), p.2) := by
  simp only [readItem, readUnsigned_eq]
  split_ifs <;> rfl

theorem readItem_shorter {r : ℕ × ℕ} (h : readItem readNumber bp = some (r, rest)) : rest.length < bp.length := by
  have hdrop : ∀ s : List Char, (here s).isDigit → (readNumber s).2.length < s.length := by
    rintro (_ | ⟨c, s⟩) hd
    · exact absurd hd (by decide)
    · have hc : c.isDigit := hd
      simp only [readNumber, dropWhile_cons_of_pos hc]
      exact lt_succ_of_le (dropWhile_sublist _).length_le
  unfold readItem at h
  split_ifs at h with hfirst hdash hsecond
  · cases h
    have h1 := hdrop bp hfirst
    have h2 := hdrop _ hsecond
    rw [length_tail] at h2
    omega
  · cases h
    exact hdrop bp hfirst

theorem skipComma_length_le (bp : List Char) : (skipComma bp).length ≤ bp.length := by
  unfold skipComma
  split
  · exact length_tail ▸ sub_le _ _
  · exact Nat.le_refl _

theorem setBits_apply (a b : ℕ) (m : Bitmap) (i : ℕ) :
    setBits a b m i = true ↔ m i = true ∨ (a ≤ i ∧ i ≤ b) := by
  have hfold : ∀ l : List ℕ, ∀ m : Bitmap, l.foldl (fun m i => setBit i m) m i = true ↔ m i = true ∨ i ∈ l := by
    intro l
    induction l with
    | nil => simp
    | cons k l ih =>
      intro m
      rw [foldl_cons, ih, setBit, Function.update_apply, mem_cons]
      split_ifs with hk <;> simp [hk]
  rw [setBits, hfold, mem_range'_1]
  exact or_congr_right (by omega)

theorem parselistLoop_spec (h : bp.length < fuel) :
    ∃ code m', parselistLoop n fuel bp m = some (code, m') ∧ (code = 0 →
      (∀ r ∈ listedFrom fuel bp, r.1 % 2 ^ 32 ≤ r.2 % 2 ^ 32 ∧ r.2 % 2 ^ 32 < n) ∧
        ∀ i, m' i = true ↔
          m i = true ∨ Inside ((listedFrom fuel bp).map fun r => (r.1 % 2 ^ 32, r.2 % 2 ^ 32)) i) := by
  induction fuel generalizing bp m with
  | zero => omega
  | succ fuel ih =>
    rw [parselistLoop, readItem_unsigned, listedFrom]
    cases hitem : readItem readNumber bp with
    | none => exact ⟨-22, m, rfl, nofun⟩
    | some p =>
      obtain ⟨r, rest⟩ := p
      simp only [Option.map_some]
      by_cases hle : r.2 % 2 ^ 32 < r.1 % 2 ^ 32
      · exact ⟨-22, m, if_pos hle, nofun⟩
      by_cases hlt : n ≤ r.2 % 2 ^ 32
      · exact ⟨-34, m, by rw [if_neg hle, if_pos hlt], nofun⟩
      split_ifs with hend
      · refine ⟨0, _, rfl, fun _ => ?_⟩
        simp only [mem_singleton, map_singleton, Inside, forall_eq, exists_eq_left]
        exact ⟨⟨Nat.le_of_not_lt hle, Nat.lt_of_not_le hlt⟩, setBits_apply _ _ _⟩
      · have hshort := readItem_shorter hitem
        have hskip := skipComma_length_le rest
        obtain ⟨code, m', hrun, hzero⟩ := @ih (skipComma rest) (setBits (r.1 % 2 ^ 32) (r.2 % 2 ^ 32) m) (by omega)
        refine ⟨code, m', hrun, fun hcode => ?_⟩
        obtain ⟨hall, hbits⟩ := hzero hcode
        simp only [forall_mem_cons, map_cons]
        refine ⟨⟨⟨Nat.le_of_not_lt hle, Nat.lt_of_not_le hlt⟩, hall⟩, fun i => ?_⟩
        rw [hbits, setBits_apply]
        simp only [Inside, mem_cons, exists_eq_or_imp, or_assoc]

theorem listed_right_iff {rs : List (ℕ × ℕ)} (hn : n < 2 ^ 31) (hzero : ∀ i < n, m i = false) {m' : Bitmap}
    (hall : ∀ r ∈ rs, r.1 % 2 ^ 32 ≤ r.2 % 2 ^ 32 ∧ r.2 % 2 ^ 32 < n)
    (hbits : ∀ i, m' i = true ↔ m i = true ∨ Inside (rs.map fun r => (r.1 % 2 ^ 32, r.2 % 2 ^ 32)) i) :
    ((∀ r ∈ rs, r.1 ≤ r.2 ∧ r.2 < n) ∧ ∀ i < n, m' i = true ↔ Inside rs i) ↔
      ∀ r ∈ rs, r.1 < 2 ^ 32 ∧ r.2 < 2 ^ 32 := by
  constructor
  · intro hright r hr
    have := hright.1 r hr
    omega
  · intro hsmall
    have hcut : ∀ r ∈ rs, (r.1 % 2 ^ 32, r.2 % 2 ^ 32) = r := fun r hr =>
      Prod.ext (mod_eq_of_lt (hsmall r hr).1) (mod_eq_of_lt (hsmall r hr).2)
    rw [map_congr_left hcut, map_id'] at hbits
    refine ⟨fun r hr => ?_, fun i hi => by simp [hbits, hzero i hi]⟩
    have hr' := hall r hr
    rwa [mod_eq_of_lt (hsmall r hr).1, mod_eq_of_lt (hsmall r hr).2] at hr'

end Parse

section Print

variable {n : ℕ} {m : Bitmap}

def listText (rs : List (ℕ × ℕ)) : List Char := [','].intercalate (rs.map rangeText)

theorem readNumber_toDigits (v : ℕ) {rest : List Char} (hrest : ¬ (here rest).isDigit) :
    readNumber (Nat.toDigits 10 v ++ rest) = (v, rest) := by
  have hall : ∀ c ∈ Nat.toDigits 10 v, c.isDigit = true := fun c hc =>
    isDigit_of_mem_toDigits (by decide) (by decide) hc
  have hstop : rest.takeWhile Char.isDigit = [] ∧ rest.dropWhile Char.isDigit = rest := by
    cases rest with
    | nil => exact ⟨rfl, rfl⟩
    | cons c cs => exact ⟨takeWhile_cons_of_neg hrest, dropWhile_cons_of_neg hrest⟩
  rw [readNumber, takeWhile_append_of_pos hall, dropWhile_append_of_pos hall, hstop.1, hstop.2,
    append_nil, ofDigitChars_ten_toDigits]

theorem here_toDigits (v : ℕ) (rest : List Char) : (here (Nat.toDigits 10 v ++ rest)).isDigit := by
  cases h : Nat.toDigits 10 v with
  | nil => exact absurd h toDigits_ne_nil
  | cons c cs => exact isDigit_of_mem_toDigits (by decide) (by decide) (h ▸ mem_cons_self)

theorem readItem_rangeText (r : ℕ × ℕ) {rest : List Char} (hrest : ¬ (here rest).isDigit)
    (hdash : here rest ≠ '-') : readItem readNumber (rangeText r ++ rest) = some (r, rest) := by
  obtain ⟨a, b⟩ := r
  by_cases hab : a = b
  · obtain rfl := hab
    rw [rangeText, if_pos rfl, readItem, if_pos (here_toDigits a rest), readNumber_toDigits a hrest]
    exact if_neg hdash
  · have hfirst : readNumber (Nat.toDigits 10 a ++ '-' :: (Nat.toDigits 10 b ++ rest)) =
        (a, '-' :: (Nat.toDigits 10 b ++ rest)) := readNumber_toDigits a (by decide : ¬ '-'.isDigit)
    rw [rangeText, if_neg hab, append_assoc, cons_append, readItem, if_pos (here_toDigits a _), hfirst]
    simp only [here, headD_cons, tail_cons, if_true, readNumber_toDigits b hrest]
    exact if_pos (here_toDigits b rest)

theorem listText_cons_cons (r r' : ℕ × ℕ) (rs : List (ℕ × ℕ)) :
    listText (r :: r' :: rs) = rangeText r ++ ',' :: listText (r' :: rs) := by
  simp [listText, List.intercalate]

theorem here_listText (r : ℕ × ℕ) (rs : List (ℕ × ℕ)) : (here (listText (r :: rs))).isDigit := by
  have hrange : ∀ rest, (here (rangeText r ++ rest)).isDigit := fun rest => by
    unfold rangeText
    split
    · exact here_toDigits _ rest
    · rw [append_assoc]
      exact here_toDigits _ _
  cases rs with
  | nil => simpa [listText, List.intercalate] using hrange []
  | cons r' rs =>
    exact hrange _

theorem parselistLoop_listText (hn : n < 2 ^ 31) (rs : List (ℕ × ℕ)) (hne : rs ≠ [])
    (hrs : ∀ r ∈ rs, r.1 ≤ r.2 ∧ r.2 < n) {fuel : ℕ} (hfuel : (listText rs).length < fuel) :
    ∃ m', parselistLoop n fuel (listText rs) m = some (0, m') ∧ ∀ i, m' i = true ↔ m i = true ∨ Inside rs i := by
  induction rs generalizing m fuel with
  | nil => exact absurd rfl hne
  | cons r rs ih =>
    obtain ⟨fuel, rfl⟩ : ∃ k, fuel = k + 1 := ⟨fuel - 1, by omega⟩
    obtain ⟨hle, hlt⟩ := hrs r mem_cons_self
    have hcut : r.1 % 2 ^ 32 = r.1 ∧ r.2 % 2 ^ 32 = r.2 := by omega
    rw [parselistLoop, readItem_unsigned]
    cases rs with
    | nil =>
      have hitem := readItem_rangeText r (by decide : ¬ (here []).isDigit) (by decide)
      have htext : listText [r] = rangeText r ++ [] := by simp [listText, List.intercalate]
      rw [htext, hitem]
      simp only [Option.map_some, hcut, Nat.not_lt.mpr hle, if_false, Nat.not_le.mpr hlt]
      exact ⟨_, rfl, fun i => by simp [setBits_apply, Inside]⟩
    | cons r' rs =>
      have hitem : readItem readNumber (rangeText r ++ ',' :: listText (r' :: rs)) = some (r, _) :=
        readItem_rangeText r (by decide : ¬ ','.isDigit) (by decide : ',' ≠ '-')
      have hskip : skipComma (',' :: listText (r' :: rs)) = listText (r' :: rs) := rfl
      have hend : atEnd (listText (r' :: rs)) = false := by
        have hd := here_listText r' rs
        by_contra hend
        simp only [atEnd, Bool.not_eq_false, Bool.or_eq_true, beq_iff_eq] at hend
        rcases hend with hend | hend <;> rw [hend] at hd <;> exact absurd hd (by decide)
      obtain ⟨m', hm', hbits⟩ := @ih (setBits r.1 r.2 m) (cons_ne_nil _ _)
        (fun q hq => hrs q (mem_cons_of_mem _ hq)) fuel (by
          rw [listText_cons_cons, length_append, length_cons] at hfuel
          omega)
      rw [listText_cons_cons, hitem]
      simp only [Option.map_some, hcut, Nat.not_lt.mpr hle, if_false, Nat.not_le.mpr hlt, hskip, hend]
      refine ⟨m', hm', fun i => ?_⟩
      rw [hbits, setBits_apply]
      simp only [Inside, mem_cons, exists_eq_or_imp, or_assoc]

theorem take_scnprintf (k : ℕ) (t s : List Char) :
    t.take k ++ scnprintf (k + 1 - (t.take k).length) s = (t ++ s).take k := by
  rw [scnprintf, take_append, length_take]
  congr 2
  omega

theorem listText_concat (rs : List (ℕ × ℕ)) (r : ℕ × ℕ) :
    listText (rs ++ [r]) = (if rs = [] then [] else listText rs ++ [',']) ++ rangeText r := by
  induction rs with
  | nil => simp [listText, List.intercalate]
  | cons q rs ih =>
    cases rs with
    | nil => simp [listText, List.intercalate]
    | cons q' rs =>
      rw [cons_append, cons_append, listText_cons_cons, ← cons_append, ih, listText_cons_cons]
      simp

theorem bscnlEmit_listText (k rbot rtop : ℕ) (rs : List (ℕ × ℕ)) :
    bscnlEmit (k + 1) ((listText rs).take k) rbot rtop = (listText (rs ++ [(rbot, rtop)])).take k := by
  have hcomma : (if 0 < ((listText rs).take k).length then (listText rs).take k ++
      scnprintf (k + 1 - ((listText rs).take k).length) [','] else (listText rs).take k) =
      (if rs = [] then [] else listText rs ++ [',']).take k := by
    cases rs with
    | nil => simp [listText, List.intercalate]
    | cons r rs =>
      have hne : 0 < (listText (r :: rs)).length := length_pos_iff.mpr fun h => by
        have hd := here_listText r rs
        rw [h] at hd
        exact absurd hd (by decide)
      rw [if_neg (cons_ne_nil _ _), take_scnprintf]
      split_ifs with hpos
      · rfl
      · obtain rfl : k = 0 := by
          rw [length_take] at hpos
          omega
        simp
  rw [bscnlEmit, hcomma, take_scnprintf, ← listText_concat]

/-- What has been printed when the next set bit is `cur`: the ranges before `rbot`, behind which all bits
are set. -/
structure Printed (m : Bitmap) (n cur rbot : ℕ) (rs : List (ℕ × ℕ)) : Prop where
  ranges : ∀ r ∈ rs, r.1 ≤ r.2 ∧ r.2 < cur
  bits : ∀ i < cur, m i = true ↔ Inside rs i ∨ rbot ≤ i
  rbot_le : rbot ≤ cur
  cur_le : cur ≤ n
  set : cur < n → m cur = true
  done : cur = n → rbot = n

variable {cur rbot : ℕ} {rs : List (ℕ × ℕ)}

variable (h : Printed m n cur rbot rs)
include h

theorem Printed.stay (hlt : cur + 1 < n) (hset : m (cur + 1) = true) :
    Printed m n (cur + 1) rbot rs := by
  refine ⟨fun r hr => ⟨(h.ranges r hr).1, (h.ranges r hr).2.trans (lt_succ_self cur)⟩, fun i hi => ?_,
    h.rbot_le.trans (le_succ cur), hlt.le, fun _ => hset, fun heq => absurd heq hlt.ne⟩
  rcases Nat.lt_succ_iff_lt_or_eq.mp hi with hi | rfl
  · exact h.bits i hi
  · simp [h.set (lt_of_succ_lt hlt), h.rbot_le]

theorem Printed.emit (hlt : cur < n) :
    Printed m n (findNextBit m n (cur + 1)) (findNextBit m n (cur + 1)) (rs ++ [(rbot, cur)]) := by
  have hlow : cur + 1 ≤ findNextBit m n (cur + 1) := le_scan hlt
  refine ⟨forall_mem_append.mpr ⟨fun r hr => ?_, forall_mem_singleton.mpr ⟨h.rbot_le, hlow⟩⟩,
    fun i hi => ?_, Nat.le_refl _, scan_le _ _, scan_hit, id⟩
  · exact ⟨(h.ranges r hr).1, (h.ranges r hr).2.trans hlow⟩
  · have hinside : Inside (rs ++ [(rbot, cur)]) i ↔ Inside rs i ∨ (rbot ≤ i ∧ i ≤ cur) := by
      simp only [Inside, mem_append, mem_singleton, or_and_right, exists_or, exists_eq_left]
    rw [hinside, or_iff_left (Nat.not_le.mpr hi)]
    rcases Nat.lt_trichotomy i cur with hic | rfl | hic
    · rw [h.bits i hic, and_iff_left hic.le]
    · simp [h.set hlt, h.rbot_le]
    · have hmiss : m i = false := scan_miss (succ_le_of_lt hic) hi
      have hout : ¬ Inside rs i := fun ⟨r, hr, _, hri⟩ =>
        absurd (hri.trans_lt (h.ranges r hr).2) (Nat.not_lt.mpr hic.le)
      simp [hmiss, hout, Nat.not_le.mpr hic]

theorem scnlistLoop_printed {fuel : ℕ} (hfuel : n < cur + fuel) :
    ∃ rs', Printed m n n n rs' ∧ ∀ k, scnlistLoop (k + 1) m n fuel cur rbot ((listText rs).take k) =
      (listText rs').take k := by
  induction fuel generalizing cur rbot rs with
  | zero => exact absurd hfuel (Nat.not_lt.mpr h.cur_le)
  | succ fuel ih =>
    simp only [scnlistLoop, bscnlEmit_listText]
    split_ifs with hlt hout
    · exact ih (h.emit hlt) (by omega)
    · have hlow : cur + 1 ≤ findNextBit m n (cur + 1) := le_scan hlt
      have hnext : findNextBit m n (cur + 1) = cur + 1 := by omega
      have hset : m (findNextBit m n (cur + 1)) = true := scan_hit (by rw [← findNextBit]; omega)
      rw [hnext] at hset ⊢
      exact ih (h.stay (by omega) hset) (by omega)
    · obtain rfl : cur = n := Nat.le_antisymm h.cur_le (Nat.le_of_not_lt hlt)
      obtain rfl : rbot = cur := h.done rfl
      exact ⟨rs, h, fun k => rfl⟩

omit h

theorem bitmapScnlistprintf_text (m : Bitmap) (n : ℕ) :
    ∃ rs, Printed m n n n rs ∧ ∀ buflen, bitmapScnlistprintf buflen m n = (listText rs).take (buflen - 1) := by
  have hstart : Printed m n (findFirstBit m n) (findFirstBit m n) [] := by
    refine ⟨nofun, fun i hi => ?_, Nat.le_refl _, scan_le _ _, scan_hit, id⟩
    have hmiss : m i = false := scan_miss (Nat.zero_le i) hi
    simp [hmiss, Inside, Nat.not_le.mpr hi]
  obtain ⟨rs, hrs, htext⟩ := scnlistLoop_printed hstart (Nat.lt_add_left _ (lt_succ_self n))
  refine ⟨rs, hrs, fun buflen => ?_⟩
  cases buflen with
  | zero => simp [bitmapScnlistprintf]
  | succ k => simpa [bitmapScnlistprintf, listText, List.intercalate] using htext k

end Print

/-- A non-empty bitmap is read back from its complete text, and a list that is taken is what it says just
if it has no number of more than 32 bits. -/
theorem parselist_exact_iff {long : ℕ} (hlong : 0 < long) {n : ℕ} (hn : n < 2 ^ 31) :
    (∀ m m₀ : Bitmap, (∃ i < n, m i = true) →
      ∃ text m', (∀ buflen, bitmapScnlistprintf buflen m n = text.take (buflen - 1)) ∧
        bitmapParselist long text m₀ n = some (0, m') ∧ ∀ i < n, m' i = m i) ∧
    ∀ s m₀, ∃ code m', bitmapParselist long s m₀ n = some (code, m') ∧
      ((code = 0 → (∀ r ∈ listed s, r.1 ≤ r.2 ∧ r.2 < n) ∧ ∀ i < n, m' i = true ↔ Inside (listed s) i) ↔
        (code = 0 → ∀ r ∈ listed s, r.1 < 2 ^ 32 ∧ r.2 < 2 ^ 32)) := by
  refine ⟨fun m m₀ hset => ?_, fun s m₀ => ?_⟩
  · obtain ⟨rs, hrs, htext⟩ := bitmapScnlistprintf_text m n
    have hne : rs ≠ [] := by
      rintro rfl
      obtain ⟨i, hi, hm⟩ := hset
      simp [hrs.bits i hi, Inside, Nat.not_le.mpr hi] at hm
    obtain ⟨m', hm', hbits⟩ := parselistLoop_listText (m := bitmapZero long m₀ n) hn rs hne hrs.ranges
      (lt_succ_self _)
    refine ⟨listText rs, m', htext, hm', fun i hi => ?_⟩
    rw [Bool.eq_iff_iff, hbits, hrs.bits i hi, bitmapZero_apply hlong m₀ hi]
    simp [Nat.not_le.mpr hi]
  · obtain ⟨code, m', hrun, hspec⟩ :=
      @parselistLoop_spec n _ s (bitmapZero long m₀ n) (lt_succ_self s.length)
    refine ⟨code, m', hrun, forall_congr' fun hcode => ?_⟩
    obtain ⟨hall, hbits⟩ := hspec hcode
    exact listed_right_iff hn (fun i hi => bitmapZero_apply hlong m₀ hi) hall hbits

theorem parselist_exact_iff_range :
    ∃ m', bitmapParselist 32 "0-2,5".toList (fun _ => false) 8 = some (0, m') ∧
      ∀ i < 8, m' i = true ↔ Inside (listed "0-2,5".toList) i := by
  obtain ⟨code, m', h, hiff⟩ := (parselist_exact_iff (by decide : 0 < 32) (by decide : 8 < 2 ^ 31)).2
    "0-2,5".toList fun _ => false
  have hcode : (bitmapParselist 32 "0-2,5".toList (fun _ => false) 8).map Prod.fst = some 0 := by decide
  rw [h] at hcode
  obtain rfl : code = 0 := Option.some.inj hcode
  exact ⟨m', h, (hiff.mpr (fun _ => by decide) rfl).2⟩

/-- The number 2 ^ 32 is taken for the bit 0 of a bitmap that has no other one. -/
theorem parselist_wraps :
    (bitmapParselist 32 "4294967296".toList (fun _ => false) 1).map (fun p => (p.1, p.2 0)) = some (0, true) ∧
      listed "4294967296".toList = [(2 ^ 32, 2 ^ 32)] := by
  decide

end VDLinux.Lib.BitmapList
