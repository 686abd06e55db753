import VDLinux.Base.Borders

namespace VDLinux.Lib.Kmp

open Base.Borders List

def islower (c : UInt8) : Bool := (0x61 ≤ c && c ≤ 0x7a) || (0xdf ≤ c && c ≠ 0xf7)

def toupper (c : UInt8) : UInt8 := if islower c then c - 0x20 else c

def fold (icase : Bool) (c : UInt8) : UInt8 := if icase then toupper c else c

def uintMax : ℕ := 2 ^ 32 - 1

structure TsConfig where
  icase : Bool
  pattern : List UInt8
  patternLen : ℕ
  prefixTbl : ℕ → ℕ

/-- The inner `while` loop of both functions. -/
def fallBack (pattern : List UInt8) (prefixTbl : ℕ → ℕ) (c : UInt8) : ℕ → ℕ → Option ℕ
  | 0, q => if 0 < q ∧ pattern[q]? ≠ some c then none else some q
  | fuel + 1, q =>
    if 0 < q ∧ pattern[q]? ≠ some c then fallBack pattern prefixTbl c fuel (prefixTbl (q - 1)) else some q

def advance (pattern : List UInt8) (prefixTbl : ℕ → ℕ) (q : ℕ) (c : UInt8) : Option ℕ := do
  let q ← fallBack pattern prefixTbl c q q
  return if pattern[q]? = some c then q + 1 else q

/-- The loop of `compute_prefix_tbl` from `q` on, over the letters that are left. -/
def computePrefixTbl (pattern : List UInt8) : List UInt8 → ℕ → ℕ → (ℕ → ℕ) → Option (ℕ → ℕ)
  | [], _, _, prefixTbl => some prefixTbl
  | c :: rest, k, q, prefixTbl => do
    let k ← advance pattern prefixTbl k c
    computePrefixTbl pattern rest k (q + 1) (Function.update prefixTbl q k)

/-- The configuration comes zeroed, and the first entry of the table is never written. -/
def kmpInit (pattern : List UInt8) (icase : Bool) : Option TsConfig := do
  let folded := pattern.map (fold icase)
  let prefixTbl ← computePrefixTbl folded folded.tail 0 1 fun _ => 0
  return ⟨icase, folded, pattern.length, prefixTbl⟩

/-- One block: the index of the letter that completes a match, or the state at its end. -/
def scanBlock (conf : TsConfig) : List UInt8 → ℕ → ℕ → Option (ℕ ⊕ ℕ)
  | [], _, q => some (.inr q)
  | c :: text, i, q => do
    let q ← advance conf.pattern conf.prefixTbl q (fold conf.icase c)
    if q = conf.patternLen then return .inl i else scanBlock conf text (i + 1) q

/-- Returns the value and `state->offset`. Each call of `get_next_block` is for another offset, so its
answer is a function of that. -/
def findLoop (conf : TsConfig) (getNextBlock : ℕ → List UInt8) (offset : ℕ) : ℕ → ℕ → ℕ → Option (ℕ × ℕ)
  | 0, _, _ => none
  | fuel + 1, consumed, q => do
    let text := getNextBlock consumed
    if text = [] then return (uintMax, offset)
    match ← scanBlock conf text 0 q with
    | .inl i =>
      let offset := (consumed + i + 1) % 2 ^ 32
      return ((offset + (2 ^ 32 - conf.patternLen)) % 2 ^ 32, offset)
    | .inr q => findLoop conf getNextBlock offset fuel ((consumed + text.length) % 2 ^ 32) q

def kmpFind (conf : TsConfig) (getNextBlock : ℕ → List UInt8) (fuel offset : ℕ) : Option (ℕ × ℕ) :=
  findLoop conf getNextBlock offset fuel offset 0

/-- The blocks are the text, cut in any way; its offsets are those of an `unsigned int`. -/
structure Cuts (text : List UInt8) (getNextBlock : ℕ → List UInt8) : Prop where
  length_lt : text.length < 2 ^ 32
  block : ∀ i < text.length, getNextBlock i ≠ [] ∧ getNextBlock i <+: text.drop i
  done : ∀ i, text.length ≤ i → getNextBlock i = []

def Occurs (pattern text : List UInt8) (icase : Bool) (i : ℕ) : Prop :=
  pattern.map (fold icase) <+: (text.drop i).map (fold icase)

section Automaton

variable {P w s : List UInt8} {tbl : ℕ → ℕ} {c : UInt8} {fuel n q : ℕ}

theorem fallBack_spec (ht : Table P tbl n) (hn : n ≤ P.length) (hq : q ≤ n) (hw : P.take q <:+ w)
    (hf : q ≤ fuel) :
    ∃ k ≤ q, fallBack P tbl c fuel q = some k ∧ P.take k <:+ w ∧ (k = 0 ∨ P[k]? = some c) ∧
      ∀ j ≤ q, P.take j <:+ w → P[j]? = some c → j ≤ k := by
  induction fuel generalizing q with
  | zero =>
    obtain rfl := Nat.le_zero.mp hf
    exact ⟨0, le_rfl, rfl, hw, .inl rfl, fun j hj _ _ => hj⟩
  | succ fuel ih =>
    by_cases hc : 0 < q ∧ P[q]? ≠ some c
    · obtain ⟨q, rfl⟩ := Nat.exists_eq_succ_of_ne_zero hc.1.ne'
      obtain ⟨hr, hrw, hmax⟩ := (ht q hq).fall (by omega) hw
      obtain ⟨k, hk, he, hkw, hkc, hkmax⟩ := ih (by omega) hrw (by omega)
      refine ⟨k, by omega, by rw [fallBack, if_pos hc]; exact he, hkw, hkc, fun j hj hjw hjc => ?_⟩
      have hjq : j ≠ q.succ := fun h => hc.2 (h ▸ hjc)
      exact hkmax j (hmax j (by omega) hjw) hjw hjc
    · refine ⟨q, le_rfl, by rw [fallBack, if_neg hc], hw, ?_, fun j hj _ _ => hj⟩
      rw [not_and_or, not_not] at hc
      exact hc.imp_left Nat.eq_zero_of_not_pos

theorem advance_spec (ht : Table P tbl n) (hn : n ≤ P.length) (hq : q ≤ n) (hw : Longest P w q)
    (c : UInt8) : ∃ r, advance P tbl q c = some r ∧ Longest P (w ++ [c]) r := by
  obtain ⟨k, hk, he, hkw, hkc, hmax⟩ := fallBack_spec (c := c) ht hn hq hw.1.2 le_rfl
  refine ⟨_, ?_, hw.step hk hkw hmax hkc⟩
  rw [advance, he]
  rfl

theorem computePrefixTbl_spec {rest : List UInt8} {k : ℕ} (ht : Table P tbl (w.length + 1))
    (hw : Longest P w k) (hP : w ++ rest = P.tail) (hne : P ≠ []) :
    ∃ tbl', computePrefixTbl P rest k (w.length + 1) tbl = some tbl' ∧ Table P tbl' P.length := by
  have hlen : w.length + rest.length + 1 = P.length := by
    have := congrArg List.length hP
    have := length_pos_iff.mpr hne
    rw [length_append, length_tail] at *
    omega
  induction rest generalizing w k tbl with
  | nil => exact ⟨tbl, rfl, hlen ▸ ht⟩
  | cons c rest ih =>
    rw [length_cons] at hlen
    have hk := hw.1.2.length_le
    rw [length_take, Nat.min_eq_left hw.1.1] at hk
    obtain ⟨r, he, hr⟩ := advance_spec ht (by omega) (by omega) hw c
    have hwc : (w ++ [c]).length = w.length + 1 := length_append
    have hcat : w ++ [c] ++ rest = P.tail := by rw [append_assoc]; exact hP
    have hnext : Table P (Function.update tbl (w.length + 1) r) ((w ++ [c]).length + 1) := by
      intro j hj
      by_cases hjw : j = w.length + 1
      · rw [hjw, Function.update_self, ← hcat, take_left' hwc]
        exact hr
      · rw [Function.update_of_ne hjw]
        exact ht j (by omega)
    obtain ⟨tbl', he', ht'⟩ := ih hnext hr hcat (by omega)
    rw [hwc] at he'
    exact ⟨tbl', by simp [computePrefixTbl, he, he'], ht'⟩

structure Ready (conf : TsConfig) : Prop where
  patternLen : conf.patternLen = conf.pattern.length
  nonempty : conf.pattern ≠ []
  table : Table conf.pattern conf.prefixTbl conf.pattern.length

theorem kmpInit_ready {pattern : List UInt8} (icase : Bool) (hne : pattern ≠ []) :
    ∃ conf, kmpInit pattern icase = some conf ∧ conf.icase = icase ∧
      conf.pattern = pattern.map (fold icase) ∧ Ready conf := by
  have hzero : Table (pattern.map (fold icase)) (fun _ => 0) ([] : List UInt8).length.succ := by
    intro j hj
    obtain rfl : j = 0 := Nat.lt_one_iff.mp hj
    exact longest_nil _
  have hP : pattern.map (fold icase) ≠ [] := by simpa using hne
  obtain ⟨tbl, he, ht⟩ := computePrefixTbl_spec hzero (longest_nil _) (List.nil_append _) hP
  refine ⟨⟨icase, _, _, tbl⟩, ?_, rfl, rfl, (length_map _).symm, hP, ht⟩
  rw [kmpInit, show computePrefixTbl _ _ 0 1 _ = some tbl from he]
  rfl

end Automaton

section Search

variable {conf : TsConfig} {s text whole : List UInt8} {getNextBlock : ℕ → List UInt8} {n offset q : ℕ}
  (hc : Ready conf)
include hc

theorem scanBlock_spec (hs : Scanned conf.pattern s n q) (hb : text.map (fold conf.icase) <+: s.drop n)
    (i : ℕ) :
    (∃ j k, scanBlock conf text i q = some (.inl (i + j)) ∧ k + conf.pattern.length = n + j + 1 ∧
      IsLeast {k | conf.pattern <+: s.drop k} k) ∨
    ∃ r, scanBlock conf text i q = some (.inr r) ∧ Scanned conf.pattern s (n + text.length) r := by
  induction text generalizing n q i with
  | nil => exact .inr ⟨q, rfl, hs⟩
  | cons c text ih =>
    obtain ⟨t, hd⟩ := hb
    have hn : n < s.length := by
      by_contra hle
      simp [drop_of_length_le (Nat.le_of_not_lt hle)] at hd
    have htake : s.take (n + 1) = s.take n ++ [fold conf.icase c] := by
      rw [take_add, ← hd]
      rfl
    have hb' : text.map (fold conf.icase) <+: s.drop (n + 1) := by
      rw [← drop_drop, ← hd]
      exact ⟨t, rfl⟩
    obtain ⟨r, he, hr⟩ := advance_spec hc.table le_rfl hs.lt_length.le hs.longest (fold conf.icase c)
    have hnext := hs.next hn (htake ▸ hr)
    rw [scanBlock, he, Option.bind_eq_bind, Option.bind_some, hc.patternLen]
    split_ifs at hnext ⊢ with hrP
    · obtain ⟨k, hk⟩ := hnext
      exact .inl ⟨0, k, rfl, hk⟩
    · have hrun := ih hnext hb' (i + 1)
      rw [Nat.add_assoc n, Nat.add_comm 1] at hrun
      refine hrun.imp_left ?_
      rintro ⟨j, k, hj, hk, hl⟩
      exact ⟨j + 1, k, hj.trans (by rw [Nat.add_right_comm]; rfl), by omega, hl⟩

theorem findLoop_spec (fuel : ℕ) (hcuts : Cuts whole getNextBlock)
    (he : (whole.drop offset).map (fold conf.icase) = s) (hs : Scanned conf.pattern s n q)
    (hf : whole.length < n + fuel) :
    (∃ k, IsLeast {k | conf.pattern <+: s.drop k} k ∧ k + conf.patternLen ≤ s.length ∧
      findLoop conf getNextBlock offset fuel (offset + n) q =
        some (offset + k, offset + k + conf.patternLen)) ∨
    (∀ k, ¬ conf.pattern <+: s.drop k) ∧
      findLoop conf getNextBlock offset fuel (offset + n) q = some (uintMax, offset) := by
  have hsl : s.length = whole.length - offset := by rw [← he, length_map, length_drop]
  have hle := hs.le_length
  have hP := length_pos_iff.mpr hc.nonempty
  induction fuel generalizing n q with
  | zero => omega
  | succ fuel ih =>
    by_cases hlt : offset + n < whole.length
    · obtain ⟨hne, hpre⟩ := hcuts.block _ hlt
      have hpos := length_pos_iff.mpr hne
      have hlen := hpre.length_le
      rw [length_drop] at hlen
      have hw := hcuts.length_lt
      have hb : (getNextBlock (offset + n)).map (fold conf.icase) <+: s.drop n := by
        rw [← he, ← map_drop, drop_drop]
        exact hpre.map _
      rw [findLoop, if_neg hne]
      cases scanBlock_spec hc hs hb 0 with
      | inl h =>
        obtain ⟨j, k, hj, hk, hl⟩ := h
        have hkl := hl.1.length_le
        rw [length_drop] at hkl
        refine .inl ⟨k, hl, by rw [hc.patternLen]; omega, ?_⟩
        rw [hj, hc.patternLen]
        simp
        omega
      | inr h =>
        obtain ⟨r, hr, hs'⟩ := h
        rw [hr, Option.bind_eq_bind, Option.bind_some, Nat.mod_eq_of_lt (by omega), Nat.add_assoc]
        exact ih hs' (by omega) hs'.le_length
    · refine .inr ⟨fun k hk => ?_, by rw [findLoop, if_pos (hcuts.done _ (Nat.le_of_not_lt hlt))]; rfl⟩
      have hkl := hk.length_le
      rw [length_drop] at hkl
      exact hs.none k (by omega) hk

end Search

theorem kmpFind_first {pattern text : List UInt8} {getNextBlock : ℕ → List UInt8} (hne : pattern ≠ [])
    (hcuts : Cuts text getNextBlock) (icase : Bool) (offset : ℕ) {fuel : ℕ} (hf : text.length < fuel) :
    ∃ conf, kmpInit pattern icase = some conf ∧
      ((∃ i, IsLeast {i | offset ≤ i ∧ Occurs pattern text icase i} i ∧ i < uintMax ∧
          kmpFind conf getNextBlock fuel offset = some (i, i + pattern.length)) ∨
        (∀ i, offset ≤ i → ¬ Occurs pattern text icase i) ∧
          kmpFind conf getNextBlock fuel offset = some (uintMax, offset)) := by
  obtain ⟨conf, hinit, rfl, hP, hc⟩ := kmpInit_ready icase hne
  refine ⟨conf, hinit, ?_⟩
  have hocc : ∀ k, Occurs pattern text conf.icase (offset + k) ↔
      conf.pattern <+: ((text.drop offset).map (fold conf.icase)).drop k := by
    intro k
    rw [Occurs, hP, ← map_drop, drop_drop]
  have hlen : conf.patternLen = pattern.length := by rw [hc.patternLen, hP, length_map]
  have hpos := length_pos_iff.mpr hne
  have hs : Scanned conf.pattern ((text.drop offset).map (fold conf.icase)) 0 0 := by
    refine ⟨longest_nil _, Nat.zero_le _, fun k hk => ?_⟩
    rw [← hc.patternLen] at hk
    omega
  cases findLoop_spec hc fuel hcuts rfl hs (by omega) with
  | inl h =>
    obtain ⟨k, hk, hkl, hfind⟩ := h
    rw [length_map, length_drop] at hkl
    have hw := hcuts.length_lt
    refine .inl ⟨offset + k, ⟨⟨Nat.le_add_right _ _, (hocc k).mpr hk.1⟩, ?_⟩, ?_, hlen ▸ hfind⟩
    · rintro i ⟨hi, ho⟩
      obtain ⟨k', rfl⟩ := Nat.exists_eq_add_of_le hi
      exact Nat.add_le_add_left (hk.2 ((hocc k').mp ho)) offset
    · rw [uintMax]
      omega
  | inr h =>
    refine .inr ⟨fun i hi ho => ?_, h.2⟩
    obtain ⟨k, rfl⟩ := Nat.exists_eq_add_of_le hi
    exact h.1 k ((hocc k).mp ho)

theorem kmpFind_first_bytewise : ∃ conf, kmpInit [0x62, 0x61] true = some conf ∧
      ((∃ i, IsLeast {i | 1 ≤ i ∧ Occurs [0x62, 0x61] [0x42, 0x42, 0x41] true i} i ∧ i < uintMax ∧
          kmpFind conf (fun i => ([0x42, 0x42, 0x41].drop i).take 1) 4 1 = some (i, i + 2)) ∨
        (∀ i, 1 ≤ i → ¬ Occurs [0x62, 0x61] [0x42, 0x42, 0x41] true i) ∧
          kmpFind conf (fun i => ([0x42, 0x42, 0x41].drop i).take 1) 4 1 = some (uintMax, 1)) :=
  kmpFind_first (by decide) ⟨by decide, by decide, fun i hi => by simp [drop_of_length_le hi]⟩ true 1
    (by decide)

end VDLinux.Lib.Kmp
