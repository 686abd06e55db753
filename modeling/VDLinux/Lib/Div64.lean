import Mathlib

namespace VDLinux.Lib.Div64

open BitVec Int Nat

def doubleLoop (rem : ℕ) : ℕ → ℕ → ℕ → Option (ℕ × ℕ)
  | 0, _, _ => none
  | fuel + 1, b, d =>
    -- the first test is that of the sign of `(int64_t)b`
    if (0 < b ∧ b < 2 ^ 63) ∧ b < rem then doubleLoop rem fuel ((b + b) % 2 ^ 64) ((d + d) % 2 ^ 64)
    else some (b, d)

def subtractLoop : ℕ → ℕ → ℕ → ℕ → ℕ → Option (ℕ × ℕ)
  | 0, _, _, _, _ => none
  | fuel + 1, rem, b, d, res =>
    let (rem, res) := if b ≤ rem then (rem - b, (res + d) % 2 ^ 64) else (rem, res)
    if d / 2 = 0 then some (res, rem % 2 ^ 32) else subtractLoop fuel rem (b / 2) (d / 2) res

/-- `__div64_32`: the new `*n` and the result. -/
def div6432 (n base : ℕ) : Option (ℕ × ℕ) := do
  let high := n / 2 ^ 32 % 2 ^ 32
  let (res, rem) :=
    if base ≤ high then (high / base * 2 ^ 32 % 2 ^ 64, n - high / base * base % 2 ^ 32 * 2 ^ 32) else (0, n)
  let (b, d) ← doubleLoop rem 64 base 1
  subtractLoop 64 rem b d res

def doDiv (n base : ℕ) : Option (ℕ × ℕ) :=
  if n / 2 ^ 32 = 0 then some (n % 2 ^ 32 / base, n % 2 ^ 32 % base) else div6432 n base

def abs (x : BitVec 32) : BitVec 32 := if x.toInt < 0 then -x else x

def divS64Rem (dividend : BitVec 64) (divisor : BitVec 32) : Option (BitVec 64 × BitVec 32) := do
  if dividend.toInt < 0 then
    let (quotient, remainder) ← doDiv (-dividend).toNat (abs divisor).toNat
    let quotient := BitVec.ofNat 64 quotient
    return (if 0 < divisor.toInt then -quotient else quotient, -BitVec.ofNat 32 remainder)
  else
    let (quotient, remainder) ← doDiv dividend.toNat (abs divisor).toNat
    let quotient := BitVec.ofNat 64 quotient
    return (if divisor.toInt < 0 then -quotient else quotient, BitVec.ofNat 32 remainder)

def fls (x : ℕ) : ℕ := if x = 0 then 0 else x.log2 + 1

def div64U64 (dividend divisor : ℕ) : Option ℕ :=
  let high := divisor / 2 ^ 32 % 2 ^ 32
  if high ≠ 0 then
    (doDiv (dividend / 2 ^ fls high) (divisor / 2 ^ fls high % 2 ^ 32)).map Prod.fst
  else (doDiv dividend (divisor % 2 ^ 32)).map Prod.fst

section Unsigned

variable {n base : ℕ} (hbase : 0 < base)
include hbase

theorem doubleLoop_spec {rem fuel k : ℕ} (hrem : rem < 2 ^ 64) (hb : base * 2 ^ k < 2 ^ 64) (hfuel : 64 ≤ fuel + k) :
    ∃ j < 64, doubleLoop rem fuel (base * 2 ^ k) (2 ^ k) = some (base * 2 ^ j, 2 ^ j) ∧ rem < 2 * (base * 2 ^ j) := by
  have hpow : 2 ^ k ≤ base * 2 ^ k := Nat.le_mul_of_pos_left _ hbase
  have hk : k < 64 := (Nat.pow_lt_pow_iff_right (by decide)).mp (hpow.trans_lt hb)
  induction fuel generalizing k with
  | zero => omega
  | succ fuel ih =>
    rw [doubleLoop]
    split_ifs with hgo
    · have hdouble : base * 2 ^ k + base * 2 ^ k = base * 2 ^ (k + 1) ∧ 2 ^ k + 2 ^ k = 2 ^ (k + 1) :=
        ⟨by ring, by ring⟩
      rw [mod_eq_of_lt (by omega), mod_eq_of_lt (by omega), hdouble.1, hdouble.2]
      have hpow' : 2 ^ (k + 1) ≤ base * 2 ^ (k + 1) := Nat.le_mul_of_pos_left _ hbase
      have hb' : base * 2 ^ (k + 1) < 2 ^ 64 := by omega
      exact ih hb' (by omega) hpow' ((Nat.pow_lt_pow_iff_right (by decide)).mp (hpow'.trans_lt hb'))
    · have hpos := Nat.two_pow_pos k
      exact ⟨k, hk, rfl, by omega⟩

theorem subtractLoop_spec {fuel k rem res : ℕ} (hb32 : base ≤ 2 ^ 32) (hn : n < 2 ^ 64) (hsum : res * base + rem = n)
    (hrem : rem < 2 * (base * 2 ^ k)) (hfuel : k < fuel) :
    subtractLoop fuel rem (base * 2 ^ k) (2 ^ k) res = some (n / base, n % base) := by
  induction fuel generalizing k rem res with
  | zero => omega
  | succ fuel ih =>
    obtain ⟨rem', res', hstep, hsum', hrem'⟩ : ∃ rem' res',
        (if base * 2 ^ k ≤ rem then (rem - base * 2 ^ k, (res + 2 ^ k) % 2 ^ 64) else (rem, res)) = (rem', res') ∧
          res' * base + rem' = n ∧ rem' < base * 2 ^ k := by
      split_ifs with hle
      · have hadd : (res + 2 ^ k) * base = res * base + base * 2 ^ k := by ring
        have hfit : res + 2 ^ k ≤ (res + 2 ^ k) * base := Nat.le_mul_of_pos_right _ hbase
        rw [mod_eq_of_lt (by omega)]
        exact ⟨_, _, rfl, by omega, by omega⟩
      · exact ⟨rem, res, rfl, hsum, Nat.lt_of_not_le hle⟩
    rw [subtractLoop, hstep]
    cases k with
    | zero =>
      rw [Nat.pow_zero, Nat.mul_one] at hrem'
      have hquot : n / base = res' := by
        rw [← hsum', Nat.add_comm, add_mul_div_right _ _ hbase, div_eq_of_lt hrem', Nat.zero_add]
      have hmod : n % base = rem' := by
        rw [← hsum', Nat.add_comm, add_mul_mod_self_right, mod_eq_of_lt hrem']
      simp only [Nat.pow_zero, Nat.reduceDiv, if_true, hquot, hmod]
      rw [mod_eq_of_lt (hrem'.trans_le hb32)]
    | succ k =>
      have hhalf : base * 2 ^ (k + 1) / 2 = base * 2 ^ k ∧ 2 ^ (k + 1) / 2 = 2 ^ k := by
        rw [pow_succ, ← Nat.mul_assoc]
        exact ⟨Nat.mul_div_cancel _ (by decide), Nat.mul_div_cancel _ (by decide)⟩
      have hpos := Nat.two_pow_pos k
      simp only [hhalf, hpos.ne', if_false]
      have hdouble : base * 2 ^ (k + 1) = 2 * (base * 2 ^ k) := by ring
      exact ih hsum' (hdouble ▸ hrem') (by omega)

theorem div6432_eq (hb32 : base < 2 ^ 32) (hn : n < 2 ^ 64) : div6432 n base = some (n / base, n % base) := by
  have hhigh : n / 2 ^ 32 % 2 ^ 32 = n / 2 ^ 32 := mod_eq_of_lt (by omega)
  obtain ⟨res, rem, hstart, hsum⟩ : ∃ res rem,
      (if base ≤ n / 2 ^ 32 then (n / 2 ^ 32 / base * 2 ^ 32 % 2 ^ 64, n - n / 2 ^ 32 / base * base % 2 ^ 32 * 2 ^ 32)
        else (0, n)) = (res, rem) ∧ res * base + rem = n := by
    split_ifs with hle
    · have hmul := div_mul_le_self (n / 2 ^ 32) base
      have hquot : n / 2 ^ 32 / base ≤ n / 2 ^ 32 := Nat.div_le_self _ _
      rw [mod_eq_of_lt (a := _ * base) (by omega), mod_eq_of_lt (by omega)]
      exact ⟨_, _, rfl, by rw [Nat.mul_right_comm]; omega⟩
    · exact ⟨0, n, rfl, by omega⟩
  obtain ⟨j, hj, hdouble, hrem⟩ := @doubleLoop_spec base hbase rem 64 0 (by omega) (by omega) (by omega)
  rw [pow_zero, Nat.mul_one] at hdouble
  simp only [div6432, hhigh, hstart, hdouble, bind, Option.bind]
  exact subtractLoop_spec hbase hb32.le hn hsum hrem hj

theorem doDiv_eq (hb32 : base < 2 ^ 32) (hn : n < 2 ^ 64) : doDiv n base = some (n / base, n % base) := by
  rw [doDiv]
  split_ifs with hsmall
  · rw [mod_eq_of_lt (by omega)]
  · exact div6432_eq hbase hb32 hn

end Unsigned

section Signed

theorem toNat_magnitude {w : ℕ} (x : BitVec w) : (if x.toInt < 0 then -x else x).toNat = x.toInt.natAbs := by
  rw [apply_ite BitVec.toNat, toNat_neg, toInt_eq_toNat_cond]
  split_ifs
  · omega
  · omega
  · rw [mod_eq_of_lt (by omega)]
    omega
  · omega

theorem toInt_ofNat_of_lt {w x : ℕ} (h : 2 * x < 2 ^ w) : (BitVec.ofNat w x).toInt = x := by
  rw [toInt_eq_toNat_of_lt, toNat_ofNat, mod_eq_of_lt (by omega)]
  rwa [toNat_ofNat, mod_eq_of_lt (by omega)]

theorem toInt_neg_ofNat {w x : ℕ} (hw : 0 < w) (h : 2 * x ≤ 2 ^ w) : (-BitVec.ofNat w x).toInt = -x := by
  have hpow : 2 ≤ 2 ^ w := Nat.le_self_pow hw.ne' 2
  rw [toInt_eq_toNat_cond, toNat_neg, toNat_ofNat, mod_eq_of_lt (by omega : x < 2 ^ w)]
  rcases Nat.eq_zero_or_pos x with rfl | hpos
  · simp
  · rw [mod_eq_of_lt (by omega : 2 ^ w - x < 2 ^ w)]
    split_ifs <;> omega

/-- The quotient is the one truncated toward zero and the remainder belongs to it. -/
def Truncates (a d q r : ℤ) : Prop := q = a.tdiv d ∧ a = q * d + r ∧ |r| < |d| ∧ (0 ≤ a → 0 ≤ r) ∧ (a ≤ 0 → r ≤ 0)

theorem truncates_tdiv (a : ℤ) {d : ℤ} (hd : d ≠ 0) : Truncates a d (a.tdiv d) (a.tmod d) := by
  refine ⟨rfl, (tdiv_mul_add_tmod a d).symm, ?_, fun ha => tmod_nonneg d ha, fun ha => ?_⟩
  · rw [← natCast_natAbs, ← natCast_natAbs, natAbs_tmod]
    exact_mod_cast mod_lt _ (natAbs_pos.mpr hd)
  · have hneg := tmod_nonneg d (Int.neg_nonneg_of_nonpos ha)
    rw [neg_tmod] at hneg
    omega

theorem tdiv_eq_natAbs (a d : ℤ) :
    a.tdiv d = (if a < 0 ↔ d < 0 then (↑(a.natAbs / d.natAbs) : ℤ) else -↑(a.natAbs / d.natAbs)) ∧
      a.tmod d = if a < 0 then -(↑(a.natAbs % d.natAbs) : ℤ) else ↑(a.natAbs % d.natAbs) := by
  cases a with
  | ofNat m => cases d <;> simp [Int.tdiv, Int.tmod, negSucc_lt_zero, Int.not_lt.mpr (natCast_nonneg m)]
  | negSucc m => cases d <;> simp [Int.tdiv, Int.tmod, negSucc_lt_zero]

theorem divS64Rem_truncates (a : BitVec 64) {d : BitVec 32} (hd : d ≠ 0) (hq : a.toInt.tdiv d.toInt < 2 ^ 63) :
    ∃ q r, divS64Rem a d = some (q, r) ∧ Truncates a.toInt d.toInt q.toInt r.toInt := by
  have hd' : d.toInt ≠ 0 := fun h => hd (eq_of_toInt_eq (h.trans toInt_zero.symm))
  have hnum := toNat_magnitude a
  have hden : (abs d).toNat = d.toInt.natAbs := toNat_magnitude d
  have hnumLt := toInt_lt (x := a)
  have hnumLe := le_toInt a
  have hdenLt := toInt_lt (x := d)
  have hdenLe := le_toInt d
  have hdiv : doDiv a.toInt.natAbs (abs d).toNat =
      some (a.toInt.natAbs / d.toInt.natAbs, a.toInt.natAbs % d.toInt.natAbs) := by
    rw [hden]
    exact doDiv_eq (natAbs_pos.mpr hd') (by omega) (by omega)
  have hrem := mod_lt a.toInt.natAbs (natAbs_pos.mpr hd')
  have hquot := Nat.div_le_self a.toInt.natAbs d.toInt.natAbs
  have hr : 2 * (a.toInt.natAbs % d.toInt.natAbs) < 2 ^ 32 := by omega
  have hq' : 2 * (a.toInt.natAbs / d.toInt.natAbs) ≤ 2 ^ 64 := by omega
  have htrunc := truncates_tdiv a.toInt hd'
  obtain ⟨htdiv, htmod⟩ := tdiv_eq_natAbs a.toInt d.toInt
  rw [htdiv] at hq htrunc
  rw [htmod] at htrunc
  unfold divS64Rem
  by_cases ha : a.toInt < 0
  · rw [if_pos ha] at hnum
    simp only [if_pos ha, hnum, hdiv, bind, Option.bind]
    refine ⟨_, _, rfl, ?_⟩
    rw [toInt_neg_ofNat (by decide) hr.le]
    by_cases hneg : d.toInt < 0
    · simp only [ha, hneg, if_true] at hq htrunc
      rwa [if_neg (by omega), toInt_ofNat_of_lt (by omega)]
    · simp only [ha, hneg, iff_false, not_true_eq_false, if_true, if_false] at htrunc
      rwa [if_pos (by omega), toInt_neg_ofNat (by decide) hq']
  · rw [if_neg ha] at hnum
    simp only [if_neg ha, hnum, hdiv, bind, Option.bind]
    refine ⟨_, _, rfl, ?_⟩
    rw [toInt_ofNat_of_lt hr]
    by_cases hneg : d.toInt < 0
    · simp only [ha, hneg, iff_true, if_false] at htrunc
      rwa [if_pos hneg, toInt_neg_ofNat (by decide) hq']
    · simp only [ha, hneg, if_true, if_false] at hq htrunc
      rwa [if_neg hneg, toInt_ofNat_of_lt (by omega)]

end Signed

theorem division_exact :
    (∀ n base, n < 2 ^ 64 → 0 < base → base < 2 ^ 32 → div6432 n base = some (n / base, n % base)) ∧
    ∀ (a : BitVec 64) (d : BitVec 32), d ≠ 0 → a.toInt.tdiv d.toInt < 2 ^ 63 →
      ∃ q r, divS64Rem a d = some (q, r) ∧ Truncates a.toInt d.toInt q.toInt r.toInt :=
  ⟨fun _ _ hn hbase hb32 => div6432_eq hbase hb32 hn, fun a _ hd hq => divS64Rem_truncates a hd hq⟩

theorem division_exact_extremes : div6432 (2 ^ 64 - 1) (2 ^ 32 - 1) = some (2 ^ 32 + 1, 0) ∧
      ∃ q r, divS64Rem (BitVec.intMin 64) 3 = some (q, r) ∧ Truncates (-2 ^ 63) 3 q.toInt r.toInt :=
  ⟨division_exact.1 (2 ^ 64 - 1) (2 ^ 32 - 1) (by decide) (by decide) (by decide),
    division_exact.2 (BitVec.intMin 64) 3 (by decide) (by decide)⟩

section Shifted

variable {a b : ℕ}

theorem lt_two_pow_fls (x : ℕ) : x < 2 ^ fls x := by
  unfold fls
  split_ifs with hx
  · rw [hx]
    decide
  · exact lt_log2_self

theorem two_pow_fls_le (hb : 0 < b) (hb64 : b < 2 ^ 64) : 2 ^ fls (b / 2 ^ 32) ≤ b := by
  unfold fls
  split_ifs with hzero
  · exact hb
  · have hlog : (b / 2 ^ 32).log2 + 1 ≤ 32 := by
      rw [succ_le_iff, log2_lt hzero]
      omega
    exact (Nat.pow_le_pow_right (by decide) hlog).trans (by omega)

theorem div64U64_eq (ha : a < 2 ^ 64) (hb : 0 < b) (hb64 : b < 2 ^ 64) :
    div64U64 a b = some (a / (b - b % 2 ^ fls (b / 2 ^ 32))) := by
  have hhigh : b / 2 ^ 32 % 2 ^ 32 = b / 2 ^ 32 := mod_eq_of_lt (by omega)
  simp only [div64U64, hhigh]
  split_ifs with hzero
  · have hlt := lt_two_pow_fls (b / 2 ^ 32)
    have hle := two_pow_fls_le hb hb64
    generalize fls (b / 2 ^ 32) = s at *
    have hsmall : b / 2 ^ s < 2 ^ 32 := by
      rw [Nat.div_lt_iff_lt_mul (Nat.two_pow_pos s), Nat.mul_comm]
      rwa [Nat.div_lt_iff_lt_mul (by decide)] at hlt
    have hdiv := doDiv_eq (Nat.div_pos hle (Nat.two_pow_pos s)) hsmall ((Nat.div_le_self a (2 ^ s)).trans_lt ha)
    rw [mod_eq_of_lt hsmall, hdiv, Option.map_some, Nat.div_div_eq_div_mul,
      Nat.eq_sub_of_add_eq (div_add_mod b (2 ^ s))]
  · have hb32 : b < 2 ^ 32 := by omega
    rw [mod_eq_of_lt hb32, doDiv_eq hb hb32 ha, not_not.mp hzero]
    simp [fls, mod_one]

/-- The quotient is right exactly if the bits of the divisor that are shifted out, once for each unit of the
quotient and once more, fit in with the remainder. -/
theorem div64U64_exact_iff (ha : a < 2 ^ 64) (hb : 0 < b) (hb64 : b < 2 ^ 64) :
    div64U64 a b = some (a / b) ↔ a % b + (a / b + 1) * (b % 2 ^ fls (b / 2 ^ 32)) < b := by
  have hcut := mod_lt b (Nat.two_pow_pos (fls (b / 2 ^ 32)))
  have hle := two_pow_fls_le hb hb64
  rw [div64U64_eq ha hb hb64, Option.some.injEq]
  generalize 2 ^ fls (b / 2 ^ 32) = p at *
  have hsum := div_add_mod a b
  have hlow : a / b * (b - b % p) ≤ b * (a / b) := by
    rw [Nat.mul_comm b]
    exact Nat.mul_le_mul_left _ (sub_le _ _)
  have hup : a / b * (b - b % p) + (b - b % p) + (a / b + 1) * (b % p) = b * (a / b) + b := by
    rw [← Nat.succ_mul, succ_eq_add_one, ← Nat.mul_add, Nat.sub_add_cancel (by omega)]
    ring
  rw [Nat.div_eq_iff (by omega)]
  omega

theorem div64U64_exact_iff_even : div64U64 (2 ^ 64 - 1) (2 ^ 33) = some (2 ^ 31 - 1) :=
  (div64U64_exact_iff (by decide) (by decide) (by decide)).mpr (by decide +kernel)

/-- The true quotient is 2 ^ 32 - 2. -/
theorem div64U64_too_large :
    div64U64 (2 ^ 64 - 2) (2 ^ 32 + 1) = some (2 ^ 32 - 1) ∧ (2 ^ 64 - 2) / (2 ^ 32 + 1) = 2 ^ 32 - 2 := by
  decide +kernel

end Shifted

end VDLinux.Lib.Div64
