import Mathlib

namespace VDLinux.Base.Montgomery

open Nat

/-- The accumulator of a Montgomery reduction of `a` to the base `b` after `i` rounds. Round `i` adds
the multiple of `n * b ^ i` that the digit at position `i` and the constant `k` select. -/
def acc (b n k a : ℕ) : ℕ → ℕ
  | 0 => a
  | i + 1 => acc b n k a i + acc b n k a i / b ^ i % b * k % b * n * b ^ i

/-- How many digits above the lowest `l` the accumulator is taken to have after `i` rounds, if a
digit is appended only when the round at the top of the array carries out of it. -/
def extent (b n k l a : ℕ) : ℕ → ℕ
  | 0 => (Nat.digits b a).length
  | i + 1 =>
    if extent b n k l a i = i ∧ b ^ (l + i) ≤ acc b n k a (i + 1) then i + 1
    else extent b n k l a i

/-- No digit of the accumulator ends above the extent. -/
def Keeps (b n k l a : ℕ) : Prop := acc b n k a l < b ^ (l + extent b n k l a l)

instance (b n k l a : ℕ) : Decidable (Keeps b n k l a) :=
  inferInstanceAs (Decidable (_ < _))

def redc (b n k l a : ℕ) : ℕ :=
  if acc b n k a l / b ^ l < n then acc b n k a l / b ^ l
  else acc b n k a l / b ^ l - n

section Reduction

variable {b n k l a : ℕ}

theorem acc_succ_le (hb : 0 < b) (i : ℕ) :
    acc b n k a (i + 1) ≤ acc b n k a i + (b - 1) * n * b ^ i := by
  rw [acc]
  have hlt : acc b n k a i / b ^ i % b * k % b ≤ b - 1 := le_pred_of_lt (mod_lt _ hb)
  gcongr

theorem acc_add_le (hb : 0 < b) (i : ℕ) : acc b n k a i + n ≤ a + b ^ i * n := by
  induction i with
  | zero => simp [acc]
  | succ i ih =>
    have h := acc_succ_le (n := n) (k := k) (a := a) hb i
    have hp : b ^ (i + 1) * n = (b - 1) * n * b ^ i + b ^ i * n := by
      obtain ⟨c, rfl⟩ := exists_eq_succ_of_ne_zero hb.ne'
      rw [pow_succ, succ_sub_one, succ_eq_add_one]
      ring
    omega

theorem acc_modEq (i : ℕ) : acc b n k a i ≡ a [MOD n] := by
  induction i with
  | zero => exact Nat.ModEq.refl a
  | succ i ih =>
    rw [acc, Nat.mul_right_comm]
    have hz : acc b n k a i / b ^ i % b * k % b * b ^ i * n ≡ 0 [MOD n] :=
      (modEq_zero_iff_dvd).mpr (Nat.dvd_mul_left _ _)
    simpa using ih.add hz

theorem acc_zero (i : ℕ) : acc b n k 0 i = 0 := by
  induction i with
  | zero => rfl
  | succ i ih => rw [acc, ih, Nat.zero_div, zero_mod, Nat.zero_mul, zero_mod, Nat.zero_mul,
      Nat.zero_mul]

theorem redc_zero (hn : 0 < n) : redc b n k l 0 = 0 := by
  rw [redc, acc_zero, Nat.zero_div, if_pos hn]

theorem acc_lt {s : ℕ} (hb : 0 < b) (hn : n < b ^ l) (ha : a < b ^ s) (i : ℕ) :
    acc b n k a i < b ^ (l + max s i) := by
  have h := acc_add_le (n := n) (k := k) (a := a) hb i
  have h1 : b ^ s ≤ b ^ max s i := Nat.pow_le_pow_right hb (le_max_left s i)
  have h2 : b ^ i * n ≤ b ^ max s i * n :=
    Nat.mul_le_mul_right n (Nat.pow_le_pow_right hb (le_max_right s i))
  have h3 : b ^ max s i * (n + 1) ≤ b ^ max s i * b ^ l := Nat.mul_le_mul_left _ hn
  rw [Nat.add_comm l, pow_add]
  rw [mul_succ] at h3
  omega

theorem pow_dvd_acc (hb : 0 < b) (hk : (k * n + 1) % b = 0) (i : ℕ) : b ^ i ∣ acc b n k a i := by
  induction i with
  | zero => exact Nat.one_dvd _
  | succ i ih =>
    obtain ⟨t, ht⟩ := ih
    rw [acc, ht, Nat.mul_div_cancel_left t (Nat.pow_pos hb), pow_succ]
    have hclear : b ∣ t + t % b * k % b * n := by
      apply (modEq_zero_iff_dvd).mp
      have h1 : t % b * k % b * n ≡ t * k * n [MOD b] :=
        ((mod_modEq _ b).trans ((mod_modEq t b).mul_right k)).mul_right n
      have h2 : t + t * k * n = t * (k * n + 1) := by ring
      have h3 : t * (k * n + 1) ≡ 0 [MOD b] :=
        Nat.ModEq.mul_left t (show k * n + 1 ≡ 0 [MOD b] from hk)
      exact (h1.add_left t).trans (h2 ▸ h3)
    have hs : b ^ i * t + t % b * k % b * n * b ^ i = b ^ i * (t + t % b * k % b * n) := by ring
    rw [hs]
    exact Nat.mul_dvd_mul_left _ hclear

/-- A constant that is a unit modulo `b` leaves no accumulator below the modulus: either some round
adds a multiple of it, or every digit read was zero. -/
theorem le_acc (hb : 0 < b) (hk : Nat.Coprime b k) (i : ℕ) :
    n ≤ acc b n k a i ∨ acc b n k a i = a ∧ b ^ i ∣ a := by
  induction i with
  | zero => exact Or.inr ⟨rfl, Nat.one_dvd a⟩
  | succ i ih =>
    obtain h | ⟨he, t, ht⟩ := ih
    · exact Or.inl (h.trans (Nat.le_add_right _ _))
    rw [acc, he, ht, Nat.mul_div_cancel_left t (Nat.pow_pos hb)]
    by_cases hu : t % b * k % b = 0
    · refine Or.inr ⟨by rw [hu, Nat.zero_mul, Nat.zero_mul, Nat.add_zero], ?_⟩
      have hdvd : b ∣ t % b := hk.dvd_of_dvd_mul_right (dvd_of_mod_eq_zero hu)
      have ht0 : b ∣ t := (dvd_mod_iff (Nat.dvd_refl b)).mp hdvd
      exact Nat.mul_dvd_mul_left _ ht0
    · refine Or.inl (le_add_left ?_)
      rw [Nat.mul_right_comm]
      exact Nat.le_mul_of_pos_left n (Nat.mul_pos (Nat.pos_of_ne_zero hu) (Nat.pow_pos hb))

theorem pow_le_acc (hb : 0 < b) (hk : Nat.Coprime b k) (hn : b ^ (l - 1) ≤ n) (ha : 0 < a) :
    b ^ (l - 1) ≤ acc b n k a l := by
  obtain h | ⟨he, hd⟩ := le_acc (n := n) (a := a) hb hk l
  · exact hn.trans h
  · rw [he]
    exact (Nat.pow_le_pow_right hb (sub_le l 1)).trans (le_of_dvd ha hd)

theorem extent_early {i : ℕ} (h : i ≤ (Nat.digits b a).length) :
    extent b n k l a i = (Nat.digits b a).length := by
  induction i with
  | zero => rfl
  | succ i ih =>
    have he := ih (by omega)
    rw [extent, he, if_neg (by omega)]

theorem extent_late {i : ℕ} (h : (Nat.digits b a).length ≤ i) :
    extent b n k l a i ≤ i ∧ (Nat.digits b a).length ≤ extent b n k l a i := by
  induction i with
  | zero => exact ⟨h, le_rfl⟩
  | succ i ih =>
    rw [extent]
    split_ifs with hc
    · exact ⟨le_rfl, h⟩
    rcases Nat.lt_or_ge i (Nat.digits b a).length with hlt | hge
    · rw [extent_early hlt.le]
      exact ⟨h, le_rfl⟩
    · obtain ⟨h1, h2⟩ := ih hge
      exact ⟨by omega, h2⟩

theorem extent_le_max (i : ℕ) : extent b n k l a i ≤ max (Nat.digits b a).length i := by
  rcases Nat.le_total i (Nat.digits b a).length with h | h
  · exact (extent_early h).trans_le (le_max_left _ _)
  · exact (extent_late h).1.trans (le_max_right _ _)

theorem keeps_of_long (hb : 1 < b) (hn : n < b ^ l) (hl : l ≤ (Nat.digits b a).length + 1) :
    Keeps b n k l a := by
  have hlt := acc_lt (k := k) (zero_lt_of_lt hb) hn (lt_base_pow_length_digits (m := a) hb) l
  rw [Keeps]
  rcases Nat.lt_or_ge (Nat.digits b a).length l with hs | hs
  · obtain ⟨i, rfl⟩ := exists_eq_succ_of_ne_zero (show l ≠ 0 by omega)
    have hi : (Nat.digits b a).length = i := by omega
    have he : extent b n k (i + 1) a i = i := (extent_early hi.ge).trans hi
    rw [succ_eq_add_one, extent, he]
    split_ifs with hc
    · rwa [succ_eq_add_one, max_eq_right (by omega)] at hlt
    · simp only [true_and, not_le] at hc
      exact hc
  · rwa [extent_early hs, ← max_eq_left hs]

theorem keeps_of_le_two (hb : 1 < b) (hn : n < b ^ l) (hl : l ≤ 2) : Keeps b n k l a := by
  rcases Nat.eq_zero_or_pos a with h0 | h0
  · rw [Keeps, h0, acc_zero]
    exact Nat.pow_pos (zero_lt_of_lt hb)
  · have hpos : 0 < (Nat.digits b a).length :=
      List.length_pos_iff.mpr (digits_ne_nil_iff_ne_zero.mpr h0.ne')
    exact keeps_of_long hb hn (by omega)

theorem acc_lt_double (hb : 0 < b) (ha : a < n * b ^ l) : acc b n k a l < b ^ l * (2 * n) := by
  have h := acc_add_le (n := n) (k := k) (a := a) hb l
  have he : b ^ l * (2 * n) = n * b ^ l + b ^ l * n := by ring
  omega

theorem redc_lt (hb : 0 < b) (ha : a < n * b ^ l) : redc b n k l a < n := by
  have hdiv : acc b n k a l / b ^ l < 2 * n := Nat.div_lt_of_lt_mul (acc_lt_double hb ha)
  rw [redc]
  split_ifs with hc
  · exact hc
  · omega

theorem redc_modEq (hb : 0 < b) (hk : (k * n + 1) % b = 0) :
    redc b n k l a * b ^ l ≡ a [MOD n] := by
  have hexact : acc b n k a l / b ^ l * b ^ l = acc b n k a l :=
    Nat.div_mul_cancel (pow_dvd_acc hb hk l)
  have hacc : acc b n k a l / b ^ l * b ^ l ≡ a [MOD n] := by
    rw [hexact]
    exact acc_modEq l
  rw [redc]
  split_ifs with hc
  · exact hacc
  · refine Nat.ModEq.trans (Nat.ModEq.mul_right _ ?_) hacc
    have hsum := Nat.sub_add_cancel (Nat.le_of_not_lt hc)
    calc acc b n k a l / b ^ l - n ≡ acc b n k a l / b ^ l - n + n [MOD n] :=
          (add_modEq_right).symm
      _ = acc b n k a l / b ^ l := hsum

theorem coprime_of_inverse (hk : (k * n + 1) % b = 0) : Nat.Coprime b n := by
  apply dvd_one.mp
  have h1 : Nat.gcd b n ∣ k * n + 1 := (Nat.gcd_dvd_left b n).trans (dvd_of_mod_eq_zero hk)
  exact (Nat.dvd_add_right (Dvd.dvd.mul_left (Nat.gcd_dvd_right b n) k)).mp h1

theorem redc_eq {x : ℕ} (hb : 0 < b) (hk : (k * n + 1) % b = 0) (ha : a < n * b ^ l) (hx : x < n)
    (h : x * b ^ l ≡ a [MOD n]) : redc b n k l a = x := by
  have hcancel : redc b n k l a ≡ x [MOD n] := by
    refine Nat.ModEq.cancel_right_of_coprime ?_ ((redc_modEq hb hk).trans h.symm)
    exact (Nat.Coprime.pow_left l (coprime_of_inverse hk)).symm
  rwa [Nat.ModEq, mod_eq_of_lt (redc_lt hb ha), mod_eq_of_lt hx] at hcancel

end Reduction

def toMont (b n l x : ℕ) : ℕ := x * b ^ l % n

/-- Square and multiply on Montgomery forms, for the bits of `e` below bit `i`. -/
def ladder (b n k l a e : ℕ) : ℕ → ℕ → ℕ
  | 0, c => c
  | i + 1, c =>
    let c := redc b n k l (c * c)
    ladder b n k l a e i (if e.testBit i then redc b n k l (c * a) else c)

/-- Every reduction of the ladder keeps its digits, and so does the one of its result. -/
def LadderKeeps (b n k l a e : ℕ) : ℕ → ℕ → Prop
  | 0, c => Keeps b n k l c
  | i + 1, c =>
    let s := redc b n k l (c * c)
    Keeps b n k l (c * c) ∧ (e.testBit i → Keeps b n k l (s * a)) ∧
      LadderKeeps b n k l a e i (if e.testBit i then redc b n k l (s * a) else s)

instance decidableLadderKeeps (b n k l a e : ℕ) :
    ∀ i c, Decidable (LadderKeeps b n k l a e i c)
  | 0, c => inferInstanceAs (Decidable (Keeps b n k l c))
  | i + 1, c =>
    let s := redc b n k l (c * c)
    let _ := decidableLadderKeeps b n k l a e i (if e.testBit i then redc b n k l (s * a) else s)
    inferInstanceAs (Decidable (_ ∧ _ ∧ _))

section Ladder

variable {b n k l e : ℕ}

theorem ladder_lt {a : ℕ} (hb : 0 < b) (hlt : n < b ^ l) (ha : a < n) {i c : ℕ} (hc : c < n) :
    ladder b n k l a e i c < n := by
  induction i generalizing c with
  | zero => exact hc
  | succ i ih =>
    have hprod : ∀ {x y : ℕ}, x < n → y < n → redc b n k l (x * y) < n := fun hx hy =>
      redc_lt hb (Nat.mul_lt_mul'' hx (hy.trans hlt))
    rw [ladder]
    split_ifs
    · exact ih (hprod (hprod hc hc) ha)
    · exact ih (hprod hc hc)

theorem ladderKeeps_of_forall {a : ℕ} (h : ∀ x, Keeps b n k l x) (i c : ℕ) :
    LadderKeeps b n k l a e i c := by
  induction i generalizing c with
  | zero => exact h c
  | succ i ih => exact ⟨h _, fun _ => h _, ih _⟩

theorem LadderKeeps.keeps {a : ℕ} {i c : ℕ} (h : LadderKeeps b n k l a e i c) :
    Keeps b n k l (ladder b n k l a e i c) := by
  induction i generalizing c with
  | zero => exact h
  | succ i ih => exact ih h.2.2

theorem redc_square {x : ℕ} (hb : 0 < b) (hlt : n < b ^ l) (hk : (k * n + 1) % b = 0) (hx : x < n) :
    redc b n k l (x * (b ^ (2 * l) % n)) = toMont b n l x := by
  have hn : 0 < n := zero_lt_of_lt hx
  refine redc_eq hb hk (Nat.mul_lt_mul'' hx ((mod_lt _ hn).trans hlt)) (mod_lt _ hn) ?_
  have h1 : toMont b n l x * b ^ l ≡ x * b ^ l * b ^ l [MOD n] := (mod_modEq _ n).mul_right _
  have h2 : x * (b ^ (2 * l) % n) ≡ x * b ^ (2 * l) [MOD n] := (mod_modEq _ n).mul_left _
  have he : x * b ^ l * b ^ l = x * b ^ (2 * l) := by ring
  exact h1.trans (he ▸ h2.symm)

theorem redc_toMont_mul {x y : ℕ} (hb : 0 < b) (hn : 0 < n) (hlt : n < b ^ l)
    (hk : (k * n + 1) % b = 0) :
    redc b n k l (toMont b n l x * toMont b n l y) = toMont b n l (x * y) := by
  have hx : toMont b n l x < n := mod_lt _ hn
  have hy : toMont b n l y < n := mod_lt _ hn
  refine redc_eq hb hk (Nat.mul_lt_mul'' hx (hy.trans hlt)) (mod_lt _ hn) ?_
  have h1 : toMont b n l x * toMont b n l y ≡ x * b ^ l * (y * b ^ l) [MOD n] :=
    (mod_modEq _ n).mul (mod_modEq _ n)
  have h2 : toMont b n l (x * y) * b ^ l ≡ x * y * b ^ l * b ^ l [MOD n] :=
    (mod_modEq _ n).mul_right _
  have he : x * b ^ l * (y * b ^ l) = x * y * b ^ l * b ^ l := by ring
  exact h2.trans (he ▸ h1.symm)

theorem redc_toMont {x : ℕ} (hb : 0 < b) (hn : 0 < n) (hk : (k * n + 1) % b = 0) :
    redc b n k l (toMont b n l x) = x % n := by
  have hx : toMont b n l x < n := mod_lt _ hn
  refine redc_eq hb hk ?_ (mod_lt _ hn) ?_
  · exact hx.trans_le (Nat.le_mul_of_pos_right n (Nat.pow_pos hb))
  · exact ((mod_modEq x n).mul_right _).trans (mod_modEq _ n).symm

theorem ladder_toMont {g : ℕ} (hb : 0 < b) (hn : 0 < n) (hlt : n < b ^ l)
    (hk : (k * n + 1) % b = 0) (i h : ℕ) :
    ladder b n k l (toMont b n l g) e i (toMont b n l h) =
      toMont b n l (h ^ 2 ^ i * g ^ (e % 2 ^ i)) := by
  induction i generalizing h with
  | zero => simp [ladder, mod_one]
  | succ i ih =>
    rw [ladder, redc_toMont_mul hb hn hlt hk]
    -- the bit taken in this round is the top one of what the remaining rounds see
    have hbit : e % 2 ^ (i + 1) = e % 2 ^ i + 2 ^ i * (e / 2 ^ i % 2) := by
      rw [pow_succ, mod_mul]
    have htest : e.testBit i = decide (e / 2 ^ i % 2 = 1) := testBit_eq_decide_div_mod_eq
    by_cases h1 : e / 2 ^ i % 2 = 1
    · rw [htest, if_pos (decide_eq_true h1), redc_toMont_mul hb hn hlt hk, ih, hbit, h1]
      congr 1
      ring
    · have h0 : e / 2 ^ i % 2 = 0 := by omega
      rw [htest, if_neg (by simpa using h1), ih, hbit, h0]
      congr 1
      ring

theorem redc_ladder {g i : ℕ} (hb : 0 < b) (hn : 0 < n) (hlt : n < b ^ l)
    (hk : (k * n + 1) % b = 0) (he : e < 2 ^ i) :
    redc b n k l (ladder b n k l (toMont b n l g) e i (toMont b n l 1)) = g ^ e % n := by
  rw [ladder_toMont hb hn hlt hk, redc_toMont hb hn hk, one_pow, one_mul, mod_eq_of_lt he]

end Ladder

end VDLinux.Base.Montgomery
