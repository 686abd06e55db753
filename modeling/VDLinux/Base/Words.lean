import Mathlib

namespace VDLinux.Base.Words

open List Nat

def radix : ℕ := 4294967296

/-- The number a little-endian array of 32-bit digits stands for. -/
def val (ds : List UInt32) : ℕ := Nat.ofDigits radix (ds.map UInt32.toNat)

theorem one_lt_radix : 1 < radix := by decide

theorem radix_pos : 0 < radix := by decide

theorem radix_pow_pos (k : ℕ) : 0 < radix ^ k := Nat.pow_pos radix_pos

theorem radix_pow_mono {k m : ℕ} (h : k ≤ m) : radix ^ k ≤ radix ^ m :=
  Nat.pow_le_pow_right radix_pos h

theorem radix_pow_lt {k m : ℕ} : radix ^ k < radix ^ m ↔ k < m :=
  Nat.pow_lt_pow_iff_right one_lt_radix

theorem toNat_lt_radix (d : UInt32) : d.toNat < radix := d.toNat_lt

theorem toNat_pos {d : UInt32} (h : d ≠ 0) : 0 < d.toNat := Nat.pos_of_ne_zero fun hz => h (UInt32.toNat_inj.mp hz)

@[simp] theorem val_nil : val [] = 0 := rfl

@[simp] theorem val_cons (d : UInt32) (ds : List UInt32) :
    val (d :: ds) = d.toNat + radix * val ds := by
  simp [val, ofDigits_cons]

theorem val_append (as bs : List UInt32) :
    val (as ++ bs) = val as + radix ^ as.length * val bs := by
  simp [val, ofDigits_append]

theorem val_singleton (d : UInt32) : val [d] = d.toNat := by simp

theorem val_lt (ds : List UInt32) : val ds < radix ^ ds.length := by
  have h := ofDigits_lt_base_pow_length (b := radix) (l := ds.map UInt32.toNat) one_lt_radix
  rw [length_map] at h
  apply h
  intro x hx
  obtain ⟨d, _, rfl⟩ := mem_map.mp hx
  exact toNat_lt_radix d

@[simp] theorem val_replicate_zero (k : ℕ) : val (List.replicate k 0) = 0 := by
  induction k with
  | zero => rfl
  | succ k ih => simp [replicate_succ, ih]

variable (ds : List UInt32)

variable (k : ℕ)

theorem val_take_add_drop : val ds = val (ds.take k) + radix ^ k * val (ds.drop k) := by
  by_cases hk : k ≤ ds.length
  · have h := val_append (ds.take k) (ds.drop k)
    rwa [take_append_drop, length_take, Nat.min_eq_left hk] at h
  · simp [take_of_length_le (Nat.le_of_not_le hk), drop_of_length_le (Nat.le_of_not_le hk)]

theorem val_take_lt : val (ds.take k) < radix ^ k :=
  (val_lt _).trans_le (radix_pow_mono (length_take_le k ds))

theorem val_take : val (ds.take k) = val ds % radix ^ k := by
  rw [val_take_add_drop ds k, add_mul_mod_self_left, mod_eq_of_lt (val_take_lt ds k)]

theorem val_drop : val (ds.drop k) = val ds / radix ^ k := by
  conv_rhs => rw [val_take_add_drop ds k]
  rw [add_mul_div_left _ _ (radix_pow_pos k), div_eq_of_lt (val_take_lt ds k), Nat.zero_add]

variable {ds : List UInt32}

theorem val_take_of_lt {k : ℕ} (h : val ds < radix ^ k) : val (ds.take k) = val ds := by
  rw [val_take, mod_eq_of_lt h]

theorem val_drop_of_lt {k : ℕ} (h : val ds < radix ^ k) : val (ds.drop k) = 0 := by
  rw [val_drop, div_eq_of_lt h]

theorem val_eq_zero : val ds = 0 ↔ ∀ d ∈ ds, d = 0 := by
  induction ds with
  | nil => simp
  | cons d ds ih =>
    have hz : d.toNat = 0 ↔ d = 0 := by
      rw [← UInt32.toNat_inj]
      rfl
    simp [ih, hz, radix]

theorem getD_take {i k : ℕ} (h : i < k) : (ds.take k).getD i 0 = ds.getD i 0 := by
  rw [getD_eq_getElem?_getD, getD_eq_getElem?_getD, List.getElem?_take_of_lt h]

theorem val_getD (ds : List UInt32) (i : ℕ) : (ds.getD i 0).toNat = val ds / radix ^ i % radix := by
  rw [← val_drop]
  cases h : ds.drop i with
  | nil =>
    have hi : ds.length ≤ i := drop_eq_nil_iff.mp h
    simp [List.getD, List.getElem?_eq_none hi]
  | cons d rest =>
    have hd : ds[i]? = some d := by
      rw [← List.head?_drop, h]
      rfl
    simp [List.getD, hd, add_mul_mod_self_left, mod_eq_of_lt (toNat_lt_radix d)]

theorem val_set {i : ℕ} (d : UInt32) (h : i < ds.length) :
    val (ds.set i d) + radix ^ i * (ds.getD i 0).toNat = val ds + radix ^ i * d.toNat := by
  induction ds generalizing i with
  | nil => simp at h
  | cons e ds ih =>
    cases i with
    | zero => simp; ring
    | succ i =>
      have hi : i < ds.length := by simpa using h
      have hs := ih hi
      simp only [set_cons_succ, val_cons, getD_cons_succ, pow_succ]
      linear_combination radix * hs

theorem val_inj {as bs : List UInt32} (hl : as.length = bs.length) (h : val as = val bs) : as = bs := by
  induction as generalizing bs with
  | nil => simpa [eq_comm] using hl
  | cons a as ih =>
    cases bs with
    | nil => simp at hl
    | cons c bs =>
      have ha := toNat_lt_radix a
      have hc := toNat_lt_radix c
      have hhead : a.toNat = c.toNat := by
        have hm := congrArg (· % radix) h
        simpa [add_mul_mod_self_left, mod_eq_of_lt ha, mod_eq_of_lt hc] using hm
      have htail : val as = val bs := by
        have hd := congrArg (· / radix) h
        simpa [add_mul_div_left _ _ radix_pos, div_eq_of_lt ha, div_eq_of_lt hc] using hd
      rw [UInt32.toNat_inj.mp hhead, ih (by simpa using hl) htail]

theorem val_rdropWhile (ds : List UInt32) : val (ds.rdropWhile (· = 0)) = val ds := by
  induction ds using List.reverseRecOn with
  | nil => simp
  | append_singleton ds d ih =>
    by_cases hd : d = 0
    · rw [rdropWhile_concat_pos _ _ _ (by simpa using hd), ih, val_append, hd]
      simp
    · rw [rdropWhile_concat_neg _ _ _ (by simpa using hd)]

theorem length_rdropWhile_le {m : ℕ} (h : val ds < radix ^ m) :
    (ds.rdropWhile (· = 0)).length ≤ m := by
  induction ds using List.reverseRecOn with
  | nil => simp
  | append_singleton ds d ih =>
    rw [val_append, val_singleton] at h
    by_cases hd : d = 0
    · rw [rdropWhile_concat_pos _ _ _ (by simpa using hd)]
      exact ih (by omega)
    · rw [rdropWhile_concat_neg _ _ _ (by simpa using hd), length_append]
      have hpos : 0 < d.toNat := toNat_pos hd
      have hlt : radix ^ ds.length < radix ^ m :=
        lt_of_le_of_lt (le_add_left (Nat.le_mul_of_pos_right _ hpos)) h
      exact radix_pow_lt.mp hlt

end VDLinux.Base.Words
