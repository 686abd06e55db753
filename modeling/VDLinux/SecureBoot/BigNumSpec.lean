import VDLinux.Base.Outcome
import VDLinux.SecureBoot.BigNum
import VDLinux.SecureBoot.Division

namespace VDLinux.SecureBoot

open Digit Base.Words Base.Outcome List

/-- The magnitude in a digit array, without superfluous leading digits. Only zero may be kept as one
digit. -/
structure Mag (x : BigNum) (size v : ℕ) : Prop where
  size_eq : x.size = size
  length_le : x.length ≤ size
  value : val (x.pData.take x.length) = v
  tight : ∀ m, 0 < m → v < radix ^ m → x.length ≤ m

structure Rep (x : BigNum) (size v : ℕ) : Prop extends Mag x size v where
  sign : x.sign = false

def BigNum.value (x : BigNum) : ℕ := val (x.pData.take x.length)

def BigNum.signed (x : BigNum) : ℤ := if x.sign then -x.value else x.value

/-- Every allocation succeeds and no copy has been refused. -/
def ample : World := ⟨fun _ => true, false⟩

theorem kmalloc_yields {α : Type} {d : α} {m : Run α} {P : α → Prop} (h : Yields m ample P) :
    Yields (kmalloc >>= fun b => if !b then pure d else m) ample P := h

section Basic

variable {x y dst src : BigNum} {size size' v v' : ℕ} {w : World}

theorem digits_eq (h : x.length ≤ x.size) : x.digits = .ok (x.pData.take x.length) := by
  rw [BigNum.digits, if_pos h]

theorem digits_length (h : x.length ≤ x.size) : (x.pData.take x.length).length = x.length := by
  rw [length_take]
  exact Nat.min_eq_left h

theorem value_lt (x : BigNum) : x.value < radix ^ x.length := val_take_lt x.pData x.length

variable (h : Mag x size v)
include h

theorem Mag.length_le_size : x.length ≤ x.size := h.size_eq.symm ▸ h.length_le

theorem Mag.digits_eq : x.digits = .ok (x.pData.take x.length) :=
  SecureBoot.digits_eq h.length_le_size

theorem Mag.digits_length : (x.pData.take x.length).length = x.length :=
  SecureBoot.digits_length h.length_le_size

theorem Mag.lt : v < radix ^ x.length := by
  rw [← h.value]
  exact val_take_lt x.pData x.length

omit h

theorem Mag.eq_zero (hx : Mag x size v) (h : x.length = 0) : v = 0 := by
  have hlt := hx.lt
  rw [h, pow_zero] at hlt
  omega

variable (h : Mag x size v)
include h

theorem Mag.length_pos (hv : 0 < v) : 0 < x.length :=
  Nat.pos_of_ne_zero fun h0 => hv.ne' (h.eq_zero h0)

theorem Mag.pow_le (hv : 0 < v) : radix ^ (x.length - 1) ≤ v := by
  by_contra hc
  rcases Nat.eq_zero_or_pos (x.length - 1) with h1 | h1
  · rw [h1, pow_zero] at hc
    omega
  · have := h.tight _ h1 (Nat.lt_of_not_le hc)
    omega

theorem Mag.top_ne_zero (hv : 0 < v) : (x.pData.take x.length).getD (x.length - 1) 0 ≠ 0 := by
  have hlt : v / radix ^ (x.length - 1) < radix := by
    apply Nat.div_lt_of_lt_mul
    rw [← pow_succ, Nat.sub_add_cancel (h.length_pos hv)]
    exact h.lt
  intro h0
  have hg := val_getD (x.pData.take x.length) (x.length - 1)
  rw [h0, h.value, Nat.mod_eq_of_lt hlt] at hg
  exact (Nat.div_pos (h.pow_le hv) (radix_pow_pos _)).ne hg

theorem Mag.length_mono (h' : Mag y size' v') (hle : v ≤ v') (hv : 0 < v') : x.length ≤ y.length :=
  h.tight _ (h'.length_pos hv) (hle.trans_lt h'.lt)

omit h

theorem store_eq {ds : List UInt32} (h : ds.length ≤ x.size) :
    x.store ds = .ok { x with pData := ds ++ x.pData.drop ds.length } := by
  rw [BigNum.store, if_pos h]

theorem stored_size {ds : List UInt32} (h : ds.length ≤ x.size) :
    (ds ++ x.pData.drop ds.length).length = x.size := by
  rw [BigNum.size] at *
  rw [length_append, length_drop]
  omega

/-- A number after its length has been cut: zero has no digit left. -/
structure Cut (x : BigNum) (size v : ℕ) : Prop extends Mag x size v where
  zero : v = 0 → x.length = 0

theorem optimizeLength_spec (hl : x.length ≤ x.size) (hv : val (x.pData.take x.length) = v) :
    ∃ y, optimizeLength x = .ok y ∧ Cut y x.size v ∧ y.sign = x.sign ∧ y.pData = x.pData := by
  set ds := (x.pData.take x.length).rdropWhile (· = 0)
  have hpre : ds <+: x.pData.take x.length := List.rdropWhile_prefix _ _
  have hbound : ∀ m, v < radix ^ m → ds.length ≤ m := fun m hm => length_rdropWhile_le (hv ▸ hm)
  have htake : x.pData.take ds.length = ds :=
    (prefix_iff_eq_take.mp (hpre.trans (List.take_prefix _ _))).symm
  have hlen : ds.length ≤ x.length := hpre.length_le.trans (length_take_le _ _)
  refine ⟨{ x with length := ds.length }, ?_, ⟨⟨rfl, hlen.trans hl, ?_, fun m _ hm => hbound m hm⟩, ?_⟩,
    rfl, rfl⟩
  · rw [optimizeLength, digits_eq hl, ok_bind]
    rfl
  · rw [htake, val_rdropWhile, hv]
  · intro h0
    exact Nat.le_zero.mp (hbound 0 (by rw [h0, pow_zero]; exact Nat.one_pos))

theorem Mag.cut (h : Mag x size v) :
    ∃ y, optimizeLength x = .ok y ∧ Cut y size v ∧ y.sign = x.sign ∧ y.pData = x.pData := by
  obtain ⟨y, hy, hcut, hs⟩ := optimizeLength_spec h.length_le_size h.value
  exact ⟨y, hy, h.size_eq ▸ hcut, hs⟩

theorem bnCopy_digits (dst src : BigNum) (hs : src.length ≤ src.size) (hl : src.length ≤ dst.size) :
    Yields (bnCopy dst src) w fun r =>
      r.size = dst.size ∧ r.length = src.length ∧ r.sign = src.sign ∧
        r.pData.take r.length = src.pData.take src.length ∧
        r.pData = src.pData.take src.length ++ dst.pData.drop (src.pData.take src.length).length := by
  have hdl := digits_length hs
  rw [bnCopy, if_neg (Nat.not_lt.mpr hl)]
  apply Yields.bind_lift (digits_eq hs)
  apply Yields.bind_lift (store_eq (hdl.symm ▸ hl))
  apply Yields.pure
  exact ⟨stored_size (hdl.symm ▸ hl), rfl, rfl, take_left' hdl, rfl⟩

theorem bnCopy_yields (hs : Mag src size v) (hl : src.length ≤ dst.size) :
    Yields (bnCopy dst src) w fun r =>
      Mag r dst.size v ∧ r.length = src.length ∧ r.sign = src.sign := by
  refine (bnCopy_digits _ _ hs.length_le_size hl).mono ?_
  rintro r ⟨h1, h2, h3, h4, -⟩
  exact ⟨⟨h1, h2.symm ▸ hl, h4 ▸ hs.value, h2.symm ▸ hs.tight⟩, h2, h3⟩

theorem bnCmp_value (hx : x.length ≤ x.size) (hy : y.length ≤ y.size) :
    bnCmp x y = .ok (compare x.value y.value) := by
  rw [bnCmp, digits_eq hx, digits_eq hy, ok_bind, ok_bind]
  split_ifs
  · rw [dwdCmp_eq]
    rfl
  · rw [dwdCmp_eq, Nat.compare_swap]
    rfl

theorem bnCmp_eq (hx : Mag x size v) (hy : Mag y size' v') : bnCmp x y = .ok (compare v v') := by
  rw [bnCmp_value hx.length_le_size hy.length_le_size, BigNum.value, BigNum.value, hx.value, hy.value]

theorem rep_bnZero : Rep bnZero 2 0 := ⟨⟨rfl, by decide, rfl, fun m hm _ => hm⟩, rfl⟩

theorem rep_bnOne : Rep bnOne 2 1 := ⟨⟨rfl, by decide, rfl, fun m hm _ => hm⟩, rfl⟩

@[simp] theorem size_bnAlloc (n : ℕ) : (bnAlloc n).size = n := by simp [bnAlloc, BigNum.size]

theorem push_spec {d : UInt32} (h : x.length < x.size) :
    ∃ y, x.push d = .ok y ∧ y.sign = x.sign ∧ y.size = x.size ∧ y.length = x.length + 1 ∧
      val (y.pData.take y.length) = val (x.pData.take x.length) + radix ^ x.length * d.toNat := by
  have hlen := digits_length h.le
  refine ⟨{ x with length := x.length + 1, pData := x.pData.set x.length d },
    by rw [BigNum.push, if_pos h], rfl, by simp [BigNum.size], rfl, ?_⟩
  rw [set_eq_take_append_cons_drop, if_pos (show _ < x.pData.length from h),
    ← singleton_append, ← append_assoc,
    take_left' (by simp [hlen]), val_append, hlen, val_singleton]

theorem val_stored (ds rest : List UInt32) {k : ℕ} (h : ds.length = k) :
    val ((ds ++ rest).take k) = val ds := by
  rw [take_left' h]

/-- A number with a carry, which needs one more digit; the bound on the value leaves it. -/
theorem push_carry (dst : BigNum) {rs : List UInt32} {c : UInt32} {k : ℕ} (hk : rs.length = k)
    (hl : k ≤ dst.size) (hv : val rs + radix ^ k * c.toNat = v) (hfit : v < radix ^ dst.size) :
    ∃ y, (if c = 0 then pure ⟨dst.sign, k, rs ++ dst.pData.drop rs.length⟩
        else BigNum.push ⟨dst.sign, k, rs ++ dst.pData.drop rs.length⟩ c) = .ok y ∧
      y.sign = dst.sign ∧ y.size = dst.size ∧ (y.length = k ∨ y.length = k + 1 ∧ radix ^ k ≤ y.value) ∧
      y.length ≤ dst.size ∧ y.value = v := by
  have hstored : val ((rs ++ dst.pData.drop rs.length).take k) = val rs := val_stored _ _ hk
  have hsize := stored_size (hk.trans_le hl)
  by_cases hc : c = 0
  · rw [hc, UInt32.toNat_zero, Nat.mul_zero, Nat.add_zero] at hv
    exact ⟨_, if_pos hc, rfl, hsize, .inl rfl, hl, hstored.trans hv⟩
  · have hcpos : 0 < c.toNat := toNat_pos hc
    have hlarge : radix ^ k ≤ v := hv ▸ le_add_left (Nat.le_mul_of_pos_right _ hcpos)
    have hroom : k < dst.size := radix_pow_lt.mp (hlarge.trans_lt hfit)
    obtain ⟨y, hp, hps, hpz, hpl, hpv⟩ := push_spec (d := c)
      (x := ⟨dst.sign, k, rs ++ dst.pData.drop rs.length⟩) (hroom.trans_eq hsize.symm)
    simp only [hstored, hv] at hpv hpl
    exact ⟨y, (if_neg hc).trans hp, hps, hpz.trans hsize, .inr ⟨hpl, hlarge.trans_eq hpv.symm⟩, by omega, hpv⟩

theorem stored_cut (dst : BigNum) (s : Bool) {ds : List UInt32} {k : ℕ} (hk : ds.length = k)
    (hl : k ≤ dst.size) (hv : val ds = v) :
    ∃ z, optimizeLength ⟨s, k, ds ++ dst.pData.drop ds.length⟩ = .ok z ∧ Cut z dst.size v ∧
      z.sign = s ∧ z.pData = ds ++ dst.pData.drop ds.length := by
  have hsize := stored_size (hk.trans_le hl)
  obtain ⟨z, hz, hcut, hs, hp⟩ := optimizeLength_spec
    (x := ⟨s, k, ds ++ dst.pData.drop ds.length⟩) (hl.trans_eq hsize.symm) ((val_stored _ _ hk).trans hv)
  rw [BigNum.size, hsize] at hcut
  exact ⟨z, hz, hcut, hs, hp⟩

theorem val_store_alloc {d : ℕ} {ds : List UInt32} {k : ℕ} (hk : val ds < radix ^ k) :
    val ((ds ++ (bnAlloc d).pData.drop ds.length).take k) = val ds := by
  have hval : val (ds ++ (bnAlloc d).pData.drop ds.length) = val ds := by
    rw [val_append, bnAlloc, drop_replicate, val_replicate_zero, Nat.mul_zero, Nat.add_zero]
  rw [val_take_of_lt (by rw [hval]; exact hk), hval]

/-- A copy into fresh memory: the digits behind those copied are zero. -/
structure Fresh (src r : BigNum) (d : ℕ) : Prop where
  size_eq : r.size = d
  length_eq : r.length = src.length
  sign_eq : r.sign = src.sign
  digits_eq : r.pData.take r.length = src.pData.take src.length
  value_take : ∀ n, src.length ≤ n → val (r.pData.take n) = src.value

section Fresh

variable {r : BigNum} {d : ℕ} (hr : Fresh src r d)
include hr

theorem Fresh.value_eq : r.value = src.value := congrArg val hr.digits_eq

theorem Fresh.signed_eq : r.signed = src.signed := by
  rw [BigNum.signed, BigNum.signed, hr.sign_eq, hr.value_eq]

theorem Fresh.length_le_size (hd : src.length ≤ d) : r.length ≤ r.size := by
  rw [hr.length_eq, hr.size_eq]
  exact hd

theorem Fresh.mag (hs : Mag src size v) (hd : src.length ≤ d) : Mag r d v :=
  ⟨hr.size_eq, hr.length_eq ▸ hd, hr.digits_eq ▸ hs.value, hr.length_eq ▸ hs.tight⟩

end Fresh

theorem bnCopy_fresh {d : ℕ} (src : BigNum) (hs : src.length ≤ src.size) (hd : src.length ≤ d) :
    Yields (bnCopy (bnAlloc d) src) w fun r => Fresh src r d := by
  refine (bnCopy_digits _ src hs (hd.trans_eq (size_bnAlloc d).symm)).mono ?_
  rintro r ⟨h1, h2, h3, h4, hp⟩
  refine ⟨h1.trans (size_bnAlloc d), h2, h3, h4, fun n hn => ?_⟩
  rw [hp]
  exact val_store_alloc ((value_lt src).trans_le (radix_pow_mono hn))

theorem bnCopy_both {α : Type} {d : ℕ} {f : BigNum → BigNum → Run α} {P : α → Prop}
    (hx : x.length ≤ x.size) (hxd : x.length ≤ d) (hy : y.length ≤ y.size) (hyd : y.length ≤ d)
    (hf : ∀ t1 t2, Fresh x t1 d → Fresh y t2 d → Yields (f t1 t2) w P) :
    Yields (do f (← bnCopy (bnAlloc d) x) (← bnCopy (bnAlloc d) y)) w P := by
  apply Yields.bind (bnCopy_fresh x hx hxd)
  intro t1 h1
  apply Yields.bind (bnCopy_fresh y hy hyd)
  intro t2 h2
  exact hf t1 t2 h1 h2

variable (dst)

theorem subInto_spec {t1 t2 : BigNum} {d : ℕ} (s : Bool) (hx : Fresh x t1 d) (hy : Fresh y t2 d)
    (hxd : max x.length y.length ≤ d) (hd : max x.length y.length ≤ dst.size) (hle : y.value ≤ x.value) :
    ∃ r, subInto dst t1 t2 s = .ok r ∧ r.sign = s ∧ r.size = dst.size ∧ r.length ≤ dst.size ∧
      r.value = x.value - y.value := by
  have hxs : max x.length y.length ≤ t1.size := hx.size_eq.symm ▸ hxd
  have hyl := hy.length_le_size ((le_max_right _ _).trans hxd)
  have hxl : (t1.pData.take (max x.length y.length)).length = max x.length y.length := by
    rw [length_take]
    exact Nat.min_eq_left hxs
  have hxv := hx.value_take _ (le_max_left x.length y.length)
  have hyv : val (t2.pData.take t2.length) = y.value := hy.value_eq
  obtain ⟨rs, c, he, hrl, hrv⟩ := dwdSub_spec (t1.pData.take (max x.length y.length))
    (t2.pData.take t2.length) (by rw [hxl, digits_length hyl, hy.length_eq]; exact le_max_right _ _)
    (by rw [hxv, hyv]; exact hle)
  rw [hxl] at hrl
  rw [hxv, hyv] at hrv
  have hst : rs.length ≤ dst.size := hrl.symm ▸ hd
  have hto : t1.digitsTo t2.length = .ok (t1.pData.take (max x.length y.length)) := by
    rw [BigNum.digitsTo, hx.length_eq, hy.length_eq, if_pos hxs]
  simp only [subInto, hto, digits_eq hyl, ok_bind, he, store_eq hst]
  refine ⟨_, rfl, rfl, stored_size hst, hx.length_eq.trans_le ((le_max_left _ _).trans hd), ?_⟩
  have hlt : val rs < radix ^ x.length := lt_of_le_of_lt (by omega) (value_lt x)
  rw [BigNum.value]
  simp only [hx.length_eq]
  rw [take_append_of_le_length (by rw [hrl]; exact le_max_left _ _), val_take_of_lt hlt]
  exact Nat.eq_sub_of_add_eq hrv

theorem subMagnitudes_spec {t1 t2 : BigNum} {d : ℕ} (hx : Fresh x t1 d) (hy : Fresh y t2 d)
    (hxd : max x.length y.length ≤ d) (hd : max x.length y.length ≤ dst.size) :
    ∃ r, subMagnitudes dst t1 t2 = .ok r ∧ r.size = dst.size ∧ r.length ≤ dst.size ∧
      (r.sign = true ↔ x.value < y.value) ∧ r.value = ((x.value : ℤ) - y.value).natAbs := by
  have h1 := hx.length_le_size ((le_max_left _ _).trans hxd)
  have h2 := hy.length_le_size ((le_max_right _ _).trans hxd)
  simp only [subMagnitudes, bnCmp_value h1 h2, ok_bind, Nat.compare_eq_lt, hx.value_eq, hy.value_eq]
  by_cases hlt : x.value < y.value
  · rw [max_comm] at hxd hd
    obtain ⟨r, he, hs, hz, hl, hv⟩ := subInto_spec dst true hy hx hxd hd hlt.le
    rw [if_pos hlt]
    exact ⟨r, he, hz, hl, by simp [hs, hlt], by omega⟩
  · obtain ⟨r, he, hs, hz, hl, hv⟩ := subInto_spec dst false hx hy hxd hd (Nat.le_of_not_lt hlt)
    rw [if_neg hlt]
    exact ⟨r, he, hz, hl, by simp [hs, hlt], by omega⟩

theorem bnSub_same (hx : x.length ≤ x.size) (hy : y.length ≤ y.size)
    (hd : max x.length y.length ≤ dst.size) (hs : x.sign = y.sign) :
    Yields (bnSub dst x y) ample fun r =>
      Cut r dst.size (x.signed - y.signed).natAbs ∧ (r.sign = true ↔ x.signed < y.signed) := by
  apply kmalloc_yields
  apply bnCopy_both hx (hx.trans (le_max_left _ _)) hy (hy.trans (le_max_right _ _))
  intro t1 t2 h1 h2
  have hmax : max x.length y.length ≤ max x.size y.size := max_le_max hx hy
  rw [if_neg (by rw [h1.sign_eq, h2.sign_eq, hs]; exact not_not.mpr rfl), h1.sign_eq]
  have hsub : ∃ r, subMagnitudes dst (if x.sign then t2 else t1) (if x.sign then t1 else t2) = .ok r ∧
      r.size = dst.size ∧ r.length ≤ dst.size ∧ (r.sign = true ↔ x.signed < y.signed) ∧
      r.value = (x.signed - y.signed).natAbs := by
    rw [BigNum.signed, BigNum.signed, ← hs]
    cases x.sign with
    | false =>
      obtain ⟨r, he, hz, hl, hsign, hv⟩ := subMagnitudes_spec dst h1 h2 hmax hd
      exact ⟨r, he, hz, hl, hsign.trans (by simp), hv⟩
    | true =>
      obtain ⟨r, he, hz, hl, hsign, hv⟩ := subMagnitudes_spec dst h2 h1 (max_comm x.length _ ▸ hmax)
        (max_comm x.length _ ▸ hd)
      refine ⟨r, he, hz, hl, hsign.trans (by simp), hv.trans ?_⟩
      simp only [if_true]
      omega
  obtain ⟨r, he, hz, hl, hsign, hv⟩ := hsub
  obtain ⟨z, hopt, hcut, hzs, -⟩ := optimizeLength_spec (x := r) (hz.symm ▸ hl) hv
  apply Yields.bind_lift he
  apply Yields.lift hopt
  rw [hz] at hcut
  exact ⟨hcut, hzs ▸ hsign⟩

variable (hx : Rep x size v)
include hx

theorem Rep.signed_eq : x.signed = v := by
  rw [BigNum.signed, hx.sign, BigNum.value, hx.value]
  rfl

theorem bnSub_yields (hy : Rep y size' v') (hle : v' ≤ v)
    (hl : y.length ≤ x.length) (hd : x.length ≤ dst.size) :
    Yields (bnSub dst x y) ample fun r => Rep r dst.size (v - v') ∧ (v = v' → r.length = 0) := by
  refine (bnSub_same dst hx.length_le_size hy.length_le_size (by rw [max_eq_left hl]; exact hd)
    (hx.sign.trans hy.sign.symm)).mono ?_
  rintro r ⟨hcut, hsign⟩
  rw [hx.signed_eq, hy.signed_eq] at hcut hsign
  have hv : ((v : ℤ) - v').natAbs = v - v' := by omega
  rw [hv] at hcut
  refine ⟨⟨hcut.toMag, Bool.eq_false_iff.mpr fun hs => ?_⟩, fun heq => hcut.zero (by omega)⟩
  have := hsign.mp hs
  omega

theorem bnSub_neg_yields (hy : Rep y size' v') (hlt : v < v')
    (hl : x.length ≤ y.length) (hd : y.length ≤ dst.size) :
    Yields (bnSub dst x y) ample fun r => Mag r dst.size (v' - v) := by
  refine (bnSub_same dst hx.length_le_size hy.length_le_size (by rw [max_eq_right hl]; exact hd)
    (hx.sign.trans hy.sign.symm)).mono ?_
  rintro r ⟨hcut, -⟩
  rw [hx.signed_eq, hy.signed_eq] at hcut
  have hv : ((v : ℤ) - v').natAbs = v' - v := by omega
  exact hv ▸ hcut.toMag

omit hx in
theorem addMagnitudes_spec (hx : x.length ≤ x.size) (hy : y.length ≤ y.size)
    (hxd : x.length ≤ dst.size) (hyd : y.length ≤ dst.size) (hsum : x.value + y.value < radix ^ dst.size) :
    ∃ r, addMagnitudes dst x y = .ok r ∧ Mag r dst.size (x.value + y.value) ∧ r.sign = dst.sign := by
  have hadd : ∃ rs c, longerFirst dwdAdd (x.pData.take x.length) (y.pData.take y.length) = .ok (rs, c) ∧
      rs.length ≤ dst.size ∧ val rs + radix ^ rs.length * c.toNat = x.value + y.value := by
    rw [longerFirst]
    split_ifs with hlt
    · obtain ⟨rs, c, he, hl, hv⟩ := dwdAdd_spec _ _ hlt.le
      rw [← hl] at hv
      exact ⟨rs, c, he, by rw [hl, digits_length hx]; exact hxd, hv⟩
    · obtain ⟨rs, c, he, hl, hv⟩ := dwdAdd_spec _ _ (Nat.le_of_not_lt hlt)
      rw [← hl] at hv
      exact ⟨rs, c, he, by rw [hl, digits_length hy]; exact hyd, hv.trans (Nat.add_comm _ _)⟩
  obtain ⟨rs, c, he, hrl, hrv⟩ := hadd
  obtain ⟨y', hy', hys, hyz, -, hyl, hyv⟩ := push_carry dst rfl hrl hrv hsum
  obtain ⟨z, hz, hcut, hzs, -⟩ := optimizeLength_spec (x := y') (hyl.trans_eq hyz.symm) hyv
  refine ⟨z, ?_, hyz ▸ hcut.toMag, hzs.trans hys⟩
  simp only [addMagnitudes, digits_eq hx, digits_eq hy, ok_bind, he, store_eq hrl, ← hz]
  split_ifs at hy' ⊢
  · cases hy'
    rfl
  · rw [hy', ok_bind]

omit hx in
theorem bnAdd_same (hx : x.length ≤ x.size) (hy : y.length ≤ y.size) (h0 : x.length ≠ 0)
    (h1 : y.length ≠ 0) (hs : x.sign = y.sign) (hxd : x.length ≤ dst.size) (hyd : y.length ≤ dst.size)
    (hsum : x.value + y.value < radix ^ dst.size) :
    Yields (bnAdd dst x y) ample fun r =>
      Mag r dst.size (x.value + y.value) ∧ r.sign = x.sign := by
  have hxm : x.length ≤ max x.size y.size := hx.trans (le_max_left _ _)
  have hym : y.length ≤ max x.size y.size := hy.trans (le_max_right _ _)
  apply kmalloc_yields
  rw [if_neg h0, if_neg h1]
  apply bnCopy_both hx hxm hy hym
  intro t1 t2 ht1 ht2
  rw [if_neg (by rw [ht1.sign_eq, ht2.sign_eq, hs]; exact not_not.mpr rfl)]
  obtain ⟨r, he, hr, hrs⟩ := addMagnitudes_spec { dst with sign := t1.sign } (ht1.length_le_size hxm)
    (ht2.length_le_size hym) (ht1.length_eq ▸ hxd) (ht2.length_eq ▸ hyd)
    (by rw [ht1.value_eq, ht2.value_eq]; exact hsum)
  rw [ht1.value_eq, ht2.value_eq] at hr
  exact Yields.lift he ⟨hr, hrs.trans ht1.sign_eq⟩

theorem bnAdd_yields (hy : Rep y size' v') (hxd : x.length ≤ dst.size)
    (hyd : y.length ≤ dst.size) (hsum : v + v' < radix ^ dst.size) :
    Yields (bnAdd dst x y) ample fun r => Rep r dst.size (v + v') := by
  by_cases h0 : x.length = 0
  · apply kmalloc_yields
    rw [if_pos h0, hx.eq_zero h0, Nat.zero_add]
    exact (bnCopy_yields hy.toMag hyd).mono fun r ⟨h1, _, h3⟩ => ⟨h1, h3.trans hy.sign⟩
  by_cases h1 : y.length = 0
  · apply kmalloc_yields
    rw [if_neg h0, if_pos h1, hy.eq_zero h1, Nat.add_zero]
    exact (bnCopy_yields hx.toMag hxd).mono fun r ⟨h1, _, h3⟩ => ⟨h1, h3.trans hx.sign⟩
  have hvx : x.value = v := hx.value
  have hvy : y.value = v' := hy.value
  have hadd := bnAdd_same dst hx.length_le_size hy.length_le_size h0 h1 (hx.sign.trans hy.sign.symm) hxd
    hyd (by rw [hvx, hvy]; exact hsum)
  rw [hvx, hvy] at hadd
  exact hadd.mono fun r ⟨hr, hs⟩ => ⟨hr, hs.trans hx.sign⟩

theorem mulMagnitudes_spec (hy : Rep y size' v') (hd : x.length + y.length ≤ dst.size) :
    ∃ r, mulMagnitudes dst x y = .ok r ∧ Rep r dst.size (v * v') ∧ (v * v' = 0 → r.length = 0) := by
  have hmul : ∃ rs, longerFirst (dwdMul dst.pData) (x.pData.take x.length) (y.pData.take y.length) =
      .ok rs ∧ rs.length = dst.size ∧ val (rs.take (x.length + y.length)) = v * v' := by
    rw [longerFirst]
    split_ifs
    · obtain ⟨rs, he, hl, hv⟩ := dwdMul_spec dst.pData (x.pData.take x.length) (y.pData.take y.length)
        (by rw [hx.digits_length, hy.digits_length]; exact hd)
      rw [hx.digits_length, hy.digits_length, hx.value, hy.value] at hv
      exact ⟨rs, he, hl, hv⟩
    · obtain ⟨rs, he, hl, hv⟩ := dwdMul_spec dst.pData (y.pData.take y.length) (x.pData.take x.length)
        (by rw [hx.digits_length, hy.digits_length, Nat.add_comm]; exact hd)
      rw [hx.digits_length, hy.digits_length, hx.value, hy.value, Nat.add_comm, Nat.mul_comm] at hv
      exact ⟨rs, he, hl, hv⟩
  obtain ⟨rs, he, hl, hv⟩ := hmul
  obtain ⟨z, hz, hcut, hzs, -⟩ := optimizeLength_spec
    (x := ⟨x.sign != y.sign, x.length + y.length, rs⟩) (le_of_le_of_eq hd hl.symm) hv
  refine ⟨z, ?_, ⟨hl ▸ hcut.toMag, ?_⟩, hcut.zero⟩
  · rw [mulMagnitudes, hx.digits_eq, hy.digits_eq, ok_bind, ok_bind, he, ok_bind, hz]
  · rw [hzs, hx.sign, hy.sign]
    rfl

variable {dst}

omit hx in
theorem Mag.mul_eq_zero (hx : Mag x size v) (hy : Mag y size' v') (h : x.length = 0 ∨ y.length = 0) :
    v * v' = 0 :=
  Nat.mul_eq_zero.mpr (h.imp hx.eq_zero hy.eq_zero)

omit hx in
theorem rep_empty (dst : BigNum) (hs : dst.sign = false) : Rep { dst with length := 0 } dst.size 0 :=
  ⟨⟨rfl, Nat.zero_le _, rfl, fun m _ _ => Nat.zero_le m⟩, hs⟩

theorem bnMul_yields (hy : Rep y size' v') (hd : x.length + y.length ≤ dst.size) :
    Yields (bnMul false dst x y) ample fun r =>
      Rep r dst.size (v * v') ∧ (v * v' = 0 → r.length = 0) := by
  simp only [bnMul, Bool.false_eq_true, if_false]
  split_ifs with h0
  · apply Yields.pure
    rw [hx.mul_eq_zero hy.toMag h0, hx.sign, hy.sign]
    exact ⟨rep_empty { dst with sign := false } rfl, fun _ => rfl⟩
  · obtain ⟨r, he, hr⟩ := mulMagnitudes_spec _ hx hy hd
    exact Yields.lift he hr

/-- In place the product may be as long as the number itself, since it is formed in a larger one. -/
theorem bnMul_inPlace_yields (hy : Rep y size' v') (hs : dst.sign = false)
    (hd : x.length + y.length ≤ dst.size * 2) (hpos : 0 < dst.size)
    (hfit : v * v' < radix ^ dst.size) :
    Yields (bnMul true dst x y) ample fun r =>
      Rep r dst.size (v * v') ∧ (v * v' = 0 → r.length = 0) := by
  have hinit : Yields (bnInit (dst.size * 2)) ample (· = some (bnAlloc (dst.size * 2))) :=
    ⟨_, rfl, rfl⟩
  apply Yields.bind hinit
  rintro _ rfl
  split_ifs with h0
  · apply Yields.pure
    rw [hx.mul_eq_zero hy.toMag h0]
    exact ⟨rep_empty _ hs, fun _ => rfl⟩
  · obtain ⟨t, he, ht, hzero⟩ := mulMagnitudes_spec (bnAlloc (dst.size * 2)) hx hy
      (by rw [size_bnAlloc]; exact hd)
    apply Yields.bind_lift he
    refine (bnCopy_yields ht.toMag (ht.tight _ hpos hfit)).mono ?_
    rintro r ⟨h1, h2, h3⟩
    exact ⟨⟨h1, h3.trans ht.sign⟩, fun h => h2.trans (hzero h)⟩

omit hx

theorem Mag.digits_ne_nil (hy : Mag y size' v') (hpos : 0 < v') : y.pData.take y.length ≠ [] := by
  apply length_pos_iff.mp
  rw [hy.digits_length]
  exact hy.length_pos hpos

theorem Mag.length_le_of_le (hy : Mag y size' v') (hpos : 0 < v') (hle : v' ≤ x.value) :
    y.length ≤ x.length := by
  have hlt := (hy.pow_le hpos).trans_lt (hle.trans_lt (value_lt x))
  have := radix_pow_lt.mp hlt
  omega

variable (dst)

theorem bnModRed_spec (hx : x.length ≤ x.size) (hy : Mag y size' v') (hpos : 0 < v')
    (hxd : x.value < v' → x.length ≤ dst.size) (hyd : y.length ≤ dst.size) :
    Yields (bnModRed dst x y) ample fun r => r.size = dst.size ∧
      (x.value < v' → r.length = x.length ∧ r.sign = x.sign ∧ r.value = x.value) ∧
      (v' ≤ x.value → Cut r dst.size (x.value % v') ∧ r.sign = y.sign) := by
  apply kmalloc_yields
  have hyv : y.value = v' := hy.value
  apply Yields.bind_lift (bnCmp_value hx hy.length_le_size)
  simp only [Nat.compare_eq_lt, hyv]
  by_cases hlt : x.value < v'
  · rw [if_pos hlt]
    refine (bnCopy_digits dst x hx (hxd hlt)).mono ?_
    rintro r ⟨hz, hl, hs, hdig, -⟩
    exact ⟨hz, fun _ => ⟨hl, hs, congrArg val hdig⟩, fun hle => absurd hle (Nat.not_le.mpr hlt)⟩
  · have hle := Nat.le_of_not_lt hlt
    rw [if_neg hlt]
    obtain ⟨rem, he, hl, hv⟩ := classicalRedc_spec (x.pData.take x.length) (hy.digits_ne_nil hpos)
      (by rw [hy.digits_length]; exact hy.top_ne_zero hpos)
      (by rw [digits_length hx, hy.digits_length]; exact hy.length_le_of_le hpos hle)
    rw [hy.digits_length] at hl
    rw [hy.value] at hv
    apply Yields.bind_lift (digits_eq hx)
    apply Yields.bind_lift hy.digits_eq
    apply Yields.bind_lift he
    apply Yields.bind_lift (store_eq (hl.trans_le hyd))
    obtain ⟨z, hz, hcut, hzs, -⟩ := stored_cut dst y.sign hl hyd hv
    exact Yields.lift hz ⟨hcut.size_eq, fun h => absurd h hlt, fun _ => ⟨hcut, hzs⟩⟩

theorem bnModRed_yields (hx : Rep x size v) (hy : Rep y size' v') (hpos : 0 < v')
    (hxd : v < v' → x.length ≤ dst.size) (hyd : y.length ≤ dst.size) :
    Yields (bnModRed dst x y) ample fun r =>
      Rep r dst.size (v % v') ∧ (v' ≤ v → v % v' = 0 → r.length = 0) := by
  have hxv : x.value = v := hx.value
  refine (bnModRed_spec dst hx.length_le_size hy.toMag hpos (hxv.symm ▸ hxd) hyd).mono ?_
  rintro r ⟨hz, hcopy, hdiv⟩
  rw [hxv] at hcopy hdiv
  by_cases hlt : v < v'
  · obtain ⟨hl, hs, hv⟩ := hcopy hlt
    rw [Nat.mod_eq_of_lt hlt]
    exact ⟨⟨⟨hz, hl.symm ▸ hxd hlt, hv, hl.symm ▸ hx.tight⟩, hs.trans hx.sign⟩,
      fun hle => absurd hle (Nat.not_le.mpr hlt)⟩
  · obtain ⟨hcut, hs⟩ := hdiv (Nat.le_of_not_lt hlt)
    exact ⟨⟨hcut.toMag, hs.trans hy.sign⟩, fun _ => hcut.zero⟩

theorem dwdDiv_yields (hx : x.length ≤ x.size) (hy : Mag y size' v') (hpos : 0 < v')
    (hl : y.length ≤ x.length) :
    Yields (dwdDiv (x.pData.take x.length) (y.pData.take y.length)) ample fun o =>
      ∃ rem qs, o = some (rem, qs) ∧ rem.length = y.length ∧ qs.length = x.length + 1 - y.length ∧
        val rem = x.value % v' ∧ val qs = x.value / v' := by
  obtain ⟨rem, qs, he, h1, h2, h3, h4⟩ := dwdDivide_spec (x.pData.take x.length) (hy.digits_ne_nil hpos)
    (by rw [hy.digits_length]; exact hy.top_ne_zero hpos)
    (by rw [digits_length hx, hy.digits_length]; exact hl)
  rw [digits_length hx, hy.digits_length] at h2
  rw [hy.digits_length] at h1
  rw [hy.value] at h3 h4
  apply kmalloc_yields
  apply Yields.bind_lift he
  exact Yields.pure ⟨rem, qs, rfl, h1, h2, h3, h4⟩

theorem bnDiv_yields (hx : Mag x size v) (hy : Mag y size' v') (hpos : 0 < v')
    (hyd : y.length ≤ x.size) (hxd : x.length + 1 - y.length ≤ dst.size) :
    Yields (bnDiv dst x y) ample fun r => (v < v' → r = dst) ∧ (v' ≤ v → Mag r dst.size (v / v')) := by
  have hxm : x.length ≤ max dst.size x.size := hx.length_le_size.trans (le_max_right _ _)
  have hym : y.length ≤ max dst.size x.size := hyd.trans (le_max_right _ _)
  apply kmalloc_yields
  apply bnCopy_both hx.length_le_size hxm hy.length_le_size hym
  intro t1 t2 ht1 ht2
  have h1 := ht1.mag hx hxm
  have h2 := ht2.mag hy hym
  apply Yields.bind_lift (bnCmp_eq h1 h2)
  simp only [Nat.compare_eq_lt]
  by_cases hlt : v < v'
  · rw [if_pos hlt]
    exact Yields.pure ⟨fun _ => rfl, fun hle => absurd hlt (Nat.not_lt.mpr hle)⟩
  have hyx : y.length ≤ x.length := hy.length_mono hx (Nat.le_of_not_lt hlt) (by omega)
  rw [if_neg hlt]
  apply Yields.bind_lift h1.digits_eq
  apply Yields.bind_lift h2.digits_eq
  have hl1 := ht1.length_eq
  have hl2 := ht2.length_eq
  apply Yields.bind (dwdDiv_yields h1.length_le_size h2 hpos (by omega))
  rintro _ ⟨rem, qs, rfl, -, hql, -, hqv⟩
  have hv1 : t1.value = v := h1.value
  rw [hv1] at hqv
  have hlen : qs.length = t1.length - t2.length + 1 := by omega
  have hst : t1.length - t2.length + 1 ≤ dst.size := by omega
  apply Yields.bind_lift (store_eq (hlen.trans_le hst))
  obtain ⟨z, hz, hcut, -, -⟩ := stored_cut dst dst.sign hlen hst hqv
  apply Yields.bind_lift hz
  apply Yields.pure
  exact ⟨fun h => absurd h hlt, fun _ => ⟨hcut.size_eq, hcut.length_le, hcut.value, hcut.tight⟩⟩

theorem Mag.low_digit (hx : Mag x size v) (h : 0 < x.length) :
    digitAt x.pData 0 = .ok (x.pData.getD 0 0) ∧ (x.pData.getD 0 0).toNat = v % radix := by
  refine ⟨digitAt_eq (h.trans_le hx.length_le_size), ?_⟩
  have hg := val_getD (x.pData.take x.length) 0
  rw [hx.value, pow_zero, Nat.div_one] at hg
  rw [← hg, getD_take h]

theorem shlBits_spec (hx : x.length ≤ x.size) (h0 : 0 < x.length) (hd : x.length ≤ dst.size)
    {b : ℕ} (hb0 : b ≠ 0) (hb : b < 32) (hfit : x.value * 2 ^ b < radix ^ dst.size) :
    ∃ y, shlBits dst x b = .ok y ∧ y.sign = dst.sign ∧ y.size = dst.size ∧
      (y.length = x.length ∨ y.length = x.length + 1 ∧ radix ^ x.length ≤ y.value) ∧
      y.length ≤ dst.size ∧ y.value = x.value * 2 ^ b := by
  have hdl := digits_length hx
  have hne : x.pData.take x.length ≠ [] := length_pos_iff.mp (hdl.symm ▸ h0)
  have ht := toNat_toUInt32 hb
  obtain ⟨rs, c, he, hl, hv⟩ := dwdShl_spec (t := b.toUInt32) (by omega) (by omega) hne
  rw [ht, hdl] at hv
  rw [hdl] at hl
  simp only [shlBits, if_neg hb0, digits_eq hx, ok_bind, he, store_eq (hl.trans_le hd)]
  exact push_carry dst hl hd hv hfit

theorem shlWords_spec (hx : x.length ≤ x.size) {t : ℕ} (ht : t ≠ 0) (hd : x.length + t ≤ dst.size) :
    ∃ y, shlWords dst x t = .ok y ∧ y.sign = dst.sign ∧ y.size = dst.size ∧ y.length = x.length + t ∧
      y.value = x.value * radix ^ t := by
  have hlen : (List.replicate t 0 ++ x.pData.take x.length).length = x.length + t := by
    rw [length_append, length_replicate, digits_length hx, Nat.add_comm]
  have hval : val (List.replicate t 0 ++ x.pData.take x.length) = x.value * radix ^ t := by
    rw [val_append, val_replicate_zero, length_replicate, Nat.zero_add, Nat.mul_comm]
    rfl
  have hst : (List.replicate t 0 ++ x.pData.take x.length).length ≤ dst.size := hlen.symm ▸ hd
  simp only [shlWords, if_neg ht, digits_eq hx, ok_bind, store_eq hst]
  exact ⟨_, rfl, rfl, stored_size hst, rfl, (val_stored _ _ hlen).trans hval⟩

theorem bnShl_words_yields (hx : Rep x size v) (hl : 0 < x.length) {t : ℕ} (ht : 0 < t)
    (hd : x.length + t ≤ dst.size) :
    Yields (bnShl false dst x (32 * t)) ample fun r =>
      Rep r dst.size (v * radix ^ t) ∧ (v = 0 → r.length = 0) := by
  have hm : 32 * t % 32 = 0 := Nat.mul_mod_right 32 t
  have hq : 32 * t / 32 = t := Nat.mul_div_cancel_left t (by decide)
  obtain ⟨y, hy, hys, hyz, hyl, hyv⟩ := shlWords_spec { dst with sign := x.sign } hx.length_le_size
    ht.ne' hd
  have hv : x.value = v := hx.value
  rw [hv] at hyv
  have hyz' : y.size = dst.size := hyz
  obtain ⟨z, hz, hcut, hzs, -⟩ := optimizeLength_spec (x := y) (by omega) hyv
  rw [bnShl, if_neg hl.ne', hm, hq]
  apply Yields.bind_lift (show shlBits { dst with sign := x.sign } x 0 = .ok _ from rfl)
  apply Yields.bind_lift hy
  apply Yields.lift hz
  rw [hyz'] at hcut
  exact ⟨⟨hcut.toMag, hzs.trans (hys.trans hx.sign)⟩, fun h0 => hcut.zero (by rw [h0, Nat.zero_mul])⟩

variable {dst}

theorem bnShl_word_inPlace_yields (hx : Rep x size v) (hl : 0 < x.length)
    (hd : x.length + 1 ≤ size) :
    Yields (bnShl true x x 32) ample fun r => Rep r size (v * radix) ∧ (v = 0 → r.length = 0) := by
  have h := bnShl_words_yields x hx hl (t := 1) Nat.one_pos (by rw [hx.size_eq]; exact hd)
  rw [pow_one, hx.size_eq] at h
  exact h

theorem bnShr_words_yields (hx : Mag x size v) {t : ℕ} (ht : 0 < t) (hl : t ≤ x.length)
    (hd : x.length - t ≤ dst.size) (h1 : 0 < dst.size) :
    Yields (bnShr dst x (t * 32)) ample fun r =>
      r.size = dst.size ∧ val (r.pData.take (x.length - t)) = v / radix ^ t ∧
        r.sign = (if x.length ≤ t then false else x.sign) := by
  have hm : t * 32 % 32 = 0 := Nat.mul_mod_left t 32
  have hq : t * 32 / 32 = t := Nat.mul_div_cancel t (by decide)
  rw [bnShr, hm, hq]
  rw [if_neg (show ¬ x.length = 0 by omega), if_neg ht.ne']
  by_cases hle : x.length ≤ t
  · rw [if_pos hle, if_pos hle]
    have hz : v / radix ^ t = 0 := Nat.div_eq_of_lt (hx.lt.trans_le (radix_pow_mono hle))
    refine (bnCopy_yields rep_bnZero.toMag (show bnZero.length ≤ dst.size from h1)).mono ?_
    rintro r ⟨hr, -, hs⟩
    refine ⟨hr.size_eq, ?_, hs⟩
    rw [Nat.sub_eq_zero_of_le hle, hz]
    rfl
  · rw [if_neg hle, if_neg hle]
    have hdl := hx.digits_length
    have hlen : ((x.pData.take x.length).drop t).length = x.length - t := by
      rw [length_drop, hdl]
    have hval : val ((x.pData.take x.length).drop t) = v / radix ^ t := by
      rw [val_drop, hx.value]
    apply Yields.bind_lift hx.digits_eq
    apply Yields.bind_lift (store_eq (hlen.trans_le hd))
    obtain ⟨y, hy, hcut, hys, hyp⟩ := stored_cut dst x.sign hlen hd hval
    apply Yields.bind_lift hy
    apply Yields.bind_lift (show shrBits y 0 = .ok y from rfl)
    obtain ⟨z, hz, hcut', hzs, hzp⟩ := hcut.cut
    apply Yields.lift hz
    refine ⟨hcut'.size_eq, ?_, hzs.trans hys⟩
    rw [hzp, hyp, val_stored _ _ hlen, hval]

theorem bnShl_byte_yields (hx : Rep x size v) (hsz : 0 < size) (hfit : v * 2 ^ 8 < radix ^ size) :
    Yields (bnShl true x x 8) w fun r =>
      Rep r size (v * 2 ^ 8) ∧ (r.pData.getD 0 0).toNat = v * 2 ^ 8 % radix := by
  rw [bnShl]
  by_cases h0 : x.length = 0
  · rw [if_pos h0, hx.eq_zero h0, Nat.zero_mul]
    refine (bnCopy_yields rep_bnZero.toMag (by rw [hx.size_eq]; exact hsz)).mono ?_
    rintro r ⟨hr, hl, hs⟩
    exact ⟨⟨hx.size_eq ▸ hr, hs⟩, (hr.low_digit (hl ▸ Nat.one_pos)).2⟩
  rw [if_neg h0]
  have hv : x.value = v := hx.value
  obtain ⟨y, hy, hys, hyz, hxy, hyl, hyv⟩ := shlBits_spec x hx.length_le_size (Nat.pos_of_ne_zero h0)
    hx.length_le_size (b := 8 % 32) (by decide) (by decide) (by rw [hv, hx.size_eq]; exact hfit)
  rw [hv] at hyv
  rw [hx.size_eq] at hyz hyl
  have hy0 : 0 < y.length := by omega
  apply Yields.bind_lift hy
  apply Yields.bind_lift (show shlWords y (if true then y else x) (8 / 32) = .ok y from rfl)
  obtain ⟨z, hz, hcut, hzs, hzp⟩ := optimizeLength_spec (x := y) (by omega) hyv
  apply Yields.lift hz
  refine ⟨⟨hyz ▸ hcut.toMag, hzs.trans (hys.trans hx.sign)⟩, ?_⟩
  rw [hzp, ← getD_take hy0, val_getD, pow_zero, Nat.div_one]
  exact congrArg (· % radix) hyv

theorem mag_of_top (hl : x.length ≤ x.size) (htop : x.pData.getD (x.length - 1) 0 ≠ 0) :
    Mag x x.size x.value := by
  refine ⟨rfl, hl, rfl, ?_⟩
  intro m hm hv
  by_contra hc
  have hlen := digits_length hl
  have hne : x.pData.take x.length ≠ [] := length_pos_iff.mp (by omega)
  have hget : (x.pData.take x.length).getD (x.length - 1) 0 = x.pData.getD (x.length - 1) 0 :=
    getD_take (by omega)
  have hb := (top_digit_bounds hne).2.1
  rw [hlen, hget] at hb
  have hpos : 0 < (x.pData.getD (x.length - 1) 0).toNat := toNat_pos htop
  have h1 := Nat.le_mul_of_pos_left (radix ^ (x.length - 1)) hpos
  have h2 : radix ^ m ≤ radix ^ (x.length - 1) := radix_pow_mono (by omega)
  rw [BigNum.value] at hv
  omega

theorem rep_of_top (hs : x.sign = false) (hl : x.length ≤ x.size)
    (htop : x.pData.getD (x.length - 1) 0 ≠ 0) : Rep x x.size x.value :=
  ⟨mag_of_top hl htop, hs⟩

end Basic

end VDLinux.SecureBoot
