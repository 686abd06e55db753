import VDLinux.Base.Montgomery
import VDLinux.SecureBoot.MontSet

namespace VDLinux.SecureBoot

open Digit Base.Words Base.Outcome Base.Montgomery List

section Rounds

variable {x : BigNum} {modulus : List UInt32} {n0 : UInt32} {n len a size i : ℕ}

/-- The array after `i` rounds: all of it holds the accumulator, whatever its length says. -/
structure Accumulated (x : BigNum) (n k len a size i : ℕ) : Prop where
  size_eq : x.size = size
  sign : x.sign = false
  value : val x.pData = acc radix n k a i
  length_eq : x.length = len + extent radix n k len a i

theorem val_drop_add (hv : val x.pData = acc radix n n0.toNat a i) :
    radix ^ i * (val (x.pData.drop i) + (x.pData.getD i 0 * n0).toNat * n) + val (x.pData.take i) =
      acc radix n n0.toNat a (i + 1) := by
  have hd : (x.pData.getD i 0 * n0).toNat =
      acc radix n n0.toNat a i / radix ^ i % radix * n0.toNat % radix := by
    rw [UInt32.toNat_mul, val_getD, hv]
    rfl
  rw [acc, hd, ← hv]
  linear_combination (val_take_add_drop x.pData i).symm

theorem drop_lt {m : ℕ} {ds : List UInt32} {u v : ℕ} (him : i ≤ m)
    (h : radix ^ i * u + val (ds.take i) = v) (hv : v < radix ^ m) : u < radix ^ (m - i) := by
  have hm : radix ^ m = radix ^ i * radix ^ (m - i) := by
    rw [← pow_add]
    congr 1
    omega
  exact Nat.lt_of_mul_lt_mul_left ((Nat.le_add_right _ _).trans_lt (h ▸ hm ▸ hv))

variable (hx : Accumulated x n n0.toNat len a size i)
include hx

theorem added_value {rs : List UInt32} {c : UInt32} {w : ℕ} (hi : i ≤ size)
    (hrs : val rs + radix ^ w * c.toNat =
      val (x.pData.drop i) + (x.pData.getD i 0 * n0).toNat * n) :
    val (x.pData.take i ++ rs) + radix ^ (i + w) * c.toNat = acc radix n n0.toNat a (i + 1) := by
  have htake : (x.pData.take i).length = i := by
    rw [length_take]
    exact Nat.min_eq_left (hi.trans_eq hx.size_eq.symm)
  rw [← val_drop_add hx.value, ← hrs, val_append, htake, pow_add]
  ring

theorem added_size {rs : List UInt32}
    (hl : rs.length = (x.pData.drop i).length) : (x.pData.take i ++ rs).length = size := by
  have hs := hx.size_eq
  rw [BigNum.size] at hs
  rw [length_append, hl, ← length_append, take_append_drop, hs]

theorem redcStep_no_carry {rs : List UInt32} (hi : i < size)
    (hrun : dwdMulAdd (x.pData.drop i) (x.length - i) modulus (x.pData.getD i 0 * n0) = .ok (rs, 0))
    (hl : rs.length = (x.pData.drop i).length)
    (hrs : val rs = val (x.pData.drop i) + (x.pData.getD i 0 * n0).toNat * n)
    (he : extent radix n n0.toNat len a (i + 1) = extent radix n n0.toNat len a i) :
    ∃ y, redcStep modulus n0 i x = .ok y ∧ Accumulated y n n0.toNat len a size (i + 1) := by
  refine ⟨{ x with pData := x.pData.take i ++ rs }, ?_,
    ⟨added_size hx hl, hx.sign, ?_, hx.length_eq.trans (by rw [he])⟩⟩
  · rw [redcStep, digitAt_eq (hi.trans_eq hx.size_eq.symm), ok_bind, hrun, ok_bind]
    rfl
  · have h := added_value (w := 0) (c := 0) hx hi.le (by simpa using hrs)
    simpa using h

theorem redcStep_top (hm : modulus.length = len)
    (hn : val modulus = n) (hroom : i + len < size) (he : extent radix n n0.toNat len a i = i)
    (hlt : acc radix n n0.toNat a i < radix ^ (i + len)) :
    ∃ y, redcStep modulus n0 i x = .ok y ∧ Accumulated y n n0.toNat len a size (i + 1) := by
  have hsize : x.pData.length = size := hx.size_eq
  have hlen : x.length - i = len := by
    rw [hx.length_eq, he]
    omega
  obtain ⟨rs, c, hrun, hl, hrs, hrest⟩ := dwdMulAdd_spec (k := len) (x.pData.drop i) modulus (x.pData.getD i 0 * n0) hm.le (by rw [length_drop]; omega)
  rw [hn] at hrs
  -- nothing lies above the modulus before the round, and the round leaves that part alone
  have hlow : val rs < radix ^ len := by
    have hzero : val (rs.drop len) = 0 := by
      rw [hrest hm]
      apply val_drop_of_lt
      rw [val_drop, hx.value]
      apply Nat.div_lt_of_lt_mul
      rwa [← pow_add]
    have h := val_take_add_drop rs len
    rw [hzero, Nat.mul_zero, Nat.add_zero] at h
    rw [h]
    exact val_take_lt rs len
  have hval := added_value hx (by omega) hrs
  have hnew := added_size hx hl
  have htake : (x.pData.take i).length = i := by
    rw [length_take]
    omega
  have hbelow : val (x.pData.take i ++ rs) < radix ^ (i + len) := by
    rw [val_append, htake, pow_add]
    have h1 := val_take_lt x.pData i
    calc val (x.pData.take i) + radix ^ i * val rs < radix ^ i * (val rs + 1) := by
          rw [Nat.mul_succ]
          omega
      _ ≤ radix ^ i * radix ^ len := Nat.mul_le_mul_left _ hlow
  by_cases hc : c = 0
  · subst hc
    apply redcStep_no_carry hx (by omega) (hlen ▸ hrun) hl (by simpa using hrs)
    rw [extent, if_neg]
    rintro ⟨-, hle⟩
    simp only [UInt32.toNat_zero, Nat.mul_zero, Nat.add_zero] at hval
    rw [Nat.add_comm len] at hle
    omega
  · have hcpos : 0 < c.toNat := toNat_pos hc
    have hle : radix ^ (len + i) ≤ acc radix n n0.toNat a (i + 1) := by
      rw [← hval, Nat.add_comm len]
      exact le_add_left (Nat.le_mul_of_pos_right _ hcpos)
    have hxl : x.length = i + len := by rw [hx.length_eq, he, Nat.add_comm]
    refine ⟨⟨x.sign, x.length + 1, (x.pData.take i ++ rs).set x.length c⟩, ?_,
      ⟨(length_set ..).trans hnew, hx.sign, ?_, ?_⟩⟩
    · rw [redcStep, digitAt_eq (by omega), ok_bind, hlen, hrun, ok_bind]
      simp only [if_neg hc, BigNum.push, BigNum.size, hnew]
      rw [if_pos (by omega)]
    · have hset := val_set c (show x.length < (x.pData.take i ++ rs).length by omega)
      have hz := val_getD (x.pData.take i ++ rs) x.length
      rw [hxl, Nat.div_eq_of_lt hbelow, Nat.zero_mod] at hz
      rw [hxl, hz, Nat.mul_zero, Nat.add_zero] at hset
      rw [hxl, hset]
      exact hval
    · rw [extent, if_pos ⟨he, hle⟩]
      change x.length + 1 = _
      omega

theorem redcStep_spec (hm : modulus.length = len) (hn : val modulus = n) (hi : i < len)
    (hroom : len + max (Nat.digits radix a).length len ≤ size) :
    ∃ y, redcStep modulus n0 i x = .ok y ∧ Accumulated y n n0.toNat len a size (i + 1) := by
  have hsize : x.pData.length = size := hx.size_eq
  have hnlt : n < radix ^ len := by
    rw [← hn, ← hm]
    exact val_lt modulus
  have hacc := acc_lt (k := n0.toNat) radix_pos hnlt
    (Nat.lt_base_pow_length_digits (m := a) one_lt_radix)
  have hdrop := val_drop_add hx.value
  have hdl : (x.pData.drop i).length = size - i := by rw [length_drop, hsize]
  rcases Nat.lt_or_ge i (Nat.digits radix a).length with hs | hs
  · -- the source is longer than the rounds so far: the array has room for every carry
    have he := extent_early (b := radix) (n := n) (k := n0.toNat) (l := len) (a := a) hs.le
    have he' := extent_early (b := radix) (n := n) (k := n0.toNat) (l := len) (a := a) hs
    have hlen : x.length - i = len + (Nat.digits radix a).length - i := by rw [hx.length_eq, he]
    obtain ⟨rs, c, hrun, hl, hrs, -⟩ := dwdMulAdd_spec (k := x.length - i) (x.pData.drop i) modulus (x.pData.getD i 0 * n0) (by omega) (by omega)
    rw [hn] at hrs
    have hfit := hacc (i + 1)
    rw [max_eq_left hs] at hfit
    have hsmall := drop_lt (by omega) hdrop hfit
    have hc : c = 0 := by
      by_contra hc
      have hcpos : 0 < c.toNat := toNat_pos hc
      have hbig := Nat.le_mul_of_pos_right (radix ^ (x.length - i)) hcpos
      rw [← hlen] at hsmall
      omega
    subst hc
    exact redcStep_no_carry hx (by omega) hrun hl (by simpa using hrs) (he'.trans he.symm)
  obtain ⟨hle, hge⟩ := extent_late (b := radix) (n := n) (k := n0.toNat) (l := len) (a := a) hs
  have hfit := hacc i
  rw [max_eq_right hs] at hfit
  rcases hle.lt_or_eq with hlt | heq
  · -- the array is declared shorter than the product, which is added in full all the same
    have hfit' := hacc (i + 1)
    rw [max_eq_right (by omega)] at hfit'
    have hsmall := drop_lt (by omega) hdrop hfit'
    have hw : len + (i + 1) - i = len + 1 := by omega
    rw [hw, ← hm, ← hn] at hsmall
    obtain ⟨rs, hrun, hl, hrs⟩ := dwdMulAdd_short (k := x.length - i) (x.pData.getD i 0 * n0)
      (by rw [hx.length_eq]; omega) (by omega) hsmall
    rw [hn] at hrs
    refine redcStep_no_carry hx (by omega) hrun hl hrs ?_
    rw [extent, if_neg fun h => hlt.ne h.1]
  · exact redcStep_top hx hm hn (by omega) heq (by rwa [Nat.add_comm i])

omit hx

theorem redcRounds_spec (hx : Accumulated x n n0.toNat len a size 0) (hm : modulus.length = len)
    (hn : val modulus = n) (hroom : len + max (Nat.digits radix a).length len ≤ size)
    (hi : i ≤ len) :
    ∃ y, redcRounds modulus n0 i x = .ok y ∧ Accumulated y n n0.toNat len a size i := by
  induction i with
  | zero => exact ⟨x, rfl, hx⟩
  | succ i ih =>
    obtain ⟨y, hrun, hy⟩ := ih (by omega)
    obtain ⟨z, hstep, hz⟩ := redcStep_spec hy hm hn (by omega) hroom
    exact ⟨z, by rw [redcRounds, hrun, ok_bind, hstep], hz⟩

end Rounds

section Reduction

variable {dst src : BigNum} {mont : BigMont} {d n len a size : ℕ}

theorem digits_length_eq (hx : Mag src size a) (h0 : a = 0 → src.length = 0) :
    (Nat.digits radix a).length = src.length := by
  apply Nat.le_antisymm
  · exact (Nat.digits_length_le_iff one_lt_radix a).mpr hx.lt
  · rcases Nat.eq_zero_or_pos a with h | h
    · rw [h0 h]
      exact Nat.zero_le _
    · refine hx.tight _ ?_ (Nat.lt_base_pow_length_digits one_lt_radix)
      apply Nat.pos_of_ne_zero
      rw [Ne, length_eq_zero_iff, Nat.digits_eq_nil_iff_eq_zero]
      exact h.ne'

theorem shifted_rep {r : BigNum} {v : ℕ} (hsrc : Mag src size v) (hlen : 0 < len)
    (hl : len ≤ src.length) (hfit : src.length - len ≤ r.size)
    (hv : val (r.pData.take (src.length - len)) = v / radix ^ len) (hs : r.sign = false) :
    Rep { r with length := lengthSub src.length len } r.size (v / radix ^ len) ∧
      (v / radix ^ len = 0 → lengthSub src.length len = 0) := by
  have hsub : lengthSub src.length len = src.length - len := if_pos hl
  have hdiv : ∀ m, v / radix ^ len < radix ^ m → v < radix ^ (len + m) := by
    intro m hm
    rw [pow_add, Nat.mul_comm]
    exact (Nat.div_lt_iff_lt_mul (radix_pow_pos len)).mp hm
  rw [hsub]
  refine ⟨⟨⟨rfl, hfit, hv, fun m _ hm => ?_⟩, hs⟩, fun h0 => ?_⟩
  · have h := hsrc.tight (len + m) (by omega) (hdiv m hm)
    change src.length - len ≤ m
    omega
  · have h := hsrc.tight len hlen (by simpa using hdiv 0 (by rw [h0]; exact Nat.one_pos))
    omega

theorem IsN0.coprime {k : ℕ} (h : IsN0 n k) : Nat.Coprime radix k := by
  have hr : radix = 2 ^ 32 := rfl
  exact Nat.Coprime.pow_left 32 (Nat.coprime_two_left.mpr (Nat.odd_iff.mpr h.odd))

/-- What a reduction leaves: its result is zero only without digits. -/
structure Reduced (x : BigNum) (size v : ℕ) : Prop extends Rep x size v where
  zero : v = 0 → x.length = 0

theorem bnCopy_mag {D : ℕ} (hsrc : Mag src size a) (hl : src.length ≤ D) :
    Yields (bnCopy (bnAlloc D) src) ample fun r => Mag r D a ∧ r.length = src.length ∧
      val r.pData = a := by
  refine (bnCopy_fresh src hsrc.length_le_size hl).mono fun r hr => ?_
  have hv : src.value = a := hsrc.value
  refine ⟨⟨hr.size_eq, hr.length_eq ▸ hl, hr.value_eq.trans hv, hr.length_eq ▸ hsrc.tight⟩, hr.length_eq, ?_⟩
  have hall := hr.value_take D hl
  rwa [← hr.size_eq, BigNum.size, take_length, hv] at hall

theorem padded_spec (len : ℕ) {src1 : BigNum} (hcopy : Mag src1 size a) (hv : val src1.pData = a)
    (hroom : src1.length + len ≤ size) :
    ∃ ds y, src1.digits = .ok ds ∧ src1.store (ds ++ List.replicate len 0) = .ok y ∧
      y.size = size ∧ val y.pData = a := by
  have hdl := hcopy.digits_length
  have hds : (src1.pData.take src1.length ++ List.replicate len 0).length = src1.length + len := by
    rw [length_append, hdl, length_replicate]
  have hfit : (src1.pData.take src1.length ++ List.replicate len 0).length ≤ src1.size := by
    rw [hds, hcopy.size_eq]
    exact hroom
  refine ⟨_, _, hcopy.digits_eq, store_eq hfit, (stored_size hfit).trans hcopy.size_eq, ?_⟩
  have hzero : val (src1.pData.drop (src1.length + len)) = 0 := by
    apply val_drop_of_lt
    rw [hv]
    exact hcopy.lt.trans_le (radix_pow_mono (Nat.le_add_right _ _))
  rw [hds, val_append, hzero, val_append, val_replicate_zero, hcopy.value, Nat.mul_zero, Nat.mul_zero,
    Nat.add_zero]

theorem rzn2zn_finish {src1 : BigNum} {k : ℕ} (hmod : Rep mont.mod d n) (hlen : mont.mod.length = len)
    (hx : Cut src1 size (acc radix n k a len)) (hsign : src1.sign = false)
    (ha : a < n * radix ^ len) (hge : radix ^ (len - 1) ≤ acc radix n k a len) (hpos : 0 < len)
    (hdst : len + 1 ≤ dst.size) :
    Yields (do
      let dst ← bnShr dst src1 (len * 32)
      let dst := { dst with length := lengthSub src1.length len }
      if (← bnCmp dst mont.mod) = .lt then return dst else bnSub dst dst mont.mod) ample fun r =>
        Reduced r dst.size (redc radix n k len a) := by
  have hl : len ≤ src1.length := by
    have h := hge.trans_lt hx.lt
    rw [radix_pow_lt] at h
    omega
  have hfit : src1.length - len ≤ dst.size := by
    have h1 := acc_lt_double (k := k) radix_pos ha
    have h2 : radix ^ len * (2 * n) ≤ radix ^ (len + (len + 1)) := by
      rw [pow_add, pow_succ, Nat.mul_comm 2 n]
      exact Nat.mul_le_mul_left _ (Nat.mul_le_mul (hlen ▸ hmod.lt.le) (by decide))
    have h3 := hx.tight _ (by omega) (h1.trans_le h2)
    omega
  apply Yields.bind (bnShr_words_yields hx.toMag hpos hl hfit (by omega))
  rintro r ⟨hr1, hr2, hr3⟩
  have hrs : r.sign = false := by
    rw [hr3, hsign]
    split_ifs <;> rfl
  obtain ⟨hrep, hzero⟩ := shifted_rep hx.toMag hpos hl (by omega) hr2 hrs
  rw [hr1] at hrep
  apply Yields.bind_lift (bnCmp_eq hrep.toMag hmod.toMag)
  rw [redc]
  by_cases hc : acc radix n k a len / radix ^ len < n
  · rw [if_pos (Nat.compare_eq_lt.mpr hc), if_pos hc]
    exact Yields.pure ⟨hrep, hzero⟩
  · have hle := Nat.le_of_not_lt hc
    rw [if_neg (fun h => hc (Nat.compare_eq_lt.mp h)), if_neg hc]
    have hnpos : 0 < n := Nat.pos_of_ne_zero fun h0 => by simp [h0] at ha
    have hsub := bnSub_yields { r with length := lengthSub src1.length len } hrep hmod hle
      (hmod.length_mono hrep.toMag hle (hnpos.trans_le hle)) (hrep.length_le.trans_eq hr1.symm)
    refine hsub.mono ?_
    rintro z ⟨hz, hz0⟩
    exact ⟨hr1 ▸ hz, fun h => hz0 (by omega)⟩

theorem montRzn2zn_yields (dst : BigNum) (hp : Parameters mont d n len) (hsrc : Reduced src size a)
    (ha : a < n * radix ^ len) (hkeeps : Keeps radix n mont.n0.toNat len a)
    (hs : dst.sign = false) (hdst : len + 1 ≤ dst.size) (hsize : len ≤ size) :
    Yields (montRzn2zn dst src mont) ample fun r =>
      Reduced r dst.size (redc radix n mont.n0.toNat len a) := by
  have hnpos : 0 < n := Nat.pos_of_ne_zero fun h0 => by simp [h0] at ha
  have hlen : 0 < len := hp.mod_length ▸ hp.mod.length_pos hnpos
  have hri : mont.ri / 32 = len := by rw [hp.ri, Nat.mul_div_cancel_left _ (by decide)]
  have hpow := hp.mod.pow_le hnpos
  rw [montRzn2zn]
  split_ifs with h0
  · rw [hsrc.eq_zero h0, redc_zero hnpos]
    exact Yields.pure ⟨rep_empty _ hs, fun _ => rfl⟩
  have hapos : 0 < a := Nat.pos_of_ne_zero fun hz => h0 (hsrc.zero hz)
  have hsl := hsrc.length_le
  have hdigits := digits_length_eq hsrc.toMag hsrc.zero
  have hinit : Yields (bnInit (src.size + mont.mod.length)) ample (· = some (bnAlloc (size + len))) :=
    ⟨_, by rw [hsrc.size_eq, hp.mod_length]; rfl, rfl⟩
  apply Yields.bind hinit
  rintro _ rfl
  apply Yields.bind (bnCopy_mag hsrc.toMag (show src.length ≤ size + len by omega))
  rintro src1 ⟨hc, hcl, hcv⟩
  rw [hri, hp.mod_length, if_neg (by omega)]
  obtain ⟨ds, pad, hds, hstore, hps, hpv⟩ := padded_spec len hc hcv (by omega)
  apply Yields.bind_lift hds
  apply Yields.bind_lift hstore
  apply Yields.bind_lift hp.mod.digits_eq
  have hmv := hp.mod.value
  have hml := hp.mod.digits_length
  have hstart : Accumulated
      { pad with sign := src.sign != mont.mod.sign, length := len + src.length }
      n mont.n0.toNat len a (size + len) 0 :=
    ⟨hps, by simp [hsrc.sign, hp.mod.sign], hpv, by rw [extent, hdigits]⟩
  obtain ⟨y, hrun, hy⟩ := redcRounds_spec hstart (hml.trans hp.mod_length) hmv
    (by omega) le_rfl
  apply Yields.bind_lift hrun
  have hyv : val (y.pData.take y.length) = acc radix n mont.n0.toNat a len := by
    rw [hy.length_eq, ← hy.value]
    exact val_take_of_lt (hy.value.trans_lt hkeeps)
  have hyl : y.length ≤ y.size := by
    have he := extent_le_max (b := radix) (n := n) (k := mont.n0.toNat) (l := len) (a := a) len
    rw [hy.length_eq, hy.size_eq]
    omega
  obtain ⟨z, hopt, hz, hzs, -⟩ := optimizeLength_spec hyl hyv
  apply Yields.bind_lift hopt
  exact rzn2zn_finish hp.mod hp.mod_length hz (hzs.trans hy.sign) ha
    (pow_le_acc radix_pos hp.n0.coprime (hp.mod_length ▸ hpow) hapos) hlen hdst

end Reduction

end VDLinux.SecureBoot
