import VDLinux.SecureBoot.Digit

namespace VDLinux.SecureBoot.Digit

open Base.Words List

@[simp] theorem ok_bind {α β : Type} (a : α) (f : α → Checked β) :
    ((Except.ok a : Checked α) >>= f) = f a := rfl

theorem digitAt_eq {ds : List UInt32} {i : ℕ} (h : i < ds.length) : digitAt ds i = .ok (ds.getD i 0) := by
  simp [digitAt, List.getElem?_eq_getElem h, List.getD]

theorem mul_toNat_le (a b : UInt32) : a.toNat * b.toNat ≤ (2 ^ 32 - 1) * (2 ^ 32 - 1) :=
  Nat.mul_le_mul (Nat.le_pred_of_lt a.toNat_lt) (Nat.le_pred_of_lt b.toNat_lt)

theorem digitMul_spec (a b : UInt32) :
    (digitMul a b).1.toNat + radix * (digitMul a b).2.toNat = a.toNat * b.toNat := by
  have hlt : a.toNat * b.toNat < 2 ^ 64 := (mul_toNat_le a b).trans_lt (by norm_num)
  simp only [digitMul, UInt64.toNat_toUInt32, UInt64.toNat_mul, UInt32.toNat_toUInt64,
    UInt64.toNat_shiftRight, Nat.mod_eq_of_lt hlt, radix]
  simp only [Nat.shiftRight_eq_div_pow, UInt64.reduceToNat, Nat.reduceMod, Nat.reducePow]
  omega

theorem mulAddDigit_spec (m a s carry : UInt32) :
    (mulAddDigit m a s carry).1.toNat + radix * (mulAddDigit m a s carry).2.toNat =
      a.toNat + m.toNat * s.toNat + carry.toNat := by
  have h := digitMul_spec m s
  have hp := mul_toNat_le m s
  have ha := a.toNat_lt
  have hc := carry.toNat_lt
  have hl := (digitMul m s).1.toNat_lt
  have hone : (1 : UInt32).toNat = 1 := rfl
  simp only [mulAddDigit, radix, UInt32.lt_iff_toNat_lt, UInt32.toNat_add,
    apply_ite UInt32.toNat, hone] at h ⊢
  split_ifs <;> omega

theorem mulSubDigit_spec (m a s carry : UInt32) :
    (mulSubDigit m a s carry).1.toNat + m.toNat * s.toNat + carry.toNat =
      a.toNat + radix * (mulSubDigit m a s carry).2.toNat := by
  have h := digitMul_spec m s
  have hp := mul_toNat_le m s
  have ha := a.toNat_lt
  have hc := carry.toNat_lt
  have hl := (digitMul m s).1.toNat_lt
  have hone : (1 : UInt32).toNat = 1 := rfl
  simp only [mulSubDigit, radix, UInt32.lt_iff_toNat_lt, UInt32.toNat_add, UInt32.toNat_sub,
    apply_ite UInt32.toNat, hone] at h ⊢
  split_ifs <;> omega

theorem addDigit_spec (a s carry : UInt32) (hc : carry.toNat ≤ 1) :
    (addDigit a s carry).1.toNat + radix * (addDigit a s carry).2.toNat =
      a.toNat + s.toNat + carry.toNat ∧ (addDigit a s carry).2.toNat ≤ 1 := by
  have ha := a.toNat_lt
  have hs := s.toNat_lt
  have hm : (-1 : UInt32).toNat = 4294967295 := rfl
  simp only [addDigit, radix, UInt32.lt_iff_toNat_lt, ← UInt32.toNat_inj, ne_eq, hm,
    UInt32.toNat_add]
  split_ifs <;> simp only [UInt32.toNat_add, UInt32.reduceToNat] at * <;> omega

theorem subDigit_spec (a s carry : UInt32) (hc : carry.toNat ≤ 1) :
    (subDigit a s carry).1.toNat + s.toNat + carry.toNat =
      a.toNat + radix * (subDigit a s carry).2.toNat ∧ (subDigit a s carry).2.toNat ≤ 1 := by
  have ha := a.toNat_lt
  have hs := s.toNat_lt
  simp only [subDigit, radix, UInt32.lt_iff_toNat_lt, ← UInt32.toNat_inj, UInt32.toNat_add,
    UInt32.toNat_sub, UInt32.toNat_not, UInt32.size]
  split_ifs <;> simp only [UInt32.toNat_add, UInt32.toNat_sub, UInt32.reduceToNat] at * <;> omega

section Chain

variable {f : UInt32 → UInt32 → UInt32 → UInt32 × UInt32} {P : UInt32 → Prop} {m x y : ℕ}

/-- A chain adds a multiple, with `x = 1` and `y = 0`, or subtracts it, with `x = 0` and `y = 1`. -/
theorem chain_spec
    (hf : ∀ a s c, P c → (f a s c).1.toNat + x * (radix * (f a s c).2.toNat) + y * (m * s.toNat + c.toNat) =
      a.toNat + x * (m * s.toNat + c.toNat) + y * (radix * (f a s c).2.toNat) ∧ P (f a s c).2)
    {c : UInt32} (hc : P c) {as ss : List UInt32} (hl : ss.length ≤ as.length) :
    ∃ low t, chain f c (as.zip ss) = (low, t) ∧ low.length = ss.length ∧ P t ∧
      val low + radix ^ ss.length * (x * t.toNat + val (as.drop ss.length)) + y * (m * val ss + c.toNat) =
        val as + x * (m * val ss + c.toNat) + y * (radix ^ ss.length * t.toNat) := by
  induction ss generalizing as c with
  | nil =>
    refine ⟨[], c, by rw [zip_nil_right, chain], rfl, hc, ?_⟩
    simp only [val_nil, length_nil, pow_zero, one_mul, drop_zero]
    ring
  | cons s ss ih =>
    cases as with
    | nil => simp at hl
    | cons a as =>
      obtain ⟨hd, hp⟩ := hf a s c hc
      obtain ⟨low, t, heq, hlen, hq, ht⟩ := ih hp (by simpa using hl)
      refine ⟨(f a s c).1 :: low, t, by simp only [zip_cons_cons, chain, heq], by simp [hlen], hq, ?_⟩
      simp only [val_cons, length_cons, pow_succ, drop_succ_cons]
      linear_combination hd + radix * ht

end Chain

theorem incDigits_spec {n : ℕ} (ds : List UInt32) (h : n ≤ ds.length) :
    ∃ rs w, incDigits n ds = .ok (rs, w) ∧ rs.length = ds.length ∧
      val rs + radix ^ n * w.toNat = val ds + 1 := by
  induction n generalizing ds with
  | zero => exact ⟨ds, true, rfl, rfl, by simp⟩
  | succ n ih =>
    cases ds with
    | nil => simp at h
    | cons d ds =>
      have hd := d.toNat_lt
      by_cases hz : d + 1 = 0
      · obtain ⟨rs, w, he, hl, hv⟩ := ih ds (by simpa using h)
        refine ⟨(d + 1) :: rs, w, by simp [incDigits, hz, he], by simp [hl], ?_⟩
        have hn : d.toNat = 4294967295 := by
          have hn := congrArg UInt32.toNat hz
          simp only [UInt32.toNat_add, UInt32.reduceToNat] at hn
          omega
        simp only [val_cons, hz, hn, pow_succ, UInt32.reduceToNat]
        have hr : radix = 4294967295 + 1 := rfl
        linear_combination radix * hv + hr
      · refine ⟨(d + 1) :: ds, false, by simp [incDigits, hz], by simp, ?_⟩
        have hn : (d + 1).toNat = d.toNat + 1 := by
          have hz' := toNat_pos hz
          simp only [UInt32.toNat_add, UInt32.reduceToNat] at hz' ⊢
          omega
        simp only [val_cons, hn, Bool.toNat_false]
        ring

theorem decDigits_spec {n : ℕ} {ds : List UInt32} (h : n ≤ ds.length) :
    ∃ rs w, decDigits n ds = .ok (rs, w) ∧ rs.length = ds.length ∧
      val rs + 1 = val ds + radix ^ n * w.toNat := by
  induction n generalizing ds with
  | zero => exact ⟨ds, true, rfl, rfl, by simp⟩
  | succ n ih =>
    cases ds with
    | nil => simp at h
    | cons d ds =>
      have hd := d.toNat_lt
      by_cases hz : d = 0
      · obtain ⟨rs, w, he, hl, hv⟩ := ih (by simpa using h)
        refine ⟨(d - 1) :: rs, w, by simp [decDigits, hz, he], by simp [hl], ?_⟩
        subst hz
        have hm : ((0 : UInt32) - 1).toNat = 4294967295 := rfl
        have hr : radix = 4294967295 + 1 := rfl
        simp only [val_cons, hm, pow_succ, UInt32.toNat_zero]
        linear_combination radix * hv - hr
      · refine ⟨(d - 1) :: ds, false, by simp [decDigits, hz], by simp, ?_⟩
        have hn : (d - 1).toNat + 1 = d.toNat := by
          have hz' := toNat_pos hz
          simp only [UInt32.toNat_sub, UInt32.reduceToNat]
          omega
        simp only [val_cons, Bool.toNat_false]
        linear_combination hn

theorem toNat_ite_one (w : Bool) : (if w then 1 else 0 : UInt32).toNat = w.toNat := by
  cases w <;> rfl

theorem pow_length_split {src1 src2 : List UInt32} (h : src2.length ≤ src1.length) :
    radix ^ src1.length = radix ^ src2.length * radix ^ (src1.drop src2.length).length := by
  rw [← pow_add, length_drop]
  congr 1
  omega

theorem toNat_eq_one {c : UInt32} (hc : c.toNat ≤ 1) (h0 : c ≠ 0) : c.toNat = 1 := le_antisymm hc (toNat_pos h0)

theorem dwdAdd_spec (src1 src2 : List UInt32) (h : src2.length ≤ src1.length) :
    ∃ rs c, dwdAdd src1 src2 = .ok (rs, c) ∧ rs.length = src1.length ∧
      val rs + radix ^ src1.length * c.toNat = val src1 + val src2 := by
  obtain ⟨low, carry, hchain, hll, hc, hv⟩ := chain_spec (f := addDigit) (P := (·.toNat ≤ 1)) (m := 1) (x := 1)
    (y := 0) (c := 0) (fun a s c hc => by simpa [Nat.add_assoc] using addDigit_spec a s c hc) (by simp) h
  simp only [one_mul, zero_mul, add_zero, UInt32.toNat_zero] at hv
  rw [dwdAdd, if_neg (by omega), hchain]
  by_cases h0 : carry = 0
  · refine ⟨low ++ src1.drop src2.length, 0, by simp [h0], by simp [hll]; omega, ?_⟩
    simp only [h0, UInt32.toNat_zero] at hv ⊢
    rw [val_append, hll]
    linear_combination hv
  · obtain ⟨rs, w, he, hl, hi⟩ := incDigits_spec (n := (src1.drop src2.length).length) _ le_rfl
    refine ⟨low ++ rs, if w then 1 else 0, by simp only [if_neg h0, he]; rfl, by simp [hll, hl]; omega, ?_⟩
    simp only [toNat_eq_one hc h0] at hv
    rw [val_append, hll, toNat_ite_one, pow_length_split h]
    linear_combination hv + radix ^ src2.length * hi

theorem dwdSub_spec (src1 src2 : List UInt32) (h : src2.length ≤ src1.length)
    (hle : val src2 ≤ val src1) :
    ∃ rs c, dwdSub src1 src2 = .ok (rs, c) ∧ rs.length = src1.length ∧
      val rs + val src2 = val src1 := by
  obtain ⟨low, carry, hchain, hll, hc, hv⟩ := chain_spec (f := subDigit) (P := (·.toNat ≤ 1)) (m := 1) (x := 0)
    (y := 1) (c := 0) (fun a s c hc => by simpa [Nat.add_assoc] using subDigit_spec a s c hc) (by simp) h
  simp only [one_mul, zero_mul, zero_add, add_zero, UInt32.toNat_zero] at hv
  rw [dwdSub, if_neg (by omega), hchain]
  by_cases h0 : carry = 0
  · refine ⟨low ++ src1.drop src2.length, 0, by simp [h0], by simp [hll]; omega, ?_⟩
    simp only [h0, UInt32.toNat_zero] at hv
    rw [val_append, hll]
    linear_combination hv
  · obtain ⟨rs, w, he, hl, hi⟩ := decDigits_spec (n := (src1.drop src2.length).length) le_rfl
    have hlen : (low ++ rs).length = src1.length := by
      simp [hll, hl]
      omega
    refine ⟨low ++ rs, if w then -1 else 0, by simp only [if_neg h0, he]; rfl, hlen, ?_⟩
    simp only [toNat_eq_one hc h0] at hv
    have ht : val (low ++ rs) + val src2 = val src1 + radix ^ src1.length * w.toNat := by
      rw [val_append, hll, pow_length_split h]
      linear_combination hv + radix ^ src2.length * hi
    -- a borrow out of the top would make the difference as large as the array allows
    cases w with
    | false => simpa using ht
    | true =>
      have hlt := val_lt (low ++ rs)
      rw [hlen] at hlt
      simp only [Bool.toNat_true, mul_one] at ht
      omega

variable {dest src : List UInt32}

theorem mulAdd_chain (m : UInt32) (h : src.length ≤ dest.length) :
    ∃ low t, chain (mulAddDigit m) 0 (dest.zip src) = (low, t) ∧ low.length = src.length ∧
      val low + radix ^ src.length * (t.toNat + val (dest.drop src.length)) = val dest + m.toNat * val src := by
  obtain ⟨low, t, heq, hlen, -, hv⟩ := chain_spec (P := fun _ => True) (x := 1) (y := 0) (c := 0)
    (fun a s c _ => ⟨by simpa [Nat.add_assoc] using mulAddDigit_spec m a s c, trivial⟩) trivial h
  exact ⟨low, t, heq, hlen, by simpa using hv⟩

theorem mulSub_chain (m : UInt32) (h : src.length ≤ dest.length) :
    ∃ low t, chain (mulSubDigit m) 0 (dest.zip src) = (low, t) ∧ low.length = src.length ∧
      val low + radix ^ src.length * val (dest.drop src.length) + m.toNat * val src =
        val dest + radix ^ src.length * t.toNat := by
  obtain ⟨low, t, heq, hlen, -, hv⟩ := chain_spec (P := fun _ => True) (x := 0) (y := 1) (c := 0)
    (fun a s c _ => ⟨by simpa [Nat.add_assoc] using mulSubDigit_spec m a s c, trivial⟩) trivial h
  exact ⟨low, t, heq, hlen, by simpa using hv⟩

theorem drop_eq_cons {dest : List UInt32} {k : ℕ} (h : k < dest.length) :
    ∃ top rest, dest.drop k = top :: rest ∧ dest.length = k + 1 + rest.length := by
  refine ⟨_, _, drop_eq_getElem_cons h, ?_⟩
  rw [length_drop]
  omega

theorem dwdMulAdd_spec (dest src : List UInt32) {k : ℕ} (m : UInt32) (hs : src.length ≤ k)
    (hk : k ≤ dest.length) :
    ∃ rs c, dwdMulAdd dest k src m = .ok (rs, c) ∧ rs.length = dest.length ∧
      val rs + radix ^ k * c.toNat = val dest + m.toNat * val src ∧
        (src.length = k → rs.drop k = dest.drop k) := by
  have hsd : src.length ≤ dest.length := hs.trans hk
  obtain ⟨low, t, hchain, hll, hv⟩ := mulAdd_chain m hsd
  rw [dwdMulAdd, if_neg (by omega), hchain]
  have ht := t.toNat_lt
  by_cases hks : src.length = k
  · refine ⟨low ++ dest.drop src.length, t, by simp [hks], by simp [hll, hsd], ?_, fun _ => ?_⟩
    · rw [val_append, hll, ← hks]
      linear_combination hv
    · rw [← hks]
      exact drop_left' hll
  simp only [if_neg hks]
  obtain ⟨top, rest, hdr, hlen⟩ := drop_eq_cons (show src.length < dest.length by omega)
  rw [hdr, val_cons] at hv
  rw [hdr]
  have htop := top.toNat_lt
  by_cases hw : t ≤ top + t
  · refine ⟨low ++ (top + t) :: rest, 0, by simp [hw], by simp [hll]; omega, ?_, fun h => absurd h hks⟩
    have hsum : (top + t).toNat = top.toNat + t.toNat := by
      simp only [UInt32.le_iff_toNat_le, UInt32.toNat_add] at hw ⊢
      omega
    rw [val_append, hll, val_cons, hsum]
    simp only [UInt32.toNat_zero]
    linear_combination hv
  · obtain ⟨rs, w, he, hl, hi⟩ := incDigits_spec (n := k - src.length - 1) rest (by omega)
    refine ⟨low ++ (top + t) :: rs, if w then 1 else 0, by simp [hw, he],
      by simp [hll, hl]; omega, ?_, fun h => absurd h hks⟩
    have hsum : (top + t).toNat + radix = top.toNat + t.toNat := by
      simp only [UInt32.le_iff_toNat_le, UInt32.toNat_add, radix] at hw ⊢
      omega
    have hp : radix ^ k = radix ^ src.length * (radix * radix ^ (k - src.length - 1)) := by
      rw [← pow_succ', ← pow_add]
      congr 1
      omega
    rw [val_append, hll, val_cons, toNat_ite_one, hp]
    linear_combination hv + radix ^ src.length * hsum + radix ^ src.length * radix * hi

/-- A destination declared shorter than the source is written past its declared length, exactly, and
no carry is reported. -/
theorem dwdMulAdd_short {k : ℕ} (m : UInt32) (hk : k < src.length) (hs : src.length < dest.length)
    (hv : val dest + m.toNat * val src < radix ^ (src.length + 1)) :
    ∃ rs, dwdMulAdd dest k src m = .ok (rs, 0) ∧ rs.length = dest.length ∧
      val rs = val dest + m.toNat * val src := by
  obtain ⟨low, t, hchain, hll, hc⟩ := mulAdd_chain m hs.le
  rw [dwdMulAdd, if_neg (by omega), hchain]
  simp only [if_neg hk.ne']
  obtain ⟨top, rest, hdr, hlen⟩ := drop_eq_cons hs
  rw [hdr, val_cons] at hc
  rw [hdr]
  have htotal : val low + radix ^ src.length * (top.toNat + t.toNat + radix * val rest) =
      val dest + m.toNat * val src := by
    linear_combination hc
  have hsum : top.toNat + t.toNat < radix := by
    have hlt : radix ^ src.length * (top.toNat + t.toNat) < radix ^ src.length * radix := by
      refine lt_of_le_of_lt ?_ hv
      rw [← htotal, Nat.mul_add (radix ^ src.length) (top.toNat + t.toNat)]
      omega
    exact Nat.lt_of_mul_lt_mul_left hlt
  have hadd : (top + t).toNat = top.toNat + t.toNat := by
    exact Nat.mod_eq_of_lt hsum
  have hw : t ≤ top + t := by
    rw [UInt32.le_iff_toNat_le, hadd]
    omega
  refine ⟨low ++ (top + t) :: rest, by simp [hw], by simp [hll]; omega, ?_⟩
  rw [val_append, hll, val_cons, hadd]
  exact htotal

theorem dwdMulSub_spec (m : UInt32) (h : src.length < dest.length) :
    ∃ rs c, dwdMulSub dest (src.length + 1) src m = .ok (rs, c) ∧ rs.length = dest.length ∧
      c.toNat ≤ 1 ∧ rs.drop (src.length + 1) = dest.drop (src.length + 1) ∧
      val rs + m.toNat * val src = val dest + radix ^ (src.length + 1) * c.toNat := by
  obtain ⟨low, t, hchain, hll, hc⟩ := mulSub_chain m h.le
  rw [dwdMulSub, if_neg (by omega), hchain]
  have ht := t.toNat_lt
  obtain ⟨top, rest, hdr, hlen⟩ := drop_eq_cons h
  rw [hdr, val_cons] at hc
  rw [hdr]
  have htop := top.toNat_lt
  have hrest : ∀ d, (low ++ d :: rest).drop (src.length + 1) = dest.drop (src.length + 1) := by
    intro d
    have h1 : dest.drop (src.length + 1) = rest := by
      rw [← drop_drop, hdr]
      rfl
    rw [h1, ← hll, drop_append]
    simp
  by_cases hw : t ≤ top
  · refine ⟨low ++ (top - t) :: rest, 0, by simp [hw], by simp [hll]; omega, by simp, hrest _, ?_⟩
    have hsub : (top - t).toNat + t.toNat = top.toNat := by
      rw [UInt32.le_iff_toNat_le] at hw
      rw [UInt32.toNat_sub]
      omega
    rw [val_append, hll, val_cons]
    simp only [UInt32.toNat_zero]
    linear_combination hc + radix ^ src.length * hsub
  · refine ⟨low ++ (top - t) :: rest, 1, by simp [hw, decDigits], by simp [hll]; omega, by simp,
      hrest _, ?_⟩
    have hsub : (top - t).toNat + t.toNat = top.toNat + radix := by
      rw [UInt32.le_iff_toNat_le] at hw
      rw [UInt32.toNat_sub, radix]
      omega
    rw [val_append, hll, val_cons, pow_succ]
    simp only [UInt32.toNat_one]
    linear_combination hc + radix ^ src.length * hsub

theorem mulRows_spec (src1 : List UInt32) {low : List UInt32} (hl : low.length = src1.length)
    (src2 tail : List UInt32) :
    (mulRows src1 (low ++ (List.replicate src2.length 0 ++ tail)) src2).length =
        src1.length + src2.length + tail.length ∧
      val (mulRows src1 (low ++ (List.replicate src2.length 0 ++ tail)) src2) =
        val low + val src1 * val src2 + radix ^ (src1.length + src2.length) * val tail := by
  induction src2 generalizing low with
  | nil => simp [mulRows, hl, val_append]
  | cons m ms ih =>
    have hle : src1.length ≤ (low ++ (List.replicate (m :: ms).length 0 ++ tail)).length := by
      simp [hl]
    obtain ⟨row, t, hchain, hll, hc⟩ := mulAdd_chain m hle
    rw [drop_left' hl, val_append low] at hc
    rw [mulRows]
    have hdrop : (low ++ (List.replicate (m :: ms).length 0 ++ tail)).drop (src1.length + 1) =
        List.replicate ms.length 0 ++ tail := by
      rw [← hl, drop_append]
      simp [replicate_succ]
    rw [hdrop, hchain]
    simp only
    have hsplit : row ++ t :: (List.replicate ms.length 0 ++ tail) =
        (row ++ [t]) ++ (List.replicate ms.length 0 ++ tail) := by simp
    have hrow : 1 ≤ (row ++ [t]).length := by simp
    rw [hsplit, take_append_of_le_length hrow, drop_append_of_le_length hrow]
    have hlen : ((row ++ [t]).drop 1).length = src1.length := by simp [hll]
    obtain ⟨h1, h2⟩ := ih hlen
    have htake : ((row ++ [t]).take 1).length = 1 := by simp
    have hval := val_take_add_drop (row ++ [t]) 1
    rw [val_append, val_singleton, hll, ← hl] at hval
    refine ⟨by rw [length_append, h1, htake, length_cons]; omega, ?_⟩
    rw [val_append, h2, htake, val_cons, length_cons]
    rw [← hl] at *
    have hp : radix ^ (low.length + (ms.length + 1)) = radix * radix ^ (low.length + ms.length) := by
      rw [← pow_succ']
      rfl
    linear_combination hc + hval.symm

theorem dwdMul_spec (dest src1 src2 : List UInt32) (h : src1.length + src2.length ≤ dest.length) :
    ∃ rs, dwdMul dest src1 src2 = .ok rs ∧ rs.length = dest.length ∧
      val (rs.take (src1.length + src2.length)) = val src1 * val src2 := by
  have hz : (List.replicate src1.length (0 : UInt32)).length = src1.length := by simp
  obtain ⟨hl, hv⟩ := mulRows_spec src1 hz src2 (dest.drop (src1.length + src2.length))
  rw [← append_assoc, replicate_append_replicate] at hl hv
  refine ⟨_, by rw [dwdMul, if_neg (by omega)], ?_, ?_⟩
  · rw [hl, length_drop]
    omega
  · have hlt : val src1 * val src2 < radix ^ (src1.length + src2.length) := by
      rw [pow_add]
      exact Nat.mul_lt_mul'' (val_lt src1) (val_lt src2)
    rw [val_take, hv, val_replicate_zero, Nat.zero_add, Nat.add_mul_mod_self_left,
      Nat.mod_eq_of_lt hlt]

end VDLinux.SecureBoot.Digit
