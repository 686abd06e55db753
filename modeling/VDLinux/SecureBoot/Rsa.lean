import VDLinux.SecureBoot.ModExp

namespace VDLinux.SecureBoot

open Digit Base.Words Base.Outcome Base.Montgomery Nat

def CryptoRe.code : CryptoRe → ℤ
  | .success => 0
  | .error => -3000
  | .memoryAllocFail => -3001
  | .nullPointer => -3002
  | .msgTooLong => -3004
  | .invalidSign => -3011
  | .inverseNotExist => -3012
  | .negativeInput => -3013

/-- `CRYPTO_VALID_SIGN` is `CRYPTO_SUCCESS`. -/
def cryptoValidSign : ℤ := CryptoRe.success.code

def idNoPadding : ℕ := 1204

structure RsaContext where
  n : BigNum
  e : BigNum
  d : BigNum
  k : ℕ
  pm : ℕ
  deriving DecidableEq, Repr

def rsaBnBufSize (rsaKeyByteLen : ℕ) : ℕ := rsaKeyByteLen / 2 + 1

/-- The padding method is not set here, and nothing reads it before `SDRM_RSA_setNED` does. -/
def rsaInitCrt (keyByteLen : ℕ) : Run (Option RsaContext) := do
  let bn := bnAlloc (rsaBnBufSize keyByteLen)
  if ← kmalloc then return some ⟨bn, bn, bn, keyByteLen, 0⟩ else return none

def os2bnByte (dst : BigNum) (byte : UInt8) : Run BigNum := do
  let dst ← bnShl true dst dst 8
  let low ← digitAt dst.pData 0
  return { dst with
    length := if dst.length = 0 then 1 else dst.length
    pData := dst.pData.set 0 (low ^^^ byte.toUInt32) }

def os2bn (pbSrc : List UInt8) (dst : BigNum) : Run BigNum :=
  pbSrc.foldlM os2bnByte (bnClr dst)

def setPart (bn : BigNum) : Option (List UInt8) → Run BigNum
  | none => return bn
  | some bytes => do optimizeLength (← os2bn bytes bn)

def rsaSetNED (ctx : RsaContext) (paddingMethod : ℕ) (rsaN : List UInt8)
    (rsaE rsaD : Option (List UInt8)) : Run RsaContext := do
  let n ← setPart ctx.n (some rsaN)
  let e ← setPart ctx.e rsaE
  let d ← setPart ctx.d rsaD
  return { ctx with n := n, e := e, d := d, pm := paddingMethod }

/-- The code that is returned, and what `*result` holds afterwards. -/
def rsaVerify (ctx : RsaContext) (hash signature : List UInt8) (result : ℤ) :
    Run (CryptoRe × ℤ) := do
  let bn := bnAlloc (rsaBnBufSize ctx.k)
  if !(← kmalloc) then return (.memoryAllocFail, result)
  if ctx.k < hash.length then return (.msgTooLong, result)
  let sign ← os2bn signature bn
  let (retVal, dMsg) ← bnModExp bn sign ctx.e ctx.n
  if retVal ≠ .success then return (retVal, result)
  if ctx.pm = idNoPadding then
    let sign ← os2bn hash sign
    if (← bnCmp sign dMsg) = .eq then return (.success, cryptoValidSign)
    else return (.success, CryptoRe.invalidSign.code)
  else return (.success, result)

def os2ip (bytes : List UInt8) : ℕ := bytes.foldl (fun v byte => v * 256 + byte.toNat) 0

section Bytes

variable {x : BigNum} {size v : ℕ} {w : World}

theorem xor_byte {d : UInt32} (byte : UInt8) (h : d.toNat % 256 = 0) :
    (d ^^^ byte.toUInt32).toNat = d.toNat + byte.toNat := by
  have hb : byte.toNat < 2 ^ 8 := byte.toNat_lt
  have hd : d.toNat = 2 ^ 8 * (d.toNat / 256) := by omega
  rw [UInt32.toNat_xor, UInt8.toNat_toUInt32, hd]
  exact xor_of_lt hb

theorem os2bnByte_yields (byte : UInt8) (hx : Rep x size v) (hsz : 0 < size)
    (hfit : v * 256 + byte.toNat < radix ^ size) :
    Yields (os2bnByte x byte) w fun r => Rep r size (v * 256 + byte.toNat) := by
  apply Yields.bind (bnShl_byte_yields hx hsz ((Nat.le_add_right _ _).trans_lt hfit))
  rintro y ⟨hy, hlow⟩
  have hin : 0 < y.pData.length := hsz.trans_eq hy.size_eq.symm
  apply Yields.bind_lift (digitAt_eq hin)
  have hxor := xor_byte (d := y.pData.getD 0 0) byte (by
    rw [hlow, mod_mod_of_dvd _ (by decide)]
    omega)
  apply Yields.pure
  -- a number of no digits gets one for the byte
  have hm : (if y.length = 0 then 1 else y.length) = max y.length 1 := by
    split_ifs with h <;> omega
  have hold : val (y.pData.take (max y.length 1)) = v * 2 ^ 8 := by
    rcases Nat.eq_zero_or_pos y.length with h | h
    · have hz := val_getD (y.pData.take 1) 0
      have hlt := val_take_lt y.pData 1
      rw [getD_take Nat.one_pos, hlow, hy.eq_zero h, pow_zero, Nat.div_one, zero_mod,
        mod_eq_of_lt (by simpa using hlt)] at hz
      rw [h, hy.eq_zero h]
      exact hz.symm
    · rw [max_eq_left h]
      exact hy.value
  have hone : 0 < max y.length 1 := by omega
  have hset := val_set (y.pData.getD 0 0 ^^^ byte.toUInt32)
    (show 0 < (y.pData.take (max y.length 1)).length by rw [List.length_take]; omega)
  rw [getD_take hone, hxor, hold, ← List.take_set, pow_zero, Nat.one_mul, Nat.one_mul] at hset
  rw [hm]
  refine ⟨⟨by rw [BigNum.size, List.length_set]; exact hy.size_eq, ?_, ?_, ?_⟩, hy.sign⟩
  · exact Nat.max_le.mpr ⟨hy.length_le, hsz⟩
  · change val ((y.pData.set 0 _).take (max y.length 1)) = _
    omega
  · intro m hm0 hlt
    exact Nat.max_le.mpr ⟨hy.tight m hm0 ((Nat.le_add_right _ _).trans_lt hlt), hm0⟩

theorem os2bn_bytes (bytes : List UInt8) (hx : Rep x size v) (hsz : 0 < size)
    (hfit : (v + 1) * 256 ^ bytes.length ≤ radix ^ size) :
    Yields (bytes.foldlM os2bnByte x) w fun r =>
      Rep r size (bytes.foldl (fun v byte => v * 256 + byte.toNat) v) := by
  induction bytes generalizing x v with
  | nil => exact Yields.pure hx
  | cons byte bytes ih =>
    have hb := byte.toNat_lt
    have hnext : (v * 256 + byte.toNat + 1) * 256 ^ bytes.length ≤ radix ^ size := by
      refine le_trans ?_ hfit
      rw [List.length_cons, pow_succ', ← Nat.mul_assoc]
      exact Nat.mul_le_mul_right _ (by omega)
    have hlt : v * 256 + byte.toNat < radix ^ size :=
      (Nat.le_mul_of_pos_right _ (Nat.pow_pos (by decide))).trans hnext
    apply Yields.bind (os2bnByte_yields byte hx hsz hlt)
    intro y hy
    exact ih hy hnext

theorem os2bn_yields (dst : BigNum) (bytes : List UInt8) (hsz : 0 < dst.size)
    (hl : bytes.length ≤ 4 * dst.size) :
    Yields (os2bn bytes dst) w fun r => Rep r dst.size (os2ip bytes) := by
  have hclr : Rep (bnClr dst) dst.size 0 :=
    ⟨⟨size_bnAlloc _, Nat.zero_le _, rfl, fun m _ _ => Nat.zero_le m⟩, rfl⟩
  refine os2bn_bytes bytes hclr hsz ?_
  have hr : radix ^ dst.size = 256 ^ (4 * dst.size) := by
    rw [pow_mul]
    rfl
  rw [hr, Nat.zero_add, Nat.one_mul]
  exact Nat.pow_le_pow_right (by decide) hl

end Bytes

section Verify

variable {ctx : RsaContext} {hash signature : List UInt8} {mont : BigMont} {sn se n e : ℕ}

theorem rsaVerify_yields (result : ℤ) (hn : Rep ctx.n sn n) (hpos : 0 < n)
    (hsn : 2 * ctx.n.length + 1 ≤ sn) (he : Mag ctx.e se e)
    (hbuf : ctx.n.length + 1 ≤ rsaBnBufSize ctx.k) (hhash : hash.length ≤ ctx.k)
    (hsig : signature.length ≤ 4 * rsaBnBufSize ctx.k) (hpm : ctx.pm = idNoPadding)
    (hset : montSet (freshMont (max (rsaBnBufSize ctx.k) (max ctx.e.size ctx.n.size))) ctx.n ample =
      .ok (mont, ample))
    (hp : Parameters mont (max (rsaBnBufSize ctx.k) (max ctx.e.size ctx.n.size)) n ctx.n.length)
    (hk : ReductionsKeep n mont.n0.toNat ctx.n.length (os2ip signature % n) e) :
    Yields (rsaVerify ctx hash signature result) ample fun r => r = (CryptoRe.success,
      if os2ip hash = modExpValue n mont.n0.toNat ctx.n.length (os2ip signature % n) e
      then cryptoValidSign else CryptoRe.invalidSign.code) := by
  have hbs : (bnAlloc (rsaBnBufSize ctx.k)).size = rsaBnBufSize ctx.k := size_bnAlloc _
  have hdecode := os2bn_yields (w := ample) (bnAlloc (rsaBnBufSize ctx.k)) signature (by omega)
    (by omega)
  rw [hbs] at hdecode
  apply kmalloc_yields
  rw [if_neg (by omega)]
  apply Yields.bind hdecode
  intro sign hs
  have hss := hs.size_eq
  rw [← hss] at hset hp
  apply Yields.bind (bnModExp_yields (bnAlloc (rsaBnBufSize ctx.k)) hn hs he rfl (by omega) hsn hpos
    hset hp hk)
  rintro ⟨ret, dMsg⟩ ⟨hret, hmsg⟩
  subst hret
  simp only [ne_eq, not_true_eq_false, if_false, hpm, if_true]
  have hhl : hash.length ≤ 4 * sign.size := by
    rw [hss, rsaBnBufSize]
    omega
  apply Yields.bind (os2bn_yields sign hash (by omega) hhl)
  intro h hh
  apply Yields.bind_lift (bnCmp_eq hh.toMag hmsg.toMag)
  simp only [Nat.compare_eq_eq]
  split_ifs <;> exact Yields.pure rfl

theorem n0_unique {k k' : ℕ} (hk : k < radix) (hk' : k' < radix) (h : (k * n + 1) % radix = 0)
    (h' : (k' * n + 1) % radix = 0) : k = k' := by
  have hmul : k * n + 1 ≡ k' * n + 1 [MOD radix] := h.trans h'.symm
  have hcancel : k ≡ k' [MOD radix] :=
    Nat.ModEq.cancel_right_of_coprime (coprime_of_inverse h) (Nat.ModEq.add_right_cancel' 1 hmul)
  rwa [Nat.ModEq, mod_eq_of_lt hk, mod_eq_of_lt hk'] at hcancel

theorem established_parameters {modulus : BigNum} {d k : ℕ} (hn : Rep modulus sn n)
    (hsn : 2 * modulus.length + 1 ≤ sn) (hd : sn ≤ d) (hk : k < radix)
    (hinv : (k * n + 1) % radix = 0)
    (hest : ∃ mont, montSet (freshMont d) modulus ample = .ok (mont, ample) ∧
      Established mont modulus) :
    ∃ mont, montSet (freshMont d) modulus ample = .ok (mont, ample) ∧
      Parameters mont d n modulus.length ∧ mont.n0.toNat = k := by
  obtain ⟨mont, hset, hest⟩ := hest
  have hlow : 0 < n % radix := by
    apply Nat.pos_of_ne_zero
    intro h0
    rw [add_mod, mul_mod, h0, Nat.mul_zero] at hinv
    exact absurd hinv (by decide)
  obtain ⟨mont', hset', hp⟩ := montSet_yields hn hlow hsn hd
  obtain rfl : mont = mont' := by
    rw [hset, Except.ok.injEq, Prod.mk.injEq] at hset'
    exact hset'.1
  obtain rfl : modulus.value = n := hn.value
  exact ⟨mont, hset, hp, n0_unique hp.n0.lt hk (hp.established.mp hest) hinv⟩

/-- With constants that have been established, the exponentiation is exact and the verdict right as
long as every reduction keeps its digits. -/
theorem modExp_power {modulus exponent : BigNum} {k : ℕ} (hn : Rep modulus sn n)
    (hsn : 2 * modulus.length + 1 ≤ sn) (h1 : 1 < n) (he : Mag exponent se e) (hpos : 1 ≤ e)
    (hk : k < 2 ^ 32) (hinv : k * n % 2 ^ 32 = 2 ^ 32 - 1)
    (hest : ∀ d, sn ≤ d → ∃ mont, montSet (freshMont d) modulus ample = .ok (mont, ample) ∧
      Established mont modulus) :
    (∀ (dst base : BigNum) (sb b : ℕ), dst.sign = false → modulus.length + 1 ≤ dst.size →
      Rep base sb b → ReductionsKeep n k modulus.length (b % n) e →
      ∃ r, bnModExp dst base exponent modulus ample = .ok ((.success, r), ample) ∧
        r.value = b ^ e % n) ∧
    (∀ (ctx : RsaContext) (hash signature : List UInt8) (result : ℤ), ctx.n = modulus →
      ctx.e = exponent → ctx.pm = idNoPadding → 2 * modulus.length + 1 ≤ rsaBnBufSize ctx.k →
      signature.length ≤ 4 * rsaBnBufSize ctx.k → hash.length ≤ ctx.k →
      ReductionsKeep n k modulus.length (os2ip signature % n) e →
      ∃ r, rsaVerify ctx hash signature result ample = .ok ((.success, r), ample) ∧
        (r = cryptoValidSign ↔ os2ip signature ^ e % n = os2ip hash)) := by
  have hinv' : (k * n + 1) % radix = 0 := by
    rw [radix]
    omega
  have hvalue : ∀ b, modExpValue n k modulus.length (b % n) e = b ^ e % n := by
    intro b
    rw [modExpValue_eq hn.lt h1 hinv' (mod_lt _ (by omega)) hpos, ← pow_mod]
  constructor
  · intro dst base sb b hs hroom hb hkeep
    have hd : sn ≤ max base.size (max exponent.size modulus.size) := by
      have := hn.size_eq
      omega
    obtain ⟨mont, hset, hp, rfl⟩ := established_parameters hn hsn hd hk hinv' (hest _ hd)
    obtain ⟨⟨ret, r⟩, hrun, hret, hr⟩ := bnModExp_yields dst hn hb he hs hroom hsn (by omega) hset hp
      hkeep
    exact ⟨r, hret ▸ hrun, hr.value.trans (hvalue b)⟩
  · rintro ctx hash signature result rfl rfl hpm hbuf hsig hhash hkeep
    have hd : sn ≤ max (rsaBnBufSize ctx.k) (max ctx.e.size ctx.n.size) := by
      have := hn.size_eq
      omega
    obtain ⟨mont, hset, hp, rfl⟩ := established_parameters hn hsn hd hk hinv' (hest _ hd)
    obtain ⟨_, hrun, rfl⟩ := rsaVerify_yields result hn (by omega) hsn he (by omega) hhash hsig hpm
      hset hp hkeep
    refine ⟨_, hrun, ?_⟩
    rw [hvalue]
    split_ifs with hc
    · exact iff_of_true rfl hc.symm
    · exact iff_of_false (by decide) (Ne.symm hc)

theorem modExp_power_seven :
    (∃ r, bnModExp (bnAlloc 3) ⟨false, 1, [3, 0, 0]⟩ ⟨false, 1, [5, 0, 0]⟩ ⟨false, 1, [7, 0, 0]⟩ ample =
        .ok ((.success, r), ample) ∧ r.value = 3 ^ 5 % 7) ∧
      ∃ r, rsaVerify ⟨⟨false, 1, [7, 0, 0]⟩, ⟨false, 1, [5, 0, 0]⟩, bnAlloc 3, 4, idNoPadding⟩ [5] [3] 0
        ample = .ok ((.success, r), ample) ∧ (r = cryptoValidSign ↔ os2ip [3] ^ 5 % 7 = os2ip [5]) := by
  have rep_one : ∀ d : UInt32, d ≠ 0 → Rep ⟨false, 1, [d, 0, 0]⟩ 3 d.toNat := fun d hd => by
    have h := rep_of_top (x := ⟨false, 1, [d, 0, 0]⟩) rfl (Nat.le_add_left 1 2) hd
    simpa [BigNum.value, BigNum.size] using h
  have h7 := rep_one 7 (by decide)
  obtain ⟨hexp, hver⟩ := modExp_power (k := 1227133513) h7 (by decide) (by decide)
    (rep_one 5 (by decide)).toMag (by decide) (by decide) (by decide)
    (fun d hd => montSet_establishes h7 (by decide) (by decide) (by decide) hd)
  have hkeep : ∀ g, ReductionsKeep 7 1227133513 1 g 5 := fun g =>
    reductionsKeep_of_le_two (by decide) (by decide)
  exact ⟨hexp _ _ _ _ rfl (by decide) (rep_one 3 (by decide)) (hkeep _),
    hver ⟨⟨false, 1, [7, 0, 0]⟩, ⟨false, 1, [5, 0, 0]⟩, bnAlloc 3, 4, idNoPadding⟩ [5] [3] 0 rfl rfl rfl
      (by decide) (by decide) (by decide) (hkeep _)⟩

/-- A product of one digit loses the top of its reduction: for `n = 2 ^ 65 - 3` the first power of the
base comes out as its lowest digit, and the base is refused as the signature of itself. -/
theorem modExp_truncated :
    (montSet (freshMont 7) ⟨false, 3, [4294967293, 4294967295, 1, 0, 0, 0, 0]⟩ ample).toOption.map
        (fun p => decide (Established p.1 ⟨false, 3, [4294967293, 4294967295, 1, 0, 0, 0, 0]⟩)) =
        some true ∧
      (bnModExp (bnAlloc 7) ⟨false, 2, [4294967295, 2863311531, 0, 0, 0, 0, 0]⟩
        ⟨false, 1, [1, 0, 0, 0, 0, 0, 0]⟩ ⟨false, 3, [4294967293, 4294967295, 1, 0, 0, 0, 0]⟩
        ample).toOption.map (fun p => (p.1.1, p.1.2.value)) = some (.success, 4294967295) ∧
      12297829388199657471 ^ 1 % (2 ^ 65 - 3) ≠ 4294967295 ∧
      (rsaVerify ⟨⟨false, 3, [4294967293, 4294967295, 1, 0, 0, 0, 0]⟩, ⟨false, 1, [1, 0, 0, 0, 0, 0, 0]⟩,
        bnAlloc 7, 12, idNoPadding⟩ [170, 170, 170, 171, 255, 255, 255, 255]
        [170, 170, 170, 171, 255, 255, 255, 255] 0 ample).toOption.map (·.1) =
        some (.success, CryptoRe.invalidSign.code) := by
  decide +kernel

end Verify

def rsaContext (k : ℕ) : RsaContext :=
  ⟨bnAlloc (rsaBnBufSize k), bnAlloc (rsaBnBufSize k), bnAlloc (rsaBnBufSize k), k, 0⟩

/-- `SDRM_RSA_setNED` without a private key, then `SDRM_RSA_verify`. -/
def setAndVerify (k : ℕ) (rsaN rsaE hash signature : List UInt8) (result : ℤ) :
    Run (CryptoRe × ℤ) := do
  let ctx ← rsaSetNED (rsaContext k) idNoPadding rsaN (some rsaE) none
  rsaVerify ctx hash signature result

def digitCount (n : ℕ) : ℕ := (Nat.digits radix n).length

section Keys

variable {w : World} {k : ℕ} {rsaN rsaE hash signature : List UInt8}

theorem setPart_yields {bn : BigNum} {size : ℕ} (bytes : List UInt8) (hbn : bn.size = size)
    (hsz : 0 < size) (hl : bytes.length ≤ 4 * size) :
    Yields (setPart bn (some bytes)) w fun r => Reduced r size (os2ip bytes) := by
  subst hbn
  apply Yields.bind (os2bn_yields bn bytes hsz hl)
  intro x hx
  obtain ⟨y, hy, hcut, hs, -⟩ := hx.cut
  exact Yields.lift hy ⟨⟨hcut.toMag, hs.trans hx.sign⟩, hcut.zero⟩

structure KeySet (ctx : RsaContext) (k n e : ℕ) : Prop where
  n : Reduced ctx.n (rsaBnBufSize k) n
  e : Reduced ctx.e (rsaBnBufSize k) e
  k : ctx.k = k
  pm : ctx.pm = idNoPadding

theorem rsaSetNED_yields (rsaN rsaE : List UInt8) (hn : rsaN.length ≤ k) (he : rsaE.length ≤ k) :
    Yields (rsaSetNED (rsaContext k) idNoPadding rsaN (some rsaE) none) w fun ctx =>
      KeySet ctx k (os2ip rsaN) (os2ip rsaE) := by
  have hsize : (bnAlloc (rsaBnBufSize k)).size = rsaBnBufSize k := size_bnAlloc _
  have hbuf : k ≤ 4 * rsaBnBufSize k := by
    rw [rsaBnBufSize]
    omega
  apply Yields.bind (setPart_yields rsaN hsize (succ_pos _) (by omega))
  intro n hn'
  apply Yields.bind (setPart_yields rsaE hsize (succ_pos _) (by omega))
  intro e he'
  have hnone : Yields (setPart (rsaContext k).d none) w fun _ => True := ⟨_, rfl, trivial⟩
  apply Yields.bind hnone
  intro d _
  exact Yields.pure ⟨hn', he', rfl, rfl⟩

theorem os2ip_lt (bytes : List UInt8) : os2ip bytes < 256 ^ bytes.length := by
  have hgen : ∀ v, bytes.foldl (fun v byte => v * 256 + byte.toNat) v < (v + 1) * 256 ^ bytes.length := by
    induction bytes with
    | nil => intro v; simp
    | cons byte bytes ih =>
      intro v
      have hb := byte.toNat_lt
      refine (ih (v * 256 + byte.toNat)).trans_le ?_
      rw [List.length_cons, pow_succ', ← Nat.mul_assoc]
      exact Nat.mul_le_mul_right _ (by omega)
  have h := hgen 0
  rwa [Nat.zero_add, Nat.one_mul] at h

theorem digitCount_le {bytes : List UInt8} (hk : k % 4 = 0) (hl : bytes.length ≤ k) :
    digitCount (os2ip bytes) ≤ k / 4 := by
  apply (digits_length_le_iff one_lt_radix _).mpr
  have hr : radix ^ (k / 4) = 256 ^ k := by
    rw [← Nat.mul_div_cancel' (dvd_of_mod_eq_zero hk), Nat.mul_div_cancel_left _ (by decide), pow_mul]
    rfl
  rw [hr]
  exact (os2ip_lt bytes).trans_le (Nat.pow_le_pow_right (by decide) hl)

theorem modExpValue_power {n m b e : ℕ} (hn : 1 < n) (hinv : (m * n + 1) % radix = 0) (he : 1 ≤ e) :
    modExpValue n m (digitCount n) (b % n) e = b ^ e % n := by
  have hlt : n < radix ^ digitCount n := lt_base_pow_length_digits one_lt_radix
  rw [modExpValue_eq hlt hn hinv (mod_lt _ (by omega)) he, ← pow_mod]

theorem IsN0.unique {n a b : ℕ} (ha : IsN0 n a) (hb : IsN0 n b) : a = b := by
  by_cases h : n % radix = 1 ∨ n % 2 = 0
  · rw [ha.one h, hb.one h]
  · have h1 : n % radix ≠ 1 := fun h1 => h (Or.inl h1)
    have h2 : n % 2 = 1 := by omega
    exact n0_unique ha.lt hb.lt (ha.inverse h1 h2) (hb.inverse h1 h2)

/-- A run with enough memory, for a key length of whole digits and a modulus whose lowest digit is not
zero. -/
theorem setAndVerify_yields {m : ℕ} (result : ℤ) (hk : k % 4 = 0) (hn : rsaN.length ≤ k)
    (he : rsaE.length ≤ k) (hhash : hash.length ≤ k) (hsig : signature.length ≤ k)
    (hlow : os2ip rsaN % 2 ^ 32 ≠ 0) (h0 : IsN0 (os2ip rsaN) m)
    (hkeep : ReductionsKeep (os2ip rsaN) m (digitCount (os2ip rsaN)) (os2ip signature % os2ip rsaN)
      (os2ip rsaE)) :
    Yields (setAndVerify k rsaN rsaE hash signature result) ample fun r => r = (CryptoRe.success,
      if os2ip hash = modExpValue (os2ip rsaN) m (digitCount (os2ip rsaN))
        (os2ip signature % os2ip rsaN) (os2ip rsaE)
      then cryptoValidSign else CryptoRe.invalidSign.code) := by
  apply Yields.bind (rsaSetNED_yields rsaN rsaE hn he)
  rintro ctx ⟨hcn, hce, rfl, hpm⟩
  have hlen : ctx.n.length = digitCount (os2ip rsaN) := (digits_length_eq hcn.toMag hcn.zero).symm
  have hle := digitCount_le hk hn
  have hbuf : rsaBnBufSize ctx.k = ctx.k / 2 + 1 := rfl
  have hpos : 0 < os2ip rsaN := Nat.pos_of_ne_zero fun hz => hlow (by rw [hz, zero_mod])
  obtain ⟨mont, hset, hp⟩ := montSet_yields hcn.toRep (Nat.pos_of_ne_zero hlow)
    (show 2 * ctx.n.length + 1 ≤ rsaBnBufSize ctx.k by omega)
    (show rsaBnBufSize ctx.k ≤ max (rsaBnBufSize ctx.k) (max ctx.e.size ctx.n.size) by omega)
  obtain rfl := hp.n0.unique h0
  rw [← hlen] at hkeep ⊢
  exact rsaVerify_yields result hcn.toRep hpos (by omega) hce.toMag (by omega) hhash (by omega) hpm
    hset hp hkeep

/-- Nothing is read or written out of bounds and no copy is refused, as long as every reduction keeps
its digits. -/
theorem setAndVerify_inBounds {m : ℕ} (result : ℤ) (hk : k % 4 = 0) (hn : rsaN.length ≤ k)
    (he : rsaE.length ≤ k) (hhash : hash.length ≤ k) (hsig : signature.length ≤ k)
    (hlow : os2ip rsaN % 2 ^ 32 ≠ 0) (h0 : IsN0 (os2ip rsaN) m)
    (hkeep : ReductionsKeep (os2ip rsaN) m (digitCount (os2ip rsaN)) (os2ip signature % os2ip rsaN)
      (os2ip rsaE)) :
    ∃ out w, setAndVerify k rsaN rsaE hash signature result ample = .ok (out, w) ∧
      w.tooSmall = false := by
  obtain ⟨out, hrun, -⟩ := setAndVerify_yields result hk hn he hhash hsig hlow h0 hkeep
  exact ⟨out, ample, hrun, rfl⟩

theorem setAndVerify_inBounds_seven :
    ∃ out w, setAndVerify 4 [7] [5] [5] [3] 0 ample = .ok (out, w) ∧ w.tooSmall = false :=
  setAndVerify_inBounds (m := 1227133513) 0 (by decide) (by decide) (by decide) (by decide) (by decide)
    (by decide)
    ⟨by decide, by decide, fun _ _ => by decide, fun h => absurd h (by decide)⟩
    (reductionsKeep_of_le_two (lt_base_pow_length_digits one_lt_radix) (by decide))

def faultOf {α : Type} : Checked α → Option Fault
  | .ok _ => none
  | .error f => some f

/-- A modulus of zero, a key length of five bytes and, for `n = 3 * (2 ^ 64 - 1)`, a signature whose
product loses all of its digits: each makes the code leave an array. -/
theorem setAndVerify_outOfBounds :
    faultOf (setAndVerify 4 [0] [1] [1] [2] 0 ample) = some .outOfBounds ∧
      faultOf (setAndVerify 5 [1, 0, 0, 0, 3] [3] [1] [255, 255, 254] 0 ample) = some .outOfBounds ∧
      faultOf (setAndVerify 12 [2, 255, 255, 255, 255, 255, 255, 255, 253] [1] [1] [3, 0, 0, 0, 0] 0
        ample) = some .outOfBounds := by
  decide +kernel

end Keys

end VDLinux.SecureBoot
