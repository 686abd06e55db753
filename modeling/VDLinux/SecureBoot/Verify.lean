import VDLinux.SecureBoot.Rsa

namespace VDLinux.SecureBoot

open Digit Base.Words Base.Outcome Base.Montgomery

/-- The configurations that `publicKey.h` has a key for. -/
inductive Board
  | nt72688
  | amber
  | sdp1004
  | sdp1106
  | sdp1105
  | debug
  deriving DecidableEq, Repr

def gnBytes : Board → List UInt8
  | .nt72688 =>
    [0x94, 0x45, 0x26, 0x3d, 0x85, 0xcf, 0xd0, 0x47, 0x2f, 0xc3, 0xd4, 0xb5, 0x6d, 0xbf, 0xcc, 0x98,
     0x2a, 0xec, 0xa3, 0x68, 0xab, 0x6d, 0x06, 0xb6, 0xef, 0xff, 0xad, 0x02, 0x98, 0x92, 0xb2, 0x5f,
     0xcb, 0xf6, 0xbf, 0xc9, 0x98, 0xd2, 0x93, 0x4a, 0x08, 0x84, 0x3b, 0x0f, 0xe2, 0xad, 0x38, 0xdc,
     0xce, 0x6c, 0x6b, 0xd4, 0x09, 0x11, 0xbe, 0x19, 0x5f, 0xc6, 0x0b, 0xc6, 0xad, 0x6c, 0x6e, 0x9b,
     0x9b, 0x2b, 0x19, 0x98, 0x2e, 0x6d, 0x71, 0x51, 0x0a, 0x8c, 0x9e, 0x87, 0xdb, 0x8c, 0x8e, 0xcb,
     0xd4, 0x83, 0xa8, 0x15, 0xe7, 0xf1, 0x78, 0x03, 0x65, 0xad, 0x2f, 0xe9, 0x14, 0xec, 0x47, 0x7b,
     0xab, 0xb7, 0x1b, 0xc6, 0x49, 0xd8, 0xa2, 0xbc, 0x4a, 0xec, 0xcc, 0xd7, 0x31, 0xe5, 0x9e, 0x23,
     0x67, 0x90, 0xe0, 0x69, 0xce, 0x62, 0x38, 0xeb, 0x01, 0xfe, 0xce, 0x6a, 0xf5, 0xbe, 0x5e, 0xc1]
  | .amber =>
    [0x4d, 0x8a, 0xf7, 0x1c, 0x90, 0xf2, 0x11, 0x54, 0xc0, 0x5a, 0x5b, 0x6c, 0xaf, 0xed, 0xca, 0x61,
     0x2f, 0xdf, 0xb8, 0x34, 0xc7, 0x1c, 0x19, 0x8f, 0x51, 0x47, 0x02, 0x0f, 0xb7, 0x9f, 0xff, 0xdc,
     0xc5, 0x60, 0xe5, 0xd3, 0x62, 0xda, 0x8e, 0xd2, 0x0b, 0x0e, 0xe6, 0xae, 0x05, 0x61, 0x57, 0x03,
     0x6d, 0x88, 0x43, 0xa8, 0xe5, 0x7b, 0x95, 0x14, 0xce, 0x17, 0xba, 0xe9, 0xf7, 0x50, 0x54, 0x82,
     0x80, 0x36, 0x0f, 0xc7, 0x8c, 0x08, 0xd1, 0x39, 0xa8, 0x40, 0xa1, 0x6d, 0x6f, 0x70, 0x6e, 0x34,
     0x00, 0xe3, 0x0a, 0x0e, 0x6f, 0xdd, 0x66, 0x2a, 0x82, 0xe0, 0x18, 0x02, 0xcf, 0x3d, 0x11, 0x90,
     0x4c, 0xb0, 0x52, 0x9d, 0x6b, 0xa9, 0xc2, 0x7a, 0x06, 0x95, 0xeb, 0x0b, 0x6e, 0x85, 0xe5, 0x8e,
     0xf6, 0xc9, 0x2d, 0x6b, 0x1e, 0xb2, 0x44, 0x25, 0x4e, 0xc6, 0x3c, 0xdb, 0xc0, 0x65, 0xe0, 0x3d]
  | .sdp1004 =>
    [0xa7, 0x0a, 0xab, 0xdd, 0x28, 0xdc, 0x21, 0xfb, 0xa9, 0x61, 0xe8, 0xd7, 0x03, 0xf5, 0x6d, 0xf6,
     0x0b, 0x61, 0xa0, 0x92, 0xca, 0x35, 0x64, 0x94, 0x0a, 0x5d, 0x89, 0x6e, 0xcb, 0x79, 0xb4, 0x02,
     0x61, 0x1e, 0xb4, 0x5e, 0x1a, 0xe5, 0xcd, 0xc1, 0x9e, 0x85, 0xb4, 0xd2, 0x6b, 0x09, 0xd1, 0xcb,
     0xc3, 0xe0, 0xb7, 0xdf, 0xc9, 0x22, 0x7e, 0x73, 0xd2, 0x15, 0xf3, 0x5a, 0xd3, 0x4d, 0x48, 0x4c,
     0x24, 0x67, 0x15, 0x17, 0x60, 0xd9, 0x17, 0x46, 0x7a, 0x8d, 0x3c, 0x2c, 0x31, 0xee, 0x9d, 0x84,
     0x07, 0xdd, 0x15, 0x07, 0x5e, 0x23, 0xae, 0xe8, 0xab, 0xbc, 0xcf, 0x2b, 0xd8, 0xdc, 0x79, 0xdb,
     0x68, 0x94, 0x5f, 0x8b, 0x10, 0x9d, 0x20, 0x37, 0xff, 0xa9, 0x53, 0x50, 0xbb, 0x41, 0x15, 0xf8,
     0x7c, 0x66, 0x76, 0x50, 0x1d, 0x32, 0x76, 0x7e, 0x52, 0x19, 0x01, 0x20, 0xd5, 0x67, 0xa5, 0xbb]
  | .sdp1106 =>
    [0xa9, 0x3e, 0x8b, 0xbd, 0xa4, 0x40, 0x84, 0x38, 0x68, 0xe6, 0x88, 0x8e, 0xfb, 0x35, 0x6d, 0x99,
     0xdc, 0x1e, 0x88, 0x88, 0x33, 0x11, 0x2a, 0x2c, 0xe8, 0xb9, 0x3b, 0x2a, 0x6d, 0xb5, 0xaf, 0x18,
     0x82, 0x81, 0xa5, 0x0f, 0x6e, 0xb8, 0xb9, 0xaa, 0x5b, 0xa1, 0x0a, 0x02, 0x26, 0xda, 0xcc, 0x78,
     0x77, 0x70, 0x41, 0x73, 0x03, 0x01, 0x7a, 0x49, 0x29, 0x4f, 0x76, 0x6e, 0xce, 0x89, 0xa7, 0x83,
     0x20, 0xfb, 0x28, 0x0b, 0xe7, 0x05, 0x33, 0xc6, 0x78, 0x63, 0xa5, 0x36, 0xc3, 0xd7, 0xfa, 0xa9,
     0x2c, 0x96, 0xbc, 0x6c, 0xcb, 0x3b, 0x77, 0x39, 0x7d, 0x9f, 0x36, 0x54, 0x41, 0x6d, 0xd3, 0xb1,
     0xc7, 0xb2, 0xa9, 0x0e, 0x08, 0x5e, 0x45, 0xa3, 0x8c, 0xf7, 0x1e, 0x49, 0x23, 0x55, 0x8c, 0xc1,
     0x6c, 0x9e, 0x87, 0x85, 0x71, 0xb2, 0xe3, 0x47, 0x4e, 0xbb, 0x85, 0x1d, 0xcf, 0xcb, 0x35, 0x3f]
  | .sdp1105 =>
    [0x87, 0xad, 0x6d, 0xd8, 0x36, 0x89, 0x95, 0x2e, 0x68, 0xaa, 0x87, 0x09, 0xa4, 0x96, 0x87, 0x37,
     0x83, 0xc8, 0x45, 0xbf, 0x16, 0x60, 0xdb, 0xdf, 0xaa, 0x4d, 0xa6, 0x05, 0xcf, 0x9f, 0x88, 0xe2,
     0xf2, 0xdf, 0x49, 0xb1, 0x79, 0x63, 0x75, 0xc2, 0xf8, 0xf5, 0xbd, 0x2c, 0x8e, 0x2d, 0x96, 0x47,
     0xab, 0x19, 0xdf, 0xea, 0xd1, 0xb6, 0x10, 0x4f, 0x51, 0x68, 0x13, 0xe6, 0x6f, 0xdb, 0x00, 0x38,
     0x9e, 0xd1, 0x58, 0xa0, 0xab, 0xb9, 0x2d, 0x2f, 0x2c, 0xfb, 0x38, 0xa9, 0x86, 0xe5, 0x79, 0x4f,
     0x88, 0xf6, 0x58, 0x70, 0x2e, 0xc9, 0x22, 0x14, 0x83, 0x55, 0x2c, 0xf0, 0x59, 0x3b, 0xd4, 0x31,
     0xa0, 0x05, 0x85, 0x00, 0x83, 0xec, 0x81, 0x50, 0xd1, 0xeb, 0xbb, 0x09, 0x7e, 0xb6, 0x36, 0x1e,
     0x85, 0x04, 0x5c, 0x50, 0xf0, 0x73, 0x80, 0xc6, 0xe9, 0xe1, 0x2c, 0x60, 0x7d, 0xec, 0xbb, 0xf7]
  | .debug =>
    [0x72, 0x4f, 0x7b, 0xf9, 0xec, 0x2f, 0x17, 0x9c, 0xe3, 0x9a, 0xa8, 0x76, 0x9d, 0x89, 0xa5, 0x49,
     0xdb, 0x32, 0xa6, 0xcb, 0x53, 0x1a, 0xc2, 0x58, 0xea, 0x24, 0x7d, 0x38, 0x72, 0xcb, 0x8c, 0x55,
     0xa0, 0x1a, 0xb3, 0xc9, 0x30, 0x2d, 0x78, 0xcb, 0x7d, 0x44, 0x32, 0x4e, 0x5f, 0x81, 0x81, 0x63,
     0x48, 0x65, 0x08, 0x56, 0xe2, 0x21, 0xbb, 0x31, 0x71, 0x21, 0x46, 0x7f, 0xc5, 0x67, 0xcd, 0xcc,
     0x42, 0xea, 0x06, 0x5a, 0x04, 0x96, 0x3e, 0x4f, 0x5f, 0x60, 0x51, 0xca, 0x69, 0x00, 0x4f, 0x9f,
     0xb3, 0x06, 0x42, 0x78, 0xe2, 0x80, 0xcd, 0x00, 0xc7, 0xfc, 0xaf, 0xaa, 0x47, 0xfd, 0xc9, 0x49,
     0xd4, 0x1f, 0x8f, 0x9b, 0x47, 0x61, 0x74, 0xac, 0x9f, 0x3a, 0x45, 0x10, 0x72, 0x6a, 0x32, 0x39,
     0x25, 0x37, 0xc4, 0xbe, 0x62, 0x40, 0x30, 0x88, 0xa7, 0x33, 0x32, 0x98, 0x78, 0x97, 0xb4, 0xb5]

/-- A modulus for which the constants of the reduction come out right. -/
structure PublicKey where
  bytes : List UInt8
  length_eq : bytes.length = 128
  odd : os2ip bytes % 2 = 1
  low : os2ip bytes % 2 ^ 32 ≠ 1

def gn (board : Board) : PublicKey where
  bytes := gnBytes board
  length_eq := by cases board <;> decide +kernel
  odd := by cases board <;> decide +kernel
  low := by cases board <;> decide +kernel

def PublicKey.modulus (key : PublicKey) : ℕ := os2ip key.bytes

def ge : List UInt8 := [0x01, 0x00, 0x01]

/-- The call of `DS_verify`, with its code and the verdict. The verdict starts as zero. -/
def dsVerify (key : PublicKey) (pText signature : List UInt8) : Run (CryptoRe × ℤ) :=
  setAndVerify 128 key.bytes ge (pText.take 128) signature 0

/-- The code of `DS_verify` is not read. -/
def verifyRsaSignature (key : PublicKey) (pText signature : List UInt8) : Run CryptoRe := do
  let (_, result) ← dsVerify key pText signature
  return if result = cryptoValidSign then .success else .error

/-- What the boot relies on, whatever allocations fail: success only for a verification that has run to
its end on a signature of the text, and none after an error. -/
def FailsClosed (key : PublicKey) (pText signature : List UInt8) (w : World) : Prop :=
  ∀ ret result w', dsVerify key pText signature w = .ok ((ret, result), w') →
    ∃ out, verifyRsaSignature key pText signature w = .ok (out, w') ∧
      (out = .success →
        ret = .success ∧ os2ip signature ^ 65537 % key.modulus = os2ip pText) ∧
      (ret ≠ .success → out = .error)

section Verdict

variable {key : PublicKey} {pText signature : List UInt8} {w : World}

theorem verifyRsaSignature_eq {ret : CryptoRe} {result : ℤ} {w' : World}
    (h : dsVerify key pText signature w = .ok ((ret, result), w')) :
    verifyRsaSignature key pText signature w =
      .ok (if result = cryptoValidSign then .success else .error, w') :=
  bind_eq h

/-- Without memory for its own numbers, or for those of the exponentiation, the verification returns at
once and leaves the verdict at zero. -/
theorem dsVerify_refused (hsig : signature.length ≤ 128)
    (hw : ¬ (w.answers 0 = true ∧ w.answers 1 = true)) :
    ∃ w', dsVerify key pText signature w = .ok ((.memoryAllocFail, 0), w') := by
  obtain ⟨ctx, hrun, hset⟩ := rsaSetNED_yields (w := w) key.bytes ge key.length_eq.le (by decide)
  have hsize : (bnAlloc (rsaBnBufSize ctx.k)).size = rsaBnBufSize ctx.k := size_bnAlloc _
  rw [dsVerify, setAndVerify, bind_eq hrun, rsaVerify, bind_eq rfl]
  cases h0 : w.answers 0 with
  | false => exact ⟨_, rfl⟩
  | true =>
    have h1 : w.answers 1 = false := by
      cases h1 : w.answers 1 with
      | false => rfl
      | true => exact absurd ⟨h0, h1⟩ hw
    simp only [Bool.not_true, Bool.false_eq_true, if_false]
    rw [if_neg (by rw [hset.k, List.length_take]; omega)]
    obtain ⟨sign, hsign, -⟩ := os2bn_yields
      (w := { w with answers := fun i => w.answers (i + 1) }) (bnAlloc (rsaBnBufSize ctx.k)) signature
      (by exact Nat.succ_pos _) (by rw [hsize, hset.k]; exact hsig.trans (by decide))
    rw [bind_eq hsign]
    have hmem : kmalloc { w with answers := fun i => w.answers (i + 1) } =
        .ok (false, { w with answers := fun i => w.answers (i + 1 + 1) }) := by
      rw [← h1]
      rfl
    have hexp : bnModExp (bnAlloc (rsaBnBufSize ctx.k)) sign ctx.e ctx.n
        { w with answers := fun i => w.answers (i + 1) } =
        .ok ((.memoryAllocFail, bnAlloc (rsaBnBufSize ctx.k)),
          { w with answers := fun i => w.answers (i + 1 + 1) }) := by
      rw [bnModExp, bind_eq hmem]
      rfl
    rw [bind_eq hexp]
    exact ⟨_, rfl⟩

theorem PublicKey.isN0 {m : ℕ} (hm : m < 2 ^ 32) (hinv : m * key.modulus % 2 ^ 32 = 2 ^ 32 - 1) :
    IsN0 key.modulus m where
  odd := by
    have hprod : m * key.modulus % 2 = 1 := by omega
    rw [Nat.mul_mod] at hprod
    rcases Nat.mod_two_eq_zero_or_one m with h | h
    · rw [h, Nat.zero_mul] at hprod
      exact absurd hprod (by decide)
    · exact h
  lt := hm
  inverse := fun _ _ => by
    rw [radix]
    omega
  one := fun h => by
    have h1 := key.odd
    have h2 := key.low
    rcases h with h | h
    · exact absurd h h2
    · exact absurd (h1.symm.trans h) (by decide)

theorem world_ample (htail : ∀ i, 2 ≤ i → w.answers i = true) (hclean : w.tooSmall = false)
    (h0 : w.answers 0 = true) (h1 : w.answers 1 = true) : w = ample := by
  obtain ⟨answers, tooSmall⟩ := w
  obtain rfl : tooSmall = false := hclean
  have hall : answers = fun _ => true := by
    funext i
    match i with
    | 0 => exact h0
    | 1 => exact h1
    | i + 2 => exact htail _ (Nat.le_add_left 2 i)
  rw [hall]
  rfl

end Verdict

end VDLinux.SecureBoot
