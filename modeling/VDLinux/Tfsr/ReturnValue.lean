import Mathlib

namespace VDLinux.Tfsr.ReturnValue

/-- `FSR_RETURN_VALUE`: error bit, layer, major and minor value. -/
def fsrReturnValue (err lay maj min : ℕ) : BitVec 32 :=
  BitVec.ofNat 32 (err &&& 0x1) <<< 31 ||| BitVec.ofNat 32 (lay &&& 0x7) <<< 28 |||
    BitVec.ofNat 32 (maj &&& 0xFFF) <<< 16 ||| BitVec.ofNat 32 (min &&& 0xFFFF)

def fsrBmlSuccess : BitVec 32 := fsrReturnValue 0 1 0x0000 0x0000
def fsrBmlInvalidParam : BitVec 32 := fsrReturnValue 1 1 0x0002 0x0000
def fsrBmlAcquireSmError : BitVec 32 := fsrReturnValue 1 1 0x0007 0x0000
def fsrBmlReleaseSmError : BitVec 32 := fsrReturnValue 1 1 0x0008 0x0000
def fsrBmlReadError : BitVec 32 := fsrReturnValue 1 1 0x000C 0x0000
def fsrBmlInvalidPartition : BitVec 32 := fsrReturnValue 1 1 0x001F 0x0000
def fsrBml1LvReadDisturbanceError : BitVec 32 := fsrReturnValue 1 1 0x0052 0x0000
def fsrBml2LvReadDisturbanceError : BitVec 32 := fsrReturnValue 1 1 0x0053 0x0000
def fsrBmlUnsupportedUnits : BitVec 32 := fsrReturnValue 1 1 0x0000 0x0029
def fsrBmlOverlappedPartition : BitVec 32 := fsrReturnValue 1 1 0x0000 0x002A
def fsrBmlUnusedArea : BitVec 32 := fsrReturnValue 1 1 0x0000 0x002B

/-- The error bit and the layer of the block management layer. -/
def IsBmlError (c : BitVec 32) : Prop := c &&& 0xF0000000 = 0x90000000

instance (c : BitVec 32) : Decidable (IsBmlError c) := inferInstanceAs (Decidable (_ = _))

theorem IsBmlError.and_ne_zero {c d : BitVec 32} (hc : IsBmlError c) (hd : IsBmlError d) : c &&& d ≠ 0 := by
  have hbit : ∀ {x : BitVec 32}, IsBmlError x → x.getLsbD 31 = true := by
    intro x hx
    have h := congrArg (fun v : BitVec 32 => v.getLsbD 31) hx
    simpa using h
  intro h
  have h31 := congrArg (fun v : BitVec 32 => v.getLsbD 31) h
  rw [BitVec.getLsbD_and, hbit hc, hbit hd] at h31
  exact absurd h31 (by decide)

end VDLinux.Tfsr.ReturnValue
