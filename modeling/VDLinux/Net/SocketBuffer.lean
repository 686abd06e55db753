import Mathlib

namespace VDLinux.Net

/-- The value of an `int` that is given an unsigned 32-bit value. -/
def asInt (u : UInt32) : ℤ := Int.bmod u.toNat (2 ^ 32)

structure NetDevice where
  ifindex : UInt32
  type : UInt16
  deriving DecidableEq, Repr

/-- `mem` is the memory from `skb->head` on; `data`, `network` and `mac` are offsets in it. The first
`headLen` bytes of the packet are at `data`, the others are in fragments. -/
structure Skb where
  mem : ℕ → UInt8
  data : ℕ
  headLen : ℕ
  frags : List UInt8
  network : ℕ
  mac : ℕ
  protocol : UInt16
  pktType : UInt8
  dev : Option NetDevice
  mark : UInt32
  queueMapping : UInt16
  len_lt : headLen + frags.length < 2 ^ 31

namespace Skb

def length (skb : Skb) : ℕ := skb.headLen + skb.frags.length

def len (skb : Skb) : UInt32 := UInt32.ofNat skb.length

def isNonlinear (skb : Skb) : Bool := skb.frags.length != 0

def dataByte (skb : Skb) (off : ℕ) : UInt8 := skb.mem (skb.data + off)

/-- The byte of the packet that `skb_copy_bits` finds at `off`. -/
def packetByte (skb : Skb) (off : ℕ) : UInt8 :=
  if off < skb.headLen then skb.dataByte off else skb.frags.getD (off - skb.headLen) 0

def linear (mem : ℕ → UInt8) (len : ℕ) (h : len < 2 ^ 31) : Skb where
  mem := mem
  data := 0
  headLen := len
  frags := []
  network := 0
  mac := 0
  protocol := 0
  pktType := 0
  dev := none
  mark := 0
  queueMapping := 0
  len_lt := h

/-- A pointer is what is read through it: the byte at each offset. -/
abbrev Pointer : Type := ℕ → UInt8

def headerPointer (skb : Skb) (offset len : ℕ) : Option Pointer :=
  if offset + len ≤ skb.headLen then some fun i => skb.dataByte (offset + i)
  else if offset + len ≤ skb.length then some fun i => skb.packetByte (offset + i)
  else none

end Skb

def skfAdOff : ℤ := -0x1000

def skfNetOff : ℤ := -0x100000

def skfLlOff : ℤ := -0x200000

/-- `__load_pointer`: an offset from the network or the link layer header. -/
def loadPointerSlow (skb : Skb) (k : ℤ) : Option Skb.Pointer :=
  let ptr := if k ≥ skfNetOff then some (skb.network + (k - skfNetOff).toNat)
    else if k ≥ skfLlOff then some (skb.mac + (k - skfLlOff).toNat)
    else none
  ptr.bind fun p => if p < skb.data + skb.headLen then some fun i => skb.mem (p + i) else none

def loadPointer (skb : Skb) (k : ℤ) (size : ℕ) : Option Skb.Pointer :=
  if k ≥ 0 then skb.headerPointer k.toNat size
  else if k ≥ skfAdOff then none
  else loadPointerSlow skb k

def getUnalignedBe (size : ℕ) (p : Skb.Pointer) : UInt32 :=
  (List.range size).foldl (fun v i => v <<< 8 ||| (p i).toUInt32) 0

def ntohs (n : UInt16) : UInt16 := n <<< 8 ||| n >>> 8

/-- What a walk over attributes found, as an offset, and the offsets of the bytes it read. -/
structure AttrWalk where
  reads : List ℕ
  found : Option ℕ
  deriving DecidableEq, Repr

def nlaHdrlen : ℕ := 4

def nlaLen (d : Skb.Pointer) (off : ℕ) : ℕ := (d off).toNat + 256 * (d (off + 1)).toNat

def nlaType (d : Skb.Pointer) (off : ℕ) : ℕ :=
  ((d (off + 2)).toNat + 256 * (d (off + 3)).toNat) % 2 ^ 14

def nlaAlign (n : ℕ) : ℕ := (n + 3) / 4 * 4

/-- The loop of `nla_find`. An attribute takes four bytes at least, so that as many rounds as there
are bytes are never used up. -/
def nlaFindLoop (d : Skb.Pointer) (attrtype : ℤ) : ℕ → ℕ → ℤ → AttrWalk
  | 0, _, _ => ⟨[], none⟩
  | fuel + 1, off, rem =>
    if rem < nlaHdrlen then ⟨[], none⟩
    else if nlaLen d off < nlaHdrlen ∨ rem < nlaLen d off then ⟨[off, off + 1], none⟩
    else if nlaType d off = attrtype then ⟨[off, off + 1, off + 2, off + 3], some off⟩
    else
      let totlen := nlaAlign (nlaLen d off)
      let rest := nlaFindLoop d attrtype fuel (off + totlen) (rem - totlen)
      ⟨[off, off + 1, off + 2, off + 3] ++ rest.reads, rest.found⟩

def nlaFind (d : Skb.Pointer) (head : ℕ) (len attrtype : ℤ) : AttrWalk :=
  nlaFindLoop d attrtype len.toNat head len

end VDLinux.Net
