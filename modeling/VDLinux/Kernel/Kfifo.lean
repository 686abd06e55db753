import VDLinux.Base.Refinement
import VDLinux.Base.Ring

namespace VDLinux.Kernel

open Base.Ring Base.Refinement List UInt32

/-- `struct kfifo`, with `inPos` and `outPos` for its counters `in` and `out`. -/
structure Kfifo where
  buffer : List UInt8
  size : UInt32
  inPos : UInt32
  outPos : UInt32
  deriving DecidableEq, Repr

def kfifoReset (fifo : Kfifo) : Kfifo := { fifo with inPos := 0, outPos := 0 }

def kfifoInit (buffer : List UInt8) (size : UInt32) : Kfifo := kfifoReset ⟨buffer, size, 0, 0⟩

def kfifoResetOut (fifo : Kfifo) : Kfifo := { fifo with outPos := fifo.inPos }

def kfifoLen (fifo : Kfifo) : UInt32 := fifo.inPos - fifo.outPos

def kfifoAvail (fifo : Kfifo) : UInt32 := fifo.size - kfifoLen fifo

def kfifoAddOut (fifo : Kfifo) (off : UInt32) : Kfifo := { fifo with outPos := fifo.outPos + off }

def kfifoAddIn (fifo : Kfifo) (off : UInt32) : Kfifo := { fifo with inPos := fifo.inPos + off }

def kfifoOff (fifo : Kfifo) (off : UInt32) : UInt32 := off &&& (fifo.size - 1)

def kfifoSkip (fifo : Kfifo) (len : UInt32) : Kfifo :=
  if len < kfifoLen fifo then kfifoAddOut fifo len else kfifoResetOut fifo

def kfifoInData (fifo : Kfifo) (src : List UInt8) (len off : UInt32) : Kfifo :=
  let off := kfifoOff fifo (fifo.inPos + off)
  let l := min len (fifo.size - off)
  let buffer := overwrite fifo.buffer off.toNat (src.take l.toNat)
  { fifo with buffer := overwrite buffer 0 ((src.drop l.toNat).take (len - l).toNat) }

def kfifoOutData (fifo : Kfifo) (len off : UInt32) : List UInt8 :=
  let off := kfifoOff fifo (fifo.outPos + off)
  let l := min len (fifo.size - off)
  (fifo.buffer.drop off.toNat).take l.toNat ++ fifo.buffer.take (len - l).toNat

def kfifoIn (fifo : Kfifo) (src : List UInt8) (len : UInt32) : Kfifo × UInt32 :=
  let len := min (kfifoAvail fifo) len
  (kfifoAddIn (kfifoInData fifo src len 0) len, len)

def kfifoOut (fifo : Kfifo) (len : UInt32) : Kfifo × List UInt8 × UInt32 :=
  let len := min (kfifoLen fifo) len
  (kfifoAddOut fifo len, kfifoOutData fifo len 0, len)

def kfifoOutPeek (fifo : Kfifo) (len offset : UInt32) : Kfifo × List UInt8 × UInt32 :=
  let len := min (kfifoLen fifo) (len + offset)
  (fifo, kfifoOutData fifo len offset, len)

/-- A call, with a block of bytes whose length is an `unsigned int`. -/
inductive Kfifo.Call
  | put (data : List UInt8) (h : data.length < 2 ^ 32)
  | out (len : UInt32)
  | skip (len : UInt32)
  | reset

/-- The number that the call returns, and the bytes it delivers. -/
def Kfifo.step (fifo : Kfifo) : Kfifo.Call → Kfifo × (ℕ × List UInt8)
  | .put data _ =>
    let (fifo, n) := kfifoIn fifo data data.length.toUInt32
    (fifo, (n.toNat, []))
  | .out len =>
    let (fifo, bytes, n) := kfifoOut fifo len
    (fifo, (n.toNat, bytes))
  | .skip len => (kfifoSkip fifo len, (0, []))
  | .reset => (kfifoReset fifo, (0, []))

structure ByteQueue (cap : ℕ) where
  bytes : List UInt8
  bounded : bytes.length ≤ cap

namespace ByteQueue

variable {cap : ℕ}

def append (q : ByteQueue cap) (data : List UInt8) : ByteQueue cap where
  bytes := q.bytes ++ data.take (cap - q.bytes.length)
  bounded := by
    have := q.bounded
    rw [length_append, length_take]
    omega

def remove (q : ByteQueue cap) (n : ℕ) : ByteQueue cap where
  bytes := q.bytes.drop n
  bounded := by
    have := q.bounded
    rw [length_drop]
    omega

def empty : ByteQueue cap := ⟨[], Nat.zero_le cap⟩

def step (q : ByteQueue cap) : Kfifo.Call → ByteQueue cap × (ℕ × List UInt8)
  | .put data _ => (q.append data, (min data.length (cap - q.bytes.length), []))
  | .out len => (q.remove len.toNat, (min len.toNat q.bytes.length, q.bytes.take len.toNat))
  | .skip len => (q.remove len.toNat, (0, []))
  | .reset => (empty, (0, []))

end ByteQueue

/-- What the counters and the buffer of a fifo satisfy: its size is a power of two and no more than
that many bytes are in it. -/
structure Kfifo.Wf (fifo : Kfifo) : Prop where
  pow : ∃ k, fifo.size.toNat = 2 ^ k
  buffer_length : fifo.buffer.length = fifo.size.toNat
  len_le : kfifoLen fifo ≤ fifo.size

def Kfifo.contents (fifo : Kfifo) : List UInt8 :=
  (fifo.buffer.rotate fifo.outPos.toNat).take (kfifoLen fifo).toNat

def Kfifo.queue (fifo : Kfifo) (h : fifo.Wf) : ByteQueue fifo.size.toNat where
  bytes := fifo.contents
  bounded := (length_take_le _ _).trans (le_iff_toNat_le.mp h.len_le)

theorem kfifoInit_wf {buffer : List UInt8} {size : UInt32} (hp : ∃ k, size.toNat = 2 ^ k)
    (hl : buffer.length = size.toNat) : (kfifoInit buffer size).Wf :=
  ⟨hp, hl, by simp [kfifoLen, kfifoInit, kfifoReset]⟩

/-- The buffer holds `q` from the out counter on, and the counters are `q.length` apart. -/
structure Kfifo.Represents (fifo : Kfifo) (q : List UInt8) : Prop where
  pow : ∃ k, fifo.size.toNat = 2 ^ k
  buffer_length : fifo.buffer.length = fifo.size.toNat
  holds : Holds fifo.buffer fifo.outPos.toNat q
  len : (kfifoLen fifo).toNat = q.length

namespace Kfifo

variable {fifo : Kfifo} {q : List UInt8}

theorem Wf.represents (h : fifo.Wf) : fifo.Represents fifo.contents where
  pow := h.pow
  buffer_length := h.buffer_length
  holds := List.take_prefix _ _
  len := by
    have hle := le_iff_toNat_le.mp h.len_le
    rw [contents, length_take, length_rotate, h.buffer_length]
    omega

variable (h : fifo.Represents q)
include h

theorem Represents.contents_eq : fifo.contents = q := by
  obtain ⟨rest, hrest⟩ := h.holds
  rw [contents, h.len, ← hrest, take_left]

theorem Represents.pos : 0 < fifo.buffer.length := by
  obtain ⟨k, hk⟩ := h.pow
  rw [h.buffer_length, hk]
  exact Nat.two_pow_pos k

theorem Represents.length_le : q.length ≤ fifo.size.toNat :=
  h.holds.length_le.trans_eq h.buffer_length

theorem Represents.dvd : fifo.size.toNat ∣ 2 ^ 32 := by
  obtain ⟨k, hk⟩ := h.pow
  rw [hk]
  apply Nat.pow_dvd_pow
  have := fifo.size.toNat_lt
  rw [hk] at this
  exact (Nat.pow_lt_pow_iff_right (by decide)).mp this |>.le

theorem Represents.wrap (x : ℕ) : x % 2 ^ 32 % fifo.buffer.length = x % fifo.buffer.length := by
  rw [h.buffer_length]
  exact Nat.mod_mod_of_dvd x h.dvd

theorem Represents.off (x : UInt32) : (kfifoOff fifo x).toNat = x.toNat % fifo.buffer.length := by
  obtain ⟨k, hk⟩ := h.pow
  have hpos := Nat.two_pow_pos k
  have hsub : (fifo.size - 1).toNat = 2 ^ k - 1 := by
    rw [UInt32.toNat_sub_of_le _ _ (le_iff_toNat_le.mpr (by rw [hk]; exact hpos)), hk]
    rfl
  rw [kfifoOff, UInt32.toNat_and, hsub, Nat.and_two_pow_sub_one_eq_mod, h.buffer_length, hk]

theorem Represents.inPos :
    fifo.inPos.toNat % fifo.buffer.length = (fifo.outPos.toNat + q.length) % fifo.buffer.length := by
  have hin : fifo.inPos = fifo.outPos + kfifoLen fifo := by
    rw [kfifoLen, UInt32.add_comm, UInt32.sub_add_cancel]
  rw [hin, UInt32.toNat_add, h.len, h.wrap]

omit h

theorem toNat_min (a b : UInt32) : (min a b).toNat = min a.toNat b.toNat := by
  rw [UInt32.min_def, Nat.min_def]
  simp only [le_iff_toNat_le]
  split_ifs <;> rfl

variable (h : fifo.Represents q)
include h

theorem Represents.split (x len : UInt32) : (min len (fifo.size - kfifoOff fifo x)).toNat =
        min len.toNat (fifo.buffer.length - x.toNat % fifo.buffer.length) ∧
      (len - min len (fifo.size - kfifoOff fifo x)).toNat =
        len.toNat - min len.toNat (fifo.buffer.length - x.toNat % fifo.buffer.length) := by
  have hoff := h.off x
  have hle : kfifoOff fifo x ≤ fifo.size := by
    rw [le_iff_toNat_le, hoff, ← h.buffer_length]
    exact (Nat.mod_lt _ h.pos).le
  have hmin : (min len (fifo.size - kfifoOff fifo x)).toNat =
      min len.toNat (fifo.buffer.length - x.toNat % fifo.buffer.length) := by
    rw [toNat_min, UInt32.toNat_sub_of_le _ _ hle, hoff, h.buffer_length]
  refine ⟨hmin, ?_⟩
  rw [UInt32.toNat_sub_of_le _ _ (le_iff_toNat_le.mpr (by omega)), hmin]

theorem Represents.inData {src : List UInt8} {len : UInt32} (hlen : len.toNat ≤ src.length) :
    kfifoInData fifo src len 0 =
      { fifo with buffer := store fifo.buffer fifo.inPos.toNat (src.take len.toNat) } := by
  obtain ⟨h1, h2⟩ := h.split fifo.inPos len
  have hl : (src.take len.toNat).length = len.toNat := by
    rw [length_take]
    exact Nat.min_eq_left hlen
  rw [kfifoInData, UInt32.add_zero, store]
  simp only [h1, h2, h.off, hl]
  rw [take_take, Nat.min_eq_left (Nat.min_le_left _ _), drop_take]

theorem Represents.outData (len off : UInt32) :
    kfifoOutData fifo len off = load fifo.buffer (fifo.outPos + off).toNat len.toNat := by
  obtain ⟨h1, h2⟩ := h.split (fifo.outPos + off) len
  rw [kfifoOutData, load]
  simp only [h1, h2, h.off]

theorem Represents.addOut {n : UInt32} (hn : n.toNat ≤ q.length) :
    (kfifoAddOut fifo n).Represents (q.drop n.toNat) where
  pow := h.pow
  buffer_length := h.buffer_length
  holds := by
    refine (h.holds.skip hn).of_mod ?_
    rw [kfifoAddOut, UInt32.toNat_add, h.wrap]
  len := by
    have hsub : fifo.inPos - (fifo.outPos + n) = kfifoLen fifo - n := by
      rw [kfifoLen]
      grind
    have hle : n ≤ kfifoLen fifo := by
      rw [le_iff_toNat_le, h.len]
      exact hn
    rw [kfifoLen, kfifoAddOut]
    rw [hsub, UInt32.toNat_sub_of_le _ _ hle, h.len, length_drop]

theorem Represents.empty {x : UInt32} : Represents { fifo with inPos := x, outPos := x } [] where
  pow := h.pow
  buffer_length := h.buffer_length
  holds := List.nil_prefix
  len := by simp [kfifoLen]

theorem Represents.skip (n : UInt32) : (kfifoSkip fifo n).Represents (q.drop n.toNat) := by
  rw [kfifoSkip]
  split_ifs with hc
  · rw [lt_iff_toNat_lt, h.len] at hc
    exact h.addOut hc.le
  · rw [lt_iff_toNat_lt, h.len, Nat.not_lt] at hc
    rw [drop_eq_nil_of_le hc]
    exact h.empty

theorem Represents.put {data : List UInt8} (hd : data.length < 2 ^ 32) :
    (kfifoIn fifo data data.length.toUInt32).1.Represents
        (q ++ data.take (fifo.size.toNat - q.length)) ∧
      (kfifoIn fifo data data.length.toUInt32).2.toNat =
        min data.length (fifo.size.toNat - q.length) := by
  have hle := h.length_le
  have hlen : (data.length.toUInt32).toNat = data.length := by
    exact Nat.mod_eq_of_lt hd
  have havail : (kfifoAvail fifo).toNat = fifo.size.toNat - q.length := by
    rw [kfifoAvail, UInt32.toNat_sub_of_le _ _ (le_iff_toNat_le.mpr (by rw [h.len]; exact hle)),
      h.len]
  have hn : (min (kfifoAvail fifo) data.length.toUInt32).toNat =
      min data.length (fifo.size.toNat - q.length) := by
    rw [toNat_min, havail, hlen, Nat.min_comm]
  refine ⟨?_, hn⟩
  have hmin : data.take (min data.length (fifo.size.toNat - q.length)) =
      data.take (fifo.size.toNat - q.length) := by
    rw [Nat.min_comm, ← take_take, take_length]
  rw [kfifoIn, h.inData (by rw [hn]; exact Nat.min_le_left _ _), hn, hmin]
  have hfit : q.length + (data.take (fifo.size.toNat - q.length)).length ≤ fifo.buffer.length := by
    rw [h.buffer_length, length_take]
    omega
  have hstore := h.holds.store h.pos _ hfit
  have hlength := length_store h.pos (fifo.outPos.toNat + q.length)
    (data.take (fifo.size.toNat - q.length)) (by omega)
  rw [← store_of_mod h.inPos] at hstore hlength
  refine ⟨h.pow, hlength.trans h.buffer_length, hstore, ?_⟩
  -- the new length cannot wrap: it is at most the size
  have hadd : ∀ b n, kfifoLen (kfifoAddIn { fifo with buffer := b } n) = kfifoLen fifo + n := by
    intro b n
    simp only [kfifoLen, kfifoAddIn]
    grind
  have hsize := fifo.size.toNat_lt
  rw [hadd, UInt32.toNat_add, h.len, hn, length_append, length_take, Nat.min_comm,
    Nat.mod_eq_of_lt (by omega)]

theorem Represents.out (len : UInt32) : (kfifoOut fifo len).1.Represents (q.drop len.toNat) ∧
      (kfifoOut fifo len).2.1 = q.take len.toNat ∧
      (kfifoOut fifo len).2.2.toNat = min len.toNat q.length := by
  have hn : (min (kfifoLen fifo) len).toNat = min len.toNat q.length := by
    rw [toNat_min, h.len, Nat.min_comm]
  have hle : (min (kfifoLen fifo) len).toNat ≤ q.length := by
    rw [hn]
    exact Nat.min_le_right _ _
  have hdrop : q.drop (min len.toNat q.length) = q.drop len.toNat := by
    rcases Nat.le_total len.toNat q.length with hc | hc
    · rw [Nat.min_eq_left hc]
    · rw [Nat.min_eq_right hc, drop_length, drop_eq_nil_of_le hc]
  have htake : q.take (min len.toNat q.length) = q.take len.toNat := by
    rw [← take_take, take_length]
  refine ⟨?_, ?_, hn⟩
  · have hadd := h.addOut hle
    rwa [hn, hdrop] at hadd
  · rw [kfifoOut, h.outData, UInt32.add_zero, h.holds.load h.pos hle, hn, htake]

theorem Represents.peekData {n offset : UInt32} (hn : n.toNat ≤ q.length - offset.toNat) :
    kfifoOutData fifo n offset = (q.drop offset.toNat).take n.toNat := by
  rw [h.outData]
  rcases Nat.le_total offset.toNat q.length with hle | hle
  · have hskip : Holds fifo.buffer (fifo.outPos + offset).toNat (q.drop offset.toNat) :=
      (h.holds.skip hle).of_mod (by rw [UInt32.toNat_add, h.wrap])
    exact hskip.load h.pos (by rwa [length_drop])
  · have hzero : n.toNat = 0 := by omega
    simp [hzero, load]

omit h

/-- The bytes from `offset` on are copied as far as the queue goes and `len` allows, and the fifo stays as
it is. -/
def Peeked (fifo : Kfifo) (len offset : ℕ) (r : Kfifo × List UInt8 × UInt32) : Prop :=
  r.1 = fifo ∧ r.2.1 = (fifo.contents.drop offset).take len ∧ r.2.2.toNat = r.2.1.length

theorem kfifoOutPeek_iff (fifo : Kfifo) (h : fifo.Wf) (len offset : UInt32) :
    Peeked fifo len.toNat offset.toNat (kfifoOutPeek fifo len offset) ↔
      offset = 0 ∨ fifo.contents = [] ∨ (2 ^ 32 ≤ len.toNat + offset.toNat ∧
        min fifo.contents.length (len.toNat + offset.toNat - 2 ^ 32) =
          min len.toNat (fifo.contents.length - offset.toNat)) := by
  have hr := h.represents
  have hn : (min (kfifoLen fifo) (len + offset)).toNat =
      min fifo.contents.length ((len.toNat + offset.toNat) % 2 ^ 32) := by
    rw [toNat_min, hr.len, UInt32.toNat_add]
  have hlen := len.toNat_lt
  have hoff := offset.toNat_lt
  have hcount : (min (kfifoLen fifo) (len + offset)).toNat = min len.toNat (fifo.contents.length - offset.toNat) ↔
      offset = 0 ∨ fifo.contents = [] ∨ (2 ^ 32 ≤ len.toNat + offset.toNat ∧
        min fifo.contents.length (len.toNat + offset.toNat - 2 ^ 32) =
          min len.toNat (fifo.contents.length - offset.toNat)) := by
    rw [hn, ← length_eq_zero_iff, ← UInt32.toNat_inj, UInt32.toNat_zero]
    omega
  rw [← hcount]
  simp only [Peeked, kfifoOutPeek, true_and]
  constructor
  · rintro ⟨hbytes, hlength⟩
    rw [hlength, hbytes, length_take, length_drop]
  · intro heq
    rw [hr.peekData (heq.trans_le (Nat.min_le_right _ _)), heq, length_take, length_drop]
    refine ⟨?_, by omega⟩
    rw [← length_drop, ← take_eq_take_min]

theorem kfifoOutPeek_iff_start :
    Peeked ⟨[1, 2, 3, 4], 4, 7, 4⟩ 2 0 (kfifoOutPeek ⟨[1, 2, 3, 4], 4, 7, 4⟩ 2 0) :=
  (kfifoOutPeek_iff ⟨[1, 2, 3, 4], 4, 7, 4⟩ ⟨⟨2, rfl⟩, rfl, by decide⟩ 2 0).mpr (.inl rfl)

/-- One byte behind the first of three is asked for, and two are copied. -/
theorem kfifoOutPeek_too_many : Kfifo.contents ⟨[1, 2, 3, 4], 4, 7, 4⟩ = [1, 2, 3] ∧
      (kfifoOutPeek ⟨[1, 2, 3, 4], 4, 7, 4⟩ 1 1).2 = ([2, 3], 2) := by
  decide

theorem step_refines {cap : ℕ} (fifo : Kfifo) (q : ByteQueue cap) (c : Call)
    (h : fifo.Represents q.bytes ∧ fifo.size.toNat = cap) :
    ((fifo.step c).1.Represents (q.step c).1.bytes ∧ (fifo.step c).1.size.toNat = cap) ∧
      (fifo.step c).2 = (q.step c).2 := by
  obtain ⟨hr, rfl⟩ := h
  cases c with
  | put data hd =>
    obtain ⟨h1, h2⟩ := hr.put hd
    exact ⟨⟨h1, rfl⟩, Prod.ext h2 rfl⟩
  | out len =>
    obtain ⟨h1, h2, h3⟩ := hr.out len
    exact ⟨⟨h1, rfl⟩, Prod.ext h3 h2⟩
  | skip len =>
    refine ⟨⟨hr.skip len, ?_⟩, rfl⟩
    simp only [step, kfifoSkip]
    split_ifs <;> rfl
  | reset => exact ⟨⟨hr.empty, rfl⟩, rfl⟩

/-- Over any calls the fifo is a queue of at most `size` bytes: it returns what the queue returns, ends
with what is in the queue, and never holds more than its size. -/
theorem run_refines_queue (fifo : Kfifo) (h : fifo.Wf) (calls : List Call) :
    (run step fifo calls).2 = (run ByteQueue.step (fifo.queue h) calls).2 ∧
      (run step fifo calls).1.contents = (run ByteQueue.step (fifo.queue h) calls).1.bytes ∧
      kfifoLen (run step fifo calls).1 ≤ fifo.size := by
  have hstart : fifo.Represents (fifo.queue h).bytes ∧ fifo.size.toNat = fifo.size.toNat :=
    ⟨h.represents, rfl⟩
  obtain ⟨⟨hr, hs⟩, hout⟩ := run_refines step_refines hstart calls
  refine ⟨hout, hr.contents_eq, ?_⟩
  rw [le_iff_toNat_le, hr.len]
  exact hr.length_le.trans_eq hs

theorem run_refines_queue_wrapping : (run step ⟨[9, 9, 9, 9], 4, 4294967295, 4294967294⟩
      [.put [1, 2, 3, 4] (by decide), .out 2, .skip 9, .out 1]).2 =
        [(3, []), (2, [9, 1]), (0, []), (0, [])] := by
  have h : Wf ⟨[9, 9, 9, 9], 4, 4294967295, 4294967294⟩ := ⟨⟨2, rfl⟩, rfl, by decide⟩
  rw [(run_refines_queue _ h _).1]
  rfl

end Kfifo

end VDLinux.Kernel
