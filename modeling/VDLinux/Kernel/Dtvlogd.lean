import VDLinux.Base.Refinement
import VDLinux.Base.Ring

namespace VDLinux.Kernel.Dtvlogd

open Base.Ring Base.Refinement List

/-- The value of an `int` after an operation whose exact result is `x`. -/
def wrapInt (x : ℤ) : ℤ := Int.bmod x (2 ^ 32)

/-- `idx & (len - 1)` for a length that is a power of two. -/
def maskIndex (len : ℕ) (idx : ℤ) : ℕ := (idx % len).toNat

/-- A character buffer with its counters, which run freely and are masked on access. -/
structure CharRing where
  buf : List UInt8
  start : ℤ
  stop : ℤ
  chars : ℤ
  deriving DecidableEq, Repr

def CharRing.write (len : ℕ) (r : CharRing) (c : UInt8) : CharRing :=
  let buf := overwrite r.buf (maskIndex len r.stop) [c]
  let stop := wrapInt (r.stop + 1)
  let start := if wrapInt (stop - r.start) > len then wrapInt (stop - len) else r.start
  let chars := if r.chars < len then wrapInt (r.chars + 1) else r.chars
  ⟨buf, start, stop, chars⟩

def dlogBufLen : ℕ := 1 <<< 17

def dramBufLen : ℕ := 64 * 1024

def ramMagic : ℤ := 0xbabe

/-- The words after the emergency buffer, in memory that a reboot leaves as it is. -/
structure RamInfo where
  magic : ℤ
  start : ℤ
  stop : ℤ
  chars : ℤ
  deriving DecidableEq, Repr

/-- `dram` has `ram_char_buf` for its characters; its counters are kernel variables. `flushBuf` is the
static array of `ram_flush`. -/
structure State where
  dlog : CharRing
  optDtvlogd : Bool
  dram : CharRing
  ramInfo : RamInfo
  ramwriteStart : Bool
  ramClearFlush : Bool
  flushBuf : List UInt8
  deriving DecidableEq, Repr

def writeRamInfo (s : State) : State :=
  { s with ramInfo := ⟨s.ramInfo.magic, s.dram.start, s.dram.stop, s.dram.chars⟩ }

def dlogbufWrite (s : State) (c : UInt8) : State :=
  let s := if s.ramwriteStart then writeRamInfo { s with dram := s.dram.write dramBufLen c } else s
  { s with dlog := s.dlog.write dlogBufLen c }

/-- What is handed to `usblog_write`; nothing is if no character has been logged. -/
def usblogFlush (s : State) : State × List UInt8 :=
  if s.dlog.chars = 0 then (s, [])
  else if !s.optDtvlogd then (s, [])
  else
    let start := maskIndex dlogBufLen s.dlog.start
    let stop := maskIndex dlogBufLen s.dlog.stop
    let len := if start ≥ stop then dlogBufLen - start else stop - start
    let first := (s.dlog.buf.drop start).take len
    let second := if start ≥ stop then s.dlog.buf.take stop else []
    ({ s with dlog := { s.dlog with start := s.dlog.stop, chars := 0 } }, first ++ second)

/-- The characters that `for (i = start; i < stop; i++)` reads. -/
def readLoop (buf : List UInt8) (start stop : ℤ) : List UInt8 :=
  (List.range (stop - start).toNat).map fun j : ℕ => buf.getD (maskIndex dramBufLen (start + j)) 0

/-- The copy that `ram_flush` makes in its static buffer, and how many characters it takes it to
have. -/
def ramFlushBuf (flushBuf buf : List UInt8) (start stop : ℤ) : List UInt8 × ℕ :=
  if maskIndex dramBufLen start ≥ maskIndex dramBufLen stop then
    let len := dramBufLen - maskIndex dramBufLen start
    let first := readLoop buf start (wrapInt (start + len))
    let second := readLoop buf 0 (maskIndex dramBufLen stop)
    (overwrite flushBuf 0 (first ++ second), len + maskIndex dramBufLen stop)
  else
    let len := maskIndex dramBufLen stop - maskIndex dramBufLen start
    (overwrite flushBuf 0 (readLoop buf start (wrapInt (start + len))), len)

def ramFlush (s : State) : State × List UInt8 :=
  let (flushBuf, len) := ramFlushBuf s.flushBuf s.dram.buf s.ramInfo.start s.ramInfo.stop
  ({ s with ramwriteStart := true, dram := { s.dram with start := 0, stop := 0, chars := 0 }, flushBuf },
    flushBuf.take len)

/-- With the magic number in place the log of the last boot is to be flushed, otherwise logging
starts. -/
def rambufInit (s : State) : State :=
  if s.ramInfo.magic = ramMagic then { s with ramClearFlush := true }
  else
    { s with
      ramwriteStart := true
      dram := { s.dram with start := 0, stop := 0, chars := 0 }
      ramInfo := { s.ramInfo with magic := ramMagic } }

/-- The kernel's variables after a reboot: those of the image, while the memory outside is kept. -/
def reboot (s : State) : State where
  dlog := ⟨List.replicate dlogBufLen 0, 0, 0, 0⟩
  optDtvlogd := false
  dram := ⟨s.dram.buf, 0, 0, 0⟩
  ramInfo := s.ramInfo
  ramwriteStart := false
  ramClearFlush := false
  flushBuf := List.replicate dramBufLen 0

theorem wrapInt_eq (x : ℤ) :
    wrapInt x = if x % 4294967296 < 2147483648 then x % 4294967296 else x % 4294967296 - 4294967296 := by
  have hc : ((2 ^ 32 : ℕ) : ℤ) = 4294967296 := rfl
  rfl

theorem wrapInt_eq_self {x : ℤ} (h1 : -2 ^ 31 ≤ x) (h2 : x < 2 ^ 31) : wrapInt x = x := by
  rw [wrapInt_eq]
  split_ifs <;> omega

theorem wrapInt_sub (a b : ℤ) : wrapInt (wrapInt a - wrapInt b) = wrapInt (a - b) := by
  simp [wrapInt]

theorem wrapInt_add (a b : ℤ) : wrapInt (wrapInt a + b) = wrapInt (a + b) := by
  simp [wrapInt]

theorem wrapInt_sub_left (a b : ℤ) : wrapInt (wrapInt a - b) = wrapInt (a - b) := by
  simp [wrapInt]

/-- The buffer holds the last `q.length` of the `e` characters that have been written. -/
structure CharRing.Logged (r : CharRing) (len e : ℕ) (q : List UInt8) : Prop where
  buf_length : r.buf.length = len
  le : q.length ≤ e
  stop : r.stop = wrapInt e
  start : r.start = wrapInt ((e - q.length : ℕ) : ℤ)
  chars : r.chars = q.length
  holds : Holds r.buf (e - q.length) q

section Counters

variable {r : CharRing} {len e : ℕ} {q : List UInt8} (hpos : 0 < len) (hdvd : len ∣ 2 ^ 32)
  (hlen : len < 2 ^ 30)
include hpos hdvd hlen

omit hpos hlen in
theorem maskIndex_wrapInt (x : ℕ) : maskIndex len (wrapInt x) = x % len := by
  have hd : (len : ℤ) ∣ ((2 ^ 32 : ℕ) : ℤ) := Int.natCast_dvd_natCast.mpr hdvd
  rw [maskIndex, wrapInt, ← Int.emod_emod_of_dvd _ hd, Int.bmod_emod, Int.emod_emod_of_dvd _ hd]
  exact Int.toNat_natCast _

theorem write_logged (h : r.Logged len e q) (c : UInt8) :
    (r.write len c).Logged len (e + 1) ((q ++ [c]).rtake len) := by
  have hql : q.length ≤ len := h.holds.length_le.trans_eq h.buf_length
  have hbl : 0 < r.buf.length := hpos.trans_eq h.buf_length.symm
  have hstop : wrapInt (r.stop + 1) = wrapInt ((e + 1 : ℕ) : ℤ) := by
    rw [h.stop, wrapInt_add]
    rfl
  have hdiff : wrapInt (wrapInt (r.stop + 1) - r.start) = q.length + 1 := by
    rw [hstop, h.start, wrapInt_sub]
    have he : ((e + 1 : ℕ) : ℤ) - ((e - q.length : ℕ) : ℤ) = q.length + 1 := by
      have := h.le
      omega
    rw [he, wrapInt_eq_self (by omega) (by omega)]
  have hbuf : overwrite r.buf (maskIndex len r.stop) [c] = store r.buf e [c] := by
    rw [store_singleton hbl, h.stop, maskIndex_wrapInt hdvd, h.buf_length]
  -- what stays is the log without its oldest character if the buffer is full
  obtain ⟨k, hk⟩ : ∃ k, k = q.length + 1 - len := ⟨_, rfl⟩
  have hkept : (q ++ [c]).rtake len = q.drop k ++ [c] := by
    rw [List.rtake, length_append, length_singleton, ← hk,
      drop_append_of_le_length (by omega)]
  have hl : (q.drop k ++ [c]).length = q.length - k + 1 := by
    rw [length_append, length_drop, length_singleton]
  have hle := h.le
  have hstore := (h.holds.skip (show k ≤ q.length by omega)).store hbl [c]
    (by rw [h.buf_length, length_drop, length_singleton]; omega)
  have hend : e - q.length + k + (q.drop k).length = e := by
    rw [length_drop]
    omega
  have hsl := length_store hbl e [c] (by exact hbl)
  rw [hend] at hstore
  rw [hkept]
  refine ⟨?_, by omega, hstop, ?_, ?_, ?_⟩
  · rw [CharRing.write, hbuf]
    exact hsl.trans h.buf_length
  · rw [CharRing.write]
    simp only [hdiff]
    split_ifs with hc
    · rw [hstop, wrapInt_sub_left]
      congr 1
      omega
    · rw [h.start]
      congr 1
      omega
  · rw [CharRing.write]
    simp only [h.chars]
    split_ifs with hc
    · rw [wrapInt_eq_self (by omega) (by omega)]
      omega
    · omega
  · rw [CharRing.write, hbuf, hl]
    have hp : e + 1 - (q.length - k + 1) = e - q.length + k := by omega
    rw [hp]
    exact hstore

omit hpos hdvd hlen in
theorem flushed_logged (h : r.Logged len e q) :
    CharRing.Logged { r with start := r.stop, chars := 0 } len e [] where
  buf_length := h.buf_length
  le := Nat.zero_le _
  stop := h.stop
  start := h.stop
  chars := rfl
  holds := List.nil_prefix

omit hlen in
theorem index_cases (h : r.Logged len e q) : maskIndex len r.start = (e - q.length) % len ∧
      (maskIndex len r.start + q.length < len ∧
          maskIndex len r.stop = maskIndex len r.start + q.length ∨
        len ≤ maskIndex len r.start + q.length ∧
          maskIndex len r.stop + len = maskIndex len r.start + q.length) := by
  have hql : q.length ≤ len := h.holds.length_le.trans_eq h.buf_length
  have hs : maskIndex len r.start = (e - q.length) % len := by
    rw [h.start, maskIndex_wrapInt hdvd]
  have he : maskIndex len r.stop = ((e - q.length) % len + q.length) % len := by
    have hle := h.le
    rw [h.stop, maskIndex_wrapInt hdvd, Nat.mod_add_mod, Nat.sub_add_cancel hle]
  have hlt := Nat.mod_lt (e - q.length) hpos
  refine ⟨hs, ?_⟩
  rw [hs, he]
  rcases Nat.lt_or_ge ((e - q.length) % len + q.length) len with hc | hc
  · exact Or.inl ⟨hc, Nat.mod_eq_of_lt hc⟩
  · refine Or.inr ⟨hc, ?_⟩
    rw [Nat.mod_eq_sub_mod hc, Nat.mod_eq_of_lt (by omega), Nat.sub_add_cancel hc]

omit hlen in
theorem split_eq (h : r.Logged len e q) (hq : 0 < q.length) :
    (if maskIndex len r.start ≥ maskIndex len r.stop then
        (r.buf.drop (maskIndex len r.start)).take (len - maskIndex len r.start) ++
          r.buf.take (maskIndex len r.stop)
      else (r.buf.drop (maskIndex len r.start)).take (maskIndex len r.stop - maskIndex len r.start)) =
      q := by
  have hql : q.length ≤ len := h.holds.length_le.trans_eq h.buf_length
  obtain ⟨hs, hcases⟩ := index_cases hpos hdvd h
  have hslt : maskIndex len r.start < len := hs ▸ Nat.mod_lt _ hpos
  have hload := h.holds.load (hpos.trans_eq h.buf_length.symm) le_rfl
  rw [take_length, load, h.buf_length, ← hs] at hload
  obtain ⟨hc, he⟩ | ⟨hc, he⟩ := hcases
  · rw [if_neg (by omega), he, Nat.add_sub_cancel_left]
    simpa [Nat.min_eq_left (show q.length ≤ len - maskIndex len r.start by omega)] using hload
  · rw [if_pos (by omega)]
    have hmin : min q.length (len - maskIndex len r.start) = len - maskIndex len r.start := by omega
    have hrest : q.length - (len - maskIndex len r.start) = maskIndex len r.stop := by omega
    rwa [hmin, hrest] at hload

end Counters

theorem dlogBufLen_dvd : dlogBufLen ∣ 2 ^ 32 := by decide

theorem dramBufLen_dvd : dramBufLen ∣ 2 ^ 32 := by decide

theorem rtake_concat_rtake (p : List UInt8) (c : UInt8) (n : ℕ) :
    (p.rtake n ++ [c]).rtake n = (p ++ [c]).rtake n := by
  simp only [rtake_eq_reverse_take_reverse, reverse_append, reverse_reverse,
    reverse_singleton, singleton_append]
  cases n with
  | zero => rfl
  | succ n => rw [take_succ_cons, take_take, Nat.min_eq_left n.le_succ, take_succ_cons]

inductive Event
  | write (c : UInt8)
  | flush

def step (s : State) : Event → State × List UInt8
  | .write c => (dlogbufWrite s c, [])
  | .flush => usblogFlush s

/-- What the log is for: a flush delivers the last characters written since the one before. -/
def logStep (pending : List UInt8) : Event → List UInt8 × List UInt8
  | .write c => (pending ++ [c], [])
  | .flush => ([], pending.rtake dlogBufLen)

/-- Logging to the USB storage is on and the buffer holds the end of `pending`. -/
structure Pending (s : State) (pending : List UInt8) : Prop where
  enabled : s.optDtvlogd = true
  logged : ∃ e, s.dlog.Logged dlogBufLen e (pending.rtake dlogBufLen)

theorem dlogbufWrite_dlog (s : State) (c : UInt8) :
    (dlogbufWrite s c).dlog = s.dlog.write dlogBufLen c ∧
      (dlogbufWrite s c).optDtvlogd = s.optDtvlogd := by
  rw [dlogbufWrite]
  split_ifs <;> exact ⟨rfl, rfl⟩

theorem rtake_length (p : List UInt8) (n : ℕ) : (p.rtake n).length = min p.length n := by
  rw [List.rtake, length_drop]
  omega

theorem rtake_length_pos {p : List UInt8} {n : ℕ} (hn : 0 < n) (hp : p ≠ []) : 0 < (p.rtake n).length := by
  rw [rtake_length]
  exact lt_min (length_pos_iff.mpr hp) hn

theorem step_pending (s : State) (pending : List UInt8) (ev : Event) (h : Pending s pending) :
    Pending (step s ev).1 (logStep pending ev).1 ∧ (step s ev).2 = (logStep pending ev).2 := by
  obtain ⟨hon, e, hlog⟩ := h
  cases ev with
  | write c =>
    obtain ⟨hd, ho⟩ := dlogbufWrite_dlog s c
    have hw := write_logged (by decide) dlogBufLen_dvd (by decide) hlog c
    rw [rtake_concat_rtake] at hw
    exact ⟨⟨ho.trans hon, e + 1, hd ▸ hw⟩, rfl⟩
  | flush =>
    by_cases hp : pending = []
    · have hc : s.dlog.chars = 0 := by
        rw [hlog.chars, hp]
        rfl
      have hrun : usblogFlush s = (s, []) := by rw [usblogFlush, if_pos hc]
      rw [step, hrun, logStep, hp]
      exact ⟨⟨hon, e, hp ▸ hlog⟩, rfl⟩
    · have hq := rtake_length_pos (show 0 < dlogBufLen by decide) hp
      have hc : ¬ s.dlog.chars = 0 := by
        rw [hlog.chars]
        omega
      have hsplit := split_eq (by decide) dlogBufLen_dvd hlog hq
      rw [step, usblogFlush, if_neg hc, if_neg (by rw [hon]; decide), logStep]
      refine ⟨⟨hon, e, ?_⟩, ?_⟩
      · rw [rtake_nil]
        exact flushed_logged hlog
      simp only
      rw [← hsplit]
      split_ifs
      · rfl
      · rw [append_nil]

structure Ready (s : State) : Prop where
  started : s.ramwriteStart = true
  start : s.dram.start = 0
  stop : s.dram.stop = 0
  chars : s.dram.chars = 0
  buf_length : s.dram.buf.length = dramBufLen
  magic : s.ramInfo.magic = ramMagic

def emergencyLog (s : State) (writes : List UInt8) : List UInt8 :=
  (ramFlush (rambufInit (reboot (writes.foldl dlogbufWrite s)))).2

structure Recorded (s : State) (writes : List UInt8) : Prop where
  started : s.ramwriteStart = true
  magic : s.ramInfo.magic = ramMagic
  logged : s.dram.Logged dramBufLen writes.length (writes.rtake dramBufLen)
  info : writes ≠ [] → s.ramInfo.start = s.dram.start ∧ s.ramInfo.stop = s.dram.stop

theorem Ready.recorded {s : State} (h : Ready s) : Recorded s [] where
  started := h.started
  magic := h.magic
  logged := by
    exact ⟨h.buf_length, le_rfl, h.stop, h.start, h.chars, List.nil_prefix⟩
  info := fun hne => absurd rfl hne

theorem Recorded.write {s : State} {writes : List UInt8} (h : Recorded s writes) (c : UInt8) :
    Recorded (dlogbufWrite s c) (writes ++ [c]) := by
  have hw := write_logged (by decide) dramBufLen_dvd (by decide) h.logged c
  rw [rtake_concat_rtake] at hw
  rw [dlogbufWrite, if_pos h.started]
  refine ⟨h.started, h.magic, ?_, fun _ => ⟨rfl, rfl⟩⟩
  rw [length_append, length_singleton]
  exact hw

theorem Recorded.writes {s : State} {old : List UInt8} (h : Recorded s old) (writes : List UInt8) :
    Recorded (writes.foldl dlogbufWrite s) (old ++ writes) := by
  induction writes generalizing s old with
  | nil => rwa [append_nil]
  | cons c writes ih =>
    have hnext := ih (h.write c)
    rwa [append_assoc] at hnext

theorem readLoop_eq {buf : List UInt8} (start : ℤ) (n : ℕ) (hb : buf.length = dramBufLen)
    (hn : maskIndex dramBufLen start + n ≤ dramBufLen) :
    readLoop buf start (start + n) = (buf.drop (maskIndex dramBufLen start)).take n := by
  have hcount : (start + n - start).toNat = n := by omega
  rw [readLoop, hcount]
  apply ext_getElem
  · rw [length_map, length_range, length_take, length_drop, hb]
    omega
  · intro j hj _
    have hjn : j < n := by simpa using hj
    have hidx : maskIndex dramBufLen (start + j) = maskIndex dramBufLen start + j := by
      have hlen : (dramBufLen : ℤ) = 65536 := rfl
      have hlen' : dramBufLen = 65536 := rfl
      simp only [maskIndex, hlen] at hn ⊢
      omega
    rw [getElem_map, getElem_range, hidx, getElem_take, getElem_drop,
      getD_eq_getElem?_getD, List.getElem?_eq_getElem (by omega)]
    rfl

/-- After this many writes the first loop of `ram_flush` has an end that exceeds the range of
`int`. -/
def LoopOverflows (n : ℕ) : Prop := 2 ^ 31 ≤ n % 2 ^ 32 ∧ n % 2 ^ 32 < 2 ^ 31 + dramBufLen

instance (n : ℕ) : Decidable (LoopOverflows n) := inferInstanceAs (Decidable (_ ∧ _))

theorem loopEnd_eq {n S : ℕ} (hS : S = n - min n 65536) :
    wrapInt (wrapInt S + ((65536 - S % 65536 : ℕ) : ℤ)) =
      if LoopOverflows n then -2 ^ 31 else wrapInt S + ((65536 - S % 65536 : ℕ) : ℤ) := by
  have hdef : LoopOverflows n ↔ 2147483648 ≤ n % 4294967296 ∧ n % 4294967296 < 2147549184 := Iff.rfl
  simp only [wrapInt_eq]
  by_cases ho : LoopOverflows n
  · rw [if_pos ho]
    rw [hdef] at ho
    split_ifs <;> omega
  · rw [if_neg ho]
    rw [hdef] at ho
    split_ifs <;> omega

theorem ramFlush_reboot {s : State} (h : s.ramInfo.magic = ramMagic) :
    (ramFlush (rambufInit (reboot s))).2 =
      (ramFlushBuf (List.replicate dramBufLen 0) s.dram.buf s.ramInfo.start s.ramInfo.stop).1.take
        (ramFlushBuf (List.replicate dramBufLen 0) s.dram.buf s.ramInfo.start s.ramInfo.stop).2 := by
  rw [rambufInit, if_pos (show (reboot s).ramInfo.magic = ramMagic from h)]
  rfl

theorem take_overwrite (zeros data : List UInt8) (n : ℕ) (h : data.length = n) :
    (overwrite zeros 0 data).take n = data := by
  rw [overwrite, take_zero, List.nil_append, take_left' h]

section Flush

variable {s : State} {writes : List UInt8}

theorem Recorded.flush_exact (h : Recorded s writes) (hne : writes ≠ [])
    (hno : ¬ LoopOverflows writes.length) :
    (ramFlush (rambufInit (reboot s))).2 = writes.rtake dramBufLen := by
  have hlen : dramBufLen = 65536 := rfl
  obtain ⟨hs, ht⟩ := h.info hne
  have hq := rtake_length_pos (show 0 < dramBufLen by decide) hne
  have hsplit := split_eq (by decide) dramBufLen_dvd h.logged hq
  obtain ⟨hidx, hcases⟩ := index_cases (by decide) dramBufLen_dvd h.logged
  have hql := rtake_length writes dramBufLen
  rw [ramFlush_reboot h.magic, hs, ht, ramFlushBuf]
  obtain ⟨hc, he⟩ | ⟨hc, he⟩ := hcases
  · -- fewer characters than the buffer has: they start at its first cell
    have hnw : ¬ maskIndex dramBufLen s.dram.start ≥ maskIndex dramBufLen s.dram.stop := by omega
    have hzero : s.dram.start = 0 := by
      rw [h.logged.start, hql]
      have : writes.length - min writes.length dramBufLen = 0 := by omega
      rw [this]
      rfl
    have hend : wrapInt (s.dram.start + (((writes.rtake dramBufLen).length : ℕ) : ℤ)) =
        s.dram.start + (((writes.rtake dramBufLen).length : ℕ) : ℤ) :=
      wrapInt_eq_self (by omega) (by omega)
    rw [if_neg hnw, he, Nat.add_sub_cancel_left] at hsplit ⊢
    dsimp only
    rw [hend, readLoop_eq _ _ h.logged.buf_length hc.le, hsplit]
    exact take_overwrite _ _ _ rfl
  · -- the buffer has wrapped: the first loop ends at its last cell
    have hw : maskIndex dramBufLen s.dram.start ≥ maskIndex dramBufLen s.dram.stop := by omega
    have hend := loopEnd_eq (n := writes.length) rfl
    rw [if_neg hno, ← hlen, ← hql, ← hidx, ← h.logged.start] at hend
    have hslt : maskIndex dramBufLen s.dram.start < dramBufLen := hidx ▸ Nat.mod_lt _ (by decide)
    have hfirst := readLoop_eq s.dram.start (dramBufLen - maskIndex dramBufLen s.dram.start)
      h.logged.buf_length (by omega)
    have hzero : maskIndex dramBufLen 0 = 0 := rfl
    have hsecond := readLoop_eq 0 (maskIndex dramBufLen s.dram.stop) h.logged.buf_length (by omega)
    rw [hzero, drop_zero, Int.zero_add] at hsecond
    rw [if_pos hw] at hsplit ⊢
    dsimp only
    rw [hend, hfirst, hsecond, hsplit]
    exact take_overwrite _ _ _ (by omega)

theorem Recorded.flush_overflow (h : Recorded s writes) (ho : LoopOverflows writes.length) :
    ∃ front, front.length < dramBufLen ∧ (ramFlush (rambufInit (reboot s))).2 =
      front ++ List.replicate (dramBufLen - front.length) 0 := by
  have hlen : dramBufLen = 65536 := rfl
  have hbig : 2147483648 ≤ writes.length % 4294967296 := ho.1
  have hne : writes ≠ [] := by
    rintro rfl
    exact absurd hbig (by decide)
  obtain ⟨hs, ht⟩ := h.info hne
  obtain ⟨hidx, hcases⟩ := index_cases (by decide) dramBufLen_dvd h.logged
  have hql := rtake_length writes dramBufLen
  have hslt : maskIndex dramBufLen s.dram.start < dramBufLen := hidx ▸ Nat.mod_lt _ (by decide)
  have hstop : maskIndex dramBufLen s.dram.stop = maskIndex dramBufLen s.dram.start := by omega
  have hend := loopEnd_eq (n := writes.length) rfl
  rw [if_pos ho, ← hlen, ← hql, ← hidx, ← h.logged.start] at hend
  have hsecond := readLoop_eq 0 (maskIndex dramBufLen s.dram.stop) h.logged.buf_length (by
    have hzero : maskIndex dramBufLen 0 = 0 := rfl
    omega)
  have hnone : readLoop s.dram.buf s.dram.start (-2 ^ 31) = [] := by
    have hge : -2 ^ 31 ≤ s.dram.start := by
      rw [h.logged.start, wrapInt_eq]
      split_ifs <;> omega
    have hz : (-2 ^ 31 - s.dram.start).toNat = 0 := by omega
    rw [readLoop, hz]
    rfl
  rw [Int.zero_add] at hsecond
  have hfl : (readLoop s.dram.buf 0 (maskIndex dramBufLen s.dram.stop)).length < dramBufLen := by
    rw [hsecond, length_take]
    omega
  refine ⟨_, hfl, ?_⟩
  rw [ramFlush_reboot h.magic, hs, ht, ramFlushBuf, if_pos hstop.le]
  dsimp only
  rw [hend, hnone, List.nil_append, overwrite, take_zero, List.nil_append, Nat.zero_add,
    drop_replicate, take_of_length_le]
  rw [length_append, length_replicate]
  omega

end Flush

theorem maskIndex_lt (x : ℤ) : maskIndex dramBufLen x < dramBufLen := by
  have hlen : dramBufLen = 65536 := rfl
  rw [maskIndex, hlen]
  omega

theorem ramFlushBuf_ne_nil (buf : List UInt8) (start stop : ℤ) :
    (ramFlushBuf (List.replicate dramBufLen 0) buf start stop).1.take
      (ramFlushBuf (List.replicate dramBufLen 0) buf start stop).2 ≠ [] := by
  have hne : ∀ (data : List UInt8) {n : ℕ}, 0 < n →
      (overwrite (List.replicate dramBufLen 0) 0 data).take n ≠ [] := by
    intro data n hn
    rw [← length_pos_iff, overwrite, length_take, length_append, length_append,
      length_drop, length_replicate]
    have : 0 < dramBufLen := by decide
    omega
  have hlt := maskIndex_lt start
  rw [ramFlushBuf]
  split_ifs with hc
  · exact hne _ (by dsimp only; omega)
  · exact hne _ (by dsimp only; omega)

/-- The emergency log of `n` characters comes back whole exactly if there is a character and the loop
that reads it does not overflow. -/
theorem emergencyLog_exact_iff {s : State} (h : Ready s) (n : ℕ) :
    (∀ writes, writes.length = n → emergencyLog s writes = writes.rtake dramBufLen) ↔
      n ≠ 0 ∧ ¬ LoopOverflows n := by
  have hrec : ∀ writes, Recorded (writes.foldl dlogbufWrite s) writes := fun writes =>
    h.recorded.writes writes
  constructor
  · intro hall
    constructor
    · rintro rfl
      have hnil := hall [] rfl
      rw [emergencyLog, foldl_nil, ramFlush_reboot h.magic, rtake_nil] at hnil
      exact ramFlushBuf_ne_nil _ _ _ hnil
    · intro ho
      have hl : (List.replicate n (1 : UInt8)).length = n := length_replicate
      obtain ⟨front, hf, hout⟩ := (hrec (List.replicate n 1)).flush_overflow (hl.symm ▸ ho)
      have heq := (hall _ hl).symm.trans hout
      have hmem : (0 : UInt8) ∈ (List.replicate n (1 : UInt8)).rtake dramBufLen := by
        rw [heq]
        apply mem_append_right
        exact mem_replicate.mpr ⟨by omega, rfl⟩
      exact absurd (eq_of_mem_replicate (mem_of_mem_drop hmem)) (by decide)
  · rintro ⟨hn, hno⟩ writes rfl
    exact (hrec writes).flush_exact (fun h0 => hn (by rw [h0]; rfl)) hno

/-- Both logs: every flush to the USB storage delivers the last characters since the flush before, and
the emergency log comes back under the condition above. -/
theorem logs_deliver (s : State) (n : ℕ) :
    (Pending s [] → ∀ events : List Event, (run step s events).2 = (run logStep [] events).2) ∧
      (Ready s → ((∀ writes : List UInt8, writes.length = n →
        emergencyLog s writes = writes.rtake dramBufLen) ↔ n ≠ 0 ∧ ¬ LoopOverflows n)) :=
  ⟨fun h events => (run_refines step_pending h events).2, fun h => emergencyLog_exact_iff h n⟩

def boot : State where
  dlog := ⟨List.replicate dlogBufLen 0, 0, 0, 0⟩
  optDtvlogd := true
  dram := ⟨List.replicate dramBufLen 0, 0, 0, 0⟩
  ramInfo := ⟨ramMagic, 0, 0, 0⟩
  ramwriteStart := true
  ramClearFlush := false
  flushBuf := List.replicate dramBufLen 0

theorem boot_pending : Pending boot [] where
  enabled := rfl
  logged := by
    exact ⟨0, length_replicate, le_rfl, rfl, rfl, rfl, List.nil_prefix⟩

theorem boot_ready : Ready boot := ⟨rfl, rfl, rfl, rfl, length_replicate, rfl⟩

theorem logs_deliver_boot :
    (run step boot [.write 65, .flush, .flush, .write 66]).2 = [[], [65], [], []] ∧
      emergencyLog boot [65, 66] = [65, 66] := by
  obtain ⟨husb, hram⟩ := logs_deliver boot 2
  refine ⟨(husb boot_pending _).trans (by decide +kernel), ?_⟩
  exact ((hram boot_ready).mpr ⟨by decide, by decide⟩ [65, 66] rfl).trans (by decide +kernel)

/-- A reboot right after the log has started leaves a file that is not empty. -/
theorem nothing_logged_flushed : emergencyLog boot [] ≠ ([] : List UInt8).rtake dramBufLen := by
  intro h
  rw [emergencyLog, foldl_nil, ramFlush_reboot rfl, rtake_nil] at h
  exact ramFlushBuf_ne_nil _ _ _ h

end VDLinux.Kernel.Dtvlogd
