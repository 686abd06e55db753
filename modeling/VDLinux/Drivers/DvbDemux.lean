import VDLinux.Base.Framing

namespace VDLinux.Drivers.Dvb

open Base.Framing List

abbrev Byte := BitVec 8

/-- The part of `struct dvb_demux` that holds an unfinished packet. -/
structure Demux where
  tsbuf : List Byte
  tsbufp : ℕ

inductive Fault where
  | overflow
  deriving DecidableEq

def memcpy (dst : List Byte) (i : ℕ) (src : List Byte) : Except Fault (List Byte) :=
  if i + src.length ≤ dst.length then .ok (dst.take i ++ src ++ dst.drop (i + src.length))
  else .error .overflow

section Swfilter

variable (size : ℕ) (sync : Byte → Bool) (toPacket : List Byte → List Byte)

/-- The loop over the buffer, from `&buf[p]` on: the packets handed on, and the bytes that are parked. -/
def scan : List Byte → List (List Byte) × List Byte
  | [] => ([], [])
  | b :: rest =>
    if sync b then
      if 0 < size ∧ size ≤ (b :: rest).length then
        let r := scan ((b :: rest).drop size)
        (toPacket ((b :: rest).take size) :: r.1, r.2)
      else ([], b :: rest)
    else scan rest
termination_by s => s.length

/-- The loop and its exit with `memcpy(demux->tsbuf, &buf[p], i)`. -/
def filterRest (demux : Demux) (buf : List Byte) : Except Fault (Demux × List (List Byte)) :=
  let (packets, parked) := scan size sync toPacket buf
  match parked with
  | [] => .ok (demux, packets)
  | parked => do
    let tsbuf ← memcpy demux.tsbuf 0 parked
    .ok (⟨tsbuf, parked.length⟩, packets)

/-- What the two filters share: packets of `size` bytes that begin with `sync`, each handed on as
`toPacket` makes it. -/
def swfilter (demux : Demux) (buf : List Byte) : Except Fault (Demux × List (List Byte)) :=
  if demux.tsbufp ≠ 0 then
    let i := demux.tsbufp
    let j := size - i
    if buf.length < j then do
      let tsbuf ← memcpy demux.tsbuf i buf
      .ok (⟨tsbuf, demux.tsbufp + buf.length⟩, [])
    else do
      let tsbuf ← memcpy demux.tsbuf i (buf.take j)
      let first := if sync (tsbuf.headD 0) then [toPacket (tsbuf.take size)] else []
      let (demux, packets) ← filterRest size sync toPacket ⟨tsbuf, 0⟩ (buf.drop j)
      .ok (demux, first ++ packets)
  else filterRest size sync toPacket demux buf

end Swfilter

def dvbDmxSwfilter : Demux → List Byte → Except Fault (Demux × List (List Byte)) :=
  swfilter 188 (fun b => b = 0x47) id

/-- `tmppack`: the first 188 bytes, with the inverted sync byte set right. -/
def tmppack (frame : List Byte) : List Byte :=
  match frame.take 188 with
  | [] => []
  | b :: rest => (if b = 0xB8 then 0x47 else b) :: rest

def dvbDmxSwfilter204 : Demux → List Byte → Except Fault (Demux × List (List Byte)) :=
  swfilter 204 (fun b => b = 0x47 ∨ b = 0xB8) tmppack

section Refinement

variable {size : ℕ} {sync : Byte → Bool} {toPacket : List Byte → List Byte}

theorem scan_eq (s : List Byte) : scan size sync toPacket s =
    ((frames sync size s).1.map toPacket, (frames sync size s).2) := by
  induction s using frames.induct sync size with
  | case1 => rw [scan, frames, map_nil]
  | case2 b rest hb hlen ih =>
    rw [scan, if_pos hb, if_pos hlen, frames_cut hb hlen, ih, map_cons]
  | case3 b rest hb hlen =>
    rw [scan, frames, if_pos hb, if_pos hb, if_neg hlen, if_neg hlen, map_nil]
  | case4 b rest hb ih => rw [scan, if_neg hb, frames_skip (Bool.eq_false_iff.mpr hb), ih]

structure Holds (demux : Demux) (rest : List Byte) : Prop where
  length_eq : demux.tsbuf.length = 204
  count_eq : demux.tsbufp = rest.length
  bytes_eq : demux.tsbuf.take demux.tsbufp = rest

theorem memcpy_fits {dst src : List Byte} {i : ℕ} (h : i + src.length ≤ dst.length) :
    ∃ dst', memcpy dst i src = .ok dst' ∧ dst'.length = dst.length ∧
      dst'.take (i + src.length) = dst.take i ++ src := by
  refine ⟨_, if_pos h, ?_, ?_⟩
  · simp only [length_append, length_take, length_drop]
    omega
  · rw [take_append_of_le_length]
    · rw [take_of_length_le]
      simp only [length_append, length_take]
      omega
    · simp only [length_append, length_take]
      omega

theorem pending_length_lt (hsize : 0 < size) {rest : List Byte} (h : Pending sync size rest) :
    rest.length < size := by
  cases rest with
  | nil => exact hsize
  | cons b tail =>
    have := (h b tail rfl).2
    omega

theorem filterRest_spec (hsize : 0 < size) (hfit : size ≤ 204) {demux : Demux} (h : Holds demux [])
    (buf : List Byte) :
    ∃ demux', filterRest size sync toPacket demux buf =
        .ok (demux', (frames sync size buf).1.map toPacket) ∧
      Holds demux' (frames sync size buf).2 := by
  unfold filterRest
  rw [scan_eq]
  cases hrest : (frames sync size buf).2 with
  | nil => exact ⟨demux, rfl, h⟩
  | cons b tail =>
    have hpend : Pending sync size (frames sync size buf).2 := pending_frames buf
    have hlt := pending_length_lt hsize hpend
    rw [hrest] at hlt
    have hroom : 0 + (b :: tail).length ≤ demux.tsbuf.length := by
      rw [h.length_eq]
      omega
    obtain ⟨tsbuf, hcopy, hlen, htake⟩ := memcpy_fits hroom
    rw [take_zero, List.nil_append, Nat.zero_add] at htake
    refine ⟨⟨tsbuf, (b :: tail).length⟩, ?_, hlen.trans h.length_eq, rfl, htake⟩
    simp only [hcopy, bind, Except.bind]

theorem swfilter_spec (hsize : 0 < size) (hfit : size ≤ 204) {demux : Demux} {rest : List Byte}
    (h : Holds demux rest) (hrest : Pending sync size rest) (buf : List Byte) :
    ∃ demux', swfilter size sync toPacket demux buf =
        .ok (demux', (frames sync size (rest ++ buf)).1.map toPacket) ∧
      Holds demux' (frames sync size (rest ++ buf)).2 := by
  cases rest with
  | nil =>
    have h0 : ¬ demux.tsbufp ≠ 0 := not_not.mpr h.count_eq
    rw [swfilter, if_neg h0]
    exact filterRest_spec hsize hfit h buf
  | cons b tail =>
    obtain ⟨hb, -⟩ := hrest b tail rfl
    have hlt := pending_length_lt hsize hrest
    have hcount : demux.tsbufp = (b :: tail).length := h.count_eq
    have h0 : demux.tsbufp ≠ 0 := by simp [hcount]
    have htake : demux.tsbuf.take demux.tsbufp = b :: tail := h.bytes_eq
    simp only [swfilter, if_pos h0]
    by_cases hshort : buf.length < size - demux.tsbufp
    · -- the packet is still not complete
      have hroom : demux.tsbufp + buf.length ≤ demux.tsbuf.length := by
        rw [h.length_eq]
        omega
      obtain ⟨tsbuf, hcopy, hlen, hbytes⟩ := memcpy_fits hroom
      have hpend : Pending sync size (b :: tail ++ buf) := by
        intro c tail' hc
        cases hc
        refine ⟨hb, ?_⟩
        rw [length_append, ← hcount]
        omega
      rw [frames_pending hpend, if_pos hshort]
      refine ⟨⟨tsbuf, demux.tsbufp + buf.length⟩, ?_, hlen.trans h.length_eq, ?_, ?_⟩
      · simp only [hcopy, bind, Except.bind, map_nil]
      · rw [length_append, ← hcount]
      · rw [hbytes, htake]
    · have hroom : demux.tsbufp + (buf.take (size - demux.tsbufp)).length ≤ demux.tsbuf.length := by
        rw [h.length_eq, length_take]
        omega
      obtain ⟨tsbuf, hcopy, hlen, hbytes⟩ := memcpy_fits hroom
      have hsum : demux.tsbufp + (buf.take (size - demux.tsbufp)).length = size := by
        rw [length_take]
        omega
      rw [hsum, htake] at hbytes
      have hfull : 0 < size ∧ size ≤ (b :: (tail ++ buf)).length := by
        refine ⟨hsize, ?_⟩
        rw [length_cons] at hcount
        rw [length_cons, length_append]
        omega
      have hcut : (b :: tail ++ buf).take size = tsbuf.take size := by
        rw [hbytes, take_append, take_of_length_le (by omega), hcount]
      have hdrop : (b :: tail ++ buf).drop size = buf.drop (size - demux.tsbufp) := by
        rw [drop_append, drop_of_length_le (by omega), List.nil_append, hcount]
      have hhead : tsbuf.headD 0 = b := by
        cases tsbuf with
        | nil => simp at hbytes
        | cons c rest =>
          obtain ⟨n, rfl⟩ := Nat.exists_eq_succ_of_ne_zero (Nat.ne_of_gt hsize)
          exact (List.cons.inj hbytes).1
      have hempty : Holds ⟨tsbuf, 0⟩ [] := ⟨hlen.trans h.length_eq, rfl, rfl⟩
      obtain ⟨demux', hres, hholds⟩ : ∃ demux', filterRest size sync toPacket ⟨tsbuf, 0⟩
          (buf.drop (size - demux.tsbufp)) = .ok (demux', _) ∧ Holds demux' _ :=
        filterRest_spec hsize hfit hempty _
      rw [if_neg hshort, cons_append, frames_cut hb hfull, ← cons_append, hdrop, hcut]
      refine ⟨demux', ?_, hholds⟩
      simp only [hcopy, bind, Except.bind, hhead, hb, if_true, hres, map_cons, singleton_append]

end Refinement

theorem feedAll_swfilter {size : ℕ} (sync : Byte → Bool) (toPacket : List Byte → List Byte)
    (hsize : 0 < size) (hfit : size ≤ 204) {tsbuf : List Byte} (htsbuf : tsbuf.length = 204)
    (pieces : List (List Byte)) :
    ∃ demux, feedAll (swfilter size sync toPacket) ⟨tsbuf, 0⟩ pieces =
        .ok (demux, (frames sync size pieces.flatten).1.map toPacket) ∧
      Holds demux (frames sync size pieces.flatten).2 := by
  have hempty : Holds ⟨tsbuf, 0⟩ [] := ⟨htsbuf, rfl, rfl⟩
  have hpend : Pending sync size ([] : List Byte) := nofun
  exact feedAll_frames Holds (fun demux rest buf h hrest => swfilter_spec hsize hfit h hrest buf)
    hempty hpend pieces

theorem length_tmppack {frame : List Byte} (h : frame.length = 204) : (tmppack frame).length = 188 := by
  have htake : (frame.take 188).length = 188 := length_take_of_le (by omega)
  unfold tmppack
  split
  · rename_i hnil
    rw [hnil] at htake
    cases htake
  · rename_i hcons
    rw [hcons] at htake
    exact htake

/-- What two runs have in common: packets of 188 bytes, and the bytes that are parked. -/
def SameRun (filter : Demux → List Byte → Except Fault (Demux × List (List Byte)))
    (tsbuf tsbuf' : List Byte) (pieces pieces' : List (List Byte)) : Prop :=
  ∃ demux demux' packets,
    feedAll filter ⟨tsbuf, 0⟩ pieces = .ok (demux, packets) ∧
    feedAll filter ⟨tsbuf', 0⟩ pieces' = .ok (demux', packets) ∧
    (∀ packet ∈ packets, packet.length = 188) ∧
    demux.tsbufp = demux'.tsbufp ∧
    demux.tsbuf.take demux.tsbufp = demux'.tsbuf.take demux'.tsbufp

theorem sameRun_swfilter {size : ℕ} (sync : Byte → Bool) {toPacket : List Byte → List Byte}
    (hsize : 0 < size) (hfit : size ≤ 204)
    (hpacket : ∀ frame : List Byte, frame.length = size → (toPacket frame).length = 188)
    {tsbuf tsbuf' : List Byte} (htsbuf : tsbuf.length = 204) (htsbuf' : tsbuf'.length = 204)
    {pieces pieces' : List (List Byte)} (h : pieces.flatten = pieces'.flatten) :
    SameRun (swfilter size sync toPacket) tsbuf tsbuf' pieces pieces' := by
  obtain ⟨demux, hrun, hholds⟩ := feedAll_swfilter sync toPacket hsize hfit htsbuf pieces
  obtain ⟨demux', hrun', hholds'⟩ := feedAll_swfilter sync toPacket hsize hfit htsbuf' pieces'
  rw [← h] at hrun' hholds'
  refine ⟨demux, demux', _, hrun, hrun', ?_, hholds.count_eq.trans hholds'.count_eq.symm,
    hholds.bytes_eq.trans hholds'.bytes_eq.symm⟩
  intro packet hp
  obtain ⟨frame, hframe, rfl⟩ := mem_map.mp hp
  exact hpacket frame (length_of_mem_frames hframe)

/-- Both filters are insensitive to fragmentation and never write behind `tsbuf`: for two ways to cut a
stream neither run fails, the packets are the same, and so is what stands in `tsbuf` at the end. -/
theorem swfilter_fragmentation {tsbuf tsbuf' : List Byte} (htsbuf : tsbuf.length = 204)
    (htsbuf' : tsbuf'.length = 204) {pieces pieces' : List (List Byte)}
    (h : pieces.flatten = pieces'.flatten) :
    SameRun dvbDmxSwfilter tsbuf tsbuf' pieces pieces' ∧
      SameRun dvbDmxSwfilter204 tsbuf tsbuf' pieces pieces' :=
  ⟨sameRun_swfilter _ (by decide) (by decide) (fun _ h => h) htsbuf htsbuf' h,
    sameRun_swfilter _ (by decide) (by decide) (fun _ h => length_tmppack h) htsbuf htsbuf' h⟩

def zeroBuf : List Byte := List.replicate 204 0

theorem length_zeroBuf : zeroBuf.length = 204 := length_replicate

theorem swfilter_fragmentation_twoCuts : zeroBuf.length = 204 ∧
    SameRun dvbDmxSwfilter zeroBuf zeroBuf [[0, 0x47], [], [1]] [[0], [0x47, 1]] ∧
    SameRun dvbDmxSwfilter204 zeroBuf zeroBuf [[0, 0x47], [], [1]] [[0], [0x47, 1]] :=
  ⟨length_zeroBuf, swfilter_fragmentation length_zeroBuf length_zeroBuf rfl⟩

end VDLinux.Drivers.Dvb
