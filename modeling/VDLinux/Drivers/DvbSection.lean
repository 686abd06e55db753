import VDLinux.Drivers.DvbDemux

namespace VDLinux.Drivers.Dvb

open Base.Framing

def maxSectionSize : ℕ := 4096

def maxSecfeedSize : ℕ := maxSectionSize + 188

/-- The parts of a `dvb_demux_feed` of type `DMX_TYPE_SEC` that the reassembly works on; `secbuf` is
always `secbuf_base + secbufp` where it is read. -/
structure Feed where
  secbufBase : List Byte
  secbufp : ℕ
  tsfeedp : ℕ
  pusiSeen : Bool
  cc : Byte

def sectionLength (buf : List Byte) : ℕ :=
  3 + ((buf.getD 1 0 &&& 0x0f).toNat <<< 8) + (buf.getD 2 0).toNat

def payload (tsp : List Byte) : ℕ :=
  if tsp.getD 3 0 &&& 0x10 = 0 then 0
  else if tsp.getD 3 0 &&& 0x20 ≠ 0 then
    if 183 < (tsp.getD 4 0).toNat then 0 else 184 - 1 - (tsp.getD 4 0).toNat
  else 184

def Feed.sectionNew (feed : Feed) : Feed := { feed with tsfeedp := 0, secbufp := 0 }

/-- The loop that looks for complete sections from `secbufp` on: where it stops, and what it found. -/
def dump (base : List Byte) (limit secbufp : ℕ) : ℕ × List (List Byte) :=
  if secbufp + 2 < limit then
    let seclen := sectionLength (base.drop secbufp)
    if seclen = 0 ∨ maxSectionSize < seclen ∨ limit < seclen + secbufp then (secbufp, [])
    else
      let r := dump base limit (secbufp + seclen)
      (r.1, (base.drop secbufp).take seclen :: r.2)
  else (secbufp, [])
termination_by limit - secbufp

/-- `dvb_dmx_swfilter_section_copy_dump` with the `len` bytes `data`; the second component is what is
given to `dvb_dmx_swfilter_section_feed`. -/
def sectionCopyDump (feed : Feed) (data : List Byte) : Except Fault (Feed × List (List Byte)) :=
  if maxSecfeedSize ≤ feed.tsfeedp then .ok (feed, [])
  else
    let data := if maxSecfeedSize < feed.tsfeedp + data.length
      then data.take (maxSecfeedSize - feed.tsfeedp) else data
    if data.length = 0 then .ok (feed, [])
    else do
      let base ← memcpy feed.secbufBase feed.tsfeedp data
      let limit := feed.tsfeedp + data.length
      let feed := { feed with secbufBase := base, tsfeedp := limit }
      if maxSecfeedSize < limit then .ok (feed, [])
      else
        let r := dump base limit feed.secbufp
        .ok ({ feed with secbufp := r.1 }, if feed.pusiSeen then r.2 else [])

def pusi (buf : List Byte) : Bool := buf.getD 1 0 &&& 0x40 ≠ 0

def discontinuity (buf : List Byte) : Bool :=
  buf.getD 3 0 &&& 0x20 ≠ 0 ∧ 0 < (buf.getD 4 0).toNat ∧ buf.getD 5 0 &&& 0x80 ≠ 0

def payloadBytes (buf : List Byte) : List Byte := buf.drop (188 - payload buf)

def sectionPayload (feed : Feed) (buf : List Byte) : Except Fault (Feed × List (List Byte)) :=
  let count := payload buf
  let data := payloadBytes buf
  if pusi buf then
    if 1 < count ∧ (data.getD 0 0).toNat < count then do
      let beforeLen := (data.getD 0 0).toNat
      let (feed, out) ← sectionCopyDump feed ((data.drop 1).take beforeLen)
      let feed := { feed with pusiSeen := true }.sectionNew
      let (feed, out') ← sectionCopyDump feed ((data.drop 1).drop beforeLen)
      .ok (feed, out ++ out')
    else .ok (feed, [])
  else sectionCopyDump feed data

/-- `dvb_dmx_swfilter_section_packet`; nothing for its return value -1. -/
def sectionPacket (feed : Feed) (buf : List Byte) : Except Fault (Option (Feed × List (List Byte))) :=
  if payload buf = 0 then .ok none
  else
    let cc := buf.getD 3 0 &&& 0x0f
    let ccok := (feed.cc + 1) &&& 0x0f = cc
    let feed := { feed with cc := cc }
    let feed := if ¬ ccok ∨ discontinuity buf then { feed with pusiSeen := false }.sectionNew else feed
    do
      let r ← sectionPayload feed buf
      .ok (some r)

/-- `dvb_dmx_swfilter_packet_type` for a feed that is filtering sections. -/
def swfilterPacketType (feed : Feed) (buf : List Byte) : Except Fault (Feed × List (List Byte)) := do
  match ← sectionPacket feed buf with
  | none => .ok ({ feed with secbufp := 0 }, [])
  | some r => .ok r

structure Feed.Bounded (feed : Feed) : Prop where
  base_length : feed.secbufBase.length = maxSecfeedSize
  secbufp_le : feed.secbufp ≤ feed.tsfeedp
  tsfeedp_le : feed.tsfeedp ≤ maxSecfeedSize

theorem dump_le {base : List Byte} {limit secbufp : ℕ} (h : secbufp ≤ limit) :
    (dump base limit secbufp).1 ≤ limit := by
  induction hn : limit - secbufp using Nat.strongRecOn generalizing secbufp with
  | ind n ih =>
    rw [dump]
    split
    · dsimp only
      split
      · exact h
      · exact ih (limit - (secbufp + sectionLength (base.drop secbufp))) (by omega) (by omega) rfl
    · exact h

variable {feed : Feed}

theorem sectionCopyDump_bounded (h : feed.Bounded) (data : List Byte) :
    ∃ feed' out, sectionCopyDump feed data = .ok (feed', out) ∧ feed'.Bounded ∧ feed'.cc = feed.cc ∧
      feed'.pusiSeen = feed.pusiSeen ∧ (feed.pusiSeen = false → out = []) := by
  unfold sectionCopyDump
  by_cases hfull : maxSecfeedSize ≤ feed.tsfeedp
  · rw [if_pos hfull]
    exact ⟨feed, [], rfl, h, rfl, rfl, fun _ => rfl⟩
  rw [if_neg hfull]
  generalize hdata : (if maxSecfeedSize < feed.tsfeedp + data.length
      then data.take (maxSecfeedSize - feed.tsfeedp) else data) = clamped
  have hfit : feed.tsfeedp + clamped.length ≤ maxSecfeedSize := by
    rw [← hdata]
    split
    · rw [List.length_take]
      omega
    · omega
  by_cases hempty : clamped.length = 0
  · rw [if_pos hempty]
    exact ⟨feed, [], rfl, h, rfl, rfl, fun _ => rfl⟩
  have hroom : feed.tsfeedp + clamped.length ≤ feed.secbufBase.length := by
    rw [h.base_length]
    exact hfit
  obtain ⟨base, hcopy, hlen, -⟩ := memcpy_fits hroom
  rw [if_neg hempty]
  simp only [hcopy, bind, Except.bind, if_neg (Nat.not_lt.mpr hfit)]
  refine ⟨_, _, rfl, ⟨hlen.trans h.base_length, ?_, hfit⟩, rfl, rfl, ?_⟩
  · have := h.secbufp_le
    exact dump_le (by omega)
  · intro hno
    rw [hno]
    rfl

/-- The feed as it stands when the payload of a packet is looked at. -/
def Feed.checked (feed : Feed) (buf : List Byte) : Feed :=
  let cc := buf.getD 3 0 &&& 0x0f
  if ¬ (feed.cc + 1) &&& 0x0f = cc ∨ discontinuity buf
  then { feed with cc := cc, pusiSeen := false }.sectionNew else { feed with cc := cc }

theorem swfilterPacketType_empty {buf : List Byte} (h : payload buf = 0) :
    swfilterPacketType feed buf = .ok ({ feed with secbufp := 0 }, []) := by
  simp only [swfilterPacketType, sectionPacket, if_pos h, bind, Except.bind]

theorem swfilterPacketType_payload {buf : List Byte} (h : payload buf ≠ 0) :
    swfilterPacketType feed buf = sectionPayload (feed.checked buf) buf := by
  simp only [swfilterPacketType, sectionPacket, if_neg h, bind, Except.bind, Feed.checked]
  cases sectionPayload _ buf with
  | error e => rfl
  | ok r => rfl

theorem Feed.Bounded.checked (h : feed.Bounded) (buf : List Byte) : (feed.checked buf).Bounded := by
  unfold Feed.checked
  dsimp only
  split
  · exact ⟨h.base_length, Nat.le_refl 0, Nat.zero_le _⟩
  · exact ⟨h.base_length, h.secbufp_le, h.tsfeedp_le⟩

theorem sectionPayload_bounded (h : feed.Bounded) (buf : List Byte) :
    ∃ feed' out, sectionPayload feed buf = .ok (feed', out) ∧ feed'.Bounded ∧
      (pusi buf = false → feed.pusiSeen = false → feed'.pusiSeen = false ∧ out = []) := by
  unfold sectionPayload
  cases hp : pusi buf with
  | false =>
    obtain ⟨feed', out, hres, hb, -, hseen, hout⟩ := sectionCopyDump_bounded h (payloadBytes buf)
    exact ⟨feed', out, hres, hb, fun _ hno => ⟨hseen.trans hno, hout hno⟩⟩
  | true =>
    rw [if_pos rfl]
    split
    · obtain ⟨feed₁, out₁, hres₁, hb₁, -⟩ := sectionCopyDump_bounded h
        (((payloadBytes buf).drop 1).take ((payloadBytes buf).getD 0 0).toNat)
      have hb₂ : { feed₁ with pusiSeen := true }.sectionNew.Bounded :=
        ⟨hb₁.base_length, Nat.le_refl 0, Nat.zero_le _⟩
      obtain ⟨feed₂, out₂, hres₂, hb₃, -⟩ := sectionCopyDump_bounded hb₂
        (((payloadBytes buf).drop 1).drop ((payloadBytes buf).getD 0 0).toNat)
      refine ⟨feed₂, out₁ ++ out₂, ?_, hb₃, nofun⟩
      simp only [hres₁, hres₂, bind, Except.bind]
    · exact ⟨feed, [], rfl, h, nofun⟩

/-- Whatever a packet holds, the cursors stay in order and the buffer is not overrun; without PUSI
nothing is delivered before the first PUSI. -/
theorem swfilterPacketType_bounded (h : feed.Bounded) (buf : List Byte) :
    ∃ feed' out, swfilterPacketType feed buf = .ok (feed', out) ∧ feed'.Bounded ∧
      (pusi buf = false → feed.pusiSeen = false → feed'.pusiSeen = false ∧ out = []) := by
  by_cases hcount : payload buf = 0
  · rw [swfilterPacketType_empty hcount]
    exact ⟨_, _, rfl, ⟨h.base_length, Nat.zero_le _, h.tsfeedp_le⟩, fun _ hno => ⟨hno, rfl⟩⟩
  · rw [swfilterPacketType_payload hcount]
    obtain ⟨feed', out, hres, hb, hout⟩ := sectionPayload_bounded (h.checked buf) buf
    refine ⟨feed', out, hres, hb, fun hp hno => hout hp ?_⟩
    unfold Feed.checked
    dsimp only
    split
    · rfl
    · exact hno

theorem feedAll_bounded (h : feed.Bounded) (packets : List (List Byte)) :
    ∃ feed' out, feedAll swfilterPacketType feed packets = .ok (feed', out) ∧ feed'.Bounded ∧
      ((∀ buf ∈ packets, pusi buf = false) → feed.pusiSeen = false →
        feed'.pusiSeen = false ∧ out = []) := by
  induction packets generalizing feed with
  | nil => exact ⟨feed, [], rfl, h, fun _ hno => ⟨hno, rfl⟩⟩
  | cons buf packets ih =>
    obtain ⟨feed₁, out₁, hres₁, hb₁, hout₁⟩ := swfilterPacketType_bounded h buf
    obtain ⟨feed₂, out₂, hres₂, hb₂, hout₂⟩ := ih hb₁
    refine ⟨feed₂, out₁ ++ out₂, by simp only [feedAll, hres₁, hres₂, bind, Except.bind], hb₂, ?_⟩
    intro hp hno
    obtain ⟨hno₁, rfl⟩ := hout₁ (hp buf List.mem_cons_self) hno
    obtain ⟨hno₂, rfl⟩ := hout₂ (fun b hb => hp b (List.mem_cons_of_mem _ hb)) hno₁
    exact ⟨hno₂, rfl⟩

end VDLinux.Drivers.Dvb
