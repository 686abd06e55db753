import VDLinux.Drivers.DvbSection

namespace VDLinux.Drivers.Dvb

open Base.Framing List

structure IsSection (s : List Byte) : Prop where
  header : 3 ≤ s.length
  length_le : s.length ≤ maxSectionSize
  length_eq : sectionLength s = s.length

def stuffing (m : ℕ) : List Byte := List.replicate m 0xff

section Dump

variable {pre junk : List Byte}

theorem sectionLength_append {s : List Byte} (h : 3 ≤ s.length) (t : List Byte) :
    sectionLength (s ++ t) = sectionLength s := by
  rw [sectionLength, sectionLength, getD_append _ _ _ _ (by omega),
    getD_append _ _ _ _ (by omega)]

theorem dump_section {s : List Byte} (hs : IsSection s) (rest : List Byte) :
    dump (pre ++ (s ++ rest) ++ junk) (pre ++ (s ++ rest)).length pre.length =
      ((dump (pre ++ s ++ rest ++ junk) (pre ++ s ++ rest).length (pre ++ s).length).1,
        s :: (dump (pre ++ s ++ rest ++ junk) (pre ++ s ++ rest).length (pre ++ s).length).2) := by
  have hdrop : (pre ++ (s ++ rest) ++ junk).drop pre.length = s ++ (rest ++ junk) := by
    simp only [append_assoc, drop_left]
  have hlen : sectionLength (s ++ (rest ++ junk)) = s.length := by
    rw [sectionLength_append hs.header, hs.length_eq]
  have hheader := hs.header
  have hle := hs.length_le
  have hmore : pre.length + 2 < (pre ++ (s ++ rest)).length := by
    simp only [length_append]
    omega
  have hfits : ¬ (s.length = 0 ∨ maxSectionSize < s.length ∨
      (pre ++ (s ++ rest)).length < s.length + pre.length) := by
    simp only [length_append]
    omega
  have hstep : (pre ++ s).length = pre.length + s.length := length_append
  rw [hstep, append_assoc pre s rest, dump, if_pos hmore]
  simp only [hdrop, hlen, if_neg hfits, take_left]

theorem dump_sections {sections : List (List Byte)} (hs : ∀ s ∈ sections, IsSection s) {rest : List Byte}
    (hrest : ∀ pre : List Byte,
      dump (pre ++ rest ++ junk) (pre ++ rest).length pre.length = (pre.length, [])) :
    dump (pre ++ (sections.flatten ++ rest) ++ junk) (pre ++ (sections.flatten ++ rest)).length
      pre.length = ((pre ++ sections.flatten).length, sections) := by
  induction sections generalizing pre with
  | nil =>
    rw [flatten_nil, List.nil_append, append_nil]
    exact hrest pre
  | cons s sections ih =>
    obtain ⟨hs₁, hs₂⟩ := forall_mem_cons.mp hs
    rw [flatten_cons, append_assoc s, dump_section hs₁, ih hs₂, append_assoc pre]

theorem dump_stuffing (m : ℕ) (pre : List Byte) :
    dump (pre ++ stuffing m ++ junk) (pre ++ stuffing m).length pre.length = (pre.length, []) := by
  rw [dump]
  split
  · rename_i hmore
    have hm : 3 ≤ m := by
      simp only [stuffing, length_append, length_replicate] at hmore
      omega
    obtain ⟨k, rfl⟩ := Nat.exists_eq_add_of_le' hm
    have hlen : sectionLength ((pre ++ stuffing (k + 3) ++ junk).drop pre.length) = 4098 := by
      rw [append_assoc, drop_left]
      simp only [stuffing, replicate_succ, cons_append, sectionLength, getD_cons_succ,
        getD_cons_zero]
      decide
    rw [if_pos]
    rw [hlen]
    exact .inr (.inl (by decide))
  · rfl

theorem dump_unfinished {head rest : List Byte} (hs : IsSection (head ++ rest)) (hrest : rest ≠ [])
    (pre : List Byte) :
    dump (pre ++ head ++ junk) (pre ++ head).length pre.length = (pre.length, []) := by
  rw [dump]
  split
  · rename_i hmore
    have hhead : 3 ≤ head.length := by
      simp only [length_append] at hmore
      omega
    have hlen : sectionLength ((pre ++ head ++ junk).drop pre.length) = (head ++ rest).length := by
      rw [append_assoc, drop_left, sectionLength_append hhead, ← hs.length_eq,
        sectionLength_append hhead]
    have hpos := length_pos_of_ne_nil hrest
    rw [if_pos]
    rw [hlen]
    refine .inr (.inr ?_)
    simp only [length_append]
    omega
  · rfl

end Dump

/-- The buffer begins with the sections `done` and with `tail`, and `secbufp` stands behind the sections `done`. -/
structure Buffered (feed : Feed) (done : List (List Byte)) (tail : List Byte) : Prop where
  bytes : ∃ junk, feed.secbufBase = done.flatten ++ tail ++ junk
  base_length : feed.secbufBase.length = maxSecfeedSize
  secbufp_eq : feed.secbufp = done.flatten.length
  tsfeedp_eq : feed.tsfeedp = (done.flatten ++ tail).length

variable {feed : Feed}

theorem sectionCopyDump_room {done sections : List (List Byte)} {tail data tail' : List Byte}
    (h : Buffered feed done tail) (hdata : data ≠ [])
    (hroom : (done.flatten ++ tail ++ data).length ≤ maxSecfeedSize)
    (hsections : ∀ s ∈ sections, IsSection s) (hsplit : tail ++ data = sections.flatten ++ tail')
    (hstop : ∀ junk pre : List Byte,
      dump (pre ++ tail' ++ junk) (pre ++ tail').length pre.length = (pre.length, [])) :
    ∃ feed', sectionCopyDump feed data = .ok (feed', if feed.pusiSeen then sections else []) ∧
      Buffered feed' (done ++ sections) tail' ∧ feed'.cc = feed.cc ∧ feed'.pusiSeen = feed.pusiSeen := by
  obtain ⟨junk, hbytes⟩ := h.bytes
  have hpos := length_pos_of_ne_nil hdata
  have hlen : feed.tsfeedp + data.length = (done.flatten ++ tail ++ data).length := by
    simp only [h.tsfeedp_eq, length_append]
  have hfull : ¬ maxSecfeedSize ≤ feed.tsfeedp := by omega
  have hclamp : ¬ maxSecfeedSize < feed.tsfeedp + data.length := by omega
  have hempty : ¬ data.length = 0 := by omega
  have hfit : feed.tsfeedp + data.length ≤ feed.secbufBase.length := by
    rw [h.base_length, hlen]
    exact hroom
  obtain ⟨base, hcopy, hlen', htake⟩ := memcpy_fits hfit
  have hbase : base = done.flatten ++ (sections.flatten ++ tail') ++ base.drop (feed.tsfeedp + data.length) := by
    have hold : feed.secbufBase.take feed.tsfeedp = done.flatten ++ tail := by
      rw [hbytes, h.tsfeedp_eq, take_left]
    rw [← hsplit, ← append_assoc, ← hold, ← htake, take_append_drop]
  have hlimit : feed.tsfeedp + data.length = (done.flatten ++ (sections.flatten ++ tail')).length := by
    rw [hlen, ← hsplit, append_assoc]
  have hdump : dump base (feed.tsfeedp + data.length) feed.secbufp =
      ((done.flatten ++ sections.flatten).length, sections) := by
    rw [hlimit, h.secbufp_eq, hbase]
    exact dump_sections hsections (hstop _)
  unfold sectionCopyDump
  rw [if_neg hfull]
  simp only [if_neg hclamp, if_neg hempty, hcopy, bind, Except.bind, hdump]
  refine ⟨_, rfl, ⟨⟨base.drop (feed.tsfeedp + data.length), ?_⟩, hlen'.trans h.base_length, ?_, ?_⟩,
    rfl, rfl⟩
  · rw [flatten_append, append_assoc done.flatten]
    exact hbase
  · rw [flatten_append]
  · rw [flatten_append, append_assoc done.flatten]
    exact hlimit

/-- The state between two packets behind the first PUSI, for a section of which `pending` is still to
come. `unfinished` is that section. -/
inductive Follows (feed : Feed) : List Byte → List (List Byte) → Prop
  | idle {done : List (List Byte)} {m : ℕ} (hb : Buffered feed done (stuffing m))
      (hseen : feed.pusiSeen = true) (hdone : ∀ s ∈ done, IsSection s) : Follows feed [] []
  | active {done : List (List Byte)} {tail pending : List Byte} (hb : Buffered feed done tail)
      (hseen : feed.pusiSeen = true) (hdone : ∀ s ∈ done, IsSection s) (hpending : pending ≠ [])
      (hs : IsSection (tail ++ pending)) (hplace : done.flatten.length ≤ 182) :
      Follows feed pending [tail ++ pending]

theorem stuffing_add (m n : ℕ) : stuffing m ++ stuffing n = stuffing (m + n) := replicate_append_replicate

theorem take_stuffing (n m : ℕ) : (stuffing m).take n = stuffing (min n m) := take_replicate

theorem isSection_of_mem_nil : ∀ s ∈ ([] : List (List Byte)), IsSection s := nofun

variable {unfinished : List (List Byte)}

theorem sectionCopyDump_more {data pending : List Byte}
    (h : Follows feed (data ++ pending) unfinished) (hdata : data ≠ []) (hpending : pending ≠ []) :
    ∃ feed', sectionCopyDump feed data = .ok (feed', []) ∧ Follows feed' pending unfinished ∧
      feed'.cc = feed.cc := by
  cases hp : data ++ pending with
  | nil => exact absurd (append_eq_nil_iff.mp hp).1 hdata
  | cons b rest =>
    rw [hp] at h
    cases h with
    | @active done tail _ hb hseen hdone _ hs hplace =>
      rw [← hp] at hs ⊢
      rw [← append_assoc] at hs ⊢
      have hle := hs.length_le
      have hroom : (done.flatten ++ tail ++ data).length ≤ maxSecfeedSize := by
        simp only [length_append, maxSecfeedSize] at hle ⊢
        omega
      obtain ⟨feed', hres, hb', hcc, hseen'⟩ := sectionCopyDump_room hb hdata hroom
        isSection_of_mem_nil (List.nil_append _).symm fun junk pre => dump_unfinished hs hpending pre
      rw [ite_self] at hres
      rw [append_nil] at hb'
      exact ⟨feed', hres, Follows.active hb' (hseen'.trans hseen) hdone hpending hs hplace, hcc⟩

theorem sectionCopyDump_clamp (feed : Feed) (data : List Byte) :
    sectionCopyDump feed data = sectionCopyDump feed (data.take (maxSecfeedSize - feed.tsfeedp)) := by
  unfold sectionCopyDump
  by_cases hfull : maxSecfeedSize ≤ feed.tsfeedp
  · rw [if_pos hfull, if_pos hfull]
  have hshort : ¬ maxSecfeedSize <
      feed.tsfeedp + (data.take (maxSecfeedSize - feed.tsfeedp)).length := by
    rw [length_take]
    omega
  have hclamped : (if maxSecfeedSize < feed.tsfeedp + data.length
      then data.take (maxSecfeedSize - feed.tsfeedp) else data) =
        data.take (maxSecfeedSize - feed.tsfeedp) := by
    split
    · rfl
    · rw [take_of_length_le (by omega)]
  simp only [if_neg hfull, if_neg hshort, hclamped]

variable {pending : List Byte}

theorem sectionCopyDump_ends (h : Follows feed pending unfinished) (m : ℕ) :
    ∃ feed', sectionCopyDump feed (pending ++ stuffing m) = .ok (feed', unfinished) ∧
      Follows feed' [] [] ∧ feed'.cc = feed.cc := by
  rw [sectionCopyDump_clamp]
  cases h with
  | @idle done k hb hseen hdone =>
    rw [List.nil_append, take_stuffing]
    generalize hn : min (maxSecfeedSize - feed.tsfeedp) m = n
    cases n with
    | zero =>
      refine ⟨feed, ?_, Follows.idle hb hseen hdone, rfl⟩
      simp [sectionCopyDump, stuffing]
    | succ n =>
      have hne : stuffing (n + 1) ≠ [] := cons_ne_nil _ _
      have hroom : (done.flatten ++ stuffing k ++ stuffing (n + 1)).length ≤ maxSecfeedSize := by
        have htsfeedp := hb.tsfeedp_eq
        rw [length_append, ← htsfeedp, stuffing, length_replicate]
        omega
      obtain ⟨feed', hres, hb', hcc, hseen'⟩ := sectionCopyDump_room hb hne hroom
        isSection_of_mem_nil ((stuffing_add k (n + 1)).trans (List.nil_append _).symm)
        fun junk pre => dump_stuffing _ pre
      rw [ite_self] at hres
      rw [append_nil] at hb'
      exact ⟨feed', hres, Follows.idle hb' (hseen'.trans hseen) hdone, hcc⟩
  | @active done tail _ hb hseen hdone hpending hs hplace =>
    have hle := hs.length_le
    have htsfeedp := hb.tsfeedp_eq
    have hfit : feed.tsfeedp + pending.length ≤ maxSecfeedSize := by
      rw [htsfeedp]
      simp only [length_append, maxSecfeedSize, maxSectionSize] at hle ⊢
      omega
    rw [take_append, take_of_length_le (by omega), take_stuffing]
    generalize hn : min (maxSecfeedSize - feed.tsfeedp - pending.length) m = n
    have hne : pending ++ stuffing n ≠ [] := fun h => hpending (append_eq_nil_iff.mp h).1
    have hroom : (done.flatten ++ tail ++ (pending ++ stuffing n)).length ≤ maxSecfeedSize := by
      rw [length_append, ← htsfeedp, length_append, stuffing, length_replicate]
      omega
    have hone : ∀ s ∈ [tail ++ pending], IsSection s := fun s h => mem_singleton.mp h ▸ hs
    obtain ⟨feed', hres, hb', hcc, hseen'⟩ := sectionCopyDump_room hb hne hroom hone
      (by rw [flatten_singleton, append_assoc]) fun junk pre => dump_stuffing _ pre
    rw [if_pos hseen] at hres
    exact ⟨feed', hres, Follows.idle hb' (hseen'.trans hseen) (forall_mem_append.mpr ⟨hdone, hone⟩), hcc⟩

/-- The bytes behind the pointer field: sections, and stuffing or the beginning of a section. The last
argument is what is still to come. -/
inductive Begins : List Byte → List (List Byte) → List Byte → Prop
  | complete {sections : List (List Byte)} (hne : sections ≠ []) (hs : ∀ s ∈ sections, IsSection s)
      (m : ℕ) : Begins (sections.flatten ++ stuffing m) sections []
  | unfinished {whole : List (List Byte)} {head rest : List Byte} (hs : ∀ s ∈ whole, IsSection s)
      (hlast : IsSection (head ++ rest)) (hhead : head ≠ []) (hrest : rest ≠ []) :
      Begins (whole.flatten ++ head) (whole ++ [head ++ rest]) rest

variable {begun : List (List Byte)}

theorem Begins.ne_nil {after pending : List Byte}
    (h : Begins after begun pending) : after ≠ [] := by
  cases h with
  | @complete sections hne hs m =>
    obtain ⟨s, sections, rfl⟩ := exists_cons_of_ne_nil hne
    have hlen := (hs s mem_cons_self).header
    intro hnil
    have := congrArg List.length hnil
    simp only [flatten_cons, length_append, length_nil] at this
    omega
  | unfinished hs hlast hhead hrest => exact fun h => hhead (append_eq_nil_iff.mp h).2

theorem sectionCopyDump_begins {after pending : List Byte}
    (h : Begins after begun pending) (hb : Buffered feed [] []) (hseen : feed.pusiSeen = true)
    (hlen : after.length ≤ 183) :
    ∃ feed' out unfinished, sectionCopyDump feed after = .ok (feed', out) ∧
      Follows feed' pending unfinished ∧ begun = out ++ unfinished ∧ feed'.cc = feed.cc := by
  have hne := h.ne_nil
  have hroom : (([] : List (List Byte)).flatten ++ [] ++ after).length ≤ maxSecfeedSize := by
    simp only [flatten_nil, append_nil, List.nil_append, maxSecfeedSize]
    omega
  cases h with
  | @complete sections _ hs m =>
    obtain ⟨feed', hres, hb', hcc, hseen'⟩ := sectionCopyDump_room hb hne hroom hs rfl
      fun junk pre => dump_stuffing m pre
    rw [if_pos hseen] at hres
    exact ⟨feed', _, _, hres, Follows.idle hb' (hseen'.trans hseen) hs, (append_nil _).symm, hcc⟩
  | @unfinished whole head rest hs hlast hhead hrest =>
    obtain ⟨feed', hres, hb', hcc, hseen'⟩ := sectionCopyDump_room hb hne hroom hs rfl
      fun junk pre => dump_unfinished hlast hrest pre
    rw [if_pos hseen] at hres
    have hplace : whole.flatten.length ≤ 182 := by
      have := length_pos_of_ne_nil hhead
      rw [length_append] at hlen
      omega
    exact ⟨feed', _, _, hres, Follows.active hb' (hseen'.trans hseen) hs hrest hlast hplace, rfl, hcc⟩

theorem payload_le (buf : List Byte) : payload buf ≤ 184 := by
  unfold payload
  split
  · omega
  · split
    · split <;> omega
    · omega

theorem length_payloadBytes {buf : List Byte} (h : buf.length = 188) :
    (payloadBytes buf).length = payload buf := by
  have := payload_le buf
  rw [payloadBytes, length_drop, h]
  omega

/-- A packet with PUSI whose pointer field counts the bytes `before` the first section that begins. -/
structure Starts (buf before after : List Byte) : Prop where
  length_eq : buf.length = 188
  pusi_set : pusi buf = true
  bytes : ∃ pointer : Byte, payloadBytes buf = pointer :: (before ++ after) ∧
    pointer.toNat = before.length

theorem Starts.payload_eq {buf before after : List Byte} (h : Starts buf before after) :
    payload buf = before.length + after.length + 1 := by
  obtain ⟨pointer, hbytes, -⟩ := h.bytes
  rw [← length_payloadBytes h.length_eq, hbytes, length_cons, length_append]

theorem sectionPayload_starts {feed feed₁ feed₂ : Feed} {buf before after : List Byte}
    {out₁ out₂ : List (List Byte)} (h : Starts buf before after) (hafter : after ≠ [])
    (hbefore : sectionCopyDump feed before = .ok (feed₁, out₁))
    (hbegins : sectionCopyDump { feed₁ with pusiSeen := true }.sectionNew after = .ok (feed₂, out₂)) :
    sectionPayload feed buf = .ok (feed₂, out₁ ++ out₂) := by
  have hcount := h.payload_eq
  have hpos := length_pos_of_ne_nil hafter
  obtain ⟨pointer, hbytes, hpointer⟩ := h.bytes
  have hin : 1 < payload buf ∧ before.length < payload buf := by omega
  unfold sectionPayload
  simp only [h.pusi_set, if_true, hbytes, getD_cons_zero, hpointer, if_pos hin, drop_one,
    tail_cons, take_left, drop_left, hbefore, hbegins, bind, Except.bind]

/-- One packet of a stream, when `pending` is what is still to come of a section: the sections that
begin in it, and what is still to come behind it. -/
inductive Carries (buf : List Byte) : List Byte → List (List Byte) → List Byte → Prop
  | empty (hpayload : payload buf = 0) (pending : List Byte) : Carries buf pending [] pending
  | middle {pending : List Byte} (hpayload : payload buf ≠ 0) (hpusi : pusi buf = false)
      (hpending : pending ≠ []) : Carries buf (payloadBytes buf ++ pending) [] pending
  | last {pending : List Byte} {m : ℕ} (hpayload : payload buf ≠ 0) (hpusi : pusi buf = false)
      (hbytes : payloadBytes buf = pending ++ stuffing m) : Carries buf pending [] []
  | start {pending after pending' : List Byte} {m : ℕ} {begun : List (List Byte)}
      (hstarts : Starts buf (pending ++ stuffing m) after) (hbegins : Begins after begun pending') :
      Carries buf pending begun pending'

/-- The continuity counter behind a packet: only packets with payload count. -/
def counter (cc : Byte) (buf : List Byte) : Byte :=
  if payload buf = 0 then cc else buf.getD 3 0 &&& 0x0f

/-- What is left of the stream does not run into the two resets: a packet without payload comes before a
section has been taken out of the buffer, and no packet with payload announces a discontinuity. -/
def Feed.Undisturbed (feed : Feed) (buf : List Byte) : Prop :=
  (payload buf = 0 → feed.secbufp = 0) ∧ (payload buf ≠ 0 → discontinuity buf = false)

theorem Feed.checked_eq {buf : List Byte}
    (hcc : (feed.cc + 1) &&& 0x0f = buf.getD 3 0 &&& 0x0f) (hdisc : discontinuity buf = false) :
    feed.checked buf = { feed with cc := buf.getD 3 0 &&& 0x0f } := by
  unfold Feed.checked
  rw [if_neg]
  intro h
  cases h with
  | inl h => exact h hcc
  | inr h => exact Bool.false_ne_true (hdisc.symm.trans h)

theorem Follows.withCc
    (h : Follows feed pending unfinished) (cc : Byte) : Follows { feed with cc := cc } pending unfinished := by
  cases h with
  | idle hb hseen hdone =>
    exact .idle ⟨hb.bytes, hb.base_length, hb.secbufp_eq, hb.tsfeedp_eq⟩ hseen hdone
  | active hb hseen hdone hpending hs hplace =>
    exact .active ⟨hb.bytes, hb.base_length, hb.secbufp_eq, hb.tsfeedp_eq⟩ hseen hdone hpending hs hplace

theorem Follows.base_length
    (h : Follows feed pending unfinished) : feed.secbufBase.length = maxSecfeedSize := by
  cases h with
  | idle hb hseen hdone => exact hb.base_length
  | active hb hseen hdone hpending hs hplace => exact hb.base_length

theorem buffered_sectionNew (h : feed.secbufBase.length = maxSecfeedSize) :
    Buffered { feed with pusiSeen := true }.sectionNew [] [] :=
  ⟨⟨feed.secbufBase, rfl⟩, h, rfl, rfl⟩

/-- A packet of the stream keeps the books: what was unfinished or begins in the packet is delivered or
is unfinished behind it. -/
theorem swfilterPacketType_carries {buf pending pending' : List Byte}
    {begun unfinished : List (List Byte)} (h : Follows feed pending unfinished) (hlen : buf.length = 188)
    (hc : Carries buf pending begun pending')
    (hcc : payload buf ≠ 0 → (feed.cc + 1) &&& 0x0f = buf.getD 3 0 &&& 0x0f)
    (hquiet : feed.Undisturbed buf) :
    ∃ feed' out unfinished', swfilterPacketType feed buf = .ok (feed', out) ∧
      Follows feed' pending' unfinished' ∧ unfinished ++ begun = out ++ unfinished' ∧
      feed'.cc = counter feed.cc buf := by
  by_cases hpayload : payload buf = 0
  · have hcounter : counter feed.cc buf = feed.cc := if_pos hpayload
    have hsame : { feed with secbufp := 0 } = feed := by
      rw [← hquiet.1 hpayload]
    rw [swfilterPacketType_empty hpayload, hsame, hcounter]
    cases hc with
    | empty => exact ⟨feed, [], unfinished, rfl, h, append_nil _, rfl⟩
    | middle hno => exact absurd hpayload hno
    | last hno => exact absurd hpayload hno
    | start hstarts =>
      have := hstarts.payload_eq
      omega
  · have hcounter : counter feed.cc buf = buf.getD 3 0 &&& 0x0f := if_neg hpayload
    rw [swfilterPacketType_payload hpayload, Feed.checked_eq (hcc hpayload) (hquiet.2 hpayload), hcounter]
    generalize buf.getD 3 0 &&& 0x0f = cc
    have h' := h.withCc cc
    cases hc with
    | empty hno => exact absurd hno hpayload
    | middle _ hpusi hpending =>
      have hdata : payloadBytes buf ≠ [] := by
        rw [← length_pos_iff, length_payloadBytes hlen]
        omega
      obtain ⟨feed', hres, hf, hcc'⟩ := sectionCopyDump_more h' hdata hpending
      refine ⟨feed', [], unfinished, ?_, hf, append_nil _, hcc'⟩
      simp [sectionPayload, hpusi, hres]
    | @last _ m _ hpusi hbytes =>
      obtain ⟨feed', hres, hf, hcc'⟩ := sectionCopyDump_ends h' m
      refine ⟨feed', unfinished, [], ?_, hf, rfl, hcc'⟩
      simp [sectionPayload, hpusi, hbytes, hres]
    | @start _ after _ m _ hstarts hbegins =>
      have hafter : after.length ≤ 183 := by
        have := hstarts.payload_eq
        have := payload_le buf
        omega
      obtain ⟨feed₁, hres₁, hf₁, hcc₁⟩ := sectionCopyDump_ends h' m
      obtain ⟨feed₂, out, unfinished', hres₂, hf₂, hsplit, hcc₂⟩ := sectionCopyDump_begins hbegins
        (buffered_sectionNew hf₁.base_length) rfl hafter
      refine ⟨feed₂, unfinished ++ out, unfinished', sectionPayload_starts hstarts hbegins.ne_nil hres₁ hres₂,
        hf₂, ?_, hcc₂.trans hcc₁⟩
      rw [hsplit, append_assoc]

/-- The packets behind the first PUSI packet, the counter there being `cc` and `pending` still to come: the
sections that begin in them, and what is still to come at their end. -/
inductive Stream : Byte → List Byte → List (List Byte) → List (List Byte) → List Byte → Prop
  | nil (cc : Byte) (pending : List Byte) : Stream cc pending [] [] pending
  | cons {cc : Byte} {buf pending pending₁ pending' : List Byte} {begun packets sections : List (List Byte)}
      (hlen : buf.length = 188) (hcarries : Carries buf pending begun pending₁)
      (hcc : payload buf ≠ 0 → (cc + 1) &&& 0x0f = buf.getD 3 0 &&& 0x0f)
      (hrest : Stream (counter cc buf) pending₁ packets sections pending') :
      Stream cc pending (buf :: packets) (begun ++ sections) pending'

def UndisturbedRun (feed : Feed) (packets : List (List Byte)) : Prop :=
  ∀ before buf after feed' out, packets = before ++ buf :: after →
    feedAll swfilterPacketType feed before = .ok (feed', out) → feed'.Undisturbed buf

theorem UndisturbedRun.tail {feed feed' : Feed} {buf : List Byte} {packets out : List (List Byte)}
    (h : UndisturbedRun feed (buf :: packets)) (hstep : swfilterPacketType feed buf = .ok (feed', out)) :
    UndisturbedRun feed' packets := by
  intro before b after feed'' out' hsplit hrun
  refine h (buf :: before) b after feed'' (out ++ out') (by rw [hsplit]; rfl) ?_
  simp only [feedAll, hstep, hrun, bind, Except.bind]

theorem feedAll_stream {cc : Byte} {pending pending' : List Byte}
    {packets sections unfinished : List (List Byte)} (h : Follows feed pending unfinished)
    (hcc : feed.cc = cc) (hs : Stream cc pending packets sections pending')
    (hquiet : UndisturbedRun feed packets) :
    ∃ feed' out unfinished', feedAll swfilterPacketType feed packets = .ok (feed', out) ∧
      Follows feed' pending' unfinished' ∧ unfinished ++ sections = out ++ unfinished' := by
  induction hs generalizing feed unfinished with
  | nil cc pending => exact ⟨feed, [], unfinished, rfl, h, append_nil _⟩
  | cons hlen hcarries hcount hrest ih =>
    subst hcc
    obtain ⟨feed₁, out₁, unfinished₁, hres₁, hf₁, hbooks₁, hcc₁⟩ := swfilterPacketType_carries h hlen hcarries
      hcount (hquiet [] _ _ feed [] rfl rfl)
    obtain ⟨feed₂, out₂, unfinished₂, hres₂, hf₂, hbooks₂⟩ := ih hf₁ hcc₁ (hquiet.tail hres₁)
    refine ⟨feed₂, out₁ ++ out₂, unfinished₂, ?_, hf₂, ?_⟩
    · simp only [feedAll, hres₁, hres₂, bind, Except.bind]
    · rw [← append_assoc, hbooks₁, append_assoc, hbooks₂, append_assoc]

theorem Follows.length_unfinished (h : Follows feed pending unfinished) :
    (pending = [] → unfinished = []) ∧ unfinished.length ≤ 1 := by
  cases h with
  | idle hb hseen hdone => exact ⟨fun _ => rfl, Nat.zero_le _⟩
  | active hb hseen hdone hpending hs hplace => exact ⟨fun h => absurd h hpending, Nat.le_refl _⟩

theorem swfilterPacketType_first {first before after pending : List Byte} (h : feed.Bounded) (hstarts : Starts first before after)
    (hbegins : Begins after begun pending) :
    ∃ feed' garbage out unfinished, swfilterPacketType feed first = .ok (feed', garbage ++ out) ∧
      Follows feed' pending unfinished ∧ begun = out ++ unfinished ∧
      feed'.cc = first.getD 3 0 &&& 0x0f ∧ (feed.pusiSeen = false → garbage = []) := by
  have hcount := hstarts.payload_eq
  have hle := payload_le first
  have hchecked : (feed.checked first).cc = first.getD 3 0 &&& 0x0f ∧
      (feed.pusiSeen = false → (feed.checked first).pusiSeen = false) := by
    unfold Feed.checked
    dsimp only
    split
    · exact ⟨rfl, fun _ => rfl⟩
    · exact ⟨rfl, id⟩
  obtain ⟨feed₁, garbage, hres₁, hb₁, hcc₁, -, hgarbage⟩ := sectionCopyDump_bounded (h.checked first) before
  obtain ⟨feed₂, out, unfinished, hres₂, hf₂, hsplit, hcc₂⟩ := sectionCopyDump_begins hbegins
    (buffered_sectionNew hb₁.base_length) rfl (by omega)
  refine ⟨feed₂, garbage, out, unfinished, ?_, hf₂, hsplit, hcc₂.trans (hcc₁.trans hchecked.1),
    fun hno => hgarbage (hchecked.2 hno)⟩
  rw [swfilterPacketType_payload (by omega)]
  exact sectionPayload_starts hstarts hbegins.ne_nil hres₁ hres₂

/-- Reassembly: the cursors are in order whatever arrives, and behind the first PUSI packet every section
is delivered once, in order, as long as the run meets none of the two resets. -/
theorem sections_delivered {feed : Feed} (h : feed.Bounded) :
    (∀ packets : List (List Byte), ∃ feed' out,
      feedAll swfilterPacketType feed packets = .ok (feed', out) ∧
        feed'.secbufp ≤ feed'.tsfeedp ∧ feed'.tsfeedp ≤ maxSecfeedSize) ∧
    ∀ (pre rest begun sections : List (List Byte)) (first before after pending pending' : List Byte),
      (∀ buf ∈ pre, pusi buf = false) → Starts first before after → Begins after begun pending →
      Stream (first.getD 3 0 &&& 0x0f) pending rest sections pending' →
      (∀ feed₁ out, feedAll swfilterPacketType feed (pre ++ [first]) = .ok (feed₁, out) →
        UndisturbedRun feed₁ rest) →
      ∃ feed' garbage delivered unfinished,
        feedAll swfilterPacketType feed (pre ++ [first] ++ rest) = .ok (feed', garbage ++ delivered) ∧
        begun ++ sections = delivered ++ unfinished ∧ (pending' = [] → unfinished = []) ∧
        unfinished.length ≤ 1 ∧ (feed.pusiSeen = false → garbage = []) := by
  refine ⟨fun packets => ?_, ?_⟩
  · obtain ⟨feed', out, hres, hb, -⟩ := feedAll_bounded h packets
    exact ⟨feed', out, hres, hb.secbufp_le, hb.tsfeedp_le⟩
  intro pre rest begun sections first before after pending pending' hpre hstarts hbegins hstream hquiet
  obtain ⟨feed₁, out₁, hres₁, hb₁, hsilent⟩ := feedAll_bounded h pre
  obtain ⟨feed₂, garbage, out₂, unfinished, hres₂, hf₂, hsplit, hcc, hgarbage⟩ :=
    swfilterPacketType_first hb₁ hstarts hbegins
  have hfirst : feedAll swfilterPacketType feed (pre ++ [first]) = .ok (feed₂, out₁ ++ (garbage ++ out₂)) := by
    refine feedAll_append hres₁ ?_
    simp only [feedAll, hres₂, bind, Except.bind, append_nil]
  obtain ⟨feed₃, out₃, unfinished', hres₃, hf₃, hbooks⟩ := feedAll_stream hf₂ hcc hstream (hquiet _ _ hfirst)
  refine ⟨feed₃, out₁ ++ garbage, out₂ ++ out₃, unfinished', ?_, ?_, hf₃.length_unfinished.1,
    hf₃.length_unfinished.2, ?_⟩
  · rw [feedAll_append hfirst hres₃]
    simp only [append_assoc]
  · rw [hsplit, append_assoc, hbooks, append_assoc]
  · intro hno
    obtain ⟨hno₁, hout₁⟩ := hsilent hpre hno
    rw [hout₁, hgarbage hno₁]
    rfl

/-- A feed as `dvbdmx_section_feed_start_filtering` leaves it. -/
def startedFeed : Feed :=
  { secbufBase := List.replicate maxSecfeedSize 0, secbufp := 0, tsfeedp := 0, pusiSeen := false, cc := 0 }

theorem startedFeed_bounded : startedFeed.Bounded :=
  ⟨length_replicate, Nat.le_refl 0, Nat.zero_le _⟩

def shortSection : List Byte := [0x40, 0x00, 0x01, 0xaa]

def longSection : List Byte := [0x41, 0x00, 0xb1] ++ List.replicate 177 0x55

/-- The PUSI packet in which the long section begins; the four bytes before it are an old section if the
pointer is 4, and a new one if the pointer is 0. -/
def firstPacket (pointer : Byte) : List Byte :=
  [0x47, 0x40, 0x00, 0x10, pointer] ++ shortSection ++ longSection.take 179

def adaptationPacket : List Byte := [0x47, 0x00, 0x00, 0x20, 183, 0x00] ++ stuffing 182

def lastPacket : List Byte := [0x47, 0x00, 0x00, 0x11] ++ longSection.drop 179 ++ stuffing 183

theorem isSection_shortSection : IsSection shortSection := ⟨by decide, by decide, by decide⟩

theorem isSection_longSection : IsSection (longSection.take 179 ++ longSection.drop 179) :=
  ⟨by decide +kernel, by decide +kernel, by decide +kernel⟩

theorem stream_lastPackets : Stream 0 (longSection.drop 179) [adaptationPacket, lastPacket] [] [] := by
  have hempty : payload adaptationPacket = 0 := by decide +kernel
  have hlast : Carries lastPacket (longSection.drop 179) [] [] :=
    .last (by decide +kernel) (by decide +kernel) (show _ = _ ++ stuffing 183 by decide +kernel)
  exact .cons (by decide +kernel) (.empty hempty _) (fun hno => absurd hempty hno)
    (.cons (by decide +kernel) hlast (fun _ => by decide +kernel) (.nil _ _))

/-- A packet without payload between the two packets of the long section: the short one comes again. -/
theorem sections_delivered_twice :
    startedFeed.Bounded ∧ Starts (firstPacket 0) [] (shortSection ++ longSection.take 179) ∧
    Begins (shortSection ++ longSection.take 179) [shortSection, longSection] (longSection.drop 179) ∧
    Stream ((firstPacket 0).getD 3 0 &&& 0x0f) (longSection.drop 179) [adaptationPacket, lastPacket] [] [] ∧
    ((feedAll swfilterPacketType startedFeed [firstPacket 0, adaptationPacket, lastPacket]).toOption.map
      Prod.snd) = some [shortSection, shortSection, longSection] := by
  have hbegins : Begins ([shortSection].flatten ++ longSection.take 179)
      ([shortSection] ++ [longSection.take 179 ++ longSection.drop 179]) (longSection.drop 179) :=
    .unfinished (fun s h => mem_singleton.mp h ▸ isSection_shortSection) isSection_longSection
      (by decide +kernel) (by decide +kernel)
  refine ⟨startedFeed_bounded, ⟨by decide +kernel, by decide +kernel, 0, by decide +kernel, rfl⟩, ?_,
    stream_lastPackets, by decide +kernel⟩
  rw [take_append_drop, flatten_singleton] at hbegins
  exact hbegins

theorem undisturbedRun_lastPackets {out : List (List Byte)}
    (h : feedAll swfilterPacketType startedFeed [firstPacket 4] = .ok (feed, out)) :
    UndisturbedRun feed [adaptationPacket, lastPacket] := by
  have hsecbufp : feed.secbufp = 0 := by
    have hrun : (feedAll swfilterPacketType startedFeed [firstPacket 4]).toOption.map
        (fun r => r.1.secbufp) = some 0 := by decide +kernel
    rw [h] at hrun
    exact Option.some.inj hrun
  intro pre buf post feed' out' hsplit hrun
  cases pre with
  | nil =>
    cases hsplit
    cases hrun
    exact ⟨fun _ => hsecbufp, fun hno => absurd (by decide +kernel) hno⟩
  | cons p pre =>
    cases pre with
    | nil =>
      cases hsplit
      exact ⟨fun hno => absurd hno (by decide +kernel), fun _ => by decide +kernel⟩
    | cons q pre => cases pre <;> cases hsplit

theorem sections_delivered_acrossAdaptation :
    startedFeed.Bounded ∧ ∃ feed' out, feedAll swfilterPacketType startedFeed
      ([] ++ [firstPacket 4] ++ [adaptationPacket, lastPacket]) = .ok (feed', out) ∧ out = [longSection] := by
  refine ⟨startedFeed_bounded, ?_⟩
  have hbegins : Begins (([] : List (List Byte)).flatten ++ longSection.take 179)
      ([] ++ [longSection.take 179 ++ longSection.drop 179]) (longSection.drop 179) :=
    .unfinished isSection_of_mem_nil isSection_longSection (by decide +kernel) (by decide +kernel)
  have hstarts : Starts (firstPacket 4) shortSection (([] : List (List Byte)).flatten ++ longSection.take 179) :=
    ⟨by decide +kernel, by decide +kernel, 4, by decide +kernel, rfl⟩
  obtain ⟨feed', garbage, delivered, unfinished, hrun, hsplit, hnone, -, hgarbage⟩ :=
    (sections_delivered startedFeed_bounded).2 [] _ _ _ (firstPacket 4) _ _ _ _ nofun
      hstarts hbegins stream_lastPackets fun _ _ h => undisturbedRun_lastPackets h
  rw [hnone rfl, append_nil, append_nil, take_append_drop] at hsplit
  refine ⟨feed', garbage ++ delivered, hrun, ?_⟩
  rw [hgarbage rfl, ← hsplit]
  rfl

end VDLinux.Drivers.Dvb
