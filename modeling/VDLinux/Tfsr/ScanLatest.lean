import VDLinux.Base.RunningMax
import VDLinux.Tfsr.Mount

namespace VDLinux.Tfsr.ScanLatest

open Base.RunningMax BlockMap MetaData Mount List UInt32

def scanned (rsv : BmlReservoir) : List Nat :=
  let last := if rsv.nRsvrType = .hybrid then rsv.n1stSbnOfMLC - 1 else rsv.nLastSbnOfRsvr
  List.range' rsv.n1stSbnOfRsvr (last + 1 - rsv.n1stSbnOfRsvr)

/-- The header of a block that is not marked bad, could be read and has the meta mark. -/
def metaHdr (lld : Lld) (call nPbn : Nat) : Option BmlPoolCtlHdr :=
  let r := lld call nPbn 0
  if le16 r.page.spare 0 = bmlValidBlkMark ∧ r.re.readable = true ∧
      le16 r.page.spare 2 = fsrLldBBMMetaMark then
    some r.page.poolCtlHdr
  else none

/-- As the scan reads it: one read for each block from the first one on. -/
def hdrAt (lld : Lld) (rsv : BmlReservoir) (nPbn : Nat) : Option BmlPoolCtlHdr :=
  metaHdr lld (nPbn - rsv.n1stSbnOfRsvr) nPbn

/-- A scanned control block of this type, with the greatest age of all of them. -/
def IsLatest (lld : Lld) (rsv : BmlReservoir) (t : PcbType) (b : Nat) : Prop :=
  b ∈ scanned rsv ∧ ∃ h, hdrAt lld rsv b = some h ∧ h.aSig = pchSig t ∧
    ∀ b' ∈ scanned rsv, ∀ h', hdrAt lld rsv b' = some h' → h'.aSig = pchSig t → h'.nAge ≤ h.nAge

def isPCB (h : BmlPoolCtlHdr) : Prop := h.aSig = bmlUPCHSig ∨ h.aSig = bmlLPCHSig

instance (h : BmlPoolCtlHdr) : Decidable (isPCB h) := inferInstanceAs (Decidable (_ ∨ _))

def IsLatestOfAll (lld : Lld) (rsv : BmlReservoir) (h : BmlPoolCtlHdr) : Prop :=
  (∃ b ∈ scanned rsv, hdrAt lld rsv b = some h) ∧ isPCB h ∧
    ∀ b' ∈ scanned rsv, ∀ h', hdrAt lld rsv b' = some h' → isPCB h' → h'.nGlobalAge ≤ h.nGlobalAge

structure LatestPCBs (lld : Lld) (rsv : BmlReservoir) (sh : BmlReservoirSh) : Prop where
  upcb : IsLatest lld rsv .upcb sh.nUPCBSbn.toNat
  lpcb : IsLatest lld rsv .lpcb sh.nLPCBSbn.toNat
  tpcb : ∃ h, IsLatestOfAll lld rsv h ∧ sh.nTPCBSbn = h.nTPCBPbn

/-- Either some block has an age and the first of the latest ones has a number that 16 bits can hold, or
the number that was there before is the right one. -/
def Settled (lld : Lld) (rsv : BmlReservoir) (t : PcbType) (before : UInt16) : Prop :=
  (∃ b, IsLatest lld rsv t b ∧ (∃ h, hdrAt lld rsv b = some h ∧ 0 < h.nAge) ∧
    (∀ b', IsLatest lld rsv t b' → b ≤ b') ∧ IsLatest lld rsv t (b % 2 ^ 16)) ∨
  ((∀ b ∈ scanned rsv, ∀ h, hdrAt lld rsv b = some h → h.aSig = pchSig t → h.nAge = 0) ∧
    IsLatest lld rsv t before.toNat)

structure Decisive (lld : Lld) (rsv : BmlReservoir) (sh : BmlReservoirSh) : Prop where
  upcb : Settled lld rsv .upcb sh.nUPCBSbn
  lpcb : Settled lld rsv .lpcb sh.nLPCBSbn
  tpcb : (∃ b ∈ scanned rsv, ∃ h, hdrAt lld rsv b = some h ∧ isPCB h ∧ sh.nGlobalPCBAge < h.nGlobalAge) ∨
    ∃ h, IsLatestOfAll lld rsv h ∧ sh.nTPCBSbn = h.nTPCBPbn

/-- The greatest age met so far, and the block it was met in. -/
def seat (t : PcbType) (sh : BmlReservoirSh) : Nat × UInt16 :=
  match t with
  | .upcb => (sh.nUPcbAge.toNat, sh.nUPCBSbn)
  | .lpcb => (sh.nLPcbAge.toNat, sh.nLPCBSbn)

def tpcbSeat (sh : BmlReservoirSh) : Nat × UInt16 := (sh.nGlobalPCBAge.toNat, sh.nTPCBSbn)

def pickPCB (t : PcbType) (h : Option BmlPoolCtlHdr) (nPbn : Nat) : Option (Nat × UInt16) :=
  match h with
  | some h => if h.aSig = pchSig t then some (h.nAge.toNat, .ofNat nPbn) else none
  | none => none

def pickTPCB (h : Option BmlPoolCtlHdr) : Option (Nat × UInt16) :=
  match h with
  | some h => if isPCB h then some (h.nGlobalAge.toNat, h.nTPCBPbn) else none
  | none => none

theorem pickPCB_eq_some {t : PcbType} {h : Option BmlPoolCtlHdr} {nPbn : Nat} {q : Nat × UInt16} :
    pickPCB t h nPbn = some q ↔
      ∃ h', h = some h' ∧ h'.aSig = pchSig t ∧ q = (h'.nAge.toNat, .ofNat nPbn) := by
  cases h with
  | none => simp [pickPCB]
  | some h =>
    simp only [pickPCB, Option.some.injEq, exists_eq_left']
    split
    · simp_all [eq_comm]
    · simp_all

theorem pickTPCB_eq_some {h : Option BmlPoolCtlHdr} {q : Nat × UInt16} :
    pickTPCB h = some q ↔ ∃ h', h = some h' ∧ isPCB h' ∧ q = (h'.nGlobalAge.toNat, h'.nTPCBPbn) := by
  cases h with
  | none => simp [pickTPCB]
  | some h =>
    simp only [pickTPCB, Option.some.injEq, exists_eq_left']
    split
    · simp_all [eq_comm]
    · simp_all

section Steps

variable {lld : Lld} {nPbn : Nat} {s s' : Scan} {h : BmlPoolCtlHdr}

theorem scanBlk_eq (lld : Lld) (nPbn : Nat) (s : Scan) : scanBlk lld nPbn s =
      match metaHdr lld s.calls nPbn with
      | none => .ok { s with calls := s.calls + 1 }
      | some h => (scanPCH nPbn h { s with calls := s.calls + 1 }).map (scanGlobalAge h) := by
  simp only [scanBlk, metaHdr]
  split_ifs <;> simp_all

/-- What a header does to the three maxima. -/
structure Notes (nPbn : Nat) (h : BmlPoolCtlHdr) (s s' : Scan) : Prop where
  calls : s'.calls = s.calls
  seat : ∀ t, seat t s'.sh = note (seat t s.sh) (pickPCB t (some h) nPbn)
  tpcbSeat : tpcbSeat s'.sh = tpcbSeat s.sh

theorem scanPCH_notes (hs : scanPCH nPbn h s = .ok s') : Notes nPbn h s s' := by
  have hne : bmlUPCHSig ≠ bmlLPCHSig := by decide
  unfold scanPCH at hs
  split_ifs at hs with hU hage hlt hL hage hlt <;> cases hs
  all_goals refine ⟨rfl, fun t => ?_, rfl⟩
  all_goals cases t <;> simp_all [seat, pickPCB, pchSig, lt_iff_toNat_lt, eq_comm]

theorem scanGlobalAge_seat (t : PcbType) : seat t (scanGlobalAge h s).sh = seat t s.sh := by
  unfold scanGlobalAge
  split_ifs <;> cases t <;> rfl

theorem scanGlobalAge_tpcbSeat :
    tpcbSeat (scanGlobalAge h s).sh = note (tpcbSeat s.sh) (pickTPCB (some h)) := by
  simp only [scanGlobalAge, pickTPCB, isPCB]
  split_ifs <;> simp_all [tpcbSeat, lt_iff_toNat_lt]

theorem scanGlobalAge_calls : (scanGlobalAge h s).calls = s.calls := by
  unfold scanGlobalAge
  split_ifs <;> rfl

theorem scanBlk_seats (hs : scanBlk lld nPbn s = .ok s') : s'.calls = s.calls + 1 ∧
      (∀ t, seat t s'.sh = note (seat t s.sh) (pickPCB t (metaHdr lld s.calls nPbn) nPbn)) ∧
      tpcbSeat s'.sh = note (tpcbSeat s.sh) (pickTPCB (metaHdr lld s.calls nPbn)) := by
  rw [scanBlk_eq] at hs
  cases hh : metaHdr lld s.calls nPbn with
  | none =>
    rw [hh] at hs
    cases hs
    exact ⟨rfl, fun t => rfl, rfl⟩
  | some h =>
    simp only [hh] at hs
    obtain ⟨s₁, hpch, rfl⟩ : ∃ s₁, scanPCH nPbn h { s with calls := s.calls + 1 } = .ok s₁ ∧
        scanGlobalAge h s₁ = s' := by
      cases hpch : scanPCH nPbn h { s with calls := s.calls + 1 } with
      | error e => rw [hpch] at hs; cases hs
      | ok s₁ =>
        rw [hpch] at hs
        exact ⟨s₁, rfl, Except.ok.inj hs⟩
    have hn := scanPCH_notes hpch
    refine ⟨?_, fun t => ?_, ?_⟩
    · rw [scanGlobalAge_calls, hn.calls]
    · rw [scanGlobalAge_seat, hn.seat]
    · rw [scanGlobalAge_tpcbSeat, hn.tpcbSeat]

theorem scanBlks_seats {first a n : Nat} (ha : a = first + s.calls)
    (hs : scanBlks lld (List.range' a n) s = .ok s') :
    (∀ t, seat t s'.sh =
      latest (fun b => pickPCB t (metaHdr lld (b - first) b) b) (seat t s.sh) (List.range' a n)) ∧
      tpcbSeat s'.sh =
        latest (fun b => pickTPCB (metaHdr lld (b - first) b)) (tpcbSeat s.sh) (List.range' a n) := by
  induction n generalizing a s with
  | zero =>
    cases hs
    exact ⟨fun t => rfl, rfl⟩
  | succ n ih =>
    rw [range'_succ, scanBlks] at hs
    cases hb : scanBlk lld a s with
    | error e => rw [hb] at hs; cases hs
    | ok s₁ =>
      rw [hb] at hs
      obtain ⟨hcalls, hseat, htpcb⟩ := scanBlk_seats hb
      obtain ⟨hseats, htpcbs⟩ := ih (by rw [hcalls, ha, Nat.add_assoc]) hs
      have hcall : a - first = s.calls := by omega
      refine ⟨fun t => ?_, ?_⟩
      · rw [hseats, hseat, range'_succ, latest, latest, foldl_cons, hcall]
      · rw [htpcbs, htpcb, range'_succ, latest, latest, foldl_cons, hcall]

end Steps

section Maxima

variable {lld : Lld} {rsv : BmlReservoir} {sh : BmlReservoirSh} {t : PcbType}

theorem isLatest_of_leads {b : Nat} {p : Nat × UInt16}
    (h : Leads (fun b => pickPCB t (hdrAt lld rsv b) b) (scanned rsv) b p) : IsLatest lld rsv t b := by
  obtain ⟨hdr, hhdr, hsig, rfl⟩ := pickPCB_eq_some.mp h.picked
  refine ⟨h.mem, hdr, hhdr, hsig, fun b' hb' h' hh' hsig' => ?_⟩
  exact le_iff_toNat_le.mpr (h.le b' hb' _ (pickPCB_eq_some.mpr ⟨h', hh', hsig', rfl⟩))

theorem IsLatest.le {b b' : Nat} (h : IsLatest lld rsv t b) (h' : IsLatest lld rsv t b')
    {hdr hdr' : BmlPoolCtlHdr} (hhdr : hdrAt lld rsv b = some hdr) (hhdr' : hdrAt lld rsv b' = some hdr') :
    hdr'.nAge ≤ hdr.nAge := by
  obtain ⟨-, h₁, hh₁, -, hle⟩ := h
  obtain ⟨hmem, h₂, hh₂, hsig, -⟩ := h'
  obtain rfl : hdr = h₁ := Option.some.inj (hhdr.symm.trans hh₁)
  obtain rfl : hdr' = h₂ := Option.some.inj (hhdr'.symm.trans hh₂)
  exact hle b' hmem hdr' hhdr' hsig

theorem first_le {b : Nat} {p : Nat × UInt16}
    (h : First (fun b => pickPCB t (hdrAt lld rsv b) b) (scanned rsv) b p) {b' : Nat}
    (h' : IsLatest lld rsv t b') : b ≤ b' := by
  obtain ⟨before, rest, hsplit, hlt⟩ := h.split
  obtain ⟨hdr, hhdr, hsig, rfl⟩ := pickPCB_eq_some.mp h.picked
  obtain ⟨hmem, hdr', hhdr', hsig', -⟩ := id h'
  have hsorted : (scanned rsv).Pairwise (· < ·) := pairwise_lt_range'
  rw [hsplit] at hmem hsorted
  rcases mem_append.mp hmem with hbefore | hrest
  · have hle := h'.le (isLatest_of_leads h.toLeads) hhdr' hhdr
    have := hlt b' hbefore _ (pickPCB_eq_some.mpr ⟨hdr', hhdr', hsig', rfl⟩)
    exact absurd (le_iff_toNat_le.mp hle) (Nat.not_le_of_lt this)
  · cases hrest with
    | head => exact Nat.le_refl b
    | tail _ hrest =>
      exact ((pairwise_cons.mp (pairwise_append.mp hsorted).2.1).1 b' hrest).le

theorem settled_iff {before v : UInt16} {age : Nat}
    (hv : (age, v) = latest (fun b => pickPCB t (hdrAt lld rsv b) b) (0, before) (scanned rsv)) :
    IsLatest lld rsv t v.toNat ↔ Settled lld rsv t before := by
  have hages : ∀ b h, IsLatest lld rsv t b → hdrAt lld rsv b = some h → b ∈ scanned rsv ∧
      h.aSig = pchSig t := by
    rintro b h ⟨hmem, h', hh', hsig, -⟩ hh
    rw [Option.some.inj (hh.symm.trans hh')]
    exact ⟨hmem, hsig⟩
  obtain ⟨heq, hle⟩ | ⟨b, hfirst, hgt⟩ :=
    latest_cases (fun b => pickPCB t (hdrAt lld rsv b) b) (0, before) (scanned rsv)
  · -- no block has an age, so the number is still the one that was there
    rw [heq] at hv
    cases hv
    have hzero : ∀ b ∈ scanned rsv, ∀ h, hdrAt lld rsv b = some h → h.aSig = pchSig t → h.nAge = 0 := by
      intro b hb h hh hsig
      have := hle b hb _ (pickPCB_eq_some.mpr ⟨h, hh, hsig, rfl⟩)
      exact UInt32.toNat_inj.mp (Nat.le_zero.mp this)
    refine ⟨fun h => .inr ⟨hzero, h⟩, fun h => ?_⟩
    obtain ⟨b, hb, ⟨h, hh, hpos⟩, -⟩ | ⟨-, h⟩ := h
    · obtain ⟨hmem, hsig⟩ := hages b h hb hh
      rw [hzero b hmem h hh hsig] at hpos
      exact absurd hpos (by decide)
    · exact h
  · rw [← hv] at hfirst hgt
    obtain ⟨h, hh, hsig, hp⟩ := pickPCB_eq_some.mp hfirst.picked
    obtain ⟨rfl, rfl⟩ := Prod.mk.inj hp
    have hlatest := isLatest_of_leads hfirst.toLeads
    refine ⟨fun hv => .inl ⟨b, hlatest, ⟨h, hh, lt_iff_toNat_lt.mpr hgt⟩, ?_, hv⟩, fun hc => ?_⟩
    · exact fun b' hb' => first_le hfirst hb'
    · obtain ⟨b', hb', -, hmin, hmod⟩ | ⟨hzero, -⟩ := hc
      · rwa [Nat.le_antisymm (first_le hfirst hb') (hmin b hlatest)]
      · rw [hzero b hfirst.mem h hh hsig] at hgt
        exact absurd hgt (Nat.lt_irrefl 0)

theorem tpcb_iff {sh sh' : BmlReservoirSh}
    (hv : tpcbSeat sh' = latest (fun b => pickTPCB (hdrAt lld rsv b)) (tpcbSeat sh) (scanned rsv)) :
    (∃ h, IsLatestOfAll lld rsv h ∧ sh'.nTPCBSbn = h.nTPCBPbn) ↔
      (∃ b ∈ scanned rsv, ∃ h, hdrAt lld rsv b = some h ∧ isPCB h ∧ sh.nGlobalPCBAge < h.nGlobalAge) ∨
        ∃ h, IsLatestOfAll lld rsv h ∧ sh.nTPCBSbn = h.nTPCBPbn := by
  obtain ⟨heq, hle⟩ | ⟨b, hfirst, hgt⟩ :=
    latest_cases (fun b => pickTPCB (hdrAt lld rsv b)) (tpcbSeat sh) (scanned rsv)
  · have hsame : sh'.nTPCBSbn = sh.nTPCBSbn := congrArg Prod.snd (hv.trans heq)
    rw [hsame]
    refine ⟨.inr, fun h => ?_⟩
    obtain ⟨b, hb, h, hh, hpcb, hlt⟩ | h := h
    · have := hle b hb _ (pickTPCB_eq_some.mpr ⟨h, hh, hpcb, rfl⟩)
      exact absurd (lt_iff_toNat_lt.mp hlt) (Nat.not_lt_of_le this)
    · exact h
  · rw [← hv] at hfirst hgt
    obtain ⟨h, hh, hpcb, hp⟩ := pickTPCB_eq_some.mp hfirst.picked
    obtain ⟨hage, hsbn⟩ := Prod.mk.inj hp
    have hall : IsLatestOfAll lld rsv h := by
      refine ⟨⟨b, hfirst.mem, hh⟩, hpcb, fun b' hb' h' hh' hpcb' => le_iff_toNat_le.mpr ?_⟩
      rw [← hage]
      exact hfirst.le b' hb' _ (pickTPCB_eq_some.mpr ⟨h', hh', hpcb', rfl⟩)
    refine ⟨fun _ => .inl ⟨b, hfirst.mem, h, hh, hpcb, ?_⟩, fun _ => ⟨h, hall, hsbn⟩⟩
    rw [lt_iff_toNat_lt, ← hage]
    exact hgt

theorem scanReservoir_success (h : (scanReservoir lld rsv sh).1 = .success) :
    (∀ t, seat t (scanReservoir lld rsv sh).2.2 =
      latest (fun b => pickPCB t (hdrAt lld rsv b) b) (0, (seat t sh).2) (scanned rsv)) ∧
      tpcbSeat (scanReservoir lld rsv sh).2.2 =
        latest (fun b => pickTPCB (hdrAt lld rsv b)) (tpcbSeat sh) (scanned rsv) := by
  unfold scanReservoir at h ⊢
  dsimp only at h ⊢
  generalize hs : scanBlks lld _ _ = r at h ⊢
  cases r with
  | error s => cases h
  | ok s =>
    have hstart : rsv.n1stSbnOfRsvr = rsv.n1stSbnOfRsvr + 0 := rfl
    obtain ⟨hseat, htpcb⟩ := scanBlks_seats hstart hs
    dsimp only at h ⊢
    split_ifs at h ⊢
    refine ⟨fun t => ?_, htpcb⟩
    rw [hseat]
    cases t <;> rfl

/-- After a scan that succeeds the recorded blocks are the latest ones exactly if the ages decide it. -/
theorem scanReservoir_latest_iff (lld : Lld) (rsv : BmlReservoir) (sh : BmlReservoirSh)
    (h : (scanReservoir lld rsv sh).1 = .success) :
    LatestPCBs lld rsv (scanReservoir lld rsv sh).2.2 ↔ Decisive lld rsv sh := by
  obtain ⟨hseat, htpcb⟩ := scanReservoir_success h
  have hU := settled_iff (hseat .upcb)
  have hL := settled_iff (hseat .lpcb)
  have hT := tpcb_iff htpcb
  exact ⟨fun h => ⟨hU.mp h.upcb, hL.mp h.lpcb, hT.mp h.tpcb⟩,
    fun h => ⟨hU.mpr h.upcb, hL.mpr h.lpcb, hT.mpr h.tpcb⟩⟩

end Maxima

section Ageless

/-- The first page of a control block, with ages of one byte. -/
def pcbPage (t : PcbType) (nAge nGlobalAge : UInt8) : Page where
  main := fun i => if i < 4 then (pchSig t).getD i 0 else if i = 12 then nAge else if i = 16 then nGlobalAge else 0
  spare := fun i => if i < 2 then 0xFF else if i < 4 then 0xA5 else 0

def twoBlks (nAge : UInt8) : Lld := fun _ nPbn _ =>
  ⟨.success, if nPbn = 10 then pcbPage .upcb nAge 1 else pcbPage .lpcb 1 2⟩

def smallRsv : BmlReservoir :=
  ⟨.slc, 10, 11, 0, 0, 0, fun _ => ⟨0, 0⟩, fun _ => 0, fun _ => ⟨0, 0⟩⟩

def unmounted : BmlReservoirSh := ⟨0, 0, 0, 0, 0, 0, 0, 0, 0⟩

theorem scanReservoir_latest_iff_two : (scanReservoir (twoBlks 1) smallRsv unmounted).1 = .success ∧
    (LatestPCBs (twoBlks 1) smallRsv (scanReservoir (twoBlks 1) smallRsv unmounted).2.2 ↔
      Decisive (twoBlks 1) smallRsv unmounted) :=
  have h : (scanReservoir (twoBlks 1) smallRsv unmounted).1 = .success := by decide
  ⟨h, scanReservoir_latest_iff _ _ _ h⟩

/-- The only upper control block has age zero: it is found, but its number is not recorded. -/
theorem ageless_upcb_lost : (scanReservoir (twoBlks 0) smallRsv unmounted).1 = .success ∧
    (∃ h, hdrAt (twoBlks 0) smallRsv 10 = some h ∧ h.aSig = bmlUPCHSig) ∧
    ¬ LatestPCBs (twoBlks 0) smallRsv (scanReservoir (twoBlks 0) smallRsv unmounted).2.2 := by
  refine ⟨by decide, ⟨(twoBlks 0 0 10 0).page.poolCtlHdr, by decide, by decide⟩, fun h => ?_⟩
  have hnone : (scanReservoir (twoBlks 0) smallRsv unmounted).2.2.nUPCBSbn.toNat ∉ scanned smallRsv := by
    decide
  exact hnone h.upcb.1

end Ageless

end VDLinux.Tfsr.ScanLatest
