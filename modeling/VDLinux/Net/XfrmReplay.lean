import Mathlib

namespace VDLinux.Net.XfrmReplay

open List

/-- The replay part of an `xfrm_state`: `props.replay_window`, `replay` and `stats`. -/
structure XfrmState where
  replayWindow : BitVec 8
  seq : BitVec 32
  bitmap : BitVec 32
  statsReplayWindow : ℕ
  statsReplay : ℕ

inductive Undefined where
  | wideShift
  deriving DecidableEq

def shl (x : BitVec 32) (n : ℕ) : Except Undefined (BitVec 32) :=
  if n < 32 then .ok (x <<< n) else .error .wideShift

def xfrmReplayCheck (x : XfrmState) (seq : BitVec 32) : Except Undefined (Bool × XfrmState) :=
  if seq = 0 then .ok (false, x)
  else if x.seq < seq then .ok (true, x)
  else
    let diff := (x.seq - seq).toNat
    if min x.replayWindow.toNat 32 ≤ diff then
      .ok (false, { x with statsReplayWindow := x.statsReplayWindow + 1 })
    else do
      let mask ← shl 1 diff
      if x.bitmap &&& mask ≠ 0 then .ok (false, { x with statsReplay := x.statsReplay + 1 })
      else .ok (true, x)

def xfrmReplayAdvance (x : XfrmState) (seq : BitVec 32) : Except Undefined XfrmState :=
  if x.seq < seq then
    let diff := (seq - x.seq).toNat
    if diff < x.replayWindow.toNat then do
      let shifted ← shl x.bitmap diff
      .ok { x with bitmap := shifted ||| 1, seq := seq }
    else .ok { x with bitmap := 1, seq := seq }
  else do
    let mask ← shl 1 (x.seq - seq).toNat
    .ok { x with bitmap := x.bitmap ||| mask }

def receive (x : XfrmState) (seq : BitVec 32) : Except Undefined (Bool × XfrmState) := do
  let (pass, x) ← xfrmReplayCheck x seq
  if pass then
    let x ← xfrmReplayAdvance x seq
    .ok (true, x)
  else .ok (false, x)

/-- The accepted sequence numbers, the latest first, after more packets. -/
def run (x : XfrmState) (accepted : List (BitVec 32)) :
    List (BitVec 32) → Except Undefined (List (BitVec 32) × XfrmState)
  | [] => .ok (accepted, x)
  | seq :: packets => do
    let (pass, x) ← receive x seq
    run x (if pass then seq :: accepted else accepted) packets

def start (window : BitVec 8) : XfrmState := ⟨window, 0, 0, 0, 0⟩

def highest (accepted : List (BitVec 32)) : ℕ := (accepted.map BitVec.toNat).foldr max 0

/-- The bitmap tells, for every number in the window, whether it has been accepted. -/
structure Tracks (x : XfrmState) (accepted : List (BitVec 32)) : Prop where
  nodup : accepted.Nodup
  highest_eq : x.seq.toNat = highest accepted
  bits : ∀ d < min x.replayWindow.toNat 32,
    x.bitmap.getLsbD d = true ↔ ∃ s ∈ accepted, s.toNat + d = x.seq.toNat
  pos : ∀ s ∈ accepted, s ≠ 0

theorem le_highest {accepted : List (BitVec 32)} {s : BitVec 32} (h : s ∈ accepted) :
    s.toNat ≤ highest accepted := by
  induction accepted with
  | nil => cases h
  | cons a accepted ih =>
    obtain rfl | h := mem_cons.mp h
    · exact Nat.le_max_left _ _
    · exact Nat.le_trans (ih h) (Nat.le_max_right _ _)

theorem shl_ok {x : BitVec 32} {n : ℕ} (h : n < 32) : shl x n = .ok (x <<< n) := if_pos h

theorem getLsbD_one_shl {i d : ℕ} (hi : i < 32) :
    ((1 : BitVec 32) <<< d).getLsbD i = decide (i = d) := by
  by_cases hid : i = d
  · simp [hid, hid ▸ hi]
  · have : ¬ i < d → ¬ i - d = 0 := by omega
    by_cases hlt : i < d
    · simp [hlt, hid]
    · simp [hlt, hid, this hlt]

theorem and_one_shl_ne_zero (x : BitVec 32) {d : ℕ} (hd : d < 32) :
    x &&& (1 : BitVec 32) <<< d ≠ 0 ↔ x.getLsbD d = true := by
  constructor
  · intro h
    by_contra hbit
    refine h (BitVec.eq_of_getLsbD_eq fun i hi => ?_)
    rw [BitVec.getLsbD_and, getLsbD_one_shl hi]
    by_cases hid : i = d
    · rw [hid, Bool.eq_false_iff.mpr hbit]
      simp
    · simp [hid]
  · intro h h0
    have hbit := congrArg (fun y : BitVec 32 => y.getLsbD d) h0
    simp only [BitVec.getLsbD_and, getLsbD_one_shl hd, h] at hbit
    simp at hbit

variable {x : XfrmState} {accepted : List (BitVec 32)} {seq : BitVec 32}

def Fits (x : XfrmState) (accepted : List (BitVec 32)) (seq : BitVec 32) : Prop :=
  seq ≠ 0 ∧ (x.seq < seq ∨
    (x.seq - seq).toNat < min x.replayWindow.toNat 32 ∧ seq ∉ accepted)

theorem sub_toNat_of_not_lt (h : ¬ x.seq < seq) : (x.seq - seq).toNat + seq.toNat = x.seq.toNat := by
  have hle : seq ≤ x.seq := BitVec.not_lt.mp h
  rw [BitVec.toNat_sub_of_le hle]
  have := BitVec.le_def.mp hle
  omega

theorem xfrmReplayCheck_spec (h : Tracks x accepted) (seq : BitVec 32) :
    ∃ pass x', xfrmReplayCheck x seq = .ok (pass, x') ∧ Tracks x' accepted ∧
      x'.replayWindow = x.replayWindow ∧ x'.seq = x.seq ∧ (pass = true ↔ Fits x accepted seq) := by
  unfold xfrmReplayCheck
  split_ifs with h0 hlt
  · exact ⟨false, x, rfl, h, rfl, rfl, by simp [Fits, h0]⟩
  · exact ⟨true, x, rfl, h, rfl, rfl, fun _ => ⟨h0, .inl hlt⟩, fun _ => rfl⟩
  by_cases hw : min x.replayWindow.toNat 32 ≤ (x.seq - seq).toNat
  · simp only [if_pos hw]
    refine ⟨false, _, rfl, ⟨h.nodup, h.highest_eq, h.bits, h.pos⟩, rfl, rfl, nofun, ?_⟩
    rintro ⟨-, habove | ⟨hin, -⟩⟩
    · exact absurd habove hlt
    · omega
  have hd : (x.seq - seq).toNat < 32 := by omega
  have hsub := sub_toNat_of_not_lt hlt
  have hmem : (∃ s ∈ accepted, s.toNat + (x.seq - seq).toNat = x.seq.toNat) ↔ seq ∈ accepted := by
    constructor
    · rintro ⟨s, hs, hsum⟩
      rwa [show seq = s from BitVec.eq_of_toNat_eq (by omega)]
    · exact fun hs => ⟨seq, hs, by omega⟩
  have hbit := h.bits _ (Nat.not_le.mp hw)
  simp only [if_neg hw, shl_ok hd, bind, Except.bind]
  split_ifs with hset
  · have hin := hmem.mp (hbit.mp ((and_one_shl_ne_zero _ hd).mp hset))
    refine ⟨false, _, rfl, ⟨h.nodup, h.highest_eq, h.bits, h.pos⟩, rfl, rfl, ?_⟩
    simp [Fits, hlt, hin]
  · have hout : seq ∉ accepted := fun hin =>
      hset ((and_one_shl_ne_zero _ hd).mpr (hbit.mpr (hmem.mpr hin)))
    exact ⟨true, x, rfl, h, rfl, rfl, fun _ => ⟨h0, .inr ⟨Nat.not_le.mp hw, hout⟩⟩, fun _ => rfl⟩

theorem highest_cons (seq : BitVec 32) (accepted : List (BitVec 32)) :
    highest (seq :: accepted) = max seq.toNat (highest accepted) := rfl

variable (h : Tracks x accepted)
include h

theorem xfrmReplayAdvance_above (hwindow : x.replayWindow.toNat ≤ 32) (hlt : x.seq < seq) :
    ∃ x', xfrmReplayAdvance x seq = .ok x' ∧ Tracks x' (seq :: accepted) ∧
      x'.replayWindow = x.replayWindow := by
  have hltNat : x.seq.toNat < seq.toNat := BitVec.lt_def.mp hlt
  have hdiff : (seq - x.seq).toNat + x.seq.toNat = seq.toNat := by
    rw [BitVec.toNat_sub_of_le (BitVec.le_of_lt hlt)]
    omega
  have hout : ∀ s ∈ accepted, s.toNat ≤ x.seq.toNat := fun s hs => h.highest_eq ▸ le_highest hs
  have hnodup : (seq :: accepted).Nodup :=
    nodup_cons.mpr ⟨fun hin => by have := hout seq hin; omega, h.nodup⟩
  have hhigh : seq.toNat = highest (seq :: accepted) := by
    rw [highest_cons, ← h.highest_eq]
    omega
  have hpos : ∀ s ∈ seq :: accepted, s ≠ 0 := by
    refine forall_mem_cons.mpr ⟨?_, h.pos⟩
    rintro rfl
    simp at hltNat
  have hone : ∀ d, (1 : BitVec 32).getLsbD d = decide (d = 0) := fun d => by
    simp
  -- a number that is not the new highest one stands behind the old highest one
  have hmem : ∀ d, (∃ s ∈ seq :: accepted, s.toNat + d = seq.toNat) ↔ d = 0 ∨ (seq - x.seq).toNat ≤ d ∧
      ∃ s ∈ accepted, s.toNat + (d - (seq - x.seq).toNat) = x.seq.toNat := by
    intro d
    constructor
    · rintro ⟨s, hs, hsum⟩
      obtain rfl | hs := mem_cons.mp hs
      · exact .inl (by omega)
      · have := hout s hs
        exact .inr ⟨by omega, s, hs, by omega⟩
    · rintro (rfl | ⟨hle, s, hs, hsum⟩)
      · exact ⟨seq, mem_cons_self, rfl⟩
      · exact ⟨s, mem_cons_of_mem _ hs, by omega⟩
  unfold xfrmReplayAdvance
  rw [if_pos hlt]
  by_cases hin : (seq - x.seq).toNat < x.replayWindow.toNat
  · have hd : (seq - x.seq).toNat < 32 := by omega
    simp only [if_pos hin, shl_ok hd, bind, Except.bind]
    refine ⟨_, rfl, ⟨hnodup, hhigh, fun d hdw => ?_, hpos⟩, rfl⟩
    dsimp only at hdw ⊢
    rw [hmem, ← h.bits (d - (seq - x.seq).toNat) (by omega), BitVec.getLsbD_or, BitVec.getLsbD_shiftLeft, hone,
      decide_eq_true (show d < 32 by omega), Bool.or_eq_true, decide_eq_true_iff, or_comm]
    simp
  · simp only [if_neg hin]
    refine ⟨_, rfl, ⟨hnodup, hhigh, fun d hdw => ?_, hpos⟩, rfl⟩
    dsimp only at hdw ⊢
    rw [hmem, hone, decide_eq_true_iff]
    exact ⟨.inl, fun hor => hor.resolve_right fun hle => by omega⟩

theorem xfrmReplayAdvance_inside (h0 : seq ≠ 0) (hlt : ¬ x.seq < seq)
    (hd : (x.seq - seq).toNat < min x.replayWindow.toNat 32) (hnew : seq ∉ accepted) :
    ∃ x', xfrmReplayAdvance x seq = .ok x' ∧ Tracks x' (seq :: accepted) ∧
      x'.replayWindow = x.replayWindow := by
  have hsub := sub_toNat_of_not_lt hlt
  have hd32 : (x.seq - seq).toNat < 32 := by omega
  unfold xfrmReplayAdvance
  rw [if_neg hlt]
  simp only [shl_ok hd32, bind, Except.bind]
  refine ⟨_, rfl, ⟨nodup_cons.mpr ⟨hnew, h.nodup⟩, ?_, ?_, ?_⟩, rfl⟩
  · change x.seq.toNat = _
    rw [highest_cons, ← h.highest_eq]
    omega
  · intro d hdw
    dsimp only at hdw ⊢
    rw [BitVec.getLsbD_or, getLsbD_one_shl (by omega), Bool.or_eq_true, h.bits d hdw, decide_eq_true_iff]
    constructor
    · rintro (⟨s, hs, hsum⟩ | rfl)
      · exact ⟨s, mem_cons_of_mem _ hs, hsum⟩
      · exact ⟨seq, mem_cons_self, by omega⟩
    · rintro ⟨s, hs, hsum⟩
      obtain rfl | hs := mem_cons.mp hs
      · exact .inr (by omega)
      · exact .inl ⟨s, hs, hsum⟩
  · exact forall_mem_cons.mpr ⟨h0, h.pos⟩

theorem receive_spec (hwindow : x.replayWindow.toNat ≤ 32) (seq : BitVec 32) :
    ∃ pass x', receive x seq = .ok (pass, x') ∧
      Tracks x' (if pass then seq :: accepted else accepted) ∧ x'.replayWindow = x.replayWindow ∧
      (pass = true ↔ Fits x accepted seq) := by
  obtain ⟨pass, x₁, hcheck, htracks, hw, hseq, hiff⟩ := xfrmReplayCheck_spec h seq
  cases pass with
  | false =>
    exact ⟨false, x₁, by simp only [receive, hcheck, bind, Except.bind, Bool.false_eq_true, if_false],
      htracks, hw, hiff⟩
  | true =>
    obtain ⟨h0, hplace⟩ := hiff.mp rfl
    have hadvance : ∃ x', xfrmReplayAdvance x₁ seq = .ok x' ∧ Tracks x' (seq :: accepted) ∧
        x'.replayWindow = x₁.replayWindow := by
      by_cases hlt : x₁.seq < seq
      · exact xfrmReplayAdvance_above htracks (hw ▸ hwindow) hlt
      · obtain ⟨hd, hnew⟩ := hplace.resolve_left (hseq ▸ hlt)
        exact xfrmReplayAdvance_inside htracks h0 hlt (by rwa [hseq, hw]) hnew
    obtain ⟨x', hres, htracks', hw'⟩ := hadvance
    exact ⟨true, x', by simp only [receive, hcheck, hres, bind, Except.bind, if_true],
      htracks', hw'.trans hw, hiff⟩

theorem run_spec (hwindow : x.replayWindow.toNat ≤ 32) (packets : List (BitVec 32)) :
    ∃ accepted' x', run x accepted packets = .ok (accepted', x') ∧ Tracks x' accepted' ∧
      x'.replayWindow = x.replayWindow := by
  induction packets generalizing x accepted with
  | nil => exact ⟨accepted, x, rfl, h, rfl⟩
  | cons seq packets ih =>
    obtain ⟨pass, x₁, hres, htracks, hw, -⟩ := receive_spec h hwindow seq
    obtain ⟨accepted', x', hrun, htracks', hw'⟩ := ih htracks (hw ▸ hwindow)
    exact ⟨accepted', x', by simp only [run, hres, bind, Except.bind, hrun], htracks', hw'.trans hw⟩

omit h

theorem tracks_start (window : BitVec 8) : Tracks (start window) [] := by
  refine ⟨nodup_nil, rfl, ?_, nofun⟩
  intro d _
  simp [start]

/-- The window works: over all packets no shift is undefined, no number is accepted twice, and a number
that has not been accepted and is above the highest accepted one or in the window behind it is. -/
def AntiReplay (window : BitVec 8) : Prop :=
  ∀ packets, ∃ accepted x, run (start window) [] packets = .ok (accepted, x) ∧ accepted.Nodup ∧
    ∀ seq, seq ≠ 0 → seq ∉ accepted →
      (highest accepted < seq.toNat ∨ highest accepted - seq.toNat < min window.toNat 32) →
      ∃ x', receive x seq = .ok (true, x')

theorem run_wideShift (window : BitVec 8) (h : 32 < window.toNat) :
    run (start window) [] [1, 33] = .error .wideShift := by
  have hone : (1 - 0 : BitVec 32).toNat < window.toNat := Nat.lt_trans (by decide) h
  have hwide : (33 - 1 : BitVec 32).toNat < window.toNat := h
  have hfirst : receive ⟨window, 0, 0, 0, 0⟩ 1 = .ok (true, ⟨window, 1, 1, 0, 0⟩) := by
    have hlt : (0 : BitVec 32) < 1 := by decide
    have hshift : shl 0 (1 - 0 : BitVec 32).toNat = .ok 0 := by decide
    simp only [receive, xfrmReplayCheck, if_neg (show (1 : BitVec 32) ≠ 0 by decide), if_pos hlt, bind,
      Except.bind, if_true, xfrmReplayAdvance, if_pos hone, hshift]
    rfl
  have hsecond : receive ⟨window, 1, 1, 0, 0⟩ 33 = .error .wideShift := by
    have hlt : (1 : BitVec 32) < 33 := by decide
    have hshift : shl 1 (33 - 1 : BitVec 32).toNat = .error .wideShift := by decide
    simp only [receive, xfrmReplayCheck, if_neg (show (33 : BitVec 32) ≠ 0 by decide), if_pos hlt, bind,
      Except.bind, if_true, xfrmReplayAdvance, if_pos hwide, hshift]
  simp only [run, start, hfirst, hsecond, bind, Except.bind]

/-- The clamped window of the check protects the window of the advance only up to 32. -/
theorem antiReplay_iff (window : BitVec 8) : AntiReplay window ↔ window.toNat ≤ 32 := by
  constructor
  · intro h
    by_contra hwide
    obtain ⟨accepted, x, hrun, -⟩ := h [1, 33]
    rw [run_wideShift window (Nat.not_le.mp hwide)] at hrun
    cases hrun
  · intro hwindow packets
    obtain ⟨accepted, x, hrun, htracks, hw⟩ := run_spec (tracks_start window) hwindow packets
    refine ⟨accepted, x, hrun, htracks.nodup, ?_⟩
    intro seq h0 hnew hplace
    have hw : x.replayWindow = window := hw
    obtain ⟨pass, x', hres, -, -, hiff⟩ := receive_spec htracks (hw ▸ hwindow) seq
    have hfits : Fits x accepted seq := by
      refine ⟨h0, ?_⟩
      by_cases hlt : x.seq < seq
      · exact .inl hlt
      · have hsub := sub_toNat_of_not_lt hlt
        have hhigh := htracks.highest_eq
        rw [hw]
        exact .inr ⟨by omega, hnew⟩
    rw [hiff.mpr hfits] at hres
    exact ⟨x', hres⟩

/-- A window of 33, as `sadb_sa_replay` may set it: the second packet shifts the bitmap by 32. -/
theorem antiReplay_fails : ¬ AntiReplay 33 := by
  intro h
  obtain ⟨accepted, x, hrun, -⟩ := h [1, 33]
  cases hrun

end VDLinux.Net.XfrmReplay
