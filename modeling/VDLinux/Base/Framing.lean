import Mathlib

namespace VDLinux.Base.Framing

open List

variable {α : Type*} (sync : α → Bool) (size : ℕ)

/-- Cut a stream into frames of `size` symbols. A frame begins with a `sync` symbol; other symbols in
front of it are skipped. The second part is the beginning of a frame that is not complete yet. -/
def frames : List α → List (List α) × List α
  | [] => ([], [])
  | b :: rest =>
    if sync b then
      if 0 < size ∧ size ≤ (b :: rest).length then
        let r := frames ((b :: rest).drop size)
        ((b :: rest).take size :: r.1, r.2)
      else ([], b :: rest)
    else frames rest
termination_by s => s.length

/-- What may be left over between two pieces: nothing, or the beginning of a frame. -/
def Pending (rest : List α) : Prop :=
  ∀ b tail, rest = b :: tail → sync b = true ∧ ¬ (0 < size ∧ size ≤ rest.length)

variable {sync size}

theorem frames_skip {b : α} {rest : List α} (hb : sync b = false) :
    frames sync size (b :: rest) = frames sync size rest := by
  rw [frames, hb]
  rfl

theorem frames_cut {b : α} {rest : List α} (hb : sync b = true)
    (hlen : 0 < size ∧ size ≤ (b :: rest).length) :
    frames sync size (b :: rest) =
      ((b :: rest).take size :: (frames sync size ((b :: rest).drop size)).1,
        (frames sync size ((b :: rest).drop size)).2) := by
  rw [frames, if_pos hb, if_pos hlen]

theorem frames_pending {rest : List α} (h : Pending sync size rest) :
    frames sync size rest = ([], rest) := by
  cases rest with
  | nil => rw [frames]
  | cons b tail =>
    obtain ⟨hb, hlen⟩ := h b tail rfl
    rw [frames, if_pos hb, if_neg hlen]

theorem pending_frames (s : List α) : Pending sync size (frames sync size s).2 := by
  induction s using frames.induct sync size with
  | case1 =>
    rw [frames]
    exact nofun
  | case2 b rest hb hlen ih =>
    rw [frames_cut hb hlen]
    exact ih
  | case3 b rest hb hlen =>
    rw [frames, if_pos hb, if_neg hlen]
    intro c tail h
    cases h
    exact ⟨hb, hlen⟩
  | case4 b rest hb ih =>
    rw [frames_skip (Bool.eq_false_iff.mpr hb)]
    exact ih

theorem length_of_mem_frames {s frame : List α} (h : frame ∈ (frames sync size s).1) :
    frame.length = size := by
  induction s using frames.induct sync size with
  | case1 =>
    rw [frames] at h
    cases h
  | case2 b rest hb hlen ih =>
    rw [frames_cut hb hlen] at h
    obtain rfl | h := mem_cons.mp h
    · exact length_take_of_le hlen.2
    · exact ih h
  | case3 b rest hb hlen =>
    rw [frames, if_pos hb, if_neg hlen] at h
    cases h
  | case4 b rest hb ih =>
    rw [frames_skip (Bool.eq_false_iff.mpr hb)] at h
    exact ih h

theorem frames_append (s t : List α) : frames sync size (s ++ t) =
    ((frames sync size s).1 ++ (frames sync size ((frames sync size s).2 ++ t)).1,
      (frames sync size ((frames sync size s).2 ++ t)).2) := by
  induction s using frames.induct sync size with
  | case1 =>
    rw [frames, List.nil_append]
    rfl
  | case2 b rest hb hlen ih =>
    have hlen' : 0 < size ∧ size ≤ (b :: (rest ++ t)).length := by
      refine ⟨hlen.1, Nat.le_trans hlen.2 ?_⟩
      simp
    rw [cons_append, frames_cut hb hlen', frames_cut hb hlen, ← cons_append,
      take_append_of_le_length hlen.2, drop_append_of_le_length hlen.2, ih, cons_append]
  | case3 b rest hb hlen =>
    have hpending : frames sync size (b :: rest) = ([], b :: rest) := by
      rw [frames, if_pos hb, if_neg hlen]
    rw [hpending, List.nil_append]
  | case4 b rest hb ih =>
    rw [cons_append, frames_skip (Bool.eq_false_iff.mpr hb), frames_skip (Bool.eq_false_iff.mpr hb)]
    exact ih

section Machine

variable {σ ε β : Type*} (feed : σ → List α → Except ε (σ × List β))

def feedAll : σ → List (List α) → Except ε (σ × List β)
  | s, [] => .ok (s, [])
  | s, piece :: pieces => do
    let (s, out) ← feed s piece
    let (s, outs) ← feedAll s pieces
    .ok (s, out ++ outs)

theorem feedAll_append {feed : σ → List α → Except ε (σ × List β)} {s s₁ s₂ : σ} {xs ys : List (List α)}
    {out₁ out₂ : List β} (h₁ : feedAll feed s xs = .ok (s₁, out₁))
    (h₂ : feedAll feed s₁ ys = .ok (s₂, out₂)) : feedAll feed s (xs ++ ys) = .ok (s₂, out₁ ++ out₂) := by
  induction xs generalizing s out₁ with
  | nil =>
    cases h₁
    exact h₂
  | cons x xs ih =>
    simp only [feedAll, bind, Except.bind] at h₁
    cases hx : feed s x with
    | error e => rw [hx] at h₁; exact nomatch h₁
    | ok r =>
      rw [hx] at h₁
      cases hxs : feedAll feed r.1 xs with
      | error e => simp only [hxs] at h₁; exact nomatch h₁
      | ok r' =>
        simp only [hxs] at h₁
        cases h₁
        simp only [cons_append, feedAll, hx, ih hxs, bind, Except.bind, append_assoc]

/-- A machine that keeps the unfinished frame and puts out the finished ones, each as `emit` makes it,
does for a list of pieces what it does for the whole stream. -/
theorem feedAll_frames {feed : σ → List α → Except ε (σ × List β)} {emit : List α → β}
    (holds : σ → List α → Prop)
    (hfeed : ∀ s rest piece, holds s rest → Pending sync size rest →
      ∃ s', feed s piece = .ok (s', (frames sync size (rest ++ piece)).1.map emit) ∧
        holds s' (frames sync size (rest ++ piece)).2)
    {s : σ} {rest : List α} (hs : holds s rest) (hrest : Pending sync size rest)
    (pieces : List (List α)) :
    ∃ s', feedAll feed s pieces = .ok (s', (frames sync size (rest ++ pieces.flatten)).1.map emit) ∧
      holds s' (frames sync size (rest ++ pieces.flatten)).2 := by
  induction pieces generalizing s rest with
  | nil =>
    rw [flatten_nil, append_nil, frames_pending hrest]
    exact ⟨s, rfl, hs⟩
  | cons piece pieces ih =>
    obtain ⟨s₁, h₁, hs₁⟩ := hfeed s rest piece hs hrest
    obtain ⟨s', h', hs'⟩ := ih hs₁ (pending_frames _)
    rw [flatten_cons, ← append_assoc, frames_append]
    refine ⟨s', ?_, hs'⟩
    simp only [feedAll, h₁, h', bind, Except.bind, map_append]

end Machine

end VDLinux.Base.Framing
