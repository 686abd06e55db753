import Mathlib

namespace VDLinux.Base.CarryChain

/-- A digit of a number, and whether the next one belongs to the number too. -/
structure Digit where
  val : ℕ
  more : Bool
  deriving DecidableEq

section

variable (b : ℕ)

/-- The number in base `b`, lowest digit first. What stands behind the first digit without `more` does
not count. -/
def value : List Digit → ℕ
  | [] => 0
  | d :: ds => d.val + b * (if d.more then value ds else 0)

/-- The digits are below the base, the list does not end inside the number, and no digit above the first
is a leading zero. -/
def Sound : List Digit → Prop
  | [] => False
  | d :: ds => d.val < b ∧ (d.more = true → Sound ds ∧ 0 < value b ds)

end

variable {b : ℕ} {ds : List Digit}

theorem value_zeros (n : ℕ) (ds : List Digit) :
    value b (List.replicate n ⟨0, true⟩ ++ ds) = b ^ n * value b ds := by
  induction n with
  | zero => simp
  | succ n ih =>
    rw [List.replicate_succ, List.cons_append, value, if_pos rfl, ih]
    ring

theorem value_nines (hb : 0 < b) (n : ℕ) (ds : List Digit) :
    value b (List.replicate n ⟨b - 1, true⟩ ++ ds) + 1 = b ^ n * (value b ds + 1) := by
  induction n with
  | zero => simp
  | succ n ih =>
    obtain ⟨c, rfl⟩ := Nat.exists_eq_succ_of_ne_zero hb.ne'
    rw [List.replicate_succ, List.cons_append, value, if_pos rfl]
    calc
      _ = (c + 1) * (value (c + 1) (List.replicate n ⟨c, true⟩ ++ ds) + 1) := by
        simp only [Nat.succ_eq_add_one, Nat.add_sub_cancel]
        ring
      _ = (c + 1) * ((c + 1) ^ n * (value (c + 1) ds + 1)) := congrArg ((c + 1) * ·) ih
      _ = _ := by
        rw [Nat.succ_eq_add_one]
        ring

theorem Sound.pos_of_more {d : Digit} (h : Sound b (d :: ds)) (hd : d.more = true) :
    0 < value b (d :: ds) := by
  have hb : 0 < b := Nat.lt_of_le_of_lt (Nat.zero_le _) h.1
  rw [value, if_pos hd]
  exact Nat.add_pos_right _ (Nat.mul_pos hb (h.2 hd).2)

theorem Sound.cons_replicate {d : Digit} (hd : d.val < b) (hmore : d.more = true) (h : Sound b ds)
    (hpos : 0 < value b ds) (n : ℕ) :
    Sound b (List.replicate n d ++ ds) ∧ 0 < value b (List.replicate n d ++ ds) := by
  induction n with
  | zero => exact ⟨h, hpos⟩
  | succ n ih =>
    rw [List.replicate_succ, List.cons_append]
    have hs : Sound b (d :: (List.replicate n d ++ ds)) := ⟨hd, fun _ => ih⟩
    exact ⟨hs, hs.pos_of_more hmore⟩

theorem Sound.append (h : Sound b ds) (room : List Digit) :
    Sound b (ds ++ room) ∧ value b (ds ++ room) = value b ds := by
  induction ds with
  | nil => exact h.elim
  | cons d ds ih =>
    cases hd : d.more with
    | false =>
      have hno : ∀ e : Prop, d.more = true → e := fun e he => by
        rw [hd] at he
        cases he
      exact ⟨⟨h.1, hno _⟩, by simp [value, hd]⟩
    | true =>
      obtain ⟨hs, hv⟩ := ih (h.2 hd).1
      refine ⟨⟨h.1, fun _ => ⟨hs, ?_⟩⟩, ?_⟩
      · exact Nat.lt_of_lt_of_eq (h.2 hd).2 hv.symm
      · simp only [List.cons_append, value, hv]

end VDLinux.Base.CarryChain
