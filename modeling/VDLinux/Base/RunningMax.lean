import Mathlib

namespace VDLinux.Base.RunningMax

variable {α β κ : Type*} [LinearOrder κ]

/-- An entry replaces the one that is kept if its key is greater. -/
def note (s : κ × β) (p : Option (κ × β)) : κ × β :=
  match p with
  | some p => if s.1 < p.1 then p else s
  | none => s

def latest (pick : α → Option (κ × β)) (s : κ × β) (as : List α) : κ × β :=
  as.foldl (fun s a => note s (pick a)) s

/-- Of the entries that are picked from the list, none has a greater key than that of `a`. -/
structure Leads (pick : α → Option (κ × β)) (as : List α) (a : α) (p : κ × β) : Prop where
  mem : a ∈ as
  picked : pick a = some p
  le : ∀ b ∈ as, ∀ q, pick b = some q → q.1 ≤ p.1

/-- It leads, and all before it in the list have smaller keys. -/
structure First (pick : α → Option (κ × β)) (as : List α) (a : α) (p : κ × β) : Prop
    extends Leads pick as a p where
  split : ∃ before rest, as = before ++ a :: rest ∧ ∀ b ∈ before, ∀ q, pick b = some q → q.1 < p.1

variable {pick : α → Option (κ × β)} {s : κ × β} {as : List α} {a : α} {p : κ × β}

@[simp] theorem note_none (s : κ × β) : note s none = s := rfl

@[simp] theorem note_some_of_lt (h : s.1 < p.1) : note s (some p) = p := if_pos h

@[simp] theorem note_some_of_le (h : p.1 ≤ s.1) : note s (some p) = s := if_neg (not_lt.mpr h)

theorem First.cons (h : First pick as a p) {b : α} (hb : ∀ q, pick b = some q → q.1 < p.1) :
    First pick (b :: as) a p := by
  obtain ⟨before, rest, hsplit, hbefore⟩ := h.split
  refine ⟨⟨List.mem_cons_of_mem b h.mem, h.picked, ?_⟩, b :: before, rest, by rw [hsplit]; rfl, ?_⟩
  · intro c hc q hq
    cases hc with
    | head => exact (hb q hq).le
    | tail _ hc => exact h.le c hc q hq
  · intro c hc q hq
    cases hc with
    | head => exact hb q hq
    | tail _ hc => exact hbefore c hc q hq

theorem First.head (hp : pick a = some p) (hle : ∀ b ∈ as, ∀ q, pick b = some q → q.1 ≤ p.1) :
    First pick (a :: as) a p := by
  refine ⟨⟨List.mem_cons_self, hp, ?_⟩, [], as, rfl, fun c hc => absurd hc List.not_mem_nil⟩
  intro c hc q hq
  cases hc with
  | head => exact (congrArg Prod.fst (Option.some.inj (hq.symm.trans hp))).le
  | tail _ hc => exact hle c hc q hq

/-- What a running maximum ends with: what it was started with, if no key is greater, or else the first of
the entries with the greatest key. -/
theorem latest_cases (pick : α → Option (κ × β)) (s : κ × β) (as : List α) :
    (latest pick s as = s ∧ ∀ b ∈ as, ∀ q, pick b = some q → q.1 ≤ s.1) ∨
      ∃ a, First pick as a (latest pick s as) ∧ s.1 < (latest pick s as).1 := by
  induction as generalizing s with
  | nil => exact .inl ⟨rfl, fun b hb => absurd hb List.not_mem_nil⟩
  | cons b as ih =>
    have hstep : latest pick s (b :: as) = latest pick (note s (pick b)) as := rfl
    rw [hstep]
    -- the first entry is kept, or it is not there or too small
    by_cases hnew : ∃ q, pick b = some q ∧ s.1 < q.1
    · obtain ⟨q, hq, hlt⟩ := hnew
      rw [hq, note_some_of_lt hlt]
      obtain ⟨heq, hle⟩ | ⟨a, hfirst, hgt⟩ := ih q
      · rw [heq]
        exact .inr ⟨b, First.head hq hle, hlt⟩
      · refine .inr ⟨a, hfirst.cons ?_, hlt.trans hgt⟩
        intro q' hq'
        rwa [Option.some.inj (hq'.symm.trans hq)]
    · have hle : ∀ q, pick b = some q → q.1 ≤ s.1 := fun q hq => le_of_not_gt fun hlt => hnew ⟨q, hq, hlt⟩
      have hnote : note s (pick b) = s := by
        cases hq : pick b with
        | none => rfl
        | some q => exact note_some_of_le (hle q hq)
      rw [hnote]
      obtain ⟨heq, hrest⟩ | ⟨a, hfirst, hgt⟩ := ih s
      · refine .inl ⟨heq, fun c hc q hq => ?_⟩
        cases hc with
        | head => exact hle q hq
        | tail _ hc => exact hrest c hc q hq
      · exact .inr ⟨a, hfirst.cons fun q hq => (hle q hq).trans_lt hgt, hgt⟩

end VDLinux.Base.RunningMax
