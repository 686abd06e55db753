import Mathlib

namespace VDLinux.Base.Halting

variable {σ ε : Type*}

/-- Take steps until one of them stops, at most `fuel` of them. -/
def runFor (step : σ → Except ε σ) : ℕ → σ → Option ε
  | 0, _ => none
  | fuel + 1, s =>
    match step s with
    | .error e => some e
    | .ok s' => runFor step fuel s'

/-- Take steps until one of them has a result; `out` where `fuel` steps are not enough. -/
def loop {α : Type*} (step : σ → Except ε (σ ⊕ α)) (out : ε) : ℕ → σ → Except ε α
  | 0, _ => .error out
  | fuel + 1, s =>
    match step s with
    | .error e => .error e
    | .ok (.inr a) => .ok a
    | .ok (.inl s') => loop step out fuel s'

/-- `s'` is met on the way from `s`. -/
def Reaches (step : σ → Except ε σ) : σ → σ → Prop :=
  Relation.ReflTransGen fun s s' => step s = .ok s'

variable {step : σ → Except ε σ}

theorem Reaches.keeps (inv : σ → Prop) (hstep : ∀ s s', inv s → step s = .ok s' → inv s')
    {s s' : σ} (h : Reaches step s s') (hs : inv s) : inv s' := by
  induction h with
  | refl => exact hs
  | tail _ hnext ih => exact hstep _ _ ih hnext

/-- A machine stops well when every state that has the invariant for some bound either stops well or
goes to one that has it for a smaller bound. -/
theorem runFor_progress (inv : ℕ → σ → Prop) (good : ε → Prop)
    (hstep : ∀ n s, inv n s → (∃ e, step s = .error e ∧ good e) ∨
      ∃ s' m, step s = .ok s' ∧ m < n ∧ inv m s')
    {n : ℕ} {s : σ} (hs : inv n s) {fuel : ℕ} (hfuel : n < fuel) :
    ∃ e, runFor step fuel s = some e ∧ good e := by
  induction fuel generalizing n s with
  | zero => omega
  | succ fuel ih =>
    obtain ⟨e, he, hgood⟩ | ⟨s', m, hnext, hlt, hs'⟩ := hstep n s hs
    · exact ⟨e, by simp only [runFor, he], hgood⟩
    · obtain ⟨e, he, hgood⟩ := ih hs' (by omega)
      exact ⟨e, by simpa only [runFor, hnext] using he, hgood⟩

/-- A machine whose steps keep an invariant and lower a measure stops, and where it stops is what a
step from a state with the invariant can end in. -/
theorem runFor_halts (inv : σ → Prop) (good : ε → Prop) (measure : σ → ℕ)
    (hstop : ∀ s e, inv s → step s = .error e → good e)
    (hstep : ∀ s s', inv s → step s = .ok s' → inv s' ∧ measure s' < measure s)
    {s : σ} (hs : inv s) {fuel : ℕ} (hfuel : measure s < fuel) :
    ∃ e, runFor step fuel s = some e ∧ good e := by
  refine runFor_progress (fun n s => inv s ∧ measure s = n) good ?_ ⟨hs, rfl⟩ hfuel
  rintro n s ⟨hs, rfl⟩
  cases hnext : step s with
  | error e => exact .inl ⟨e, rfl, hstop s e hs hnext⟩
  | ok s' =>
    obtain ⟨hs', hlt⟩ := hstep s s' hs hnext
    exact .inr ⟨s', measure s', rfl, hlt, hs', rfl⟩

section Loop

variable {α : Type*} {body : σ → Except ε (σ ⊕ α)} {out : ε} {fuel : ℕ} {s s' : σ} {a : α}

theorem loop_done (h : body s = .ok (.inr a)) (hfuel : 0 < fuel) : loop body out fuel s = .ok a := by
  obtain ⟨fuel, rfl⟩ := Nat.exists_eq_succ_of_ne_zero (Nat.ne_of_gt hfuel)
  simp only [loop, h]

theorem loop_next (h : body s = .ok (.inl s')) (hfuel : 0 < fuel) :
    loop body out fuel s = loop body out (fuel - 1) s' := by
  obtain ⟨fuel, rfl⟩ := Nat.exists_eq_succ_of_ne_zero (Nat.ne_of_gt hfuel)
  simp only [loop, h, Nat.succ_sub_one]

/-- A loop has a result when every state that has the invariant for some bound either has one or goes to
a state that has it for a smaller bound. -/
theorem loop_progress (inv : ℕ → σ → Prop) (good : α → Prop)
    (hstep : ∀ n s, inv n s → (∃ a, body s = .ok (.inr a) ∧ good a) ∨
      ∃ s' m, body s = .ok (.inl s') ∧ m < n ∧ inv m s')
    {n : ℕ} (hs : inv n s) (hfuel : n < fuel) : ∃ a, loop body out fuel s = .ok a ∧ good a := by
  induction fuel generalizing n s with
  | zero => omega
  | succ fuel ih =>
    obtain ⟨a, ha, hgood⟩ | ⟨s', m, hnext, hlt, hs'⟩ := hstep n s hs
    · exact ⟨a, loop_done ha (Nat.succ_pos _), hgood⟩
    · obtain ⟨a, ha, hgood⟩ := ih hs' (by omega)
      exact ⟨a, (loop_next hnext (Nat.succ_pos _)).trans ha, hgood⟩

end Loop

section Agrees

universe u

variable {α β : Type u} {out : ε}

/-- What the first computation returns the second returns too. -/
def Agrees (x y : Except ε α) : Prop := ∀ a, x = .ok a → y = .ok a

theorem Agrees.refl (x : Except ε α) : Agrees x x := fun _ h => h

theorem Agrees.bind {x y : Except ε α} {f g : α → Except ε β} (hx : Agrees x y)
    (hf : ∀ a, Agrees (f a) (g a)) : Agrees (x >>= f) (y >>= g) := by
  intro b hb
  cases hxa : x with
  | error e =>
    rw [hxa] at hb
    cases hb
  | ok a =>
    rw [hxa] at hb
    rw [hx a hxa]
    exact hf a b hb

theorem Agrees.ite {c : Prop} [Decidable c] {x x' y y' : Except ε α} (h : Agrees x x') (h' : Agrees y y') :
    Agrees (if c then x else y) (if c then x' else y') := by
  split
  · exact h
  · exact h'

theorem loop_agrees {body body' : σ → Except ε (σ ⊕ α)} (hbody : ∀ s, Agrees (body s) (body' s))
    {fuel fuel' : ℕ} (hfuel : fuel ≤ fuel') (s : σ) :
    Agrees (loop body out fuel s) (loop body' out fuel' s) := by
  induction fuel generalizing s fuel' with
  | zero =>
    intro a ha
    cases ha
  | succ fuel ih =>
    obtain ⟨fuel', rfl⟩ := Nat.exists_eq_succ_of_ne_zero (show fuel' ≠ 0 by omega)
    intro a ha
    cases hs : body s with
    | error e =>
      simp only [loop, hs] at ha
      cases ha
    | ok r =>
      have hs' := hbody s r hs
      cases r with
      | inr b =>
        simp only [loop, hs] at ha
        simp only [loop, hs']
        exact ha
      | inl s' =>
        simp only [loop, hs] at ha
        simp only [loop, hs']
        exact ih (by omega) s' a ha

end Agrees

theorem runFor_congr {τ : Type*} {other : τ → Except ε τ} (R : σ → τ → Prop)
    (hstep : ∀ s t, R s t → (∃ e, step s = .error e ∧ other t = .error e) ∨
      ∃ s' t', step s = .ok s' ∧ other t = .ok t' ∧ R s' t')
    {s : σ} {t : τ} (h : R s t) (fuel : ℕ) : runFor step fuel s = runFor other fuel t := by
  induction fuel generalizing s t with
  | zero => rfl
  | succ fuel ih =>
    obtain ⟨e, hs, ht⟩ | ⟨s', t', hs, ht, h'⟩ := hstep s t h
    · simp only [runFor, hs, ht]
    · simpa only [runFor, hs, ht] using ih h'

end VDLinux.Base.Halting
