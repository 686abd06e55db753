import Mathlib

namespace VDLinux.Base.Outcome

variable {σ ε α β : Type} {s : σ} {P : α → Prop} {Q : β → Prop}

/-- From the state `s` the computation returns a value that satisfies `P` and leaves the state as it
was. -/
def Yields (m : StateT σ (Except ε) α) (s : σ) (P : α → Prop) : Prop :=
  ∃ a, m s = .ok (a, s) ∧ P a

theorem Yields.pure {a : α} (h : P a) : Yields (Pure.pure a : StateT σ (Except ε) α) s P :=
  ⟨a, rfl, h⟩

theorem ok_of_bind {x : Except ε α} {f : α → Except ε β} {b : β} (h : (x >>= f) = .ok b) :
    ∃ a, x = .ok a ∧ f a = .ok b := by
  cases x with
  | error e => exact nomatch h
  | ok a => exact ⟨a, rfl, h⟩

theorem ok_of_guard {c : Prop} [Decidable c] {e : ε} {x : Except ε α} {a : α}
    (h : (if c then .error e else x) = .ok a) : ¬ c ∧ x = .ok a := by
  split at h
  · exact nomatch h
  · exact ⟨‹_›, h⟩

theorem ok_of_when {c : Prop} [Decidable c] {x : Except ε Unit} {f : Unit → Except ε β} {b : β}
    (h : (if c then x >>= f else f ()) = .ok b) : f () = .ok b := by
  split at h
  · obtain ⟨⟨⟩, -, h⟩ := ok_of_bind h
    exact h
  · exact h

variable {m : StateT σ (Except ε) α} {f : α → StateT σ (Except ε) β}

theorem bind_eq {a : α} {s' : σ} (h : m s = .ok (a, s')) : (m >>= f) s = f a s' := by
  change (m s >>= fun p => f p.1 p.2) = _
  rw [h]
  rfl

theorem Yields.bind
    (hm : Yields m s P) (hf : ∀ a, P a → Yields (f a) s Q) : Yields (m >>= f) s Q := by
  obtain ⟨a, ha, hp⟩ := hm
  obtain ⟨b, hb, hq⟩ := hf a hp
  exact ⟨b, (bind_eq ha).trans hb, hq⟩

theorem Yields.mono {R : α → Prop} (h : Yields m s P) (hi : ∀ a, P a → R a) : Yields m s R := by
  obtain ⟨a, ha, hp⟩ := h
  exact ⟨a, ha, hi a hp⟩

theorem Yields.both {R : α → Prop} (h : Yields m s P) (h' : Yields m s R) : ∃ a, P a ∧ R a := by
  obtain ⟨a, ha, hp⟩ := h
  obtain ⟨b, hb, hr⟩ := h'
  obtain rfl : a = b := congrArg Prod.fst (Except.ok.inj (ha.symm.trans hb))
  exact ⟨a, hp, hr⟩

variable {x : Except ε α}

theorem Yields.lift {a : α} (hx : x = .ok a) (h : P a) :
    Yields (liftM x : StateT σ (Except ε) α) s P := by
  subst hx
  exact ⟨a, rfl, h⟩

theorem Yields.bind_lift {a : α} (hx : x = .ok a)
    (hf : Yields (f a) s Q) : Yields (liftM x >>= f) s Q :=
  Yields.bind (Yields.lift hx (P := (· = a)) rfl) fun _ h => h ▸ hf

theorem Yields.bind_lift_iff {a : α} (hx : x = .ok a) :
    Yields (liftM x >>= f) s Q ↔ Yields (f a) s Q := by
  have hrun : (liftM x >>= f : StateT σ (Except ε) β) s = f a s := bind_eq (by subst hx; rfl)
  rw [Yields, Yields, hrun]

def Fails (m : StateT σ (Except ε) α) (s : σ) : Prop := ∃ e, m s = .error e

theorem Fails.not_yields (h : Fails m s) : ¬ Yields m s P := by
  rintro ⟨a, ha, -⟩
  obtain ⟨e, he⟩ := h
  exact nomatch he.symm.trans ha

theorem Fails.bind (hm : Fails m s) : Fails (m >>= f) s := by
  obtain ⟨e, he⟩ := hm
  refine ⟨e, ?_⟩
  change (m s >>= fun p => f p.1 p.2) = _
  rw [he]
  rfl

theorem Fails.bind_ok {a : α} {s' : σ} (hm : m s = .ok (a, s')) (hf : Fails (f a) s') : Fails (m >>= f) s := by
  obtain ⟨e, he⟩ := hf
  exact ⟨e, (bind_eq hm).trans he⟩

theorem Fails.of_rest (h : ∀ a s', m s = .ok (a, s') → Fails (f a) s') : Fails (m >>= f) s := by
  cases hm : m s with
  | error e => exact Fails.bind ⟨e, hm⟩
  | ok p => exact Fails.bind_ok hm (h p.1 p.2 hm)

theorem Fails.lift {e : ε} (hx : x = .error e) : Fails (liftM x : StateT σ (Except ε) α) s := by
  subst hx
  exact ⟨e, rfl⟩

theorem Fails.bind_lift {a : α} (hx : x = .ok a) (hf : Fails (f a) s) : Fails (liftM x >>= f) s := by
  subst hx
  exact Fails.bind_ok rfl hf

theorem Fails.of_lift_rest (h : ∀ a, x = .ok a → Fails (f a) s) : Fails (liftM x >>= f) s := by
  cases hx : x with
  | error e => exact Fails.bind (Fails.lift rfl)
  | ok a => exact Fails.bind_lift rfl (h a hx)

end VDLinux.Base.Outcome
