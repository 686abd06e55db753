import Mathlib

namespace VDLinux.Base.Threaded

open Function List

section Path

variable {ι : Type*} {next next' : ι → Option ι} {c d : ι} {l m : List ι}

/-- The cells that are met from `c` on until one has no successor. -/
inductive Path (next : ι → Option ι) : ι → List ι → Prop
  | last {c : ι} (h : next c = none) : Path next c [c]
  | step {c d : ι} {l : List ι} (h : next c = some d) (hrest : Path next d l) : Path next c (c :: l)

variable (h : Path next c l)
include h

theorem Path.mem_self : c ∈ l := by
  cases h with
  | last h => exact mem_singleton_self c
  | step h hrest => exact mem_cons_self

theorem Path.unique (h' : Path next c m) : l = m := by
  induction h generalizing m with
  | last hnone =>
    cases h' with
    | last => rfl
    | step hsome => exact nomatch hnone.symm.trans hsome
  | step hsome hrest ih =>
    cases h' with
    | last hnone => exact nomatch hnone.symm.trans hsome
    | step hsome' hrest' =>
      cases hsome.symm.trans hsome'
      rw [ih hrest']

theorem Path.of_mem (hd : d ∈ l) : ∃ m, m <:+ l ∧ Path next d m := by
  induction h with
  | last hnone =>
    cases mem_singleton.mp hd
    exact ⟨_, suffix_refl _, .last hnone⟩
  | step hsome hrest ih =>
    cases hd with
    | head => exact ⟨_, suffix_refl _, .step hsome hrest⟩
    | tail _ hd =>
      obtain ⟨m, hm, hpath⟩ := ih hd
      exact ⟨m, hm.trans (suffix_cons _ _), hpath⟩

theorem Path.nodup : l.Nodup := by
  induction h with
  | last => exact nodup_singleton _
  | step hsome hrest ih =>
    refine nodup_cons.mpr ⟨fun hmem => ?_, ih⟩
    obtain ⟨m, hm, hpath⟩ := hrest.of_mem hmem
    have hlen := congrArg List.length (hpath.unique (.step hsome hrest))
    have := hm.length_le
    rw [length_cons] at hlen
    omega

theorem Path.congr (heq : ∀ e ∈ l, next' e = next e) : Path next' c l := by
  induction h with
  | last hnone => exact .last ((heq _ (mem_singleton_self _)).trans hnone)
  | step hsome hrest ih =>
    exact .step ((heq _ mem_cons_self).trans hsome) (ih fun e he => heq e (mem_cons_of_mem _ he))

end Path

section Thread

variable {ι V W : Type*} [DecidableEq ι] (merge : V → W → V) (enc : ι → W) (eof : W)

/-- The table with the cells of a list tied together in the order of the list. -/
def thread (r : ι → V) : List ι → ι → V
  | [] => r
  | [c] => Function.update r c (merge (r c) eof)
  | c :: d :: l => Function.update (thread r (d :: l)) c (merge (r c) (enc d))

variable {merge enc eof} {r : ι → V} {c d : ι} {l : List ι}

theorem thread_of_notMem (h : c ∉ l) : thread merge enc eof r l c = r c := by
  induction l with
  | nil => rfl
  | cons a l ih =>
    obtain ⟨hne, hmem⟩ := not_or.mp (mt mem_cons.mpr h)
    cases l with
    | nil => exact update_of_ne hne _ _
    | cons b l => exact (update_of_ne hne _ _).trans (ih hmem)

theorem thread_cons_cons (c d : ι) (l : List ι) :
    thread merge enc eof r (c :: d :: l) c = merge (r c) (enc d) :=
  update_self _ _ _

theorem thread_singleton (c : ι) : thread merge enc eof r [c] c = merge (r c) eof :=
  update_self _ _ _

theorem thread_cons_of_ne {e : ι} (h : e ≠ c) :
    thread merge enc eof r (c :: l) e = thread merge enc eof r l e := by
  cases l with
  | nil => exact update_of_ne h _ _
  | cons b l => exact update_of_ne h _ _

theorem thread_append (hmerge : ∀ a d, merge (merge a eof) (enc d) = merge a (enc d))
    (hl : l ≠ []) (hnodup : l.Nodup) (hc : c ∉ l) :
    thread merge enc eof r (l ++ [c]) =
      update (update (thread merge enc eof r l) c (merge (r c) eof)) (l.getLast hl)
        (merge (thread merge enc eof r l (l.getLast hl)) (enc c)) := by
  induction l with
  | nil => exact absurd rfl hl
  | cons a l ih =>
    obtain ⟨hca, hcl⟩ := not_or.mp (mt mem_cons.mpr hc)
    cases l with
    | nil =>
      funext e
      by_cases hea : e = a
      · subst hea
        simp [thread, hmerge]
      · by_cases hec : e = c
        · subst hec
          simp [thread, hea]
        · simp [thread, hea, hec]
    | cons b l =>
      have hne : b :: l ≠ [] := cons_ne_nil _ _
      obtain ⟨hal, hnodup'⟩ := nodup_cons.mp hnodup
      have hlast : (b :: l).getLast hne ≠ a := fun heq => hal (heq ▸ getLast_mem hne)
      have ih' := ih hne hnodup' hcl
      funext e
      rw [getLast_cons hne]
      by_cases hea : e = a
      · subst hea
        rw [update_of_ne hlast.symm, update_of_ne (Ne.symm hca), thread_cons_cons]
        exact thread_cons_cons e b (l ++ [c])
      · have hstep : thread merge enc eof r (a :: b :: l ++ [c]) e =
            thread merge enc eof r (b :: l ++ [c]) e := thread_cons_of_ne hea
        rw [hstep, ih']
        by_cases hel : e = (b :: l).getLast hne
        · subst hel
          rw [update_self, update_self, thread_cons_of_ne hlast]
        · rw [update_of_ne hel, update_of_ne hel]
          by_cases hec : e = c
          · subst hec
            rw [update_self, update_self]
          · rw [update_of_ne hec, update_of_ne hec, thread_cons_of_ne hea]

theorem thread_getLast (hl : l ≠ []) (hnodup : l.Nodup) :
    thread merge enc eof r l (l.getLast hl) = merge (r (l.getLast hl)) eof := by
  induction l with
  | nil => exact absurd rfl hl
  | cons a l ih =>
    cases l with
    | nil => exact thread_singleton a
    | cons b l =>
      have hne : b :: l ≠ [] := cons_ne_nil _ _
      obtain ⟨hal, hnodup'⟩ := nodup_cons.mp hnodup
      have hlast : (b :: l).getLast hne ≠ a := fun heq => hal (heq ▸ getLast_mem hne)
      rw [getLast_cons hne, thread_cons_of_ne hlast, ih hne hnodup']

theorem thread_of_mem (h : c ∈ l) (hnodup : l.Nodup) :
    ∃ w, (w = eof ∨ ∃ d ∈ l, w = enc d) ∧ thread merge enc eof r l c = merge (r c) w := by
  induction l with
  | nil => exact nomatch h
  | cons a l ih =>
    obtain ⟨hal, hnodup'⟩ := nodup_cons.mp hnodup
    cases h with
    | head =>
      cases l with
      | nil => exact ⟨eof, .inl rfl, thread_singleton c⟩
      | cons b l => exact ⟨enc b, .inr ⟨b, by simp, rfl⟩, thread_cons_cons c b l⟩
    | tail _ h =>
      obtain ⟨w, hw, heq⟩ := ih h hnodup'
      have hne : c ≠ a := fun hca => hal (hca ▸ h)
      refine ⟨w, hw.imp_right ?_, by rw [thread_cons_of_ne hne, heq]⟩
      rintro ⟨d, hd, rfl⟩
      exact ⟨d, mem_cons_of_mem _ hd, rfl⟩

/-- The cells are met in the order of the list, up to the first one whose name cannot be told from the
end mark. -/
theorem thread_path {dec : V → Option ι} (good : ι → Bool) (heof : ∀ a, dec (merge a eof) = none)
    (hgood : ∀ a, ∀ d ∈ l, good d → dec (merge a (enc d)) = some d)
    (hbad : ∀ a, ∀ d ∈ l, ¬ good d → dec (merge a (enc d)) = none) (hnodup : (c :: l).Nodup) :
    Path (fun e => dec (thread merge enc eof r (c :: l) e)) c (c :: l.takeWhile good) := by
  induction l generalizing c with
  | nil => exact .last (by rw [thread_singleton, heof])
  | cons d l ih =>
    obtain ⟨hcl, hnodup'⟩ := nodup_cons.mp hnodup
    by_cases hd : good d
    · rw [takeWhile_cons_of_pos hd]
      refine .step (by rw [thread_cons_cons, hgood _ d mem_cons_self hd]) ?_
      have hrest := ih (fun a e he => hgood a e (mem_cons_of_mem _ he))
        (fun a e he => hbad a e (mem_cons_of_mem _ he)) hnodup'
      refine hrest.congr fun e he => ?_
      have hmem : e ∈ d :: l := by
        cases he with
        | head => exact mem_cons_self
        | tail _ he => exact mem_cons_of_mem _ (takeWhile_subset _ he)
      have hne : e ≠ c := fun heq => hcl (heq ▸ hmem)
      rw [thread_cons_of_ne hne]
    · rw [takeWhile_cons_of_neg hd]
      exact .last (by rw [thread_cons_cons, hbad _ d mem_cons_self hd])

end Thread

end VDLinux.Base.Threaded
