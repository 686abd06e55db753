import Mathlib

namespace VDLinux.Kernel.Counters

open Finset

structure ResCounter where
  usage : ℕ
  maxUsage : ℕ
  limit : ℕ
  failcnt : ℕ

/-- Whether the charge was made. The sum is an `unsigned long long`. -/
def resCounterChargeLocked (counter : ResCounter) (val : ℕ) : ResCounter × Bool :=
  if counter.limit < (counter.usage + val) % 2 ^ 64 then
    ({ counter with failcnt := counter.failcnt + 1 }, false)
  else
    let usage := (counter.usage + val) % 2 ^ 64
    ({ counter with usage := usage, maxUsage := max counter.maxUsage usage }, true)

/-- Whether `WARN_ON` was hit. -/
def resCounterUnchargeLocked (counter : ResCounter) (val : ℕ) : ResCounter × Bool :=
  if counter.usage < val then ({ counter with usage := counter.usage - counter.usage }, true)
  else ({ counter with usage := counter.usage - val }, false)

/-- The counters and their parents, which lie nearer to the root. -/
structure Hierarchy (C : Type*) where
  parent : C → Option C
  depth : C → ℕ
  depth_parent : ∀ c p, parent c = some p → depth p < depth c

/-- A call between two of its locked updates: the counter that it was made on, the amount, and where its
loop is. -/
inductive Call (C : Type*) where
  | charge (counter : C) (val : ℕ) (c : Option C)
  | undo (counter : C) (val : ℕ) (u : Option C) (c : C)
  | uncharge (counter : C) (val : ℕ) (c : Option C)

/-- The counters, the calls in progress, and the charges that were made and not taken back. -/
structure System (C τ : Type*) where
  counters : C → ResCounter
  calls : τ → Option (Call C)
  charged : Multiset (C × ℕ)
  warned : Bool

inductive Event (C τ : Type*) where
  | charge (t : τ) (counter : C) (val : ℕ)
  | uncharge (t : τ) (counter : C) (val : ℕ)
  | resume (t : τ)

variable {C τ : Type*} [DecidableEq C] [DecidableEq τ]

namespace Hierarchy

variable (H : Hierarchy C)

omit [DecidableEq C] in
def path : Option C → List C
  | none => []
  | some c => c :: path (H.parent c)
termination_by o => o.elim 0 fun c => H.depth c + 1
decreasing_by
  cases hp : H.parent c with
  | none => simp
  | some p => simpa using H.depth_parent c p hp

end Hierarchy

namespace System

def setCall (s : System C τ) (t : τ) (call : Option (Call C)) : System C τ :=
  { s with calls := Function.update s.calls t call }

def setCounter (s : System C τ) (c : C) (counter : ResCounter) : System C τ :=
  { s with counters := Function.update s.counters c counter }

def resume (H : Hierarchy C) (s : System C τ) (t : τ) : System C τ :=
  match s.calls t with
  | none => s
  | some (.charge counter val none) =>
    { s.setCall t none with charged := (counter, val) ::ₘ s.charged }
  | some (.charge counter val (some c)) =>
    match resCounterChargeLocked (s.counters c) val with
    | (counter', true) => (s.setCounter c counter').setCall t (some (.charge counter val (H.parent c)))
    | (counter', false) => (s.setCounter c counter').setCall t (some (.undo counter val (some counter) c))
  | some (.undo counter val u c) =>
    if u = some c then s.setCall t none
    else
      match u with
      | none => { s with warned := true }
      | some u =>
        let (counter', warned) := resCounterUnchargeLocked (s.counters u) val
        { (s.setCounter u counter').setCall t (some (.undo counter val (H.parent u) c)) with
          warned := s.warned || warned }
  | some (.uncharge _ _ none) => s.setCall t none
  | some (.uncharge counter val (some c)) =>
    let (counter', warned) := resCounterUnchargeLocked (s.counters c) val
    { (s.setCounter c counter').setCall t (some (.uncharge counter val (H.parent c))) with
      warned := s.warned || warned }

def step (H : Hierarchy C) (s : System C τ) : Event C τ → System C τ
  | .charge t counter val => s.setCall t (some (.charge counter val (some counter)))
  | .uncharge t counter val =>
    { s.setCall t (some (.uncharge counter val (some counter))) with
      charged := s.charged.erase (counter, val) }
  | .resume t => s.resume H t

/-- A task makes one call at a time, only what was charged is uncharged, and no sum overflows. -/
def Allowed (s : System C τ) : Event C τ → Prop
  | .charge t _ _ => s.calls t = none
  | .uncharge t counter val => s.calls t = none ∧ (counter, val) ∈ s.charged
  | .resume t => ∀ counter val c, s.calls t = some (.charge counter val (some c)) →
      (s.counters c).usage + val < 2 ^ 64

inductive Reached (H : Hierarchy C) (limit : C → ℕ) : System C τ → Prop where
  | init : Reached H limit ⟨fun c => ⟨0, 0, limit c, 0⟩, fun _ => none, 0, false⟩
  | step {s : System C τ} (hs : Reached H limit s) {e : Event C τ} (he : s.Allowed e) :
      Reached H limit (s.step H e)

end System

/-- What a call has put on the counter `d` and not taken off yet. -/
def Call.applied (H : Hierarchy C) (d : C) : Call C → ℕ
  | .charge counter val c => if d ∈ H.path (some counter) ∧ d ∉ H.path c then val else 0
  | .undo _ val u c => if d ∈ H.path u ∧ d ∉ H.path (some c) then val else 0
  | .uncharge _ val c => if d ∈ H.path c then val else 0

def inFlight (H : Hierarchy C) (d : C) (call : Option (Call C)) : ℕ := call.elim 0 (Call.applied H d)

def subtreeCharges (H : Hierarchy C) (charged : Multiset (C × ℕ)) (d : C) : ℕ :=
  (charged.map fun a => if d ∈ H.path (some a.1) then a.2 else 0).sum

section Paths

variable {H : Hierarchy C} {a c d : C} {o : Option C}

omit [DecidableEq C] in
theorem path_some (H : Hierarchy C) (c : C) : H.path (some c) = c :: H.path (H.parent c) := by
  rw [Hierarchy.path]

omit [DecidableEq C] in
theorem self_mem_path (H : Hierarchy C) (c : C) : c ∈ H.path (some c) := by
  rw [path_some]
  exact List.mem_cons_self

omit [DecidableEq C] in
theorem depth_le_of_mem (h : d ∈ H.path o) : ∃ c, o = some c ∧ H.depth d ≤ H.depth c := by
  induction o using Hierarchy.path.induct H with
  | case1 =>
    rw [Hierarchy.path] at h
    cases h
  | case2 c ih =>
    rw [path_some, List.mem_cons] at h
    obtain rfl | h := h
    · exact ⟨d, rfl, le_rfl⟩
    · obtain ⟨p, hp, hle⟩ := ih h
      exact ⟨c, rfl, hle.trans (H.depth_parent c p hp).le⟩

omit [DecidableEq C] in
theorem not_mem_path_parent (H : Hierarchy C) (c : C) : c ∉ H.path (H.parent c) := by
  intro h
  obtain ⟨p, hp, hle⟩ := depth_le_of_mem h
  exact absurd (H.depth_parent c p hp) (not_lt.mpr hle)

omit [DecidableEq C] in
theorem path_subset (h : c ∈ H.path o) : ∀ d ∈ H.path (some c), d ∈ H.path o := by
  induction o using Hierarchy.path.induct H with
  | case1 =>
    rw [Hierarchy.path] at h
    cases h
  | case2 a ih =>
    intro d hd
    rw [path_some, List.mem_cons] at h
    obtain rfl | h := h
    · exact hd
    · rw [path_some]
      exact List.mem_cons_of_mem _ (ih h d hd)

end Paths

section Accounting

variable {H : Hierarchy C} {limit : C → ℕ} {s : System C τ} {t : τ} {d : C}

def Call.Ok (H : Hierarchy C) : Call C → Prop
  | .charge counter _ c => ∀ d ∈ H.path c, d ∈ H.path (some counter)
  | .undo _ _ u c => c ∈ H.path u
  | .uncharge _ _ _ => True

/-- Every counter holds what was charged in its subtree and what the calls in progress put on it. -/
structure Exact [Fintype τ] (H : Hierarchy C) (limit : C → ℕ) (s : System C τ) : Prop where
  usage_eq : ∀ d, (s.counters d).usage =
    subtreeCharges H s.charged d + ∑ t, inFlight H d (s.calls t)
  limit_eq : ∀ d, (s.counters d).limit = limit d
  usage_le : ∀ d, (s.counters d).usage ≤ limit d
  calls_ok : ∀ t call, s.calls t = some call → call.Ok H
  quiet : s.warned = false

theorem applied_charge_next {a c : C} {v : ℕ} (hok : (Call.charge a v (some c)).Ok H) (d : C) :
    (Call.charge a v (H.parent c)).applied H d =
      (Call.charge a v (some c)).applied H d + if d = c then v else 0 := by
  rw [Call.applied, Call.applied, path_some H c]
  by_cases hd : d = c
  · have hmem : d ∈ H.path (some a) := hok d (hd ▸ self_mem_path H c)
    have hnot : d ∉ H.path (H.parent c) := hd ▸ not_mem_path_parent H c
    rw [hd] at hmem hnot ⊢
    simp [hmem, hnot]
  · simp [hd]

omit [DecidableEq C] in
theorem undo_next {a u c : C} {v : ℕ} (hok : (Call.undo a v (some u) c).Ok H) (hne : u ≠ c) :
    (Call.undo a v (H.parent u) c).Ok H := by
  rw [Call.Ok, path_some, List.mem_cons] at hok
  exact hok.resolve_left hne.symm

theorem applied_undo_next {a u c : C} {v : ℕ} (hok : (Call.undo a v (some u) c).Ok H) (hne : u ≠ c)
    (d : C) : (Call.undo a v (some u) c).applied H d =
      (Call.undo a v (H.parent u) c).applied H d + if d = u then v else 0 := by
  have hpath := undo_next hok hne
  rw [Call.applied, Call.applied, path_some H u]
  by_cases hd : d = u
  · have hparent : d ∉ H.path (H.parent u) := hd ▸ not_mem_path_parent H u
    have hnot : d ∉ H.path (some c) := fun hmem => hparent (path_subset hpath d hmem)
    simp [hparent, hnot]
  · simp [hd]

theorem applied_uncharge_next (a c : C) (v : ℕ) (d : C) : (Call.uncharge a v (some c)).applied H d =
    (Call.uncharge a v (H.parent c)).applied H d + if d = c then v else 0 := by
  rw [Call.applied, Call.applied, path_some H c]
  by_cases hd : d = c
  · have hnot : d ∉ H.path (H.parent c) := hd ▸ not_mem_path_parent H c
    simp [hnot]
  · simp [hd]

variable [Fintype τ]

omit [DecidableEq C] in
theorem sum_setCall (f : Option (Call C) → ℕ) (calls : τ → Option (Call C)) (t : τ) (call : Option (Call C)) :
    ∑ t', f (Function.update calls t call t') + f (calls t) = ∑ t', f (calls t') + f call := by
  rw [← add_sum_erase _ _ (mem_univ t), ← add_sum_erase _ _ (mem_univ t)]
  have hrest : ∑ x ∈ Finset.univ.erase t, f (Function.update calls t call x) =
      ∑ x ∈ Finset.univ.erase t, f (calls x) :=
    sum_congr rfl fun x hx => by rw [Function.update_of_ne (ne_of_mem_erase hx)]
  rw [hrest, Function.update_self]
  omega

omit [DecidableEq τ] in
theorem Exact.applied_le (h : Exact H limit s) {call : Call C} (hcall : s.calls t = some call) (d : C) :
    call.applied H d ≤ (s.counters d).usage := by
  rw [h.usage_eq d]
  have hle := single_le_sum (f := fun t => inFlight H d (s.calls t)) (fun _ _ => Nat.zero_le _)
    (mem_univ t)
  rw [hcall] at hle
  exact hle.trans (Nat.le_add_left _ _)

theorem Exact.move (h : Exact H limit s) {counters : C → ResCounter} {charged : Multiset (C × ℕ)}
    {call : Option (Call C)} {warned : Bool}
    (hsum : ∀ d, (counters d).usage + (subtreeCharges H s.charged d + inFlight H d (s.calls t)) =
      (s.counters d).usage + (subtreeCharges H charged d + inFlight H d call))
    (hlimit : ∀ d, (counters d).limit = limit d) (hle : ∀ d, (counters d).usage ≤ limit d)
    (hok : ∀ k, call = some k → k.Ok H) (hquiet : warned = false) :
    Exact H limit ⟨counters, Function.update s.calls t call, charged, warned⟩ := by
  refine ⟨fun d => ?_, hlimit, hle, fun t' k hk => ?_, hquiet⟩
  · have hold := h.usage_eq d
    have hnew := hsum d
    have hcalls := sum_setCall (inFlight H d) s.calls t call
    dsimp only
    omega
  · by_cases ht : t' = t
    · rw [ht] at hk
      exact hok k (by simpa using hk)
    · exact h.calls_ok t' k (by simpa [ht] using hk)

theorem subtreeCharges_cons (charged : Multiset (C × ℕ)) (a : C) (v : ℕ) (d : C) :
    subtreeCharges H ((a, v) ::ₘ charged) d =
      (if d ∈ H.path (some a) then v else 0) + subtreeCharges H charged d := by
  rw [subtreeCharges, Multiset.map_cons, Multiset.sum_cons]
  rfl

variable (h : Exact H limit s)
include h

theorem Exact.moveAt {c : C} {r : ResCounter} {call call' : Call C}
    (hcall : s.calls t = some call) (hlimit : r.limit = (s.counters c).limit) (hle : r.usage ≤ limit c)
    (hnext : ∀ d, call'.applied H d + (if d = c then (s.counters c).usage else 0) =
      call.applied H d + if d = c then r.usage else 0) (hok : call'.Ok H) :
    Exact H limit ((s.setCounter c r).setCall t (some call')) := by
  refine h.move (fun d => ?_) (fun d => ?_) (fun d => ?_) (fun k hk => Option.some.inj hk ▸ hok) h.quiet
  · have hd := hnext d
    rw [hcall]
    simp only [inFlight, Option.elim, System.setCounter, Function.update_apply]
    split_ifs at hd ⊢ with hdc
    · rw [hdc] at hd ⊢
      omega
    · omega
  · by_cases hd : d = c
    · simpa [System.setCounter, hd, hlimit] using h.limit_eq c
    · simpa [System.setCounter, hd] using h.limit_eq d
  · by_cases hd : d = c
    · simpa [System.setCounter, hd] using hle
    · simpa [System.setCounter, hd] using h.usage_le d

theorem Exact.uncharge {call call' : Call C} {c : C} {v : ℕ}
    (hcall : s.calls t = some call) (hok : call'.Ok H)
    (hnext : ∀ d, call.applied H d = call'.applied H d + if d = c then v else 0) :
    let r := resCounterUnchargeLocked (s.counters c) v
    Exact H limit { (s.setCounter c r.1).setCall t (some call') with warned := s.warned || r.2 } := by
  have hv : v ≤ (s.counters c).usage := by
    have hle := h.applied_le hcall c
    rw [hnext c, if_pos rfl] at hle
    omega
  have hr : resCounterUnchargeLocked (s.counters c) v =
      ({ s.counters c with usage := (s.counters c).usage - v }, false) := by
    rw [resCounterUnchargeLocked, if_neg (not_lt.mpr hv)]
  dsimp only
  rw [hr, Bool.or_false]
  refine h.moveAt hcall rfl ((Nat.sub_le _ _).trans (h.usage_le c)) (fun d => ?_) hok
  rw [hnext d]
  split_ifs
  · dsimp only
    omega
  · rfl

theorem Exact.charge {a c : C} {v : ℕ}
    (hcall : s.calls t = some (.charge a v (some c))) (hroom : (s.counters c).usage + v < 2 ^ 64) :
    Exact H limit (s.resume H t) := by
  have hok := h.calls_ok t _ hcall
  have hlimit := h.limit_eq c
  rw [System.resume, hcall]
  dsimp only
  rw [resCounterChargeLocked, Nat.mod_eq_of_lt hroom]
  split_ifs with hfull
  · -- the walk back starts at the counter of the call, with the same amounts applied
    exact h.moveAt hcall rfl (h.usage_le c) (fun d => rfl) (hok c (self_mem_path H c))
  · refine h.moveAt hcall rfl (hlimit ▸ not_lt.mp hfull) (fun d => ?_) fun d hd => ?_
    · rw [applied_charge_next hok d]
      split_ifs
      · dsimp only
        omega
      · rfl
    · exact hok d (by rw [path_some]; exact List.mem_cons_of_mem _ hd)

theorem Exact.resume (he : s.Allowed (.resume t)) : Exact H limit (s.resume H t) := by
  cases hcall : s.calls t with
  | none =>
    rw [System.resume, hcall]
    exact h
  | some call =>
    have hok := h.calls_ok t call hcall
    cases call with
    | charge a v c =>
      cases c with
      | some c => exact h.charge hcall (he a v c hcall)
      | none =>
        rw [System.resume, hcall]
        refine h.move (fun d => ?_) h.limit_eq h.usage_le nofun h.quiet
        rw [hcall, subtreeCharges_cons]
        simp only [inFlight, Option.elim, Call.applied, Hierarchy.path, List.not_mem_nil, not_false_eq_true,
          and_true, System.setCall]
        omega
    | undo a v u c =>
      rw [System.resume, hcall]
      dsimp only
      split_ifs with hu
      · refine h.move (fun d => ?_) h.limit_eq h.usage_le nofun h.quiet
        rw [hcall, hu]
        simp [inFlight, Call.applied]
      · cases u with
        | none =>
          rw [Call.Ok, Hierarchy.path] at hok
          cases hok
        | some u =>
          have hne : u ≠ c := fun heq => hu (by rw [heq])
          exact h.uncharge hcall (undo_next hok hne) (applied_undo_next hok hne)
    | uncharge a v c =>
      cases c with
      | none =>
        rw [System.resume, hcall]
        refine h.move (fun d => ?_) h.limit_eq h.usage_le nofun h.quiet
        rw [hcall]
        simp [inFlight, Call.applied, Hierarchy.path]
      | some c =>
        rw [System.resume, hcall]
        exact h.uncharge hcall True.intro (applied_uncharge_next a c v)

theorem Exact.step {e : Event C τ} (he : s.Allowed e) : Exact H limit (s.step H e) := by
  cases e with
  | charge t a v =>
    refine h.move (fun d => ?_) h.limit_eq h.usage_le (fun k hk => ?_) h.quiet
    · rw [show s.calls t = none from he]
      simp [inFlight, Call.applied]
    · cases hk
      exact fun d hd => hd
  | uncharge t a v =>
    obtain ⟨hidle, hmem⟩ := he
    refine h.move (fun d => ?_) h.limit_eq h.usage_le (fun k hk => ?_) h.quiet
    · have hcons := subtreeCharges_cons (H := H) (s.charged.erase (a, v)) a v d
      rw [Multiset.cons_erase hmem] at hcons
      rw [hidle, hcons]
      simp only [inFlight, Option.elim, Call.applied, System.setCall]
      omega
    · cases hk
      exact True.intro
  | resume t => exact h.resume he

omit h

theorem System.Reached.exact (h : System.Reached H limit s) : Exact H limit s := by
  induction h with
  | init => exact ⟨fun d => by simp [subtreeCharges, inFlight], fun _ => rfl, fun _ => Nat.zero_le _, nofun, rfl⟩
  | step _ he ih => exact ih.step he

/-- Whatever the calls do in between: every counter holds exactly the charges of its subtree and what the
calls in progress have put on it, within its limit, and nothing is taken off that is not there. -/
theorem usage_exact (h : System.Reached H limit s) :
    (∀ d, (s.counters d).usage = subtreeCharges H s.charged d + ∑ t, inFlight H d (s.calls t)) ∧
      (∀ d, (s.counters d).limit = limit d ∧ (s.counters d).usage ≤ (s.counters d).limit) ∧
      (∀ t a v c, s.calls t = some (.undo a v (some c) c) →
        s.step H (.resume t) = s.setCall t none ∧ ∀ d, inFlight H d (s.calls t) = 0) ∧
      s.warned = false := by
  have hex := h.exact
  refine ⟨hex.usage_eq, fun d => ⟨hex.limit_eq d, ?_⟩, fun t a v c hcall => ⟨?_, fun d => ?_⟩, hex.quiet⟩
  · rw [hex.limit_eq d]
    exact hex.usage_le d
  · rw [System.step, System.resume, hcall]
    simp
  · rw [hcall]
    simp [inFlight, Call.applied]

end Accounting

def pair : Hierarchy Bool where
  parent c := if c then some false else none
  depth c := c.toNat
  depth_parent := by decide

theorem usage_exact_pair :
    let s := ((System.mk (fun _ => ⟨0, 0, 5, 0⟩) (fun _ : Unit => none) 0 false).step pair
      (.charge () true 3)).step pair (.resume ())
    (s.counters true).usage = subtreeCharges pair s.charged true + ∑ t, inFlight pair true (s.calls t) :=
  have hstart : System.Reached pair (fun _ => 5) ⟨fun _ => ⟨0, 0, 5, 0⟩, fun _ : Unit => none, 0, false⟩ := .init
  have hcharge : System.Allowed ⟨fun _ => ⟨0, 0, 5, 0⟩, fun _ : Unit => none, 0, false⟩
    (.charge () true 3) := rfl
  have hresume : System.Allowed ((System.mk (fun _ => ⟨0, 0, 5, 0⟩) (fun _ : Unit => none) 0 false).step pair
      (.charge () true 3)) (.resume ()) := by
    rintro counter val c hcall
    cases hcall
    decide
  (usage_exact (.step (.step hstart hcharge) hresume)).1 true

end VDLinux.Kernel.Counters
