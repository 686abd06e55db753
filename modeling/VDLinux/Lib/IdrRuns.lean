import VDLinux.Lib.IdrRemove

namespace VDLinux.Lib

open Base.Radix

variable {α : Type} {bits h l id x : ℕ} {M : ℕ → Option (Slot α)} {p q : Layer α} {idp : Idr α}

section Lookup

theorem findLoop_spec (h : WF bits l p) :
    findLoop bits id (l + 1) (.sub p) = some ((held bits l p id).getD .null) := by
  induction l generalizing p with
  | zero =>
    rw [findLoop, if_pos h.1.symm, findLoop, held]
    split_ifs with hset
    · rfl
    · rw [(h.2.2 _ (digit_lt bits id 0)).2 (Bool.not_eq_true _ ▸ hset)]
      rfl
  | succ l ih =>
    rw [findLoop, if_pos h.1.symm, held]
    obtain ⟨hnull, -⟩ | ⟨q, hq, hwf, -⟩ := h.2.2 _ (digit_lt bits id (l + 1))
    · rw [hnull]
      rfl
    · rw [hq]
      exact ih hwf

theorem idrFind_spec (hinv : IdrInv bits M idp) (hid : id < 2 ^ 31) :
    idrFind bits idp id = some ((M id).getD .null) := by
  rw [idrFind]
  cases htop : idp.top with
  | none =>
    rw [(hinv.empty htop).2 id]
    rfl
  | some top =>
    obtain ⟨h, -, -, ht⟩ := hinv.tree top htop
    dsimp only
    rw [and_maxIdMask hid, ht.wf.layer_eq, Nat.one_shiftLeft, Nat.mul_comm (h + 1)]
    split_ifs with hle
    · rw [ht.outside id hle]
      rfl
    · rw [findLoop_spec ht.wf, ht.same id (not_le.mp hle)]

theorem replaceAt_none (ptr : Option α) (hid : held bits l p id = none) :
    replaceAt bits ptr id l p = none := by
  induction l generalizing p with
  | zero =>
    rw [held] at hid
    rw [replaceAt, and_idrMask]
    split_ifs at hid ⊢
    rfl
  | succ l ih =>
    rw [held] at hid
    rw [replaceAt]
    cases hary : p.ary (digit bits id (l + 1)) with
    | null => rfl
    | user a => rfl
    | sub q =>
      rw [hary] at hid
      dsimp only
      rw [ih hid]
      rfl

theorem replaceAt_some (ptr : Option α) {old : Slot α} (h : WF bits l p) (hid : held bits l p id = some old) :
    ∃ p', replaceAt bits ptr id l p = some (old, p') ∧ WF bits l p' ∧ p'.bitmap = p.bitmap ∧
      ∀ x, held bits l p' x =
        if ∀ k < l + 1, place bits x k = place bits id k then some (.ofPtr ptr) else held bits l p x := by
  induction l generalizing p with
  | zero =>
    rw [held] at hid
    split_ifs at hid with hset
    cases hid
    rw [replaceAt, and_idrMask, if_pos hset]
    refine ⟨_, rfl, ⟨h.1, h.2.1, fun i hi => ?_⟩, rfl, fun x => ?_⟩
    · by_cases hi' : i = digit bits id 0
      · cases ptr <;> simp [LayerOf.setAry, hi', hset, Slot.ofPtr]
      · simpa [LayerOf.setAry, hi'] using h.2.2 i hi
    · have hiff : (∀ k < 0 + 1, place bits x k = place bits id k) ↔ digit bits x 0 = digit bits id 0 := by
        simp [digit_eq_place]
      rw [held, held]
      by_cases hx : digit bits x 0 = digit bits id 0
      · rw [if_pos (hiff.mpr hx), hx]
        simp [LayerOf.setAry, hset]
      · rw [if_neg (mt hiff.mp hx)]
        simp [LayerOf.setAry, hx]
  | succ l ih =>
    obtain ⟨hnull, -⟩ | ⟨q, hq, hwf, hbit⟩ := h.2.2 _ (digit_lt bits id (l + 1))
    · rw [held, hnull] at hid
      cases hid
    · rw [held, hq] at hid
      obtain ⟨q', hrep, hwf', hbitmap, hheld⟩ := ih hwf hid
      have hself : p.setAry (digit bits id (l + 1)) (.sub q) = p := by
        rw [LayerOf.setAry, ← hq, Function.update_eq_self]
      rw [replaceAt, hq]
      dsimp only
      rw [hrep]
      refine ⟨_, rfl, ?_, rfl, fun x => ?_⟩
      · rw [← hself] at h
        exact h.setAry_congr hwf' fun hset => hbitmap.trans (hbit hset)
      · rw [held_setAry]
        have hsucc : (∀ k < l + 1 + 1, place bits x k = place bits id k) ↔
            (∀ k < l + 1, place bits x k = place bits id k) ∧ digit bits id (l + 1) = digit bits x (l + 1) := by
          rw [digit_eq_place, digit_eq_place, Nat.forall_lt_succ_right, eq_comm (a := place bits id _)]
        by_cases hdigit : digit bits id (l + 1) = digit bits x (l + 1)
        · rw [if_pos hdigit, hheld x]
          have hold : held bits (l + 1) p x = held bits l q x := by rw [held, ← hdigit, hq]
          simp only [hsucc, hdigit, and_true, hold]
        · simp only [hsucc, hdigit, and_false, if_false]

theorem idrReplace_spec (hinv : IdrInv bits M idp) (ptr : Option α) (hid : id < 2 ^ 31) :
    (M id = none → (idrReplace bits idp ptr id).1 = idp) ∧
      (M id ≠ none → IdrInv bits (Function.update M id (some (.ofPtr ptr))) (idrReplace bits idp ptr id).1) := by
  rw [idrReplace]
  cases htop : idp.top with
  | none => exact ⟨fun _ => rfl, absurd ((hinv.empty htop).2 id)⟩
  | some top =>
    obtain ⟨h, hlayers, hheight, ht⟩ := hinv.tree top htop
    dsimp only
    rw [and_maxIdMask hid, ht.wf.layer_eq, Nat.one_shiftLeft, Nat.mul_comm (h + 1)]
    split_ifs with hle
    · exact ⟨fun _ => rfl, absurd (ht.outside id hle)⟩
    · have hlt := not_le.mp hle
      cases hheld : held bits h top id with
      | none =>
        rw [replaceAt_none ptr hheld]
        exact ⟨fun _ => rfl, absurd ((ht.same id hlt).trans hheld)⟩
      | some old =>
        obtain ⟨top', hrep, hwf, -, hmap⟩ := replaceAt_some ptr ht.wf hheld
        rw [hrep]
        refine ⟨fun hnone => ?_, fun _ => ?_⟩
        · rw [ht.same id hlt, hheld] at hnone
          cases hnone
        · refine ⟨hinv.zeroed, nofun, fun t hteq => ⟨h, hlayers, hheight, ?_⟩⟩
          cases hteq
          refine ⟨hwf, fun x hx => ?_, fun x hx => ?_, hinv.zeroed⟩
          · rw [hmap x]
            split_ifs with hall
            · rw [eq_of_place_eq hx hlt hall, Function.update_self]
            · have hne : x ≠ id := fun heq => hall fun k _ => by rw [heq]
              rw [Function.update_of_ne hne, ht.same x hx]
          · have hne : x ≠ id := fun heq => absurd hlt (not_lt.mpr (heq ▸ hx))
            rw [Function.update_of_ne hne, ht.outside x hx]

end Lookup

/-- What callers know: the pointer last stored for each allocated id. -/
abbrev IdMap (α : Type) := ℕ → Option (Option α)

def IdMap.slots (m : IdMap α) (id : ℕ) : Option (Slot α) := (m id).map .ofPtr

theorem IdMap.slots_update (m : IdMap α) (id : ℕ) (v : Option (Option α)) :
    IdMap.slots (Function.update m id v) = Function.update m.slots id (v.map .ofPtr) := by
  funext x
  by_cases hx : x = id
  · subst hx
    simp [IdMap.slots]
  · simp [IdMap.slots, hx]

inductive IdrOp (α : Type) where
  | preGet (available : ℕ)
  | getNewAbove (ptr : Option α) (startingId : ℕ)
  | replace (ptr : Option α) (id : ℕ)
  | remove (id : ℕ)

def IdrOp.run (bits : ℕ) (idp : Idr α) (m : IdMap α) : IdrOp α → Idr α × IdMap α
  | .preGet available => ((idrPreGet bits idp available).1, m)
  | .getNewAbove ptr startingId =>
    match idrGetNewAbove bits idp ptr startingId with
    | (idp, .ok id) => (idp, Function.update m id (some ptr))
    | (idp, _) => (idp, m)
  | .replace ptr id =>
    ((idrReplace bits idp ptr id).1, if (m id).isSome then Function.update m id (some ptr) else m)
  | .remove id => (idrRemove bits idp id, Function.update m id none)

/-- Some id from `start` on is free among those that six layers of five bits, or five of six, reach. -/
def HasRoom (m : IdMap α) (start : ℕ) : Prop := ∃ id, start ≤ id ∧ id < 2 ^ 30 ∧ m id = none

def IdrOp.Allowed (m : IdMap α) : IdrOp α → Prop
  | .preGet _ => True
  | .getNewAbove _ startingId => HasRoom m startingId
  | .replace _ id => id < 2 ^ 31
  | .remove id => m id ≠ none

inductive IdrReached (bits : ℕ) : Idr α → IdMap α → Prop where
  | init : IdrReached bits idrInit fun _ => none
  | step {idp : Idr α} {m : IdMap α} (h : IdrReached bits idp m) {op : IdrOp α} (hop : op.Allowed m) :
      IdrReached bits (op.run bits idp m).1 (op.run bits idp m).2

section Runs

variable {m : IdMap α}

theorem idrBits_bounds (hbits : bits = 5 ∨ bits = 6) :
    0 < bits ∧ 1 ≤ maxLevel bits - 1 ∧ idLimit bits = 2 ^ 30 := by
  obtain rfl | rfl := hbits
  · exact ⟨by decide, by decide, rfl⟩
  · exact ⟨by decide, by decide, rfl⟩

theorem HasRoom.slots (hbits : bits = 5 ∨ bits = 6) {start : ℕ} (h : HasRoom m start) :
    ∃ x, start ≤ x ∧ x < idLimit bits ∧ m.slots x = none := by
  obtain ⟨id, hle, hlt, hnone⟩ := h
  exact ⟨id, hle, (idrBits_bounds hbits).2.2 ▸ hlt, by rw [IdMap.slots, hnone]; rfl⟩

theorem slots_eq_none : m.slots id = none ↔ m id = none := by
  rw [IdMap.slots, Option.map_eq_none_iff]

theorem IdrInv.lt_limit (hinv : IdrInv bits M idp) (hid : M id ≠ none) : id < idLimit bits := by
  cases htop : idp.top with
  | none => exact absurd ((hinv.empty htop).2 id) hid
  | some top =>
    obtain ⟨h, -, hheight, ht⟩ := hinv.tree top htop
    have hlt : id < 2 ^ (bits * (h + 1)) := not_le.mp fun hle => hid (ht.outside id hle)
    exact hlt.trans_le (Nat.pow_le_pow_right (by omega) (Nat.mul_le_mul_left bits hheight))

theorem IdrOp.run_inv (hbits : bits = 5 ∨ bits = 6) (hinv : IdrInv bits m.slots idp) {op : IdrOp α}
    (hop : op.Allowed m) : IdrInv bits (op.run bits idp m).2.slots (op.run bits idp m).1 := by
  obtain ⟨hpos, hlevel, hlimit⟩ := idrBits_bounds hbits
  cases op with
  | preGet available => exact idrPreGet_spec hinv available
  | getNewAbove ptr start =>
    have hspec := idrGetNewAbove_spec hinv hpos hlevel (hop.slots hbits) ptr
    rw [IdrOp.run]
    revert hspec
    cases idrGetNewAbove bits idp ptr start with
    | mk idp' r =>
      cases r with
      | ok id =>
        rintro ⟨hinv', -⟩
        rw [IdMap.slots_update]
        exact hinv'
      | eagain => exact fun hinv' => hinv'
      | enospc => exact False.elim
      | bug => exact False.elim
  | replace ptr id =>
    obtain ⟨hnone, hsome⟩ := idrReplace_spec hinv ptr hop
    rw [IdrOp.run]
    split_ifs with hid
    · rw [IdMap.slots_update]
      exact hsome (by rw [Ne, slots_eq_none]; exact Option.isSome_iff_ne_none.mp hid)
    · rw [hnone (slots_eq_none.mpr (Option.not_isSome_iff_eq_none.mp hid))]
      exact hinv
  | remove id =>
    have hid : m.slots id ≠ none := mt slots_eq_none.mp hop
    have hlt := hinv.lt_limit hid
    rw [IdrOp.run, IdMap.slots_update]
    exact idrRemove_spec hinv (by omega) hid

theorem IdrReached.inv (hbits : bits = 5 ∨ bits = 6) (h : IdrReached bits idp m) :
    IdrInv bits m.slots idp := by
  induction h with
  | init => exact ⟨by simp [idrInit], fun _ => ⟨rfl, fun _ => rfl⟩, nofun⟩
  | step _ hop ih => exact IdrOp.run_inv hbits ih hop

theorem getD_slots (m : IdMap α) (id : ℕ) : (m.slots id).getD .null = .ofPtr (m id).join := by
  rw [IdMap.slots]
  cases m id <;> rfl

/-- As long as every allocation leaves room, ids are the smallest free ones and every lookup is exact. -/
theorem idr_exact (hbits : bits = 5 ∨ bits = 6) (h : IdrReached bits idp m) :
    (∀ id < 2 ^ 31, idrFind bits idp id = some (.ofPtr (m id).join)) ∧
      ∀ ptr start, HasRoom m start → match idrGetNewAbove bits idp ptr start with
        | (_, .ok id) => start ≤ id ∧ m id = none ∧ ∀ x, start ≤ x → m x = none → id ≤ x
        | (idp', .eagain) => ∀ id < 2 ^ 31, idrFind bits idp' id = idrFind bits idp id
        | _ => False := by
  have hinv := h.inv hbits
  obtain ⟨hpos, hlevel, -⟩ := idrBits_bounds hbits
  refine ⟨fun id hid => by rw [idrFind_spec hinv hid, getD_slots], fun ptr start hroom => ?_⟩
  have hspec := idrGetNewAbove_spec hinv hpos hlevel (hroom.slots hbits) ptr
  revert hspec
  cases idrGetNewAbove bits idp ptr start with
  | mk idp' r =>
    cases r with
    | ok id =>
      rintro ⟨-, hle, hnone, hleast⟩
      refine ⟨hle, slots_eq_none.mp hnone, fun x hx hfree => ?_⟩
      exact not_lt.mp fun hlt => hleast x hx hlt (slots_eq_none.mpr hfree)
    | eagain =>
      intro hinv' id hid
      rw [idrFind_spec hinv' hid, idrFind_spec hinv hid]
    | enospc => exact False.elim
    | bug => exact False.elim

def getSeven : IdrOp Bool := .getNewAbove (some true) 7

theorem idr_exact_getSeven :
    IdrReached 5 (getSeven.run 5 (idrPreGet 5 idrInit 14).1 fun _ => none).1
      (getSeven.run 5 (idrPreGet 5 idrInit 14).1 fun _ => none).2 ∧
    idrFind 5 (getSeven.run 5 (idrPreGet 5 idrInit 14).1 fun _ => none).1 7 =
      some (.ofPtr (some true)) := by
  have hpre : IdrOp.Allowed (fun _ => none) (.preGet 14 : IdrOp Bool) := True.intro
  have hget : IdrOp.Allowed (fun _ => none) getSeven := ⟨7, by decide, by decide, rfl⟩
  have hinit : IdrReached 5 (idrInit : Idr Bool) fun _ => none := .init
  have hreached := IdrReached.step (.step hinit hpre) hget
  have hseven : ((getSeven.run 5 (idrPreGet 5 idrInit 14).1 fun _ => none).2 7).join = some true := by
    decide +kernel
  refine ⟨hreached, ?_⟩
  exact (idr_exact (.inl rfl) hreached).1 7 (by decide)

end Runs

/-- A first call with a start above the limit: the pointer is stored under the id 0. -/
theorem getNewAbove_aliases :
    let idp := (idrGetNewAbove 5 (idrPreGet 5 idrInit 14).1 (some true) 0x40000000).1
    (idrGetNewAbove 5 (idrPreGet 5 idrInit 14).1 (some true) 0x40000000).2 = .ok 0x40000000 ∧
      (idrFind 5 idp 0x40000000).map Slot.isNull = some true ∧
      (idrFind 5 idp 0).map Slot.isNull = some false := by
  decide +kernel

end VDLinux.Lib
