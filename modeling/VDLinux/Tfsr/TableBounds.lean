import VDLinux.Tfsr.MetaData

namespace VDLinux.Tfsr.TableBounds

open BlockMap MetaData List

/-- Sizes of the two tables of a die, as `_InitBBM` clears them. -/
def bmfTableSize (vol : BmlVolCxt) : Nat :=
  if 1 < vol.nNumOfPlane then rsvrBlks vol + rsvrBlks vol / 2 else rsvrBlks vol

def rcbTableSize (vol : BmlVolCxt) : Nat := rsvrBlks vol / 2

def bmfsOf (es : List BmlBMF) : List BmlBMF :=
  es.takeWhile (fun e => ¬ (e.nRbn = 0xFFFF ∧ e.nSbn = 0xFFFF))

def rcbsOf (cs : List UInt16) : List UInt16 := cs.takeWhile (fun c => c ≠ 0xFFFF)

def bmfsIn (vol : BmlVolCxt) (i : Nat) (page : Page) : Nat :=
  if 3 < i ∧ isBMSSct vol i then (bmfsOf (page.stBMFs (i % vol.nSctsPerPg))).length else 0

def rcbsIn (vol : BmlVolCxt) (nType : PcbType) (i : Nat) (page : Page) : Nat :=
  match nType with
  | .lpcb => 0
  | .upcb =>
    if 3 < i ∧ ¬ isBMSSct vol i ∧ isRCBSct vol i then
      (rcbsOf (page.rcbSbns (i % vol.nSctsPerPg))).length
    else 0

/-- What the sectors from `i` on hold, up to the first page that cannot be read. -/
def offered (vol : BmlVolCxt) (read : Nat → ReadResult) (f : Nat → Page → Nat) : Nat → Nat → Nat
  | 0, _ => 0
  | left + 1, i =>
    let r := read (i / vol.nSctsPerPg)
    if r.re.readable then f i r.page + offered vol read f left (i + 1) else 0

def bmfsOffered (vol : BmlVolCxt) (read : Nat → ReadResult) : Nat :=
  offered vol read (bmfsIn vol) (bmlNumOfMetaPgs * vol.nSctsPerPg) 0

def rcbsOffered (vol : BmlVolCxt) (nType : PcbType) (read : Nat → ReadResult) : Nat :=
  offered vol read (rcbsIn vol nType) (bmlNumOfMetaPgs * vol.nSctsPerPg) 0

/-- All stores went to consecutive cells from the first one on. -/
structure Tracked (st : MountState) : Prop where
  bmf : st.bmfStores = List.range st.rsv.nNumOfBMFs.toNat
  rcb : st.rcbStores = List.range st.rsv.nNumOfRCBs.toNat

variable {vol : BmlVolCxt} {st : MountState}

theorem toNat_succ {n : UInt16} (h : n.toNat + 1 < 2 ^ 16) : (n + 1).toNat = n.toNat + 1 := by
  exact Nat.mod_eq_of_lt h

theorem Tracked.storeBMF (h : Tracked st) (e : BmlBMF) (hn : st.rsv.nNumOfBMFs.toNat + 1 < 2 ^ 16) :
    Tracked (storeBMF st e) := by
  refine ⟨?_, h.rcb⟩
  change st.bmfStores ++ [st.rsv.nNumOfBMFs.toNat] = List.range (st.rsv.nNumOfBMFs + 1).toNat
  rw [toNat_succ hn, range_succ, h.bmf]

theorem Tracked.storeRCB (h : Tracked st) (c : UInt16) (hn : st.rsv.nNumOfRCBs.toNat + 1 < 2 ^ 16) :
    Tracked (storeRCB st c) := by
  refine ⟨h.bmf, ?_⟩
  change st.rcbStores ++ [st.rsv.nNumOfRCBs.toNat] = List.range (st.rsv.nNumOfRCBs + 1).toNat
  rw [toNat_succ hn, range_succ, h.rcb]

/-- The effect of a step that was offered `b` block map fields and `r`
candidates: it stores them all, or it stops at a full table. -/
structure Fills (vol : BmlVolCxt) (b r : Nat) (ok : Bool) (st st' : MountState) : Prop where
  tracked : Tracked st'
  bmf_le : st'.rsv.nNumOfBMFs.toNat ≤ st.rsv.nNumOfBMFs.toNat + b
  rcb_le : st'.rsv.nNumOfRCBs.toNat ≤ st.rsv.nNumOfRCBs.toNat + r
  done : ok = true → st'.rsv.nNumOfBMFs.toNat = st.rsv.nNumOfBMFs.toNat + b ∧
    st'.rsv.nNumOfRCBs.toNat = st.rsv.nNumOfRCBs.toNat + r
  full : ok = false → bmfLimit vol < st'.rsv.nNumOfBMFs.toNat

theorem Fills.refl (h : Tracked st) : Fills vol 0 0 true st st :=
  ⟨h, Nat.le_refl _, Nat.le_refl _, fun _ => ⟨rfl, rfl⟩, nofun⟩

theorem Fills.trans {b r b' r' : Nat} {ok : Bool} {st' st'' : MountState}
    (h : Fills vol b r true st st') (h' : Fills vol b' r' ok st' st'') :
    Fills vol (b + b') (r + r') ok st st'' := by
  have hd := h.done rfl
  have hb := h'.bmf_le
  have hr := h'.rcb_le
  refine ⟨h'.tracked, by omega, by omega, ?_, h'.full⟩
  intro hok
  have hd' := h'.done hok
  omega

theorem loadBMS_fills (es : List BmlBMF) (st : MountState) (h : Tracked st)
    (hn : st.rsv.nNumOfBMFs.toNat + (bmfsOf es).length < 2 ^ 16) :
    Fills vol (bmfsOf es).length 0 (loadBMS vol es st).1 st (loadBMS vol es st).2 := by
  induction es generalizing st with
  | nil => exact .refl h
  | cons e es ih =>
    rw [loadBMS]
    by_cases hend : e.nRbn = 0xFFFF ∧ e.nSbn = 0xFFFF
    · rw [if_pos hend]
      have hz : (bmfsOf (e :: es)).length = 0 := by simp [bmfsOf, hend]
      rw [hz]
      exact .refl h
    · have hs : (bmfsOf (e :: es)).length = (bmfsOf es).length + 1 := by
        have ht : bmfsOf (e :: es) = e :: bmfsOf es :=
          takeWhile_cons_of_pos (decide_eq_true hend)
        rw [ht, length_cons]
      rw [hs] at hn ⊢
      split_ifs with hfull
      · exact ⟨h, Nat.le_add_right _ _, Nat.le_refl _, nofun, fun _ => hfull⟩
      · have hsucc : (storeBMF st e).rsv.nNumOfBMFs.toNat = st.rsv.nNumOfBMFs.toNat + 1 :=
          toNat_succ (by omega)
        have hone : Fills vol 1 0 true st (storeBMF st e) :=
          ⟨h.storeBMF e (by omega), by omega, Nat.le_refl _, fun _ => ⟨hsucc, rfl⟩,
            nofun⟩
        have hrest := hone.trans (ih (storeBMF st e) hone.tracked (by omega))
        rwa [Nat.add_comm] at hrest

theorem loadRCB_fills (cs : List UInt16) (st : MountState) (h : Tracked st)
    (hn : st.rsv.nNumOfRCBs.toNat + (rcbsOf cs).length < 2 ^ 16) :
    Fills vol 0 (rcbsOf cs).length true st (loadRCB cs st) := by
  induction cs generalizing st with
  | nil => exact .refl h
  | cons c cs ih =>
    rw [loadRCB]
    by_cases hend : c = 0xFFFF
    · rw [if_neg (not_not.mpr hend)]
      have hz : (rcbsOf (c :: cs)).length = 0 := by simp [rcbsOf, hend]
      rw [hz]
      exact .refl h
    · rw [if_pos hend]
      have hs : (rcbsOf (c :: cs)).length = (rcbsOf cs).length + 1 := by simp [rcbsOf, hend]
      rw [hs] at hn ⊢
      have hsucc : (storeRCB st c).rsv.nNumOfRCBs.toNat = st.rsv.nNumOfRCBs.toNat + 1 :=
        toNat_succ (by omega)
      have hone : Fills vol 0 1 true st (storeRCB st c) :=
        ⟨h.storeRCB c (by omega), Nat.le_refl _, by omega, fun _ => ⟨rfl, hsucc⟩,
          nofun⟩
      have hrest := hone.trans (ih (storeRCB st c) hone.tracked (by omega))
      rwa [Nat.add_comm 1] at hrest

theorem rcbsIn_eq_zero {nType : PcbType} {i : Nat} {page : Page}
    (h : ¬ (3 < i ∧ ¬ isBMSSct vol i ∧ isRCBSct vol i)) : rcbsIn vol nType i page = 0 := by
  cases nType with
  | lpcb => rfl
  | upcb => exact if_neg h

theorem loadSct_fills (vol : BmlVolCxt) (nType : PcbType) (i : Nat) (page : Page) (st : MountState) (h : Tracked st)
    (hb : st.rsv.nNumOfBMFs.toNat + bmfsIn vol i page < 2 ^ 16)
    (hr : st.rsv.nNumOfRCBs.toNat + rcbsIn vol nType i page < 2 ^ 16) :
    Fills vol (bmfsIn vol i page) (rcbsIn vol nType i page) (loadSct vol nType i page st).1 st
      (loadSct vol nType i page st).2 := by
  by_cases hhead : i ≤ 3
  · have hbz : bmfsIn vol i page = 0 := if_neg (fun hc => by omega)
    rw [hbz, rcbsIn_eq_zero (fun hc => by omega), loadSct.eq_def]
    by_cases h0 : i = 0
    · rw [if_pos h0]
      exact ⟨⟨h.bmf, h.rcb⟩, Nat.le_refl _, Nat.le_refl _, fun _ => ⟨rfl, rfl⟩, nofun⟩
    · rw [if_neg h0, if_pos (by omega)]
      exact .refl h
  · rw [loadSct.eq_def, if_neg (by omega), if_neg (by omega)]
    by_cases hbms : isBMSSct vol i
    · have hbe : bmfsIn vol i page = (bmfsOf (page.stBMFs (i % vol.nSctsPerPg))).length :=
        if_pos ⟨by omega, hbms⟩
      rw [hbe] at hb
      rw [if_pos hbms, rcbsIn_eq_zero (fun hc => hc.2.1 hbms), hbe]
      exact loadBMS_fills _ st h hb
    · have hbz : bmfsIn vol i page = 0 := if_neg (fun hc => hbms hc.2)
      rw [if_neg hbms, hbz]
      split_ifs with hrcb
      · cases nType with
        | lpcb => exact .refl h
        | upcb =>
          have hre : rcbsIn vol .upcb i page = (rcbsOf (page.rcbSbns (i % vol.nSctsPerPg))).length :=
            if_pos ⟨by omega, hbms, hrcb⟩
          rw [hre] at hr ⊢
          exact loadRCB_fills _ st h hr
      · rw [rcbsIn_eq_zero (fun hc => hrcb hc.2.2)]
        exact .refl h

def noTableFull : LoadEnd → Bool
  | .notLoaded => false
  | _ => true

/-- Inside a page, `page` is what was read of it. -/
def Held (vol : BmlVolCxt) (read : Nat → ReadResult) (i : Nat) (page : Page) : Prop :=
  i % vol.nSctsPerPg ≠ 0 →
    page = (read (i / vol.nSctsPerPg)).page ∧ (read (i / vol.nSctsPerPg)).re.readable

theorem held_succ {read : Nat → ReadResult} {i : Nat} (hre : (read (i / vol.nSctsPerPg)).re.readable) :
    Held vol read (i + 1) (read (i / vol.nSctsPerPg)).page := by
  intro hne
  rw [Nat.succ_div_of_not_dvd (fun hdvd => hne (Nat.mod_eq_zero_of_dvd hdvd))]
  exact ⟨rfl, hre⟩

theorem fetch_cases (read : Nat → ReadResult) (i : Nat) (page : Page) (d : Bool) (hpage : Held vol read i page) :
    (∃ e, fetch vol read i page d = .error e) ∧ (read (i / vol.nSctsPerPg)).re.readable = false ∨
    ∃ d', fetch vol read i page d = .ok ((read (i / vol.nSctsPerPg)).page, d') ∧
      (read (i / vol.nSctsPerPg)).re.readable = true := by
  rw [fetch]
  split_ifs with hi
  · dsimp only
    cases (read (i / vol.nSctsPerPg)).re with
    | error e => exact .inl ⟨⟨e, rfl⟩, rfl⟩
    | success => exact .inr ⟨d, rfl, rfl⟩
    | prev1LvReadDisturbance => exact .inr ⟨d, rfl, rfl⟩
    | prev2LvReadDisturbance => exact .inr ⟨true, rfl, rfl⟩
  · obtain ⟨hp, hre⟩ := hpage hi
    exact .inr ⟨d, by rw [hp], hre⟩

variable (vol : BmlVolCxt)

theorem loadScts_fills (nType : PcbType) (read : Nat → ReadResult) (left i : Nat) (page : Page)
    (d : Bool) (st : MountState) (h : Tracked st) (hpage : Held vol read i page)
    (hb : st.rsv.nNumOfBMFs.toNat + offered vol read (bmfsIn vol) left i < 2 ^ 16)
    (hr : st.rsv.nNumOfRCBs.toNat + offered vol read (rcbsIn vol nType) left i < 2 ^ 16) :
    Fills vol (offered vol read (bmfsIn vol) left i) (offered vol read (rcbsIn vol nType) left i)
      (noTableFull (loadScts vol nType read left i page d st).1) st
      (loadScts vol nType read left i page d st).2 := by
  induction left generalizing i page d st with
  | zero => exact .refl h
  | succ left ih =>
    rw [loadScts]
    obtain ⟨⟨e, he⟩, hre⟩ | ⟨d', he, hre⟩ := fetch_cases read i page d hpage
    · have hz : ∀ f, offered vol read f (left + 1) i = 0 := fun f => by simp [offered, hre]
      rw [he, hz, hz]
      exact .refl h
    · have hs : ∀ f, offered vol read f (left + 1) i =
          f i (read (i / vol.nSctsPerPg)).page + offered vol read f left (i + 1) :=
        fun f => by simp [offered, hre]
      rw [hs] at hb hr
      rw [he, hs, hs]
      have hsct := loadSct_fills vol nType i (read (i / vol.nSctsPerPg)).page st h (by omega) (by omega)
      dsimp only
      generalize loadSct vol nType i (read (i / vol.nSctsPerPg)).page st = res at hsct
      obtain ⟨ok, st'⟩ := res
      cases ok with
      | false =>
        have hbl := hsct.bmf_le
        have hrl := hsct.rcb_le
        exact ⟨hsct.tracked, by dsimp only at *; omega, by dsimp only at *; omega,
          nofun, fun _ => hsct.full rfl⟩
      | true =>
        have hd := hsct.done rfl
        dsimp only at hd hsct ⊢
        exact hsct.trans (ih (i + 1) _ d' st' hsct.tracked (held_succ hre) (by omega) (by omega))

theorem ite_zero_le {p q : Prop} [Decidable p] [Decidable q] {n m : Nat} (hpq : p → q) (hnm : n ≤ m) :
    (if p then n else 0) ≤ if q then m else 0 := by
  split_ifs <;> first | exact Nat.zero_le _ | tauto

theorem bmfsIn_le (i : Nat) (page : Page) :
    bmfsIn vol i page ≤ if isBMSSct vol i then 127 else 0 := by
  have hlen := (List.takeWhile_prefix (l := page.stBMFs (i % vol.nSctsPerPg))
    (fun e => ¬ (e.nRbn = 0xFFFF ∧ e.nSbn = 0xFFFF))).length_le
  exact ite_zero_le And.right hlen

theorem rcbsIn_le (nType : PcbType) (i : Nat) (page : Page) :
    rcbsIn vol nType i page ≤ if isRCBSct vol i then 256 else 0 := by
  have hlen := (List.takeWhile_prefix (l := page.rcbSbns (i % vol.nSctsPerPg))
    (fun c => c ≠ 0xFFFF)).length_le
  simp only [Page.rcbSbns, length_map, length_range, bmlRCBFsPerRCBS] at hlen
  cases nType with
  | lpcb => exact Nat.zero_le _
  | upcb => exact ite_zero_le (fun h => h.2.2) hlen

theorem numOfBMS_le : numOfBMS vol ≤ 10 := by
  rw [numOfBMS]
  split <;> decide

theorem numOfRCB_le : numOfRCB vol ≤ 2 := by
  have hle := numOfBMS_le vol
  rw [numOfRCB]
  split
  · dsimp only
    split <;> simp only [bmlBMFsPerBMS, bmlRCBFsPerRCBS] <;> omega
  · exact Nat.zero_le _

theorem offered_le (read : Nat → ReadResult) (f : Nat → Page → Nat) (a c m : Nat)
    (hf : ∀ i page, f i page ≤ if a ≤ i ∧ i < a + c then m else 0) (left i : Nat) :
    offered vol read f left i ≤ m * min c (a + c - i) := by
  induction left generalizing i with
  | zero => exact Nat.zero_le _
  | succ left ih =>
    rw [offered]
    split
    · have hi := hf i (read (i / vol.nSctsPerPg)).page
      have hrest := ih (i + 1)
      by_cases hin : a ≤ i ∧ i < a + c
      · rw [if_pos hin] at hi
        have hmin : min c (a + c - i) = min c (a + c - (i + 1)) + 1 := by omega
        rw [hmin, Nat.mul_add, Nat.mul_one]
        omega
      · rw [if_neg hin] at hi
        have hmin : min c (a + c - (i + 1)) ≤ min c (a + c - i) := by omega
        have hmul := Nat.mul_le_mul_left m hmin
        omega
    · exact Nat.zero_le _

theorem bmfsOffered_le (read : Nat → ReadResult) : bmfsOffered vol read ≤ 1270 := by
  have h := offered_le vol read (bmfsIn vol) vol.nSctsPerPg (numOfBMS vol) 127
    (fun i page => bmfsIn_le vol i page) (bmlNumOfMetaPgs * vol.nSctsPerPg) 0
  have hb := numOfBMS_le vol
  have hm : 127 * min (numOfBMS vol) (vol.nSctsPerPg + numOfBMS vol - 0) ≤ 127 * 10 :=
    Nat.mul_le_mul_left _ (by omega)
  exact h.trans hm

theorem rcbsOffered_le (nType : PcbType) (read : Nat → ReadResult) :
    rcbsOffered vol nType read ≤ 512 := by
  have hb := numOfRCB_le vol
  have h := offered_le vol read (rcbsIn vol nType) (bmlNumOfMetaPgs * vol.nSctsPerPg - numOfRCB vol)
    (min (numOfRCB vol) (bmlNumOfMetaPgs * vol.nSctsPerPg)) 256 ?_
    (bmlNumOfMetaPgs * vol.nSctsPerPg) 0
  · refine h.trans ((Nat.mul_le_mul_left 256 (?_ : _ ≤ 2)).trans (by decide))
    omega
  · intro i page
    have hle := rcbsIn_le vol nType i page
    have hiff : isRCBSct vol i ↔ bmlNumOfMetaPgs * vol.nSctsPerPg - numOfRCB vol ≤ i ∧
        i < bmlNumOfMetaPgs * vol.nSctsPerPg - numOfRCB vol +
          min (numOfRCB vol) (bmlNumOfMetaPgs * vol.nSctsPerPg) := by
      rw [isRCBSct]
      omega
    simpa only [hiff] using hle

def complete (vol : BmlVolCxt) (read : Nat → ReadResult) : Prop :=
  ∀ i, i < bmlNumOfMetaPgs * vol.nSctsPerPg → (read (i / vol.nSctsPerPg)).re.readable = true

instance (vol : BmlVolCxt) (read : Nat → ReadResult) : Decidable (complete vol read) :=
  inferInstanceAs (Decidable (∀ i, i < _ → _))

theorem loadScts_end (vol : BmlVolCxt) (nType : PcbType) (read : Nat → ReadResult) (left i : Nat) (page : Page)
    (d : Bool) (st : MountState) (hpage : Held vol read i page) :
    (∀ d', (loadScts vol nType read left i page d st).1 = .loaded d' →
      ∀ j, i ≤ j → j < i + left → (read (j / vol.nSctsPerPg)).re.readable = true) ∧
    (∀ e, (loadScts vol nType read left i page d st).1 = .lldError e →
      ∃ j, i ≤ j ∧ j < i + left ∧ (read (j / vol.nSctsPerPg)).re.readable = false) := by
  induction left generalizing i page d st with
  | zero => exact ⟨fun _ _ j hj hj' => by omega, fun _ h => by simp [loadScts] at h⟩
  | succ left ih =>
    rw [loadScts]
    obtain ⟨⟨e, he⟩, hre⟩ | ⟨d', he, hre⟩ := fetch_cases read i page d hpage
    · rw [he]
      exact ⟨fun _ h => by simp at h, fun _ _ => ⟨i, Nat.le_refl i, by omega, hre⟩⟩
    · rw [he]
      dsimp only
      generalize loadSct vol nType i (read (i / vol.nSctsPerPg)).page st = res
      obtain ⟨ok, st'⟩ := res
      cases ok with
      | false => exact ⟨fun _ h => by simp at h, fun _ h => by simp at h⟩
      | true =>
        obtain ⟨hl, hx⟩ := ih (i + 1) _ d' st' (held_succ hre)
        constructor
        · intro d'' h j hj hj'
          by_cases hji : j = i
          · rw [hji]
            exact hre
          · exact hl d'' h j (by omega) (by omega)
        · intro e h
          obtain ⟨j, hj, hj', hf⟩ := hx e h
          exact ⟨j, by omega, by omega, hf⟩

theorem loadMetaData_fills (vol : BmlVolCxt) (nType : PcbType) (read : Nat → ReadResult) (updateERL : BmlRe)
    (st : MountState) (h : Tracked st)
    (hb : st.rsv.nNumOfBMFs.toNat + bmfsOffered vol read < 2 ^ 16)
    (hr : st.rsv.nNumOfRCBs.toNat + rcbsOffered vol nType read < 2 ^ 16) :
    ∃ ok, Fills vol (bmfsOffered vol read) (rcbsOffered vol nType read) ok st
        (loadMetaData vol nType read updateERL st).2 ∧
      ((loadMetaData vol nType read updateERL st).1 = .success → ok = true) ∧
      (nType = .lpcb → ((loadMetaData vol nType read updateERL st).1 = .success → complete vol read) ∧
        ((loadMetaData vol nType read updateERL st).1 ≠ .success → ok = true → ¬ complete vol read)) := by
  have hfills := loadScts_fills vol nType read (bmlNumOfMetaPgs * vol.nSctsPerPg) 0
    ⟨fun _ => 0, fun _ => 0⟩ false st h (by simp [Held]) hb hr
  obtain ⟨hl, hx⟩ := loadScts_end vol nType read (bmlNumOfMetaPgs * vol.nSctsPerPg) 0
    ⟨fun _ => 0, fun _ => 0⟩ false st (by simp [Held])
  rw [loadMetaData.eq_def]
  dsimp only
  generalize loadScts vol nType read (bmlNumOfMetaPgs * vol.nSctsPerPg) 0
    ⟨fun _ => 0, fun _ => 0⟩ false st = res at *
  obtain ⟨stop, st'⟩ := res
  cases stop with
  | lldError e =>
    refine ⟨true, hfills, fun _ => rfl, fun _ => ⟨fun hc => by simp at hc, ?_⟩⟩
    intro _ _ hc
    obtain ⟨j, _, hj, hf⟩ := hx e rfl
    rw [hc j (by omega)] at hf
    cases hf
  | notLoaded =>
    refine ⟨false, hfills, ?_, ?_⟩
    · intro hc
      cases nType <;> simp at hc
    · rintro rfl
      exact ⟨fun hc => by simp at hc, nofun⟩
  | loaded d =>
    refine ⟨true, hfills, fun _ => rfl, ?_⟩
    rintro rfl
    exact ⟨fun _ j hj => hl d rfl j (Nat.zero_le j) (by omega), fun hc => absurd rfl hc⟩

section mount

variable (vol : BmlVolCxt) (readL readU : Nat → ReadResult)

/-- Fields that the two control blocks hold together. The upper one is only
looked at after the lower one has been read to its end. -/
def totalBMFs : Nat :=
  bmfsOffered vol readL + if complete vol readL then bmfsOffered vol readU else 0

def totalRCBs : Nat :=
  if complete vol readL then rcbsOffered vol .upcb readU else 0

def Overflows : Prop :=
  bmfTableSize vol < totalBMFs vol readL readU ∨ rcbTableSize vol < totalRCBs vol readL readU

/-- No store leaves the tables, and too many fields are answered by a failure. -/
structure InBounds (res : BmlRe × MountState) : Prop where
  bmf : ∀ i ∈ res.2.bmfStores, i < bmfTableSize vol
  rcb : ∀ i ∈ res.2.rcbStores, i < rcbTableSize vol
  failure : Overflows vol readL readU → res.1 = .loadLBMSFailure ∨ res.1 = .loadUBMSFailure

variable {vol readL readU}

theorem bmfLimit_eq (h : Overflows vol readL readU) : bmfLimit vol = bmfTableSize vol := by
  have hl := bmfsOffered_le vol readL
  have hu := bmfsOffered_le vol readU
  have hr := rcbsOffered_le vol .upcb readU
  have hsmall : bmfTableSize vol < 2 ^ 16 := by
    rw [Overflows, totalBMFs, totalRCBs] at h
    by_cases hc : complete vol readL
    · rw [if_pos hc, if_pos hc] at h
      obtain h | h := h
      · omega
      · simp only [rcbTableSize] at h
        rw [bmfTableSize]
        split <;> omega
    · rw [if_neg hc, if_neg hc] at h
      omega
  rw [bmfTableSize] at hsmall ⊢
  rw [bmfLimit]
  split_ifs at hsmall ⊢ <;> exact Nat.mod_eq_of_lt hsmall

theorem loadLPCBThenUPCB_fills (vol : BmlVolCxt) (readL readU : Nat → ReadResult) (updateERL : BmlRe) (rsv : BmlReservoir) :
    ∃ ok, Fills vol (totalBMFs vol readL readU) (totalRCBs vol readL readU) ok (initBBM vol rsv)
      (loadLPCBThenUPCB vol readL readU updateERL (initBBM vol rsv)).2 := by
  have hl := bmfsOffered_le vol readL
  have hu := bmfsOffered_le vol readU
  have hr := rcbsOffered_le vol .upcb readU
  have hzero : (initBBM vol rsv).rsv.nNumOfBMFs.toNat = 0 := rfl
  have hzero' : (initBBM vol rsv).rsv.nNumOfRCBs.toNat = 0 := rfl
  have hrl : rcbsOffered vol .lpcb readL = 0 := by
    have h := offered_le vol readL (rcbsIn vol .lpcb) 0 0 0 (fun _ _ => Nat.zero_le _)
      (bmlNumOfMetaPgs * vol.nSctsPerPg) 0
    simpa [rcbsOffered] using h
  obtain ⟨ok, hfill, hok, hend⟩ := loadMetaData_fills vol .lpcb readL updateERL (initBBM vol rsv)
    ⟨rfl, rfl⟩ (by omega) (by omega)
  obtain ⟨hcomp, hncomp⟩ := hend rfl
  rw [hrl] at hfill
  rw [loadLPCBThenUPCB.eq_def, totalBMFs, totalRCBs]
  generalize loadMetaData vol .lpcb readL updateERL (initBBM vol rsv) = res at *
  obtain ⟨re, st⟩ := res
  by_cases hre : re = .success
  · subst hre
    obtain rfl := hok rfl
    have hd := hfill.done rfl
    have hc := hcomp rfl
    rw [if_pos hc, if_pos hc]
    obtain ⟨ok', hfill', _, _⟩ := loadMetaData_fills vol .upcb readU updateERL st hfill.tracked
      (by dsimp only at hd; omega) (by dsimp only at hd; omega)
    have htot := hfill.trans hfill'
    rw [Nat.zero_add] at htot
    refine ⟨ok', ?_⟩
    dsimp only
    generalize loadMetaData vol .upcb readU updateERL st = res' at *
    obtain ⟨re', st'⟩ := res'
    cases re' <;> exact htot
  · refine ⟨ok, ?_⟩
    have hb := hfill.bmf_le
    have hr' := hfill.rcb_le
    have hdone : ok = true → ¬ complete vol readL := hncomp hre
    cases re with
    | success => exact absurd rfl hre
    | _ =>
      refine ⟨hfill.tracked, by dsimp only at *; omega, by dsimp only at *; omega, ?_, hfill.full⟩
      intro hok'
      rw [if_neg (hdone hok'), if_neg (hdone hok')]
      exact hfill.done hok'

/-- Mounting keeps inside its tables exactly when the control blocks hold no
more than fits into them. -/
theorem mount_inBounds_iff (vol : BmlVolCxt) (readL readU : Nat → ReadResult) (updateERL : BmlRe)
    (rsv : BmlReservoir) :
    InBounds vol readL readU (loadLPCBThenUPCB vol readL readU updateERL (initBBM vol rsv)) ↔
      totalBMFs vol readL readU ≤ bmfTableSize vol ∧ totalRCBs vol readL readU ≤ rcbTableSize vol := by
  obtain ⟨ok, hfill⟩ := loadLPCBThenUPCB_fills vol readL readU updateERL rsv
  have hb := hfill.bmf_le
  have hr := hfill.rcb_le
  have hzero : (initBBM vol rsv).rsv.nNumOfBMFs.toNat = 0 := rfl
  have hzero' : (initBBM vol rsv).rsv.nNumOfRCBs.toNat = 0 := rfl
  generalize loadLPCBThenUPCB vol readL readU updateERL (initBBM vol rsv) = res at *
  constructor
  · intro h
    by_contra hover
    have hov : Overflows vol readL readU := by
      rw [Overflows]
      omega
    have hfull : ¬ bmfTableSize vol < res.2.rsv.nNumOfBMFs.toNat := by
      intro hlt
      have hmem : bmfTableSize vol ∈ res.2.bmfStores := by
        rw [hfill.tracked.bmf]
        exact mem_range.mpr hlt
      exact Nat.lt_irrefl _ (h.bmf _ hmem)
    have hok : ok = true := by
      cases ok with
      | true => rfl
      | false => exact absurd (bmfLimit_eq hov ▸ hfill.full rfl) hfull
    obtain ⟨hd, hd'⟩ := hfill.done hok
    obtain hlt | hlt := hov
    · omega
    · have hmem : rcbTableSize vol ∈ res.2.rcbStores := by
        rw [hfill.tracked.rcb]
        exact mem_range.mpr (by omega)
      exact Nat.lt_irrefl _ (h.rcb _ hmem)
  · rintro ⟨htb, htr⟩
    refine ⟨?_, ?_, ?_⟩
    · intro i hi
      rw [hfill.tracked.bmf, mem_range] at hi
      omega
    · intro i hi
      rw [hfill.tracked.rcb, mem_range] at hi
      omega
    · intro hov
      rw [Overflows] at hov
      omega

end mount

def smallVol (nNumOfPlane : Nat) : BmlVolCxt := ⟨64, nNumOfPlane, 4, 2048, 64, 2, 0, pgs_sixtyFour⟩

def emptyRsv : BmlReservoir := ⟨.slc, 62, 63, 64, 0, 0, fun _ => ⟨0, 0⟩, fun _ => 0, fun _ => ⟨0, 0⟩⟩

/-- Meta pages that are erased but for the bytes `[lo, hi)` of page `p`. -/
def pagesWith (p lo hi : Nat) (i : Nat) : ReadResult :=
  ⟨.success, ⟨fun b => if i = p ∧ lo ≤ b ∧ b < hi then .ofNat b else 0xFF, fun _ => 0xFF⟩⟩

/-- Three fields for a table of two, and two candidates for a table of one. -/
theorem fields_past_tables :
    (loadLPCBThenUPCB (smallVol 1) (pagesWith 1 4 16) (pagesWith 3 0 0) .success
        (initBBM (smallVol 1) emptyRsv)).1 = .success ∧
    ¬ InBounds (smallVol 1) (pagesWith 1 4 16) (pagesWith 3 0 0)
      (loadLPCBThenUPCB (smallVol 1) (pagesWith 1 4 16) (pagesWith 3 0 0) .success
        (initBBM (smallVol 1) emptyRsv)) ∧
    (loadLPCBThenUPCB (smallVol 2) (pagesWith 3 0 0) (pagesWith 2 1536 1540) .success
        (initBBM (smallVol 2) emptyRsv)).1 = .success ∧
    ¬ InBounds (smallVol 2) (pagesWith 3 0 0) (pagesWith 2 1536 1540)
      (loadLPCBThenUPCB (smallVol 2) (pagesWith 3 0 0) (pagesWith 2 1536 1540) .success
        (initBBM (smallVol 2) emptyRsv)) := by
  refine ⟨by decide +kernel, ?_, by decide +kernel, ?_⟩
  · intro h
    have hs : (loadLPCBThenUPCB (smallVol 1) (pagesWith 1 4 16) (pagesWith 3 0 0) .success
        (initBBM (smallVol 1) emptyRsv)).2.bmfStores = [0, 1, 2] := by decide +kernel
    exact absurd (h.bmf 2 (by decide)) (by decide)
  · intro h
    have hs : (loadLPCBThenUPCB (smallVol 2) (pagesWith 3 0 0) (pagesWith 2 1536 1540) .success
        (initBBM (smallVol 2) emptyRsv)).2.rcbStores = [0, 1] := by decide +kernel
    exact absurd (h.rcb 1 (by decide)) (by decide)

end VDLinux.Tfsr.TableBounds
