import VDLinux.Mm.SwapChain

namespace VDLinux.Mm.Swap

open Base.CarryChain Function

def SwapInfo.count (si : SwapInfo) (e : ℕ) : Byte := si.swapMap e &&& ~~~swapHasCache

def SwapInfo.cached (si : SwapInfo) (e : ℕ) : Prop := si.swapMap e &&& swapHasCache ≠ 0

def SwapInfo.chain (si : SwapInfo) (e : ℕ) : List Digit :=
  column (e % pageSize) (si.head (e / pageSize)).lru

/-- The number of references that a byte of the swap map and its continuation stand for. An entry of
shmem has one; a bad page has none. -/
def tally (count : Byte) (chain : List Digit) : ℕ :=
  if count = swapMapShmem then 1
  else if count = swapMapBad then 0
  else (count &&& ~~~countContinued).toNat + 63 *
    (if count &&& countContinued ≠ 0 then value 128 chain else 0)

def SwapInfo.represented (si : SwapInfo) (e : ℕ) : ℕ := tally (si.count e) (si.chain e)

def LegalCount (count : Byte) (continued : Bool) (chain : List Digit) : Prop :=
  count = swapMapShmem ∨ count = swapMapBad ∨
    (count &&& ~~~countContinued ≤ swapMapMax ∧
      (count &&& countContinued ≠ 0 → continued = true ∧ Sound 128 chain ∧ 0 < value 128 chain))

def SwapInfo.Legal (si : SwapInfo) (e : ℕ) : Prop :=
  LegalCount (si.count e) (si.head (e / pageSize)).continued (si.chain e)

section Bytes

variable {c h : Byte} {chain : List Digit}

theorem tally_plain (hs : c ≠ swapMapShmem) (hb : c ≠ swapMapBad) : tally c chain =
    (c &&& ~~~countContinued).toNat + 63 * (if c &&& countContinued ≠ 0 then value 128 chain else 0) := by
  rw [tally, if_neg hs, if_neg hb]

theorem plain_of_le : ∀ c : Byte, c &&& ~~~countContinued ≤ swapMapMax →
    c ≠ swapMapShmem ∧ c ≠ swapMapBad := by
  intro c hle
  refine ⟨?_, ?_⟩
  · rintro rfl
    exact absurd hle (by decide)
  · rintro rfl
    exact absurd hle (by decide)

theorem plain_succ : ∀ c : Byte, c &&& ~~~swapHasCache = c → c &&& ~~~countContinued < swapMapMax →
    (c + 1) &&& ~~~swapHasCache = c + 1 ∧ (c + 1) &&& ~~~countContinued ≤ swapMapMax ∧
      ((c + 1) &&& ~~~countContinued).toNat = (c &&& ~~~countContinued).toNat + 1 ∧
      (c + 1) &&& countContinued = c &&& countContinued := by
  decide +kernel

theorem plain_pred : ∀ c : Byte, c &&& ~~~swapHasCache = c → c &&& ~~~countContinued ≤ swapMapMax →
    c ≠ 0 → c ≠ countContinued →
    (c - 1) &&& ~~~swapHasCache = c - 1 ∧ (c - 1) &&& ~~~countContinued ≤ swapMapMax ∧
      ((c - 1) &&& ~~~countContinued).toNat + 1 = (c &&& ~~~countContinued).toNat ∧
      (c - 1) &&& countContinued = c &&& countContinued := by
  decide +kernel

theorem eq_of_max : ∀ c : Byte, c &&& ~~~countContinued = swapMapMax →
    c = swapMapMax ∨ c = swapMapMax ||| countContinued := by
  decide +kernel

theorem eq_zero_of_digits : ∀ c : Byte, (c &&& ~~~countContinued).toNat = 0 →
    c &&& countContinued = 0 → c = 0 := by
  intro c hval hmore
  have hlow : c &&& ~~~countContinued = 0 := BitVec.eq_of_toNat_eq hval
  rw [← and_not_or_and c countContinued, hmore, hlow]
  rfl

variable (x : Byte)

theorem mask_mask : x &&& ~~~swapHasCache &&& ~~~swapHasCache = x &&& ~~~swapHasCache := by
  rw [BitVec.and_assoc, BitVec.and_self]

theorem cache_mask : x &&& swapHasCache &&& ~~~swapHasCache = 0 := by
  rw [BitVec.and_assoc, show swapHasCache &&& ~~~swapHasCache = 0 by decide]
  exact BitVec.and_zero

theorem join_masks : (x &&& ~~~swapHasCache) ||| (x &&& swapHasCache) = x := and_not_or_and x _

theorem eq_zero_of_masks (hcount : x &&& ~~~swapHasCache = 0) (hcache : x &&& swapHasCache = 0) :
    x = 0 := by
  rw [← join_masks x, hcount, hcache]
  rfl

theorem count_join (hc : c &&& ~~~swapHasCache = c) (hh : h &&& ~~~swapHasCache = 0) :
    (c ||| h) &&& ~~~swapHasCache = c := by
  rw [BitVec.and_comm, BitVec.and_or_distrib_left, BitVec.and_comm, hc, BitVec.and_comm, hh]
  simp

end Bytes

variable {si si' : SwapInfo} {e : ℕ}

/-- An entry keeps its count when its byte is not written and its number, if it has one in continuation
pages, is still there. -/
theorem SwapInfo.Legal.keeps (hlegal : si.Legal e) (hmap : si'.swapMap e = si.swapMap e)
    (hchain : (si.head (e / pageSize)).continued = true → Sound 128 (si.chain e) →
      (si'.head (e / pageSize)).continued = true ∧ Sound 128 (si'.chain e) ∧
        value 128 (si'.chain e) = value 128 (si.chain e)) :
    si'.Legal e ∧ si'.represented e = si.represented e := by
  have hcount : si'.count e = si.count e := by rw [count, count, hmap]
  obtain hs | hb | ⟨hle, hmore⟩ := hlegal
  · exact ⟨.inl (hcount.trans hs), by simp only [represented, tally, hcount, hs, if_pos]⟩
  · have hne : swapMapBad ≠ swapMapShmem := by decide
    exact ⟨.inr (.inl (hcount.trans hb)),
      by simp only [represented, tally, hcount, hb, if_neg hne, if_pos]⟩
  · obtain ⟨hs, hb⟩ := plain_of_le _ hle
    rw [Legal, LegalCount, represented, represented, hcount, tally_plain hs hb, tally_plain hs hb]
    by_cases hcont : si.count e &&& countContinued = 0
    · exact ⟨.inr (.inr ⟨hle, fun h => absurd hcont h⟩), by simp only [hcont, ne_eq, not_true, if_false]⟩
    · obtain ⟨hc, hsound, hpos⟩ := hmore hcont
      obtain ⟨hc', hsound', hval⟩ := hchain hc hsound
      exact ⟨.inr (.inr ⟨hle, fun _ => ⟨hc', hsound', hval ▸ hpos⟩⟩), by rw [hval]⟩

/-- From `si` to `si'` nothing but the continuation of `e` changes, apart from room that is added. -/
structure Rechained (si si' : SwapInfo) (e : ℕ) : Prop where
  same : si' = { si with head := si'.head }
  listed : ∀ n, (si'.head n).continued = true → (si'.head n).lru ≠ []
  others : ∀ e', e' ≠ e → si.Legal e' → si'.Legal e' ∧ si'.represented e' = si.represented e'

theorem Rechained.refl (h : ∀ n, (si.head n).continued = true → (si.head n).lru ≠ []) :
    Rechained si si e :=
  ⟨rfl, h, fun _ _ hl => ⟨hl, rfl⟩⟩

theorem setLru_head (lru : List ContPage) :
    (si.setLru e lru).head (e / pageSize) = ⟨true, lru⟩ := update_self _ _ _

theorem chain_setLru (lru : List ContPage) : (si.setLru e lru).chain e = column (e % pageSize) lru := by
  rw [SwapInfo.chain, setLru_head]

/-- New lists of continuation pages: the digits of all other offsets have to be the same, up to room
behind them. -/
theorem rechained_setLru {lru : List ContPage}
    (h : ∀ n, (si.head n).continued = true → (si.head n).lru ≠ []) (hne : lru ≠ [])
    (hothers : (si.head (e / pageSize)).continued = true → ∀ o, o ≠ e % pageSize →
      ∃ room, column o lru = column o (si.head (e / pageSize)).lru ++ room) :
    Rechained si (si.setLru e lru) e := by
  refine ⟨rfl, ?_, ?_⟩
  · intro n hn
    by_cases hpage : n = e / pageSize
    · subst hpage
      rw [setLru_head]
      exact hne
    · have hhead : (si.setLru e lru).head n = si.head n := update_of_ne hpage _ _
      rw [hhead] at hn ⊢
      exact h n hn
  · intro e' he' hlegal
    refine hlegal.keeps rfl ?_
    intro hc hs
    by_cases hpage : e' / pageSize = e / pageSize
    · -- a neighbour on the same page of the map
      have hoff : e' % pageSize ≠ e % pageSize := by
        intro hoff
        exact he' (by rw [← Nat.div_add_mod e' pageSize, ← Nat.div_add_mod e pageSize, hpage, hoff])
      rw [hpage] at hc
      obtain ⟨room, hroom⟩ := hothers hc _ hoff
      have hchain : (si.setLru e lru).chain e' = si.chain e' ++ room := by
        rw [SwapInfo.chain, SwapInfo.chain, hpage, setLru_head]
        exact hroom
      rw [hchain, hpage, setLru_head]
      exact ⟨rfl, (hs.append room).1, (hs.append room).2⟩
    · have hhead : (si.setLru e lru).head (e' / pageSize) = si.head (e' / pageSize) :=
        update_of_ne hpage _ _
      have hchain : (si.setLru e lru).chain e' = si.chain e' := by
        rw [SwapInfo.chain, SwapInfo.chain, hhead]
      rw [hchain, hhead]
      exact ⟨hc, hs, rfl⟩

theorem ne_nil_of_others {o : ℕ} {lru lru' : List ContPage} (hne : lru ≠ [])
    (h : ∀ o', o' ≠ o → column o' lru' = column o' lru) : lru' ≠ [] := by
  intro hnil
  have hcol := h (o + 1) (Nat.succ_ne_self o)
  rw [hnil] at hcol
  exact hne (List.map_eq_nil_iff.mp hcol.symm)

/-- The number in the continuation of `e`, 0 when there is none. -/
def SwapInfo.carried (si : SwapInfo) (e : ℕ) : ℕ :=
  if si.count e &&& countContinued ≠ 0 then value 128 (si.chain e) else 0

variable (h : ∀ n, (si.head n).continued = true → (si.head n).lru ≠ [])
include h

theorem swapCountContinued_up
    (hlegal : si.Legal e) (hmax : si.count e &&& ~~~countContinued = swapMapMax) :
    swapCountContinued si e (si.count e) = .ok (false, si) ∨
      ∃ si', swapCountContinued si e (si.count e) = .ok (true, si') ∧ Rechained si si' e ∧
        (si'.head (e / pageSize)).continued = true ∧ Sound 128 (si'.chain e) ∧
        value 128 (si'.chain e) = si.carried e + 1 := by
  obtain ⟨hshmem, hbad⟩ := plain_of_le _ (BitVec.le_of_eq hmax)
  have hmore : si.count e &&& countContinued ≠ 0 → (si.head (e / pageSize)).continued = true ∧
      Sound 128 (si.chain e) ∧ 0 < value 128 (si.chain e) :=
    ((hlegal.resolve_left hshmem).resolve_left hbad).2
  cases hc : (si.head (e / pageSize)).continued with
  | false =>
    have hcont : si.count e &&& countContinued = 0 := by
      by_contra hne
      exact absurd (hmore hne).1 (by simp [hc])
    exact .inl (by simp [swapCountContinued, hc, hcont])
  | true =>
    have hlru := h _ hc
    cases hl : (si.head (e / pageSize)).lru with
    | nil => exact absurd hl hlru
    | cons page after =>
      have hchain : si.chain e = column (e % pageSize) (page :: after) := by rw [SwapInfo.chain, hl]
      obtain hmax' | hmax' := eq_of_max _ hmax
      · -- the first digit of the continuation: what the page held there is overwritten
        have hres : swapCountContinued si e (si.count e) = .ok (true, si.setLru e
            (finishCarry (e % pageSize) [] (update page (e % pageSize) 0) after)) := by
          simp [swapCountContinued, hc, hl, hmax']
        refine .inr ⟨_, hres, ?_, ?_, ?_, ?_⟩
        · refine rechained_setLru h (List.cons_ne_nil _ _) fun _ o ho => ⟨[], ?_⟩
          rw [hl, column_finishCarry_ne ho]
          simp [update_of_ne ho]
        · rw [setLru_head]
        · rw [chain_setLru, column_finishCarry, update_self]
          exact ⟨by decide, by rintro ⟨⟩⟩
        · rw [chain_setLru, column_finishCarry, update_self, SwapInfo.carried, hmax',
            if_neg (by decide), show digit (0 + 1) = ⟨1, false⟩ from rfl]
          simp [value]
      · have hcont : si.count e &&& countContinued ≠ 0 := by
          rw [hmax']
          decide
        obtain ⟨-, hs, hpos⟩ := hmore hcont
        have hne : swapMapMax ||| countContinued ≠ swapMapMax := by decide
        obtain hnone | ⟨lru, hsome, hraised⟩ := carry_spec (e % pageSize) [] page after
          (by simp) (hchain ▸ hs)
        · exact .inl (by simp [swapCountContinued, hc, hl, hmax', hne, hnone])
        · have hothers := hraised.others
          rw [List.reverse_nil, List.nil_append, ← hl] at hothers
          refine .inr ⟨si.setLru e lru,
            by simp [swapCountContinued, hc, hl, hmax', hne, hsome], ?_, ?_, ?_, ?_⟩
          · exact rechained_setLru h (ne_nil_of_others hlru hothers) fun _ o ho =>
              ⟨[], by rw [hothers o ho, List.append_nil]⟩
          · rw [setLru_head]
          · rw [chain_setLru]
            exact hraised.sound
          · rw [chain_setLru, hraised.value_eq, SwapInfo.carried, if_pos hcont, hchain]
            rfl

theorem swapCountContinued_down (hlegal : si.Legal e) (hzero : si.count e = countContinued) :
    ∃ more si', swapCountContinued si e (si.count e) = .ok (more, si') ∧ Rechained si si' e ∧
      (si'.head (e / pageSize)).continued = true ∧
      (more = true → Sound 128 (si'.chain e) ∧ 0 < value 128 (si'.chain e) ∧
        value 128 (si'.chain e) + 1 = si.carried e) ∧
      (more = false → si.carried e = 1) := by
  have hcont : si.count e &&& countContinued ≠ 0 := by
    rw [hzero]
    decide
  have hplain : si.count e ≠ swapMapShmem ∧ si.count e ≠ swapMapBad := by
    rw [hzero]
    decide
  obtain ⟨hc, hs, hpos⟩ := ((hlegal.resolve_left hplain.1).resolve_left hplain.2).2 hcont
  have hlru := h _ hc
  cases hl : (si.head (e / pageSize)).lru with
  | nil => exact absurd hl hlru
  | cons page after =>
    have hchain : si.chain e = column (e % pageSize) (page :: after) := by rw [SwapInfo.chain, hl]
    rw [hchain] at hs hpos
    obtain ⟨count, lru, hborrow, hlow⟩ := borrow_spec (e % pageSize) [] page after
      nofun hs hpos
    have hothers := hlow.others
    rw [List.reverse_nil, List.nil_append, ← hl] at hothers
    have hne : countContinued ≠ swapMapMax ∧ countContinued ≠ swapMapMax ||| countContinued := by
      decide
    refine ⟨count = countContinued, si.setLru e lru, ?_, ?_, ?_, ?_, ?_⟩
    · simp [swapCountContinued, hc, hl, hzero, hne.1, hne.2, hborrow]
    · exact rechained_setLru h (ne_nil_of_others hlru hothers) fun _ o ho =>
        ⟨[], by rw [hothers o ho, List.append_nil]⟩
    · rw [setLru_head]
    · intro hmore
      rw [chain_setLru, SwapInfo.carried, if_pos hcont, hchain]
      exact ⟨(hlow.sound hmore).1, (hlow.sound hmore).2, hlow.value_eq hmore⟩
    · intro hmore
      rw [SwapInfo.carried, if_pos hcont, hchain]
      exact hlow.last hmore

end VDLinux.Mm.Swap
