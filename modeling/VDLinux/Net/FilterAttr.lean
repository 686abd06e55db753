import VDLinux.Net.FilterRun

namespace VDLinux.Net

open Base.Halting List

/-- The load reads bytes of the packet only, and leaves 0 or the offset of a header in the packet. -/
def AttrLoad.Inside (l : AttrLoad) (len : ℕ) : Prop :=
  (∀ o ∈ l.reads, o < len) ∧ ∀ a, l.result = .ok a → a = 0 ∨ a.toNat + nlaHdrlen ≤ len

def AttrWalk.Inside (w : AttrWalk) (len : ℕ) : Prop :=
  (∀ o ∈ w.reads, o < len) ∧ ∀ o, w.found = some o → o + nlaHdrlen ≤ len

section Walk

variable {d : Skb.Pointer} {attrtype : ℤ} {len : ℕ}

theorem nlaFindLoop_inside {fuel off : ℕ} {rem : ℤ} (h : 4 ≤ rem → off + rem / 4 * 4 ≤ len) :
    (nlaFindLoop d attrtype fuel off rem).Inside len := by
  induction fuel generalizing off rem with
  | zero => exact ⟨by simp [nlaFindLoop], by simp [nlaFindLoop]⟩
  | succ fuel ih =>
    unfold nlaFindLoop
    split
    · exact ⟨by simp, by simp⟩
    next hrem =>
    simp only [nlaHdrlen] at hrem
    have hhdr : ∀ o ∈ [off, off + 1, off + 2, off + 3], o < len := by
      simp only [mem_cons, not_mem_nil, or_false]
      omega
    split
    · exact ⟨fun o ho => hhdr o (by grind), by simp⟩
    split
    · refine ⟨hhdr, fun o ho => ?_⟩
      simp only [Option.some.injEq] at ho
      simp only [nlaHdrlen]
      omega
    · have hrest : (nlaFindLoop d attrtype fuel (off + nlaAlign (nlaLen d off))
          (rem - nlaAlign (nlaLen d off))).Inside len := ih (by simp only [nlaAlign]; omega)
      exact ⟨forall_mem_append.mpr ⟨hhdr, hrest.1⟩, hrest.2⟩

theorem head_mem_reads {head : ℕ} {n : ℤ} (h : 4 ≤ n) :
    head ∈ (nlaFind d head n attrtype).reads := by
  obtain ⟨fuel, hfuel⟩ : ∃ fuel, n.toNat = fuel + 1 := ⟨n.toNat - 1, by omega⟩
  rw [nlaFind, hfuel, nlaFindLoop, if_neg (by simp only [nlaHdrlen]; omega)]
  split_ifs <;> simp

@[simp] theorem ofWalk_reads (w : AttrWalk) : (AttrLoad.ofWalk w).reads = w.reads := rfl

theorem AttrWalk.Inside.load {w : AttrWalk} (h : w.Inside len) :
    (AttrLoad.ofWalk w).Inside len := by
  refine ⟨h.1, fun a ha => ?_⟩
  simp only [AttrLoad.ofWalk, Except.ok.injEq] at ha
  cases hw : w.found with
  | none => exact .inl (by rw [← ha, hw]; rfl)
  | some o =>
    have ho := h.2 o hw
    rw [hw, Option.getD_some] at ha
    rw [← ha, UInt32.toNat_ofNat']
    exact .inr (by omega)

end Walk

section Nlattr

variable {skb : Skb}

theorem len_toNat (skb : Skb) : skb.len.toNat = skb.length := by
  have := skb.len_lt
  simp only [Skb.len, Skb.length, UInt32.toNat_ofNat'] at this ⊢
  omega

theorem noData_inside (len : ℕ) : (⟨[], .error .noData⟩ : AttrLoad).Inside len := ⟨by simp, by simp⟩

theorem asInt_eq (u : UInt32) :
    asInt u = if u.toNat < 2 ^ 31 then (u.toNat : ℤ) else u.toNat - 2 ^ 32 := by
  have hu := u.toNat_lt
  unfold asInt
  rw [Int.bmod_def]
  omega

theorem sub_toNat (u a : UInt32) :
    (u - a).toNat = if a.toNat ≤ u.toNat then u.toNat - a.toNat else u.toNat + 2 ^ 32 - a.toNat := by
  have hu := u.toNat_lt
  have ha := a.toNat_lt
  rw [UInt32.toNat_sub]
  split <;> omega

theorem adNlattr_inside_iff (hlin : skb.isNonlinear = false) (a x : UInt32) :
    (adNlattr skb a x).Inside skb.length ↔ 4 ≤ skb.length ∨ asInt (skb.len - a) < 4 := by
  have hlen := len_toNat skb
  have hsub := sub_toNat skb.len a
  have hint := asInt_eq (skb.len - a)
  have hfour : (skb.len - 4).toNat =
      if 4 ≤ skb.length then skb.length - 4 else skb.length + 2 ^ 32 - 4 :=
    hlen ▸ sub_toNat skb.len 4
  simp only [adNlattr, hlin, Bool.false_eq_true, if_false]
  split_ifs with hgt
  · have hgt' : (skb.len - 4).toNat < a.toNat := hgt
    refine ⟨fun _ => ?_, fun _ => noData_inside _⟩
    split_ifs at hsub hfour hint <;> omega
  · have hle : a.toNat ≤ (skb.len - 4).toNat := Nat.le_of_not_lt hgt
    constructor
    · intro hin
      by_contra hcon
      have hread : a.toNat < skb.length := hin.1 a.toNat (by
        rw [ofWalk_reads]
        exact head_mem_reads (by omega))
      split_ifs at hsub hint <;> omega
    · intro h
      refine AttrWalk.Inside.load (nlaFindLoop_inside fun _ => ?_)
      split_ifs at hsub hfour hint <;> omega

end Nlattr

section Nest

/-- The bounds that `SKF_AD_NLATTR_NEST` needs for a packet of `n` bytes whose attribute at `a` has
the length `v`: no attribute is looked at, or its length is in the packet and so is every whole word
of what it nests. -/
def NestFits (n : ℕ) (a : UInt32) (v : ℕ) : Prop :=
  a > UInt32.ofNat n - 4 ∨ a.toNat + 2 ≤ n ∧ (v < 8 ∨ a.toNat + v / 4 * 4 ≤ n)

instance (n : ℕ) (a : UInt32) (v : ℕ) : Decidable (NestFits n a v) :=
  inferInstanceAs (Decidable (_ ∨ _))

variable {skb : Skb}

theorem adNlattrNest_inside (hlin : skb.isNonlinear = false) {a : UInt32} (x : UInt32)
    (h : NestFits skb.length a (nlaLen skb.dataByte a.toNat)) :
    (adNlattrNest skb a x).Inside skb.length := by
  simp only [adNlattrNest, hlin, Bool.false_eq_true, if_false]
  by_cases hgt : a > skb.len - 4
  · rw [if_pos hgt]
    exact noData_inside _
  rw [if_neg hgt]
  obtain ⟨hread, hfits⟩ := h.resolve_left hgt
  have hhdr : ∀ o ∈ [a.toNat, a.toNat + 1], o < skb.length := by
    simp only [mem_cons, not_mem_nil, or_false]
    omega
  split
  · exact ⟨hhdr, by simp⟩
  · have hwalk : (nlaFind skb.dataByte (a.toNat + nlaHdrlen)
        (nlaLen skb.dataByte a.toNat - nlaHdrlen) (asInt x)).Inside skb.length :=
      nlaFindLoop_inside fun hrem => by
        simp only [nlaHdrlen] at hrem ⊢
        omega
    exact AttrWalk.Inside.load ⟨forall_mem_append.mpr ⟨hhdr, hwalk.1⟩, hwalk.2⟩

/-- Memory with an attribute of length `v` at `a` and empty attributes of type 1 from there on. -/
def chainMem (a v o : ℕ) : UInt8 :=
  if o = a then UInt8.ofNat v
  else if o = a + 1 then UInt8.ofNat (v / 256)
  else if (o - a) % 4 = 0 then 4
  else if (o - a) % 4 = 2 then 1
  else 0

theorem nlaLen_lt (d : Skb.Pointer) (off : ℕ) : nlaLen d off < 2 ^ 16 := by
  have h₀ := (d off).toNat_lt
  have h₁ := (d (off + 1)).toNat_lt
  simp only [nlaLen]
  omega

theorem chainMem_head {a v : ℕ} (hv : v < 2 ^ 16) : nlaLen (chainMem a v) a = v := by
  have h : a + 1 ≠ a := by omega
  simp only [nlaLen, chainMem, if_true, h, if_false, UInt8.toNat_ofNat']
  omega

theorem chainMem_word (a v i : ℕ) {r : ℕ} (hr : r < 4) :
    chainMem a v (a + 4 + 4 * i + r) = if r = 0 then 4 else if r = 2 then 1 else 0 := by
  have hmod : (a + 4 + 4 * i + r - a) % 4 = r := by omega
  rw [chainMem, if_neg (by omega), if_neg (by omega), hmod]

theorem chainMem_nested (a v i : ℕ) :
    nlaLen (chainMem a v) (a + 4 + 4 * i) = 4 ∧ nlaType (chainMem a v) (a + 4 + 4 * i) = 1 := by
  have h₀ := chainMem_word a v i (r := 0) (by omega)
  have h₁ := chainMem_word a v i (r := 1) (by omega)
  have h₂ := chainMem_word a v i (r := 2) (by omega)
  have h₃ := chainMem_word a v i (r := 3) (by omega)
  rw [Nat.add_zero] at h₀
  rw [nlaLen, nlaType, h₀, h₁, h₂, h₃]
  decide

theorem chain_reads {a v : ℕ} (j : ℕ) {i fuel : ℕ} {rem : ℤ} (hrem : 4 * (j + 1 : ℤ) ≤ rem)
    (hfuel : rem ≤ fuel) :
    a + 4 + 4 * (i + j) + 3 ∈ (nlaFindLoop (chainMem a v) 0 fuel (a + 4 + 4 * i) rem).reads := by
  obtain ⟨hlen, htype⟩ := chainMem_nested a v i
  induction fuel generalizing i j rem with
  | zero => omega
  | succ fuel ih =>
    rw [nlaFindLoop, hlen, htype, if_neg (by simp only [nlaHdrlen]; omega),
      if_neg (by simp only [nlaHdrlen]; omega), if_neg (by decide)]
    cases j with
    | zero => simp
    | succ j =>
      obtain ⟨hlen', htype'⟩ := chainMem_nested a v (i + 1)
      have hi : i + (j + 1) = i + 1 + j := by omega
      rw [hi]
      refine mem_append_right _ (ih j ?_ ?_ hlen' htype')
      · rw [nlaAlign]
        omega
      · rw [nlaAlign]
        omega

def chainSkb (n : ℕ) (hn : n < 2 ^ 31) (a : UInt32) (v : ℕ) : Skb :=
  .linear (chainMem a.toNat v) n hn

theorem chainSkb_dataByte {n : ℕ} (hn : n < 2 ^ 31) (a : UInt32) (v : ℕ) :
    (chainSkb n hn a v).dataByte = chainMem a.toNat v :=
  funext fun o => congrArg (chainMem a.toNat v) (Nat.zero_add o)

theorem asInt_zero : asInt 0 = 0 := by decide

theorem chainSkb_outside {n : ℕ} (hn : n < 2 ^ 31) {a : UInt32} {v : ℕ} (hv : v < 2 ^ 16)
    (h : ¬NestFits n a v) : ¬(adNlattrNest (chainSkb n hn a v) a 0).Inside n := by
  obtain ⟨hgt, hfits⟩ := not_or.mp h
  have hlin : (chainSkb n hn a v).isNonlinear = false := rfl
  have hlen : (chainSkb n hn a v).len = UInt32.ofNat n := rfl
  have hsub := sub_toNat a (UInt32.ofNat n)
  rw [UInt32.toNat_ofNat'] at hsub
  have hvn : (UInt32.ofNat v).toNat = v := by
    rw [UInt32.toNat_ofNat']
    omega
  simp only [adNlattrNest, hlin, Bool.false_eq_true, if_false, hlen, if_neg hgt,
    chainSkb_dataByte hn, chainMem_head hv]
  by_cases hread : a.toNat + 2 ≤ n
  · have hskip : ¬UInt32.ofNat v > a - UInt32.ofNat n := by
      intro hlt
      have hlt' : (a - UInt32.ofNat n).toNat < (UInt32.ofNat v).toNat := hlt
      split_ifs at hsub <;> omega
    rw [if_neg hskip]
    intro hin
    -- the last whole word of the nested attributes is behind the packet
    have hlast : a.toNat + 4 + 4 * (0 + (v / 4 - 2)) + 3 < n := hin.1 _ (by
      rw [ofWalk_reads, nlaFind, asInt_zero]
      refine mem_append_right _ (chain_reads (v / 4 - 2) ?_ ?_)
      · simp only [nlaHdrlen]
        omega
      · omega)
    omega
  · intro hin
    have hout : a.toNat + 1 < n := hin.1 _ (by
      split_ifs <;> simp)
    omega

/-- When the two attribute loads stay in a linear packet. For `SKF_AD_NLATTR` the packet has a
header's length or `nla_find` is given less than that. For `SKF_AD_NLATTR_NEST` the nested attributes
fit; this is all that the length of the packet and the one in the attribute decide. -/
theorem attrLoads_inside_iff (skb : Skb) (hlin : skb.isNonlinear = false) (a x : UInt32) :
    ((adNlattr skb a x).Inside skb.length ↔ 4 ≤ skb.length ∨ asInt (skb.len - a) < 4) ∧
    ((∀ (other : Skb) (y : UInt32), other.isNonlinear = false → other.length = skb.length →
      nlaLen other.dataByte a.toNat = nlaLen skb.dataByte a.toNat →
        (adNlattrNest other a y).Inside skb.length) ↔
      NestFits skb.length a (nlaLen skb.dataByte a.toNat)) := by
  have hv := nlaLen_lt skb.dataByte a.toNat
  refine ⟨adNlattr_inside_iff hlin a x, fun hall => ?_, fun hfits other y hlin' hlen hhead => ?_⟩
  · by_contra hfits
    refine chainSkb_outside skb.len_lt hv hfits (hall _ _ rfl rfl ?_)
    rw [chainSkb_dataByte skb.len_lt, chainMem_head hv]
  · rw [← hlen, ← hhead] at hfits
    exact hlen ▸ adNlattrNest_inside hlin' y hfits

theorem attrLoads_inside_iff_fits : (adNlattr (chainSkb 16 (by decide) 0 16) 0 5).Inside 16 ∧
      (adNlattrNest (chainSkb 16 (by decide) 0 16) 0 5).Inside 16 := by
  obtain ⟨hfind, hnest⟩ := attrLoads_inside_iff (chainSkb 16 (by decide) 0 16) rfl 0 5
  exact ⟨hfind.mpr (by decide), hnest.mpr (by decide) _ 5 rfl rfl rfl⟩

/-- `ld #k; ld [SKF_AD_OFF + ad]; ret a`. -/
def adFilter (a ad : UInt32) : List SockFilter :=
  [⟨bpfLd ||| bpfImm, 0, 0, a⟩, ⟨bpfLd ||| bpfW ||| bpfAbs, 0, 0, 0xfffff000 + ad⟩,
    ⟨bpfRet ||| bpfA, 0, 0, 0⟩]

/-- A packet of three bytes and `A` beyond the first half of the addresses; and a packet of 12 bytes
whose only attribute claims 16. -/
theorem attrLoads_outside : (∃ insns s, skChkFilter (adFilter 0x80000004 12) = some insns ∧
      Reaches (step .keeping (.linear (fun _ => 0) 3 (by decide)) insns) (start (Vector.replicate _ 0)) s ∧
      insns[s.pc.toNat]? = some ⟨Op.ldWAbs.code, 0, 0, 0xfffff00c⟩ ∧
      ¬(adNlattr (.linear (fun _ => 0) 3 (by decide)) s.a s.x).Inside 3) ∧
    ∃ insns s, skChkFilter (adFilter 0 16) = some insns ∧
      Reaches (step .keeping (chainSkb 12 (by decide) 0 16) insns) (start (Vector.replicate _ 0)) s ∧
      insns[s.pc.toNat]? = some ⟨Op.ldWAbs.code, 0, 0, 0xfffff010⟩ ∧
      ¬(adNlattrNest (chainSkb 12 (by decide) 0 16) s.a s.x).Inside 12 := by
  refine ⟨⟨_, ⟨1, 0x80000004, 0, _, 0⟩, rfl, .single rfl, rfl, ?_⟩,
    ⟨_, ⟨1, 0, 0, _, 0⟩, rfl, .single rfl, rfl, ?_⟩⟩
  · exact (adNlattr_inside_iff rfl _ _).not.mpr (by decide)
  · exact chainSkb_outside (by decide) (by decide) (by decide)

end Nest

end VDLinux.Net
