import VDLinux.Tfsr.Mount

namespace VDLinux.Tfsr.MountLoads

open BlockMap MetaData Mount List

/-- Every load of a control block is of an offset, in a block, that a search
made before has found for this kind of control block. -/
def Justified (seen : List Event) : List Event → Prop
  | [] => True
  | .load nPbn nOffset nType :: es =>
    (∃ bTPCB f, .find nPbn nType bTPCB f ∈ seen ∧ f.bFound = true ∧ f.nValidOffset = nOffset) ∧
      Justified (.load nPbn nOffset nType :: seen) es
  | .find nPbn nType bTPCB f :: es => Justified (.find nPbn nType bTPCB f :: seen) es

/-- Nothing valid has been found, neither in the block nor in a backup. -/
def Missing (nType : PcbType) (es : List Event) : Prop :=
  (∃ nPbn f, .find nPbn nType false f ∈ es ∧ f.bFound = false) ∧
    ∀ nPbn f, .find nPbn nType true f ∈ es → f.bFound = false

structure LoadsFound (run : MountRun) : Prop where
  justified : Justified [] run.events
  refused : ∀ nType, Missing nType run.events →
    run.nRet = noPCB nType ∧ ∀ nPbn nOffset, .load nPbn nOffset nType ∉ run.events

/-- The block holds valid meta data, or a backup block is recorded. -/
def Backed (vol : BmlVolCxt) (lld : Lld) (nType : PcbType) (calls : Nat) (sh : BmlReservoirSh) :
    Prop :=
  (findValidMetaData vol lld (pcbSbn nType sh).toNat nType false calls sh).1.bFound = true ∨
    sh.nTPCBSbn ≠ 0

def beforeLPCB (lld : Lld) (st : MountState) : Option (Nat × MountState) :=
  let (nRet, calls, sh) := scanReservoir lld st.rsv st.rsvSh
  if nRet = .success then some (calls, { st with rsvSh := sh }) else none

def beforeUPCB (vol : BmlVolCxt) (lld : Lld) (updateERL : BmlRe) (st : MountState) :
    Option (Nat × MountState) :=
  (beforeLPCB lld st).bind fun (calls, st) =>
    let l := mountPCB vol lld updateERL .lpcb calls st
    if l.nRet = .success then some (l.calls, l.st) else none

variable (vol : BmlVolCxt) (lld : Lld) (updateERL : BmlRe)

theorem findValidMetaData_sh (nPbn : Nat) (nType : PcbType) (bTPCB : Bool) (calls : Nat)
    (sh : BmlReservoirSh) :
    pcbSbn nType (findValidMetaData vol lld nPbn nType bTPCB calls sh).2 = pcbSbn nType sh ∧
      (findValidMetaData vol lld nPbn nType bTPCB calls sh).2.nTPCBSbn = sh.nTPCBSbn := by
  rw [findValidMetaData]
  split
  · exact ⟨rfl, rfl⟩
  · cases nType <;> exact ⟨rfl, rfl⟩

/-- The searches and the load of one control block. -/
inductive Shape (nType : PcbType) (backed : Prop) : List Event → Bool → Prop
  | own (nPbn : Nat) (f : Found) (hb : backed) (hf : f.bFound = true) :
      Shape nType backed [.find nPbn nType false f, .load nPbn f.nValidOffset nType] true
  | backup (nPbn nTPbn : Nat) (f g : Found) (hb : backed) (hf : f.bFound = false)
      (hg : g.bFound = true) :
      Shape nType backed [.find nPbn nType false f, .find nTPbn nType true g,
        .load nTPbn g.nValidOffset nType] true
  | neither (nPbn nTPbn : Nat) (f g : Found) (hb : backed) (hf : f.bFound = false)
      (hg : g.bFound = false) :
      Shape nType backed [.find nPbn nType false f, .find nTPbn nType true g] false
  | unbacked (nPbn nOffset : Nat) (f : Found) (hb : ¬ backed) (hf : f.bFound = false) :
      Shape nType backed [.find nPbn nType false f, .load nPbn nOffset nType] true

theorem findPCB_shape (nType : PcbType) (calls : Nat) (sh : BmlReservoirSh) :
    Shape nType (Backed vol lld nType calls sh) (let s := findPCB vol lld nType calls sh
       if s.bRet then s.events ++ [.load (pcbSbn nType s.sh).toNat s.nValidOffset nType]
       else s.events) (findPCB vol lld nType calls sh).bRet := by
  obtain ⟨hsbn, htpcb⟩ := findValidMetaData_sh vol lld (pcbSbn nType sh).toNat nType false calls sh
  rw [findPCB, Backed]
  generalize findValidMetaData vol lld (pcbSbn nType sh).toNat nType false calls sh = r at *
  obtain ⟨f, sh'⟩ := r
  dsimp only at hsbn htpcb ⊢
  rw [← htpcb, ← hsbn]
  by_cases hf : f.bFound = false
  · rw [if_pos hf]
    by_cases ht : sh'.nTPCBSbn = 0
    · rw [if_neg (not_not.mpr ht)]
      exact .unbacked _ _ f (by simp [hf, ht]) hf
    · rw [if_pos ht]
      obtain ⟨_, htpcb'⟩ := findValidMetaData_sh vol lld sh'.nTPCBSbn.toNat nType true f.calls sh'
      generalize findValidMetaData vol lld sh'.nTPCBSbn.toNat nType true f.calls sh' = r' at *
      obtain ⟨g, sh''⟩ := r'
      by_cases hg : g.bFound = false
      · rw [if_pos hg]
        exact .neither _ _ f g (.inr ht) hf hg
      · rw [if_neg hg]
        rw [show pcbSbn nType (swapTPCB nType sh'') = sh''.nTPCBSbn by cases nType <;> rfl, htpcb']
        exact .backup _ _ f g (.inr ht) hf (eq_true_of_ne_false hg)
  · rw [if_neg hf]
    exact .own _ f (.inl (eq_true_of_ne_false hf)) (eq_true_of_ne_false hf)

theorem mountPCB_shape (nType : PcbType) (calls : Nat) (st : MountState) :
    ∃ loads, Shape nType (Backed vol lld nType calls st.rsvSh)
        (mountPCB vol lld updateERL nType calls st).events loads ∧
      (loads = false → (mountPCB vol lld updateERL nType calls st).nRet = noPCB nType) ∧
      (loads = true → (mountPCB vol lld updateERL nType calls st).nRet = .success ∨
        (mountPCB vol lld updateERL nType calls st).nRet = loadFailure nType) := by
  have hshape := findPCB_shape vol lld nType calls st.rsvSh
  rw [mountPCB]
  generalize findPCB vol lld nType calls st.rsvSh = s at *
  by_cases hs : s.bRet = false
  · rw [if_pos hs]
    rw [if_neg (by simp [hs]), hs] at hshape
    exact ⟨false, hshape, fun _ => rfl, nofun⟩
  · rw [if_neg hs]
    rw [if_pos (eq_true_of_ne_false hs), eq_true_of_ne_false hs] at hshape
    refine ⟨true, hshape, nofun, fun _ => ?_⟩
    dsimp only
    split
    · exact .inl rfl
    · exact .inr rfl

def Event.nType : Event → PcbType
  | .find _ nType _ _ => nType
  | .load _ _ nType => nType

section shape

variable {nType : PcbType} {backed : Prop} {es : List Event} {loads : Bool}

variable (h : Shape nType backed es loads)
include h

theorem Shape.nType_eq : ∀ e ∈ es, Event.nType e = nType := by
  cases h <;> simp [Event.nType]

theorem Shape.justified_iff {seen : List Event}
    (hseen : ∀ e ∈ seen, Event.nType e ≠ nType) : Justified seen es ↔ backed := by
  cases h with
  | own nPbn f hb hf =>
    refine ⟨fun _ => hb, fun _ => ⟨⟨false, f, mem_cons_self .., hf, rfl⟩, trivial⟩⟩
  | backup nPbn nTPbn f g hb hf hg =>
    refine ⟨fun _ => hb, fun _ => ⟨⟨true, g, mem_cons_self .., hg, rfl⟩, trivial⟩⟩
  | neither nPbn nTPbn f g hb hf hg => exact ⟨fun _ => hb, fun _ => trivial⟩
  | unbacked nPbn nOffset f hb hf =>
    refine ⟨?_, fun h => absurd h hb⟩
    rintro ⟨⟨bTPCB, f', hmem, hf', _⟩, _⟩
    obtain he | hmem := mem_cons.mp hmem
    · cases he
      rw [hf] at hf'
      cases hf'
    · exact absurd rfl (hseen _ hmem)

theorem Shape.refused (hb : backed) (hm : Missing nType es) :
    loads = false ∧ ∀ nPbn nOffset, .load nPbn nOffset nType ∉ es := by
  obtain ⟨⟨nPbn', f', hf', hff⟩, hg'⟩ := hm
  cases h with
  | own nPbn f _ hf =>
    simp only [mem_cons, Event.find.injEq, reduceCtorEq, not_mem_nil, or_self,
      or_false] at hf'
    rw [hf'.2.2.2, hf] at hff
    cases hff
  | backup nPbn nTPbn f g _ hf hg =>
    rw [hg' nTPbn g (by simp)] at hg
    cases hg
  | neither nPbn nTPbn f g _ hf hg => exact ⟨rfl, by simp⟩
  | unbacked nPbn nOffset f hn hf => exact absurd hb hn

end shape

theorem justified_append (seen es es' : List Event) :
    Justified seen (es ++ es') ↔ Justified seen es ∧ Justified (es.reverse ++ seen) es' := by
  induction es generalizing seen with
  | nil => simp [Justified]
  | cons e es ih =>
    cases e with
    | find nPbn nType bTPCB f => simp [Justified, ih]
    | load nPbn nOffset nType => simp [Justified, ih, and_assoc]

theorem missing_append {nType : PcbType} {es es' : List Event}
    (h : ∀ e ∈ es', Event.nType e ≠ nType) (hm : Missing nType (es ++ es')) : Missing nType es := by
  obtain ⟨⟨nPbn, f, hf, hff⟩, hg⟩ := hm
  refine ⟨⟨nPbn, f, ?_, hff⟩, fun n g hg' => hg n g (mem_append_left _ hg')⟩
  exact (mem_append.mp hf).resolve_right (fun hc => absurd rfl (h _ hc))

theorem missing_append_right {nType : PcbType} {es es' : List Event}
    (h : ∀ e ∈ es, Event.nType e ≠ nType) (hm : Missing nType (es ++ es')) : Missing nType es' := by
  obtain ⟨⟨nPbn, f, hf, hff⟩, hg⟩ := hm
  refine ⟨⟨nPbn, f, ?_, hff⟩, fun n g hg' => hg n g (mem_append_right _ hg')⟩
  exact (mem_append.mp hf).resolve_left (fun hc => absurd rfl (h _ hc))

theorem loadsFound_one {nType : PcbType} {backed : Prop} {loads : Bool} {run : MountRun}
    (h : Shape nType backed run.events loads) (hret : loads = false → run.nRet = noPCB nType) :
    LoadsFound run ↔ backed := by
  refine ⟨fun hl => (h.justified_iff (by simp)).mp hl.justified, fun hb => ?_⟩
  refine ⟨(h.justified_iff (by simp)).mpr hb, ?_⟩
  intro nType' hm
  obtain rfl : nType = nType' := by
    obtain ⟨⟨nPbn, f, hf, _⟩, _⟩ := hm
    exact (h.nType_eq _ hf).symm
  obtain ⟨hl, hno⟩ := h.refused hb hm
  exact ⟨hret hl, hno⟩

theorem loadsFound_two {bl bu : Prop} {ll lu : Bool} (run : MountRun) {esL esU : List Event}
    (hes : run.events = esL ++ esU) (hL : Shape .lpcb bl esL ll) (hU : Shape .upcb bu esU lu)
    (hll : ll = true) {u : MountRun} (hret : lu = false → u.nRet = .noUPCB)
    (hrun : run.nRet = u.nRet) : LoadsFound run ↔ bl ∧ bu := by
  have hLU : ∀ e ∈ esL, Event.nType e ≠ .upcb := fun e he => by simp [hL.nType_eq e he]
  have hUL : ∀ e ∈ esU, Event.nType e ≠ .lpcb := fun e he => by simp [hU.nType_eq e he]
  have hj : Justified [] run.events ↔ bl ∧ bu := by
    rw [hes, justified_append, hL.justified_iff (by simp), hU.justified_iff ?_]
    intro e he
    rw [append_nil, mem_reverse] at he
    exact hLU e he
  refine ⟨fun h => hj.mp h.justified, fun hb => ⟨hj.mpr hb, ?_⟩⟩
  intro nType hm
  rw [hes] at hm ⊢
  cases nType with
  | lpcb =>
    obtain ⟨hl, _⟩ := hL.refused hb.1 (missing_append hUL hm)
    rw [hll] at hl
    cases hl
  | upcb =>
    obtain ⟨hl, hno⟩ := hU.refused hb.2 (missing_append_right hLU hm)
    refine ⟨hrun.trans (hret hl), fun nPbn nOffset hmem => ?_⟩
    obtain hmem | hmem := mem_append.mp hmem
    · exact hLU _ hmem rfl
    · exact hno nPbn nOffset hmem

/-- Mounting only loads what it has found exactly when no control block without
valid meta data is met while no backup block is recorded. -/
theorem mount_loadsFound_iff (vol : BmlVolCxt) (lld : Lld) (updateERL : BmlRe) (nDieIdx : Nat)
    (st : MountState) :
    LoadsFound (mount vol lld updateERL nDieIdx st) ↔
      (∀ calls s, beforeLPCB lld st = some (calls, s) → Backed vol lld .lpcb calls s.rsvSh) ∧
      (∀ calls s, beforeUPCB vol lld updateERL st = some (calls, s) →
        Backed vol lld .upcb calls s.rsvSh) := by
  rw [mount, beforeUPCB, beforeLPCB]
  generalize scanReservoir lld st.rsv st.rsvSh = r
  obtain ⟨nRet, calls, sh⟩ := r
  dsimp only
  by_cases hr : nRet = .success
  · rw [if_neg (not_not.mpr hr), if_pos hr]
    obtain ⟨ll, hL, hLno, hLyes⟩ := mountPCB_shape vol lld updateERL .lpcb calls { st with rsvSh := sh }
    dsimp only [Option.bind_some]
    generalize mountPCB vol lld updateERL .lpcb calls { st with rsvSh := sh } = l at *
    by_cases hl : l.nRet = .success
    · rw [if_neg (not_not.mpr hl), if_pos hl]
      obtain ⟨lu, hU, hUno, _⟩ := mountPCB_shape vol lld updateERL .upcb l.calls l.st
      have hll : ll = true := by
        cases ll with
        | true => rfl
        | false =>
          rw [hLno rfl] at hl
          cases hl
      refine (loadsFound_two ⟨_, _, _, _⟩ rfl hL hU hll hUno rfl).trans ?_
      simp
    · rw [if_pos hl, if_neg hl, loadsFound_one hL hLno]
      simp
  · rw [if_pos hr, if_neg hr]
    refine ⟨fun _ => ⟨by simp, by simp⟩, fun _ => ⟨trivial, ?_⟩⟩
    rintro nType ⟨⟨nPbn, f, hf, _⟩, _⟩
    simp at hf

theorem not_loadsFound {run : MountRun} {nPbn nPbn' nOffset : Nat} {nType : PcbType} {f : Found}
    (hf : f.bFound = false)
    (h : run.events = [.find nPbn nType false f, .load nPbn' nOffset nType]) : ¬ LoadsFound run := by
  intro hl
  have hj := hl.justified
  rw [h] at hj
  simp only [Justified, mem_singleton, Event.find.injEq] at hj
  obtain ⟨⟨_, g, ⟨_, _, _, rfl⟩, hg, _⟩, _⟩ := hj
  rw [hf] at hg
  cases hg

def tinyVol : BmlVolCxt := ⟨64, 1, 4, 2048, 4, 2, 0, pgs_four⟩

def tinyState : MountState :=
  initBBM tinyVol ⟨.slc, 60, 61, 64, 0, 0, fun _ => ⟨0, 0⟩, fun _ => 0, fun _ => ⟨0, 0⟩⟩

def headerPage (sig : List UInt8) : Page :=
  ⟨fun i => (sig ++ [0, 0, 0, 0, 0, 0, 0, 0, 1, 0, 0, 0, 1, 0, 0, 0]).getD i 0xFF,
    fun i => [0xFF, 0xFF, 0xA5, 0xA5].getD i 0xFF⟩

/-- A first program of both control blocks that lost its power after one page:
there is no confirm page and no backup block yet. -/
def powerLost : Lld := fun _ nPbn nPgOffset =>
  ⟨.success, if nPgOffset = 0 ∧ nPbn = 60 then headerPage bmlLPCHSig
    else if nPgOffset = 0 ∧ nPbn = 61 then headerPage bmlUPCHSig
    else ⟨fun _ => 0xFF, fun _ => 0xFF⟩⟩

theorem powerLost_loads_unfound : (mount tinyVol powerLost .success 0 tinyState).events =
        [.find 60 .lpcb false ⟨false, 0xFFFFFFFF, 3⟩, .load 60 0xFFFFFFFF .lpcb] ∧
      ¬ LoadsFound (mount tinyVol powerLost .success 0 tinyState) := by
  have hev : (mount tinyVol powerLost .success 0 tinyState).events =
      [.find 60 .lpcb false ⟨false, 0xFFFFFFFF, 3⟩, .load 60 0xFFFFFFFF .lpcb] := by
    decide +kernel
  exact ⟨hev, not_loadsFound rfl hev⟩

end VDLinux.Tfsr.MountLoads
