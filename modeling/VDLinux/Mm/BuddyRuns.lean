import VDLinux.Base.Tiling
import VDLinux.Mm.Buddy

namespace VDLinux.Mm

open Base.Dyadic

structure Memory where
  zone : Zone
  allocated : Finset Block

inductive MemoryEvent where
  | alloc (order : ℕ)
  | free (b : Block)
  | setPagePrivate (page value : ℕ)

namespace Memory

def step (m : Memory) : MemoryEvent → Memory
  | .alloc order =>
    match rmqueueSmallest m.zone order with
    | (none, z) => { m with zone := z }
    | (some page, z) => ⟨z, insert ⟨order, page⟩ m.allocated⟩
  | .free b => ⟨freeOnePage m.zone b.start b.order, m.allocated.erase b⟩
  | .setPagePrivate page value =>
    { m with zone := { m.zone with pagePrivate := Function.update m.zone.pagePrivate page value } }

/-- Only blocks that were handed out are given back, and only their pages are written to. -/
def Allowed (m : Memory) : MemoryEvent → Prop
  | .alloc _ => True
  | .free b => b ∈ m.allocated
  | .setPagePrivate page _ => ∃ b ∈ m.allocated, page ∈ b.pages

end Memory

def maximalBlock (head : ℕ) : Block := ⟨maxOrder - 1, head⟩

/-- The free blocks are those of the highest order at the heads given. -/
structure Zone.Maximal (z : Zone) (heads : List ℕ) : Prop where
  top : z.freeList (maxOrder - 1) = heads
  rest : ∀ o, o ≠ maxOrder - 1 → z.freeList o = []
  nodup : heads.Nodup
  aligned : ∀ p ∈ heads, (maximalBlock p).Aligned
  nrFree_eq : ∀ o, z.nrFree o = (z.freeList o).length
  flag : ∀ p, z.pageBuddy p = true ↔ p ∈ heads
  order_eq : ∀ p ∈ heads, z.pagePrivate p = maxOrder - 1

def zonePages (heads : List ℕ) : Set ℕ := {p | ∃ head ∈ heads, p ∈ (maximalBlock head).pages}

inductive Memory.Reached (heads : List ℕ) : Memory → Prop where
  | start {z : Zone} (h : z.Maximal heads) : Reached heads ⟨z, ∅⟩
  | step {m : Memory} (hm : Reached heads m) {e : MemoryEvent} (he : m.Allowed e) :
      Reached heads (m.step e)

section Runs

variable {heads : List ℕ} {m : Memory} {z : Zone}

theorem Zone.Maximal.mem_freeBlocks (h : z.Maximal heads) (b : Block) :
    b ∈ freeBlocks z ↔ ∃ head ∈ heads, b = maximalBlock head := by
  change b.start ∈ z.freeList b.order ↔ _
  cases b with
  | mk o p =>
    by_cases ho : o = maxOrder - 1
    · simp [ho, h.top, maximalBlock]
    · simp [ho, h.rest o ho, maximalBlock]

theorem Zone.Maximal.tiles (h : z.Maximal heads) : Tiles (freeBlocks z) (zonePages heads) := by
  refine ⟨fun b hb => ?_, fun b hb c hc hne => ?_, fun x => ?_⟩
  · obtain ⟨head, hhead, rfl⟩ := (h.mem_freeBlocks b).mp hb
    exact h.aligned head hhead
  · obtain ⟨head, hhead, rfl⟩ := (h.mem_freeBlocks b).mp hb
    obtain ⟨head', hhead', rfl⟩ := (h.mem_freeBlocks c).mp hc
    exact Block.disjoint_of_order_eq (h.aligned head hhead) (h.aligned head' hhead') rfl hne
  · constructor
    · rintro ⟨head, hhead, hx⟩
      exact ⟨_, (h.mem_freeBlocks _).mpr ⟨head, hhead, rfl⟩, hx⟩
    · rintro ⟨b, hb, hx⟩
      obtain ⟨head, hhead, rfl⟩ := (h.mem_freeBlocks b).mp hb
      exact ⟨head, hhead, hx⟩

theorem Zone.Maximal.buddyInv (h : z.Maximal heads) : BuddyInv (zonePages heads) ∅ z := by
  refine ⟨fun o p => ?_, fun o => ?_, h.nrFree_eq, fun b hb => ?_, ?_, nofun, fun b hb ho => ?_⟩
  · by_cases ho : o = maxOrder - 1
    · rw [ho, h.top, h.flag]
      exact ⟨fun hp => ⟨hp, h.order_eq p hp⟩, fun hp => hp.1⟩
    · rw [h.rest o ho, h.flag]
      refine ⟨nofun, fun hp => absurd ?_ ho⟩
      rw [← hp.2, h.order_eq p hp.1]
  · by_cases ho : o = maxOrder - 1
    · rw [ho, h.top]
      exact h.nodup
    · rw [h.rest o ho]
      exact List.nodup_nil
  · rw [Set.union_empty] at hb
    obtain ⟨head, -, rfl⟩ := (h.mem_freeBlocks b).mp hb
    exact Nat.sub_one_lt (by decide)
  · rw [Set.union_empty]
    exact h.tiles
  · obtain ⟨head, -, rfl⟩ := (h.mem_freeBlocks b).mp hb
    exact absurd ho (lt_irrefl _)

theorem Memory.step_buddyInv {Z : Set ℕ} {e : MemoryEvent} (h : BuddyInv Z m.allocated m.zone)
    (he : m.Allowed e) : BuddyInv Z (m.step e).allocated (m.step e).zone := by
  cases e with
  | alloc order =>
    have hspec := rmqueueLoop_spec order (maxOrder - order) 0 h
    rw [Memory.step, rmqueueSmallest]
    revert hspec
    cases rmqueueLoop m.zone order (maxOrder - order) order with
    | mk page z' =>
      intro hspec
      cases page with
      | none => exact (show z' = m.zone from hspec) ▸ h
      | some page =>
        rw [Finset.coe_insert]
        exact hspec.1
  | free b =>
    rw [← Finset.insert_erase he, Finset.coe_insert] at h
    exact freeOnePage_spec h (Finset.notMem_erase b m.allocated)
  | setPagePrivate page value =>
    obtain ⟨b, hb, hpage⟩ := he
    exact h.setPrivate hb hpage value

theorem Memory.Reached.buddyInv (h : Memory.Reached heads m) :
    BuddyInv (zonePages heads) m.allocated m.zone := by
  induction h with
  | start hz =>
    rw [Finset.coe_empty]
    exact hz.buddyInv
  | step _ he ih => exact Memory.step_buddyInv ih he

/-- The free lists of every zone that is reached from maximal free blocks: they hold disjoint aligned
blocks that are the pages not handed out, each flagged at its head alone, and no two buddies. -/
theorem freeLists_exact (h : Memory.Reached heads m) :
    (∀ o, (m.zone.freeList o).Nodup ∧ m.zone.nrFree o = (m.zone.freeList o).length) ∧
    (∀ b ∈ freeBlocks m.zone, ∀ c ∈ freeBlocks m.zone, b ≠ c → Disjoint b.pages c.pages) ∧
    (∀ b ∈ freeBlocks m.zone, ∀ c ∈ m.allocated, Disjoint b.pages c.pages) ∧
    (∀ x, (∃ b ∈ freeBlocks m.zone, x ∈ b.pages) ↔
      x ∈ zonePages heads ∧ ¬∃ c ∈ m.allocated, x ∈ c.pages) ∧
    (∀ o, ∀ p ∈ m.zone.freeList o, 2 ^ o ∣ p ∧ m.zone.pageBuddy p = true ∧ m.zone.pagePrivate p = o ∧
      ∀ x, p < x → x < p + 2 ^ o → m.zone.pageBuddy x = false) ∧
    (∀ o < maxOrder - 1, ∀ p ∈ m.zone.freeList o, p ^^^ 2 ^ o ∉ m.zone.freeList o) := by
  have hinv := h.buddyInv
  have hapart : ∀ b ∈ freeBlocks m.zone, ∀ c ∈ m.allocated, Disjoint b.pages c.pages := by
    intro b hb c hc
    refine hinv.tiles.disjoint b (.inl hb) c (.inr hc) ?_
    rintro rfl
    exact hinv.apart b hc hb
  refine ⟨fun o => ⟨hinv.nodup o, hinv.nrFree_eq o⟩,
    fun b hb c hc => hinv.tiles.disjoint b (.inl hb) c (.inl hc), hapart, fun x => ?_,
    fun o p hp => ?_, fun o ho p hp => hinv.lonely ⟨o, p⟩ hp ho⟩
  · rw [hinv.tiles.cover]
    constructor
    · rintro ⟨b, hb, hx⟩
      refine ⟨⟨b, .inl hb, hx⟩, ?_⟩
      rintro ⟨c, hc, hxc⟩
      exact Set.disjoint_left.mp (hapart b hb c hc) hx hxc
    · rintro ⟨⟨b, hb, hx⟩, hnot⟩
      cases hb with
      | inl hb => exact ⟨b, hb, hx⟩
      | inr hb => exact absurd ⟨b, hb, hx⟩ hnot
  · obtain ⟨hset, hpriv⟩ := (hinv.flag o p).mp hp
    refine ⟨hinv.tiles.aligned ⟨o, p⟩ (.inl hp), hset, hpriv, fun x hpx hxlt => ?_⟩
    rw [Bool.eq_false_iff]
    intro hx
    -- a flagged page inside would be the head of a second free block
    have hfree : (⟨m.zone.pagePrivate x, x⟩ : Block) ∈ freeBlocks m.zone :=
      (hinv.flag _ x).mpr ⟨hx, rfl⟩
    have hin : x ∈ (⟨o, p⟩ : Block).pages := ⟨hpx.le, hxlt⟩
    have heq := hinv.tiles.eq_of_mem (.inl hfree) (.inl hp) (Block.start_mem _) hin
    exact hpx.ne (congrArg Block.start heq).symm

def oneBlock : Zone where
  freeList := Function.update (fun _ => []) (maxOrder - 1) [0]
  nrFree := Function.update (fun _ => 0) (maxOrder - 1) 1
  pageBuddy p := p == 0
  pagePrivate _ := maxOrder - 1

theorem oneBlock_maximal : oneBlock.Maximal [0] := by
  refine ⟨by simp [oneBlock], fun o ho => by simp [oneBlock, ho], by simp, ?_, fun o => ?_,
    fun p => by simp [oneBlock], fun p _ => rfl⟩
  · intro p hp
    rw [List.mem_singleton.mp hp]
    exact ⟨0, rfl⟩
  · by_cases ho : o = maxOrder - 1 <;> simp [oneBlock, ho]

theorem freeLists_exact_oneBlock : Memory.Reached [0] (Memory.step ⟨oneBlock, ∅⟩ (.alloc 0)) ∧
    ∀ o, ∀ p ∈ ((Memory.step ⟨oneBlock, ∅⟩ (.alloc 0)).zone.freeList o),
      2 ^ o ∣ p ∧ (Memory.step ⟨oneBlock, ∅⟩ (.alloc 0)).zone.pageBuddy p = true ∧
        (Memory.step ⟨oneBlock, ∅⟩ (.alloc 0)).zone.pagePrivate p = o ∧
        ∀ x, p < x → x < p + 2 ^ o →
          (Memory.step ⟨oneBlock, ∅⟩ (.alloc 0)).zone.pageBuddy x = false := by
  have hstep : Memory.Allowed ⟨oneBlock, ∅⟩ (.alloc 0) := True.intro
  have hreached := Memory.Reached.step (.start oneBlock_maximal) hstep
  exact ⟨hreached, (freeLists_exact hreached).2.2.2.2.1⟩

def unallocated (Z : Set ℕ) (A : Set Block) : Set ℕ := {x ∈ Z | ∀ b ∈ A, x ∉ b.pages}

theorem BuddyInv.tiles_free {Z : Set ℕ} {A : Set Block} (h : BuddyInv Z A z) :
    Tiles (freeBlocks z) (unallocated Z A) := by
  refine ⟨fun b hb => h.tiles.aligned b (.inl hb),
    fun b hb c hc => h.tiles.disjoint b (.inl hb) c (.inl hc), fun x => ?_⟩
  constructor
  · rintro ⟨hx, hout⟩
    obtain ⟨b, hb | hb, hxb⟩ := (h.tiles.cover x).mp hx
    · exact ⟨b, hb, hxb⟩
    · exact absurd hxb (hout b hb)
  · rintro ⟨b, hb, hxb⟩
    refine ⟨h.tiles.subset (.inl hb) hxb, fun c hc hxc => h.apart c hc ?_⟩
    rwa [← h.tiles.eq_of_mem (.inl hb) (.inr hc) hxb hxc]

theorem rmqueueLoop_eq_none {order rounds current : ℕ} :
    (rmqueueLoop z order rounds current).1 = none ↔ ∀ k < rounds, z.freeList (current + k) = [] := by
  induction rounds generalizing current with
  | zero => simp [rmqueueLoop]
  | succ rounds ih =>
    rw [rmqueueLoop, Nat.forall_lt_succ_left]
    cases z.freeList current with
    | nil => simp [ih, Nat.add_right_comm, Nat.add_assoc]
    | cons page rest => simp

end Runs

end VDLinux.Mm
