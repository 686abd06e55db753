import VDLinux.Fs.PosixAcl

namespace VDLinux.Fs.Acl

open List

def Entry.Fits (e : Entry) : Prop := e.perm &&& ~~~rwx = 0

structure Shape where
  userObj : Entry
  users : List Entry
  groupObj : Entry
  groups : List Entry
  mask : Option Entry
  other : Entry
  userObj_tag : userObj.tag = .userObj
  users_tag : ∀ e ∈ users, e.tag = .user
  users_ids : users.Pairwise fun a b => a.id ≠ b.id
  groupObj_tag : groupObj.tag = .groupObj
  groups_tag : ∀ e ∈ groups, e.tag = .group
  mask_tag : ∀ e ∈ mask, e.tag = .mask
  mask_needed : users ≠ [] ∨ groups ≠ [] → mask ≠ none
  other_tag : other.tag = .other

def Shape.tail (s : Shape) : List Entry := s.groups ++ (s.mask.toList ++ [s.other])

def Shape.entries (s : Shape) : List Entry := s.userObj :: (s.users ++ s.groupObj :: s.tail)

section Shapes

variable {id : BitVec 32} {needsMask : Bool} {l : List Entry}

theorem valid_done (h : validLoop .done id needsMask l = true) : l = [] := by
  cases l with
  | nil => rfl
  | cons pa rest => cases htag : pa.tag <;> simp [validLoop, htag] at h

theorem valid_other (h : validLoop .other id needsMask l = true) : ∃ o, l = [o] ∧ o.tag = .other := by
  cases l with
  | nil => simp [validLoop] at h
  | cons pa rest =>
    cases htag : pa.tag <;> simp [validLoop, htag] at h
    exact ⟨pa, by rw [valid_done h.2], htag⟩

theorem valid_group (h : validLoop .group id needsMask l = true) :
    ∃ (groups : List Entry) (mask : Option Entry) (o : Entry), l = groups ++ (mask.toList ++ [o]) ∧
      (∀ e ∈ groups, e.tag = .group) ∧ (∀ e ∈ mask, e.tag = .mask) ∧ o.tag = .other ∧
      (needsMask = true ∨ groups ≠ [] → mask ≠ none) := by
  induction l generalizing id needsMask with
  | nil => simp [validLoop] at h
  | cons pa rest ih =>
    cases htag : pa.tag <;> simp [validLoop, htag] at h
    case group =>
      obtain ⟨groups, mask, o, rfl, hgroups, hmask, ho, hneed⟩ := ih h.2.2
      exact ⟨pa :: groups, mask, o, rfl, forall_mem_cons.mpr ⟨htag, hgroups⟩, hmask, ho,
        fun _ => hneed (.inl rfl)⟩
    case mask =>
      obtain ⟨o, rfl, ho⟩ := valid_other h.2
      refine ⟨[], some pa, o, rfl, nofun, fun e he => ?_, ho, nofun⟩
      cases he
      exact htag
    case other =>
      refine ⟨[], none, pa, by rw [valid_done h.2.2]; rfl, nofun, nofun, htag, ?_⟩
      rintro (hneed | hne)
      · rw [h.2.1] at hneed
        cases hneed
      · exact absurd rfl hne

theorem valid_user (h : validLoop .user id needsMask l = true) :
    ∃ users g rest, l = users ++ g :: rest ∧ (∀ e ∈ users, e.tag = .user ∧ id ≤ e.id) ∧
      users.Pairwise (fun a b => a.id ≠ b.id) ∧ g.tag = .groupObj ∧
      ∃ needsMask', validLoop .group 0 needsMask' rest = true ∧
        (needsMask = true ∨ users ≠ [] → needsMask' = true) := by
  induction l generalizing id needsMask with
  | nil => simp [validLoop] at h
  | cons pa rest ih =>
    cases htag : pa.tag <;> simp [validLoop, htag] at h
    case user =>
      obtain ⟨-, ⟨hdef, hid⟩, hrest⟩ := h
      obtain ⟨users, g, rest', rfl, husers, hids, hg, needsMask', hgroup, hneed⟩ := ih hrest
      have hlt : ∀ e ∈ users, pa.id < e.id := by
        intro e he
        have hle := (husers e he).2
        rw [undefinedId] at hdef
        bv_omega
      refine ⟨pa :: users, g, rest', rfl, forall_mem_cons.mpr
        ⟨⟨htag, BitVec.not_lt.mp (by simpa using hid)⟩, fun e he => ⟨(husers e he).1, ?_⟩⟩, ?_, hg, needsMask',
        hgroup, fun _ => hneed (.inl rfl)⟩
      · have := hlt e he
        bv_omega
      · refine pairwise_cons.mpr ⟨fun e he heq => ?_, hids⟩
        have := hlt e he
        bv_omega
    case groupObj =>
      refine ⟨[], pa, rest, rfl, nofun, List.Pairwise.nil, htag, needsMask, h.2, ?_⟩
      rintro (hneed | hne)
      · exact hneed
      · exact absurd rfl hne

theorem exists_shape {acl : List Entry} (h : posixAclValid acl = true) : ∃ s : Shape, s.entries = acl := by
  cases acl with
  | nil => simp [posixAclValid, validLoop] at h
  | cons pa rest =>
    rw [posixAclValid] at h
    cases htag : pa.tag <;> simp [validLoop, htag] at h
    obtain ⟨users, g, tail, rfl, husers, hids, hg, needsMask, hgroup, hneed⟩ := valid_user h.2
    obtain ⟨groups, mask, o, rfl, hgroups, hmask, ho, hneed'⟩ := valid_group hgroup
    refine ⟨⟨pa, users, g, groups, mask, o, htag, fun e he => (husers e he).1, hids, hg, hgroups, hmask,
      fun hne => ?_, ho⟩, rfl⟩
    cases hne with
    | inl husers => exact hneed' (.inl (hneed (.inr husers)))
    | inr hgroups => exact hneed' (.inr hgroups)

end Shapes

section Rule

def Entry.matchesGroup (inode : Inode) (who : Subject) (e : Entry) : Bool :=
  match e.tag with
  | .groupObj => who.inGroup inode.gid
  | .group => who.inGroup e.id
  | _ => false

def Entry.Names (who : Subject) (e : Entry) : Prop := e.tag = .user ∧ e.id = who.fsuid

def MaskGrants (acl : List Entry) (want : BitVec 32) : Prop := ∀ e ∈ acl, e.tag = .mask → e.grants want = true

/-- The rule of POSIX.1e: the owner by the entry of the owner; else a named user by its entry and the mask;
else the groups, if any matches, by one that grants and the mask; else the others. -/
def PosixRule (inode : Inode) (who : Subject) (acl : List Entry) (want : BitVec 32) : Prop :=
  (inode.uid = who.fsuid ∧ ∃ e ∈ acl, e.tag = .userObj ∧ e.grants want = true) ∨
  (inode.uid ≠ who.fsuid ∧ (∃ e ∈ acl, e.Names who ∧ e.grants want = true) ∧ MaskGrants acl want) ∨
  (inode.uid ≠ who.fsuid ∧ (∀ e ∈ acl, ¬e.Names who) ∧
    (∃ e ∈ acl, e.matchesGroup inode who = true ∧ e.grants want = true) ∧ MaskGrants acl want) ∨
  (inode.uid ≠ who.fsuid ∧ (∀ e ∈ acl, ¬e.Names who) ∧ (∀ e ∈ acl, e.matchesGroup inode who = false) ∧
    ∃ e ∈ acl, e.tag = .other ∧ e.grants want = true)

variable {inode : Inode} {who : Subject} {want : BitVec 32} {pa : Entry} {rest l : List Entry}

theorem grants_and (e m : Entry) (want : BitVec 32) :
    (e.perm.setWidth 32 &&& m.perm.setWidth 32 &&& want == want) =
      (e.grants want && m.grants want) := by
  rw [Entry.grants, Entry.grants, Bool.eq_iff_iff, Bool.and_eq_true, beq_iff_eq, beq_iff_eq, beq_iff_eq]
  generalize e.perm.setWidth 32 = x, m.perm.setWidth 32 = y
  simp only [BitVec.eq_of_getElem_eq_iff, BitVec.getElem_and, ← forall_and]
  refine forall₂_congr fun i hi => ?_
  cases x[i] <;> cases y[i] <;> cases want[i] <;> decide

theorem checkMask_eq {mask : Option Entry} {other : Entry} (hl : ∀ e ∈ l, e.tag ≠ .mask)
    (hmask : ∀ e ∈ mask, e.tag = .mask) (hother : other.tag = .other) :
    checkMask pa want (l ++ (mask.toList ++ [other])) =
      if pa.grants want = true ∧ ∀ e ∈ mask, e.grants want = true then .granted else .eacces := by
  induction l with
  | nil =>
    cases mask with
    | none => simp [checkMask, hother, checkPerm]
    | some m => simp [checkMask, hmask m rfl, grants_and]
  | cons e l ih =>
    rw [cons_append, checkMask, if_neg (hl e mem_cons_self)]
    exact ih fun e' he' => hl e' (mem_cons_of_mem _ he')

section Loop

variable (inode who want)

theorem permissionLoop_user (hpa : pa.tag = .user) (found : Bool) (rest : List Entry) :
    permissionLoop inode who want found (pa :: rest) =
      if decide (pa.id = who.fsuid) = true then checkMask pa want rest
      else permissionLoop inode who want (found || false) rest := by
  simp [permissionLoop, hpa]

theorem permissionLoop_group (hpa : pa.tag = .groupObj ∨ pa.tag = .group) (found : Bool)
    (rest : List Entry) :
    permissionLoop inode who want found (pa :: rest) =
      if (pa.matchesGroup inode who && pa.grants want) = true then checkMask pa want rest
      else permissionLoop inode who want (found || pa.matchesGroup inode who) rest := by
  rw [permissionLoop, Entry.matchesGroup]
  cases hpa with
  | inl htag =>
    rw [htag]
    cases who.inGroup inode.gid <;> cases pa.grants want <;> simp
  | inr htag =>
    rw [htag]
    cases who.inGroup pa.id <;> cases pa.grants want <;> simp

variable {inode who want}

/-- A run of entries each of which decides, together with the mask, or is passed. -/
theorem permissionLoop_scan {hit seen : Entry → Bool}
    (hstep : ∀ e ∈ l, ∀ found rest, permissionLoop inode who want found (e :: rest) =
      if hit e = true then checkMask e want rest else permissionLoop inode who want (found || seen e) rest)
    (found : Bool) (rest : List Entry) :
    (∃ e ∈ l, hit e = true ∧ ∃ l' ⊆ l,
      permissionLoop inode who want found (l ++ rest) = checkMask e want (l' ++ rest)) ∨
    (∀ e ∈ l, ¬hit e = true) ∧ permissionLoop inode who want found (l ++ rest) =
      permissionLoop inode who want (found || l.any seen) rest := by
  induction l generalizing found with
  | nil => exact .inr ⟨nofun, by simp⟩
  | cons e l ih =>
    rw [cons_append, hstep e mem_cons_self]
    split_ifs with hhit
    · exact .inl ⟨e, mem_cons_self, hhit, l, subset_cons_self e l, rfl⟩
    · obtain ⟨e', he', hhit', l', hl', heq⟩ | ⟨hno, heq⟩ :=
        ih (fun e' he' => hstep e' (mem_cons_of_mem _ he')) (found || seen e)
      · exact .inl ⟨e', mem_cons_of_mem _ he', hhit', l', subset_cons_of_subset e hl', heq⟩
      · rw [any_cons, ← Bool.or_assoc]
        exact .inr ⟨forall_mem_cons.mpr ⟨hhit, hno⟩, heq⟩

end Loop

namespace Shape

variable (s : Shape) {e : Entry}

theorem mem_entries : e ∈ s.entries ↔
    e = s.userObj ∨ e ∈ s.users ∨ e ∈ s.groupObj :: s.groups ∨ e ∈ s.mask ∨ e = s.other := by
  simp only [entries, tail, mem_cons, mem_append, Option.mem_toList, Option.mem_def,
    not_mem_nil, or_false, or_assoc]

theorem groups_tags (he : e ∈ s.groupObj :: s.groups) : e.tag = .groupObj ∨ e.tag = .group := by
  obtain rfl | he := mem_cons.mp he
  · exact .inl s.groupObj_tag
  · exact .inr (s.groups_tag e he)

theorem mem_of_tag (he : e ∈ s.entries) : match e.tag with
    | .userObj => e = s.userObj
    | .user => e ∈ s.users
    | .groupObj | .group => e ∈ s.groupObj :: s.groups
    | .mask => e ∈ s.mask
    | .other => e = s.other
    | .unknown _ => False := by
  obtain rfl | he | he | he | rfl := s.mem_entries.mp he
  · rw [s.userObj_tag]
  · rwa [s.users_tag e he]
  · obtain htag | htag := s.groups_tags he <;> rwa [htag]
  · rwa [s.mask_tag e he]
  · rw [s.other_tag]

theorem ne_mask (he : e ∈ s.users ∨ e ∈ s.groupObj :: s.groups) : e.tag ≠ .mask := by
  obtain he | he := he
  · simp [s.users_tag e he]
  · obtain htag | htag := s.groups_tags he <;> simp [htag]

theorem names_iff : e ∈ s.entries ∧ e.Names who ↔ e ∈ s.users ∧ e.id = who.fsuid := by
  constructor
  · rintro ⟨he, htag, hid⟩
    exact ⟨by simpa only [htag] using s.mem_of_tag he, hid⟩
  · rintro ⟨he, hid⟩
    exact ⟨s.mem_entries.mpr (.inr (.inl he)), s.users_tag e he, hid⟩

theorem matches_iff : e ∈ s.entries ∧ e.matchesGroup inode who = true ↔
    e ∈ s.groupObj :: s.groups ∧ e.matchesGroup inode who = true := by
  refine and_congr_left fun hmatch => ⟨fun he => ?_, fun he => s.mem_entries.mpr (.inr (.inr (.inl he)))⟩
  have hmem := s.mem_of_tag he
  rw [Entry.matchesGroup] at hmatch
  cases htag : e.tag <;> rw [htag] at hmatch hmem <;> first | exact hmem | cases hmatch

theorem maskGrants_iff : MaskGrants s.entries want ↔ ∀ e ∈ s.mask, e.grants want = true := by
  constructor
  · intro h e he
    exact h e (s.mem_entries.mpr (.inr (.inr (.inr (.inl he))))) (s.mask_tag e he)
  · intro h e he htag
    exact h e (by simpa only [htag] using s.mem_of_tag he)

theorem userObj_iff : (∃ e ∈ s.entries, e.tag = .userObj ∧ e.grants want = true) ↔
    s.userObj.grants want = true := by
  constructor
  · rintro ⟨e, he, htag, hgrants⟩
    obtain rfl : e = s.userObj := by simpa only [htag] using s.mem_of_tag he
    exact hgrants
  · exact fun h => ⟨_, s.mem_entries.mpr (.inl rfl), s.userObj_tag, h⟩

theorem other_iff : (∃ e ∈ s.entries, e.tag = .other ∧ e.grants want = true) ↔
    s.other.grants want = true := by
  constructor
  · rintro ⟨e, he, htag, hgrants⟩
    obtain rfl : e = s.other := by simpa only [htag] using s.mem_of_tag he
    exact hgrants
  · exact fun h => ⟨_, s.mem_entries.mpr (.inr (.inr (.inr (.inr rfl)))), s.other_tag, h⟩

theorem users_unique {a b : Entry} (ha : a ∈ s.users) (hb : b ∈ s.users) (hid : a.id = b.id) : a = b := by
  have hnodup : (s.users.map Entry.id).Nodup := pairwise_map.mpr s.users_ids
  exact inj_on_of_nodup_map hnodup ha hb hid

theorem tail_eq (l : List Entry) : l ++ s.groupObj :: s.tail =
    l ++ (s.groupObj :: s.groups) ++ (s.mask.toList ++ [s.other]) := by
  simp [tail]

open Classical in
theorem permission_eq : posixAclPermission inode who s.entries want =
    if PosixRule inode who s.entries want then .granted else .eacces := by
  have hnames : ∀ e, (e ∈ s.entries → ¬e.Names who) ↔ (e ∈ s.users → e.id ≠ who.fsuid) := by
    intro e
    rw [← not_and, s.names_iff, not_and]
  have hmatch : ∀ e, (e ∈ s.entries → e.matchesGroup inode who = false) ↔
      (e ∈ s.groupObj :: s.groups → e.matchesGroup inode who = false) := by
    intro e
    simp only [← Bool.not_eq_true, ← not_and, s.matches_iff]
  simp only [PosixRule, s.userObj_iff, s.other_iff, s.maskGrants_iff, hnames, hmatch]
  simp only [← and_assoc (a := _ ∈ _), s.names_iff, s.matches_iff]
  simp only [and_assoc]
  rw [posixAclPermission, entries, permissionLoop, s.userObj_tag]
  dsimp only
  by_cases huid : inode.uid = who.fsuid
  · simp [huid, checkPerm]
  · rw [if_neg huid]
    simp only [huid, false_and, false_or, not_false_eq_true, true_and, ne_eq]
    obtain ⟨e, he, hid, l, hl, hloop⟩ | ⟨hnone, hloop⟩ := permissionLoop_scan
      (fun e he => permissionLoop_user inode who want (s.users_tag e he)) false (s.groupObj :: s.tail)
    · rw [decide_eq_true_eq] at hid
      have hnomask : ∀ e' ∈ l ++ (s.groupObj :: s.groups), e'.tag ≠ .mask :=
        fun e' he' => s.ne_mask ((mem_append.mp he').imp_left (@hl e'))
      rw [hloop, s.tail_eq, checkMask_eq hnomask s.mask_tag s.other_tag]
      have hiff : (∃ e ∈ s.users, e.id = who.fsuid ∧ e.grants want = true) ↔ e.grants want = true := by
        constructor
        · rintro ⟨e', he', hid', hgrants⟩
          rwa [s.users_unique he he' (hid.trans hid'.symm)]
        · exact fun hgrants => ⟨e, he, hid, hgrants⟩
      have hnamed : ¬∀ e ∈ s.users, ¬e.id = who.fsuid := fun hall => hall e he hid
      simp only [hiff, hnamed, false_and, or_false]
    · simp only [decide_eq_true_eq] at hnone
      have hnot : ¬∃ e ∈ s.users, e.id = who.fsuid ∧ e.grants want = true :=
        fun ⟨e, he, hid, _⟩ => hnone e he hid
      have htail := s.tail_eq []
      have hfound : (false || s.users.any fun _ => false) = false := by simp
      rw [List.nil_append, List.nil_append] at htail
      rw [hloop, htail, hfound]
      simp only [hnot, false_and, false_or, eq_true hnone, true_and]
      obtain ⟨e, he, hhit, l, hl, hloop⟩ | ⟨hno, hloop⟩ := permissionLoop_scan
        (fun e he => permissionLoop_group inode who want (s.groups_tags he)) false (s.mask.toList ++ [s.other])
      · rw [Bool.and_eq_true] at hhit
        have hgrant : ∃ e ∈ s.groupObj :: s.groups, e.matchesGroup inode who = true ∧ e.grants want = true :=
          ⟨e, he, hhit⟩
        have hsome : ¬∀ e ∈ s.groupObj :: s.groups, e.matchesGroup inode who = false := by
          intro hall
          rw [hall e he] at hhit
          cases hhit.1
        rw [hloop, checkMask_eq (fun e' he' => s.ne_mask (.inr (hl he'))) s.mask_tag s.other_tag]
        simp only [hhit.2, true_and, hgrant, hsome, false_and, or_false]
      · have hgrant : ¬∃ e ∈ s.groupObj :: s.groups, e.matchesGroup inode who = true ∧ e.grants want = true :=
          fun ⟨e, he, hboth⟩ => hno e he (Bool.and_eq_true_iff.mpr hboth)
        have hlast : ∀ found, permissionLoop inode who want found (s.mask.toList ++ [s.other]) =
            if found = true then .eacces else checkPerm s.other want := by
          intro found
          cases hmask : s.mask with
          | none => simp [permissionLoop, s.other_tag]
          | some m => simp [permissionLoop, s.mask_tag m hmask, s.other_tag]
        have hall : (∀ e ∈ s.groupObj :: s.groups, e.matchesGroup inode who = false) ↔
            ¬∃ e ∈ s.groupObj :: s.groups, e.matchesGroup inode who = true := by simp
        rw [hloop, hlast, Bool.false_or]
        simp only [hgrant, false_and, false_or, any_eq_true, hall]
        by_cases hmatch : ∃ e ∈ s.groupObj :: s.groups, e.matchesGroup inode who = true
        · rw [if_pos hmatch, if_neg fun h => h.1 hmatch]
        · rw [if_neg hmatch, checkPerm]
          simp only [hmatch, not_false_eq_true, true_and]

end Shape

end Rule

end VDLinux.Fs.Acl
