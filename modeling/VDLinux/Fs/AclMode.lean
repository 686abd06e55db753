import VDLinux.Fs.AclRules

namespace VDLinux.Fs.Acl

open List

section Fits

variable {e : Entry} {bits : BitVec 32}

theorem Entry.Fits.restrict (h : e.Fits) (bits : BitVec 32) : (e.restrict bits).Fits := by
  rw [Entry.Fits, Entry.restrict, BitVec.and_assoc, BitVec.and_comm _ (~~~rwx), ← BitVec.and_assoc, h]
  exact BitVec.zero_and

theorem fits_of_valid {l : List Entry} {state : State} {id : BitVec 32} {needsMask : Bool}
    (h : validLoop state id needsMask l = true) : ∀ e ∈ l, e.Fits := by
  induction l generalizing state id needsMask with
  | nil => exact nofun
  | cons pa rest ih =>
    have hpa : pa.Fits := by
      simp only [validLoop, Bool.if_false_left, Bool.and_eq_true] at h
      exact (by simpa using h.1 : pa.perm &&& ~~~rwx = 0)
    have hrest : ∃ state id needsMask, validLoop state id needsMask rest = true := by
      cases htag : pa.tag <;> simp only [validLoop, htag] at h <;> split_ifs at h <;> exact ⟨_, _, _, h⟩
    obtain ⟨state', id', needsMask', hrest⟩ := hrest
    exact forall_mem_cons.mpr ⟨hpa, ih hrest⟩

def SameEntry (a b : Entry) : Prop := b.tag = a.tag ∧ b.id = a.id ∧ b.Fits

theorem valid_congr {l l' : List Entry} (hl : List.Forall₂ SameEntry l l') {state : State} {id : BitVec 32}
    {needsMask : Bool} (h : validLoop state id needsMask l = true) : validLoop state id needsMask l' = true := by
  induction hl generalizing state id needsMask with
  | nil => exact h
  | @cons a b rest rest' hab _ ih =>
    obtain ⟨htag, hid, hfits⟩ := hab
    rw [validLoop] at h ⊢
    have hb : ¬(b.perm &&& ~~~rwx ≠ 0) := not_not.mpr hfits
    rw [if_neg hb, htag, hid]
    by_cases ha : a.perm &&& ~~~rwx ≠ 0
    · rw [if_pos ha] at h
      cases h
    · rw [if_neg ha] at h
      cases hta : a.tag with
      | unknown tag =>
        rw [hta] at h
        exact h
      | _ =>
        simp only [hta] at h ⊢
        split_ifs at h ⊢
        exact ih h

end Fits

namespace Shape

variable (s : Shape)

def groupClass : Entry := s.mask.getD s.groupObj

def setClasses (u g o : Entry) (hu : u.tag = s.userObj.tag) (hg : g.tag = s.groupClass.tag)
    (ho : o.tag = s.other.tag) : Shape where
  userObj := u
  users := s.users
  groupObj := if s.mask = none then g else s.groupObj
  groups := s.groups
  mask := s.mask.map fun _ => g
  other := o
  userObj_tag := hu.trans s.userObj_tag
  users_tag := s.users_tag
  users_ids := s.users_ids
  groupObj_tag := by
    split_ifs with hmask
    · rw [hg, groupClass, hmask]
      exact s.groupObj_tag
    · exact s.groupObj_tag
  groups_tag := s.groups_tag
  mask_tag := by
    intro e he
    cases hmask : s.mask with
    | none => simp [hmask] at he
    | some m =>
      rw [hmask] at he
      cases he
      rw [hg, groupClass, hmask]
      exact s.mask_tag m hmask
  mask_needed := fun hne => by simpa using s.mask_needed hne
  other_tag := ho.trans s.other_tag

variable {u g o : Entry} {hu : u.tag = s.userObj.tag} {hg : g.tag = s.groupClass.tag}
  {ho : o.tag = s.other.tag}

theorem entries_setClasses : (s.setClasses u g o hu hg ho).entries =
    u :: (s.users ++ (if s.mask = none then g else s.groupObj) ::
      (s.groups ++ ((s.mask.map fun _ => g).toList ++ [o]))) := rfl

theorem groupClass_setClasses : (s.setClasses u g o hu hg ho).groupClass = g := by
  change (s.mask.map fun _ => g).getD (if s.mask = none then g else s.groupObj) = g
  cases s.mask <;> simp

theorem valid_setClasses (hvalid : posixAclValid s.entries = true) (hu' : SameEntry s.userObj u)
    (hg' : SameEntry s.groupClass g) (ho' : SameEntry s.other o) :
    posixAclValid (s.setClasses u g o hu hg ho).entries = true := by
  have hfits := fits_of_valid hvalid
  have hsame : ∀ l : List Entry, (∀ e ∈ l, e ∈ s.entries) → List.Forall₂ SameEntry l l := by
    intro l hl
    rw [List.forall₂_same]
    exact fun e he => ⟨rfl, rfl, hfits e (hl e he)⟩
  have husers := hsame s.users fun e he => s.mem_entries.mpr (.inr (.inl he))
  have hgroups := hsame s.groups fun e he =>
    s.mem_entries.mpr (.inr (.inr (.inl (mem_cons_of_mem _ he))))
  refine valid_congr ?_ hvalid
  rw [entries_setClasses, entries, tail]
  refine .cons hu' (rel_append husers ?_)
  cases hmask : s.mask with
  | none =>
    rw [groupClass, hmask] at hg'
    exact .cons hg' (rel_append hgroups (.cons ho' .nil))
  | some m =>
    rw [groupClass, hmask] at hg'
    have hobj : s.groupObj ∈ s.entries := s.mem_entries.mpr (.inr (.inr (.inl mem_cons_self)))
    exact .cons ⟨rfl, rfl, hfits _ hobj⟩ (rel_append hgroups (.cons hg' (.cons ho' .nil)))

end Shape

section Equiv

def classMode (u g o : Entry) : BitVec 32 := u.modeBits <<< 6 ||| g.modeBits <<< 3 ||| o.modeBits

theorem Shape.users_named (s : Shape) : ∀ e ∈ s.users, e.tag = .user ∨ e.tag = .group :=
  fun e he => .inl (s.users_tag e he)

theorem Shape.groups_named (s : Shape) : ∀ e ∈ s.groups, e.tag = .user ∨ e.tag = .group :=
  fun e he => .inr (s.groups_tag e he)

theorem equivLoop_named {l rest : List Entry} {mode : BitVec 32} {notEquiv : Bool}
    (hl : ∀ e ∈ l, e.tag = .user ∨ e.tag = .group) :
    equivLoop mode notEquiv (l ++ rest) = equivLoop mode (notEquiv || !l.isEmpty) rest := by
  induction l generalizing notEquiv with
  | nil => simp
  | cons e l ih =>
    obtain ⟨htag | htag, htail⟩ := forall_mem_cons.mp hl
    · simp [equivLoop, htag, ih htail]
    · simp [equivLoop, htag, ih htail]

theorem mask_mode (u g m o : Entry) :
    (0 ||| u.modeBits <<< 6 ||| g.modeBits <<< 3) &&& ~~~sIrwxg ||| m.modeBits <<< 3 ||| o.modeBits =
      classMode u m o := by
  apply BitVec.eq_of_getLsbD_eq
  intro i hi
  simp only [classMode, Entry.modeBits, sIrwxg, sIrwxo]
  interval_cases i <;> simp

theorem Shape.equivLoop_eq (s : Shape) :
    ∃ notEquiv, equivLoop 0 false s.entries = some (classMode s.userObj s.groupClass s.other, notEquiv) := by
  rw [entries, equivLoop, s.userObj_tag]
  rw [equivLoop_named s.users_named, equivLoop, s.groupObj_tag]
  dsimp only
  rw [tail, equivLoop_named s.groups_named, groupClass]
  cases hmask : s.mask with
  | none =>
    refine ⟨false || !s.users.isEmpty || !s.groups.isEmpty, ?_⟩
    simp [equivLoop, s.other_tag, classMode]
  | some m =>
    refine ⟨true, ?_⟩
    simp only [Option.toList, cons_append, List.nil_append, equivLoop, s.mask_tag m hmask, s.other_tag,
      Option.getD_some]
    exact congrArg (fun mode => some (mode, true)) (mask_mode _ _ _ _)

end Equiv

section Masq

variable {s : Shape} {l : List Entry} {st : Masq} {mode : BitVec 32}

theorem foldlM_create_named (hl : ∀ e ∈ l, e.tag = .user ∨ e.tag = .group) :
    l.foldlM createEntry st = some { st with acl := st.acl ++ l, notEquiv := st.notEquiv || !l.isEmpty } := by
  induction l generalizing st with
  | nil => simp
  | cons e l ih =>
    obtain ⟨htag | htag, htail⟩ := forall_mem_cons.mp hl
    · simp [createEntry, htag, ih htail]
    · simp [createEntry, htag, ih htail]

theorem foldlM_chmod_named (hl : ∀ e ∈ l, e.tag = .user ∨ e.tag = .group) :
    l.foldlM chmodEntry st = some { st with acl := st.acl ++ l } := by
  induction l generalizing st with
  | nil => simp
  | cons e l ih =>
    obtain ⟨htag | htag, htail⟩ := forall_mem_cons.mp hl
    · simp [chmodEntry, htag, ih htail]
    · simp [chmodEntry, htag, ih htail]

theorem modify_append_cons (l₁ l₂ : List Entry) (e : Entry) (f : Entry → Entry) :
    (l₁ ++ e :: l₂).modify l₁.length f = l₁ ++ f e :: l₂ := by
  induction l₁ with
  | nil => rfl
  | cons x l₁ ih => rw [cons_append, length_cons, modify_succ_cons, ih, cons_append]

def Shape.classIndex (s : Shape) : ℕ :=
  if s.mask = none then s.users.length + 1 else s.users.length + 1 + (s.groups.length + 1)

theorem Shape.modify_class (s : Shape) {u o : Entry} (f : Entry → Entry) (hu : u.tag = s.userObj.tag)
    (hf : (f s.groupClass).tag = s.groupClass.tag) (ho : o.tag = s.other.tag) :
    (u :: (s.users ++ s.groupObj :: (s.groups ++ (s.mask.toList ++ [o])))).modify s.classIndex f =
      (s.setClasses u (f s.groupClass) o hu hf ho).entries ∧
    (s.setClasses u (f s.groupClass) o hu hf ho).entries[s.classIndex]? = some (f s.groupClass) := by
  rw [entries_setClasses, classIndex, groupClass]
  cases hmask : s.mask with
  | none =>
    have hmodify := modify_append_cons (u :: s.users) (s.groups ++ [o]) s.groupObj f
    have hget : ((u :: s.users) ++ f s.groupObj :: (s.groups ++ [o]))[(u :: s.users).length]? =
      some (f s.groupObj) := by simp
    exact ⟨hmodify, hget⟩
  | some m =>
    have hmodify := modify_append_cons (u :: (s.users ++ s.groupObj :: s.groups)) [o] m f
    have hget : ((u :: (s.users ++ s.groupObj :: s.groups)) ++ [f m, o])[
      (u :: (s.users ++ s.groupObj :: s.groups)).length]? = some (f m) := by simp
    have hlen : (u :: (s.users ++ s.groupObj :: s.groups)).length =
        s.users.length + 1 + (s.groups.length + 1) := by
      simp only [length_cons, length_append]
      omega
    rw [hlen] at hmodify hget
    simpa using And.intro hmodify hget

theorem Shape.foldlM_create (s : Shape) (mode : BitVec 32) :
    ∃ st, s.entries.foldlM createEntry ⟨[], mode, none, none, false⟩ = some st ∧
      st.groupClass = some s.classIndex ∧
      let u := s.userObj.restrict (mode >>> 6)
      let m₁ := mode &&& (u.perm.setWidth 32 <<< 6 ||| ~~~sIrwxu)
      let o := s.other.restrict m₁
      st.acl = u :: (s.users ++ s.groupObj :: (s.groups ++ (s.mask.toList ++ [o]))) ∧
      st.mode = m₁ &&& (o.perm.setWidth 32 ||| ~~~sIrwxo) := by
  rw [entries, tail, classIndex]
  cases hmask : s.mask with
  | none =>
    simp [foldlM_append, createEntry, s.userObj_tag, s.groupObj_tag, s.other_tag,
      foldlM_create_named s.users_named, foldlM_create_named s.groups_named, Masq.groupClass, Nat.add_comm]
  | some m =>
    simp [foldlM_append, createEntry, s.userObj_tag, s.groupObj_tag, s.other_tag,
      foldlM_create_named s.users_named, foldlM_create_named s.groups_named, Masq.groupClass, s.mask_tag m hmask]
    omega

theorem Shape.foldlM_chmod (s : Shape) (mode : BitVec 32) :
    ∃ st, s.entries.foldlM chmodEntry ⟨[], mode, none, none, false⟩ = some st ∧
      st.groupClass = some s.classIndex ∧
      st.acl = s.userObj.setPerm ((mode &&& sIrwxu) >>> 6) ::
        (s.users ++ s.groupObj :: (s.groups ++ (s.mask.toList ++ [s.other.setPerm (mode &&& sIrwxo)]))) := by
  rw [entries, tail, classIndex]
  cases hmask : s.mask with
  | none =>
    simp [foldlM_append, chmodEntry, s.userObj_tag, s.groupObj_tag, s.other_tag,
      foldlM_chmod_named s.users_named, foldlM_chmod_named s.groups_named, Masq.groupClass, Nat.add_comm]
  | some m =>
    simp [foldlM_append, chmodEntry, s.userObj_tag, s.groupObj_tag, s.other_tag,
      foldlM_chmod_named s.users_named, foldlM_chmod_named s.groups_named, Masq.groupClass, s.mask_tag m hmask]
    omega

end Masq

section Bits

theorem create_bits (u g o : Entry) (mode : BitVec 32) {u' g' o' : Entry} {m₁ m₂ : BitVec 32}
    (hu : u' = u.restrict (mode >>> 6)) (hm₁ : m₁ = mode &&& (u'.perm.setWidth 32 <<< 6 ||| ~~~sIrwxu))
    (ho : o' = o.restrict m₁) (hm₂ : m₂ = m₁ &&& (o'.perm.setWidth 32 ||| ~~~sIrwxo))
    (hg : g' = g.restrict (m₂ >>> 3)) :
    classMode u' g' o' =
      (mode &&& ~~~sIrwxugo ||| m₂ &&& (g'.perm.setWidth 32 <<< 3 ||| ~~~sIrwxg)) &&& sIrwxugo := by
  subst hu hm₁ ho hm₂ hg
  apply BitVec.eq_of_getLsbD_eq
  intro i hi
  simp only [classMode, Entry.modeBits, Entry.restrict, sIrwxo, sIrwxg, sIrwxu, sIrwxugo]
  interval_cases i <;> simp

theorem chmod_bits (u g o : Entry) (mode : BitVec 32) :
    classMode (u.setPerm ((mode &&& sIrwxu) >>> 6)) (g.setPerm ((mode &&& sIrwxg) >>> 3))
      (o.setPerm (mode &&& sIrwxo)) = mode &&& sIrwxugo := by
  apply BitVec.eq_of_getLsbD_eq
  intro i hi
  simp only [classMode, Entry.modeBits, Entry.setPerm, sIrwxo, sIrwxg, sIrwxu, sIrwxugo]
  interval_cases i <;> simp

theorem setPerm_fits (e : Entry) (mode : BitVec 32) :
    (e.setPerm ((mode &&& sIrwxu) >>> 6)).Fits ∧ (e.setPerm ((mode &&& sIrwxg) >>> 3)).Fits ∧
      (e.setPerm (mode &&& sIrwxo)).Fits := by
  refine ⟨?_, ?_, ?_⟩
  all_goals
    apply BitVec.eq_of_getLsbD_eq
    intro i hi
    simp only [Entry.setPerm, sIrwxo, sIrwxg, sIrwxu, rwx]
    interval_cases i <;> simp

end Bits

theorem Shape.equivMode_eq (s : Shape) (w : BitVec 32) : ∃ notEquiv, posixAclEquivMode s.entries w =
    some (w &&& ~~~sIrwxugo ||| classMode s.userObj s.groupClass s.other, notEquiv) := by
  obtain ⟨notEquiv, heq⟩ := s.equivLoop_eq
  exact ⟨notEquiv, by rw [posixAclEquivMode, heq]; rfl⟩

/-- A valid list decides as the rule does, and stays valid and in step with the mode of a new file or of
`chmod`. -/
theorem posixAcl_sound {acl : List Entry} (h : posixAclValid acl = true) :
    (∀ inode who want, posixAclPermission inode who acl want ≠ .eio ∧
      (posixAclPermission inode who acl want = .granted ↔ PosixRule inode who acl want)) ∧
    (∀ mode, ∃ acl' mode' notEquiv, posixAclCreateMasq acl mode = some (acl', mode', notEquiv) ∧
      posixAclValid acl' = true ∧ ∀ w, ∃ notEquiv', posixAclEquivMode acl' w =
        some (w &&& ~~~sIrwxugo ||| mode' &&& sIrwxugo, notEquiv')) ∧
    (∀ mode, ∃ acl', posixAclChmodMasq acl mode = some acl' ∧
      posixAclValid acl' = true ∧ ∀ w, ∃ notEquiv', posixAclEquivMode acl' w =
        some (w &&& ~~~sIrwxugo ||| mode &&& sIrwxugo, notEquiv')) := by
  obtain ⟨s, rfl⟩ := exists_shape h
  have hfits := fits_of_valid h
  have hu := hfits _ (s.mem_entries.mpr (.inl rfl))
  have ho := hfits _ (s.mem_entries.mpr (.inr (.inr (.inr (.inr rfl)))))
  have hg : s.groupClass.Fits := by
    rw [Shape.groupClass]
    cases hmask : s.mask with
    | none => exact hfits _ (s.mem_entries.mpr (.inr (.inr (.inl mem_cons_self))))
    | some m => exact hfits _ (s.mem_entries.mpr (.inr (.inr (.inr (.inl hmask)))))
  refine ⟨fun inode who want => ?_, fun mode => ?_, fun mode => ?_⟩
  · rw [s.permission_eq]
    split_ifs with hrule
    · exact ⟨nofun, fun _ => hrule, fun _ => rfl⟩
    · exact ⟨nofun, nofun, fun hcon => absurd hcon hrule⟩
  · obtain ⟨st, hfold, hclass, hacl, hmode⟩ := s.foldlM_create mode
    obtain ⟨hmodify, hget⟩ := s.modify_class (fun e => e.restrict (st.mode >>> 3))
      (show (s.userObj.restrict (mode >>> 6)).tag = s.userObj.tag from rfl)
      (show (s.groupClass.restrict (st.mode >>> 3)).tag = s.groupClass.tag from rfl)
      (show (s.other.restrict _).tag = s.other.tag from rfl)
    rw [← hacl] at hmodify
    rw [posixAclCreateMasq, hfold]
    dsimp only
    rw [hclass]
    dsimp only
    rw [hmodify, hget]
    refine ⟨_, _, _, rfl, ?_, fun w => ?_⟩
    · exact s.valid_setClasses h ⟨rfl, rfl, hu.restrict _⟩ ⟨rfl, rfl, hg.restrict _⟩ ⟨rfl, rfl, ho.restrict _⟩
    · obtain ⟨notEquiv', heq⟩ := (s.setClasses _ _ _ _ _ _).equivMode_eq w
      refine ⟨notEquiv', heq.trans ?_⟩
      rw [Shape.groupClass_setClasses]
      have hbits := create_bits s.userObj s.groupClass s.other mode rfl rfl rfl hmode rfl
      exact congrArg (fun m => some (w &&& ~~~sIrwxugo ||| m, notEquiv')) hbits
  · obtain ⟨st, hfold, hclass, hacl⟩ := s.foldlM_chmod mode
    obtain ⟨hmodify, -⟩ := s.modify_class (fun e => e.setPerm ((mode &&& sIrwxg) >>> 3))
      (show (s.userObj.setPerm ((mode &&& sIrwxu) >>> 6)).tag = s.userObj.tag from rfl)
      (show (s.groupClass.setPerm ((mode &&& sIrwxg) >>> 3)).tag = s.groupClass.tag from rfl)
      (show (s.other.setPerm (mode &&& sIrwxo)).tag = s.other.tag from rfl)
    rw [← hacl] at hmodify
    rw [posixAclChmodMasq, hfold]
    dsimp only
    rw [hclass, Option.map_some, hmodify]
    refine ⟨_, rfl, ?_, fun w => ?_⟩
    · exact s.valid_setClasses h ⟨rfl, rfl, (setPerm_fits _ mode).1⟩ ⟨rfl, rfl, (setPerm_fits _ mode).2.1⟩
        ⟨rfl, rfl, (setPerm_fits _ mode).2.2⟩
    · obtain ⟨notEquiv', heq⟩ := (s.setClasses _ _ _ _ _ _).equivMode_eq w
      refine ⟨notEquiv', heq.trans ?_⟩
      rw [Shape.groupClass_setClasses]
      have hbits := chmod_bits s.userObj s.groupClass s.other mode
      exact congrArg (fun m => some (w &&& ~~~sIrwxugo ||| m, notEquiv')) hbits

def maskedUser : List Entry :=
  [⟨.userObj, 7, undefinedId⟩, ⟨.user, 6, 5⟩, ⟨.groupObj, 4, undefinedId⟩, ⟨.mask, 4, undefinedId⟩,
    ⟨.other, 0, undefinedId⟩]

theorem posixAcl_sound_maskedUser : posixAclValid maskedUser = true ∧
    ∀ inode who want, posixAclPermission inode who maskedUser want ≠ .eio ∧
      (posixAclPermission inode who maskedUser want = .granted ↔ PosixRule inode who maskedUser want) :=
  ⟨by decide, (posixAcl_sound (by decide)).1⟩

end VDLinux.Fs.Acl
