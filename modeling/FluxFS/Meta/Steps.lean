import FluxFS.Meta.Edits

/-!
# Steps — every request is a sequence of edits

One lemma per operation, each stepping through the operation's code. An
early stop leaves the edits made so far; `Within s₀ o` says that the outcome
`o` was reached from `s₀` by edits.
-/

namespace FluxFS

open Std Kit

variable {now : Clock} {time : Int} {op : MetaOp} {records : Prop} {s₀ s : Tables} {β : Type}
variable {parent : InodeId} {expected expectedOld expectedNew : Option Generation} {name : String}
  {oldKey newKey : NameKey} {destination : Option InodeId}

/-- The outcome's tables are edits away from `s₀`, whichever way it ended. -/
def Within (now : Clock) (op : MetaOp) (records : Prop) (s₀ : Tables)
    (o : Except FluxError β × Tables) : Prop :=
  Edits now op records s₀ o.2

/-! ## Rules for the shared reads and checks -/

section
variable {P : Except FluxError β × Tables → Prop}

theorem outcome_getInodeRaw {id : InodeId} {f : Inode → MetaTxn β} (herr : ∀ e, P (.error e, s))
    (hok : ∀ i, s.inodes.get? id = some i → P (f i s)) : P ((getInodeRaw id >>= f) s) := by
  refine Txn.outcome_query (fun e _ => herr e) fun i hi => hok i ?_
  cases hget : s.inodes.get? id with
  | none => simp [hget] at hi
  | some j =>
    simp only [hget, Except.ok.injEq] at hi
    rw [hi]

theorem getInodeRaw_bind {id : InodeId} {i : Inode} (h : s.inodes.get? id = some i)
    (f : Inode → MetaTxn β) : (getInodeRaw id >>= f) s = f i s :=
  Txn.bind_of_ok (by simp [getInodeRaw, h]) f

theorem outcome_lookupDentry {k : NameKey} {f : InodeId → MetaTxn β}
    (herr : ∀ e, P (.error e, s)) (hok : ∀ child, s.dentries[k]? = some child → P (f child s)) :
    P ((lookupDentry k >>= f) s) := by
  refine Txn.outcome_query (fun e _ => herr e) fun child hchild => hok child ?_
  cases hget : s.dentries[k]? with
  | none => simp [hget] at hchild
  | some c =>
    simp only [hget, Except.ok.injEq] at hchild
    rw [hchild]

theorem outcome_checkVacant {k : NameKey} {f : Unit → MetaTxn β} (herr : ∀ e, P (.error e, s))
    (hok : s.dentries[k]? = none → P (f () s)) : P ((checkVacant k >>= f) s) := by
  refine Txn.outcome_query (fun e _ => herr e) fun _ hvacant => hok ?_
  by_contra hsome
  simp [hsome] at hvacant

theorem outcome_validateDentryName {name : String} {f : Unit → MetaTxn β}
    (herr : ∀ e, P (.error e, s)) (hok : Dentry.validate name = .ok () → P (f () s)) :
    P ((validateDentryName name >>= f) s) :=
  Txn.outcome_query (fun e _ => herr e) fun _ => hok

theorem outcome_checkGeneration {i : Inode} {expected : Generation} {f : Unit → MetaTxn β}
    (herr : ∀ e, P (.error e, s)) (hok : i.generation = expected → P (f () s)) :
    P ((checkGeneration i expected >>= f) s) :=
  Txn.outcome_failIf (fun _ => herr _) fun hc => hok (not_not.mp hc)

theorem outcome_checkOptionalGeneration {i : Inode} {expected : Option Generation}
    {f : Unit → MetaTxn β} (herr : ∀ e, P (.error e, s)) (hok : P (f () s)) :
    P ((checkOptionalGeneration i expected >>= f) s) := by
  cases expected with
  | none => exact hok
  | some expected => exact outcome_checkGeneration herr fun _ => hok

/-- The generation check with what it has checked. -/
theorem outcome_expectGeneration {i : Inode} {expected : Option Generation} {f : Unit → MetaTxn β}
    (herr : ∀ e, P (.error e, s))
    (hok : (∀ generation, expected = some generation → i.generation = generation) → P (f () s)) :
    P ((checkOptionalGeneration i expected >>= f) s) := by
  cases expected with
  | none => exact hok (by simp)
  | some generation =>
    refine Txn.outcome_failIf (fun _ => herr _) fun hsame => hok ?_
    intro g hg
    cases hg
    exact not_not.mp hsame

theorem outcome_query_ok {α : Type} {g : Tables → Except FluxError α} {f : α → MetaTxn β}
    (herr : ∀ e, P (.error e, s)) (hok : ∀ a, g s = .ok a → P (f a s)) :
    P ((Txn.query g >>= f) s) :=
  Txn.outcome_query (fun e _ => herr e) hok

theorem outcome_guard {c : Prop} [Decidable c] {e : FluxError} {f : Unit → MetaTxn β}
    (herr : ∀ e, P (.error e, s)) (hok : ¬ c → P (f () s)) : P ((Txn.failIf c e >>= f) s) :=
  Txn.outcome_failIf (fun _ => herr e) hok

end

theorem touched_bumpDir (time : Int) (dir : Inode) : Touched dir (bumpDir time dir) := rfl

/-- Loading and bumping a parent touches a stored directory. -/
theorem within_bump {f : Inode → MetaTxn β} (h : Edits now op records s₀ s)
    (hok : ∀ dir, s.inodes.get? parent = some dir → dir.fileType = .directory →
      Edits now op records s₀ (s.putInode (bumpDir time dir)) →
      Within now op records s₀ (f (bumpDir time dir) (s.putInode (bumpDir time dir)))) :
    Within now op records s₀ ((loadAndBumpParentDir time parent expected >>= f) s) := by
  simp only [loadAndBumpParentDir, bind_assoc, pure_bind]
  refine outcome_getInodeRaw (fun _ => h) fun dir hdir => ?_
  refine outcome_guard (fun _ => h) fun htype => ?_
  refine outcome_checkOptionalGeneration (fun _ => h) ?_
  have htouch : Edits now op records s₀ (s.putInode (bumpDir time dir)) :=
    h.tail (.touch (Keyed.get?_of_get? hdir) (touched_bumpDir time dir))
  exact hok dir hdir (not_not.mp htype) htouch

/-! ## Entries -/

theorem within_putDentryRow {k : NameKey} {child : InodeId} {f : Unit → MetaTxn β}
    (hlong : k.name.utf8ByteSize > 255 → Edits now op records s₀ s)
    (hok : Within now op records s₀ (f () (s.putDentry k child))) :
    Within now op records s₀ ((putDentryRow k child >>= f) s) := by
  simp only [putDentryRow, bind_assoc]
  refine Txn.outcome_failIf (fun hkey => hlong ?_) (fun _ => hok)
  simp only [dentryKeyLen] at hkey
  omega

theorem isDir_putInode_of_type {dir : Inode} {id : InodeId} (hid : dir.id = id)
    (hdir : dir.fileType = .directory) : (s.putInode dir).IsDir id := by
  refine ⟨dir, ?_, hdir⟩
  rw [← hid]
  exact Keyed.get?_put_self ..

theorem isDir_bumped {dir : Inode} {id : InodeId} (hget : s.inodes.get? id = some dir)
    (hdir : dir.fileType = .directory) : (s.putInode (bumpDir time dir)).IsDir id := by
  have hid : dir.id = id := Keyed.key_of_get? hget
  exact isDir_putInode_of_type hid hdir

/-- The two checks of a new name differ in the length bound only. -/
theorem validate_of_checkNewName
    (hname : ¬ (name.isEmpty ∨ name.toList.contains '/' ∨ name = "." ∨ name = "..")) :
    Dentry.validate name =
      if name.utf8ByteSize > 255 then
        .error (.invalidArg s!"dentry name too long: {name.utf8ByteSize} bytes (NAME_MAX=255)")
      else .ok () := by
  push Not at hname
  obtain ⟨hempty, hslash, hdot, hdotdot⟩ := hname
  rw [Dentry.validate, if_neg hempty, if_neg hslash, if_neg (not_or.mpr ⟨hdot, hdotdot⟩)]

theorem validate_of_short
    (hname : ¬ (name.isEmpty ∨ name.toList.contains '/' ∨ name = "." ∨ name = ".."))
    (hshort : name.utf8ByteSize ≤ 255) : Dentry.validate name = .ok () := by
  rw [validate_of_checkNewName hname, if_neg (Nat.not_lt.mpr hshort)]

/-- The inherited ACL rows belong to a stored inode. -/
theorem inheritAcl_edits {id : InodeId} {fileType : FileType} {acl : Option Bytes} {i : Inode}
    (hop : op.putsXattrs = true) (h : Edits now op records s₀ s)
    (hstored : s.inodes.get? id = some i) :
    Edits now op records s₀ (inheritAcl id fileType acl s) := by
  cases acl with
  | none => exact h
  | some acl =>
    have haccess : Edits now op records s₀ { s with xattrs := s.xattrs.insert ⟨id, accessAcl⟩ acl } :=
      h.tail (.putXattr (k := ⟨id, accessAcl⟩) hstored hop)
    by_cases hdir : fileType = .directory
    · simp only [inheritAcl, if_pos hdir]
      exact haccess.tail (.putXattr (k := ⟨id, defaultAcl⟩) hstored hop)
    · simpa only [inheritAcl, if_neg hdir] using haccess

theorem createNode_edits {fileType : FileType} {mode uid gid : Nat} {target : Option String}
    (hname : name ∈ op.names) (hshort : op.shortNewName = true → name.utf8ByteSize ≤ 255)
    (hputs : op.putsXattrs = true) (htarget : fileType ≠ .symlink → target = none) :
    Within now op records s
      (createNodeInTxn now expected parent name fileType mode uid gid target s) := by
  simp only [createNodeInTxn, allocInode, bind_assoc, pure_bind]
  refine outcome_guard (fun _ => .refl) fun hnew => ?_
  refine outcome_checkVacant (fun _ => .refl) fun hvacant => ?_
  refine within_bump .refl fun dir hdir htype hbumped => ?_
  refine Txn.outcome_reads (Txn.outcome_reads (Txn.outcome_modify (Txn.outcome_modify ?_)))
  let u := s.putInode (bumpDir now.parent dir)
  have hborn : Born now op u (newInode u.nextInode fileType mode uid gid target now.inode) :=
    .created fileType mode uid gid target htarget
  refine within_putDentryRow (fun hlong => hbumped.tail (.addOrphan hname hlong hborn)) ?_
  have hadded : Edits now op records s ((u.addInode (newInode u.nextInode fileType mode uid gid target
      now.inode)).putDentry ⟨parent, name⟩ u.nextInode) :=
    hbumped.tail (.addEntry hvacant (isDir_bumped hdir htype) hborn fun h =>
      validate_of_short hnew (hshort h))
  exact inheritAcl_edits hputs hadded (Keyed.get?_put_self ..)

theorem symlink_edits {target : String} {uid gid : Nat} (hname : name ∈ op.names)
    (hshort : op.shortNewName = true → name.utf8ByteSize ≤ 255) (hputs : op.putsXattrs = true) :
    Within now op records s (symlinkInTxn now expected parent name target uid gid s) := by
  refine outcome_guard (fun _ => .refl) fun _ => ?_
  refine outcome_guard (fun _ => .refl) fun _ => ?_
  exact createNode_edits hname hshort hputs fun hfile => absurd rfl hfile

theorem link_edits {inode newParent : InodeId} {newName : String} :
    Within now op records s (linkInTxn now expected inode newParent newName s) := by
  refine outcome_validateDentryName (fun _ => .refl) fun hvalid => ?_
  refine outcome_checkVacant (fun _ => .refl) fun hvacant => ?_
  refine outcome_getInodeRaw (fun _ => .refl) fun source hsource => ?_
  refine outcome_guard (fun _ => .refl) fun hfile => ?_
  refine outcome_guard (fun _ => .refl) fun hlinked => ?_
  refine within_bump .refl fun dir hdir htype hbumped => ?_
  refine outcome_guard (fun _ => hbumped) fun _ => ?_
  refine Txn.outcome_modify ?_
  -- a file is not its own parent directory, so the bump left it alone
  have hne : (bumpDir now.parent dir).id ≠ inode := by
    intro heq
    have hid : dir.id = inode := heq
    rw [← hid, Keyed.get?_of_get? hdir] at hsource
    cases hsource
    exact hfile htype
  have hkept : (s.putInode (bumpDir now.parent dir)).inodes.get? source.id = some source := by
    rw [Keyed.key_of_get? hsource]
    exact (Keyed.get?_put_of_ne _ hne).trans hsource
  refine within_putDentryRow (fun hlong => ?_) ?_
  · exact absurd (Dentry.length_le_of_validate hvalid) (Nat.not_le.mpr hlong)
  · exact hbumped.tail (.linkEntry hvacant (isDir_bumped hdir htype) hkept hfile hlinked hvalid)

/-- The writes of an import, once its record is settled. -/
theorem importEntry_edits {k : NameKey} {i : Inode} (h : Edits now op records s₀ s)
    (hname : k.name ∈ op.names)
    (hvalid : op.shortNewName = true → Dentry.validate k.name = .ok ())
    (hvacant : s.dentries[k]? = none) (hparent : s.IsDir k.owner) (hborn : Born now op s i) :
    Within now op records s₀
      ((do
        Txn.modify (·.putInode i)
        putDentryRow k i.id
        pure i : MetaTxn Inode) { s with nextInode := s.nextInode + 1 }) := by
  refine Txn.outcome_modify ?_
  refine within_putDentryRow (fun hlong => h.tail (.addOrphan hname hlong hborn)) ?_
  exact h.tail (.addEntry hvacant hparent hborn hvalid)

theorem import_edits {template : Inode} {manifest : Option Manifest}
    (hop : op = .importExternal parent name template manifest expected) :
    Within now op records s (importExternalInTxn now expected parent name template manifest s) := by
  have hname : name ∈ op.names := by simp [hop, MetaOp.names]
  simp only [importExternalInTxn, allocInode, bind_assoc, pure_bind]
  refine outcome_guard (fun _ => .refl) fun hnew => ?_
  have hvalid : op.shortNewName = true → Dentry.validate name = .ok () := by
    rw [hop]
    exact fun h => validate_of_short hnew (of_decide_eq_true h)
  refine outcome_guard (fun _ => .refl) fun _ => ?_
  refine outcome_checkVacant (fun _ => .refl) fun hvacant => ?_
  refine within_bump .refl fun dir hdir htype hbumped => ?_
  refine Txn.outcome_reads (Txn.outcome_modify ?_)
  have hparent : (s.putInode (bumpDir now.parent dir)).IsDir parent := isDir_bumped hdir htype
  have hvacant' : (s.putInode (bumpDir now.parent dir)).dentries[NameKey.mk parent name]? = none :=
    hvacant
  generalize s.putInode (bumpDir now.parent dir) = u at hbumped hparent hvacant' ⊢
  cases manifest with
  | none =>
    exact importEntry_edits (k := ⟨parent, name⟩) hbumped hname hvalid hvacant' hparent
      (.imported hop)
  | some manifest =>
    have hskipped := hbumped.tail (.skipInode _)
    simp only [importManifest, putManifestInTxn, bind_assoc, pure_bind]
    refine outcome_query_ok (fun _ => hskipped) fun _ _ => ?_
    refine outcome_query_ok (fun _ => hskipped) fun _ _ => ?_
    refine Txn.outcome_reads (Txn.outcome_modify ?_)
    have hadded := hbumped.tail (.addManifest _ { manifest with inode := u.nextInode })
    exact importEntry_edits (k := ⟨parent, name⟩) hadded hname hvalid hvacant' hparent
      (.importedData hop (by simp [Tables.addManifest]))

/-! ## Removal -/

/-- `t` is `s` without the entry `k`, and at most the inode `child` differs. -/
structure Detached (s : Tables) (k : NameKey) (child : InodeId) (t : Tables) : Prop where
  dentries_eq : t.dentries = s.dentries.erase k
  inodes_eq : ∀ id, id ≠ child → t.inodes.get? id = s.inodes.get? id
  isDir_imp : t.IsDir child → s.IsDir child

theorem detached_deleteInode {k : NameKey} {child : InodeId} :
    Detached s k child ((s.eraseDentry k).deleteInode child) where
  dentries_eq := rfl
  inodes_eq _ hne := Keyed.get?_delete_of_ne _ (Ne.symm hne)
  isDir_imp := by
    rintro ⟨i, hi, -⟩
    simp [Tables.deleteInode] at hi

theorem detached_dropLink {k : NameKey} {child : Inode}
    (hchild : s.inodes.get? child.id = some child) :
    Detached s k child.id ((s.eraseDentry k).putInode (dropLink time child)) where
  dentries_eq := rfl
  inodes_eq _ hne := Keyed.get?_put_of_ne _ (fun heq => hne heq.symm)
  isDir_imp := by
    rintro ⟨i, hi, hdir⟩
    have hput : ((s.eraseDentry k).putInode (dropLink time child)).inodes.get? child.id =
        some (dropLink time child) := Keyed.get?_put_self _ (dropLink time child)
    cases hput.symm.trans hi
    exact ⟨child, hchild, hdir⟩

/-- Dropping a file's entry and link detaches it, whichever way it ends. -/
theorem removeInodeLink_edits {k : NameKey} {child : Inode} (h : Edits now op records s₀ s)
    (hentry : s.dentries[k]? = some child.id) (hchild : s.inodes.get? child.id = some child)
    (hfile : child.fileType ≠ .directory)
    (hfault : child.linkCount = 0 ∨ u64Max ≤ child.generation → s₀.LinkFault) :
    Within now op records s₀ (removeInodeLinkInTxn now.unlinked child (s.eraseDentry k)) ∧
      Detached s k child.id (removeInodeLinkInTxn now.unlinked child (s.eraseDentry k)).2 := by
  have hbare : Detached s k child.id (s.eraseDentry k) := ⟨rfl, fun _ _ => rfl, id⟩
  refine Txn.outcome_failIf (P := fun o => Within now op records s₀ o ∧ Detached s k child.id o.2)
    (fun hzero => ⟨h.tail (.eraseEntry (hfault (.inl hzero))), hbare⟩) fun hlinked => ?_
  refine Txn.outcome_failIf (P := fun o => Within now op records s₀ o ∧ Detached s k child.id o.2)
    (fun hover => ⟨h.tail (.eraseEntry (hfault (.inr (Nat.le_of_lt_succ hover)))), hbare⟩)
    fun hgen => ?_
  rw [Txn.reads_bind_run,
    show (s.eraseDentry k).hasOpenPresence child.id = s.hasOpenPresence child.id from rfl]
  by_cases hreap : (dropLink now.unlinked child).linkCount = 0 ∧ s.hasOpenPresence child.id = false
  · have hlast : child.linkCount = 1 := by
      have hdrop : child.linkCount - 1 = 0 := hreap.1
      omega
    rw [if_pos hreap]
    exact ⟨h.tail (.reapEntry hentry hchild hfile hlast hreap.2), detached_deleteInode⟩
  · have hkeep : (dropLink now.unlinked child).linkCount ≠ 0 ∨ s.hasOpenPresence child.id =
      true := by
      rcases not_and_or.mp hreap with hcount | hopen
      · exact .inl hcount
      · exact .inr (by simpa using hopen)
    rw [if_neg hreap]
    exact ⟨h.tail (.unlinkEntry hentry hchild hfile hlinked (Nat.not_lt.mp hgen) hkeep),
      detached_dropLink hchild⟩

/-- A bump of a directory leaves the other inodes alone. -/
theorem get_bumped_of_ne {dir : Inode} {id : InodeId} (hdir : s.inodes.get? parent = some dir)
    (hne : id ≠ parent) : (s.putInode (bumpDir time dir)).inodes.get? id = s.inodes.get? id := by
  refine Keyed.get?_put_of_ne _ ?_
  have hid : dir.id = parent := Keyed.key_of_get? hdir
  intro heq
  exact hne (heq.symm.trans hid)

theorem ne_of_file_of_dir {dir child : Inode} {id : InodeId}
    (hdir : s.inodes.get? parent = some dir) (htype : dir.fileType = .directory)
    (hchild : s.inodes.get? id = some child) (hfile : child.fileType ≠ .directory) :
    id ≠ parent := by
  rintro rfl
  cases hdir.symm.trans hchild
  exact hfile htype

theorem unlink_edits : Within now op records s (unlinkInTxn now expected parent name s) := by
  refine outcome_lookupDentry (fun _ => .refl) fun childId hentry => ?_
  refine outcome_getInodeRaw (fun _ => .refl) fun child hchild => ?_
  refine outcome_guard (fun _ => .refl) fun hfile => ?_
  refine within_bump .refl fun dir hdir htype hbumped => ?_
  refine Txn.outcome_modify ?_
  obtain rfl : child.id = childId := Keyed.key_of_get? hchild
  have hne := ne_of_file_of_dir hdir htype hchild hfile
  refine (removeInodeLink_edits hbumped hentry ?_ hfile
    fun hbad => ⟨⟨parent, name⟩, child, hentry, hchild, hfile, hbad⟩).1
  rw [get_bumped_of_ne hdir hne]
  exact hchild

theorem rmdir_edits : Within now op records s (rmdirInTxn now expected parent name s) := by
  refine outcome_lookupDentry (fun _ => .refl) fun childId hentry => ?_
  refine outcome_getInodeRaw (fun _ => .refl) fun child hchild => ?_
  refine outcome_guard (fun _ => .refl) fun htype => ?_
  refine Txn.outcome_reads ?_
  refine outcome_guard (fun _ => .refl) fun hpopulated => ?_
  refine within_bump .refl fun dir hdir _ hbumped => ?_
  refine Txn.outcome_modify ?_
  obtain rfl : child.id = childId := Keyed.key_of_get? hchild
  -- an empty directory has no entry for itself
  have hne : child.id ≠ parent := by
    intro heq
    rw [heq] at hpopulated hentry
    exact hpopulated (Tables.directoryHasChildren_iff.mpr ⟨name, parent, hentry⟩)
  have hempty : (s.putInode (bumpDir now.parent dir)).directoryHasChildren child.id = false :=
    Bool.not_eq_true _ ▸ hpopulated
  refine hbumped.tail (.removeDir hentry ?_ (not_not.mp htype) hempty)
  rw [get_bumped_of_ne hdir hne]
  exact hchild

/-! ## Rename -/

section
variable {P : Except FluxError β × Tables → Prop}

theorem outcome_checkNotBelow {source : Inode} {newParent : InodeId} {f : Unit → MetaTxn β}
    (herr : ∀ e, P (.error e, s))
    (hok : (source.fileType = .directory → inodeIsDescendant s source.id newParent = .ok false) →
      P (f () s)) : P ((checkNotBelow source newParent >>= f) s) := by
  unfold checkNotBelow
  split
  · rw [bind_assoc]
    refine outcome_query_ok herr fun below hbelow => ?_
    refine outcome_guard herr fun hnot => hok fun _ => ?_
    have hfalse : below = false := by simpa using hnot
    rw [hbelow, hfalse]
  · rename_i hfile
    exact hok fun hdir => absurd hdir hfile

theorem outcome_checkReplace {source : Inode} {destination : Option InodeId} {f : Unit → MetaTxn β}
    (herr : ∀ e, P (.error e, s))
    (hok : (∀ id, destination = some id → ∃ i, s.inodes.get? id = some i ∧
      (source.fileType = .directory ↔ i.fileType = .directory) ∧
      (i.fileType = .directory → s.directoryHasChildren id = false)) → P (f () s)) :
    P ((checkReplace source destination >>= f) s) := by
  cases destination with
  | none => exact hok (by simp)
  | some id =>
    simp only [checkReplace, bind_assoc]
    refine outcome_getInodeRaw herr fun i hi => ?_
    refine outcome_guard herr fun hnotDir => ?_
    refine outcome_guard herr fun hisDir => ?_
    refine Txn.outcome_reads (outcome_guard herr fun hempty => hok ?_)
    intro id' hid'
    cases hid'
    have hsame : source.fileType = .directory ↔ i.fileType = .directory := by tauto
    refine ⟨i, hi, hsame, fun hdir => ?_⟩
    simpa [hsame.mpr hdir] using hempty

end

/-- A stored directory of the generation the request expects. -/
structure ParentAdmitted (s : Tables) (expected : Option Generation) (parent : InodeId)
    (dir : Inode) : Prop where
  stored : s.inodes.get? parent = some dir
  isDir : dir.fileType = .directory
  expected : ∀ generation, expected = some generation → dir.generation = generation

/-- The names are valid, the source is there and both parents are as expected. -/
structure RenameAdmitted (s : Tables) (expectedOld : Option Generation) (oldKey : NameKey)
    (expectedNew : Option Generation) (newKey : NameKey) (source : Inode) : Prop where
  oldName : Dentry.validate oldKey.name = .ok ()
  newName : Dentry.validate newKey.name = .ok ()
  entry : s.dentries[oldKey]? = some source.id
  stored : s.inodes.get? source.id = some source
  oldParent : ∃ dir, ParentAdmitted s expectedOld oldKey.owner dir
  newParent : ∃ dir, ParentAdmitted s expectedNew newKey.owner dir

/-- What `rename_in_txn` has checked when it starts to write. -/
structure RenameChecked (s : Tables) (oldKey newKey : NameKey) (source : Inode)
    (destination : Option InodeId) : Prop where
  newName : Dentry.validate newKey.name = .ok ()
  entry : s.dentries[oldKey]? = some source.id
  stored : s.inodes.get? source.id = some source
  oldParent : s.IsDir oldKey.owner
  newParent : s.IsDir newKey.owner
  moved : oldKey ≠ newKey
  below : source.fileType = .directory →
    inodeIsDescendant s source.id newKey.owner = .ok false
  at_new : s.dentries[newKey]? = destination
  other : destination ≠ some source.id
  replaced : ∀ id, destination = some id → ∃ i, s.inodes.get? id = some i ∧
    (source.fileType = .directory ↔ i.fileType = .directory) ∧
    (i.fileType = .directory → s.directoryHasChildren id = false)

/-- What the checks of `rename_in_txn` answer; nothing is written. -/
inductive ChecksRename (s : Tables) (expectedOld : Option Generation) (oldKey : NameKey)
    (expectedNew : Option Generation) (newKey : NameKey) (noReplace : Bool) :
    Except FluxError (Inode × Option (Option InodeId)) × Tables → Prop
  | refused (e : FluxError) :
      ChecksRename s expectedOld oldKey expectedNew newKey noReplace (.error e, s)
  /-- Both names are one inode's. -/
  | nothing {source : Inode}
      (hadmitted : RenameAdmitted s expectedOld oldKey expectedNew newKey source)
      (hsame : oldKey = newKey ∨ s.dentries[newKey]? = some source.id) :
      ChecksRename s expectedOld oldKey expectedNew newKey noReplace (.ok (source, none), s)
  | passed {source : Inode} {destination : Option InodeId}
      (hadmitted : RenameAdmitted s expectedOld oldKey expectedNew newKey source)
      (hchecked : RenameChecked s oldKey newKey source destination)
      (hfree : destination ≠ none → noReplace = false) :
      ChecksRename s expectedOld oldKey expectedNew newKey noReplace
        (.ok (source, some destination), s)

section
variable {noReplace : Bool}

theorem renameChecks_spec : ChecksRename s expectedOld oldKey expectedNew newKey noReplace
    (renameChecks expectedOld oldKey expectedNew newKey noReplace s) := by
  refine outcome_validateDentryName .refused fun holdName => ?_
  refine outcome_validateDentryName .refused fun hnewName => ?_
  refine outcome_lookupDentry .refused fun sourceId hentry => ?_
  refine outcome_getInodeRaw .refused fun source hsource => ?_
  refine outcome_getInodeRaw .refused fun oldDir holdDir => ?_
  refine outcome_getInodeRaw .refused fun newDir hnewDir => ?_
  refine outcome_guard .refused fun hdirs => ?_
  refine outcome_expectGeneration .refused fun holdGen => ?_
  refine outcome_expectGeneration .refused fun hnewGen => ?_
  obtain rfl : source.id = sourceId := Keyed.key_of_get? hsource
  obtain ⟨holdType, hnewType⟩ : oldDir.fileType = .directory ∧ newDir.fileType = .directory := by
    simpa [not_or] using hdirs
  have hadmitted : RenameAdmitted s expectedOld oldKey expectedNew newKey source :=
    ⟨holdName, hnewName, hentry, hsource, ⟨oldDir, holdDir, holdType, holdGen⟩,
      ⟨newDir, hnewDir, hnewType, hnewGen⟩⟩
  by_cases hmoved : oldKey = newKey
  · rw [if_pos hmoved]
    exact .nothing hadmitted (.inl hmoved)
  rw [if_neg hmoved]
  refine outcome_checkNotBelow .refused fun hbelow => ?_
  refine Txn.outcome_reads (outcome_guard .refused fun hfree => ?_)
  by_cases hsame : s.dentries[newKey]? = some source.id
  · rw [if_pos hsame]
    exact .nothing hadmitted (.inr hsame)
  rw [if_neg hsame]
  refine outcome_checkReplace .refused fun hreplaced => .passed hadmitted
    ⟨hnewName, hentry, hsource, ⟨_, holdDir, holdType⟩, ⟨_, hnewDir, hnewType⟩, hmoved, hbelow, rfl,
      hsame, hreplaced⟩ fun hsome => ?_
  rw [not_and, Bool.not_eq_true, Option.isSome_eq_false_iff, Option.isNone_iff_eq_none] at hfree
  exact Bool.eq_false_iff.mpr fun htrue => hsome (hfree htrue)

/-- A rename is refused by its checks, has nothing to do, or makes its writes. -/
theorem outcome_rename {P : Except FluxError Inode × Tables → Prop} (herr : ∀ e, P (.error e, s))
    (hnothing : ∀ source, RenameAdmitted s expectedOld oldKey expectedNew newKey source →
      oldKey = newKey ∨ s.dentries[newKey]? = some source.id → P (.ok source, s))
    (hwrites : ∀ source destination, RenameAdmitted s expectedOld oldKey expectedNew newKey source →
      RenameChecked s oldKey newKey source destination → (destination ≠ none → noReplace = false) →
      P (renameWrites now expectedOld oldKey expectedNew newKey source destination s)) :
    P (renameInTxn now expectedOld oldKey expectedNew newKey noReplace s) := by
  have hchecks : ChecksRename s expectedOld oldKey expectedNew newKey noReplace _ :=
    renameChecks_spec
  refine Txn.outcome_bind (fun e t hrun => ?_) (fun checked t hrun => ?_)
  · rw [hrun] at hchecks
    cases hchecks
    exact herr e
  · rw [hrun] at hchecks
    cases hchecks with
    | nothing hadmitted hsame => exact hnothing _ hadmitted hsame
    | passed hadmitted hchecked hfree => exact hwrites _ _ hadmitted hchecked hfree

end

/-! ### The subtree search -/

theorem scan_push {candidate : InodeId} {children pushed next : List InodeId}
    (h : visitDirectory.scan s candidate children pushed = .ok (.push next)) :
    candidate ∉ children ∧ (∀ child ∈ children, s.IsDir child → child ∈ next) ∧
      (∀ child ∈ pushed, child ∈ next) ∧ next.length ≤ pushed.length + children.length := by
  induction children generalizing pushed with
  | nil =>
    simp only [visitDirectory.scan, Except.ok.injEq, Visit.push.injEq] at h
    subst h
    simp
  | cons child children ih =>
    rw [visitDirectory.scan] at h
    split at h
    · cases h
    · rename_i hne
      split at h
      · cases h
      · rename_i i hi
        split at h
        · obtain ⟨hnot, hin, hpushed, hlen⟩ := ih h
          refine ⟨by simp [Ne.symm hne, hnot], ?_, ?_, ?_⟩
          · intro c hc hdir
            rcases List.mem_cons.mp hc with rfl | hc
            · exact hpushed c (by simp)
            · exact hin c hc hdir
          · exact fun c hc => hpushed c (by simp [hc])
          · simp only [List.length_append, List.length_cons, List.length_nil] at hlen ⊢
            omega
        · rename_i hfile
          obtain ⟨hnot, hin, hpushed, hlen⟩ := ih h
          refine ⟨by simp [Ne.symm hne, hnot], ?_, hpushed, ?_⟩
          · intro c hc hdir
            rcases List.mem_cons.mp hc with rfl | hc
            · obtain ⟨j, hj, hjdir⟩ := hdir
              cases hi.symm.trans hj
              exact absurd hjdir hfile
            · exact hin c hc hdir
          · simp only [List.length_cons]
            omega

theorem visitDirectory_push {candidate dir : InodeId} {next : List InodeId}
    (h : visitDirectory s candidate dir = .ok (.push next)) :
    candidate ∉ s.childrenOf dir ∧ (∀ child ∈ s.childrenOf dir, s.IsDir child → child ∈ next) ∧
      next.length ≤ (s.childrenOf dir).length := by
  obtain ⟨hnot, hin, -, hlen⟩ := scan_push h
  exact ⟨hnot, hin, by simpa using hlen⟩

/-- The search over the directory entries never runs out of fuel. -/
theorem visitDirectory_search_isSome (candidate ancestor : InodeId) :
    (search (visitDirectory s candidate) (s.dentries.size + 2) [ancestor] []).isSome := by
  let edges := s.dentries.toList.map (fun row => (row.1.owner, row.2))
  have hedges : ∀ dir next, visitDirectory s candidate dir = .ok (.push next) →
      next.length ≤ edges.countP (fun e => e.1 = dir) := by
    intro dir next hpush
    refine (visitDirectory_push hpush).2.2.trans (Nat.le_of_eq ?_)
    rw [Tables.childrenOf, List.length_map, List.countP_map, List.countP_eq_length_filter]
    rfl
  refine search_isSome hedges ?_
  have hle : edges.countP (fun e => e.1 ∉ ([] : List InodeId)) ≤ edges.length :=
    List.countP_le_length
  have hlen : edges.length = s.dentries.size := by
    rw [List.length_map, ExtTreeMap.length_toList]
  simp only [List.length_cons, List.length_nil]
  omega

/-- The subtree search is exact on directories: when it finds nothing, no path of
directory entries leads there. -/
theorem not_below_of_inodeIsDescendant {ancestor candidate : InodeId}
    (h : inodeIsDescendant s ancestor candidate = .ok false) :
    ¬ Relation.ReflTransGen s.DirChild ancestor candidate := by
  unfold inodeIsDescendant at h
  split at h
  · cases h
  rename_i hne
  obtain ⟨result, hresult⟩ := Option.isSome_iff_exists.mp
    (visitDirectory_search_isSome (s := s) candidate ancestor)
  rw [hresult, Option.getD_some] at h
  subst h
  intro hpath
  rcases Relation.ReflTransGen.cases_tail hpath with heq | ⟨dir, hdir, ⟨name, hentry⟩, -⟩
  · exact hne heq.symm
  · have hreach : Relation.ReflTransGen (Pushes (visitDirectory s candidate)) ancestor dir := by
      clear hentry hpath
      induction hdir with
      | refl => exact .refl
      | tail _ hstep ih =>
        obtain ⟨⟨name, hentry⟩, hisDir⟩ := hstep
        obtain ⟨next, hnext⟩ := of_search_false hresult ih
        have hchild := (visitDirectory_push hnext).2.1 _
          (Tables.mem_childrenOf.mpr ⟨name, hentry⟩) hisDir
        exact ih.tail ⟨next, hnext, hchild⟩
    obtain ⟨next, hnext⟩ := of_search_false hresult hreach
    exact (visitDirectory_push hnext).1 (Tables.mem_childrenOf.mpr ⟨name, hentry⟩)

/-! ### The writes -/

/-- `t` has the entries of `s`, and at most `dirs` were bumped. -/
structure Bumped (s : Tables) (dirs : List InodeId) (t : Tables) : Prop where
  dentries_eq : t.dentries = s.dentries
  inodes_eq : ∀ id, id ∉ dirs → t.inodes.get? id = s.inodes.get? id
  isDir_iff : ∀ id, t.IsDir id ↔ s.IsDir id

theorem isDir_putInode_iff {old new : Inode} (hold : s.inodes.get? old.id = some old)
    (hid : new.id = old.id) (htype : new.fileType = old.fileType) (id : InodeId) :
    (s.putInode new).IsDir id ↔ s.IsDir id := by
  unfold Tables.IsDir Tables.putInode
  rw [Keyed.get?_put]
  split
  · rename_i heq
    have hstored : s.inodes.get? id = some old := by rw [← heq, hid, hold]
    simp [hstored, htype]
  · rfl

theorem bumped_bumpDir {dir : Inode} (hdir : s.inodes.get? parent = some dir) :
    Bumped s [parent] (s.putInode (bumpDir time dir)) where
  dentries_eq := rfl
  inodes_eq id hid := get_bumped_of_ne hdir (by simpa using hid)
  isDir_iff := isDir_putInode_iff (Keyed.get?_of_get? hdir) rfl rfl

theorem Bumped.trans {t u : Tables} {ds es : List InodeId} (h : Bumped s ds t)
    (h' : Bumped t es u) : Bumped s (ds ++ es) u where
  dentries_eq := h'.dentries_eq.trans h.dentries_eq
  inodes_eq id hid := by
    simp only [List.mem_append, not_or] at hid
    exact (h'.inodes_eq id hid.2).trans (h.inodes_eq id hid.1)
  isDir_iff id := (h'.isDir_iff id).trans (h.isDir_iff id)

theorem outcome_bumpNewParent {oldParent newParent : InodeId} {f : Unit → MetaTxn β}
    (h : Edits now op records s₀ s)
    (hok : ∀ t, Edits now op records s₀ t → Bumped s [newParent] t → Within now op records s₀ (f () t)) :
    Within now op records s₀ ((bumpNewParent time oldParent newParent expected >>= f) s) := by
  unfold bumpNewParent
  split
  · rw [bind_assoc]
    refine within_bump h fun dir hdir _ hbumped => ?_
    exact hok _ hbumped (bumped_bumpDir hdir)
  · exact hok s h ⟨rfl, fun _ _ => rfl, fun _ => Iff.rfl⟩

/-- The state a rename moves its entry in: the destination is gone. -/
structure Vacated (s : Tables) (newKey : NameKey) (destination : Option InodeId) (t : Tables) :
    Prop where
  vacant : t.dentries[newKey]? = none
  dentries_eq : ∀ k, k ≠ newKey → t.dentries[k]? = s.dentries[k]?
  inodes_eq : ∀ id, destination ≠ some id → t.inodes.get? id = s.inodes.get? id
  isDir_imp : ∀ id, t.IsDir id → s.IsDir id

theorem Detached.vacated {t : Tables} {k : NameKey} {child : InodeId} (h : Detached s k child t) :
    Vacated s k (some child) t where
  vacant := by simp [h.dentries_eq]
  dentries_eq a ha := by rw [h.dentries_eq, Table.get_erase, if_neg (Ne.symm ha)]
  inodes_eq id hid := h.inodes_eq id (fun heq => hid (heq ▸ rfl))
  isDir_imp id hdir := by
    by_cases hid : id = child
    · subst hid
      exact h.isDir_imp hdir
    · obtain ⟨i, hi, htype⟩ := hdir
      exact ⟨i, (h.inodes_eq id hid) ▸ hi, htype⟩

theorem outcome_removeDestination {f : Unit → MetaTxn β} (h : Edits now op records s₀ s)
    (hat : s.dentries[newKey]? = destination)
    (hempty : ∀ id, destination = some id → s.IsDir id → s.directoryHasChildren id = false)
    (hok : ∀ t, Edits now op records s₀ t → Vacated s newKey destination t →
      Within now op records s₀ (f () t))
    (hstored : ∀ id, destination = some id → ∃ i, s.inodes.get? id = some i)
    (hfault : ∀ i : Inode, destination = some i.id → s.inodes.get? i.id = some i →
      i.fileType ≠ .directory → i.linkCount = 0 ∨ u64Max ≤ i.generation → s₀.LinkFault) :
    Within now op records s₀ ((removeDestination now.unlinked newKey destination >>= f) s) := by
  cases destination with
  | none => exact hok s h ⟨hat, fun _ _ => rfl, fun _ _ => rfl, fun _ => id⟩
  | some id =>
    obtain ⟨i, hi⟩ := hstored id rfl
    obtain rfl : i.id = id := Keyed.key_of_get? hi
    simp only [removeDestination, bind_assoc]
    refine Txn.outcome_modify ?_
    rw [getInodeRaw_bind (s := s.eraseDentry newKey) hi]
    by_cases hdir : i.fileType = .directory
    · rw [if_pos hdir]
      have hremoved := h.tail (.removeDir hat hi hdir (hempty _ rfl ⟨i, hi, hdir⟩))
      exact hok _ hremoved detached_deleteInode.vacated
    · rw [if_neg hdir]
      obtain ⟨hwithin, hdetached⟩ := removeInodeLink_edits h hat hi hdir
        (hfault i rfl hi hdir)
      refine Txn.outcome_bind (fun e t hrun => ?_) (fun _ t hrun => ?_)
      · rw [hrun] at hwithin
        exact hwithin
      · rw [hrun] at hwithin hdetached
        exact hok t hwithin hdetached.vacated

/-- The source of a rename is neither of the two parents. -/
theorem RenameChecked.source_ne {source : Inode}
    (hc : RenameChecked s oldKey newKey source destination) (hself : s.NoSelfEntry) :
    source.id ≠ oldKey.owner ∧ source.id ≠ newKey.owner := by
  refine ⟨hself oldKey source.id hc.entry, fun heq => ?_⟩
  obtain ⟨parent, hparent, htype⟩ := hc.newParent
  by_cases hdir : source.fileType = .directory
  · refine not_below_of_inodeIsDescendant (hc.below hdir) ?_
    rw [heq]
  · exact ne_of_file_of_dir hparent htype hc.stored hdir heq

/-- What is replaced is neither the source nor the new parent. -/
theorem RenameChecked.destination_ne {source : Inode}
    (hc : RenameChecked s oldKey newKey source destination) : destination ≠ some newKey.owner := by
  intro heq
  obtain ⟨i, hi, -, hempty⟩ := hc.replaced _ heq
  obtain ⟨parent, hparent, htype⟩ := hc.newParent
  cases hparent.symm.trans hi
  have hpopulated : s.directoryHasChildren newKey.owner = true :=
    Tables.directoryHasChildren_iff.mpr ⟨newKey.name, newKey.owner, hc.at_new.trans heq⟩
  rw [hempty htype] at hpopulated
  cases hpopulated

theorem renameWrites_edits {source : Inode} (hself : s.NoSelfEntry)
    (hc : RenameChecked s oldKey newKey source destination) : Within now op records s
      (renameWrites now expectedOld oldKey expectedNew newKey source destination s) := by
  obtain ⟨hneOld, hneNew⟩ := hc.source_ne hself
  refine within_bump .refl fun dir hdir _ hbumped => ?_
  refine outcome_bumpNewParent hbumped fun u hu hbump => ?_
  have hb : Bumped s [oldKey.owner, newKey.owner] u := (bumped_bumpDir hdir).trans hbump
  refine outcome_removeDestination hu (hb.dentries_eq ▸ hc.at_new) ?_ (fun t ht hv => ?_) ?_ ?_
  · intro id hid hisDir
    obtain ⟨i, hi, -, hempty⟩ := hc.replaced id hid
    obtain ⟨j, hj, htype⟩ := (hb.isDir_iff id).mp hisDir
    cases hj.symm.trans hi
    have hsame : u.directoryHasChildren id = s.directoryHasChildren id := by
      simp only [Tables.directoryHasChildren, hb.dentries_eq]
    rw [hsame]
    exact hempty htype
  · -- the destination is out of the way: move the entry
    refine Txn.outcome_modify ?_
    refine within_putDentryRow (fun hlong =>
      absurd (Dentry.length_le_of_validate hc.newName) (Nat.not_le.mpr hlong)) ?_
    have hentry : t.dentries[oldKey]? = some source.id := by
      rw [hv.dentries_eq oldKey hc.moved, hb.dentries_eq, hc.entry]
    have hstored : t.inodes.get? source.id = some source := by
      rw [hv.inodes_eq _ hc.other, hb.inodes_eq _ (by simp [hneOld, hneNew]), hc.stored]
    have hparent : t.IsDir newKey.owner := by
      obtain ⟨parent, hparent, htype⟩ := (hb.isDir_iff _).mpr hc.newParent
      exact ⟨parent, (hv.inodes_eq _ hc.destination_ne).trans hparent, htype⟩
    have hchild : ∀ a b, t.DirChild a b → s.DirChild a b := by
      rintro a b ⟨⟨name, hname⟩, hisDir⟩
      refine ⟨⟨name, ?_⟩, (hb.isDir_iff b).mp (hv.isDir_imp b hisDir)⟩
      by_cases hkey : NameKey.mk a name = newKey
      · rw [hkey, hv.vacant] at hname
        cases hname
      · rwa [hv.dentries_eq _ hkey, hb.dentries_eq] at hname
    refine ht.tail (.moveEntry hc.moved hentry hv.vacant hstored hparent hneNew (fun hisDir => ?_)
      hc.newName)
    intro hpath
    exact not_below_of_inodeIsDescendant (hc.below hisDir)
      (Relation.ReflTransGen.mono hchild _ _ hpath)
  · intro id hid
    obtain ⟨i, hi, -⟩ := hc.replaced id hid
    by_cases hmem : id ∈ [oldKey.owner, newKey.owner]
    · have hisDir : s.IsDir id := by
        rcases List.mem_pair.mp hmem with rfl | rfl
        · exact hc.oldParent
        · exact hc.newParent
      obtain ⟨j, hj, -⟩ := (hb.isDir_iff id).mpr hisDir
      exact ⟨j, hj⟩
    · exact ⟨i, (hb.inodes_eq id hmem).trans hi⟩
  · -- a file is neither parent, so its record is the one the request found
    intro i hid hi hfile hbad
    have hmem : i.id ∉ [oldKey.owner, newKey.owner] := by
      intro hmem
      have hisDir : s.IsDir i.id := by
        rcases List.mem_pair.mp hmem with heq | heq
        · exact heq ▸ hc.oldParent
        · exact heq ▸ hc.newParent
      obtain ⟨j, hj, htype⟩ := (hb.isDir_iff i.id).mpr hisDir
      cases hj.symm.trans hi
      exact hfile htype
    rw [hb.inodes_eq i.id hmem] at hi
    exact ⟨newKey, i, hc.at_new.trans hid, hi, hfile, hbad⟩

theorem rename_edits {noReplace : Bool} (hself : s.NoSelfEntry) :
    Within now op records s (renameInTxn now expectedOld oldKey expectedNew newKey noReplace s) :=
  outcome_rename (fun _ => .refl) (fun _ _ _ => .refl) fun _ _ _ hc _ => renameWrites_edits hself hc

end FluxFS
