import FluxFS.Meta.Rename

/-!
# Rollback — what a failed request leaves behind

`with_write_txn` aborts its transaction when the operation fails;
`apply_raft_request` commits it. The two agree on a failed operation exactly
when the operation had not written yet. `Unwritten` is that property of one
outcome. Most operations check first and write then; the late checks are the
LMDB key limit of a new entry, the manifest of an import, the link count and
generation of the inode that gains or loses a link, and the generation of an
inode that loses an xattr. `MetaOp.FailsLate`: a request gets as far as such a
check and fails it.

The three tombstone requests write element by element, so one that fails keeps
what it did to the elements before the one that failed.
-/

namespace FluxFS

open Std Kit

/-- `with_write_txn`: the direct path, which no lease may block and which rolls a
failed operation back. -/
def withWriteTxn {α : Type} (operation : MetaTxn α) : MetaTxn α :=
  Txn.atomic do
    let lease ← Txn.reads (·.gcLease)
    Txn.failIf (lease.isSome = true) .busy
    operation

/-- An outcome that is a failure only with the tables it started from. -/
def Unwritten {β : Type} (s : Tables) (o : Except FluxError β × Tables) : Prop :=
  ∀ e, o.1 = .error e → o.2 = s

section
variable {s t : Tables} {now : Clock} {β : Type}
variable {expected : Generation} {parent inode : InodeId} {name : String}
  {expectedOld expectedNew : Option Generation} {manifest : Manifest}

theorem unwritten_error (e : FluxError) :
    Unwritten s ((.error e, s) : Except FluxError β × Tables) :=
  fun _ _ => rfl

theorem unwritten_ok (b : β) (t : Tables) : Unwritten s (.ok b, t) := by
  intro e h
  cases h

theorem unwritten_bind {α : Type} {x : MetaTxn α} {f : α → MetaTxn β} (h : Unwritten s (x s))
    (hok : ∀ a t, x s = (.ok a, t) → Unwritten s (f a t)) : Unwritten s ((x >>= f) s) := by
  refine Txn.outcome_bind (fun e t hrun => ?_) hok
  obtain rfl : t = s := by
    rw [hrun] at h
    exact h e rfl
  exact unwritten_error e

theorem unwritten_respond {α : Type} {x : MetaTxn α} {g : α → β} (h : Unwritten s (x s)) :
    Unwritten s ((x >>= fun a => pure (g a)) s) :=
  unwritten_bind h fun a t _ => unwritten_ok (g a) t

/-! ## Entries -/

/-- A new entry passes the checks that come before the first write. -/
structure EntryAdmitted (s : Tables) (expected : Option Generation) (parent : InodeId)
    (name : String) : Prop where
  named : ¬ (name.isEmpty ∨ name.toList.contains '/' ∨ name = "." ∨ name = "..")
  vacant : s.dentries[NameKey.mk parent name]? = none
  parent : ∃ dir, ParentAdmitted s expected parent dir

theorem createNode_unwritten {expected : Option Generation} {fileType : FileType}
    {mode uid gid : Nat} {target : Option String}
    (hkey : EntryAdmitted s expected parent name → dentryKeyLen ⟨parent, name⟩ ≤ 511) :
    Unwritten s (createNodeInTxn now expected parent name fileType mode uid gid target s) := by
  refine outcome_guard unwritten_error fun hname => ?_
  refine outcome_checkVacant unwritten_error fun hvacant => ?_
  refine outcome_loadAndBump unwritten_error fun dir hparent => ?_
  refine Txn.outcome_reads ?_
  simp only [allocInode, bind_assoc, pure_bind]
  refine Txn.outcome_reads (Txn.outcome_modify (Txn.outcome_modify ?_))
  rw [Txn.bind_of_ok (putDentryRow_run (hkey ⟨hname, hvacant, dir, hparent⟩))]
  exact unwritten_ok _ _

/-- What `symlink_in_txn` asks of a target. -/
def symlinkTargetOk (target : String) : Prop :=
  ¬ (target.isEmpty ∨ target.toList.contains '\x00') ∧ ¬ target.utf8ByteSize > 4096

theorem symlink_unwritten {expected : Option Generation} {target : String} {uid gid : Nat}
    (hkey : symlinkTargetOk target → EntryAdmitted s expected parent name →
      dentryKeyLen ⟨parent, name⟩ ≤ 511) :
    Unwritten s (symlinkInTxn now expected parent name target uid gid s) := by
  refine outcome_guard unwritten_error fun htarget => ?_
  refine outcome_guard unwritten_error fun hlong => ?_
  exact createNode_unwritten (hkey ⟨htarget, hlong⟩)

/-- A link to `source` passes the checks that come before the first write. -/
structure LinkAdmitted (s : Tables) (expected : Option Generation) (newKey : NameKey)
    (source dir : Inode) : Prop where
  named : Dentry.validate newKey.name = .ok ()
  vacant : s.dentries[newKey]? = none
  stored : s.inodes.get? source.id = some source
  file : source.fileType ≠ .directory
  linked : source.linkCount ≠ 0
  parent : ParentAdmitted s expected newKey.owner dir

/-- Writing a record back as it is writes nothing. -/
theorem putInode_of_get {i : Inode} (h : s.inodes.get? i.id = some i) : s.putInode i = s := by
  rw [Tables.putInode, Keyed.put_of_get? h]

theorem link_unwritten {expected : Option Generation} {newParent : InodeId} {newName : String}
    (hroom : ∀ source dir, source.id = inode →
      LinkAdmitted s expected ⟨newParent, newName⟩ source dir → u32Max ≤ source.linkCount →
        bumpDir now.parent dir = dir) :
    Unwritten s (linkInTxn now expected inode newParent newName s) := by
  refine Txn.outcome_query (fun e _ => unwritten_error e) fun _ hname => ?_
  refine outcome_checkVacant unwritten_error fun hvacant => ?_
  refine outcome_getInodeRaw unwritten_error fun source hsource => ?_
  refine outcome_guard unwritten_error fun hfile => ?_
  refine outcome_guard unwritten_error fun hlinked => ?_
  refine outcome_loadAndBump unwritten_error fun dir hparent => ?_
  obtain rfl : source.id = inode := Keyed.key_of_get? hsource
  have hkey : dentryKeyLen ⟨newParent, newName⟩ ≤ 511 := dentryKeyLen_of_validate hname
  rw [Txn.failIf_bind_run]
  by_cases hfull : source.linkCount + 1 > u32Max
  · -- the bump of the parent was the only write
    have hsame := hroom source dir rfl ⟨hname, hvacant, hsource, hfile, hlinked, hparent⟩
      (Nat.le_of_lt_succ hfull)
    have hdir : s.inodes.get? dir.id = some dir :=
      (congrArg s.inodes.get? (Keyed.key_of_get? hparent.stored)).trans hparent.stored
    rw [if_pos hfull, hsame, putInode_of_get hdir]
    exact unwritten_error _
  · rw [if_neg hfull, Txn.modify_bind_run, Txn.bind_of_ok (putDentryRow_run hkey)]
    exact unwritten_ok _ _

/-- The locality check of `import_external_in_txn`. -/
def Inode.importable (template : Inode) : Prop :=
  ¬ (template.locality ≠ .external ∧ template.localityFields.map (·.origin) ≠ some .imported)

theorem import_unwritten {expected : Option Generation} {template : Inode}
    {manifest : Option Manifest}
    (hlate : template.importable → EntryAdmitted s expected parent name →
      dentryKeyLen ⟨parent, name⟩ ≤ 511 ∧ ∀ m, manifest = some m → m.validate = .ok ()) :
    Unwritten s (importExternalInTxn now expected parent name template manifest s) := by
  refine outcome_guard unwritten_error fun hname => ?_
  refine outcome_guard unwritten_error fun htemplate => ?_
  refine outcome_checkVacant unwritten_error fun hvacant => ?_
  refine outcome_loadAndBump unwritten_error fun dir hparent => ?_
  obtain ⟨hkey, hvalid⟩ := hlate htemplate ⟨hname, hvacant, dir, hparent⟩
  simp only [allocInode, bind_assoc, pure_bind]
  refine Txn.outcome_reads (Txn.outcome_modify ?_)
  refine outcome_importManifest (fun e m hm hinvalid => ?_) (fun j t _ _ => ?_)
  · exact absurd (hvalid m hm) hinvalid
  · rw [Txn.modify_bind_run, Txn.bind_of_ok (putDentryRow_run hkey)]
    exact unwritten_ok _ _

/-- The removal of the name of `child` passes the checks that come before the first write. -/
structure UnlinkAdmitted (s : Tables) (expected : Option Generation) (k : NameKey)
    (child : Inode) : Prop where
  entry : s.dentries[k]? = some child.id
  stored : s.inodes.get? child.id = some child
  parent : ∃ dir, ParentAdmitted s expected k.owner dir

theorem unlink_unwritten {expected : Option Generation}
    (hlose : ∀ child, UnlinkAdmitted s expected ⟨parent, name⟩ child → child.CanLoseLink) :
    Unwritten s (unlinkInTxn now expected parent name s) := by
  refine outcome_lookupDentry unwritten_error fun childId hentry => ?_
  refine outcome_getInodeRaw unwritten_error fun child hchild => ?_
  refine outcome_guard unwritten_error fun hfile => ?_
  refine outcome_loadAndBump unwritten_error fun dir hparent => ?_
  obtain rfl : child.id = childId := Keyed.key_of_get? hchild
  have hlinks := (hlose child ⟨hentry, hchild, dir, hparent⟩).resolve_left hfile
  rw [Txn.modify_bind_run, removeInodeLink_run hlinks]
  exact unwritten_ok _ _

theorem rmdir_unwritten {expected : Option Generation} :
    Unwritten s (rmdirInTxn now expected parent name s) := by
  refine outcome_lookupDentry unwritten_error fun childId _ => ?_
  refine outcome_getInodeRaw unwritten_error fun child _ => ?_
  refine outcome_guard unwritten_error fun _ => ?_
  refine Txn.outcome_reads (outcome_guard unwritten_error fun _ => ?_)
  refine outcome_loadAndBump unwritten_error fun dir _ => ?_
  exact unwritten_ok _ _

/-- A rename over the file `replaced` passes the checks that come before the first write.
Only a file is replaced by a file, so no directory moves. -/
structure ReplaceAdmitted (s : Tables) (expectedOld : Option Generation) (oldKey : NameKey)
    (expectedNew : Option Generation) (newKey : NameKey) (noReplace : Bool)
    (source replaced : Inode) : Prop where
  admitted : RenameAdmitted s expectedOld oldKey expectedNew newKey source
  allowed : noReplace = false
  file : source.fileType ≠ .directory
  other : replaced.id ≠ source.id
  entry : s.dentries[newKey]? = some replaced.id
  stored : s.inodes.get? replaced.id = some replaced

/-- The bumps of the parents leave a file alone. -/
theorem get_bumpedParents_file {oldParent newParent : InodeId} {oldDir newDir i : Inode}
    (hold : ParentAdmitted s expectedOld oldParent oldDir)
    (hnew : ParentAdmitted s expectedNew newParent newDir) (hi : s.inodes.get? i.id = some i)
    (hfile : i.fileType ≠ .directory) :
    (bumpedParents now oldDir newDir s).inodes.get? i.id = some i := by
  have hne : ∀ {parent expected dir}, ParentAdmitted s expected parent dir → i.id ≠ dir.id := by
    intro parent expected dir hdir heq
    have hstored := hdir.stored
    rw [← Keyed.key_of_get? hdir.stored, ← heq, hi] at hstored
    exact hfile (Option.some.inj hstored ▸ hdir.isDir)
  rw [get_bumpedParents, if_neg (hne hold), if_neg (hne hnew), hi]

/-- What a rename replaces can be removed behind the bumps, unless it is a file that cannot
lose a link. -/
theorem removeDestination_answers (now : Clock) {oldDir newDir : Inode} {oldKey newKey : NameKey}
    {replaced : Option Inode} (hold : ParentAdmitted s expectedOld oldKey.owner oldDir)
    (hnew : ParentAdmitted s expectedNew newKey.owner newDir)
    (hoccupies : Occupies s newKey replaced) (hlose : ∀ i, replaced = some i → i.CanLoseLink) :
    ∃ t, removeDestination now.unlinked newKey (replaced.map (·.id))
      (bumpedParents now oldDir newDir s) = (.ok (), t) := by
  cases replaced with
  | none => exact ⟨_, rfl⟩
  | some i =>
    have hi := hoccupies.stored i rfl
    by_cases hfile : i.fileType = .directory
    · -- it may be one of the parents, which is still a directory
      obtain ⟨j, hj, hdir⟩ : ∃ j, (bumpedParents now oldDir newDir s).inodes.get? i.id = some j ∧
          j.fileType = .directory := by
        rw [get_bumpedParents]
        split
        · exact ⟨_, rfl, hold.isDir⟩
        · split
          · exact ⟨_, rfl, hnew.isDir⟩
          · exact ⟨i, hi, hfile⟩
      have hget : ((bumpedParents now oldDir newDir s).eraseDentry newKey).inodes.get? i.id =
        some j := hj
      refine ⟨((bumpedParents now oldDir newDir s).eraseDentry newKey).deleteInode i.id, ?_⟩
      rw [Option.map_some, removeDestination, Txn.modify_bind_run, getInodeRaw_bind hget,
        if_pos hdir]
      rfl
    · have hbumped : (bumpedParents now oldDir newDir s).inodes.get? i.id = some i :=
        get_bumpedParents_file hold hnew hi hfile
      refine ⟨_, removeDestination_run fun j hj => ?_⟩
      cases hj
      exact ⟨hbumped, hlose i rfl⟩

theorem renameWrites_answers (now : Clock) {oldKey newKey : NameKey} {source : Inode}
    {destination : Option InodeId}
    (hadmitted : RenameAdmitted s expectedOld oldKey expectedNew newKey source)
    (hc : RenameChecked s oldKey newKey source destination)
    (hlose : ∀ i, s.dentries[newKey]? = some i.id → s.inodes.get? i.id = some i → i.CanLoseLink) :
    ∃ t, renameWrites now expectedOld oldKey expectedNew newKey source destination s =
      (.ok (movedInode now.inode source), t) := by
  obtain ⟨oldDir, hold⟩ := hadmitted.oldParent
  obtain ⟨newDir, hnew⟩ := hadmitted.newParent
  obtain ⟨replaced, rfl, hoccupies⟩ := hc.occupies
  obtain ⟨t, hremoved⟩ := removeDestination_answers now hold hnew hoccupies
    fun i hi => hlose i (by rw [hoccupies.entry, hi]; rfl) (hoccupies.stored i hi)
  have hbump := bumpParents_run now (Keyed.key_of_get? hold.stored).symm
    (Keyed.key_of_get? hnew.stored).symm hold hnew
  have hkey : dentryKeyLen newKey ≤ 511 := dentryKeyLen_of_validate hadmitted.newName
  refine ⟨((t.eraseDentry oldKey).putDentry newKey source.id).putInode (movedInode now.inode source),
    ?_⟩
  rw [renameWrites, ← bind_assoc, Txn.bind_of_ok hbump, Txn.bind_of_ok hremoved,
    Txn.modify_bind_run, Txn.bind_of_ok (putDentryRow_run hkey)]
  rfl

theorem rename_unwritten {oldKey newKey : NameKey} {noReplace : Bool}
    (hlose : ∀ source i, ReplaceAdmitted s expectedOld oldKey expectedNew newKey noReplace source i →
      i.CanLoseLink) :
    Unwritten s (renameInTxn now expectedOld oldKey expectedNew newKey noReplace s) := by
  refine outcome_rename unwritten_error (fun _ _ _ => unwritten_ok _ _)
    fun source destination hadmitted hc hfree => ?_
  obtain ⟨u, hrun⟩ := renameWrites_answers now hadmitted hc fun i hentry hi => by
    by_cases hdir : i.fileType = .directory
    · exact .inl hdir
    -- what is replaced is a file, so a file moves
    · have hdest : destination = some i.id := hc.at_new.symm.trans hentry
      obtain ⟨j, hj, hkinds, -⟩ := hc.replaced i.id hdest
      rw [hi] at hj
      cases hj
      refine hlose source i ⟨hadmitted, hfree (by rw [hdest]; simp),
        fun hsource => hdir (hkinds.mp hsource), fun heq => hc.other ?_, hentry, hi⟩
      rw [hdest, heq]
  rw [hrun]
  exact unwritten_ok _ _

/-! ## Records -/

theorem setXattr_unwritten {time : Int} {value : Bytes} {mode : XattrSetMode} :
    Unwritten s (setXattrInTxn time expected inode name value mode s) := by
  refine outcome_getInodeRaw unwritten_error fun i _ => ?_
  refine outcome_checkGeneration unwritten_error fun _ => ?_
  refine outcome_query_ok unwritten_error fun _ _ => ?_
  refine outcome_query_ok unwritten_error fun _ _ => ?_
  refine outcome_guard unwritten_error fun _ => ?_
  exact unwritten_ok _ _

/-- The removal of an xattr that is there passes the checks that come before it. -/
structure XattrAdmitted (s : Tables) (expected : Generation) (name : String) (i : Inode) :
    Prop where
  named : validateXattrName name = .ok ()
  stored : s.inodes.get? i.id = some i
  generation : i.generation = expected
  present : s.xattrs[NameKey.mk i.id name]? ≠ none

theorem removeXattr_unwritten {time : Int}
    (hroom : ∀ i, i.id = inode → XattrAdmitted s expected name i → i.generation < u64Max) :
    Unwritten s (removeXattrInTxn time expected inode name s) := by
  refine outcome_query_ok unwritten_error fun _ hname => ?_
  refine outcome_getInodeRaw unwritten_error fun i hi => ?_
  refine outcome_checkGeneration unwritten_error fun hgeneration => ?_
  obtain rfl : i.id = inode := Keyed.key_of_get? hi
  rw [Txn.reads_bind_run, Txn.modify_bind_run, Txn.failIf_bind_run]
  by_cases hnone : s.xattrs[NameKey.mk i.id name]? = none
  · -- deleting a row that is not there writes nothing
    rw [if_pos hnone, Table.erase_of_none hnone]
    exact unwritten_error _
  · have hover : ¬ i.generation + 1 > u64Max :=
      Nat.not_lt.mpr (hroom i rfl ⟨hname, hi, hgeneration, hnone⟩)
    rw [if_neg hnone, Txn.failIf_bind_run, if_neg hover]
    exact unwritten_ok _ _

theorem putManifest_unwritten : Unwritten s (putManifestInTxn manifest s) :=
  outcome_query_ok unwritten_error fun _ _ => unwritten_ok _ _

theorem commitInodeManifest_unwritten {inode : Inode} :
    Unwritten s (commitInodeManifestInTxn expected inode manifest s) := by
  refine outcome_guard unwritten_error fun _ => ?_
  refine outcome_getInodeRaw unwritten_error fun i _ => ?_
  refine outcome_checkGeneration unwritten_error fun _ => ?_
  refine outcome_guard unwritten_error fun _ => ?_
  exact unwritten_bind putManifest_unwritten fun mid t _ => unwritten_ok _ _

theorem commitUnreserved_unwritten {inode : Inode} :
    Unwritten s (commitUnreserved expected inode manifest s) :=
  outcome_guard unwritten_error fun _ => commitInodeManifest_unwritten

theorem commitReserved_unwritten {ticket : WriteTicketId} {inode : Inode} :
    Unwritten s (commitReservedInTxn ticket expected inode manifest s) := by
  refine outcome_query_ok unwritten_error fun r _ => ?_
  refine outcome_guard unwritten_error fun _ => ?_
  refine outcome_guard unwritten_error fun _ => ?_
  exact unwritten_bind commitInodeManifest_unwritten fun committed t _ => unwritten_ok _ _

theorem putInodeCas_unwritten {inode : Inode} :
    Unwritten s (putInodeCasInTxn expected inode s) := by
  refine outcome_getInodeRaw unwritten_error fun i _ => ?_
  refine outcome_checkGeneration unwritten_error fun _ => ?_
  refine outcome_guard unwritten_error fun _ => ?_
  refine outcome_guard unwritten_error fun _ => ?_
  refine outcome_guard unwritten_error fun _ => ?_
  exact unwritten_ok _ _

/-! ## Flushes -/

theorem FlushOutcome.unwritten {op : MetaOp} {o : Except FluxError Inode × Tables}
    (h : FlushOutcome s op o) : Unwritten s o := by
  cases h with
  | refused => exact unwritten_error _
  | _ => exact unwritten_ok _ _

end

/-! ## Failures behind a write -/

/-- Some table besides the request ledger is not the same. -/
def Tables.Touched (s t : Tables) : Prop :=
  ∀ ledger ledger', { t with clientRequests := ledger } ≠ { s with clientRequests := ledger' }

/-- A failure behind a write. -/
def FailsTouched {β : Type} (s : Tables) (o : Except FluxError β × Tables) : Prop :=
  ∃ e, o.1 = .error e ∧ s.Touched o.2

/-- LMDB's answer to a key above its limit. -/
def badValsize : FluxError :=
  .metaErr "MDB_BAD_VALSIZE: Unsupported size of key/DB name/data, or wrong DUPFIXED size"

theorem putDentryRow_overlong {t : Tables} {k : NameKey} {child : InodeId}
    (h : dentryKeyLen k > 511) : putDentryRow k child t = (.error badValsize, t) := by
  rw [putDentryRow, Txn.failIf_bind_run, if_pos h]
  rfl

section
variable {s : Tables} {now : Clock} {expected : Option Generation} {parent : InodeId}
  {name : String} {fileType : FileType} {mode uid gid : Nat} {target : Option String} {dir : Inode}
  (hname : ¬ (name.isEmpty ∨ name.toList.contains '/' ∨ name = "." ∨ name = ".."))
  (hvacant : s.dentries[NameKey.mk parent name]? = none)
  (hparent : ParentAdmitted s expected parent dir)

include hname hvacant hparent

/-- A create that passed its checks has bumped the parent and stored the inode when
it puts the entry. -/
theorem createNode_admitted :
    createNodeInTxn now expected parent name fileType mode uid gid target s =
      (do
        putDentryRow ⟨parent, name⟩ s.nextInode
        Txn.modify (inheritAcl s.nextInode fileType s.xattrs[NameKey.mk parent defaultAcl]?)
        pure (newInode s.nextInode fileType mode uid gid target now.inode) : MetaTxn Inode)
      ((s.putInode (bumpDir now.parent dir)).addInode
        (newInode s.nextInode fileType mode uid gid target now.inode)) := by
  have hcheck : checkNewName name s = (.ok (), s) := if_neg hname
  have hfree : checkVacant ⟨parent, name⟩ s = (.ok (), s) := by
    rw [checkVacant, Txn.query_run, if_pos hvacant]
  rw [createNodeInTxn, Txn.bind_of_ok hcheck, Txn.bind_of_ok hfree,
    Txn.bind_of_ok (loadAndBump_run hparent)]
  rfl

/-- A create that fails when it stores the entry leaves an inode that no name leads
to. -/
theorem createNode_overlong (hkey : dentryKeyLen ⟨parent, name⟩ > 511) :
    createNodeInTxn now expected parent name fileType mode uid gid target s =
      (.error badValsize, (s.putInode (bumpDir now.parent dir)).addInode
        (newInode s.nextInode fileType mode uid gid target now.inode)) := by
  rw [createNode_admitted hname hvacant hparent, Txn.bind_of_error (putDentryRow_overlong hkey)]

end

theorem fresh_root : ParentAdmitted (Tables.fresh 0) none rootInode
    (newInode rootInode .directory 0o755 0 0 none 0) :=
  ⟨Keyed.get?_put_self .., rfl, by simp⟩

theorem fresh_vacant (k : NameKey) : (Tables.fresh 0).dentries[k]? = none := by
  simp [Tables.fresh]

section
variable {s t : Tables} {now : Clock} {β : Type}
variable {expected : Option Generation}

theorem Tables.touched_of {α : Type} (read : Tables → α)
    (hread : ∀ u ledger, read { u with clientRequests := ledger } = read u)
    (h : read t ≠ read s) : s.Touched t := by
  intro ledger ledger' heq
  exact h (by rw [← hread t ledger, heq, hread])

theorem Tables.touched_nextInode (h : t.nextInode = s.nextInode + 1) : s.Touched t := by
  refine Tables.touched_of (·.nextInode) (fun _ _ => rfl) ?_
  rw [h]
  exact Nat.succ_ne_self _

theorem Tables.touched_entry {k : NameKey} {id : InodeId} (h : s.dentries[k]? = some id)
    (hgone : t.dentries[k]? = none) : s.Touched t := by
  refine Tables.touched_of (·.dentries[k]?) (fun _ _ => rfl) ?_
  rw [h, hgone]
  simp

theorem failsTouched_respond {α : Type} {x : MetaTxn α} {g : α → β} (h : FailsTouched s (x s)) :
    FailsTouched s ((x >>= fun a => pure (g a)) s) := by
  obtain ⟨e, herror, htouched⟩ := h
  have hrun : x s = (.error e, (x s).2) := Prod.ext herror rfl
  rw [Txn.bind_of_error hrun]
  exact ⟨e, rfl, htouched⟩

theorem createNode_late {parent : InodeId} {name : String} {fileType : FileType}
    {mode uid gid : Nat} {target : Option String} (h : EntryAdmitted s expected parent name)
    (hkey : dentryKeyLen ⟨parent, name⟩ > 511) :
    FailsTouched s (createNodeInTxn now expected parent name fileType mode uid gid target s) := by
  obtain ⟨dir, hparent⟩ := h.parent
  rw [createNode_overlong h.named h.vacant hparent hkey]
  exact ⟨_, rfl, Tables.touched_nextInode rfl⟩

theorem symlink_late {parent : InodeId} {name target : String} {uid gid : Nat}
    (htarget : symlinkTargetOk target) (h : EntryAdmitted s expected parent name)
    (hkey : dentryKeyLen ⟨parent, name⟩ > 511) :
    FailsTouched s (symlinkInTxn now expected parent name target uid gid s) := by
  rw [symlinkInTxn, Txn.failIf_bind_run, if_neg htarget.1, Txn.failIf_bind_run, if_neg htarget.2]
  exact createNode_late h hkey

theorem import_late {parent : InodeId} {name : String} {template : Inode}
    {manifest : Option Manifest} (htemplate : template.importable)
    (h : EntryAdmitted s expected parent name)
    (hlate : dentryKeyLen ⟨parent, name⟩ > 511 ∨ ∃ m, manifest = some m ∧ m.validate ≠ .ok ()) :
    FailsTouched s (importExternalInTxn now expected parent name template manifest s) := by
  obtain ⟨dir, hparent⟩ := h.parent
  have hcheck : checkNewName name s = (.ok (), s) := if_neg h.named
  have hfree : checkVacant ⟨parent, name⟩ s = (.ok (), s) := by
    rw [checkVacant, Txn.query_run, if_pos h.vacant]
  rw [importExternalInTxn, Txn.bind_of_ok hcheck, Txn.failIf_bind_run, if_neg htemplate,
    Txn.bind_of_ok hfree, Txn.bind_of_ok (loadAndBump_run hparent)]
  simp only [allocInode, bind_assoc, pure_bind, Txn.reads_bind_run, Txn.modify_bind_run]
  refine outcome_importManifest (fun e _ _ _ => ?_) (fun j t hvalid hsettled => ?_)
  · exact ⟨e, rfl, Tables.touched_nextInode rfl⟩
  · have hkey : dentryKeyLen ⟨parent, name⟩ > 511 := by
      rcases hlate with hkey | ⟨m, hm, hinvalid⟩
      · exact hkey
      · exact absurd (hvalid m hm) hinvalid
    rw [Txn.modify_bind_run, Txn.bind_of_error (putDentryRow_overlong hkey)]
    exact ⟨_, rfl, Tables.touched_nextInode hsettled.next⟩

theorem link_late {newParent : InodeId} {newName : String} {source dir : Inode}
    (h : LinkAdmitted s expected ⟨newParent, newName⟩ source dir)
    (hfull : u32Max ≤ source.linkCount) (hbump : bumpDir now.parent dir ≠ dir) :
    FailsTouched s (linkInTxn now expected source.id newParent newName s) := by
  have hfree : checkVacant ⟨newParent, newName⟩ s = (.ok (), s) := by
    rw [checkVacant, Txn.query_run, if_pos h.vacant]
  have hname : validateDentryName newName s = (.ok (), s) := by
    rw [validateDentryName, Txn.query_run, h.named]
  rw [linkInTxn, Txn.bind_of_ok hname, Txn.bind_of_ok hfree, getInodeRaw_bind h.stored,
    Txn.failIf_bind_run, if_neg h.file, Txn.failIf_bind_run, if_neg h.linked,
    Txn.bind_of_ok (loadAndBump_run h.parent), Txn.failIf_bind_run,
    if_pos (Nat.lt_succ_of_le hfull)]
  refine ⟨_, rfl, Tables.touched_of (·.inodes.get? dir.id) (fun _ _ => rfl) ?_⟩
  have hdir : s.inodes.get? dir.id = some dir :=
    (congrArg s.inodes.get? (Keyed.key_of_get? h.parent.stored)).trans h.parent.stored
  rw [hdir]
  exact fun heq => hbump (Option.some.inj ((Keyed.get?_put_self ..).symm.trans heq))

theorem unlink_late {parent : InodeId} {name : String} {child : Inode}
    (h : UnlinkAdmitted s expected ⟨parent, name⟩ child) (hlose : ¬ child.CanLoseLink) :
    FailsTouched s (unlinkInTxn now expected parent name s) := by
  obtain ⟨dir, hparent⟩ := h.parent
  obtain ⟨hfile, hlinks⟩ := not_or.mp hlose
  have hentry : lookupDentry ⟨parent, name⟩ s = (.ok child.id, s) := by
    rw [lookupDentry, Txn.query_run, h.entry]
  rw [unlinkInTxn, Txn.bind_of_ok hentry, getInodeRaw_bind h.stored, Txn.failIf_bind_run,
    if_neg hfile, Txn.bind_of_ok (loadAndBump_run hparent), Txn.modify_bind_run,
    removeInodeLink_stops hlinks]
  exact ⟨_, rfl, Tables.touched_entry h.entry ((Tables.get_eraseDentry ..).trans (if_pos rfl))⟩

/-- The checks let a file be renamed over a file. -/
theorem renameChecks_run {expectedOld expectedNew : Option Generation} {oldKey newKey : NameKey}
    {noReplace : Bool} {source i : Inode}
    (h : ReplaceAdmitted s expectedOld oldKey expectedNew newKey noReplace source i)
    (hfile : i.fileType ≠ .directory) :
    renameChecks expectedOld oldKey expectedNew newKey noReplace s =
      (.ok (source, some (some i.id)), s) := by
  obtain ⟨oldDir, hold⟩ := h.admitted.oldParent
  obtain ⟨newDir, hnew⟩ := h.admitted.newParent
  have hentry : lookupDentry oldKey s = (.ok source.id, s) := by
    rw [lookupDentry, Txn.query_run, h.admitted.entry]
  have hdirs : ¬ (oldDir.fileType ≠ .directory ∨ newDir.fileType ≠ .directory) := by
    simp [hold.isDir, hnew.isDir]
  have hmoved : oldKey ≠ newKey := by
    intro heq
    have hsame := h.admitted.entry
    rw [heq, h.entry] at hsame
    exact h.other (Option.some.inj hsame)
  have hother : (some i.id : Option InodeId) ≠ some source.id := by simpa using h.other
  rw [renameChecks, validateDentryName, Txn.query_bind_run, h.admitted.oldName]
  simp only [validateDentryName, Txn.query_bind_run, h.admitted.newName, Txn.bind_of_ok hentry,
    getInodeRaw_bind h.admitted.stored, getInodeRaw_bind hold.stored, getInodeRaw_bind hnew.stored,
    Txn.failIf_bind_run, if_neg hdirs, Txn.bind_of_ok hold.check_run,
    Txn.bind_of_ok hnew.check_run, if_neg hmoved, checkNotBelow, if_neg h.file, pure_bind,
    Txn.reads_bind_run, h.entry, h.allowed, if_neg hother, checkReplace, bind_assoc,
    getInodeRaw_bind h.stored]
  simp [h.file, hfile]

theorem rename_late {expectedOld expectedNew : Option Generation} {oldKey newKey : NameKey}
    {noReplace : Bool} {source i : Inode}
    (h : ReplaceAdmitted s expectedOld oldKey expectedNew newKey noReplace source i)
    (hlose : ¬ i.CanLoseLink) :
    FailsTouched s (renameInTxn now expectedOld oldKey expectedNew newKey noReplace s) := by
  obtain ⟨oldDir, hold⟩ := h.admitted.oldParent
  obtain ⟨newDir, hnew⟩ := h.admitted.newParent
  have hfile := (not_or.mp hlose).1
  have hkept : (bumpedParents now oldDir newDir s).inodes.get? i.id = some i :=
    get_bumpedParents_file hold hnew h.stored hfile
  have hstop := removeDestination_stops now.unlinked newKey hkept hlose
  have hbump := bumpParents_run now (Keyed.key_of_get? hold.stored).symm
    (Keyed.key_of_get? hnew.stored).symm hold hnew
  have hwrites : renameWrites now expectedOld oldKey expectedNew newKey source (some i.id) s =
      (.error (linkRefusal i), (bumpedParents now oldDir newDir s).eraseDentry newKey) := by
    rw [renameWrites, ← bind_assoc, Txn.bind_of_ok hbump, Txn.bind_of_error hstop]
  rw [renameInTxn, Txn.bind_of_ok (renameChecks_run h hfile)]
  simp only [hwrites]
  exact ⟨_, rfl, Tables.touched_entry h.entry ((Tables.get_eraseDentry ..).trans (if_pos rfl))⟩

theorem removeXattr_late {time : Int} {expected : Generation} {name : String} {i : Inode}
    (h : XattrAdmitted s expected name i) (hfull : u64Max ≤ i.generation) :
    FailsTouched s (removeXattrInTxn time expected i.id name s) := by
  have hgeneration : checkGeneration i expected s = (.ok (), s) :=
    if_neg (not_not.mpr h.generation)
  rw [removeXattrInTxn, Txn.query_bind_run, h.named]
  simp only [getInodeRaw_bind h.stored, Txn.bind_of_ok hgeneration, Txn.reads_bind_run,
    Txn.modify_bind_run, Txn.failIf_bind_run, if_neg h.present, if_pos (Nat.lt_succ_of_le hfull)]
  refine ⟨_, rfl, Tables.touched_of (·.xattrs[NameKey.mk i.id name]?) (fun _ _ => rfl) ?_⟩
  have hgone : (s.xattrs.erase (NameKey.mk i.id name))[NameKey.mk i.id name]? = none := by
    rw [Table.get_erase, if_pos rfl]
  rw [hgone]
  exact Ne.symm h.present

end

/-! ## Failed requests -/

/-- The namespace, xattr, commit and flush requests. -/
def MetaOp.changesInodes : MetaOp → Bool
  | .create .. | .symlink .. | .link .. | .unlink .. | .rmdir .. | .rename .. | .importExternal ..
  | .setXattr .. | .removeXattr .. | .commitInodeManifest .. | .commitInodeManifestReserved ..
  | .putInodeCas .. | .beginFlush .. | .commitFlush .. | .failFlushConflict .. => true
  | _ => false

/-- The request passes the checks that come before its first write and fails one that comes
after it: the entry's key is too long for LMDB, an imported manifest is not valid, the
inode that gains a link has no room for it, or the one that loses a link or an xattr can
not change any more. The bump of a parent that has nothing left to change writes nothing. -/
def MetaOp.FailsLate (now : Clock) (s : Tables) : MetaOp → Prop
  | .create parent name _ _ _ _ expected =>
    EntryAdmitted s expected parent name ∧ dentryKeyLen ⟨parent, name⟩ > 511
  | .symlink parent name target _ _ expected =>
    symlinkTargetOk target ∧ EntryAdmitted s expected parent name ∧
      dentryKeyLen ⟨parent, name⟩ > 511
  | .importExternal parent name template manifest expected =>
    template.importable ∧ EntryAdmitted s expected parent name ∧
      (dentryKeyLen ⟨parent, name⟩ > 511 ∨ ∃ m, manifest = some m ∧ m.validate ≠ .ok ())
  | .link inode newParent newName expected =>
    ∃ source dir, source.id = inode ∧ LinkAdmitted s expected ⟨newParent, newName⟩ source dir ∧
      u32Max ≤ source.linkCount ∧ bumpDir now.parent dir ≠ dir
  | .unlink parent name expected =>
    ∃ child, UnlinkAdmitted s expected ⟨parent, name⟩ child ∧ ¬ child.CanLoseLink
  | .rename oldParent oldName expectedOld newParent newName expectedNew noReplace =>
    ∃ source i, ReplaceAdmitted s expectedOld ⟨oldParent, oldName⟩ expectedNew
      ⟨newParent, newName⟩ noReplace source i ∧ ¬ i.CanLoseLink
  | .removeXattr expected inode name =>
    ∃ i, i.id = inode ∧ XattrAdmitted s expected name i ∧ u64Max ≤ i.generation
  | _ => False

section
variable {s : Tables} {now : Clock}

theorem ParentAdmitted.ledger {expected : Option Generation} {parent : InodeId} {dir : Inode}
    {ledger : Table RequestOpId ClientRequestLedgerEntry} (h : ParentAdmitted s expected parent dir) :
    ParentAdmitted { s with clientRequests := ledger } expected parent dir :=
  ⟨h.stored, h.isDir, h.expected⟩

theorem EntryAdmitted.ledger {expected : Option Generation} {parent : InodeId} {name : String}
    {ledger : Table RequestOpId ClientRequestLedgerEntry} (h : EntryAdmitted s expected parent name) :
    EntryAdmitted { s with clientRequests := ledger } expected parent name :=
  ⟨h.named, h.vacant, h.parent.imp fun _ => ParentAdmitted.ledger⟩

/-- No late check looks at the request ledger. -/
theorem MetaOp.FailsLate.ledger {op : MetaOp} (ledger : Table RequestOpId ClientRequestLedgerEntry)
    (h : op.FailsLate now s) : op.FailsLate now { s with clientRequests := ledger } := by
  cases op with
  | create => exact ⟨h.1.ledger, h.2⟩
  | symlink => exact ⟨h.1, h.2.1.ledger, h.2.2⟩
  | importExternal => exact ⟨h.1, h.2.1.ledger, h.2.2⟩
  | link =>
    obtain ⟨source, dir, hid, hlink, hlate⟩ := h
    exact ⟨source, dir, hid, ⟨hlink.named, hlink.vacant, hlink.stored, hlink.file, hlink.linked,
      hlink.parent.ledger⟩, hlate⟩
  | unlink =>
    obtain ⟨child, hunlink, hlate⟩ := h
    exact ⟨child, ⟨hunlink.entry, hunlink.stored,
      hunlink.parent.imp fun _ => ParentAdmitted.ledger⟩, hlate⟩
  | rename =>
    obtain ⟨source, i, hreplace, hlate⟩ := h
    have ha := hreplace.admitted
    exact ⟨source, i, ⟨⟨ha.oldName, ha.newName, ha.entry, ha.stored,
      ha.oldParent.imp fun _ => ParentAdmitted.ledger,
      ha.newParent.imp fun _ => ParentAdmitted.ledger⟩, hreplace.allowed, hreplace.file,
      hreplace.other, hreplace.entry, hreplace.stored⟩, hlate⟩
  | removeXattr =>
    obtain ⟨i, hid, hxattr, hlate⟩ := h
    exact ⟨i, hid, ⟨hxattr.named, hxattr.stored, hxattr.generation, hxattr.present⟩, hlate⟩
  | _ => cases h

/-- An operation that does not fail at a late check fails only before it writes. -/
theorem performOp_unwritten {op : MetaOp} (hop : op.changesInodes = true)
    (hlate : ¬ op.FailsLate now s) : Unwritten s (performOp now op s) := by
  cases op with
  | create =>
    exact unwritten_respond (createNode_unwritten fun h =>
      Nat.le_of_not_lt fun hkey => hlate ⟨h, hkey⟩)
  | symlink =>
    exact unwritten_respond (symlink_unwritten fun htarget h =>
      Nat.le_of_not_lt fun hkey => hlate ⟨htarget, h, hkey⟩)
  | importExternal =>
    refine unwritten_respond (import_unwritten fun htemplate h => ⟨?_, fun m hm => ?_⟩)
    · exact Nat.le_of_not_lt fun hkey => hlate ⟨htemplate, h, .inl hkey⟩
    · exact not_not.mp fun hinvalid => hlate ⟨htemplate, h, .inr ⟨m, hm, hinvalid⟩⟩
  | link =>
    exact unwritten_respond (link_unwritten fun source dir hid h hfull =>
      not_not.mp fun hbump => hlate ⟨source, dir, hid, h, hfull, hbump⟩)
  | unlink =>
    exact unwritten_respond (unlink_unwritten fun child h =>
      not_not.mp fun hlose => hlate ⟨child, h, hlose⟩)
  | rmdir => exact unwritten_respond rmdir_unwritten
  | rename =>
    exact unwritten_respond (rename_unwritten fun source i h =>
      not_not.mp fun hlose => hlate ⟨source, i, h, hlose⟩)
  | setXattr => exact unwritten_respond setXattr_unwritten
  | removeXattr =>
    exact unwritten_respond (removeXattr_unwritten fun i hid h =>
      Nat.lt_of_not_le fun hfull => hlate ⟨i, hid, h, hfull⟩)
  | commitInodeManifest => exact unwritten_respond commitUnreserved_unwritten
  | commitInodeManifestReserved => exact unwritten_respond commitReserved_unwritten
  | putInodeCas => exact unwritten_respond putInodeCas_unwritten
  | beginFlush => exact unwritten_respond beginFlush_outcome.unwritten
  | commitFlush => exact unwritten_respond commitFlush_outcome.unwritten
  | failFlushConflict => exact unwritten_respond failFlush_outcome.unwritten
  | _ => cases hop

/-- An operation that fails at a late check has written. -/
theorem performOp_late {op : MetaOp} (h : op.FailsLate now s) :
    FailsTouched s (performOp now op s) := by
  cases op with
  | create => exact failsTouched_respond (createNode_late h.1 h.2)
  | symlink => exact failsTouched_respond (symlink_late h.1 h.2.1 h.2.2)
  | importExternal => exact failsTouched_respond (import_late h.1 h.2.1 h.2.2)
  | link =>
    obtain ⟨source, dir, rfl, hlink, hfull, hbump⟩ := h
    exact failsTouched_respond (link_late hlink hfull hbump)
  | unlink =>
    obtain ⟨child, hunlink, hlose⟩ := h
    exact failsTouched_respond (unlink_late hunlink hlose)
  | rename =>
    obtain ⟨source, i, hreplace, hlose⟩ := h
    exact failsTouched_respond (rename_late hreplace hlose)
  | removeXattr =>
    obtain ⟨i, rfl, hxattr, hfull⟩ := h
    exact failsTouched_respond (removeXattr_late hxattr hfull)
  | _ => cases h

theorem respond_ne_err {α : Type} {x : MetaTxn α} {g : α → MetaRaftResponse} {e : FluxError}
    (hg : ∀ a, g a ≠ .err e) : ((x >>= fun a => pure (g a)) s).1 ≠ .ok (.err e) := by
  rcases hx : x s with ⟨e' | a, t⟩
  · rw [Txn.bind_of_error hx]
    simp
  · rw [Txn.bind_of_ok hx]
    simpa using hg a

/-- An operation answers with an error only when it fails. -/
theorem performOp_ne_err (now : Clock) (s : Tables) (op : MetaOp) (e : FluxError) :
    (performOp now op s).1 ≠ .ok (.err e) := by
  cases op with
  | expireChunkReservations cutoff maxToExpire =>
    show ((expireReservationsInTxn cutoff maxToExpire >>= fun _ =>
      Txn.modify (pruneClientRequests · cutoff maxToExpire) >>= fun _ =>
        pure MetaRaftResponse.empty) s).1 ≠ _
    rw [← bind_assoc]
    exact respond_ne_err (by simp)
  | _ => exact respond_ne_err (by simp)

theorem error_of_toResponse {op : MetaOp} {e : FluxError}
    (h : toResponse (performOp now op s).1 = .err e) : (performOp now op s).1 = .error e := by
  cases hrun : (performOp now op s).1 with
  | error e' =>
    rw [hrun] at h
    cases h
    rfl
  | ok response =>
    rw [hrun] at h
    have hne := performOp_ne_err now s op e
    rw [hrun] at hne
    exact absurd (congrArg Except.ok h) hne

end

/-- A namespace, xattr, commit or flush request that is answered with an error changes the
request ledger at most, exactly if it does not execute or does not fail at a late check;
the direct path leaves the tables as they were. -/
theorem failed_request_leaves_tables (now : Clock) (req : MetaRaftRequest) (s : Tables)
    (e : FluxError) (hop : req.op.changesInodes = true)
    (herr : (applyRaftRequest now req s).1 = .err e) :
    ((∃ ledger, (applyRaftRequest now req s).2 = { s with clientRequests := ledger }) ↔
      (req.executes s = true → ¬ req.op.FailsLate now s)) ∧
      ∀ e' t, withWriteTxn (performOp now req.op) s = (.error e', t) → t = s := by
  refine ⟨?_, fun e' t => Txn.atomic_of_error⟩
  cases hexec : req.executes s with
  | false => exact ⟨by simp, fun _ => applyRaftRequest_of_not_executes now hexec⟩
  | true =>
    obtain ⟨before, after, hresponse, htables⟩ := applyRaftRequest_of_executes now hexec
    rw [herr] at hresponse
    have hfailed := error_of_toResponse hresponse.symm
    constructor
    · rintro ⟨ledger, hsame⟩ - hlate
      obtain ⟨_, -, htouched⟩ := performOp_late (hlate.ledger before)
      exact htouched after ledger (htables.symm.trans hsame)
    · intro hlate
      have hunwritten : Unwritten { s with clientRequests := before }
          (performOp now req.op { s with clientRequests := before }) :=
        performOp_unwritten hop fun h => hlate rfl (h.ledger s.clientRequests)
      rw [hunwritten e hfailed] at htables
      exact ⟨after, htables⟩

/-- Creating a name that exists. -/
theorem failed_request_leaves_tables_sampleTreeRun :
    (applyRaftRequest 9 ⟨none, 0, .create rootInode "a" .regular 0 0 0 none⟩
        (runMeta (Tables.fresh 0) sampleTreeRun)).1 = .err .alreadyExists ∧
      ∃ ledger, (applyRaftRequest 9 ⟨none, 0, .create rootInode "a" .regular 0 0 0 none⟩
        (runMeta (Tables.fresh 0) sampleTreeRun)).2 =
          { runMeta (Tables.fresh 0) sampleTreeRun with clientRequests := ledger } := by
  have herr : (applyRaftRequest 9 ⟨none, 0, .create rootInode "a" .regular 0 0 0 none⟩
      (runMeta (Tables.fresh 0) sampleTreeRun)).1 = .err .alreadyExists := by decide +kernel
  -- the name is taken, so the request does not get to a late check
  have htaken : (runMeta (Tables.fresh 0) sampleTreeRun).dentries[NameKey.mk rootInode "a"]? ≠
      none := by decide +kernel
  exact ⟨herr, (failed_request_leaves_tables 9 _ _ _ rfl herr).1.mpr fun _ hlate =>
    htaken hlate.1.vacant⟩

/-- On a fresh store an overlong create stores its inode; the direct path does not. -/
theorem fresh_create_overlong (name : String)
    (hname : ¬ (name.isEmpty ∨ name.toList.contains '/' ∨ name = "." ∨ name = ".."))
    (hkey : dentryKeyLen ⟨rootInode, name⟩ > 511) :
    (applyRaftRequest 9 ⟨none, 0, .create rootInode name .regular 0 0 0 none⟩
        (Tables.fresh 0)).1 = .err badValsize ∧
      (applyRaftRequest 9 ⟨none, 0, .create rootInode name .regular 0 0 0 none⟩
        (Tables.fresh 0)).2.inodes.get? 2 = some (newInode 2 .regular 0 0 0 none 9) ∧
      (withWriteTxn (performOp 9 (.create rootInode name .regular 0 0 0 none))
        (Tables.fresh 0)).2 = Tables.fresh 0 := by
  have hop : performOp 9 (.create rootInode name .regular 0 0 0 none) (Tables.fresh 0) =
      (.error badValsize, ((Tables.fresh 0).putInode (bumpDir 9
        (newInode rootInode .directory 0o755 0 0 none 0))).addInode
          (newInode 2 .regular 0 0 0 none 9)) :=
    Txn.bind_of_error (createNode_overlong hname (fresh_vacant _) fresh_root hkey) _
  have happly : applyRaftRequest 9 ⟨none, 0, .create rootInode name .regular 0 0 0 none⟩
      (Tables.fresh 0) = (toResponse (performOp 9 (.create rootInode name .regular 0 0 0 none)
        (Tables.fresh 0)).1, (performOp 9 (.create rootInode name .regular 0 0 0 none)
        (Tables.fresh 0)).2) := dispatch_of_allowed rfl
  have hdirect : withWriteTxn (performOp 9 (.create rootInode name .regular 0 0 0 none))
      (Tables.fresh 0) = (.error badValsize, Tables.fresh 0) := by
    unfold withWriteTxn Txn.atomic
    rw [Txn.reads_bind_run, Txn.failIf_bind_run, if_neg (by decide), hop]
  rw [happly, hop, hdirect]
  exact ⟨rfl, Keyed.get?_put_self .., rfl⟩

/-- A name that is one byte too long for an LMDB key. -/
def overlongName : String := String.ofList (List.replicate 495 'n')

/-- The characters are read off the list, not decoded from the string again. -/
theorem replicate_accepted {n : Nat} (hn : 2 < n) :
    ¬ ((String.ofList (List.replicate n 'n')).isEmpty ∨
      (String.ofList (List.replicate n 'n')).toList.contains '/' ∨
      String.ofList (List.replicate n 'n') = "." ∨ String.ofList (List.replicate n 'n') =
        "..") := by
  have hchars : (String.ofList (List.replicate n 'n')).toList = List.replicate n 'n' :=
    String.toList_ofList
  have hlength {text : String} (h : String.ofList (List.replicate n 'n') = text) :
      text.toList.length = n := by
    rw [← h, hchars, List.length_replicate]
  rintro (hempty | hslash | hdot | hdotdot)
  · have hzero := hlength (String.isEmpty_iff.mp hempty)
    exact absurd hzero (by simp; omega)
  · rw [hchars, List.contains_iff_mem, List.mem_replicate] at hslash
    exact absurd hslash.2 (by decide)
  · have hone := hlength hdot
    exact absurd hone (by simp; omega)
  · have htwo := hlength hdotdot
    exact absurd htwo (by simp; omega)

/-- The create fails when it stores the entry; by then the new inode is stored. On
the direct path nothing stays. -/
theorem failed_create_leaves_inode :
    (applyRaftRequest 9 ⟨none, 0, .create rootInode overlongName .regular 0 0 0 none⟩
        (Tables.fresh 0)).1 = .err badValsize ∧
      (applyRaftRequest 9 ⟨none, 0, .create rootInode overlongName .regular 0 0 0 none⟩
        (Tables.fresh 0)).2.inodes.get? 2 = some (newInode 2 .regular 0 0 0 none 9) ∧
      (Tables.fresh 0).inodes.get? 2 = none ∧
      (withWriteTxn (performOp 9 (.create rootInode overlongName .regular 0 0 0 none))
        (Tables.fresh 0)).2 = Tables.fresh 0 := by
  obtain ⟨hresponse, hstored, hdirect⟩ := fresh_create_overlong overlongName
    (replicate_accepted (by decide)) (by decide +kernel)
  exact ⟨hresponse, hstored, by decide +kernel, hdirect⟩

/-! ## Tombstone requests -/

/-- The requests that go through a list of tombstones. -/
def MetaOp.listsTombstones : MetaOp → Bool
  | .finalizeGcTombstones _ | .initializeGcDeleteTargets .. | .acknowledgeGcDeletes _ => true
  | _ => false

namespace Tables

/-- The chunk's tombstone may be dropped. -/
def finalizable (s : Tables) (chunk : ChunkId) : Bool :=
  (s.tombstones.get? chunk).any fun t => t.targetsInitialized && decide (t.pendingTargets = [])

/-- The chunk has a tombstone. -/
def tombstoned (s : Tables) (chunk : ChunkId) : Bool := (s.tombstones.get? chunk).isSome

/-- The chunk's tombstone has its targets. -/
def targeted (s : Tables) (chunk : ChunkId) : Bool :=
  (s.tombstones.get? chunk).any (·.targetsInitialized)

/-- The target still has to delete the chunk. -/
def awaits (s : Tables) (chunk : ChunkId) (target : WorkerTargetId) : Bool :=
  (s.tombstones.get? chunk).any (target ∈ ·.pendingTargets)

end Tables

/-- The elements before the first that does not pass its check have nothing to write. -/
def MetaOp.FrontWritesNothing (s : Tables) : MetaOp → Prop
  | .finalizeGcTombstones chunks => chunks.takeWhile s.finalizable = []
  | .initializeGcDeleteTargets chunks _ =>
    ∀ chunk ∈ chunks.takeWhile s.tombstoned, s.targeted chunk = true
  | .acknowledgeGcDeletes deleted =>
    ∀ row ∈ deleted.takeWhile (s.targeted ·.1), s.awaits row.1 row.2 = false
  | _ => True

section
variable {s : Tables}
variable {chunk : ChunkId}

theorem findTombstone_run {t : GcTombstone} (h : s.tombstones.get? chunk = some t) :
    findTombstone chunk s = (.ok t, s) := by
  rw [findTombstone, Txn.query_run, h]

theorem findTombstone_none (h : s.tombstones.get? chunk = none) :
    findTombstone chunk s = (.error .notFound, s) := by
  rw [findTombstone, Txn.query_run, h]

theorem finalizeTombstones_stays {chunks : List ChunkId}
    (h : chunks.takeWhile s.finalizable = []) : (finalizeTombstonesInTxn chunks s).2 = s := by
  refine Txn.forEach_stays s.finalizable ?_ (by simp [h])
  intro chunk _ hrefused
  cases ht : s.tombstones.get? chunk with
  | none => exact ⟨_, Txn.bind_of_error (findTombstone_none ht) _⟩
  | some t =>
    have hbusy : t.targetsInitialized = false ∨ t.pendingTargets ≠ [] := by
      simpa [Tables.finalizable, ht, imp_iff_not_or] using hrefused
    exact ⟨_, by rw [Txn.bind_of_ok (findTombstone_run ht), Txn.failIf_bind_run, if_pos hbusy]⟩

/-- The tombstone of a first chunk that passes is gone for good. -/
theorem finalizeTombstones_drops (chunks : List ChunkId) (h : s.finalizable chunk = true) :
    (finalizeTombstonesInTxn (chunk :: chunks) s).2.tombstones.get? chunk = none := by
  obtain ⟨t, ht, hdone⟩ := (Option.any_eq_true _ _).mp h
  have hbusy : ¬ (t.targetsInitialized = false ∨ t.pendingTargets ≠ []) := by simpa using hdone
  rw [finalizeTombstonesInTxn, Txn.forEach, bind_assoc, Txn.bind_of_ok (findTombstone_run ht),
    bind_assoc, Txn.failIf_bind_run, if_neg hbusy, Txn.modify_bind_run]
  refine Txn.Preserves.forEach (P := fun s : Tables => s.tombstones.get? chunk = none) chunks
    (fun other _ u hgone => ?_) _ (Keyed.get?_delete_self ..)
  let gone : Except FluxError Unit × Tables → Prop := fun o => o.2.tombstones.get? chunk = none
  refine Txn.outcome_query (P := gone) (fun _ _ => hgone) fun _ _ => ?_
  refine Txn.outcome_failIf (P := gone) (fun _ => hgone) fun _ => ?_
  exact (Keyed.get?_delete ..).trans (by rw [hgone, ite_self])

theorem get_putTombstone (t : GcTombstone) (c : ChunkId) :
    (s.putTombstone t).tombstones.get? c = if t.chunk = c then some t else s.tombstones.get? c :=
  Keyed.get?_put ..

theorem initializeGcTargets_stays {chunks : List ChunkId} {targets : List WorkerTargetId}
    (h : ∀ chunk ∈ chunks.takeWhile s.tombstoned, s.targeted chunk = true) :
    (initializeGcTargetsInTxn chunks targets s).2 = s := by
  refine Txn.forEach_stays s.tombstoned ?_ ?_
  · intro chunk _ hmissing
    have hnone : s.tombstones.get? chunk = none := by simpa [Tables.tombstoned] using hmissing
    exact ⟨_, Txn.bind_of_error (findTombstone_none hnone) _⟩
  · intro chunk hchunk
    obtain ⟨t, ht, hinit⟩ := (Option.any_eq_true _ _).mp (h chunk hchunk)
    rw [Txn.bind_of_ok (findTombstone_run ht), if_neg (by simp [hinit])]
    rfl

/-- What one round of the loop does to the tombstones. -/
theorem initializeTarget_run {targets : List WorkerTargetId} {t : GcTombstone}
    (ht : s.tombstones.get? chunk = some t) : (do
      let tombstone ← findTombstone chunk
      if tombstone.targetsInitialized = false then
        Txn.modify (·.putTombstone
          { tombstone with targetsInitialized := true, pendingTargets := Table.ordSet targets })
      else pure () : MetaTxn Unit) s =
      (.ok (), if t.targetsInitialized = false then s.putTombstone
        { t with targetsInitialized := true, pendingTargets := Table.ordSet targets } else s) := by
  rw [Txn.bind_of_ok (findTombstone_run ht)]
  split
  · rfl
  · rfl

theorem targeted_putTombstone {t : GcTombstone} (hinit : t.targetsInitialized = true)
    (h : t.chunk = chunk ∨ s.targeted chunk = true) : (s.putTombstone t).targeted chunk = true := by
  rw [Tables.targeted, get_putTombstone]
  split
  · exact hinit
  · rename_i hne
    exact h.resolve_left hne

/-- A chunk before the first without a tombstone has its targets behind the loop. -/
theorem initializeGcTargets_targets {chunks : List ChunkId} (targets : List WorkerTargetId)
    (h : chunk ∈ chunks.takeWhile s.tombstoned) :
    (initializeGcTargetsInTxn chunks targets s).2.targeted chunk = true := by
  refine Txn.forEach_marks Tables.tombstoned
    (P := fun s : Tables => s.targeted chunk = true) ?_ ?_ ?_ h
  · intro other u hu
    let targeted : Except FluxError Unit × Tables → Prop := fun o => o.2.targeted chunk = true
    refine Txn.outcome_query (P := targeted) (fun _ _ => hu) fun t _ => ?_
    split
    · exact targeted_putTombstone rfl (.inr hu)
    · exact hu
  · intro other u hother
    obtain ⟨t, ht⟩ := Option.isSome_iff_exists.mp hother
    refine ⟨_, initializeTarget_run ht, fun c hc => ?_⟩
    split
    · rw [Tables.tombstoned, get_putTombstone]
      split
      · rfl
      · exact hc
    · exact hc
  · intro u hu
    obtain ⟨t, ht⟩ := Option.isSome_iff_exists.mp hu
    have hchunk : t.chunk = chunk := Keyed.key_of_get? ht
    rw [initializeTarget_run ht]
    split
    · exact targeted_putTombstone rfl (.inl hchunk)
    · rename_i hinit
      simpa [Tables.targeted, ht] using hinit

/-- What one round of the loop does to the tombstones. -/
theorem acknowledgeDelete_run {row : ChunkId × WorkerTargetId} {t : GcTombstone}
    (ht : s.tombstones.get? row.1 = some t) (hinit : t.targetsInitialized = true) :
    (do
      let tombstone ← findTombstone row.1
      Txn.failIf (tombstone.targetsInitialized = false) .busy
      Txn.modify (·.putTombstone
        { tombstone with
          pendingTargets := tombstone.pendingTargets.filter (· ≠ row.2) }) : MetaTxn Unit) s =
      (.ok (), s.putTombstone
        { t with pendingTargets := t.pendingTargets.filter (· ≠ row.2) }) := by
  rw [Txn.bind_of_ok (findTombstone_run ht), Txn.failIf_bind_run, if_neg (by simp [hinit])]
  rfl

theorem acknowledgeGcDeletes_stays {deleted : List (ChunkId × WorkerTargetId)}
    (h : ∀ row ∈ deleted.takeWhile (s.targeted ·.1), s.awaits row.1 row.2 = false) :
    (acknowledgeGcDeletesInTxn deleted s).2 = s := by
  refine Txn.forEach_stays (fun row => s.targeted row.1) ?_ ?_
  · intro row _ hrefused
    cases ht : s.tombstones.get? row.1 with
    | none => exact ⟨_, Txn.bind_of_error (findTombstone_none ht) _⟩
    | some t =>
      have hbusy : t.targetsInitialized = false := by
        simpa [Tables.targeted, ht] using hrefused
      exact ⟨_, by
        rw [Txn.bind_of_ok (findTombstone_run ht), Txn.failIf_bind_run, if_pos hbusy]⟩
  · intro row hrow
    have htargeted := List.mem_takeWhile_imp hrow
    obtain ⟨t, ht, hinit⟩ := (Option.any_eq_true _ _).mp htargeted
    have hgone : row.2 ∉ t.pendingTargets := by
      simpa [Tables.awaits, ht] using h row hrow
    -- a target that is not pending is filtered out of nothing
    have hsame : t.pendingTargets.filter (· ≠ row.2) = t.pendingTargets := by
      rw [List.filter_eq_self]
      intro target htarget
      have hne : target ≠ row.2 := fun heq => hgone (heq ▸ htarget)
      simpa using hne
    have hput : s.putTombstone t = s := by
      rw [Tables.putTombstone, Keyed.put_of_get? (Keyed.get?_of_get? ht)]
    rw [acknowledgeDelete_run ht hinit, hsame]
    exact hput

/-- A target before the first refused row does not have to delete its chunk any more. -/
theorem acknowledgeGcDeletes_acknowledges {row : ChunkId × WorkerTargetId}
    {deleted : List (ChunkId × WorkerTargetId)} (h : row ∈ deleted.takeWhile (s.targeted ·.1)) :
    (acknowledgeGcDeletesInTxn deleted s).2.awaits row.1 row.2 = false := by
  -- a filtered list of targets has lost one and gained none
  have hfilter : ∀ (u : Tables) (c : ChunkId) (target : WorkerTargetId) (t : GcTombstone),
      u.tombstones.get? c = some t → (c = row.1 ∧ target = row.2) ∨ u.awaits row.1 row.2 = false →
      (u.putTombstone { t with pendingTargets := t.pendingTargets.filter (· ≠ target) }).awaits
        row.1 row.2 = false := by
    intro u c target t ht hwas
    obtain rfl : t.chunk = c := Keyed.key_of_get? ht
    rw [Tables.awaits, get_putTombstone]
    split
    · rename_i hsame
      rcases hwas with ⟨-, rfl⟩ | hgone
      · simp
      · rw [show t.chunk = row.1 from hsame] at ht
        simp only [Tables.awaits, ht, Option.any_some, decide_eq_false_iff_not] at hgone
        simpa using fun hmem => absurd hmem hgone
    · rename_i hother
      exact hwas.resolve_left fun h => hother h.1
  refine Txn.forEach_marks (fun s row => Tables.targeted s row.1)
    (P := fun s : Tables => s.awaits row.1 row.2 = false) ?_ ?_ ?_ h
  · intro other u hu
    let answered : Except FluxError Unit × Tables → Prop := fun o =>
      o.2.awaits row.1 row.2 = false
    refine Txn.outcome_query (P := answered) (fun _ _ => hu) fun t ht => ?_
    refine Txn.outcome_failIf (P := answered) (fun _ => hu) fun _ => ?_
    cases hget : u.tombstones.get? other.1 with
    | none =>
      rw [hget] at ht
      cases ht
    | some t' =>
      rw [hget] at ht
      cases ht
      exact hfilter u other.1 other.2 t hget (.inr hu)
  · intro other u hother
    obtain ⟨t, ht, hinit⟩ := (Option.any_eq_true _ _).mp hother
    exact ⟨_, acknowledgeDelete_run ht hinit, fun c hc => targeted_putTombstone hinit (.inr hc)⟩
  · intro u hu
    obtain ⟨t, ht, hinit⟩ := (Option.any_eq_true _ _).mp hu
    rw [acknowledgeDelete_run ht hinit]
    exact hfilter u row.1 row.2 t ht (.inl ⟨rfl, rfl⟩)

/-- A tombstone request leaves the tombstones alone exactly if its front has nothing to
write. -/
theorem performOp_tombstones_iff (now : Clock) {op : MetaOp} (hop : op.listsTombstones = true) :
    (performOp now op s).2.tombstones = s.tombstones ↔ op.FrontWritesNothing s := by
  cases op with
  | finalizeGcTombstones chunks =>
    rw [performOp, Txn.bind_pure_state]
    refine ⟨fun hsame => ?_, fun h => by rw [finalizeTombstones_stays h]⟩
    cases chunks with
    | nil => rfl
    | cons chunk chunks =>
      refine List.takeWhile_cons_of_neg fun hpass => ?_
      have hgone := finalizeTombstones_drops chunks hpass
      rw [hsame] at hgone
      simp [Tables.finalizable, hgone] at hpass
  | initializeGcDeleteTargets chunks targets =>
    rw [performOp, Txn.bind_pure_state]
    refine ⟨fun hsame chunk hchunk => ?_, fun h => by rw [initializeGcTargets_stays h]⟩
    have htargeted := initializeGcTargets_targets targets hchunk
    rwa [Tables.targeted, hsame] at htargeted
  | acknowledgeGcDeletes deleted =>
    rw [performOp, Txn.bind_pure_state]
    refine ⟨fun hsame row hrow => ?_, fun h => by rw [acknowledgeGcDeletes_stays h]⟩
    have hgone := acknowledgeGcDeletes_acknowledges hrow
    rwa [Tables.awaits, hsame] at hgone
  | _ => cases hop

end

/-- A tombstone request, answered with an error or not, leaves the tombstones as they were
exactly if it does not execute or has nothing to write before the first element that fails
its check; on the direct path one that fails always does. -/
theorem failed_gc_batch_leaves_tombstones (now : Clock) (req : MetaRaftRequest) (s : Tables)
    (hop : req.op.listsTombstones = true) :
    ((applyRaftRequest now req s).2.tombstones = s.tombstones ↔
      (req.executes s = true → req.op.FrontWritesNothing s)) ∧
      ∀ e' t, withWriteTxn (performOp now req.op) s = (.error e', t) →
        t.tombstones = s.tombstones := by
  refine ⟨?_, fun e' t hfailed => by rw [Txn.atomic_of_error hfailed]⟩
  cases hexec : req.executes s with
  | false =>
    obtain ⟨after, htables⟩ := applyRaftRequest_of_not_executes now hexec
    simp [htables]
  | true =>
    obtain ⟨before, after, -, htables⟩ := applyRaftRequest_of_executes now hexec
    have hiff := performOp_tombstones_iff now (s := { s with clientRequests := before }) hop
    have hledger : req.op.FrontWritesNothing { s with clientRequests := before } ↔
        req.op.FrontWritesNothing s := by
      cases req.op <;> exact Iff.rfl
    rw [htables]
    exact ⟨fun hsame _ => hledger.mp (hiff.mp hsame),
      fun hfront => hiff.mpr (hledger.mpr (hfront rfl))⟩

/-- One tombstone whose only target has acknowledged, and one without targets yet. -/
def sampleTombstones : List MetaRequest :=
  [⟨1, none, 0, .tombstoneGcBatch [.ofByte 1, .ofByte 2]⟩,
    ⟨2, none, 0, .initializeGcDeleteTargets [.ofByte 1] [7]⟩,
    ⟨3, none, 0, .acknowledgeGcDeletes [(.ofByte 1, 7)]⟩]

/-- The chunk that cannot be finalised comes first. -/
theorem failed_gc_batch_leaves_tombstones_sampleTombstones :
    (applyRaftRequest 4 ⟨none, 0, .finalizeGcTombstones [.ofByte 2, .ofByte 1]⟩
      (runMeta (Tables.fresh 0) sampleTombstones)).1 = .err .busy ∧
    (applyRaftRequest 4 ⟨none, 0, .finalizeGcTombstones [.ofByte 2, .ofByte 1]⟩
      (runMeta (Tables.fresh 0) sampleTombstones)).2.tombstones =
        (runMeta (Tables.fresh 0) sampleTombstones).tombstones := by
  have herr : (applyRaftRequest 4 ⟨none, 0, .finalizeGcTombstones [.ofByte 2, .ofByte 1]⟩
      (runMeta (Tables.fresh 0) sampleTombstones)).1 = .err .busy := by decide +kernel
  have hfirst : [ChunkId.ofByte 2, ChunkId.ofByte 1].takeWhile
      (runMeta (Tables.fresh 0) sampleTombstones).finalizable = [] := by decide +kernel
  exact ⟨herr, (failed_gc_batch_leaves_tombstones 4 _ _ rfl).1.mpr fun _ => hfirst⟩

/-- The chunk that cannot be finalised comes second: the first tombstone is gone,
though the request failed. -/
theorem failed_gc_batch_drops_tombstone :
    (applyRaftRequest 4 ⟨none, 0, .finalizeGcTombstones [.ofByte 1, .ofByte 2]⟩
      (runMeta (Tables.fresh 0) sampleTombstones)).1 = .err .busy ∧
    (runMeta (Tables.fresh 0) sampleTombstones).tombstones.get? (.ofByte 1) =
      some ⟨.ofByte 1, true, []⟩ ∧
    (applyRaftRequest 4 ⟨none, 0, .finalizeGcTombstones [.ofByte 1, .ofByte 2]⟩
      (runMeta (Tables.fresh 0) sampleTombstones)).2.tombstones.get? (.ofByte 1) = none ∧
    (withWriteTxn (performOp 4 (.finalizeGcTombstones [.ofByte 1, .ofByte 2]))
      (runMeta (Tables.fresh 0) sampleTombstones)).2.tombstones.get? (.ofByte 1) =
        some ⟨.ofByte 1, true, []⟩ := by
  decide +kernel

end FluxFS
