import FluxFS.Meta.Presence
import FluxFS.Meta.Rollback

/-!
# Xattrs — what the attribute rows promise

`SetXattr` checks an attribute against the inode's type and the per-inode
limits. A create below a directory with a default ACL writes ACL rows of its
own and checks neither. The limits survive, because a new inode has no other
rows; the type check survives unless the new inode is a symlink, which then
carries an ACL that `validate_xattr` refuses.
-/

namespace FluxFS

open Std Kit

/-- The requests that change the name space or attributes. -/
def MetaOp.namesOrXattrs : MetaOp → Bool
  | .create .. | .symlink .. | .link .. | .unlink .. | .rmdir .. | .rename .. | .importExternal ..
  | .openInode .. | .closeInode .. | .recoverSession .. | .putInodeCas ..
  | .setXattr .. | .removeXattr .. => true
  | _ => false

/-- No symlink is made below a directory that has a default ACL. -/
def MetaOp.sparesSymlinks (s : Tables) : MetaOp → Bool
  | .create parent _ fileType .. =>
    fileType ≠ .symlink || s.xattrs[NameKey.mk parent defaultAcl]?.isNone
  | .symlink parent .. => s.xattrs[NameKey.mk parent defaultAcl]?.isNone
  | _ => true

/-- A request of a run of the name space and attributes, as it arrives at `s`. -/
structure XattrStep (s : Tables) (r : MetaRequest) : Prop where
  kind : r.req.op.namesOrXattrs = true
  symlinks : r.req.op.sparesSymlinks s = true

instance (s : Tables) (r : MetaRequest) : Decidable (XattrStep s r) :=
  decidable_of_iff (r.req.op.namesOrXattrs = true ∧ r.req.op.sparesSymlinks s = true)
    ⟨fun ⟨h1, h2⟩ => ⟨h1, h2⟩, fun ⟨h1, h2⟩ => ⟨h1, h2⟩⟩

theorem MetaOp.notRaw_of_namesOrXattrs {op : MetaOp} (h : op.namesOrXattrs = true) :
    op.isRaw = false := by
  cases op
  case putInode => cases h
  all_goals rfl

theorem MetaOp.commit_of_namesOrXattrs {op : MetaOp} (h : op.namesOrXattrs = true) :
    op.commit? = none := by
  cases op
  case commitInodeManifest | commitInodeManifestReserved => cases h
  all_goals rfl

/-! ## Types never change -/

/-- The inodes that were there at `s₀` and still are have the type they had. -/
structure SameTypes (s₀ s : Tables) : Prop where
  next : s₀.nextInode ≤ s.nextInode
  typed : ∀ id i, s.inodes.get? id = some i → id < s₀.nextInode →
    ∃ j, s₀.inodes.get? id = some j ∧ i.fileType = j.fileType

namespace SameTypes
variable {s₀ s t : Tables}

theorem refl (s : Tables) : SameTypes s s := ⟨le_rfl, fun _ i hi _ => ⟨i, hi, rfl⟩⟩

theorem frame (h : SameTypes s₀ s) (hinodes : t.inodes = s.inodes)
    (hnext : s.nextInode ≤ t.nextInode) : SameTypes s₀ t where
  next := h.next.trans hnext
  typed id i hi := h.typed id i (hinodes ▸ hi)

theorem putInode (h : SameTypes s₀ s) {i old : Inode} (hold : s.inodes.get? i.id = some old)
    (htype : i.fileType = old.fileType) : SameTypes s₀ (s.putInode i) where
  next := h.next
  typed id j hj hlt := by
    rw [Tables.get_putInode] at hj
    split at hj
    · rename_i heq
      subst heq
      cases hj
      obtain ⟨k, hk, hsame⟩ := h.typed _ old hold hlt
      exact ⟨k, hk, htype.trans hsame⟩
    · exact h.typed id j hj hlt

theorem addInode (h : SameTypes s₀ s) {i : Inode} (hid : i.id = s.nextInode) :
    SameTypes s₀ (s.addInode i) where
  next := h.next.trans (Nat.le_succ _)
  typed id j hj hlt := by
    rw [Tables.addInode, Tables.get_putInode] at hj
    split at hj
    · rename_i heq
      have hnew : s.nextInode ≤ id := by rw [← heq, hid]
      exact absurd (h.next.trans hnew) (Nat.not_le.mpr hlt)
    · exact h.typed id j hj hlt

theorem deleteInode (h : SameTypes s₀ s) (gone : InodeId) : SameTypes s₀ (s.deleteInode gone) where
  next := h.next
  typed id i hi := h.typed id i (Tables.of_get_deleteInode hi).2

theorem edit {now : Clock} {op : MetaOp} {faulty records : Prop} {start : Keyed Inode.id}
    (hraw : op.isRaw = false) (hcommit : op.commit? = none) (h : SameTypes s₀ s)
    (e : Edit now op faulty records start s t) : SameTypes s₀ t := by
  cases e with
  | raw hop =>
    rw [hop] at hraw
    cases hraw
  | commitImage hop =>
    rw [hcommit] at hop
    cases hop
  | skipInode => exact h.frame rfl (Nat.le_succ _)
  | touch hold hnew =>
    rw [hnew]
    exact h.putInode hold rfl
  | addEntry _ _ hborn => exact (h.addInode hborn.id_eq).frame rfl le_rfl
  | addOrphan _ _ hborn => exact h.addInode hborn.id_eq
  | @linkEntry k source _ _ hsource =>
    exact (h.putInode (i := { source with
      linkCount := source.linkCount + 1
      generation := saturatingAdd source.generation 1
      ctimeMs := now.inode }) hsource rfl).frame rfl le_rfl
  | @unlinkEntry k child _ hchild =>
    exact (h.frame (t := s.eraseDentry k) rfl le_rfl).putInode hchild rfl
  | @reapEntry k | @removeDir k => exact (h.frame (t := s.eraseDentry k) rfl le_rfl).deleteInode _
  | @moveEntry oldKey newKey source _ _ _ hsource =>
    exact (h.frame (t := (s.eraseDentry oldKey).putDentry newKey source.id) rfl
      le_rfl).putInode hsource rfl
  | closePresence =>
    apply reapAll_keep
    · intro s id _ hs _ _ _
      exact hs.deleteInode id
    · exact h.frame rfl le_rfl
  | beginFlush hstored => exact h.putInode hstored rfl
  | publishFlush _ hstored => exact h.putInode hstored rfl
  | failFlush _ hstored => exact h.putInode hstored rfl
  | aside | eraseEntry | openPresence | putXattr | eraseXattr | addManifest | removeManifests
  | reserve | dropReservations | tombstone | updateTombstone | dropTombstone =>
    exact h.frame rfl le_rfl

end SameTypes

/-- The checks of an attribute read the inode's type only. -/
theorem validateXattr_congr {i j : Inode} (h : i.fileType = j.fileType) (name : String)
    (value : Bytes) : validateXattr i name value = validateXattr j name value := by
  simp only [validateXattr, h]

/-! ## The limits of one inode -/

/-- The inode's attributes are within the limits. -/
structure XattrsFit (s : Tables) (id : InodeId) : Prop where
  count : (xattrValues s id).length ≤ xattrCountMax
  total : ((xattrValues s id).map List.length).sum ≤ xattrTotalMax

/-- The inode's attribute rows. -/
def xattrRows (s : Tables) (id : InodeId) : List (NameKey × Bytes) :=
  s.xattrs.toList.filter (·.1.owner = id)

theorem xattrValues_eq (s : Tables) (id : InodeId) :
    xattrValues s id = (xattrRows s id).map Prod.snd := rfl

section
variable {s t : Tables} {id : InodeId} {k : NameKey} {v : Bytes}

theorem mem_xattrRows : (k, v) ∈ xattrRows s id ↔ s.xattrs[k]? = some v ∧ k.owner = id := by
  rw [xattrRows, List.mem_filter, Table.mem_rows, decide_eq_true_eq]

/-- An inode whose rows are among some that are within the limits. -/
theorem XattrsFit.of_subset {rows : List (NameKey × Bytes)}
    (h : ∀ (k : NameKey) (v : Bytes), k.owner = id → t.xattrs[k]? = some v → (k, v) ∈ rows)
    (hcount : rows.length ≤ xattrCountMax)
    (htotal : ((rows.map Prod.snd).map List.length).sum ≤ xattrTotalMax) : XattrsFit t id := by
  have hrows : (xattrRows t id).Subperm rows := by
    refine List.subperm_of_subset ((Table.rows_nodup t.xattrs).filter _) ?_
    rintro ⟨k, v⟩ hrow
    obtain ⟨hrow, howner⟩ := mem_xattrRows.mp hrow
    exact h k v howner hrow
  obtain ⟨part, hperm, hsub⟩ := hrows
  constructor
  · rw [xattrValues_eq, List.length_map, ← hperm.length_eq]
    exact hsub.length_le.trans hcount
  · rw [xattrValues_eq, ← ((hperm.map Prod.snd).map List.length).sum_eq]
    exact (((hsub.map Prod.snd).map List.length).sum_le_sum (by simp)).trans htotal

theorem XattrsFit.mono (hs : XattrsFit s id)
    (h : ∀ (k : NameKey) (v : Bytes), k.owner = id → t.xattrs[k]? = some v → s.xattrs[k]? =
      some v) :
    XattrsFit t id := by
  have hcount := hs.count
  have htotal := hs.total
  rw [xattrValues_eq] at hcount htotal
  rw [List.length_map] at hcount
  exact .of_subset (fun k v howner hrow => mem_xattrRows.mpr ⟨h k v howner hrow, howner⟩) hcount
    htotal

/-- A write replaces the value under its name. -/
theorem xattrValues_insert (ht : t.xattrs = s.xattrs.insert k v) (hid : k.owner = id) :
    (xattrValues t id).Perm
      (v :: xattrValues { s with xattrs := s.xattrs.erase k } id) := by
  have hrows := ((Table.rows_insert_erase_perm s.xattrs k v).filter (·.1.owner = id)).map Prod.snd
  rw [List.filter_cons_of_pos (by simpa using hid)] at hrows
  rw [xattrValues, ht]
  exact hrows

theorem xattrValues_erase {w : Bytes} (hrow : s.xattrs[k]? = some w) (hid : k.owner = id) :
    (xattrValues s id).Perm (w :: xattrValues { s with xattrs := s.xattrs.erase k } id) := by
  have hrows := ((Table.rows_erase_perm s.xattrs hrow).filter (·.1.owner = id)).map Prod.snd
  rw [List.filter_cons_of_pos (by simpa using hid)] at hrows
  exact hrows

theorem xattrValues_erase_none (hrow : s.xattrs[k]? = none) :
    xattrValues { s with xattrs := s.xattrs.erase k } id = xattrValues s id := by
  rw [xattrValues, Table.erase_of_none hrow, xattrValues]

/-- What an accepted write has checked. -/
theorem room_of_checkXattrRoom {mode : XattrSetMode} (h : checkXattrRoom s k v mode = .ok ()) :
    (s.xattrs[k]? = none → (xattrValues s k.owner).length < xattrCountMax) ∧
      ((xattrValues s k.owner).map List.length).sum - s.xattrs[k]?.elim 0 List.length + v.length ≤
        xattrTotalMax := by
  simp only [checkXattrRoom] at h
  split at h
  · cases h
  · split at h
    · cases h
    · split at h
      · cases h
      · rename_i hcount
        split at h
        · cases h
        · rename_i htotal
          refine ⟨fun hnone => ?_, Nat.not_lt.mp htotal⟩
          exact Nat.not_le.mp fun hfull => hcount ⟨by rw [hnone]; rfl, hfull⟩

/-- An accepted write keeps the inode within its limits. -/
theorem XattrsFit.insert {mode : XattrSetMode} (hs : XattrsFit s k.owner)
    (hroom : checkXattrRoom s k v mode = .ok ()) (ht : t.xattrs = s.xattrs.insert k v) :
    XattrsFit t k.owner := by
  obtain ⟨hcount, htotal⟩ := room_of_checkXattrRoom hroom
  have hperm := xattrValues_insert ht rfl
  cases hrow : s.xattrs[k]? with
  | none =>
    rw [xattrValues_erase_none hrow] at hperm
    rw [hrow, Option.elim_none, Nat.sub_zero] at htotal
    constructor
    · rw [hperm.length_eq, List.length_cons]
      exact hcount hrow
    · rw [(hperm.map List.length).sum_eq, List.map_cons, List.sum_cons, Nat.add_comm]
      exact htotal
  | some w =>
    have hold := xattrValues_erase hrow rfl
    have holdCount := hold.length_eq
    have holdTotal := (hold.map List.length).sum_eq
    rw [List.length_cons] at holdCount
    rw [List.map_cons, List.sum_cons] at holdTotal
    rw [hrow, Option.elim_some] at htotal
    constructor
    · rw [hperm.length_eq, List.length_cons, ← holdCount]
      exact hs.count
    · rw [(hperm.map List.length).sum_eq, List.map_cons, List.sum_cons]
      omega

end

/-! ## The invariant -/

/-- Every attribute row is one that `SetXattr` would accept. -/
structure XattrsSound (s : Tables) : Prop where
  grounded : Grounded s
  owned : Owned s
  valid : ∀ (k : NameKey) (v : Bytes), s.xattrs[k]? = some v →
    ∃ i, s.inodes.get? k.owner = some i ∧ validateXattr i k.name v = .ok ()
  fits : ∀ id, XattrsFit s id

namespace XattrsSound
variable {now : Clock} {s t : Tables} {op : MetaOp}

theorem fresh (now : Int) : XattrsSound (Tables.fresh now) where
  grounded := Grounded.fresh now
  owned := Owned.fresh now
  valid k v h := by simp [Tables.fresh] at h
  fits id := by
    have hnone : xattrValues (Tables.fresh now) id = [] := by simp [xattrValues, Tables.fresh]
    exact ⟨by simp [hnone], by simp [hnone]⟩

theorem ledger (h : XattrsSound s) (rows : Table RequestOpId ClientRequestLedgerEntry) :
    XattrsSound { s with clientRequests := rows } :=
  ⟨⟨h.grounded.below, h.grounded.noSelf⟩, ⟨h.owned.opened, h.owned.xattrs, h.owned.reservations⟩,
    h.valid, fun id => ⟨(h.fits id).count, (h.fits id).total⟩⟩

/-- After an operation of this family the rows that were there before still belong
to inodes of the type they were checked for; the other rows are left to check. -/
theorem of_rows (hop : op.namesOrXattrs = true) (h : XattrsSound s)
    (hnew : ∀ (k : NameKey) (v : Bytes), (performOp now op s).2.xattrs[k]? = some v →
      s.xattrs[k]? = some v ∨ ∃ i, (performOp now op s).2.inodes.get? k.owner = some i ∧
        validateXattr i k.name v = .ok ())
    (hfits : ∀ id, XattrsFit (performOp now op s).2 id) :
    XattrsSound (performOp now op s).2 := by
  have hraw := MetaOp.notRaw_of_namesOrXattrs hop
  have hcommit := MetaOp.commit_of_namesOrXattrs hop
  have himage : op.keepsLinks s = true := by simp [MetaOp.keepsLinks, hcommit]
  have hedits : Edits now op True s (performOp now op s).2 :=
    performOp_edits op fun _ => h.grounded.noSelf
  have hkept : Grounded (performOp now op s).2 ∧ Owned (performOp now op s).2 ∧
      SameTypes s (performOp now op s).2 := by
    refine edits_keep (P := fun t => Grounded t ∧ Owned t ∧ SameTypes s t) ?_ hedits
      ⟨h.grounded, h.owned, .refl s⟩
    rintro a b ⟨hgrounded, howned, htypes⟩ e
    exact ⟨hgrounded.edit hraw e, howned.edit hraw himage hgrounded e, htypes.edit hraw hcommit e⟩
  obtain ⟨hgrounded, howned, htypes⟩ := hkept
  refine ⟨hgrounded, howned, fun k v hrow => ?_, hfits⟩
  rcases hnew k v hrow with hold | hvalid
  · obtain ⟨j, hj, hvalid⟩ := h.valid k v hold
    obtain ⟨i, hi⟩ := howned.xattrs k v hrow
    obtain ⟨j', hj', htype⟩ := htypes.typed _ i hi (h.grounded.below _ j hj)
    cases hj.symm.trans hj'
    exact ⟨i, hi, (validateXattr_congr htype k.name v).trans hvalid⟩
  · exact hvalid

theorem xattr_of_deleteInode {id : InodeId} {k : NameKey} {v : Bytes}
    (h : (s.deleteInode id).xattrs[k]? = some v) : s.xattrs[k]? = some v := by
  rw [xattrs_deleteInode] at h
  split at h
  · cases h
  · exact h

/-- An edit of an operation that writes no attribute leaves a part of the rows. -/
theorem xattr_of_edit {faulty records : Prop} {start : Keyed Inode.id} {t : Tables} {k : NameKey}
    {v : Bytes} (hputs : op.putsXattrs = false) (e : Edit now op faulty records start s t)
    (h : t.xattrs[k]? = some v) : s.xattrs[k]? = some v := by
  cases e with
  | putXattr _ hop =>
    rw [hputs] at hop
    cases hop
  | eraseXattr =>
    rw [Table.get_erase] at h
    split at h
    · cases h
    · exact h
  | reapEntry => exact xattr_of_deleteInode h
  | removeDir => exact xattr_of_deleteInode h
  | @closePresence keys ids =>
    exact reapAll_keep (P := fun t => t.xattrs[k]? = some v → s.xattrs[k]? = some v)
      (s := { s with openPresence := Table.eraseAll s.openPresence keys })
      (fun _ _ _ ha _ _ _ hrow => ha (xattr_of_deleteInode hrow)) ids (fun hrow => hrow) h
  | _ => exact h

/-- An operation that writes no attribute leaves a part of the rows. -/
theorem of_no_rows (hop : op.namesOrXattrs = true) (hputs : op.putsXattrs = false)
    (h : XattrsSound s) : XattrsSound (performOp now op s).2 := by
  have hedits : Edits now op True s (performOp now op s).2 :=
    performOp_edits op fun _ => h.grounded.noSelf
  have hkept : ∀ (k : NameKey) (v : Bytes), (performOp now op s).2.xattrs[k]? = some v →
      s.xattrs[k]? = some v := by
    refine edits_keep (P := fun t => ∀ (k : NameKey) (v : Bytes), t.xattrs[k]? = some v →
      s.xattrs[k]? = some v) ?_ hedits (fun _ _ hrow => hrow)
    intro a b ha e k v hrow
    exact ha k v (xattr_of_edit hputs e hrow)
  exact h.of_rows hop (fun k v hrow => .inl (hkept k v hrow))
    (fun id => (h.fits id).mono fun k v _ hrow => hkept k v hrow)

end XattrsSound

/-! ## Inherited rows -/

/-- What a create does to the attributes: nothing, or the new inode inherits the
default ACL of its parent. -/
def InheritsXattrs (s : Tables) (parent : InodeId) (fileType : FileType)
    (o : Except FluxError Inode × Tables) : Prop :=
  o.2.xattrs = s.xattrs ∨
    (∃ i, o.2.inodes.get? s.nextInode = some i ∧ i.fileType = fileType) ∧
      o.2.xattrs =
        (inheritAcl s.nextInode fileType s.xattrs[NameKey.mk parent defaultAcl]? s).xattrs

theorem inheritAcl_xattrs_congr {s t : Tables} (h : t.xattrs = s.xattrs) (id : InodeId)
    (fileType : FileType) (acl : Option Bytes) :
    (inheritAcl id fileType acl t).xattrs = (inheritAcl id fileType acl s).xattrs := by
  cases acl with
  | none => exact h
  | some acl => simp only [inheritAcl, h]

theorem inheritAcl_inodes (s : Tables) (id : InodeId) (fileType : FileType) (acl : Option Bytes) :
    (inheritAcl id fileType acl s).inodes = s.inodes := by
  cases acl with
  | none => rfl
  | some acl => rfl

theorem InheritsXattrs.inherited {s t : Tables} {parent : InodeId} {fileType : FileType} {i : Inode}
    (r : Except FluxError Inode) (hxattrs : t.xattrs = s.xattrs)
    (hi : t.inodes.get? s.nextInode = some i) (htype : i.fileType = fileType) :
    InheritsXattrs s parent fileType
      (r, inheritAcl s.nextInode fileType s.xattrs[NameKey.mk parent defaultAcl]? t) := by
  refine .inr ⟨⟨i, ?_, htype⟩, inheritAcl_xattrs_congr hxattrs ..⟩
  rw [inheritAcl_inodes]
  exact hi

theorem createNode_inherits {s : Tables} {now : Clock} {expected : Option Generation}
    {parent : InodeId} {name : String} {fileType : FileType} {mode uid gid : Nat}
    {target : Option String} : InheritsXattrs s parent fileType
      (createNodeInTxn now expected parent name fileType mode uid gid target s) := by
  have hstop (e : FluxError) : InheritsXattrs s parent fileType (.error e, s) := .inl rfl
  refine Txn.outcome_failIf (fun _ => hstop _) fun _ => ?_
  refine Txn.outcome_query (fun e _ => hstop e) fun _ _ => ?_
  refine outcome_loadAndBump hstop fun dir hdir => ?_
  simp only [allocInode, putDentryRow, bind_assoc, pure_bind]
  refine Txn.outcome_reads (Txn.outcome_reads (Txn.outcome_modify (Txn.outcome_modify ?_)))
  refine Txn.outcome_failIf (fun _ => .inl rfl) fun _ => ?_
  refine Txn.outcome_modify (Txn.outcome_modify ?_)
  have hstored : ∀ u : Tables,
      (u.putInode (newInode s.nextInode fileType mode uid gid target now.inode)).inodes.get?
        s.nextInode = some (newInode s.nextInode fileType mode uid gid target now.inode) :=
    fun u => Keyed.get?_put_self ..
  exact InheritsXattrs.inherited (.ok _) rfl (hstored _) rfl

theorem symlink_inherits {s : Tables} {now : Clock} {expected : Option Generation}
    {parent : InodeId} {name target : String} {uid gid : Nat} :
    InheritsXattrs s parent .symlink (symlinkInTxn now expected parent name target uid gid s) := by
  refine Txn.outcome_failIf (fun _ => .inl rfl) fun _ => ?_
  exact Txn.outcome_failIf (fun _ => .inl rfl) fun _ => createNode_inherits

/-- What the rows of the new inode are. -/
theorem of_get_inheritAcl {s : Tables} {id : InodeId} {fileType : FileType} {acl : Option Bytes}
    {k : NameKey} {v : Bytes} (h : (inheritAcl id fileType acl s).xattrs[k]? = some v) :
    s.xattrs[k]? = some v ∨ acl = some v ∧ k.owner = id ∧
      (k.name = accessAcl ∨ k.name = defaultAcl ∧ fileType = .directory) := by
  cases acl with
  | none => exact .inl h
  | some acl =>
    simp only [inheritAcl] at h
    split at h
    · rename_i hdir
      rw [Table.get_insert, Table.get_insert] at h
      split at h
      · rename_i heq
        subst heq
        exact .inr ⟨h, rfl, .inr ⟨rfl, hdir⟩⟩
      · split at h
        · rename_i heq
          subst heq
          exact .inr ⟨h, rfl, .inl rfl⟩
        · exact .inl h
    · rw [Table.get_insert] at h
      split at h
      · rename_i heq
        subst heq
        exact .inr ⟨h, rfl, .inl rfl⟩
      · exact .inl h

/-- The checks of an ACL. -/
theorem validateXattr_acl {i : Inode} {name : String} {acl : Bytes}
    (hname : name = accessAcl ∨ name = defaultAcl) :
    validateXattr i name acl =
      if acl.length > xattrValueMax then .error .noSpace
      else if i.fileType = .symlink then
        .error (.invalidArg "POSIX ACL xattrs are not supported on symlinks")
      else if name = defaultAcl ∧ i.fileType ≠ .directory then
        .error (.invalidArg "default POSIX ACL requires a directory")
      else validatePosixAclEa acl := by
  have hvalid : validateXattrName name = .ok () := by
    rcases hname with rfl | rfl
    · decide +kernel
    · decide +kernel
  unfold validateXattr
  rw [hvalid, if_pos hname]
  rfl

/-- A default ACL is well formed and may stand as an access ACL on anything but a
symlink, and as a default ACL on a directory. -/
theorem validateXattr_inherited {dir i : Inode} {acl : Bytes} {name : String}
    (hacl : validateXattr dir defaultAcl acl = .ok ()) (hsymlink : i.fileType ≠ .symlink)
    (hname : name = accessAcl ∨ name = defaultAcl ∧ i.fileType = .directory) :
    acl.length ≤ xattrValueMax ∧ validateXattr i name acl = .ok () := by
  rw [validateXattr_acl (.inr rfl)] at hacl
  split at hacl
  · cases hacl
  · rename_i hlength
    split at hacl
    · cases hacl
    · split at hacl
      · cases hacl
      · have hdefault : ¬ (name = defaultAcl ∧ i.fileType ≠ .directory) := by
          rintro ⟨hdefault, hfile⟩
          rcases hname with haccess | ⟨-, hdir⟩
          · rw [haccess] at hdefault
            exact absurd hdefault (by decide)
          · exact hfile hdir
        rw [validateXattr_acl (hname.imp_right And.left), if_neg hlength, if_neg hsymlink,
          if_neg hdefault]
        exact ⟨Nat.not_lt.mp hlength, hacl⟩

namespace XattrsSound
variable {now : Clock} {s t : Tables} {op : MetaOp}

/-- The rows of a new inode are two copies of its parent's default ACL at most. -/
theorem fits_inheritAcl (h : XattrsSound s) {fileType : FileType} {acl : Option Bytes}
    (hlength : ∀ v, acl = some v → v.length ≤ xattrValueMax)
    (ht : t.xattrs = (inheritAcl s.nextInode fileType acl s).xattrs) (id : InodeId) :
    XattrsFit t id := by
  by_cases hid : id = s.nextInode
  · subst hid
    cases hacl : acl with
    | none =>
      refine (h.fits s.nextInode).mono fun k v _ hrow => ?_
      rw [ht, hacl] at hrow
      exact hrow
    | some v =>
      have hv := hlength v hacl
      have hin : ∀ (k : NameKey) (w : Bytes), k.owner = s.nextInode → t.xattrs[k]? = some w →
          (k, w) ∈ [(⟨s.nextInode, accessAcl⟩, v), (⟨s.nextInode, defaultAcl⟩, v)] := by
        intro k w howner hrow
        rw [ht] at hrow
        rcases of_get_inheritAcl hrow with hold | ⟨hw, _, hname⟩
        · -- the new id has no rows yet
          obtain ⟨i, hi, _⟩ := h.valid k w hold
          have hlt := h.grounded.below _ i hi
          rw [howner] at hlt
          exact absurd hlt (Nat.lt_irrefl _)
        · obtain ⟨owner, name⟩ := k
          cases hacl.symm.trans hw
          rcases hname with rfl | ⟨rfl, -⟩
          · simp [show owner = s.nextInode from howner]
          · simp [show owner = s.nextInode from howner]
      refine .of_subset hin (by simp [xattrCountMax]) ?_
      simp only [List.map_cons, List.map_nil, List.sum_cons, List.sum_nil, xattrTotalMax]
      unfold xattrValueMax at hv
      omega
  · refine (h.fits id).mono fun k v howner hrow => ?_
    rw [ht] at hrow
    rcases of_get_inheritAcl hrow with hold | ⟨_, hnew, _⟩
    · exact hold
    · exact absurd (howner.symm.trans hnew) hid

/-- A create that spares symlinks. -/
theorem of_inherits (h : XattrsSound s) (hop : op.namesOrXattrs = true) {parent : InodeId}
    {fileType : FileType} {o : Except FluxError Inode × Tables}
    (hsymlink : fileType ≠ .symlink ∨ s.xattrs[NameKey.mk parent defaultAcl]? = none)
    (hinherits : InheritsXattrs s parent fileType o) (hrun : (performOp now op s).2 = o.2) :
    XattrsSound (performOp now op s).2 := by
  unfold InheritsXattrs at hinherits
  rw [← hrun] at hinherits
  rcases hinherits with hsame | ⟨⟨i, hi, htype⟩, hxattrs⟩
  · refine h.of_rows hop (fun k v hrow => .inl (hsame ▸ hrow)) fun id => (h.fits id).mono ?_
    intro k v _ hrow
    rw [hsame] at hrow
    exact hrow
  · have hparent : ∀ v, s.xattrs[NameKey.mk parent defaultAcl]? = some v →
        ∀ name, (name = accessAcl ∨ name = defaultAcl ∧ i.fileType = .directory) →
          v.length ≤ xattrValueMax ∧ validateXattr i name v = .ok () := by
      intro v hv name hname
      obtain ⟨dir, _, hacl⟩ := h.valid _ v hv
      refine validateXattr_inherited hacl ?_ hname
      rw [htype]
      exact hsymlink.resolve_right (by simp [hv])
    refine h.of_rows hop (fun k v hrow => ?_)
      (h.fits_inheritAcl (fun v hv => (hparent v hv accessAcl (.inl rfl)).1) hxattrs)
    rw [hxattrs] at hrow
    rcases of_get_inheritAcl hrow with hold | ⟨hacl, howner, hname⟩
    · exact .inl hold
    · refine .inr ⟨i, by rw [howner]; exact hi, ?_⟩
      exact (hparent v hacl k.name (hname.imp_right (And.imp_right htype.trans))).2

end XattrsSound

/-! ## Checked rows -/

/-- What `SetXattr` does to the attributes: nothing, or it writes a row that it has
checked. -/
def SetsXattr (s : Tables) (inode : InodeId) (name : String) (value : Bytes) (mode : XattrSetMode)
    (o : Except FluxError Inode × Tables) : Prop :=
  o.2.xattrs = s.xattrs ∨
    (∃ i, o.2.inodes.get? inode = some i ∧ validateXattr i name value = .ok ()) ∧
      checkXattrRoom s ⟨inode, name⟩ value mode = .ok () ∧
      o.2.xattrs = s.xattrs.insert ⟨inode, name⟩ value

theorem setXattr_sets {s : Tables} {time : Int} {expected : Generation} {inode : InodeId}
    {name : String} {value : Bytes} {mode : XattrSetMode} :
    SetsXattr s inode name value mode (setXattrInTxn time expected inode name value mode s) := by
  have hstop (e : FluxError) : SetsXattr s inode name value mode (.error e, s) := .inl rfl
  refine outcome_getInodeRaw hstop fun i hi => ?_
  refine Txn.outcome_failIf (fun _ => hstop _) fun _ => ?_
  refine Txn.outcome_query (fun e _ => hstop e) fun _ hvalid => ?_
  refine Txn.outcome_query (fun e _ => hstop e) fun _ hroom => ?_
  refine Txn.outcome_failIf (fun _ => hstop _) fun _ => ?_
  refine Txn.outcome_modify (Txn.outcome_modify (.inr ⟨⟨stampXattr time i, ?_, hvalid⟩, hroom, rfl⟩))
  obtain rfl : i.id = inode := Keyed.key_of_get? hi
  exact Keyed.get?_put_self ..

namespace XattrsSound
variable {now : Clock} {s : Tables}

theorem setXattr (h : XattrsSound s) {expected : Generation} {inode : InodeId} {name : String}
    {value : Bytes} {mode : XattrSetMode} :
    XattrsSound (performOp now (.setXattr expected inode name value mode) s).2 := by
  have hsets : SetsXattr s inode name value mode
    (setXattrInTxn now.inode expected inode name value mode s) := setXattr_sets
  have hrun : (performOp now (.setXattr expected inode name value mode) s).2 =
      (setXattrInTxn now.inode expected inode name value mode s).2 := Txn.bind_pure_state ..
  unfold SetsXattr at hsets
  rw [← hrun] at hsets
  rcases hsets with hsame | ⟨⟨i, hi, hvalid⟩, hroom, hxattrs⟩
  · refine h.of_rows rfl (fun k v hrow => .inl (hsame ▸ hrow)) fun id => (h.fits id).mono ?_
    intro k v _ hrow
    rw [hsame] at hrow
    exact hrow
  · refine h.of_rows rfl (fun k v hrow => ?_) fun id => ?_
    · rw [hxattrs, Table.get_insert] at hrow
      split at hrow
      · rename_i heq
        subst heq
        cases hrow
        exact .inr ⟨i, hi, hvalid⟩
      · exact .inl hrow
    · by_cases hid : id = inode
      · subst hid
        exact (h.fits id).insert hroom hxattrs
      · refine (h.fits id).mono fun k v howner hrow => ?_
        rw [hxattrs, Table.get_insert] at hrow
        split at hrow
        · rename_i heq
          exact absurd (howner.symm.trans (congrArg NameKey.owner heq.symm)) hid
        · exact hrow

/-- Every operation of the family that spares symlinks. -/
theorem operation (h : XattrsSound s) {op : MetaOp} (hop : op.namesOrXattrs = true)
    (hsymlinks : op.sparesSymlinks s = true) : XattrsSound (performOp now op s).2 := by
  cases hputs : op.putsXattrs with
  | false => exact h.of_no_rows hop hputs
  | true =>
    cases op
    case create parent name fileType mode uid gid expected =>
      refine h.of_inherits hop ?_ createNode_inherits (Txn.bind_pure_state ..)
      simpa [MetaOp.sparesSymlinks] using hsymlinks
    case symlink parent name target uid gid expected =>
      refine h.of_inherits hop (.inr ?_) symlink_inherits (Txn.bind_pure_state ..)
      simpa [MetaOp.sparesSymlinks] using hsymlinks
    case setXattr expected inode name value mode => exact h.setXattr
    all_goals cases hputs

theorem request {r : MetaRequest} (h : XattrsSound s) (hstep : XattrStep s r) :
    XattrsSound (applyRaftRequest r.now r.req s).2 := by
  cases hexec : r.req.executes s with
  | false =>
    obtain ⟨after, hafter⟩ := applyRaftRequest_of_not_executes r.now hexec
    rw [hafter]
    exact h.ledger after
  | true =>
    obtain ⟨before, after, -, hafter⟩ := applyRaftRequest_of_executes r.now hexec
    rw [hafter]
    exact ((h.ledger before).operation hstep.kind hstep.symlinks).ledger after

end XattrsSound

/-- In every state that name space and attribute requests reach without making a
symlink below a directory with a default ACL, each attribute row belongs to a
stored inode that `validate_xattr` accepts it for, and each inode is within the
limits. -/
theorem stored_xattrs_are_valid (start : Int) (requests : List MetaRequest) (s : Tables)
    (hsteps : Along metaStep XattrStep (Tables.fresh start) requests)
    (hrun : exec metaStep (Tables.fresh start) requests = some s) :
    (∀ (k : NameKey) (v : Bytes), s.xattrs[k]? = some v →
      ∃ i, s.inodes.get? k.owner = some i ∧ validateXattr i k.name v = .ok ()) ∧
    ∀ id, (xattrValues s id).length ≤ xattrCountMax ∧
      ((xattrValues s id).map List.length).sum ≤ xattrTotalMax := by
  have hsound : XattrsSound s := by
    refine exec_invariant_along (fun a r b ha hr hb => ?_) requests _ s (.fresh start) hsteps hrun
    cases hb
    exact ha.request hr
  exact ⟨hsound.valid, fun id => ⟨(hsound.fits id).count, (hsound.fits id).total⟩⟩

/-- A POSIX ACL with the three base entries. -/
def sampleAcl : Bytes :=
  [2, 0, 0, 0, 1, 0, 7, 0, 0, 0, 0, 0, 4, 0, 5, 0, 0, 0, 0, 0, 0x20, 0, 5, 0, 0, 0, 0, 0]

/-- A default ACL on the root, and a directory that inherits it. -/
def sampleAclRun : List MetaRequest :=
  [⟨1, none, 0, .setXattr 1 rootInode defaultAcl sampleAcl .upsert⟩,
    ⟨2, none, 0, .create rootInode "a" .directory 0o755 0 0 none⟩,
    ⟨3, none, 0, .setXattr 1 2 "user.k" [1, 2, 3] .create⟩]

theorem stored_xattrs_are_valid_sampleAclRun :
    (runMeta (Tables.fresh 0) sampleAclRun).xattrs[NameKey.mk 2 accessAcl]? = some sampleAcl ∧
      (∃ i, (runMeta (Tables.fresh 0) sampleAclRun).inodes.get? 2 = some i ∧
        validateXattr i accessAcl sampleAcl = .ok ()) ∧
      (xattrValues (runMeta (Tables.fresh 0) sampleAclRun) 2).length ≤ xattrCountMax := by
  obtain ⟨hvalid, hfits⟩ := stored_xattrs_are_valid 0 sampleAclRun _ (by decide +kernel)
    (exec_metaStep (Tables.fresh 0) sampleAclRun)
  have hrow : (runMeta (Tables.fresh 0) sampleAclRun).xattrs[NameKey.mk 2 accessAcl]? =
      some sampleAcl := by decide +kernel
  exact ⟨hrow, hvalid ⟨2, accessAcl⟩ sampleAcl hrow, (hfits 2).1⟩

/-- The symlink inherits an ACL that no symlink may have. -/
theorem symlink_inherits_acl :
    (runMeta (Tables.fresh 0)
      [⟨1, none, 0, .setXattr 1 rootInode defaultAcl sampleAcl .upsert⟩,
        ⟨2, none, 0, .symlink rootInode "l" "a" 0 0 none⟩]).xattrs[NameKey.mk 2 accessAcl]? =
          some sampleAcl ∧
      (((runMeta (Tables.fresh 0)
        [⟨1, none, 0, .setXattr 1 rootInode defaultAcl sampleAcl .upsert⟩,
          ⟨2, none, 0, .symlink rootInode "l" "a" 0 0 none⟩]).inodes.get? 2).map
        fun i => (i.fileType, validateXattr i accessAcl sampleAcl)) =
          some (.symlink, .error (.invalidArg
            "POSIX ACL xattrs are not supported on symlinks")) := by
  decide +kernel

end FluxFS
