import FluxFS.Meta.Links

/-!
# Rename — what a rename does and what it leaves alone

`renameInTxn_outcome` gives the outcomes of `rename_in_txn`: an error before
the first write, nothing to do, or a run through its writes. `Renamed` is the
effect of the last one, table by table. The subtree search is exact in both
directions: `below_of_inodeIsDescendant` is the half the edits did not need.
-/

namespace FluxFS

open Std Kit

section
variable {s t : Tables} {now : Clock} {time : Int} {expectedOld expectedNew : Option Generation}
  {oldKey newKey : NameKey} {noReplace : Bool} {source : Inode}
variable {replaced : Option Inode}

/-! ## What a rename has read -/

section
variable {β : Type} {P : Except FluxError β × Tables → Prop}

/-- The manifest step of an import has settled the record `i` as `j`. -/
structure Settled (s : Tables) (i j : Inode) (t : Tables) : Prop where
  inodes : t.inodes = s.inodes
  dentries : t.dentries = s.dentries
  next : t.nextInode = s.nextInode
  id : j.id = i.id
  ufs : j.ufs = i.ufs
  fileType : j.fileType = i.fileType

theorem outcome_importManifest {i : Inode} {manifest : Option Manifest} {f : Inode → MetaTxn β}
    (herr : ∀ e m, manifest = some m → m.validate ≠ .ok () → P (.error e, s))
    (hok : ∀ j t, (∀ m, manifest = some m → m.validate = .ok ()) → Settled s i j t → P (f j t)) :
    P ((importManifest i manifest >>= f) s) := by
  cases manifest with
  | none => exact hok _ s (by simp) ⟨rfl, rfl, rfl, rfl, rfl, rfl⟩
  | some m =>
    have hsame : ({ m with inode := i.id } : Manifest).validate = m.validate := rfl
    simp only [importManifest, putManifestInTxn, bind_assoc, Txn.query_bind_run, hsame]
    cases hvalid : m.validate with
    | error e => exact herr e m rfl (by simp [hvalid])
    | ok _ =>
      refine hok _ _ (fun m' hm' => ?_) ⟨rfl, rfl, rfl, rfl, rfl, rfl⟩
      cases hm'
      exact hvalid

/-- Loading and bumping a parent fails before it writes, or writes the bump. -/
theorem outcome_loadAndBump {parent : InodeId} {expected : Option Generation}
    {f : Inode → MetaTxn β} (herr : ∀ e, P (.error e, s))
    (hok : ∀ dir, ParentAdmitted s expected parent dir →
      P (f (bumpDir time dir) (s.putInode (bumpDir time dir)))) :
    P ((loadAndBumpParentDir time parent expected >>= f) s) := by
  simp only [loadAndBumpParentDir, bind_assoc, pure_bind]
  refine outcome_getInodeRaw herr fun dir hdir => ?_
  refine outcome_guard herr fun htype => ?_
  refine outcome_expectGeneration herr fun hexpected => ?_
  exact hok dir ⟨hdir, not_not.mp htype, hexpected⟩

end

theorem ParentAdmitted.check_run {expected : Option Generation} {parent : InodeId} {dir : Inode}
    (h : ParentAdmitted s expected parent dir) :
    checkOptionalGeneration dir expected s = (.ok (), s) := by
  cases hexpected : expected with
  | none => rfl
  | some generation => exact if_neg (not_not.mpr (h.expected generation hexpected))

/-- An admitted parent is bumped. -/
theorem loadAndBump_run {expected : Option Generation} {parent : InodeId} {dir : Inode}
    (h : ParentAdmitted s expected parent dir) :
    loadAndBumpParentDir time parent expected s =
      (.ok (bumpDir time dir), s.putInode (bumpDir time dir)) := by
  rw [loadAndBumpParentDir, getInodeRaw_bind h.stored, Txn.failIf_bind_run,
    if_neg (not_not.mpr h.isDir), Txn.bind_of_ok h.check_run]
  rfl

/-! ## The writes, one state after the other -/

/-- The tables after both parents were bumped. -/
def bumpedParents (now : Clock) (oldDir newDir : Inode) (s : Tables) : Tables :=
  { s with
    inodes :=
      if newDir.id ≠ oldDir.id then
        (s.inodes.put (bumpDir now.parent oldDir)).put (bumpDir now.newParent newDir)
      else s.inodes.put (bumpDir now.parent oldDir) }

/-- Losing the name removes this inode: an empty directory, or the last link of a
file that nobody has open. -/
def Tables.GoesWithName (s : Tables) (i : Inode) : Prop :=
  i.fileType = .directory ∨ i.linkCount = 1 ∧ s.hasOpenPresence i.id = false

instance (s : Tables) (i : Inode) : Decidable (s.GoesWithName i) :=
  inferInstanceAs (Decidable (_ ∨ _))

/-- The tables after the inode that `newKey` named lost this name. -/
def withoutReplaced (time : Int) (newKey : NameKey) (s : Tables) : Option Inode → Tables
  | none => s
  | some i =>
    if s.GoesWithName i then (s.eraseDentry newKey).deleteInode i.id
    else (s.eraseDentry newKey).putInode (dropLink time i)

/-- The record a renamed inode gets. -/
def movedInode (time : Int) (source : Inode) : Inode :=
  { source with generation := saturatingAdd source.generation 1, ctimeMs := time }

/-- A file can lose a link; a directory has no link to lose. -/
def Inode.CanLoseLink (i : Inode) : Prop :=
  i.fileType = .directory ∨ i.linkCount ≠ 0 ∧ i.generation < u64Max

instance (i : Inode) : Decidable i.CanLoseLink := inferInstanceAs (Decidable (_ ∨ _))

theorem get_bumpedParents {oldDir newDir : Inode} (id : InodeId) :
    (bumpedParents now oldDir newDir s).inodes.get? id =
      if id = oldDir.id then some (bumpDir now.parent oldDir)
      else if id = newDir.id then some (bumpDir now.newParent newDir) else s.inodes.get? id := by
  have hold : (bumpDir now.parent oldDir).id = oldDir.id := rfl
  have hnew : (bumpDir now.newParent newDir).id = newDir.id := rfl
  by_cases hne : newDir.id ≠ oldDir.id
  · simp only [bumpedParents, if_pos hne, Keyed.get?_put, hold, hnew]
    by_cases h1 : id = oldDir.id
    · subst h1
      simp [hne]
    · simp [h1, Ne.symm h1, eq_comm]
  · simp only [bumpedParents, if_neg hne, Keyed.get?_put, hold]
    by_cases h1 : id = oldDir.id
    · simp [h1]
    · simp [not_not.mp hne, h1, Ne.symm h1]

/-- Both parents are bumped, the one directory once. -/
theorem bumpParents_run (now : Clock) {oldDir newDir : Inode} (hne : oldKey.owner = oldDir.id)
    (hnewId : newKey.owner = newDir.id)
    (hold : ParentAdmitted s expectedOld oldKey.owner oldDir)
    (hnew : ParentAdmitted s expectedNew newKey.owner newDir) :
    (loadAndBumpParentDir now.parent oldKey.owner expectedOld >>= fun _ =>
      bumpNewParent now.newParent oldKey.owner newKey.owner expectedNew) s =
      (.ok (), bumpedParents now oldDir newDir s) := by
  rw [Txn.bind_of_ok (loadAndBump_run hold), bumpNewParent]
  by_cases hsame : newKey.owner ≠ oldKey.owner
  · have hstill : ParentAdmitted (s.putInode (bumpDir now.parent oldDir)) expectedNew newKey.owner
        newDir :=
      ⟨(get_bumped_of_ne hold.stored hsame).trans hnew.stored, hnew.isDir, hnew.expected⟩
    rw [if_pos hsame, Txn.bind_of_ok (loadAndBump_run hstill)]
    rw [hne, hnewId] at hsame
    simp only [bumpedParents, if_pos hsame]
    rfl
  · rw [if_neg hsame]
    rw [hne, hnewId] at hsame
    simp only [bumpedParents, if_neg hsame]
    rfl

theorem removeInodeLink_run {i : Inode} (h : i.linkCount ≠ 0 ∧ i.generation < u64Max) :
    removeInodeLinkInTxn time i s =
      (.ok (), if i.linkCount = 1 ∧ s.hasOpenPresence i.id = false then s.deleteInode i.id
        else s.putInode (dropLink time i)) := by
  have hlast : (dropLink time i).linkCount = 0 ↔ i.linkCount = 1 := by
    show i.linkCount - 1 = 0 ↔ i.linkCount = 1
    omega
  have hgen : ¬ i.generation + 1 > u64Max := Nat.not_lt.mpr h.2
  rw [removeInodeLinkInTxn, Txn.failIf_bind_run, if_neg h.1, Txn.failIf_bind_run, if_neg hgen,
    Txn.reads_bind_run]
  simp only [hlast]
  split
  · rfl
  · rfl

theorem removeDestination_run
    (hstored : ∀ i, replaced = some i → s.inodes.get? i.id = some i ∧ i.CanLoseLink) :
    removeDestination time newKey (replaced.map (·.id)) s =
      (.ok (), withoutReplaced time newKey s replaced) := by
  cases replaced with
  | none => rfl
  | some i =>
    obtain ⟨hi, hlose⟩ := hstored i rfl
    have hget : (s.eraseDentry newKey).inodes.get? i.id = some i := hi
    simp only [Option.map_some, removeDestination, Txn.modify_bind_run]
    rw [getInodeRaw_bind hget]
    by_cases hdir : i.fileType = .directory
    · rw [if_pos hdir, withoutReplaced, if_pos (.inl hdir)]
      rfl
    · rw [if_neg hdir, removeInodeLink_run (hlose.resolve_left hdir), withoutReplaced]
      congr 1
      have hgoes : s.GoesWithName i ↔
          i.linkCount = 1 ∧ (s.eraseDentry newKey).hasOpenPresence i.id = false :=
        ⟨fun h => h.resolve_left hdir, .inr⟩
      simp only [hgoes]

/-- A valid name fits LMDB's key limit. -/
theorem dentryKeyLen_of_validate {k : NameKey} (h : Dentry.validate k.name = .ok ()) :
    dentryKeyLen k ≤ 511 := by
  have hlen := Dentry.length_le_of_validate h
  unfold dentryKeyLen
  omega

theorem putDentryRow_run {k : NameKey} {child : InodeId} (h : dentryKeyLen k ≤ 511) :
    putDentryRow k child s = (.ok (), s.putDentry k child) := by
  rw [putDentryRow, Txn.failIf_bind_run, if_neg (Nat.not_lt.mpr h)]
  rfl

/-- The tables a rename with nothing in its way leaves. -/
def renamedTables (now : Clock) (oldKey newKey : NameKey) (oldDir newDir source : Inode)
    (replaced : Option Inode) (s : Tables) : Tables :=
  (((withoutReplaced now.unlinked newKey (bumpedParents now oldDir newDir s) replaced).eraseDentry
    oldKey).putDentry newKey source.id).putInode (movedInode now.inode source)

theorem renameWrites_run {oldDir newDir : Inode}
    (hadmitted : RenameAdmitted s expectedOld oldKey expectedNew newKey source)
    (hold : ParentAdmitted s expectedOld oldKey.owner oldDir)
    (hnew : ParentAdmitted s expectedNew newKey.owner newDir) (hstored : ∀ i, replaced = some i →
      (bumpedParents now oldDir newDir s).inodes.get? i.id = some i ∧ i.CanLoseLink) :
    renameWrites now expectedOld oldKey expectedNew newKey source (replaced.map (·.id)) s =
      (.ok (movedInode now.inode source),
        renamedTables now oldKey newKey oldDir newDir source replaced s) := by
  have hbump := bumpParents_run now (Keyed.key_of_get? hold.stored).symm
    (Keyed.key_of_get? hnew.stored).symm hold hnew
  have hkey : dentryKeyLen newKey ≤ 511 := dentryKeyLen_of_validate hadmitted.newName
  rw [renameWrites, ← bind_assoc, Txn.bind_of_ok hbump,
    Txn.bind_of_ok (removeDestination_run hstored), Txn.modify_bind_run,
    Txn.bind_of_ok (putDentryRow_run hkey)]
  rfl

/-! ## The effect, table by table -/

/-- The inode `newKey` named is removed with that name. -/
def Tables.RemovedBy (s : Tables) (newKey : NameKey) (id : InodeId) : Prop :=
  ∃ i, s.dentries[newKey]? = some id ∧ s.inodes.get? id = some i ∧ s.GoesWithName i

/-- `t` is `s` after `source` moved from `oldKey` to `newKey`. -/
structure Renamed (now : Clock) (s : Tables) (oldKey newKey : NameKey) (source : Inode)
    (t : Tables) : Prop where
  dentries : ∀ k, t.dentries[k]? =
    if k = newKey then some source.id else if k = oldKey then none else s.dentries[k]?
  moved : t.inodes.get? source.id = some (movedInode now.inode source)
  oldParent : ∀ dir, dir.id = oldKey.owner → s.inodes.get? dir.id = some dir →
    t.inodes.get? dir.id = some (bumpDir now.parent dir)
  newParent : ∀ dir, dir.id = newKey.owner → newKey.owner ≠ oldKey.owner →
    s.inodes.get? dir.id = some dir → t.inodes.get? dir.id = some (bumpDir now.newParent dir)
  replaced : ∀ i, s.dentries[newKey]? = some i.id → s.inodes.get? i.id = some i →
    t.inodes.get? i.id = if s.GoesWithName i then none else some (dropLink now.unlinked i)
  /-- Only an empty directory is replaced. -/
  empty : ∀ i, s.dentries[newKey]? = some i.id → s.inodes.get? i.id = some i →
    i.fileType = .directory → s.directoryHasChildren i.id = false
  others : ∀ id, id ≠ source.id → id ≠ oldKey.owner → id ≠ newKey.owner →
    s.dentries[newKey]? ≠ some id → t.inodes.get? id = s.inodes.get? id
  reservations : ∀ ticket r, t.reservations.get? ticket = some r ↔
    s.reservations.get? ticket = some r ∧ ¬ s.RemovedBy newKey r.inode
  xattrs : ∀ (k : NameKey) (value : Bytes), t.xattrs[k]? = some value ↔
    s.xattrs[k]? = some value ∧ ¬ s.RemovedBy newKey k.owner
  openPresence : ∀ k : NameKey, t.openPresence[k]? = some () ↔
    s.openPresence[k]? = some () ∧ ¬ s.RemovedBy newKey k.owner
  rest : t.manifests = s.manifests ∧ t.tombstones = s.tombstones ∧ t.nextInode = s.nextInode ∧
    t.nextManifest = s.nextManifest ∧ t.gcLease = s.gcLease ∧
    t.workerMembership = s.workerMembership ∧ t.clientRequests = s.clientRequests

/-- What stood at `newKey`, with its record. -/
structure Occupies (s : Tables) (newKey : NameKey) (replaced : Option Inode) : Prop where
  entry : s.dentries[newKey]? = replaced.map (·.id)
  stored : ∀ i, replaced = some i → s.inodes.get? i.id = some i
  empty : ∀ i, replaced = some i → i.fileType = .directory → s.directoryHasChildren i.id = false

/-- The record at `newKey` is the one that is replaced. -/
theorem Occupies.eq_some (h : Occupies s newKey replaced) {i : Inode}
    (hentry : s.dentries[newKey]? = some i.id) (hi : s.inodes.get? i.id = some i) :
    replaced = some i := by
  rw [h.entry] at hentry
  obtain ⟨j, hj, hid⟩ := Option.map_eq_some_iff.mp hentry
  have hstored := h.stored j hj
  rw [hid, hi] at hstored
  rw [hj, Option.some.inj hstored]

theorem Occupies.removedBy_iff (h : Occupies s newKey replaced) (id : InodeId) :
    s.RemovedBy newKey id ↔ ∃ i, replaced = some i ∧ i.id = id ∧ s.GoesWithName i := by
  constructor
  · rintro ⟨i, hentry, hi, hgoes⟩
    obtain rfl : i.id = id := Keyed.key_of_get? hi
    exact ⟨i, h.eq_some hentry hi, rfl, hgoes⟩
  · rintro ⟨i, rfl, rfl, hgoes⟩
    exact ⟨i, h.entry, h.stored i rfl, hgoes⟩

section
variable {u : Tables} {replaced : Option Inode}

theorem get_inodes_withoutReplaced (id : InodeId) :
    (withoutReplaced time newKey u replaced).inodes.get? id =
      match replaced with
      | none => u.inodes.get? id
      | some i =>
        if i.id = id then if u.GoesWithName i then none else some (dropLink time i)
        else u.inodes.get? id := by
  cases replaced with
  | none => rfl
  | some i =>
    by_cases hgoes : u.GoesWithName i
    · simp only [withoutReplaced, if_pos hgoes]
      exact Tables.get_deleteInode ..
    · simp only [withoutReplaced, if_neg hgoes]
      exact Tables.get_putInode ..

theorem get_dentries_withoutReplaced {k : NameKey} (hk : k ≠ newKey) :
    (withoutReplaced time newKey u replaced).dentries[k]? = u.dentries[k]? := by
  have herase : (u.eraseDentry newKey).dentries[k]? = u.dentries[k]? := by
    rw [Tables.get_eraseDentry, if_neg (Ne.symm hk)]
  cases replaced with
  | none => rfl
  | some i =>
    simp only [withoutReplaced]
    split
    · exact herase
    · exact herase

/-- The owner of a row was not removed with the replaced name. -/
def Survives (u : Tables) (replaced : Option Inode) (id : InodeId) : Prop :=
  ∀ i, replaced = some i → i.id = id → ¬ u.GoesWithName i

/-- Rows of an inode that may have been deleted. -/
theorem get_eraseOwned_iff {V : Type} {table : Table NameKey V} {id : InodeId} {gone : Prop}
    [Decidable gone] {k : NameKey} {v : V} :
    (if gone then Table.eraseAll table (Tables.ownedKeys table id) else table)[k]? = some v ↔
      table[k]? = some v ∧ (id = k.owner → ¬ gone) := by
  by_cases hgone : gone
  · rw [if_pos hgone, Tables.get_eraseOwned]
    by_cases hk : k.owner = id
    · simp [hk, hgone]
    · simp [hk, Ne.symm hk]
  · simp [hgone]

theorem get_xattrs_withoutReplaced (k : NameKey) (value : Bytes) :
    (withoutReplaced time newKey u replaced).xattrs[k]? = some value ↔
      u.xattrs[k]? = some value ∧ Survives u replaced k.owner := by
  cases replaced with
  | none => simp [withoutReplaced, Survives]
  | some i =>
    have hrows : (withoutReplaced time newKey u (some i)).xattrs =
        if u.GoesWithName i then Table.eraseAll u.xattrs (Tables.ownedKeys u.xattrs i.id)
        else u.xattrs := by
      rw [withoutReplaced]
      split
      · rfl
      · rfl
    simp [hrows, get_eraseOwned_iff, Survives]

theorem get_openPresence_withoutReplaced (k : NameKey) :
    (withoutReplaced time newKey u replaced).openPresence[k]? = some () ↔
      u.openPresence[k]? = some () ∧ Survives u replaced k.owner := by
  cases replaced with
  | none => simp [withoutReplaced, Survives]
  | some i =>
    have hrows : (withoutReplaced time newKey u (some i)).openPresence =
        if u.GoesWithName i then
          Table.eraseAll u.openPresence (Tables.ownedKeys u.openPresence i.id)
        else u.openPresence := by
      rw [withoutReplaced]
      split
      · rfl
      · rfl
    simp [hrows, get_eraseOwned_iff, Survives]

theorem get_reservations_withoutReplaced (ticket : WriteTicketId) (r : ChunkReservation) :
    (withoutReplaced time newKey u replaced).reservations.get? ticket = some r ↔
      u.reservations.get? ticket = some r ∧ Survives u replaced r.inode := by
  cases replaced with
  | none => simp [withoutReplaced, Survives]
  | some i =>
    by_cases hgoes : u.GoesWithName i
    · simp only [withoutReplaced, if_pos hgoes, Tables.get_reservations_deleteInode,
        Option.filter_eq_some_iff]
      have hsame : (u.eraseDentry newKey).reservations = u.reservations := rfl
      have howner : Survives u (some i) r.inode ↔ r.inode ≠ i.id :=
        ⟨fun h heq => h i rfl heq.symm hgoes, fun h j hj heq => by
          cases hj
          exact absurd heq.symm h⟩
      simp [hsame, howner]
    · simp [withoutReplaced, hgoes, Survives, Tables.putInode, Tables.eraseDentry]

end

/-- Source, parents and the replaced inode are told apart. -/
structure RenameApart (s : Tables) (oldKey newKey : NameKey) (source oldDir newDir : Inode)
    (replaced : Option Inode) : Prop where
  oldDir : s.inodes.get? oldKey.owner = some oldDir
  newDir : s.inodes.get? newKey.owner = some newDir
  occupies : Occupies s newKey replaced
  source_ne : source.id ≠ oldKey.owner ∧ source.id ≠ newKey.owner
  replaced_ne : ∀ i, replaced = some i →
    i.id ≠ source.id ∧ i.id ≠ oldKey.owner ∧ i.id ≠ newKey.owner

namespace RenameApart

variable {oldDir newDir : Inode} {replaced : Option Inode}

theorem get_inodes {id : InodeId} :
    (renamedTables now oldKey newKey oldDir newDir source replaced s).inodes.get? id =
      if source.id = id then some (movedInode now.inode source)
      else (withoutReplaced now.unlinked newKey (bumpedParents now oldDir newDir s)
        replaced).inodes.get? id :=
  Tables.get_putInode ..

theorem get_dentries (k : NameKey) :
    (renamedTables now oldKey newKey oldDir newDir source replaced s).dentries[k]? =
      if k = newKey then some source.id else if k = oldKey then none else s.dentries[k]? := by
  show ((withoutReplaced now.unlinked newKey (bumpedParents now oldDir newDir s)
    replaced).eraseDentry oldKey |>.putDentry newKey source.id).dentries[k]? = _
  rw [Tables.get_putDentry, Tables.get_eraseDentry]
  by_cases hk : k = newKey
  · simp [hk]
  · rw [get_dentries_withoutReplaced hk, if_neg (Ne.symm hk), if_neg hk]
    exact if_congr eq_comm rfl rfl

theorem survives_iff (h : RenameApart s oldKey newKey source oldDir newDir replaced)
    (id : InodeId) :
    Survives (bumpedParents now oldDir newDir s) replaced id ↔ ¬ s.RemovedBy newKey id := by
  rw [h.occupies.removedBy_iff]
  constructor
  · rintro hsurvives ⟨i, hi, hid, hgoes⟩
    exact hsurvives i hi hid hgoes
  · intro hnot i hi hid hgoes
    exact hnot ⟨i, hi, hid, hgoes⟩

/-- An inode that is neither the source nor the replaced one is as the bumps left it. -/
theorem get_kept (h : RenameApart s oldKey newKey source oldDir newDir replaced) {id : InodeId}
    (hsource : id ≠ source.id) (hentry : s.dentries[newKey]? ≠ some id) :
    (renamedTables now oldKey newKey oldDir newDir source replaced s).inodes.get? id =
      if id = oldKey.owner then some (bumpDir now.parent oldDir)
      else if id = newKey.owner then some (bumpDir now.newParent newDir)
      else s.inodes.get? id := by
  have holdId : oldDir.id = oldKey.owner := Keyed.key_of_get? h.oldDir
  have hnewId : newDir.id = newKey.owner := Keyed.key_of_get? h.newDir
  rw [get_inodes, if_neg (Ne.symm hsource), get_inodes_withoutReplaced, ← holdId, ← hnewId,
    ← get_bumpedParents]
  cases replaced with
  | none => rfl
  | some i =>
    have hne : i.id ≠ id := fun heq => hentry (h.occupies.entry.trans (congrArg some heq))
    exact if_neg hne

theorem not_entry_of_parent (h : RenameApart s oldKey newKey source oldDir newDir replaced)
    {id : InodeId} (hid : id = oldKey.owner ∨ id = newKey.owner) :
    s.dentries[newKey]? ≠ some id := by
  intro hentry
  rw [h.occupies.entry] at hentry
  obtain ⟨i, hi, hsame⟩ := Option.map_eq_some_iff.mp hentry
  obtain ⟨-, hold, hnew⟩ := h.replaced_ne i hi
  rcases hid with hid | hid
  · exact hold (hsame.trans hid)
  · exact hnew (hsame.trans hid)

theorem get_replaced (h : RenameApart s oldKey newKey source oldDir newDir replaced) {i : Inode}
    (hentry : s.dentries[newKey]? = some i.id) (hi : s.inodes.get? i.id = some i) :
    (renamedTables now oldKey newKey oldDir newDir source replaced s).inodes.get? i.id =
      if s.GoesWithName i then none else some (dropLink now.unlinked i) := by
  have hreplaced := h.occupies.eq_some hentry hi
  rw [get_inodes, if_neg (Ne.symm (h.replaced_ne i hreplaced).1), get_inodes_withoutReplaced,
    hreplaced]
  exact if_pos rfl

theorem rest :
    (renamedTables now oldKey newKey oldDir newDir source replaced s).manifests = s.manifests ∧
      (renamedTables now oldKey newKey oldDir newDir source replaced s).tombstones =
        s.tombstones ∧
      (renamedTables now oldKey newKey oldDir newDir source replaced s).nextInode = s.nextInode ∧
      (renamedTables now oldKey newKey oldDir newDir source replaced s).nextManifest =
        s.nextManifest ∧
      (renamedTables now oldKey newKey oldDir newDir source replaced s).gcLease = s.gcLease ∧
      (renamedTables now oldKey newKey oldDir newDir source replaced s).workerMembership =
        s.workerMembership ∧
      (renamedTables now oldKey newKey oldDir newDir source replaced s).clientRequests =
        s.clientRequests := by
  unfold renamedTables withoutReplaced
  split
  · exact ⟨rfl, rfl, rfl, rfl, rfl, rfl, rfl⟩
  · split
    · exact ⟨rfl, rfl, rfl, rfl, rfl, rfl, rfl⟩
    · exact ⟨rfl, rfl, rfl, rfl, rfl, rfl, rfl⟩

/-- Each write of a rename shows. -/
theorem renamed (h : RenameApart s oldKey newKey source oldDir newDir replaced) :
    Renamed now s oldKey newKey source
      (renamedTables now oldKey newKey oldDir newDir source replaced s) where
  dentries := get_dentries
  moved := by rw [get_inodes, if_pos rfl]
  oldParent dir hid hstored := by
    have hne : dir.id ≠ source.id := fun heq => h.source_ne.1 (heq.symm.trans hid)
    rw [h.get_kept hne (h.not_entry_of_parent (.inl hid)), if_pos hid]
    rw [hid, h.oldDir, Option.some.injEq] at hstored
    rw [hstored]
  newParent dir hid hother hstored := by
    have hne : dir.id ≠ source.id := fun heq => h.source_ne.2 (heq.symm.trans hid)
    rw [h.get_kept hne (h.not_entry_of_parent (.inr hid)), if_neg (by rwa [hid]), if_pos hid]
    rw [hid, h.newDir, Option.some.injEq] at hstored
    rw [hstored]
  replaced i hentry hi := h.get_replaced hentry hi
  empty i hentry hi := h.occupies.empty i (h.occupies.eq_some hentry hi)
  others id hsource hold hnew hentry := by
    rw [h.get_kept hsource hentry, if_neg hold, if_neg hnew]
  reservations ticket r := by
    rw [← h.survives_iff]
    exact get_reservations_withoutReplaced ticket r
  xattrs k value := by
    rw [← h.survives_iff]
    exact get_xattrs_withoutReplaced k value
  openPresence k := by
    rw [← h.survives_iff]
    exact get_openPresence_withoutReplaced k
  rest := rest

end RenameApart

/-! ## The outcomes -/

/-- The error of a file that cannot lose a link. -/
def linkRefusal (i : Inode) : FluxError :=
  if i.linkCount = 0 then .metaErr s!"inode {i.id} already has link_count=0"
  else .invalidArg "inode generation overflow"

/-- How the writes of a rename end: at a replaced file that cannot lose a link,
or done. -/
inductive RenameWritten (now : Clock) (s : Tables) (oldKey newKey : NameKey) (source : Inode) :
    Except FluxError Inode × Tables → Prop
  | stopped {i : Inode} (t : Tables) (hentry : s.dentries[newKey]? = some i.id)
      (hstored : s.inodes.get? i.id = some i) (hlose : ¬ i.CanLoseLink) :
      RenameWritten now s oldKey newKey source (.error (linkRefusal i), t)
  | done {t : Tables} (hrenamed : Renamed now s oldKey newKey source t) :
      RenameWritten now s oldKey newKey source (.ok (movedInode now.inode source), t)

/-- How a rename ends: refused before its first write, nothing to do, or written. -/
inductive RenameOutcome (now : Clock) (s : Tables) (expectedOld : Option Generation)
    (oldKey : NameKey) (expectedNew : Option Generation) (newKey : NameKey) :
    Except FluxError Inode × Tables → Prop
  | refused (e : FluxError) : RenameOutcome now s expectedOld oldKey expectedNew newKey
    (.error e, s)
  | nothing {source : Inode}
      (hadmitted : RenameAdmitted s expectedOld oldKey expectedNew newKey source)
      (hsame : oldKey = newKey ∨ s.dentries[newKey]? = some source.id) :
      RenameOutcome now s expectedOld oldKey expectedNew newKey (.ok source, s)
  | written {source : Inode} {o : Except FluxError Inode × Tables}
      (hadmitted : RenameAdmitted s expectedOld oldKey expectedNew newKey source)
      (hmoved : oldKey ≠ newKey) (hother : s.dentries[newKey]? ≠ some source.id)
      (hwritten : RenameWritten now s oldKey newKey source o) :
      RenameOutcome now s expectedOld oldKey expectedNew newKey o

/-- What a checked rename replaces, with its record. -/
theorem RenameChecked.occupies {destination : Option InodeId}
    (hc : RenameChecked s oldKey newKey source destination) :
    ∃ replaced : Option Inode, destination = replaced.map (·.id) ∧ Occupies s newKey replaced := by
  cases hdest : destination with
  | none => exact ⟨none, rfl, hc.at_new.trans hdest, by simp, by simp⟩
  | some id =>
    obtain ⟨i, hi, -, hempty⟩ := hc.replaced id hdest
    obtain rfl : i.id = id := Keyed.key_of_get? hi
    refine ⟨some i, rfl, hc.at_new.trans hdest, ?_, ?_⟩
    · rintro j hj
      cases hj
      exact hi
    · rintro j hj
      cases hj
      exact hempty

theorem RenameChecked.apart {destination : Option InodeId} {oldDir newDir : Inode}
    (hc : RenameChecked s oldKey newKey source destination) (hself : s.NoSelfEntry)
    (hdest : destination = replaced.map (·.id)) (hoccupies : Occupies s newKey replaced)
    (hold : s.inodes.get? oldKey.owner = some oldDir)
    (hnew : s.inodes.get? newKey.owner = some newDir) :
    RenameApart s oldKey newKey source oldDir newDir replaced := by
  refine ⟨hold, hnew, hoccupies, hc.source_ne hself, ?_⟩
  rintro i rfl
  refine ⟨fun heq => hc.other (hdest.trans (congrArg some heq)), fun heq => ?_,
    fun heq => hc.destination_ne (hdest.trans (congrArg some heq))⟩
  -- the old parent has an entry, so it is no directory that may be replaced
  obtain ⟨parent, hparent, htype⟩ := hc.oldParent
  rw [← heq, hoccupies.stored i rfl, Option.some.injEq] at hparent
  have hpopulated : s.directoryHasChildren i.id = true :=
    Tables.directoryHasChildren_iff.mpr ⟨oldKey.name, source.id, heq ▸ hc.entry⟩
  rw [hoccupies.empty i rfl (hparent ▸ htype)] at hpopulated
  cases hpopulated

theorem removeInodeLink_stops {i : Inode} (h : ¬ (i.linkCount ≠ 0 ∧ i.generation < u64Max)) :
    removeInodeLinkInTxn time i s = (.error (linkRefusal i), s) := by
  unfold removeInodeLinkInTxn linkRefusal
  by_cases hzero : i.linkCount = 0
  · rw [Txn.failIf_bind_run, if_pos hzero, if_pos hzero]
  · have hmax : u64Max ≤ i.generation := Nat.not_lt.mp fun hlt => h ⟨hzero, hlt⟩
    have hover : i.generation + 1 > u64Max := Nat.lt_succ_of_le hmax
    rw [Txn.failIf_bind_run, if_neg hzero, Txn.failIf_bind_run, if_pos hover, if_neg hzero]

theorem removeDestination_stops (time : Int) (newKey : NameKey) {i : Inode}
    (hi : s.inodes.get? i.id = some i) (hlose : ¬ i.CanLoseLink) :
    removeDestination time newKey (some i.id) s =
      (.error (linkRefusal i), s.eraseDentry newKey) := by
  have hget : (s.eraseDentry newKey).inodes.get? i.id = some i := hi
  obtain ⟨hfile, hlinks⟩ := not_or.mp hlose
  rw [removeDestination, Txn.modify_bind_run, getInodeRaw_bind hget, if_neg hfile,
    removeInodeLink_stops hlinks]

/-- The writes after the checks stop at a file that cannot lose a link, or all of
them are made. -/
theorem renameWrites_written (now : Clock) {destination : Option InodeId} (hself : s.NoSelfEntry)
    (hadmitted : RenameAdmitted s expectedOld oldKey expectedNew newKey source)
    (hc : RenameChecked s oldKey newKey source destination) :
    RenameWritten now s oldKey newKey source
      (renameWrites now expectedOld oldKey expectedNew newKey source destination s) := by
  obtain ⟨oldDir, hold⟩ := hadmitted.oldParent
  obtain ⟨newDir, hnew⟩ := hadmitted.newParent
  obtain ⟨replaced, hdest, hoccupies⟩ := hc.occupies
  have hapart := hc.apart hself hdest hoccupies hold.stored hnew.stored
  have holdId : oldDir.id = oldKey.owner := Keyed.key_of_get? hold.stored
  have hnewId : newDir.id = newKey.owner := Keyed.key_of_get? hnew.stored
  have hstored : ∀ i, replaced = some i →
      (bumpedParents now oldDir newDir s).inodes.get? i.id = some i := by
    intro i hi
    obtain ⟨-, h1, h2⟩ := hapart.replaced_ne i hi
    rw [get_bumpedParents, if_neg (by rwa [holdId]), if_neg (by rwa [hnewId]),
      hoccupies.stored i hi]
  by_cases hlose : ∀ i, replaced = some i → i.CanLoseLink
  · rw [hdest, renameWrites_run hadmitted hold hnew fun i hi => ⟨hstored i hi, hlose i hi⟩]
    exact .done hapart.renamed
  · push Not at hlose
    obtain ⟨i, rfl, hi⟩ := hlose
    have hstop := removeDestination_stops now.unlinked newKey (hstored i rfl) hi
    have hbump := bumpParents_run now holdId.symm hnewId.symm hold hnew
    rw [hdest, renameWrites, ← bind_assoc, Txn.bind_of_ok hbump, Option.map_some,
      Txn.bind_of_error hstop]
    exact .stopped _ hoccupies.entry (hoccupies.stored i rfl) hi

theorem renameInTxn_outcome (hself : s.NoSelfEntry) :
    RenameOutcome now s expectedOld oldKey expectedNew newKey
      (renameInTxn now expectedOld oldKey expectedNew newKey noReplace s) := by
  refine outcome_rename .refused (fun _ => .nothing) fun source destination hadmitted hc _ => ?_
  exact .written hadmitted hc.moved (hc.at_new.trans_ne hc.other)
    (renameWrites_written now hself hadmitted hc)

/-! ## Moves of directories -/

section
variable {candidate ancestor dir child : InodeId} {children pushed next : List InodeId}

theorem of_mem_scan (h : visitDirectory.scan s candidate children pushed = .ok (.push next))
    (hchild : child ∈ next) : child ∈ pushed ∨ child ∈ children ∧ s.IsDir child := by
  induction children generalizing pushed with
  | nil =>
    simp only [visitDirectory.scan, Except.ok.injEq, Visit.push.injEq] at h
    exact .inl (h ▸ hchild)
  | cons c children ih =>
    rw [visitDirectory.scan] at h
    split at h
    · cases h
    · split at h
      · cases h
      · rename_i i hi
        split at h
        · rename_i hdir
          rcases ih h with hpushed | ⟨hmem, hisDir⟩
          · rcases List.mem_append.mp hpushed with hpushed | hlast
            · exact .inl hpushed
            · obtain rfl : child = c := by simpa using hlast
              exact .inr ⟨List.mem_cons_self, i, hi, hdir⟩
          · exact .inr ⟨List.mem_cons_of_mem c hmem, hisDir⟩
        · rcases ih h with hpushed | ⟨hmem, hisDir⟩
          · exact .inl hpushed
          · exact .inr ⟨List.mem_cons_of_mem c hmem, hisDir⟩

theorem mem_of_scan_found (h : visitDirectory.scan s candidate children pushed = .ok .found) :
    candidate ∈ children := by
  induction children generalizing pushed with
  | nil => cases h
  | cons c children ih =>
    rw [visitDirectory.scan] at h
    split at h
    · rename_i heq
      exact heq ▸ List.mem_cons_self
    · split at h
      · cases h
      · split at h
        · exact List.mem_cons_of_mem c (ih h)
        · exact List.mem_cons_of_mem c (ih h)

theorem missing_of_scan_error {e : FluxError}
    (h : visitDirectory.scan s candidate children pushed = .error e) :
    e = .notFound ∧ ∃ child ∈ children, s.inodes.get? child = none := by
  induction children generalizing pushed with
  | nil => cases h
  | cons c children ih =>
    rw [visitDirectory.scan] at h
    split at h
    · cases h
    · split at h
      · rename_i hnone
        cases h
        exact ⟨rfl, c, List.mem_cons_self, hnone⟩
      · split at h
        · obtain ⟨he, child, hmem, hnone⟩ := ih h
          exact ⟨he, child, List.mem_cons_of_mem c hmem, hnone⟩
        · obtain ⟨he, child, hmem, hnone⟩ := ih h
          exact ⟨he, child, List.mem_cons_of_mem c hmem, hnone⟩

theorem dirChild_of_pushes (h : Pushes (visitDirectory s candidate) dir child) :
    s.DirChild dir child := by
  obtain ⟨next, hnext, hmem⟩ := h
  obtain ⟨hchild, hisDir⟩ := (of_mem_scan hnext hmem).resolve_left List.not_mem_nil
  exact ⟨Tables.mem_childrenOf.mp hchild, hisDir⟩

/-- The subtree search finds a directory only below its start. -/
theorem below_of_inodeIsDescendant (h : inodeIsDescendant s ancestor candidate = .ok true)
    (hdir : s.IsDir candidate) : Relation.ReflTransGen s.DirChild ancestor candidate := by
  unfold inodeIsDescendant at h
  split at h
  · rename_i heq
    rw [heq]
  obtain ⟨result, hresult⟩ := Option.isSome_iff_exists.mp
    (visitDirectory_search_isSome (s := s) candidate ancestor)
  rw [hresult, Option.getD_some] at h
  obtain ⟨a, ha, dir, hreach, hend⟩ := reached_of_search hresult (by simp [h])
  obtain rfl : a = ancestor := by simpa using ha
  rcases hend with ⟨hfound, -⟩ | ⟨e, -, herror⟩
  · have hpath := Relation.ReflTransGen.mono (fun _ _ => dirChild_of_pushes) _ _ hreach
    exact hpath.tail ⟨Tables.mem_childrenOf.mp (mem_of_scan_found hfound), hdir⟩
  · rw [h] at herror
    cases herror

/-- Where every entry leads to an inode the subtree search does not fail. -/
theorem inodeIsDescendant_ok (ancestor candidate : InodeId)
    (hstored : ∀ (k : NameKey) (c : InodeId), s.dentries[k]? = some c →
      ∃ i, s.inodes.get? c = some i) :
    ∃ below, inodeIsDescendant s ancestor candidate = .ok below := by
  unfold inodeIsDescendant
  split
  · exact ⟨true, rfl⟩
  obtain ⟨result, hresult⟩ := Option.isSome_iff_exists.mp
    (visitDirectory_search_isSome (s := s) candidate ancestor)
  rw [hresult, Option.getD_some]
  cases hcase : result with
  | ok below => exact ⟨below, rfl⟩
  | error e =>
    obtain ⟨a, -, dir, -, hend⟩ := reached_of_search hresult (by simp [hcase])
    rcases hend with ⟨-, hok⟩ | ⟨e', herror, -⟩
    · rw [hcase] at hok
      cases hok
    · obtain ⟨-, child, hmem, hnone⟩ := missing_of_scan_error herror
      obtain ⟨name, hname⟩ := Tables.mem_childrenOf.mp hmem
      obtain ⟨i, hi⟩ := hstored _ _ hname
      rw [hnone] at hi
      cases hi

end

/-- The error of a move into the moved directory's own subtree. -/
def intoOwnSubtree : FluxError := .invalidArg "cannot move a directory into its own subtree"

theorem linkRefusal_ne (i : Inode) : linkRefusal i ≠ intoOwnSubtree := by
  unfold linkRefusal intoOwnSubtree
  split
  · simp
  · decide

/-- The checks that follow the subtree search. -/
def renameTarget (newKey : NameKey) (noReplace : Bool) (source : Inode) :
    MetaTxn (Inode × Option (Option InodeId)) := do
  let destination ← Txn.reads (·.dentries[newKey]?)
  Txn.failIf (noReplace = true ∧ destination.isSome = true) .alreadyExists
  if destination = some source.id then
    pure (source, none)
  else do
    checkReplace source destination
    pure (source, some destination)

/-- An admitted move gets to the subtree search. -/
theorem renameChecks_of_admitted (noReplace : Bool)
    (h : RenameAdmitted s expectedOld oldKey expectedNew newKey source)
    (hmoved : oldKey ≠ newKey) :
    renameChecks expectedOld oldKey expectedNew newKey noReplace s =
      (checkNotBelow source newKey.owner >>= fun _ => renameTarget newKey noReplace source) s := by
  obtain ⟨oldDir, hold⟩ := h.oldParent
  obtain ⟨newDir, hnew⟩ := h.newParent
  have hname : ∀ {name : String}, Dentry.validate name = .ok () →
      validateDentryName name s = (.ok (), s) := fun hok => by
    rw [validateDentryName, Txn.query_run, hok]
  have hlookup : lookupDentry oldKey s = (.ok source.id, s) := by
    rw [lookupDentry, Txn.query_run, h.entry]
  have hdirs : ¬ (oldDir.fileType ≠ .directory ∨ newDir.fileType ≠ .directory) := by
    simp [hold.isDir, hnew.isDir]
  rw [renameChecks, Txn.bind_of_ok (hname h.oldName), Txn.bind_of_ok (hname h.newName),
    Txn.bind_of_ok hlookup, getInodeRaw_bind h.stored, getInodeRaw_bind hold.stored,
    getInodeRaw_bind hnew.stored, Txn.failIf_bind_run, if_neg hdirs,
    Txn.bind_of_ok hold.check_run, Txn.bind_of_ok hnew.check_run, if_neg hmoved]
  rfl

theorem renameTarget_ne (s : Tables) (newKey : NameKey) (noReplace : Bool) (source : Inode) :
    (renameTarget newKey noReplace source s).1 ≠ .error intoOwnSubtree := by
  let P (o : Except FluxError (Inode × Option (Option InodeId)) × Tables) : Prop :=
    o.1 ≠ .error intoOwnSubtree
  show P (renameTarget newKey noReplace source s)
  refine Txn.outcome_reads (Txn.outcome_failIf (fun _ => by simp [P, intoOwnSubtree]) fun _ => ?_)
  by_cases hsame : s.dentries[newKey]? = some source.id
  · rw [if_pos hsame]
    simp [P]
  rw [if_neg hsame]
  cases s.dentries[newKey]? with
  | none => simp [P, checkReplace]
  | some id =>
    simp only [checkReplace, bind_assoc, getInodeRaw]
    refine Txn.outcome_query (fun e he => ?_) fun i _ => ?_
    · split at he
      · cases he
      · cases he
        simp [P, intoOwnSubtree]
    refine Txn.outcome_failIf (fun _ => by simp [P, intoOwnSubtree]) fun _ => ?_
    refine Txn.outcome_failIf (fun _ => by simp [P, intoOwnSubtree]) fun _ => ?_
    refine Txn.outcome_reads ?_
    refine Txn.outcome_failIf (fun _ => by simp [P, intoOwnSubtree]) fun _ => ?_
    simp [P]

/-- A directory move is refused exactly when it leads into its own subtree. -/
theorem rename_refused_iff (hlinked : Linked s)
    (hadmitted : RenameAdmitted s expectedOld oldKey expectedNew newKey source)
    (hmoved : oldKey ≠ newKey) (hdir : source.fileType = .directory) :
    (renameInTxn now expectedOld oldKey expectedNew newKey noReplace s).1 = .error intoOwnSubtree ↔
      Relation.ReflTransGen s.DirChild source.id newKey.owner := by
  obtain ⟨newDir, hnew⟩ := hadmitted.newParent
  obtain ⟨below, hbelow⟩ :=
    inodeIsDescendant_ok source.id newKey.owner hlinked.child
  have hchecks := renameChecks_of_admitted noReplace hadmitted hmoved
  have hcheck : checkNotBelow source newKey.owner s =
      (if below = true then .error intoOwnSubtree else .ok (), s) := by
    rw [checkNotBelow, if_pos hdir, Txn.query_bind_run, hbelow]
    cases below
    · rfl
    · rfl
  cases hcase : below with
  | true =>
    rw [hcase] at hbelow hcheck
    rw [Txn.bind_of_error hcheck] at hchecks
    have hpath := below_of_inodeIsDescendant hbelow ⟨newDir, hnew.stored, hnew.isDir⟩
    rw [renameInTxn, Txn.bind_of_error hchecks]
    exact ⟨fun _ => hpath, fun _ => rfl⟩
  | false =>
    rw [hcase] at hbelow hcheck
    rw [Txn.bind_of_ok hcheck] at hchecks
    refine ⟨fun hrefused => ?_, fun hpath => absurd hpath (not_below_of_inodeIsDescendant hbelow)⟩
    exfalso
    -- past the search no error is this one
    have htarget := renameTarget_ne s newKey noReplace source
    have hspec : ChecksRename s expectedOld oldKey expectedNew newKey noReplace _ :=
      renameChecks_spec
    rw [← hchecks] at htarget
    rw [renameInTxn] at hrefused
    rcases hrun : renameChecks expectedOld oldKey expectedNew newKey noReplace
      s with ⟨e | found, t⟩
    · rw [Txn.bind_of_error hrun] at hrefused
      rw [hrun] at htarget
      cases hrefused
      exact htarget rfl
    · rw [Txn.bind_of_ok hrun] at hrefused
      rw [hrun] at hspec
      cases hspec with
      | nothing => cases hrefused
      | @passed found destination hadmitted hchecked =>
        have hwritten := renameWrites_written now hlinked.grounded.noSelf hadmitted hchecked
        generalize hout : renameWrites now expectedOld oldKey expectedNew newKey found
          destination s = o at hwritten
        have hfirst : o.1 = .error intoOwnSubtree := hout ▸ hrefused
        cases hwritten with
        | @stopped i _ _ _ _ => exact linkRefusal_ne i (Except.error.inj hfirst)
        | done _ => cases hfirst

end

/-! ## Rename in every reachable state -/

/-- In every state that requests of clients lead to, for all arguments: the
subtree search of a rename ends; a directory move is refused exactly when the
new parent is the directory or below it; a rename that succeeds with distinct
names of distinct inodes has the effect `Renamed` and no other; and when the
names coincide or name one inode, nothing changes. -/
theorem rename_moves_one_entry (start : Int) (requests : List MetaRequest) (s : Tables)
    (hissued : Along metaStep AsIssued (Tables.fresh start) requests)
    (hrun : exec metaStep (Tables.fresh start) requests = some s) (now : Clock)
    (expectedOld : Option Generation) (oldKey : NameKey) (expectedNew : Option Generation)
    (newKey : NameKey) (noReplace : Bool) :
    (∀ ancestor candidate,
      (search (visitDirectory s candidate) (s.dentries.size + 2) [ancestor] []).isSome) ∧
    (∀ source, RenameAdmitted s expectedOld oldKey expectedNew newKey source → oldKey ≠ newKey →
      source.fileType = .directory →
      ((renameInTxn now expectedOld oldKey expectedNew newKey noReplace s).1 =
          .error (.invalidArg "cannot move a directory into its own subtree") ↔
        Relation.ReflTransGen s.DirChild source.id newKey.owner)) ∧
    (∀ source moved t,
      renameInTxn now expectedOld oldKey expectedNew newKey noReplace s = (.ok moved, t) →
      s.dentries[oldKey]? = some source.id → s.inodes.get? source.id = some source →
      oldKey ≠ newKey → s.dentries[newKey]? ≠ some source.id →
      Renamed now s oldKey newKey source t) ∧
    ((oldKey = newKey ∨ ∃ id, s.dentries[oldKey]? = some id ∧ s.dentries[newKey]? = some id) →
      (renameInTxn now expectedOld oldKey expectedNew newKey noReplace s).2 = s) := by
  have hlinked : Linked s := Linked.run hissued hrun
  have houtcome : RenameOutcome now s expectedOld oldKey expectedNew newKey
      (renameInTxn now expectedOld oldKey expectedNew newKey noReplace s) :=
    renameInTxn_outcome hlinked.grounded.noSelf
  refine ⟨fun ancestor candidate => visitDirectory_search_isSome candidate ancestor,
    fun source hadmitted hmoved hdir => rename_refused_iff hlinked hadmitted hmoved hdir, ?_, ?_⟩
  · intro source moved t hok hentry hstored hmoved hother
    rw [hok] at houtcome
    -- the entry names one record, so the source that was checked is this one
    have hsource : ∀ {found : Inode},
        RenameAdmitted s expectedOld oldKey expectedNew newKey found → found = source := by
      intro found hadmitted
      have hid : found.id = source.id := Option.some.inj (hadmitted.entry.symm.trans hentry)
      have hget := hadmitted.stored
      rw [hid, hstored, Option.some.injEq] at hget
      exact hget.symm
    cases houtcome with
    | nothing hadmitted hsame =>
      cases hsource hadmitted
      rcases hsame with hsame | hsame
      · exact absurd hsame hmoved
      · exact absurd hsame hother
    | written hadmitted _ _ hwritten =>
      cases hsource hadmitted
      cases hwritten with
      | done hrenamed => exact hrenamed
  · intro hsame
    generalize renameInTxn now expectedOld oldKey expectedNew newKey noReplace s = o at houtcome
    cases houtcome with
    | refused e => rfl
    | nothing hadmitted _ => rfl
    | written hadmitted hmoved hother _ =>
      rcases hsame with hsame | ⟨id, hold, hnew⟩
      · exact absurd hsame hmoved
      · rw [hadmitted.entry, Option.some.injEq] at hold
        exact absurd (hold ▸ hnew) hother

instance (s : Tables) (id : InodeId) : Decidable (s.IsDir id) :=
  decidable_of_iff ((s.inodes.get? id).any (·.fileType = .directory) = true) (by
    simp [Tables.IsDir, Option.any_eq_true])

/-- Two nested directories and two files. -/
def sampleRenameRun : List MetaRequest :=
  [⟨1, none, 0, .create rootInode "a" .directory 0o755 0 0 none⟩,
    ⟨2, none, 0, .create 2 "b" .directory 0o755 0 0 none⟩,
    ⟨3, none, 0, .create rootInode "f" .regular 0o644 0 0 none⟩,
    ⟨4, none, 0, .create rootInode "g" .regular 0o644 0 0 none⟩]

/-- One file replaces the other, and the outer directory cannot move below itself. -/
theorem rename_moves_one_entry_sampleRenameRun :
    (renameInTxn 9 none ⟨rootInode, "f"⟩ none ⟨rootInode, "g"⟩ false
      (runMeta (Tables.fresh 0) sampleRenameRun)).2.dentries[NameKey.mk rootInode "g"]? = some 4 ∧
    (renameInTxn 9 none ⟨rootInode, "a"⟩ none ⟨3, "x"⟩ false
      (runMeta (Tables.fresh 0) sampleRenameRun)).1 = .error intoOwnSubtree ∧
    Relation.ReflTransGen (runMeta (Tables.fresh 0) sampleRenameRun).DirChild 2 3 := by
  have hissued : Along metaStep AsIssued (Tables.fresh 0) sampleRenameRun := by decide +kernel
  have hrun := exec_metaStep (Tables.fresh 0) sampleRenameRun
  -- the records the two requests find
  obtain ⟨root, hroot, hrootDir⟩ : (runMeta (Tables.fresh 0) sampleRenameRun).IsDir rootInode := by
    decide +kernel
  obtain ⟨outer, houter, houterDir⟩ : (runMeta (Tables.fresh 0) sampleRenameRun).IsDir 2 := by
    decide +kernel
  obtain ⟨inner, hinner, hinnerDir⟩ : (runMeta (Tables.fresh 0) sampleRenameRun).IsDir 3 := by
    decide +kernel
  obtain ⟨file, hfile⟩ := Option.isSome_iff_exists.mp (by decide +kernel :
    ((runMeta (Tables.fresh 0) sampleRenameRun).inodes.get? 4).isSome = true)
  have houterId : outer.id = 2 := Keyed.key_of_get? houter
  have hfileId : file.id = 4 := Keyed.key_of_get? hfile
  refine ⟨?_, ?_⟩
  · obtain ⟨-, -, hdone, -⟩ := rename_moves_one_entry 0 sampleRenameRun _ hissued hrun 9 none
      ⟨rootInode, "f"⟩ none ⟨rootInode, "g"⟩ false
    rcases ho : renameInTxn 9 none ⟨rootInode, "f"⟩ none ⟨rootInode, "g"⟩ false
      (runMeta (Tables.fresh 0) sampleRenameRun) with ⟨e | moved, t⟩
    · have hok : (renameInTxn 9 none ⟨rootInode, "f"⟩ none ⟨rootInode, "g"⟩ false
        (runMeta (Tables.fresh 0) sampleRenameRun)).1.isOk = true := by decide +kernel
      rw [ho] at hok
      cases hok
    · have hrenamed := hdone file moved t ho (by rw [hfileId]; decide +kernel)
        (by rw [hfileId]; exact hfile) (by decide) (by rw [hfileId]; decide +kernel)
      show t.dentries[NameKey.mk rootInode "g"]? = some 4
      rw [hrenamed.dentries, if_pos rfl, hfileId]
  · obtain ⟨-, hrefused, -⟩ := rename_moves_one_entry 0 sampleRenameRun _ hissued hrun 9 none
      ⟨rootInode, "a"⟩ none ⟨3, "x"⟩ false
    have hadmitted : RenameAdmitted (runMeta (Tables.fresh 0) sampleRenameRun) none
        ⟨rootInode, "a"⟩ none ⟨3, "x"⟩ outer :=
      ⟨by decide +kernel, by decide +kernel, by rw [houterId]; decide +kernel,
        by rw [houterId]; exact houter, ⟨root, hroot, hrootDir, by simp⟩,
        ⟨inner, hinner, hinnerDir, by simp⟩⟩
    have hbelow : Relation.ReflTransGen (runMeta (Tables.fresh 0) sampleRenameRun).DirChild 2 3 :=
      .single ⟨⟨"b", by decide +kernel⟩, inner, hinner, hinnerDir⟩
    exact ⟨(hrefused outer hadmitted (by decide) houterDir).mpr (houterId ▸ hbelow), hbelow⟩

end FluxFS
