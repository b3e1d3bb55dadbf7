import FluxFS.Lib.Search
import FluxFS.Meta.Tables

/-!
# Namespace — directory entries, link counts and open presence

The `*_in_txn` functions of `heed_store.rs` that change the directory tree:
create, symlink, link, import, unlink, rmdir, rename, and the open-presence
rows that keep an unlinked file alive. The code calls `now_ms` wherever it
stamps a record; `Clock` has a reading for each of these calls.
-/

namespace FluxFS

open Std Kit

/-! ## The clock -/

/-- What `now_ms` answers while one request is applied. A request makes at most four calls. -/
structure Clock where
  /-- In `load_and_bump_parent_dir`; a rename bumps its old parent first. -/
  parent : Int
  /-- In the second `load_and_bump_parent_dir` of a rename. -/
  newParent : Int
  /-- In `remove_inode_link_in_txn`. -/
  unlinked : Int
  /-- For the inode that is created, linked or moved, or whose attributes change. -/
  inode : Int
deriving DecidableEq, Repr

/-- A clock that stands still. -/
instance (n : Nat) : OfNat Clock n := ⟨⟨n, n, n, n⟩⟩

/-! ## Shared reads and checks -/

/-- `get_inode_raw`. -/
def getInodeRaw (id : InodeId) : MetaTxn Inode :=
  Txn.query fun s =>
    match s.inodes.get? id with
    | some inode => .ok inode
    | none => .error .notFound

/-- `check_generation`. -/
def checkGeneration (inode : Inode) (expected : Generation) : MetaTxn Unit :=
  Txn.failIf (inode.generation ≠ expected) (.casFailed expected inode.generation)

/-- `check_optional_generation`. -/
def checkOptionalGeneration (inode : Inode) : Option Generation → MetaTxn Unit
  | some expected => checkGeneration inode expected
  | none => pure ()

/-- `validate_dentry_name`. -/
def validateDentryName (name : String) : MetaTxn Unit := Txn.query fun _ => Dentry.validate name

/-- The name check of `create_node_in_txn` and `import_external_in_txn`, which
sets no length bound. -/
def checkNewName (name : String) : MetaTxn Unit :=
  Txn.failIf (name.isEmpty ∨ name.toList.contains '/' ∨ name = "." ∨ name = "..")
    (.invalidArg s!"bad name: {name}")

/-- The child under a name. -/
def lookupDentry (k : NameKey) : MetaTxn InodeId :=
  Txn.query fun s =>
    match s.dentries[k]? with
    | some child => .ok child
    | none => .error .notFound

/-- Nothing stands under the name. -/
def checkVacant (k : NameKey) : MetaTxn Unit :=
  Txn.query fun s => if s.dentries[k]? = none then .ok () else .error .alreadyExists

/-- The LMDB key of a dentry: 16 hex digits, a NUL and the name. -/
def dentryKeyLen (k : NameKey) : Nat := 17 + k.name.utf8ByteSize

/-- LMDB refuses to store keys above 511 bytes. -/
def putDentryRow (k : NameKey) (child : InodeId) : MetaTxn Unit := do
  Txn.failIf (dentryKeyLen k > 511) (.metaErr
    "MDB_BAD_VALSIZE: Unsupported size of key/DB name/data, or wrong DUPFIXED size")
  Txn.modify (·.putDentry k child)

/-- `alloc_inode`. -/
def allocInode : MetaTxn InodeId := do
  let id ← Txn.reads (·.nextInode)
  Txn.modify fun s => { s with nextInode := s.nextInode + 1 }
  pure id

/-- The parent record `load_and_bump_parent_dir` writes. -/
def bumpDir (now : Int) (dir : Inode) : Inode :=
  { dir with generation := saturatingAdd dir.generation 1, mtimeMs := now, ctimeMs := now }

/-- `load_and_bump_parent_dir`. -/
def loadAndBumpParentDir (now : Int) (parent : InodeId)
    (expectedParentGeneration : Option Generation) : MetaTxn Inode := do
  let dir ← getInodeRaw parent
  Txn.failIf (dir.fileType ≠ .directory) .notDirectory
  checkOptionalGeneration dir expectedParentGeneration
  Txn.modify (·.putInode (bumpDir now dir))
  pure (bumpDir now dir)

/-! ## Creation -/

/-- The xattr with the ACL that new children inherit. -/
def defaultAcl : String := "system.posix_acl_default"

/-- The xattr with the ACL of the inode itself. -/
def accessAcl : String := "system.posix_acl_access"

/-- The ACL rows a new inode inherits from its parent's default ACL. -/
def inheritAcl (id : InodeId) (fileType : FileType) (acl : Option Bytes) (s : Tables) : Tables :=
  match acl with
  | none => s
  | some acl =>
    let xattrs := s.xattrs.insert ⟨id, accessAcl⟩ acl
    { s with
      xattrs := if fileType = .directory then xattrs.insert ⟨id, defaultAcl⟩ acl else xattrs }

/-- `create_node_in_txn`. -/
def createNodeInTxn (now : Clock) (expectedParentGeneration : Option Generation) (parent : InodeId)
    (name : String) (fileType : FileType) (mode uid gid : Nat) (symlinkTarget : Option String) :
    MetaTxn Inode := do
  checkNewName name
  checkVacant ⟨parent, name⟩
  let _ ← loadAndBumpParentDir now.parent parent expectedParentGeneration
  let acl ← Txn.reads (·.xattrs[NameKey.mk parent defaultAcl]?)
  let id ← allocInode
  let inode := newInode id fileType mode uid gid symlinkTarget now.inode
  Txn.modify (·.putInode inode)
  putDentryRow ⟨parent, name⟩ id
  Txn.modify (inheritAcl id fileType acl)
  pure inode

/-- `create_in_txn`. -/
def createInTxn (now : Clock) (expectedParentGeneration : Option Generation) (parent : InodeId)
    (name : String) (fileType : FileType) (mode uid gid : Nat) : MetaTxn Inode :=
  createNodeInTxn now expectedParentGeneration parent name fileType mode uid gid none

/-- `symlink_in_txn`. -/
def symlinkInTxn (now : Clock) (expectedParentGeneration : Option Generation) (parent : InodeId)
    (name target : String) (uid gid : Nat) : MetaTxn Inode := do
  Txn.failIf (target.isEmpty ∨ target.toList.contains '\x00')
    (.invalidArg "invalid empty/NUL symlink target")
  Txn.failIf (target.utf8ByteSize > 4096) (.invalidArg "symlink target exceeds PATH_MAX=4096")
  createNodeInTxn now expectedParentGeneration parent name .symlink 0o777 uid gid (some target)

/-- `link_in_txn`. -/
def linkInTxn (now : Clock) (expectedNewParentGeneration : Option Generation) (inode : InodeId)
    (newParent : InodeId) (newName : String) : MetaTxn Inode := do
  validateDentryName newName
  checkVacant ⟨newParent, newName⟩
  let source ← getInodeRaw inode
  Txn.failIf (source.fileType = .directory) .notPermitted
  Txn.failIf (source.linkCount = 0) .notFound
  let _ ← loadAndBumpParentDir now.parent newParent expectedNewParentGeneration
  Txn.failIf (source.linkCount + 1 > u32Max) (.invalidArg "inode link count overflow")
  let source :=
    { source with
      linkCount := source.linkCount + 1
      generation := saturatingAdd source.generation 1
      ctimeMs := now.inode }
  Txn.modify (·.putInode source)
  putDentryRow ⟨newParent, newName⟩ source.id
  pure source

/-- `put_manifest_in_txn`. -/
def putManifestInTxn (manifest : Manifest) : MetaTxn ManifestId := do
  Txn.query fun _ => manifest.validate
  let id ← Txn.reads (·.nextManifest)
  Txn.modify (·.addManifest manifest)
  pure id

/-- The locality an import gives a template that has none. -/
def importedLocality : LocalityFields := ⟨.ufsBacked, .ufsClean, .none, .imported⟩

/-- The record an import stores, up to its manifest. -/
def importedInode (template : Inode) (id : InodeId) : Inode :=
  { template with
    id := id
    locality := .external
    localityFields := some (template.localityFields.getD importedLocality) }

/-- The manifest step of `import_external_in_txn`. -/
def importManifest (inode : Inode) : Option Manifest → MetaTxn Inode
  | some manifest => do
    let manifest := { manifest with inode := inode.id }
    Txn.query fun _ => manifest.validate
    let mid ← putManifestInTxn manifest
    pure { inode with manifestId := some mid, size := manifest.size }
  | none => pure { inode with manifestId := none }

/-- `import_external_in_txn`. -/
def importExternalInTxn (now : Clock) (expectedParentGeneration : Option Generation)
    (parent : InodeId) (name : String) (template : Inode) (manifest : Option Manifest) :
    MetaTxn Inode := do
  checkNewName name
  Txn.failIf (template.locality ≠ .external ∧
      template.localityFields.map (·.origin) ≠ some .imported)
    (.invalidArg "import_external requires External/Imported locality")
  checkVacant ⟨parent, name⟩
  let _ ← loadAndBumpParentDir now.parent parent expectedParentGeneration
  let id ← allocInode
  let inode ← importManifest (importedInode template id) manifest
  Txn.modify (·.putInode inode)
  putDentryRow ⟨parent, name⟩ id
  pure inode

/-! ## Removal -/

/-- The record `remove_inode_link_in_txn` writes back. -/
def dropLink (now : Int) (child : Inode) : Inode :=
  { child with
    linkCount := child.linkCount - 1
    generation := child.generation + 1
    ctimeMs := now }

@[simp] theorem dropLink_id (now : Int) (child : Inode) : (dropLink now child).id = child.id := rfl

/-- `remove_inode_link_in_txn`. -/
def removeInodeLinkInTxn (now : Int) (child : Inode) : MetaTxn Unit := do
  Txn.failIf (child.linkCount = 0) (.metaErr s!"inode {child.id} already has link_count=0")
  Txn.failIf (child.generation + 1 > u64Max) (.invalidArg "inode generation overflow")
  let opened ← Txn.reads (·.hasOpenPresence child.id)
  if (dropLink now child).linkCount = 0 ∧ opened = false then
    Txn.modify (·.deleteInode child.id)
  else
    Txn.modify (·.putInode (dropLink now child))

/-- `unlink_in_txn`. -/
def unlinkInTxn (now : Clock) (expectedParentGeneration : Option Generation) (parent : InodeId)
    (name : String) : MetaTxn Unit := do
  let childId ← lookupDentry ⟨parent, name⟩
  let child ← getInodeRaw childId
  Txn.failIf (child.fileType = .directory) .isDirectory
  let _ ← loadAndBumpParentDir now.parent parent expectedParentGeneration
  Txn.modify (·.eraseDentry ⟨parent, name⟩)
  removeInodeLinkInTxn now.unlinked child

/-- `rmdir_in_txn`. -/
def rmdirInTxn (now : Clock) (expectedParentGeneration : Option Generation) (parent : InodeId)
    (name : String) : MetaTxn Unit := do
  let childId ← lookupDentry ⟨parent, name⟩
  let child ← getInodeRaw childId
  Txn.failIf (child.fileType ≠ .directory) .notDirectory
  let populated ← Txn.reads (·.directoryHasChildren childId)
  Txn.failIf (populated = true) .notEmpty
  let _ ← loadAndBumpParentDir now.parent parent expectedParentGeneration
  Txn.modify (·.eraseDentry ⟨parent, name⟩)
  Txn.modify (·.deleteInode childId)

/-! ## Rename -/

/-- One round of the subtree search: the candidate is among the children, or the
child directories are pushed. -/
def visitDirectory (s : Tables) (candidate dir : InodeId) : Except FluxError (Visit InodeId) :=
  scan (s.childrenOf dir) []
where
  /-- The inner loop over one directory's children. -/
  scan : List InodeId → List InodeId → Except FluxError (Visit InodeId)
    | [], pushed => .ok (.push pushed)
    | child :: children, pushed =>
      if child = candidate then .ok .found
      else
        match s.inodes.get? child with
        | none => .error .notFound
        | some inode =>
          if inode.fileType = .directory then scan children (pushed ++ [child])
          else scan children pushed

/-- `inode_is_descendant_in_txn`. The fuel is never used up
(`visitDirectory_search_isSome`). -/
def inodeIsDescendant (s : Tables) (ancestor candidate : InodeId) : Except FluxError Bool :=
  if ancestor = candidate then .ok true
  else (search (visitDirectory s candidate) (s.dentries.size + 2) [ancestor] []).getD (.ok false)

/-- A directory must not move below itself. -/
def checkNotBelow (source : Inode) (newParent : InodeId) : MetaTxn Unit :=
  if source.fileType = .directory then do
    let below ← Txn.query (inodeIsDescendant · source.id newParent)
    Txn.failIf (below = true) (.invalidArg "cannot move a directory into its own subtree")
  else pure ()

/-- A rename replaces like by like, and only an empty directory. -/
def checkReplace (source : Inode) : Option InodeId → MetaTxn Unit
  | none => pure ()
  | some destinationId => do
    let destinationInode ← getInodeRaw destinationId
    Txn.failIf (source.fileType = .directory ∧ destinationInode.fileType ≠ .directory)
      .notDirectory
    Txn.failIf (source.fileType ≠ .directory ∧ destinationInode.fileType = .directory)
      .isDirectory
    let populated ← Txn.reads (·.directoryHasChildren destinationId)
    Txn.failIf (source.fileType = .directory ∧ populated = true) .notEmpty

/-- The reads and checks of `rename_in_txn`: the source, and what is at the
destination unless there is nothing to do. -/
def renameChecks (expectedOldParentGeneration : Option Generation) (oldKey : NameKey)
    (expectedNewParentGeneration : Option Generation) (newKey : NameKey) (noReplace : Bool) :
    MetaTxn (Inode × Option (Option InodeId)) := do
  validateDentryName oldKey.name
  validateDentryName newKey.name
  let sourceId ← lookupDentry oldKey
  let source ← getInodeRaw sourceId
  let oldParentInode ← getInodeRaw oldKey.owner
  let newParentInode ← getInodeRaw newKey.owner
  Txn.failIf (oldParentInode.fileType ≠ .directory ∨ newParentInode.fileType ≠ .directory)
    .notDirectory
  checkOptionalGeneration oldParentInode expectedOldParentGeneration
  checkOptionalGeneration newParentInode expectedNewParentGeneration
  if oldKey = newKey then
    pure (source, none)
  else do
    checkNotBelow source newKey.owner
    let destination ← Txn.reads (·.dentries[newKey]?)
    Txn.failIf (noReplace = true ∧ destination.isSome = true) .alreadyExists
    if destination = some source.id then
      pure (source, none)
    else do
      checkReplace source destination
      pure (source, some destination)

/-- Drop what the rename replaces. -/
def removeDestination (now : Int) (newKey : NameKey) : Option InodeId → MetaTxn Unit
  | none => pure ()
  | some destinationId => do
    Txn.modify (·.eraseDentry newKey)
    let destinationInode ← getInodeRaw destinationId
    if destinationInode.fileType = .directory then
      Txn.modify (·.deleteInode destinationId)
    else
      removeInodeLinkInTxn now destinationInode

/-- The second parent is bumped only when it is another directory. -/
def bumpNewParent (now : Int) (oldParent newParent : InodeId)
    (expectedNewParentGeneration : Option Generation) : MetaTxn Unit :=
  if newParent ≠ oldParent then do
    let _ ← loadAndBumpParentDir now newParent expectedNewParentGeneration
    pure ()
  else pure ()

/-- The writes of `rename_in_txn`. -/
def renameWrites (now : Clock) (expectedOldParentGeneration : Option Generation) (oldKey : NameKey)
    (expectedNewParentGeneration : Option Generation) (newKey : NameKey) (source : Inode)
    (destination : Option InodeId) : MetaTxn Inode := do
  let _ ← loadAndBumpParentDir now.parent oldKey.owner expectedOldParentGeneration
  bumpNewParent now.newParent oldKey.owner newKey.owner expectedNewParentGeneration
  removeDestination now.unlinked newKey destination
  Txn.modify (·.eraseDentry oldKey)
  putDentryRow newKey source.id
  let source :=
    { source with generation := saturatingAdd source.generation 1, ctimeMs := now.inode }
  Txn.modify (·.putInode source)
  pure source

/-- `rename_in_txn`. -/
def renameInTxn (now : Clock) (expectedOldParentGeneration : Option Generation) (oldKey : NameKey)
    (expectedNewParentGeneration : Option Generation) (newKey : NameKey) (noReplace : Bool) :
    MetaTxn Inode := do
  let checked ← renameChecks expectedOldParentGeneration oldKey expectedNewParentGeneration newKey
    noReplace
  match checked with
  | (source, none) => pure source
  | (source, some destination) =>
    renameWrites now expectedOldParentGeneration oldKey expectedNewParentGeneration newKey source
      destination

/-! ## Open presence -/

/-- What `validate_session_id` accepts. -/
def sessionIdOk (sessionId : String) : Bool :=
  !(sessionId.isEmpty ∨ sessionId.utf8ByteSize > 128 ∨
    ¬ sessionId.toList.all (fun c => c.isAlphanum || c = '-' || c = '_' || c = '.'))

/-- `validate_session_id`. -/
def validateSessionId (sessionId : String) : Except FluxError Unit :=
  if sessionIdOk sessionId then .ok () else .error (.invalidArg "invalid mount session id")

/-- `open_inode_in_txn`. -/
def openInodeInTxn (sessionId : String) (inode : InodeId) : MetaTxn Unit := do
  Txn.query fun _ => validateSessionId sessionId
  let opened ← getInodeRaw inode
  Txn.failIf (opened.fileType ≠ .regular)
    (.invalidArg "only regular files may have open-handle presence")
  Txn.modify fun s => { s with openPresence := s.openPresence.insert ⟨inode, sessionId⟩ () }

/-- `reap_unlinked_inode_if_unopened_in_txn`. -/
def reapUnlinkedInodeIfUnopened (s : Tables) (inode : InodeId) : Tables :=
  match s.inodes.get? inode with
  | none => s
  | some current =>
    if current.linkCount = 0 ∧ s.hasOpenPresence inode = false then s.deleteInode inode else s

/-- `close_inode_in_txn`. -/
def closeInodeInTxn (sessionId : String) (inode : InodeId) : MetaTxn Unit := do
  Txn.query fun _ => validateSessionId sessionId
  Txn.modify fun s => { s with openPresence := s.openPresence.erase ⟨inode, sessionId⟩ }
  Txn.modify (reapUnlinkedInodeIfUnopened · inode)

/-- The presence rows of a session. -/
def sessionKeys (s : Tables) (sessionId : String) : List NameKey :=
  (s.openPresence.toList.map Prod.fst).filter (·.name = sessionId)

/-- `recover_session_in_txn`. -/
def recoverSessionInTxn (sessionId : String) : MetaTxn Unit := do
  Txn.query fun _ => validateSessionId sessionId
  let stale ← Txn.reads (sessionKeys · sessionId)
  Txn.modify fun s => { s with openPresence := Table.eraseAll s.openPresence stale }
  Txn.modify fun s => (Table.ordSet (stale.map (·.owner))).foldl reapUnlinkedInodeIfUnopened s

end FluxFS
