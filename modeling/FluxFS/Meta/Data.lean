import FluxFS.Meta.Namespace

/-!
# Data — xattrs, image commits and the flush state machine

The `*_in_txn` functions of `heed_store.rs` that replace one inode record:
extended attributes, generation-checked images with or without a new
manifest, and the begin / commit / fail steps of a flush.
-/

namespace FluxFS

open Std Kit

/-! ## Extended attributes -/

/-- `XATTR_VALUE_MAX`. -/
def xattrValueMax : Nat := 64 * 1024

/-- `XATTR_COUNT_MAX`. -/
def xattrCountMax : Nat := 64

/-- `XATTR_TOTAL_MAX`. -/
def xattrTotalMax : Nat := 256 * 1024

/-- `validate_xattr_name`. -/
def validateXattrName (name : String) : Except FluxError Unit :=
  if name.isEmpty ∨ name.utf8ByteSize > 255 ∨ name.toList.contains '\x00' then
    .error (.invalidArg "invalid xattr name")
  else if ¬ ["user.", "trusted.", "security.", "system."].any
      (fun space => space.toList.isPrefixOf name.toList && space.length < name.length) then
    .error (.invalidArg "xattr name must use user/trusted/security/system namespace")
  else .ok ()

/-- Which entries of a POSIX ACL have been seen. -/
structure AclSeen where
  userObj : Bool
  groupObj : Bool
  other : Bool
  mask : Bool
  hasNamedEntry : Bool

/-- The entry loop of `validate_posix_acl_ea`, over entries of eight bytes. -/
def scanAcl (seen : AclSeen) : List Nat → List Nat → Except FluxError AclSeen
  | tag :: tags, perm :: perms =>
    if tag ∉ [0x01, 0x02, 0x04, 0x08, 0x10, 0x20] ∨ perm / 8 ≠ 0 then
      .error (.invalidArg "invalid POSIX ACL entry")
    else if tag = 0x01 ∧ ¬ seen.userObj then scanAcl { seen with userObj := true } tags perms
    else if tag = 0x04 ∧ ¬ seen.groupObj then scanAcl { seen with groupObj := true } tags perms
    else if tag = 0x20 ∧ ¬ seen.other then scanAcl { seen with other := true } tags perms
    else if tag = 0x10 ∧ ¬ seen.mask then scanAcl { seen with mask := true } tags perms
    else if tag = 0x02 ∨ tag = 0x08 then
      scanAcl { seen with hasNamedEntry := true } tags perms
    else .error (.invalidArg "duplicate required POSIX ACL entry")
  | _, _ => .ok seen

/-- `chunks_exact(8)` of the entries, read as their tags and permissions. -/
def aclEntries (value : Bytes) : Nat → List Nat × List Nat
  | 0 => ([], [])
  | n + 1 =>
    let (tags, perms) := aclEntries (value.drop 8) n
    (fromLeBytes (value.take 2) :: tags, fromLeBytes ((value.drop 2).take 2) :: perms)

/-- `validate_posix_acl_ea`. -/
def validatePosixAclEa (value : Bytes) : Except FluxError Unit :=
  if value.length < 4 ∨ (value.length - 4) % 8 ≠ 0 then
    .error (.invalidArg "malformed POSIX ACL xattr")
  else if fromLeBytes (value.take 4) ≠ 2 then
    .error (.invalidArg s!"unsupported POSIX ACL xattr version {fromLeBytes (value.take 4)}")
  else
    let (tags, perms) := aclEntries (value.drop 4) ((value.length - 4) / 8)
    match scanAcl ⟨false, false, false, false, false⟩ tags perms with
    | .error e => .error e
    | .ok seen =>
      if ¬ (seen.userObj ∧ seen.groupObj ∧ seen.other) ∨ (seen.hasNamedEntry ∧ ¬ seen.mask) then
        .error (.invalidArg "POSIX ACL is missing required base or mask entries")
      else .ok ()

/-- `validate_xattr`. -/
def validateXattr (inode : Inode) (name : String) (value : Bytes) : Except FluxError Unit := do
  validateXattrName name
  if value.length > xattrValueMax then .error .noSpace
  else if name = accessAcl ∨ name = defaultAcl then
    if inode.fileType = .symlink then
      .error (.invalidArg "POSIX ACL xattrs are not supported on symlinks")
    else if name = defaultAcl ∧ inode.fileType ≠ .directory then
      .error (.invalidArg "default POSIX ACL requires a directory")
    else validatePosixAclEa value
  else .ok ()

/-- The values of an inode's xattrs. -/
def xattrValues (s : Tables) (inode : InodeId) : List Bytes :=
  (s.xattrs.toList.filter (·.1.owner = inode)).map Prod.snd

/-- The mode and quota checks of `set_xattr_in_txn`. -/
def checkXattrRoom (s : Tables) (k : NameKey) (value : Bytes) (mode : XattrSetMode) :
    Except FluxError Unit :=
  let existing := s.xattrs[k]?
  let values := xattrValues s k.owner
  let nextTotal := (values.map List.length).sum - (existing.elim 0 List.length) + value.length
  if mode = .create ∧ existing.isSome then .error .alreadyExists
  else if mode = .replace ∧ existing.isNone then .error .noData
  else if existing.isNone ∧ values.length ≥ xattrCountMax then .error .noSpace
  else if nextTotal > xattrTotalMax then .error .noSpace
  else .ok ()

/-- The record an xattr change writes. -/
def stampXattr (now : Int) (inode : Inode) : Inode :=
  { inode with generation := inode.generation + 1, ctimeMs := now }

/-- `set_xattr_in_txn`. -/
def setXattrInTxn (now : Int) (expectedGeneration : Generation) (inodeId : InodeId)
    (name : String) (value : Bytes) (mode : XattrSetMode) : MetaTxn Inode := do
  let inode ← getInodeRaw inodeId
  checkGeneration inode expectedGeneration
  Txn.query fun _ => validateXattr inode name value
  Txn.query (checkXattrRoom · ⟨inodeId, name⟩ value mode)
  Txn.failIf (inode.generation + 1 > u64Max) (.invalidArg "inode generation overflow")
  Txn.modify fun s => { s with xattrs := s.xattrs.insert ⟨inodeId, name⟩ value }
  Txn.modify (·.putInode (stampXattr now inode))
  pure (stampXattr now inode)

/-- `remove_xattr_in_txn`. -/
def removeXattrInTxn (now : Int) (expectedGeneration : Generation) (inodeId : InodeId)
    (name : String) : MetaTxn Inode := do
  Txn.query fun _ => validateXattrName name
  let inode ← getInodeRaw inodeId
  checkGeneration inode expectedGeneration
  let existing ← Txn.reads (·.xattrs[NameKey.mk inodeId name]?)
  Txn.modify fun s => { s with xattrs := s.xattrs.erase ⟨inodeId, name⟩ }
  Txn.failIf (existing = none) .noData
  Txn.failIf (inode.generation + 1 > u64Max) (.invalidArg "inode generation overflow")
  Txn.modify (·.putInode (stampXattr now inode))
  pure (stampXattr now inode)

/-! ## Image commits -/

/-- `commit_inode_manifest_in_txn`. -/
def commitInodeManifestInTxn (expectedGeneration : Generation) (inode : Inode)
    (manifest : Manifest) : MetaTxn Inode := do
  Txn.failIf (manifest.inode ≠ inode.id) (.invalidArg "manifest.inode must match inode.id")
  let current ← getInodeRaw inode.id
  checkGeneration current expectedGeneration
  Txn.failIf (current.flushIntent.isSome = true) .busy
  let mid ← putManifestInTxn manifest
  let next := { inode with manifestId := some mid }
  Txn.modify (·.putInode next)
  pure next

/-- The fields `put_inode_cas_in_txn` refuses to change. -/
def dataOrLifecycleChanged (current inode : Inode) : Prop :=
  current.id ≠ inode.id ∨ current.fileType ≠ inode.fileType ∨ current.size ≠ inode.size ∨
    current.linkCount ≠ inode.linkCount ∨ current.symlinkTarget ≠ inode.symlinkTarget ∨
    current.headGen ≠ inode.headGen ∨ current.ufsGen ≠ inode.ufsGen ∨
    current.ufsBaseVersion ≠ inode.ufsBaseVersion ∨ current.locality ≠ inode.locality ∨
    current.localityFields ≠ inode.localityFields ∨ current.ufs ≠ inode.ufs ∨
    current.extentRoot ≠ inode.extentRoot ∨ current.manifestId ≠ inode.manifestId ∨
    current.flushIntent ≠ inode.flushIntent ∨ current.lastError ≠ inode.lastError

instance (current inode : Inode) : Decidable (dataOrLifecycleChanged current inode) :=
  inferInstanceAs (Decidable (_ ∨ _))

/-- `put_inode_cas_in_txn`. -/
def putInodeCasInTxn (expectedGeneration : Generation) (inode : Inode) : MetaTxn Inode := do
  let current ← getInodeRaw inode.id
  checkGeneration current expectedGeneration
  Txn.failIf (expectedGeneration + 1 > u64Max) (.invalidArg "inode generation overflow")
  Txn.failIf (inode.generation ≠ expectedGeneration + 1) (.invalidArg
    ("CAS inode generation must advance exactly once: " ++
      s!"expected {expectedGeneration + 1}, got {inode.generation}"))
  Txn.failIf (dataOrLifecycleChanged current inode)
    (.invalidArg "put_inode_cas may only change POSIX mode/owner/timestamps")
  Txn.modify (·.putInode inode)
  pure inode

/-! ## Flush -/

/-- `fields.as_mut().ok_or_else(...)` of the flush operations. -/
def flushFields (inode : Inode) : MetaTxn LocalityFields :=
  Txn.query fun _ =>
    match inode.localityFields with
    | some fields => .ok fields
    | none => .error (.metaErr "flush inode missing locality fields")

/-- The record with its locality fields replaced and its label derived from them. -/
def relabel (inode : Inode) (fields : LocalityFields) : Inode :=
  { inode with
    localityFields := some fields
    locality := LocalityLabel.derive fields inode.headGen inode.ufsGen }

/-- The record `begin_flush_in_txn` writes. -/
def beginFlush (inode : Inode) (fields : LocalityFields) (intent : FlushIntent) : Inode :=
  relabel
    { inode with
      flushIntent := some intent
      lastError := none
      generation := saturatingAdd inode.generation 1 }
    { fields with opState := .flushing intent }

/-- `begin_flush_in_txn`. -/
def beginFlushInTxn (expectedGeneration : Generation) (inodeId : InodeId) (intent : FlushIntent) :
    MetaTxn Inode := do
  let inode ← getInodeRaw inodeId
  checkGeneration inode expectedGeneration
  Txn.failIf (inode.fileType ≠ .regular) .isDirectory
  let fields ← flushFields inode
  Txn.failIf (fields.backingMode ≠ .ufsBacked ∨ fields.dataState ≠ .dirty)
    (.invalidArg "only UFS-backed Dirty files can flush")
  Txn.failIf (inode.headGen ≠ intent.snapshotGen) (.casFailed intent.snapshotGen inode.headGen)
  Txn.failIf (inode.flushIntent.isSome = true ∨ fields.opState ≠ .none) .busy
  Txn.modify (·.putInode (beginFlush inode fields intent))
  pure (beginFlush inode fields intent)

/-- `matching_flush_intent`. -/
def matchingFlushIntent (inode : Inode) (flushId : FlushId) : MetaTxn FlushIntent :=
  Txn.query fun _ =>
    match inode.flushIntent with
    | some intent => if intent.flushId = flushId then .ok intent else .error .busy
    | none => .error .busy

/-- The version a published object is known by. -/
def publishedVersion (intent : FlushIntent) (publishedUfs : UfsObject) : UfsVersion :=
  publishedUfs.etag.getD s!"digest:{intent.targetDigest.toHex}"

/-- The manifest step of `commit_flush_in_txn`: the whole file as one UFS range. -/
def publishManifest (inode : Inode) (intent : FlushIntent) (publishedUfs : UfsObject) :
    MetaTxn (Option ManifestId) :=
  if inode.size = 0 then pure none
  else do
    let extents ← Txn.query fun _ => ExtentTree.singleton
      (.ufsRange 0 inode.size publishedUfs.key (publishedVersion intent publishedUfs) 0)
    let mid ← putManifestInTxn ⟨inode.id, intent.snapshotGen, inode.size, extents⟩
    pure (some mid)

/-- The record `commit_flush_in_txn` writes when the head is still the snapshot. -/
def installPublished (inode : Inode) (fields : LocalityFields) (intent : FlushIntent)
    (publishedUfs : UfsObject) (manifestId : Option ManifestId) : Inode :=
  relabel
    { inode with
      generation := saturatingAdd inode.generation 1
      flushIntent := none
      manifestId := manifestId
      ufs := some publishedUfs
      ufsGen := intent.snapshotGen
      ufsBaseVersion := some (publishedVersion intent publishedUfs)
      lastError := none }
    { fields with opState := .none, dataState := .ufsClean }

/-- The record a flush leaves behind when its snapshot cannot become the clean
copy: `fail_flush_conflict_in_txn`, and `commit_flush_in_txn` after the head moved. -/
def flushConflict (inode : Inode) (fields : LocalityFields) (error : String) : Inode :=
  relabel
    { inode with
      generation := saturatingAdd inode.generation 1
      flushIntent := none
      lastError := some error }
    { fields with opState := .none, dataState := .dirtyConflict }

/-- The error kept by an inode whose head moved on during a flush. -/
def headAdvancedError : String :=
  "head advanced during flush; published snapshot not installed as clean"

/-- `commit_flush_in_txn`. -/
def commitFlushInTxn (expectedGeneration : Generation) (inodeId : InodeId) (flushId : FlushId)
    (publishedUfs : UfsObject) : MetaTxn Inode := do
  let inode ← getInodeRaw inodeId
  checkGeneration inode expectedGeneration
  let intent ← matchingFlushIntent inode flushId
  let fields ← flushFields inode
  if inode.headGen = intent.snapshotGen then do
    let manifestId ← publishManifest inode intent publishedUfs
    let next := installPublished inode fields intent publishedUfs manifestId
    Txn.modify (·.putInode next)
    pure next
  else do
    let next := flushConflict inode fields headAdvancedError
    Txn.modify (·.putInode next)
    pure next

/-- `fail_flush_conflict_in_txn`. -/
def failFlushConflictInTxn (expectedGeneration : Generation) (inodeId : InodeId)
    (flushId : FlushId) (error : String) : MetaTxn Inode := do
  let inode ← getInodeRaw inodeId
  checkGeneration inode expectedGeneration
  let _ ← matchingFlushIntent inode flushId
  let fields ← flushFields inode
  let next := flushConflict inode fields error
  Txn.modify (·.putInode next)
  pure next

end FluxFS
