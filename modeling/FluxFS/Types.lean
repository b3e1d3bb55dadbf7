import FluxFS.Lib.Rows
import FluxFS.Lib.Word

/-!
# Types — the shared data model

The records of `crates/types`: inodes with their orthogonal locality
fields, extents and manifests, reservations, tombstones and worker
membership. Ids and generations are natural numbers; where a 64-bit
width shows (`saturating_add`, `checked_add`) the operations of
`Kit.saturatingAdd` and `Kit.checkedAdd` are used.
-/

namespace FluxFS

open Std Kit

abbrev InodeId := Nat
abbrev Generation := Nat
/-- Per-inode data generation. `headGen > ufsGen` means Dirty. -/
abbrev DataGen := Nat
abbrev UfsVersion := String
abbrev ManifestId := Nat
abbrev FlushId := Nat
abbrev GcLeaseId := Nat
abbrev WriteTicketId := Nat
abbrev WorkerTargetId := Nat
/-- The 128-bit client op id; `0` is `RequestOpId::NONE`. -/
abbrev RequestOpId := Nat
abbrev Bytes := List UInt8

/-- The root directory. -/
def rootInode : InodeId := 1

/-! ## Content addresses -/

/-- Content-addressed chunk id: 32 bytes. -/
structure ChunkId where
  bytes : Bytes
  length_eq : bytes.length = 32
deriving DecidableEq, Repr

namespace ChunkId

instance : LawfulBEq ChunkId := inferInstance

/-- Byte order, which is also the order of the hex spellings. -/
instance : Ord ChunkId := ⟨fun a b => compare a.bytes b.bytes⟩

instance : TransOrd ChunkId := inferInstanceAs (TransCmp (compareOn ChunkId.bytes))

instance : LawfulEqOrd ChunkId where
  eq_of_compare {a b} h := by
    have hb : a.bytes = b.bytes := LawfulEqOrd.eq_of_compare h
    cases a
    cases b
    cases hb
    rfl

/-- The id whose last byte is `b` and whose other bytes are zero. -/
def ofByte (b : UInt8) : ChunkId := ⟨List.replicate 31 0 ++ [b], by simp⟩

/-- A digit of the lower-case hex spelling. -/
def hexDigit (n : Nat) : Char := "0123456789abcdef".toList.getD n '0'

/-- `ChunkId::to_hex`. -/
def toHex (c : ChunkId) : String :=
  String.ofList (c.bytes.flatMap fun b => [hexDigit (b.toNat / 16), hexDigit (b.toNat % 16)])

end ChunkId

/-- A digest for small examples. -/
def firstByte (data : Bytes) : ChunkId := .ofByte (data.headD 0)

/-! ## Errors -/

/-- The errors of every layer. The texts of `thiserror` are in `FluxError.text`. -/
inductive FluxError where
  | notFound
  | alreadyExists
  | notDirectory
  | isDirectory
  | notEmpty
  | noData
  | noSpace
  | notPermitted
  | invalidArg (message : String)
  | capability (message : String)
  | casFailed (expected actual : Nat)
  | dirtyConflict
  | busy
  | readOnly
  | io (message : String)
  | metaErr (message : String)
  | ufs (message : String)
  | unauthenticated (message : String)
  | unauthorized (message : String)
deriving DecidableEq, Repr

/-- The `Display` text of an error. -/
def FluxError.text : FluxError → String
  | .notFound => "not found"
  | .alreadyExists => "already exists"
  | .notDirectory => "not a directory"
  | .isDirectory => "is a directory"
  | .notEmpty => "directory not empty"
  | .noData => "attribute not found"
  | .noSpace => "metadata capacity exceeded"
  | .notPermitted => "operation not permitted"
  | .invalidArg message => s!"invalid argument: {message}"
  | .capability message => s!"capability exceeded: {message}"
  | .casFailed expected actual => s!"CAS failed: expected={expected} actual={actual}"
  | .dirtyConflict => "dirty conflict: external UFS version drift"
  | .busy => "inode busy: op in flight"
  | .readOnly => "read-only filesystem"
  | .io message => s!"io: {message}"
  | .metaErr message => s!"meta: {message}"
  | .ufs message => s!"ufs: {message}"
  | .unauthenticated message => s!"unauthenticated: {message}"
  | .unauthorized message => s!"unauthorized: {message}"

/-- What becomes of a remote call. -/
inductive CallFate where
  | answered
  | refused (error : FluxError)
  | replyLost (error : FluxError)
deriving DecidableEq, Repr

/-! ## Inodes -/

/-- What an inode is. -/
inductive FileType where
  | directory
  | regular
  | symlink
deriving DecidableEq, Repr

/-- The flags of `setxattr`. -/
inductive XattrSetMode where
  | upsert
  | create
  | replace
deriving DecidableEq, Repr

/-- The derived product label. -/
inductive LocalityLabel where
  | dirty
  | flushing
  | clean
  | external
  | ephemeral
  | dirtyConflict
deriving DecidableEq, Repr

/-- Whether an object in the UFS stands behind the inode. -/
inductive BackingMode where
  | ufsBacked
  | ephemeral
deriving DecidableEq, Repr

/-- How the data relates to the object behind it. -/
inductive DataState where
  | ufsClean
  | dirty
  | dirtyConflict
  | ephemeral
deriving DecidableEq, Repr

/-- Who made the inode. -/
inductive Origin where
  | fluxCreated
  | imported
deriving DecidableEq, Repr

/-- Durable flush intent, persisted before the UFS Put. -/
structure FlushIntent where
  flushId : FlushId
  snapshotGen : DataGen
  snapshotManifestRoot : ChunkId
  expectedUfsVersion : Option UfsVersion
  targetDigest : ChunkId
deriving DecidableEq, Repr

/-- The operation in flight on the inode's data. -/
inductive OpState where
  | none
  | hydrating (token : Nat)
  | flushing (intent : FlushIntent)
deriving DecidableEq, Repr

/-- The implementation-level orthogonal fields the label is derived from. -/
structure LocalityFields where
  backingMode : BackingMode
  dataState : DataState
  opState : OpState
  origin : Origin
deriving DecidableEq, Repr

/-- `LocalityFields::default`: a FluxFS-created inode with no UFS backing yet. -/
def LocalityFields.default : LocalityFields where
  backingMode := .ufsBacked
  dataState := .ufsClean
  opState := .none
  origin := .fluxCreated

/-- `LocalityLabel::derive`. -/
def LocalityLabel.derive (f : LocalityFields) (headGen ufsGen : DataGen) : LocalityLabel :=
  if f.backingMode = .ephemeral then .ephemeral
  else
    match f.opState with
    | .flushing _ => .flushing
    | _ =>
      match f.dataState with
      | .dirtyConflict => .dirtyConflict
      | .dirty => .dirty
      | .ufsClean =>
        if headGen > ufsGen then .dirty
        else if f.origin = .imported then .external
        else .clean
      | .ephemeral => .ephemeral

/-- An object of the UFS as `stat` describes it. -/
structure UfsObject where
  key : String
  size : Nat
  etag : Option String
  mtimeMs : Option Int
deriving DecidableEq, Repr

/-- The record of a file, directory or symlink. -/
structure Inode where
  id : InodeId
  fileType : FileType
  mode : Nat
  uid : Nat
  gid : Nat
  size : Nat
  mtimeMs : Int
  ctimeMs : Int
  atimeMs : Int
  linkCount : Nat
  symlinkTarget : Option String
  generation : Generation
  headGen : DataGen
  ufsGen : DataGen
  ufsBaseVersion : Option UfsVersion
  locality : LocalityLabel
  localityFields : Option LocalityFields
  ufs : Option UfsObject
  extentRoot : Option Nat
  manifestId : Option ManifestId
  flushIntent : Option FlushIntent
  lastError : Option String
deriving DecidableEq, Repr

/-! ## Dentry names -/

/-- The key of a row owned by an inode and told apart by a text: a dentry
under its directory, an xattr under its inode, an open-presence row under
the inode it keeps open. -/
structure NameKey where
  owner : InodeId
  name : String
deriving DecidableEq, Repr

namespace NameKey

instance : Ord NameKey := ⟨compareLex (compareOn NameKey.owner) (compareOn NameKey.name)⟩

instance : TransOrd NameKey :=
  inferInstanceAs (TransCmp (compareLex (compareOn NameKey.owner) (compareOn NameKey.name)))

instance : LawfulEqOrd NameKey where
  eq_of_compare {a b} h := by
    obtain ⟨howner, hname⟩ := compareLex_eq_eq.mp h
    have howner := LawfulEqOrd.eq_of_compare howner
    have hname := LawfulEqOrd.eq_of_compare hname
    cases a
    cases b
    cases howner
    cases hname
    rfl

end NameKey

/-- `Dentry::validate`, which reads nothing of a dentry but its name. -/
def Dentry.validate (name : String) : Except FluxError Unit :=
  if name.isEmpty then .error (.invalidArg "empty dentry name")
  else if name.toList.contains '/' then .error (.invalidArg s!"dentry name contains '/': {name}")
  else if name = "." ∨ name = ".." then .error (.invalidArg s!"reserved dentry name: {name}")
  else if name.utf8ByteSize > 255 then
    .error (.invalidArg
      s!"dentry name too long: {name.utf8ByteSize} bytes (NAME_MAX=255)")
  else .ok ()

theorem Dentry.length_le_of_validate {name : String} (h : Dentry.validate name = .ok ()) :
    name.utf8ByteSize ≤ 255 := by
  unfold Dentry.validate at h
  split at h
  · cases h
  · split at h
    · cases h
    · split at h
      · cases h
      · split at h
        · cases h
        · omega

/-! ## Extents and manifests -/

/-- A run of bytes of a file. -/
inductive Extent where
  /-- FluxFS ChunkStore-owned bytes. -/
  | local (offset len : Nat) (chunk : ChunkId)
  /-- Bytes still referenced from a pinned UFS object. -/
  | ufsRange (offset len : Nat) (ufsKey : String) (ufsVersion : UfsVersion)
      (offsetInObject : Nat)
deriving DecidableEq, Repr

namespace Extent

/-- `Extent::offset`. -/
def offset : Extent → Nat
  | .local offset _ _ => offset
  | .ufsRange offset _ _ _ _ => offset

/-- `Extent::len`. -/
def len : Extent → Nat
  | .local _ len _ => len
  | .ufsRange _ len _ _ _ => len

/-- The chunk a Local extent holds. -/
def localChunk? : Extent → Option ChunkId
  | .local _ _ chunk => some chunk
  | .ufsRange .. => none

end Extent

/-- Ordered extent index keyed by logical file offset. -/
structure ExtentTree where
  extents : List Extent
  sorted : extents.Pairwise (fun a b => a.offset < b.offset)
deriving DecidableEq, Repr

namespace ExtentTree

/-- `ExtentTree::default`. -/
def empty : ExtentTree := ⟨[], List.Pairwise.nil⟩

/-- The map insertion of `BTreeMap`: a row at the same offset is replaced. -/
def insertByOffset (e : Extent) : List Extent → List Extent
  | [] => [e]
  | x :: xs =>
    if e.offset < x.offset then e :: x :: xs
    else if e.offset = x.offset then e :: xs
    else x :: insertByOffset e xs

theorem mem_insertByOffset {e y : Extent} {xs : List Extent} (h : y ∈ insertByOffset e xs) :
    y = e ∨ y ∈ xs := by
  induction xs with
  | nil => simpa [insertByOffset] using h
  | cons x xs ih =>
    simp only [insertByOffset] at h
    split at h
    · simpa using h
    · split at h
      · rcases List.mem_cons.mp h with h | h
        · exact .inl h
        · exact .inr (List.mem_cons_of_mem _ h)
      · rcases List.mem_cons.mp h with h | h
        · exact .inr (h ▸ List.mem_cons_self)
        · exact (ih h).imp id (List.mem_cons_of_mem _)

theorem insertByOffset_sorted (e : Extent) {xs : List Extent}
    (h : xs.Pairwise (fun a b => a.offset < b.offset)) :
    (insertByOffset e xs).Pairwise (fun a b => a.offset < b.offset) := by
  induction xs with
  | nil => simp [insertByOffset]
  | cons x xs ih =>
    obtain ⟨hx, hxs⟩ := List.pairwise_cons.mp h
    simp only [insertByOffset]
    split
    · rename_i hlt
      refine List.pairwise_cons.mpr ⟨?_, h⟩
      intro y hy
      rcases List.mem_cons.mp hy with rfl | hy
      · exact hlt
      · exact Nat.lt_trans hlt (hx y hy)
    · split
      · rename_i heq
        exact List.pairwise_cons.mpr ⟨fun y hy => heq ▸ hx y hy, hxs⟩
      · rename_i hlt hne
        refine List.pairwise_cons.mpr ⟨?_, ih hxs⟩
        intro y hy
        rcases mem_insertByOffset hy with rfl | hy
        · omega
        · exact hx y hy

/-- `BTreeMap::insert` on the index. -/
def insert (t : ExtentTree) (e : Extent) : ExtentTree :=
  ⟨insertByOffset e t.extents, insertByOffset_sorted e t.sorted⟩

/-- `BTreeMap::contains_key` on the index. -/
def hasOffset (t : ExtentTree) (offset : Nat) : Bool := t.extents.any (·.offset == offset)

/-- The first loop of `TryFrom<Vec<Extent>>`: no two extents at one offset. -/
def collect (t : ExtentTree) : List Extent → Except FluxError ExtentTree
  | [] => .ok t
  | e :: es =>
    if t.hasOffset e.offset then
      .error (.invalidArg s!"duplicate extent offset {e.offset}")
    else collect (t.insert e) es

/-- The second loop of `TryFrom<Vec<Extent>>`: non-empty, ends within `u64`, no overlap. -/
def check (previousEnd : Option Nat) : List Extent → Except FluxError Unit
  | [] => .ok ()
  | e :: es =>
    if e.len = 0 then .error (.invalidArg s!"zero-length extent at offset {e.offset}")
    else
      match checkedAdd e.offset e.len with
      | none => .error (.invalidArg "extent end overflow")
      | some stop =>
        if previousEnd.any (e.offset < ·) then
          .error (.invalidArg s!"extent overlap at offset {e.offset}")
        else check (some stop) es

/-- `ExtentTree::try_from`. -/
def tryFrom (extents : List Extent) : Except FluxError ExtentTree := do
  let tree ← collect empty extents
  check none tree.extents
  pure tree

/-- `ExtentTree::singleton`. -/
def singleton (e : Extent) : Except FluxError ExtentTree := tryFrom [e]

theorem extents_of_singleton {e : Extent} {tree : ExtentTree} (h : singleton e = .ok tree) :
    tree.extents = [e] := by
  have hcollect : collect empty [e] = .ok (empty.insert e) := rfl
  rw [singleton, tryFrom, hcollect] at h
  cases hcheck : check none (empty.insert e).extents with
  | error err => simp [bind, Except.bind, hcheck] at h
  | ok _ =>
    simp only [bind, Except.bind, hcheck, pure, Except.pure, Except.ok.injEq] at h
    rw [← h]
    rfl

end ExtentTree

/-- Immutable extent-map snapshot. -/
structure Manifest where
  inode : InodeId
  gen : DataGen
  size : Nat
  extents : ExtentTree
deriving DecidableEq, Repr

namespace Manifest

/-- The loop of `Manifest::validate`. -/
def checkOverlap (prevEnd : Option Nat) : List Extent → Except FluxError Unit
  | [] => .ok ()
  | e :: es =>
    match prevEnd with
    | some pe =>
      if e.offset < pe then
        .error (.invalidArg s!"extent overlap at offset {e.offset} (prev_end={pe})")
      else checkOverlap (some (e.offset + e.len)) es
    | none => checkOverlap (some (e.offset + e.len)) es

/-- `Manifest::validate`. -/
def validate (m : Manifest) : Except FluxError Unit := checkOverlap none m.extents.extents

/-- `Manifest::empty`. -/
def empty (inode : InodeId) (gen : DataGen) : Manifest := ⟨inode, gen, 0, .empty⟩

/-- The chunks of the Local extents, in extent order. -/
def localChunks (m : Manifest) : List ChunkId := m.extents.extents.filterMap Extent.localChunk?

end Manifest

/-! ## Garbage collection records -/

/-- Durable pre-Put reservation of content addresses. -/
structure ChunkReservation where
  ticket : WriteTicketId
  inode : InodeId
  expectedGeneration : Generation
  chunks : List ChunkId
  expiresAtUnixMs : Nat
deriving DecidableEq, Repr

/-- A chunk to be deleted, with the storage targets that have not acknowledged it. -/
structure GcTombstone where
  chunk : ChunkId
  targetsInitialized : Bool
  pendingTargets : List WorkerTargetId
deriving DecidableEq, Repr

/-- A new tombstone: `GcTombstone::default` with its chunk filled in. -/
def GcTombstone.fresh (chunk : ChunkId) : GcTombstone := ⟨chunk, false, []⟩

/-- The answer to a tombstone batch. -/
structure GcBatch where
  tombstonedChunks : List ChunkId
  removedManifests : Nat
deriving DecidableEq, Repr

/-- The answer to a stop-the-world lease: every chunk that must stay. -/
structure GcPlan where
  leaseId : GcLeaseId
  liveChunks : List ChunkId
  removedManifests : Nat
deriving DecidableEq, Repr

/-! ## Worker membership -/

/-- What a worker says of itself when it registers. -/
structure WorkerRegistration where
  id : WorkerTargetId
  endpoint : String
  failureDomain : String
  capacityBytes : Nat
  availableBytes : Nat
  leaseDeadlineMs : Nat
deriving DecidableEq, Repr

/-- `WorkerRegistration::validate`. -/
def WorkerRegistration.validate (w : WorkerRegistration) : Except FluxError Unit :=
  if w.id = 0 then .error (.invalidArg "worker id 0 is reserved")
  else if w.endpoint.isEmpty ∨ w.failureDomain.isEmpty then
    .error (.invalidArg "worker endpoint and failure domain must be non-empty")
  else if w.capacityBytes = 0 ∨ w.availableBytes > w.capacityBytes then
    .error (.invalidArg "invalid worker capacity/available bytes")
  else .ok ()

/-- The registered workers, with the epoch of the last change. -/
structure WorkerMembership where
  epoch : Nat
  workers : List WorkerRegistration
deriving DecidableEq, Repr

/-- `WorkerMembership::default`. -/
def WorkerMembership.default : WorkerMembership := ⟨0, []⟩

end FluxFS
