import FluxFS.Lib.Frames
import FluxFS.Meta.StateMachine

/-!
# Snapshot — streaming a metadata store to another replica

`snapshot_stream.rs` and the export and install functions of
`heed_store.rs`. `DiskStore` is the store as it lies on disk, where a ledger
row may be a bare response of an earlier version and a tombstone an empty
value; `DiskStore.decoded` is what the code reads back from it. The JSON text
of a record and of a legacy snapshot is a parameter (`SnapshotCodec`). An
install that fails drops its write transaction.
-/

namespace FluxFS

open Std Kit

/-! ## The store on disk -/

/-- A value of the `client_requests` database. -/
inductive LedgerRow where
  | entry (entry : ClientRequestLedgerEntry)
  /-- The bare response that versions before the expiry stored. -/
  | bare (response : MetaRaftResponse)
deriving DecidableEq, Repr

/-- `decode_client_request_bytes`: a bare response counts as expired. -/
def LedgerRow.decode : LedgerRow → ClientRequestLedgerEntry
  | .entry row => row
  | .bare response => ⟨0, 0, response⟩

/-- A value under a tombstone key. -/
inductive TombstoneRow where
  | tombstone (tombstone : GcTombstone)
  /-- The empty value that versions before the delete targets stored. -/
  | empty
deriving DecidableEq, Repr

/-- A row as the store reads it; an empty one is that of a new tombstone. -/
def TombstoneRow.decode (chunk : ChunkId) : TombstoneRow → GcTombstone
  | .tombstone row => row
  | .empty => .fresh chunk

/-- The tables as they lie on disk: rows of older formats are among them. -/
structure DiskStore where
  inodes : Keyed Inode.id
  dentries : Table NameKey InodeId
  manifests : Table ManifestId Manifest
  xattrs : Table NameKey Bytes
  openPresence : Table NameKey Unit
  reservations : Keyed ChunkReservation.ticket
  tombstones : Table ChunkId TombstoneRow
  clientRequests : Table RequestOpId LedgerRow
  nextInode : InodeId
  nextManifest : ManifestId
  gcLease : Option GcLeaseId
  workerMembership : Option WorkerMembership
  sm : SmRows

namespace DiskStore

/-- `list_tombstones_in_txn`; the keys are in chunk order already. -/
def listTombstones (disk : DiskStore) : List GcTombstone :=
  disk.tombstones.toList.map fun row => row.2.decode row.1

/-- The tables as the code reads them. -/
def decoded (disk : DiskStore) : Tables where
  inodes := disk.inodes
  dentries := disk.dentries
  manifests := disk.manifests
  xattrs := disk.xattrs
  openPresence := disk.openPresence
  reservations := disk.reservations
  tombstones := .ofRows disk.listTombstones
  clientRequests := Table.mapValues LedgerRow.decode disk.clientRequests
  nextInode := disk.nextInode
  nextManifest := disk.nextManifest
  gcLease := disk.gcLease
  workerMembership := disk.workerMembership.getD .default

/-- The store a current version writes. -/
def ofStore (store : MetaStore) : DiskStore where
  inodes := store.tables.inodes
  dentries := store.tables.dentries
  manifests := store.tables.manifests
  xattrs := store.tables.xattrs
  openPresence := store.tables.openPresence
  reservations := store.tables.reservations
  tombstones := Table.mapValues .tombstone store.tables.tombstones.table
  clientRequests := Table.mapValues .entry store.tables.clientRequests
  nextInode := store.tables.nextInode
  nextManifest := store.tables.nextManifest
  gcLease := store.tables.gcLease
  workerMembership := some store.tables.workerMembership
  sm := store.sm

end DiskStore

/-! ## Records -/

/-- The first record of a stream. -/
structure SnapshotHeader where
  nextInode : InodeId
  nextManifest : ManifestId
  sm : SmAppliedMeta
  gcLease : Option GcLeaseId
  workerMembership : WorkerMembership
deriving DecidableEq, Repr

/-- A record of the stream. -/
inductive SnapshotRecord where
  | header (header : SnapshotHeader)
  | inode (inode : Inode)
  | dentry (parent : InodeId) (name : String) (child : InodeId)
  | manifest (id : ManifestId) (manifest : Manifest)
  | xattr (inode : InodeId) (name : String) (value : Bytes)
  | openPresence (inode : InodeId) (sessionId : String)
  | clientRequest (id : RequestOpId) (response : MetaRaftResponse)
      (expiresAtUnixMs createdAtUnixMs : Nat)
  | reservation (reservation : ChunkReservation)
  | deleteTombstone (tombstone : GcTombstone)
  | finish
deriving DecidableEq, Repr

/-- The monolithic snapshot of earlier versions. -/
structure MetaSnapshotData where
  inodes : List Inode
  dentries : List (NameKey × InodeId)
  manifests : List (ManifestId × Manifest)
  xattrs : List (NameKey × Bytes)
  openPresences : List NameKey
  nextInode : InodeId
  nextManifest : ManifestId
  sm : SmAppliedMeta
  clientRequests : List (RequestOpId × MetaRaftResponse)
  gcLease : Option GcLeaseId
  chunkReservations : List ChunkReservation
  gcTombstones : List ChunkId
  gcDeleteTombstones : List GcTombstone
  workerMembership : WorkerMembership

/-- serde_json on the two snapshot types. -/
structure SnapshotCodec where
  encode : SnapshotRecord → Bytes
  decode : Bytes → Except String SnapshotRecord
  decodeLegacy : Bytes → Except String MetaSnapshotData

/-- `SNAPSHOT_MAGIC`. -/
def snapshotMagic : Bytes := "fluxfs-meta-snapshot\n".toList.map fun c => UInt8.ofNat c.toNat

/-- `SNAPSHOT_VERSION`. -/
def snapshotVersion : Nat := 3

/-- What the first bytes of a stream say. -/
inductive SnapshotFormat where
  | streamingV1
  | legacyJson
deriving DecidableEq, Repr

section
variable (codec : SnapshotCodec)

/-! ## Export -/

/-- `write_record`. -/
def writeRecord (record : SnapshotRecord) : Except FluxError Bytes :=
  let bytes := codec.encode record
  if bytes.length > u32Max then .error (.metaErr "snapshot record too large")
  else .ok (frame bytes)

/-- Write records one after the other, each of which may fail to be read. -/
def writeRecords : List (Except FluxError SnapshotRecord) → Except FluxError Bytes
  | [] => .ok []
  | item :: items => do
    let record ← item
    let bytes ← writeRecord codec record
    let rest ← writeRecords items
    pure (bytes ++ rest)

/-- `parse_open_presence_key`, which validates the session id it finds. -/
def presenceRecord (k : NameKey) : Except FluxError SnapshotRecord := do
  validateSessionId k.name
  pure (.openPresence k.owner k.name)

/-- The header that an export writes. -/
def snapshotHeader (sm : SmAppliedMeta) (disk : DiskStore) : SnapshotHeader where
  nextInode := disk.nextInode
  nextManifest := disk.nextManifest
  sm := sm
  gcLease := disk.gcLease
  workerMembership := disk.workerMembership.getD .default

/-- The record of a ledger row. -/
def ledgerRecord (row : RequestOpId × LedgerRow) : SnapshotRecord :=
  let entry := row.2.decode
  .clientRequest row.1 entry.response entry.expiresAtUnixMs entry.createdAtUnixMs

/-- The records of an export in the order they are written. -/
def exportItems (sm : SmAppliedMeta) (disk : DiskStore) :
    List (Except FluxError SnapshotRecord) :=
  List.flatten [
    [.ok (.header (snapshotHeader sm disk))],
    disk.inodes.rows.map fun i => .ok (.inode i),
    disk.dentries.toList.map fun row => .ok (.dentry row.1.owner row.1.name row.2),
    disk.manifests.toList.map fun row => .ok (.manifest row.1 row.2),
    disk.xattrs.toList.map fun row => .ok (.xattr row.1.owner row.1.name row.2),
    disk.openPresence.toList.map fun row => presenceRecord row.1,
    disk.clientRequests.toList.map fun row => .ok (ledgerRecord row),
    disk.reservations.rows.map fun r => .ok (.reservation r),
    disk.listTombstones.map fun t => .ok (.deleteTombstone t),
    [.ok .finish]]

/-- `export_snapshot_to_path`: the bytes of the file. -/
def exportSnapshotToPath (sm : SmAppliedMeta) (disk : DiskStore) : Except FluxError Bytes := do
  let records ← writeRecords codec (exportItems sm disk)
  pure (snapshotMagic ++ toLeBytes 4 snapshotVersion ++ records)

/-! ## Install -/

/-- `detect_format`: the format and the bytes still to read. -/
def detectFormat (bytes : Bytes) : Except FluxError (SnapshotFormat × Bytes) :=
  if bytes.length < snapshotMagic.length ∨ bytes.take snapshotMagic.length ≠ snapshotMagic then
    .ok (.legacyJson, bytes)
  else
    let rest := bytes.drop snapshotMagic.length
    let version := fromLeBytes (rest.take 4)
    if rest.length < 4 then .error (.io "failed to fill whole buffer")
    else if version ∉ [1, 2, snapshotVersion] then
      .error (.metaErr s!"unsupported snapshot version {version}")
    else .ok (.streamingV1, rest.drop 4)

/-- `read_record`. -/
def readRecord (bytes : Bytes) : Except FluxError (Option (SnapshotRecord × Bytes)) :=
  match readFrame bytes with
  | .eof => .ok none
  | .cut => .error (.io "failed to fill whole buffer")
  | .payload payload rest =>
    match codec.decode payload with
    | .error message => .error (.metaErr message)
    | .ok record => .ok (some (record, rest))

/-- The tables an install empties before it reads. -/
def DiskStore.cleared (disk : DiskStore) : DiskStore :=
  { disk with
    inodes := .empty
    dentries := ∅
    manifests := ∅
    xattrs := ∅
    openPresence := ∅
    reservations := .empty
    tombstones := ∅
    clientRequests := ∅
    workerMembership := none }

/-- What the install loop has seen. -/
structure InstallState where
  disk : DiskStore
  headerSm : Option SmAppliedMeta
  sawEnd : Bool

/-- The ledger row of a received record: times that are 0 are filled in from the
local clock. -/
def installedLedgerEntry (now : Nat) (response : MetaRaftResponse)
    (expiresAtUnixMs createdAtUnixMs : Nat) : ClientRequestLedgerEntry :=
  let created := if createdAtUnixMs = 0 then now else createdAtUnixMs
  let expires :=
    if expiresAtUnixMs = 0 then saturatingAdd created clientRequestRetentionMs
    else expiresAtUnixMs
  ⟨created, expires, response⟩

/-- The match of `install_streaming_snapshot` on one record; `now` is the clock. -/
def installRecord (now : Nat) (st : InstallState) : SnapshotRecord → Except FluxError InstallState
  | .header header =>
    .ok { st with
      disk := { st.disk with
        nextInode := header.nextInode
        nextManifest := header.nextManifest
        gcLease := header.gcLease
        sm := .putSmMetaRaw header.sm
        workerMembership := some header.workerMembership }
      headerSm := some header.sm }
  | .inode inode => .ok { st with disk.inodes := st.disk.inodes.put inode }
  | .dentry parent name child =>
    .ok { st with disk.dentries := st.disk.dentries.insert ⟨parent, name⟩ child }
  | .manifest id manifest =>
    .ok { st with disk.manifests := st.disk.manifests.insert id manifest }
  | .xattr inode name value =>
    .ok { st with disk.xattrs := st.disk.xattrs.insert ⟨inode, name⟩ value }
  | .openPresence inode sessionId => do
    validateSessionId sessionId
    pure { st with disk.openPresence := st.disk.openPresence.insert ⟨inode, sessionId⟩ () }
  | .clientRequest id response expiresAt createdAt =>
    let row := .entry (installedLedgerEntry now response expiresAt createdAt)
    .ok { st with disk.clientRequests := st.disk.clientRequests.insert id row }
  | .reservation reservation =>
    .ok { st with disk.reservations := st.disk.reservations.put reservation }
  | .deleteTombstone tombstone =>
    let row := .tombstone tombstone
    .ok { st with disk.tombstones := st.disk.tombstones.insert tombstone.chunk row }
  | .finish => .ok { st with sawEnd := true }

theorem length_of_readRecord {bytes rest : Bytes} {record : SnapshotRecord}
    (h : readRecord codec bytes = .ok (some (record, rest))) : rest.length < bytes.length := by
  unfold readRecord at h
  split at h
  · cases h
  · cases h
  · rename_i payload rest' hframe
    split at h
    · cases h
    · cases h
      exact length_of_readFrame hframe

/-- The loop of `install_streaming_snapshot`. -/
def installLoop (now : Nat) (bytes : Bytes) (st : InstallState) :
    Except FluxError InstallState :=
  match _hread : readRecord codec bytes with
  | .error e => .error e
  | .ok none => .ok st
  | .ok (some (record, rest)) =>
    match installRecord now st record with
    | .error e => .error e
    | .ok st => if st.sawEnd then .ok st else installLoop now rest st
termination_by bytes.length
decreasing_by exact length_of_readRecord codec ‹_›

/-- `install_streaming_snapshot`, from behind the version field. -/
def installStreamingSnapshot (now : Nat) (bytes : Bytes) (disk : DiskStore) :
    Except FluxError SmAppliedMeta × DiskStore :=
  match installLoop codec now bytes ⟨disk.cleared, none, false⟩ with
  | .error e => (.error e, disk)
  | .ok st =>
    if st.sawEnd = false then (.error (.metaErr "snapshot missing End record"), disk)
    else
      match st.headerSm with
      | none => (.error (.metaErr "snapshot missing Header"), disk)
      | some sm => (.ok sm, st.disk)

/-- The session checks of `install_snapshot_data`. -/
def checkSessionIds : List NameKey → Except FluxError Unit
  | [] => .ok ()
  | k :: ks => do
    validateSessionId k.name
    checkSessionIds ks

/-- The store `install_snapshot_data` writes; ledger rows get a fresh retention
window. -/
def installedData (now : Nat) (snap : MetaSnapshotData) : DiskStore where
  inodes := .ofRows snap.inodes
  dentries := Table.insertAll ∅ snap.dentries
  manifests := Table.insertAll ∅ snap.manifests
  xattrs := Table.insertAll ∅ snap.xattrs
  openPresence := Table.insertAll ∅ (snap.openPresences.map (·, ()))
  reservations := .ofRows snap.chunkReservations
  tombstones := Table.insertAll ∅
    ((snap.gcTombstones.map GcTombstone.fresh ++ snap.gcDeleteTombstones).map
      fun t => (t.chunk, .tombstone t))
  clientRequests := Table.insertAll ∅ (snap.clientRequests.map fun row =>
    (row.1, .entry ⟨now, saturatingAdd now clientRequestRetentionMs, row.2⟩))
  nextInode := snap.nextInode
  nextManifest := snap.nextManifest
  gcLease := snap.gcLease
  workerMembership := some snap.workerMembership
  sm := .putSmMetaRaw snap.sm

/-- `install_snapshot_data`. -/
def installSnapshotData (now : Nat) (snap : MetaSnapshotData) (disk : DiskStore) :
    Except FluxError SmAppliedMeta × DiskStore :=
  match checkSessionIds snap.openPresences with
  | .error e => (.error e, disk)
  | .ok () => (.ok snap.sm, installedData now snap)

/-- `install_snapshot_from_reader`. -/
def installSnapshotFromReader (now : Nat) (bytes : Bytes) (disk : DiskStore) :
    Except FluxError SmAppliedMeta × DiskStore :=
  match detectFormat bytes with
  | .error e => (.error e, disk)
  | .ok (.legacyJson, bytes) =>
    match codec.decodeLegacy bytes with
    | .error message => (.error (.metaErr message), disk)
    | .ok snap => installSnapshotData now snap disk
  | .ok (.streamingV1, rest) => installStreamingSnapshot codec now rest disk

end
end FluxFS
