import FluxFS.Meta.Gc

/-!
# Apply — the raft state machine

`HeedMetaStore::apply_raft_request`: one logged request against the tables,
with the retained-response ledger in front of it and the stop-the-world
lease blocking everything but its own requests. The transaction is committed
whatever the request answered, so an operation that stops half-way leaves
its first writes behind. The raft log markers stored beside the tables are
not part of the model.
-/

namespace FluxFS

open Std Kit

/-- The payload of a `MetaRaftRequest`. -/
inductive MetaOp where
  | registerWorker (registration : WorkerRegistration)
  | create (parent : InodeId) (name : String) (fileType : FileType) (mode uid gid : Nat)
      (expectedParentGeneration : Option Generation)
  | symlink (parent : InodeId) (name target : String) (uid gid : Nat)
      (expectedParentGeneration : Option Generation)
  | putInode (inode : Inode)
  | putInodeCas (expectedGeneration : Generation) (inode : Inode)
  | putManifest (manifest : Manifest)
  | commitInodeManifest (expectedGeneration : Generation) (inode : Inode) (manifest : Manifest)
  | reserveChunks (ticket : WriteTicketId) (inode : InodeId) (expectedGeneration : Generation)
      (chunks : List ChunkId) (expiresAtUnixMs : Nat)
  | abortChunkReservation (ticket : WriteTicketId)
  | expireChunkReservations (cutoffUnixMs maxToExpire : Nat)
  | pruneClientRequests (cutoffUnixMs maxToPrune : Nat)
  | commitInodeManifestReserved (ticket : WriteTicketId) (expectedGeneration : Generation)
      (inode : Inode) (manifest : Manifest)
  | tombstoneGcBatch (candidates : List ChunkId)
  | finalizeGcTombstones (chunks : List ChunkId)
  | initializeGcDeleteTargets (chunks : List ChunkId) (targets : List WorkerTargetId)
  | acknowledgeGcDeletes (deleted : List (ChunkId × WorkerTargetId))
  | beginFlush (expectedGeneration : Generation) (inode : InodeId) (intent : FlushIntent)
  | commitFlush (expectedGeneration : Generation) (inode : InodeId) (flushId : FlushId)
      (publishedUfs : UfsObject)
  | failFlushConflict (expectedGeneration : Generation) (inode : InodeId) (flushId : FlushId)
      (error : String)
  | beginGc (leaseId : GcLeaseId)
  | finishGc (leaseId : GcLeaseId)
  | importExternal (parent : InodeId) (name : String) (inode : Inode)
      (manifest : Option Manifest) (expectedParentGeneration : Option Generation)
  | unlink (parent : InodeId) (name : String) (expectedParentGeneration : Option Generation)
  | openInode (sessionId : String) (inode : InodeId)
  | closeInode (sessionId : String) (inode : InodeId)
  | recoverSession (sessionId : String)
  | link (inode newParent : InodeId) (newName : String)
      (expectedNewParentGeneration : Option Generation)
  | setXattr (expectedGeneration : Generation) (inode : InodeId) (name : String) (value : Bytes)
      (mode : XattrSetMode)
  | removeXattr (expectedGeneration : Generation) (inode : InodeId) (name : String)
  | rmdir (parent : InodeId) (name : String) (expectedParentGeneration : Option Generation)
  | rename (oldParent : InodeId) (oldName : String)
      (expectedOldParentGeneration : Option Generation) (newParent : InodeId) (newName : String)
      (expectedNewParentGeneration : Option Generation) (noReplace : Bool)
deriving DecidableEq, Repr

/-- A logged request. -/
structure MetaRaftRequest where
  requestId : Option RequestOpId
  /-- Leader-sampled wall time for the ledger. -/
  ledgerNowUnixMs : Nat
  op : MetaOp
deriving DecidableEq, Repr

/-! ## The request ledger -/

/-- How long a response is retained: a day. -/
def clientRequestRetentionMs : Nat := 24 * 60 * 60 * 1000

/-- The rows that a request prunes before it is performed. -/
def clientRequestPruneBatch : Nat := 256

/-- The number of retained responses from which requests with an id are turned away. -/
def clientRequestLedgerSoftCap : Nat := 10000

/-- The id requests are deduplicated by: `RequestOpId::NONE` is none. -/
def MetaRaftRequest.opId (req : MetaRaftRequest) : Option RequestOpId :=
  req.requestId.filter (· ≠ 0)

/-- `get_client_request_in_txn`. -/
def getClientRequest (s : Tables) (opId : RequestOpId) (nowUnixMs : Nat) :
    Option MetaRaftResponse :=
  (s.clientRequests[opId]?).bind fun entry =>
    if entry.expiresAtUnixMs ≤ nowUnixMs then none else some entry.response

/-- The rows one prune pass drops, earliest expiry first. -/
def expiredRequests (s : Tables) (cutoffUnixMs maxToPrune : Nat) : List RequestOpId :=
  let expired := s.clientRequests.toList.filter (·.2.expiresAtUnixMs ≤ cutoffUnixMs)
  ((expired.insertionSort (fun a b => a.2.expiresAtUnixMs < b.2.expiresAtUnixMs ∨
    (a.2.expiresAtUnixMs = b.2.expiresAtUnixMs ∧ a.1 ≤ b.1))).take maxToPrune).map Prod.fst

/-- `prune_client_requests_in_txn`. -/
def pruneClientRequests (s : Tables) (cutoffUnixMs maxToPrune : Nat) : Tables :=
  { s with
    clientRequests :=
      Table.eraseAll s.clientRequests (expiredRequests s cutoffUnixMs maxToPrune) }

/-- `put_client_request_in_txn`. -/
def putClientRequest (s : Tables) (opId : RequestOpId) (response : MetaRaftResponse)
    (createdAtUnixMs : Nat) : Tables :=
  { s with
    clientRequests := s.clientRequests.insert opId
      ⟨createdAtUnixMs, saturatingAdd createdAtUnixMs clientRequestRetentionMs, response⟩ }

/-! ## Dispatch -/

/-- `manifest_has_local`. -/
def manifestHasLocal (manifest : Manifest) : Bool :=
  manifest.extents.extents.any (fun extent => extent.localChunk?.isSome)

/-- The `CommitInodeManifest` arm of `apply_raft_request`. -/
def commitUnreserved (expectedGeneration : Generation) (inode : Inode) (manifest : Manifest) :
    MetaTxn Inode := do
  Txn.failIf (manifestHasLocal manifest = true)
    (.invalidArg "Local manifest commit requires a pre-Put reservation")
  commitInodeManifestInTxn expectedGeneration inode manifest

/-- The request match of `apply_raft_request`. -/
def performOp (now : Clock) : MetaOp → MetaTxn MetaRaftResponse
  | .registerWorker registration => do
    let membership ← registerWorkerInTxn registration
    pure (.workerMembership membership)
  | .create parent name fileType mode uid gid expected => do
    let inode ← createInTxn now expected parent name fileType mode uid gid
    pure (.inode inode)
  | .symlink parent name target uid gid expected => do
    let inode ← symlinkInTxn now expected parent name target uid gid
    pure (.inode inode)
  | .putInode inode => do
    Txn.modify (·.putInode inode)
    pure .empty
  | .putInodeCas expected inode => do
    let inode ← putInodeCasInTxn expected inode
    pure (.inode inode)
  | .putManifest manifest => do
    let id ← putManifestInTxn manifest
    pure (.manifestId id)
  | .commitInodeManifest expected inode manifest => do
    let inode ← commitUnreserved expected inode manifest
    pure (.inode inode)
  | .reserveChunks ticket inode expected chunks expiresAt => do
    reserveChunksInTxn ticket inode expected chunks expiresAt
    pure .empty
  | .abortChunkReservation ticket => do
    abortReservationInTxn ticket
    pure .empty
  | .expireChunkReservations cutoff maxToExpire => do
    let _ ← expireReservationsInTxn cutoff maxToExpire
    Txn.modify (pruneClientRequests · cutoff maxToExpire)
    pure .empty
  | .pruneClientRequests cutoff maxToPrune => do
    Txn.modify (pruneClientRequests · cutoff maxToPrune)
    pure .empty
  | .commitInodeManifestReserved ticket expected inode manifest => do
    let inode ← commitReservedInTxn ticket expected inode manifest
    pure (.inode inode)
  | .tombstoneGcBatch candidates => do
    let batch ← tombstoneGcBatchInTxn candidates
    pure (.gcBatch batch)
  | .finalizeGcTombstones chunks => do
    finalizeTombstonesInTxn chunks
    pure .empty
  | .initializeGcDeleteTargets chunks targets => do
    initializeGcTargetsInTxn chunks targets
    pure .empty
  | .acknowledgeGcDeletes deleted => do
    acknowledgeGcDeletesInTxn deleted
    pure .empty
  | .beginFlush expected inode intent => do
    let inode ← beginFlushInTxn expected inode intent
    pure (.inode inode)
  | .commitFlush expected inode flushId publishedUfs => do
    let inode ← commitFlushInTxn expected inode flushId publishedUfs
    pure (.inode inode)
  | .failFlushConflict expected inode flushId error => do
    let inode ← failFlushConflictInTxn expected inode flushId error
    pure (.inode inode)
  | .beginGc leaseId => do
    let plan ← beginGcInTxn leaseId
    pure (.gcPlan plan)
  | .finishGc leaseId => do
    finishGcInTxn leaseId
    pure .empty
  | .importExternal parent name inode manifest expected => do
    let inode ← importExternalInTxn now expected parent name inode manifest
    pure (.inode inode)
  | .unlink parent name expected => do
    unlinkInTxn now expected parent name
    pure .empty
  | .openInode sessionId inode => do
    openInodeInTxn sessionId inode
    pure .empty
  | .closeInode sessionId inode => do
    closeInodeInTxn sessionId inode
    pure .empty
  | .recoverSession sessionId => do
    recoverSessionInTxn sessionId
    pure .empty
  | .link inode newParent newName expected => do
    let inode ← linkInTxn now expected inode newParent newName
    pure (.inode inode)
  | .setXattr expected inode name value mode => do
    let inode ← setXattrInTxn now.inode expected inode name value mode
    pure (.inode inode)
  | .removeXattr expected inode name => do
    let inode ← removeXattrInTxn now.inode expected inode name
    pure (.inode inode)
  | .rmdir parent name expected => do
    rmdirInTxn now expected parent name
    pure .empty
  | .rename oldParent oldName expectedOld newParent newName expectedNew noReplace => do
    let inode ← renameInTxn now expectedOld ⟨oldParent, oldName⟩ expectedNew ⟨newParent, newName⟩
      noReplace
    pure (.inode inode)

/-- The requests the stop-the-world lease lets through. -/
def MetaOp.allowedUnderLease : MetaOp → Bool
  | .registerWorker _ | .beginGc _ | .finishGc _ => true
  | _ => false

/-- `MetaRaftResponse::Err` of a failed operation. -/
def toResponse : Except FluxError MetaRaftResponse → MetaRaftResponse
  | .ok response => response
  | .error e => .err e

/-- The lease check and the operation, which keeps its writes when it fails. -/
def dispatch (now : Clock) (op : MetaOp) (s : Tables) : MetaRaftResponse × Tables :=
  if s.gcLease.isSome ∧ op.allowedUnderLease = false then (.err .busy, s)
  else
    let (r, t) := performOp now op s
    (toResponse r, t)

/-- `HeedMetaStore::apply_raft_request`. -/
def applyRaftRequest (now : Clock) (req : MetaRaftRequest) (s : Tables) :
    MetaRaftResponse × Tables :=
  match req.opId with
  | none => dispatch now req.op s
  | some opId =>
    match getClientRequest s opId req.ledgerNowUnixMs with
    | some cached => (cached, s)
    | none =>
      let s := pruneClientRequests s req.ledgerNowUnixMs clientRequestPruneBatch
      if s.clientRequests.size ≥ clientRequestLedgerSoftCap then (.err .busy, s)
      else
        let (response, t) := dispatch now req.op s
        (response, putClientRequest t opId response req.ledgerNowUnixMs)

end FluxFS
