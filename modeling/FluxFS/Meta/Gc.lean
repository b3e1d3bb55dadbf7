import FluxFS.Meta.Data

/-!
# Gc — write reservations, tombstones and the stop-the-world lease

The garbage-collection half of `heed_store.rs`. A writer reserves the chunks
of its next manifest before it stores them; a collector tombstones chunks
that no live manifest and no reservation holds, and drops a tombstone only
after every storage target acknowledged the delete.
-/

namespace FluxFS

open Std Kit

namespace Tables

/-- The manifests that some inode refers to. -/
def activeManifests (s : Tables) : List ManifestId :=
  Table.ordSet (s.inodes.rows.filterMap (·.manifestId))

/-- `list_reservations_in_txn`: the table iterates in ticket order. -/
def listReservations (s : Tables) : List ChunkReservation := s.reservations.rows

/-- The chunks that a reservation protects. -/
def reservedChunks (s : Tables) : List ChunkId := s.listReservations.flatMap (·.chunks)

/-- The manifests no inode refers to. -/
def unreferencedManifests (s : Tables) : List ManifestId :=
  (s.manifests.toList.map Prod.fst).filter (· ∉ s.activeManifests)

/-- The Local chunks of the manifests some inode refers to. -/
def liveManifestChunks (s : Tables) : List ChunkId :=
  (s.manifests.toList.filter (·.1 ∈ s.activeManifests)).flatMap (·.2.localChunks)

/-- Drop manifests. -/
def removeManifests (s : Tables) (ids : List ManifestId) : Tables :=
  { s with manifests := Table.eraseAll s.manifests ids }

/-- Store a tombstone. -/
def putTombstone (s : Tables) (t : GcTombstone) : Tables :=
  { s with tombstones := s.tombstones.put t }

end Tables

/-! ## Reservations -/

/-- `reserve_chunks_in_txn`. -/
def reserveChunksInTxn (ticket : WriteTicketId) (inode : InodeId) (expectedGeneration : Generation)
    (chunks : List ChunkId) (expiresAtUnixMs : Nat) : MetaTxn Unit := do
  let current ← getInodeRaw inode
  checkGeneration current expectedGeneration
  let chunks := Table.ordSet chunks
  let fenced ← Txn.reads fun s => chunks.any (fun chunk => (s.tombstones.get? chunk).isSome)
  Txn.failIf (fenced = true) .busy
  let reservation : ChunkReservation :=
    ⟨ticket, inode, expectedGeneration, chunks, expiresAtUnixMs⟩
  let existing ← Txn.reads (·.reservations.get? ticket)
  match existing with
  | some existing => Txn.failIf (existing ≠ reservation) .alreadyExists
  | none => Txn.modify fun s => { s with reservations := s.reservations.put reservation }

/-- `abort_reservation_in_txn`. -/
def abortReservationInTxn (ticket : WriteTicketId) : MetaTxn Unit :=
  Txn.modify (·.dropReservations [ticket])

/-- Earlier deadline first, then lower ticket. -/
def expiresBefore (a b : ChunkReservation) : Bool :=
  a.expiresAtUnixMs < b.expiresAtUnixMs ||
    (a.expiresAtUnixMs = b.expiresAtUnixMs && a.ticket ≤ b.ticket)

/-- The reservations one expiry pass drops. -/
def expiredReservations (s : Tables) (cutoffUnixMs maxToExpire : Nat) : List ChunkReservation :=
  ((s.listReservations.filter (·.expiresAtUnixMs ≤ cutoffUnixMs)).insertionSort
    (fun a b => expiresBefore a b = true)).take maxToExpire

/-- `expire_reservations_in_txn`. -/
def expireReservationsInTxn (cutoffUnixMs maxToExpire : Nat) : MetaTxn Nat := do
  let expired ← Txn.reads (expiredReservations · cutoffUnixMs maxToExpire)
  Txn.modify (·.dropReservations (expired.map (·.ticket)))
  pure expired.length

/-- `commit_reserved_in_txn`. -/
def commitReservedInTxn (ticket : WriteTicketId) (expectedGeneration : Generation) (inode : Inode)
    (manifest : Manifest) : MetaTxn Inode := do
  let reservation ← Txn.query fun s =>
    match s.reservations.get? ticket with
    | some reservation => .ok reservation
    | none => .error .busy
  Txn.failIf (reservation.inode ≠ inode.id ∨
      reservation.expectedGeneration ≠ expectedGeneration)
    (.invalidArg "write reservation does not match inode generation")
  Txn.failIf (Table.ordSet manifest.localChunks ≠ reservation.chunks)
    (.invalidArg "manifest Local chunks do not match write reservation")
  let committed ← commitInodeManifestInTxn expectedGeneration inode manifest
  abortReservationInTxn ticket
  pure committed

/-! ## Tombstones -/

/-- The candidates a batch tombstones: those neither live nor reserved. -/
def tombstoneCandidates (s : Tables) (candidates : List ChunkId) : List ChunkId :=
  (Table.ordSet candidates).filter (· ∉ s.liveManifestChunks ++ s.reservedChunks)

/-- `tombstone_gc_batch_in_txn`. -/
def tombstoneGcBatchInTxn (candidates : List ChunkId) : MetaTxn GcBatch := do
  let tombstoned ← Txn.reads (tombstoneCandidates · candidates)
  let removed ← Txn.reads (·.unreferencedManifests)
  Txn.modify (·.removeManifests removed)
  Txn.modify fun s => tombstoned.foldl (fun s chunk => s.putTombstone (.fresh chunk)) s
  pure ⟨tombstoned, removed.length⟩

/-- The tombstone lookup of the three per-chunk loops. -/
def findTombstone (chunk : ChunkId) : MetaTxn GcTombstone :=
  Txn.query fun s =>
    match s.tombstones.get? chunk with
    | some tombstone => .ok tombstone
    | none => .error .notFound

/-- `finalize_tombstones_in_txn`. -/
def finalizeTombstonesInTxn (chunks : List ChunkId) : MetaTxn Unit :=
  Txn.forEach (fun chunk => do
    let tombstone ← findTombstone chunk
    Txn.failIf (tombstone.targetsInitialized = false ∨ tombstone.pendingTargets ≠ []) .busy
    Txn.modify fun s => { s with tombstones := s.tombstones.delete chunk }) chunks

/-- `initialize_gc_targets_in_txn`. -/
def initializeGcTargetsInTxn (chunks : List ChunkId) (targets : List WorkerTargetId) :
    MetaTxn Unit :=
  Txn.forEach (fun chunk => do
    let tombstone ← findTombstone chunk
    if tombstone.targetsInitialized = false then
      Txn.modify (·.putTombstone
        { tombstone with targetsInitialized := true, pendingTargets := Table.ordSet targets })
    else pure ()) chunks

/-- `acknowledge_gc_deletes_in_txn`. -/
def acknowledgeGcDeletesInTxn (deleted : List (ChunkId × WorkerTargetId)) : MetaTxn Unit :=
  Txn.forEach (fun (row : ChunkId × WorkerTargetId) => do
    let tombstone ← findTombstone row.1
    Txn.failIf (tombstone.targetsInitialized = false) .busy
    Txn.modify (·.putTombstone
      { tombstone with
        pendingTargets := tombstone.pendingTargets.filter (· ≠ row.2) })) deleted

/-! ## The stop-the-world lease -/

/-- The manifest loop of `gc_plan_in_txn`. -/
def collectLive (s : Tables) : List ManifestId → Except FluxError (List ChunkId)
  | [] => .ok []
  | id :: ids =>
    match s.manifests[id]? with
    | none => .error (.metaErr s!"active manifest {id} is missing")
    | some manifest =>
      match collectLive s ids with
      | .error e => .error e
      | .ok live => .ok (manifest.localChunks ++ live)

/-- `gc_plan_in_txn`. -/
def gcPlanInTxn (leaseId : GcLeaseId) : MetaTxn GcPlan := do
  let live ← Txn.query fun s => collectLive s s.activeManifests
  pure ⟨leaseId, Table.ordSet live, 0⟩

/-- `begin_gc_in_txn`. -/
def beginGcInTxn (leaseId : GcLeaseId) : MetaTxn GcPlan := do
  let lease ← Txn.reads (·.gcLease)
  match lease with
  | some current =>
    if current = leaseId then gcPlanInTxn leaseId else Txn.fail .busy
  | none => do
    Txn.modify fun s => { s with gcLease := some leaseId }
    let removed ← Txn.reads (·.unreferencedManifests)
    Txn.modify (·.removeManifests removed)
    let plan ← gcPlanInTxn leaseId
    pure { plan with removedManifests := removed.length }

/-- `finish_gc_in_txn`. -/
def finishGcInTxn (leaseId : GcLeaseId) : MetaTxn Unit := do
  let lease ← Txn.reads (·.gcLease)
  Txn.failIf (lease ≠ some leaseId) .busy
  Txn.modify fun s => { s with gcLease := none }

/-! ## Worker membership -/

/-- Whether a heartbeat changes where chunks may be placed. -/
def placementChanged (current registration : WorkerRegistration) : Prop :=
  current.endpoint ≠ registration.endpoint ∨ current.failureDomain ≠ registration.failureDomain ∨
    current.capacityBytes ≠ registration.capacityBytes ∨
    current.availableBytes ≠ registration.availableBytes

instance (current registration : WorkerRegistration) :
    Decidable (placementChanged current registration) :=
  inferInstanceAs (Decidable (_ ∨ _))

/-- `*current = registration.clone()` at the first worker of that id. -/
def replaceWorker (registration : WorkerRegistration) :
    List WorkerRegistration → List WorkerRegistration
  | [] => []
  | worker :: workers =>
    if worker.id = registration.id then registration :: workers
    else worker :: replaceWorker registration workers

/-- The membership after a registration that passed its checks. -/
def admitWorker (membership : WorkerMembership) (registration : WorkerRegistration) :
    WorkerMembership :=
  let byId (workers : List WorkerRegistration) :=
    workers.insertionSort (fun a b => a.id ≤ b.id)
  match membership.workers.find? (·.id = registration.id) with
  | some current =>
    { epoch := if placementChanged current registration then saturatingAdd membership.epoch 1
        else membership.epoch
      workers := byId (replaceWorker registration membership.workers) }
  | none =>
    { epoch := saturatingAdd membership.epoch 1
      workers := byId (membership.workers ++ [registration]) }

/-- A heartbeat must not shorten the worker's lease. -/
def checkDeadline (membership : WorkerMembership) (registration : WorkerRegistration) :
    MetaTxn Unit :=
  match membership.workers.find? (·.id = registration.id) with
  | some current =>
    Txn.failIf (registration.leaseDeadlineMs < current.leaseDeadlineMs)
      (.casFailed current.leaseDeadlineMs registration.leaseDeadlineMs)
  | none => pure ()

/-- `register_worker_in_txn`. -/
def registerWorkerInTxn (registration : WorkerRegistration) : MetaTxn WorkerMembership := do
  Txn.query fun _ => registration.validate
  let membership ← Txn.reads (·.workerMembership)
  Txn.failIf (membership.workers.any
      (fun worker => worker.id ≠ registration.id ∧ worker.endpoint = registration.endpoint) = true)
    (.invalidArg
      s!"worker endpoint {registration.endpoint} is already registered to another id")
  checkDeadline membership registration
  let admitted := admitWorker membership registration
  Txn.modify fun s => { s with workerMembership := admitted }
  pure admitted

end FluxFS
