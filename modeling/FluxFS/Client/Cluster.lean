import FluxFS.Client.Images
import FluxFS.Client.Rpc

/-!
# Cluster — writers, collectors and workers around one metadata store

The chunk bytes live on workers, the references to them in the metadata store,
and clients go between the two. A writer reserves the chunks of its next
manifest, stores the new ones and commits; a pass of the concurrent collector
tombstones chunks, deletes them from every target and drops the tombstones; a
sweep of the stop-the-world collector deletes what is not live under a lease.
Each is a sequence of separate calls. `clusterStep` interleaves any number of
them, one call at a time.
-/

namespace FluxFS

open Std Kit

/-! ## Workers -/

/-- The chunks each worker holds. -/
abbrev Workers := Table WorkerTargetId (Table ChunkId Bytes)

namespace Workers

/-- The bytes a target holds for a chunk. -/
def held (ws : Workers) (target : WorkerTargetId) (c : ChunkId) : Option Bytes :=
  (ws[target]?).bind (·[c]?)

/-- One worker's part of `ChunkStore::put`. -/
def store (ws : Workers) (c : ChunkId) (data : Bytes) (target : WorkerTargetId) : Workers :=
  ws.insert target (((ws[target]?).getD ∅).insert c data)

/-- `ChunkStore::delete_from_target`. -/
def deleteFromTarget (ws : Workers) (c : ChunkId) (target : WorkerTargetId) : Workers :=
  ws.insert target (((ws[target]?).getD ∅).erase c)

/-- Some worker lists the chunk. -/
def lists (ws : Workers) (c : ChunkId) : Bool := ws.toList.any (fun row => (row.2[c]?).isSome)

variable {ws : Workers} {c d : ChunkId} {target other : WorkerTargetId} {data : Bytes}

theorem held_store : (ws.store c data target).held other d =
    if target = other ∧ c = d then some data else ws.held other d := by
  rw [held, store, Table.get_insert]
  by_cases ht : target = other
  · subst ht
    rw [if_pos rfl, Option.bind_some, Table.get_insert, held]
    by_cases hc : c = d
    · simp [hc]
    · cases ws[target]? <;> simp [hc]
  · simp [ht, held]

theorem held_deleteFromTarget : (ws.deleteFromTarget c target).held other d =
    if target = other ∧ c = d then none else ws.held other d := by
  rw [held, deleteFromTarget, Table.get_insert]
  by_cases ht : target = other
  · subst ht
    rw [if_pos rfl, Option.bind_some, Table.get_erase, held]
    by_cases hc : c = d
    · simp [hc]
    · cases ws[target]? <;> simp [hc]
  · simp [ht, held]

end Workers

/-! ## Writers -/

/-- How a party goes on after a call. -/
def onReply {α β : Type} (result : Except FluxError α) (next : α → β) (failed : β) : β :=
  match result with
  | .ok a => next a
  | .error _ => failed

/-- A write on its way: `commit_staged_manifest` after its reservation. -/
structure WriteJob where
  ticket : WriteTicketId
  /-- The record the write was computed from. -/
  basis : Inode
  change : DataChange
  manifest : Manifest
deriving DecidableEq, Repr

/-- The request that ends the write. -/
def WriteJob.commitOp (job : WriteJob) : MetaOp :=
  .commitInodeManifestReserved job.ticket job.basis.generation (job.change.image job.basis)
    job.manifest

/-- Where a writer is in its call. -/
inductive Writer
  | idle
  /-- `get_inode` has answered. -/
  | opened (basis : Inode)
  /-- `get_manifest` has answered. -/
  | loaded (basis : Inode) (old : Manifest)
  /-- The chunks are reserved and `staged` is still to be put; `stored` says that
  some worker has the first of it already. -/
  | putting (job : WriteJob) (staged : List (ChunkId × Bytes)) (stored : Bool)
  /-- The write has failed and its reservation is to be given back. -/
  | aborting (ticket : WriteTicketId)
deriving DecidableEq, Repr

/-- A step of a writer. -/
inductive WriterAction
  | getInode (ino : InodeId)
  | getManifest
  | reserve (ticket : WriteTicketId) (change : DataChange) (manifest : Manifest)
      (staged : List (ChunkId × Bytes)) (deadline : Nat) (rpc : Rpc)
  /-- A put reaches one more worker. -/
  | store (target : WorkerTargetId)
  /-- The put returns, with or without an error. -/
  | putDone
  | putFailed
  | commit (rpc : Rpc)
  | abort (rpc : Rpc)
  /-- The client gives up or crashes. -/
  | stop

/-- The manifests `write_chunked` and `truncate_locked` build from `old`: a Local
extent is one of `old` or holds staged bytes of its length. -/
def composed (old manifest : Manifest) (staged : List (ChunkId × Bytes)) : Bool :=
  manifest.extents.extents.all fun e =>
    match e with
    | .local _ len chunk =>
      e ∈ old.extents.extents || staged.any (fun row => row.1 = chunk ∧ row.2.length = len)
    | .ufsRange .. => true

/-- One call of `write_at` or `setattr`, from `get_inode` to the end of
`commit_staged_manifest`. -/
def writerStep (hash : Bytes → ChunkId) (s : Tables) (ws : Workers) :
    Writer → WriterAction → Option (Tables × Workers × Writer)
  | .idle, .getInode ino =>
    match s.inodes.get? ino with
    | some basis => some (s, ws, .opened basis)
    | none => some (s, ws, .idle)
  | .opened basis, .getManifest =>
    match basis.manifestId with
    | none => some (s, ws, .loaded basis (.empty basis.id basis.headGen))
    | some mid =>
      match s.manifests[mid]? with
      | some old => some (s, ws, .loaded basis old)
      | none => some (s, ws, .idle)
  | .loaded basis old, .reserve ticket change manifest staged deadline rpc =>
    if rpc.isFresh s ∧ composed old manifest staged = true then
      let reply := rpc.call
        (.reserveChunks ticket basis.id basis.generation manifest.localChunks deadline) mapEmpty s
      some (reply.2, ws,
        onReply reply.1 (fun _ => .putting ⟨ticket, basis, change, manifest⟩ staged false) .idle)
    else none
  | .putting job ((expected, data) :: staged) _, .store target =>
    some (s, ws.store (hash data) data target, .putting job ((expected, data) :: staged) true)
  | .putting job ((expected, data) :: staged) true, .putDone =>
    some (s, ws, if hash data = expected then .putting job staged false else .aborting job.ticket)
  | .putting job (_ :: _) _, .putFailed => some (s, ws, .aborting job.ticket)
  | .putting job [] _, .commit rpc =>
    if rpc.isFresh s then
      let reply := rpc.call job.commitOp mapInode s
      some (reply.2, ws, onReply reply.1 (fun _ => .idle) (.aborting job.ticket))
    else none
  | .aborting ticket, .abort rpc =>
    if rpc.isFresh s then
      some ((rpc.call (.abortChunkReservation ticket) mapEmpty s).2, ws, .idle)
    else none
  | _, .stop => some (s, ws, .idle)
  | _, _ => none

/-! ## Passes of the concurrent collector -/

/-- Where a `run_concurrent_gc_pass` stands. -/
inductive Pass
  | idle
  /-- Reservations are expired, tombstones not yet listed. -/
  | expired (batchSize : Nat)
  /-- There were no tombstones. -/
  | scanning (batchSize : Nat)
  | paged (page : List ChunkId)
  /-- The batch has tombstoned these chunks. -/
  | tombstoned (chunks : List ChunkId)
  /-- `reclaim_tombstones` has been called. -/
  | listed (tombstones : List GcTombstone)
  | deleting (chunks : List ChunkId) (todo acknowledged : List (ChunkId × WorkerTargetId))
      (failed : List ChunkId)
  | finalizing (completed : List ChunkId)
deriving DecidableEq, Repr

/-- A step of a concurrent pass. -/
inductive PassAction
  | start (batchSize cutoffUnixMs : Nat) (rpc : Rpc)
  | list
  | page (page : List ChunkId)
  | tombstone (rpc : Rpc)
  /-- `gc_delete_targets` has answered `targets`. -/
  | initTargets (targets : List WorkerTargetId) (rpc : Rpc)
  | delete (delivery : Delivery)
  | acknowledge (rpc : Rpc)
  | finalize (rpc : Rpc)
  /-- A read fails, or the client crashes. -/
  | stop

/-- A request that is only sent when there is something to send. -/
def callUnless (skip : Bool) (rpc : Rpc) (op : MetaOp) (s : Tables) :
    Except FluxError Unit × Tables :=
  if skip then (.ok (), s) else rpc.call op mapEmpty s

/-- The deletes `reclaim_tombstones` issues, in order. -/
def pendingDeletes (tombstones : List GcTombstone) (targets : List WorkerTargetId) :
    List (ChunkId × WorkerTargetId) :=
  tombstones.flatMap fun tombstone =>
    (if tombstone.targetsInitialized then tombstone.pendingTargets else targets).map
      (tombstone.chunk, ·)

/-- The tombstones without targets yet. -/
def uninitialized (tombstones : List GcTombstone) : List ChunkId :=
  (tombstones.filter (·.targetsInitialized = false)).map (·.chunk)

/-- The chunks none of whose deletes failed. -/
def completedChunks (chunks failed : List ChunkId) : List ChunkId := chunks.filter (· ∉ failed)

/-- `FluxClient::run_concurrent_gc_pass` and `reclaim_tombstones`. -/
def passStep (s : Tables) (ws : Workers) : Pass → PassAction → Option (Tables × Workers × Pass)
  | .idle, .start batchSize cutoffUnixMs rpc =>
    if batchSize = 0 then some (s, ws, .idle)
    else
      let reply := rpc.call (.expireChunkReservations cutoffUnixMs batchSize) mapEmpty s
      some (reply.2, ws, onReply reply.1 (fun _ => .expired batchSize) .idle)
  | .expired batchSize, .list =>
    if s.tombstones.rows = [] then some (s, ws, .scanning batchSize)
    else some (s, ws, .listed (s.tombstones.rows.take batchSize))
  | .scanning batchSize, .page page =>
    if page.length ≤ batchSize ∧ ∀ c ∈ page, ws.lists c = true then some (s, ws, .paged page)
    else none
  | .paged page, .tombstone rpc =>
    if rpc.isFresh s then
      let reply := rpc.call (.tombstoneGcBatch page) mapGcBatch s
      some (reply.2, ws, onReply reply.1 (fun batch => .tombstoned batch.tombstonedChunks) .idle)
    else none
  | .tombstoned chunks, .list =>
    some (s, ws, .listed (s.tombstones.rows.filter (·.chunk ∈ chunks)))
  | .listed tombstones, .initTargets targets rpc =>
    let reply := callUnless (uninitialized tombstones).isEmpty rpc
      (.initializeGcDeleteTargets (uninitialized tombstones) targets) s
    some (reply.2, ws, onReply reply.1
      (fun _ => .deleting (tombstones.map (·.chunk)) (pendingDeletes tombstones targets) [] [])
      .idle)
  | .deleting chunks ((c, target) :: todo) acknowledged failed, .delete delivery =>
    match delivery with
    | .answered => some (s, ws.deleteFromTarget c target,
        .deleting chunks todo (acknowledged ++ [(c, target)]) failed)
    | .notApplied _ => some (s, ws, .deleting chunks todo acknowledged (c :: failed))
    | .replyLost _ => some (s, ws.deleteFromTarget c target,
        .deleting chunks todo acknowledged (c :: failed))
  | .deleting chunks [] acknowledged failed, .acknowledge rpc =>
    let reply := callUnless acknowledged.isEmpty rpc (.acknowledgeGcDeletes acknowledged) s
    some (reply.2, ws, onReply reply.1 (fun _ => .finalizing (completedChunks chunks failed))
      .idle)
  | .finalizing completed, .finalize rpc =>
    if rpc.isFresh s then
      some ((callUnless completed.isEmpty rpc (.finalizeGcTombstones completed) s).2, ws, .idle)
    else none
  | _, .stop => some (s, ws, .idle)
  | _, _ => none

/-! ## Sweeps of the stop-the-world collector -/

/-- `current_gc_plan`. -/
def currentGcPlan (s : Tables) : Except FluxError (Option GcPlan) :=
  match s.gcLease with
  | none => .ok none
  | some lease => ((gcPlanInTxn lease s).1).map some

/-- Where an `execute_gc_plan` or a `release_interrupted_gc_lease` stands. -/
inductive Sweep
  | idle
  | planned (plan : GcPlan)
  /-- The chunks still to delete, the first of them being deleted. -/
  | sweeping (plan : GcPlan) (todo : List ChunkId)
  | releasing (lease : GcLeaseId)
deriving DecidableEq, Repr

/-- A step of a stop-the-world sweep. -/
inductive SweepAction
  /-- `begin_gc` under a new lease id. -/
  | begin (lease : GcLeaseId) (rpc : Rpc)
  /-- `resume_orphan_gc` finds a plan. -/
  | resume
  | list (chunks : List ChunkId)
  | delete (target : WorkerTargetId) (delivery : Delivery)
  /-- The chunk is deleted from every target. -/
  | next
  | finish (rpc : Rpc)
  /-- `release_interrupted_gc_lease` finds a plan. -/
  | observe
  | release (rpc : Rpc)
  | stop

/-- One step of a sweep. -/
def sweepStep (s : Tables) (ws : Workers) : Sweep → SweepAction → Option (Tables × Workers × Sweep)
  | .idle, .begin lease rpc =>
    if rpc.isFresh s then
      let reply := rpc.call (.beginGc lease) mapGcPlan s
      some (reply.2, ws, onReply reply.1 .planned .idle)
    else none
  | .idle, .resume =>
    match currentGcPlan s with
    | .ok (some plan) => some (s, ws, .planned plan)
    | _ => some (s, ws, .idle)
  | .planned plan, .list chunks =>
    some (s, ws, .sweeping plan (chunks.filter (· ∉ plan.liveChunks)))
  | .sweeping plan (c :: todo), .delete target delivery =>
    match delivery with
    | .answered => some (s, ws.deleteFromTarget c target, .sweeping plan (c :: todo))
    | .notApplied _ => some (s, ws, .idle)
    | .replyLost _ => some (s, ws.deleteFromTarget c target, .idle)
  | .sweeping plan (_ :: todo), .next => some (s, ws, .sweeping plan todo)
  | .sweeping plan [], .finish rpc =>
    if rpc.isFresh s then some ((rpc.call (.finishGc plan.leaseId) mapEmpty s).2, ws, .idle)
    else none
  | .idle, .observe =>
    match currentGcPlan s with
    | .ok (some plan) => some (s, ws, .releasing plan.leaseId)
    | _ => some (s, ws, .idle)
  | .releasing lease, .release rpc =>
    if rpc.isFresh s then some ((rpc.call (.finishGc lease) mapEmpty s).2, ws, .idle)
    else none
  | _, .stop => some (s, ws, .idle)
  | _, _ => none

/-! ## The cluster -/

/-- The metadata, the workers and the clients in their calls. -/
structure Cluster where
  tables : Tables
  workers : Workers
  writers : Table Nat Writer
  passes : Table Nat Pass
  sweeps : Table Nat Sweep
  /-- The random tickets and lease ids given out so far. -/
  tickets : List WriteTicketId
  leases : List GcLeaseId
  /-- The chunks a sweep has deleted from some target since they were last put. -/
  swept : List ChunkId

namespace Cluster

/-- A new store without clients. -/
def fresh (now : Int) : Cluster := ⟨Tables.fresh now, ∅, ∅, ∅, ∅, [], [], []⟩

/-- A writer; one that has not started is idle. -/
def writer (st : Cluster) (w : Nat) : Writer := (st.writers[w]?).getD .idle

/-- A pass; one that has not started is idle. -/
def pass (st : Cluster) (p : Nat) : Pass := (st.passes[p]?).getD .idle

/-- A sweep; one that has not started is idle. -/
def sweep (st : Cluster) (q : Nat) : Sweep := (st.sweeps[q]?).getD .idle

end Cluster

/-- A step of anyone. -/
inductive ClusterAction
  | writer (w : Nat) (action : WriterAction)
  | pass (p : Nat) (action : PassAction)
  | sweep (q : Nat) (action : SweepAction)
  /-- Any other request of a client. -/
  | request (r : MetaRequest)
  /-- A worker's copy of a chunk is stored on another worker. -/
  | repair (c : ChunkId) (source target : WorkerTargetId)

/-- `WriteTicketId::random` gives a ticket out that was never given out before. -/
def WriterAction.ticket? : WriterAction → Option WriteTicketId
  | .reserve ticket .. => some ticket
  | _ => none

/-- The lease a sweep asks for. -/
def SweepAction.lease? : SweepAction → Option GcLeaseId
  | .begin lease _ => some lease
  | _ => none

/-- The chunk a step of a writer stores. -/
def Writer.stores (hash : Bytes → ChunkId) : Writer → WriterAction → Option ChunkId
  | .putting _ ((_, data) :: _) _, .store _ => some (hash data)
  | _, _ => none

/-- The chunk a step of a sweep deletes. -/
def Sweep.deletes : Sweep → SweepAction → Option ChunkId
  | .sweeping _ (c :: _), .delete _ delivery =>
    match delivery with
    | .notApplied _ => none
    | _ => some c
  | _, _ => none

/-- A request that is no part of the three protocols: clients send no raw
`PutInode` and no import with Local extents, and only writers and collectors send
the requests of the write and collection paths. -/
def MetaOp.isOther : MetaOp → Bool
  | .putInode _ | .reserveChunks .. | .commitInodeManifest .. | .commitInodeManifestReserved ..
  | .tombstoneGcBatch _ | .finalizeGcTombstones _ | .beginGc _ | .finishGc _ => false
  | .importExternal _ _ _ (some manifest) _ => !manifestHasLocal manifest
  | _ => true

/-- One call of one party. -/
def clusterStep (hash : Bytes → ChunkId) (st : Cluster) : ClusterAction → Option Cluster
  | .writer w action =>
    if ∀ ticket ∈ action.ticket?, ticket ∉ st.tickets then
      (writerStep hash st.tables st.workers (st.writer w) action).map fun (t, ws, next) =>
        { st with
          tables := t
          workers := ws
          writers := st.writers.insert w next
          tickets := action.ticket?.toList ++ st.tickets
          swept := st.swept.filter (some · ≠ (st.writer w).stores hash action) }
    else none
  | .pass p action =>
    (passStep st.tables st.workers (st.pass p) action).map fun (t, ws, next) =>
      { st with tables := t, workers := ws, passes := st.passes.insert p next }
  | .sweep q action =>
    if ∀ lease ∈ action.lease?, lease ∉ st.leases then
      (sweepStep st.tables st.workers (st.sweep q) action).map fun (t, ws, next) =>
        { st with
          tables := t
          workers := ws
          sweeps := st.sweeps.insert q next
          leases := action.lease?.toList ++ st.leases
          swept := ((st.sweep q).deletes action).toList ++ st.swept }
    else none
  | .request r =>
    if r.req.op.isOther then
      some { st with tables := (applyRaftRequest r.now r.req st.tables).2 }
    else none
  | .repair c source target =>
    (st.workers.held source c).map fun data =>
      { st with workers := st.workers.store c data target }

/-! ## What a step does to the tables -/

/-- The request a writer sends in this step. -/
def Writer.sends : Writer → WriterAction → Option MetaRequest
  | .loaded basis _, .reserve ticket _ manifest _ deadline rpc =>
    some (rpc.request (.reserveChunks ticket basis.id basis.generation manifest.localChunks
      deadline))
  | .putting job [] _, .commit rpc => some (rpc.request job.commitOp)
  | .aborting ticket, .abort rpc => some (rpc.request (.abortChunkReservation ticket))
  | _, _ => none

/-- The request a pass sends in this step. -/
def Pass.sends : Pass → PassAction → Option MetaRequest
  | .idle, .start batchSize cutoffUnixMs rpc =>
    some (rpc.request (.expireChunkReservations cutoffUnixMs batchSize))
  | .paged page, .tombstone rpc => some (rpc.request (.tombstoneGcBatch page))
  | .listed tombstones, .initTargets targets rpc =>
    some (rpc.request (.initializeGcDeleteTargets (uninitialized tombstones) targets))
  | .deleting _ [] acknowledged _, .acknowledge rpc =>
    some (rpc.request (.acknowledgeGcDeletes acknowledged))
  | .finalizing completed, .finalize rpc => some (rpc.request (.finalizeGcTombstones completed))
  | _, _ => none

/-- The request a sweep sends in this step. -/
def Sweep.sends : Sweep → SweepAction → Option MetaRequest
  | .idle, .begin lease rpc => some (rpc.request (.beginGc lease))
  | .sweeping plan [], .finish rpc => some (rpc.request (.finishGc plan.leaseId))
  | .releasing lease, .release rpc => some (rpc.request (.finishGc lease))
  | _, _ => none

/-- The tables are as they were, or as the request makes them. -/
def Sent (s : Tables) (request : Option MetaRequest) (t : Tables) : Prop :=
  t = s ∨ ∃ r, request = some r ∧ t = (applyRaftRequest r.now r.req s).2

section
variable {hash : Bytes → ChunkId} {s t : Tables} {ws ws' : Workers}

theorem sent_call {α : Type} (rpc : Rpc) (op : MetaOp)
    (decode : MetaRaftResponse → Except FluxError α) (s : Tables) :
    Sent s (some (rpc.request op)) (rpc.call op decode s).2 := by
  rcases rpc.call_tables op decode s with heq | heq
  · exact .inl heq
  · exact .inr ⟨_, rfl, heq⟩

theorem sent_callUnless (skip : Bool) (rpc : Rpc) (op : MetaOp) (s : Tables) :
    Sent s (some (rpc.request op)) (callUnless skip rpc op s).2 := by
  unfold callUnless
  split
  · exact .inl rfl
  · exact sent_call ..

theorem writerStep_sent {w next : Writer} {a : WriterAction}
    (h : writerStep hash s ws w a = some (t, ws', next)) : Sent s (w.sends a) t := by
  unfold writerStep at h
  split at h
  · split at h
    all_goals
      cases h
      exact .inl rfl
  · split at h
    · cases h
      exact .inl rfl
    · split at h
      all_goals
        cases h
        exact .inl rfl
  · split at h
    · cases h
      exact sent_call ..
    · cases h
  · cases h
    exact .inl rfl
  · cases h
    exact .inl rfl
  · cases h
    exact .inl rfl
  · split at h
    · cases h
      exact sent_call ..
    · cases h
  · split at h
    · cases h
      exact sent_call ..
    · cases h
  · cases h
    exact .inl rfl
  · cases h

theorem passStep_sent {p next : Pass} {a : PassAction}
    (h : passStep s ws p a = some (t, ws', next)) : Sent s (p.sends a) t := by
  unfold passStep at h
  split at h
  · split at h
    · cases h
      exact .inl rfl
    · cases h
      exact sent_call ..
  · split at h
    all_goals
      cases h
      exact .inl rfl
  · split at h
    · cases h
      exact .inl rfl
    · cases h
  · split at h
    · cases h
      exact sent_call ..
    · cases h
  · cases h
    exact .inl rfl
  · cases h
    exact sent_callUnless ..
  · split at h
    all_goals
      cases h
      exact .inl rfl
  · cases h
    exact sent_callUnless ..
  · split at h
    · cases h
      exact sent_callUnless ..
    · cases h
  · cases h
    exact .inl rfl
  · cases h

theorem sweepStep_sent {q next : Sweep} {a : SweepAction}
    (h : sweepStep s ws q a = some (t, ws', next)) : Sent s (q.sends a) t := by
  unfold sweepStep at h
  split at h
  · split at h
    · cases h
      exact sent_call ..
    · cases h
  · split at h
    all_goals
      cases h
      exact .inl rfl
  · cases h
    exact .inl rfl
  · split at h
    all_goals
      cases h
      exact .inl rfl
  · cases h
    exact .inl rfl
  · split at h
    · cases h
      exact sent_call ..
    · cases h
  · split at h
    all_goals
      cases h
      exact .inl rfl
  · split at h
    · cases h
      exact sent_call ..
    · cases h
  · cases h
    exact .inl rfl
  · cases h

end

/-- The request sent in a step. -/
def ClusterAction.sends (st : Cluster) : ClusterAction → Option MetaRequest
  | .writer w action => (st.writer w).sends action
  | .pass p action => (st.pass p).sends action
  | .sweep q action => (st.sweep q).sends action
  | .request r => some r
  | .repair .. => none

section
variable {hash : Bytes → ChunkId} {st st' : Cluster} {a : ClusterAction}

theorem clusterStep_sent (h : clusterStep hash st a = some st') :
    Sent st.tables (a.sends st) st'.tables := by
  cases a with
  | writer w action =>
    obtain ⟨_, h⟩ := Option.ite_none_right_eq_some.mp h
    obtain ⟨⟨t, ws, next⟩, hstep, rfl⟩ := Option.map_eq_some_iff.mp h
    exact writerStep_sent hstep
  | pass p action =>
    obtain ⟨⟨t, ws, next⟩, hstep, rfl⟩ := Option.map_eq_some_iff.mp h
    exact passStep_sent hstep
  | sweep q action =>
    obtain ⟨_, h⟩ := Option.ite_none_right_eq_some.mp h
    obtain ⟨⟨t, ws, next⟩, hstep, rfl⟩ := Option.map_eq_some_iff.mp h
    exact sweepStep_sent hstep
  | request r =>
    obtain ⟨_, h⟩ := Option.ite_none_right_eq_some.mp h
    cases h
    exact .inr ⟨r, rfl, rfl⟩
  | repair c source target =>
    obtain ⟨data, _, rfl⟩ := Option.map_eq_some_iff.mp h
    exact .inl rfl

end

end FluxFS
