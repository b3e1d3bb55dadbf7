import FluxFS.Lib.Disk
import FluxFS.Chunk.PackRefines

/-!
# Device — the pack store's file and index steps

`Pack` says what an operation of `pack.rs` does to the files and the index. Here
the same operations are sequences of single commands: create, append, sync,
unlink and the index commit, each of which can fail, with a crash possible
before and after each. Reads of records can fail as well. `perform_mirrors`:
without faults they do what `Pack` says.
-/

namespace FluxFS

open Std Kit

/-- The segment files and the heed environment. -/
structure PackDisk where
  files : Disk Nat UInt8
  index : Table ChunkId IndexEntry
  activeSegment : Option Nat
  nextSegment : Option Nat

/-- What the running process sees. -/
def PackDisk.store (d : PackDisk) : PackStore :=
  ⟨d.files.live, d.index, d.activeSegment, d.nextSegment⟩

/-- A store whose files are all on disk. -/
def PackDisk.durable (s : PackStore) : PackDisk :=
  ⟨.durable s.segments, s.index, s.activeSegment, s.nextSegment⟩

/-- `s` is what reopening can find after a crash in `d`; a commit is atomic and
durable. -/
structure PackDisk.Survives (d : PackDisk) (s : PackStore) : Prop where
  files : d.files.Survives s.segments
  index_eq : s.index = d.index
  active_eq : s.activeSegment = d.activeSegment
  next_eq : s.nextSegment = d.nextSegment

/-- An injected I/O error; a failed append has written so many bytes. -/
structure IoFault where
  written : Nat
  text : String
deriving DecidableEq, Repr

/-- A device that counts its commands and fails some of them. -/
abbrev PackBench := Bench PackDisk IoFault

/-- The operations of a store on such a device. -/
abbrev PackIo := Txn PackBench FluxError

namespace PackIo

open PackStore (recordMagic headerLen segmentLen findFree)

/-! ## Commands -/

/-- `FluxError::Io` of a fault. -/
def ioError (fault : IoFault) : FluxError := .io fault.text

/-- A command on the files that does nothing when it fails. -/
def onFiles (run : Disk Nat UInt8 → Disk Nat UInt8) : PackIo Unit :=
  Bench.command (fun d => { d with files := run d.files }) (fun _ d => d) ioError

/-- `File::create`. -/
def create (segment : Nat) : PackIo Unit := onFiles (Disk.create segment)

/-- `File::sync_all`. -/
def syncFile (segment : Nat) : PackIo Unit := onFiles (Disk.syncFile segment)

/-- `sync_all` of the directory. -/
def syncDir : PackIo Unit := onFiles Disk.syncDir

/-- `fs::remove_file`. -/
def unlink (segment : Nat) : PackIo Unit := onFiles (Disk.unlink segment)

/-- `write_all`. -/
def append (segment : Nat) (bytes : Bytes) : PackIo Unit :=
  Bench.command (fun d => { d with files := d.files.append segment bytes })
    (fun fault d => { d with files := d.files.append segment (bytes.take fault.written) }) ioError

/-- A heed transaction. -/
def commit (write : PackDisk → PackDisk) : PackIo Unit :=
  Bench.command write (fun _ d => d) ioError

/-- `read_u64_meta`. -/
def readU64Meta (key : String) (value : PackStore → Option Nat) : PackIo Nat :=
  Txn.query fun b =>
    match value b.device.store with
    | some v => .ok v
    | none => .error (.io s!"missing pack meta {key}")

section
variable (hash : Bytes → ChunkId)

/-- `read_record`. -/
def readRecord (entry : IndexEntry) : PackIo (Except FluxError Bytes) :=
  Bench.tryRead (fun d => PackStore.readRecord hash d.store entry) ioError

/-- `get_if_valid_unlocked`. -/
def getIfValidUnlocked (id : ChunkId) : PackIo (Option Bytes) := do
  let entry ← Txn.reads (·.device.store.index[id]?)
  match entry with
  | none => pure none
  | some entry => do
    let record ← readRecord hash entry
    match record with
    | .ok data => pure (if hash data = id then some data else none)
    | .error _ => pure none

/-! ## Put and delete -/

/-- The creation of a segment that `open` and a roll make. -/
def createIfMissing (segment : Nat) : PackIo Unit := do
  let missing ← Txn.reads fun b => decide (b.device.store.segments[segment]? = none)
  if missing then do
    create segment
    syncDir
  else pure ()

/-- `chooseSegment`, step by step. -/
def chooseSegment (roll active nextSeg : Nat) : PackIo (Nat × Nat) := do
  createIfMissing active
  let offset ← Txn.reads (·.device.store.segmentLen active)
  if offset ≥ roll then do
    create nextSeg
    syncDir
    pure (nextSeg, saturatingAdd nextSeg 1)
  else
    pure (active, nextSeg)

/-- The four writes of one record. -/
def writeRecord (segment : Nat) (id : ChunkId) (data : Bytes) : PackIo Unit := do
  append segment (toLeBytes 4 recordMagic)
  append segment (toLeBytes 4 data.length)
  append segment id.bytes
  append segment data

/-- `put_locked`. -/
def putLocked (roll : Nat) (data : Bytes) (id : ChunkId) : PackIo ChunkId := do
  let existing ← getIfValidUnlocked hash id
  if existing = some data then
    pure id
  else do
    let active ← readU64Meta "active_segment" (·.activeSegment)
    let nextSeg ← readU64Meta "next_segment" (·.nextSegment)
    let (active, nextSeg) ← chooseSegment roll active nextSeg
    let offset ← Txn.reads (·.device.store.segmentLen active)
    Txn.failIf (data.length > u32Max) (.invalidArg "chunk larger than u32::MAX")
    writeRecord active id data
    syncFile active
    syncDir
    commit fun d =>
      { d with
        index := d.index.insert id ⟨active, offset, data.length⟩
        activeSegment := some active
        nextSegment := some nextSeg }
    pure id

/-- `put`. -/
def put (roll : Nat) (data : Bytes) : PackIo ChunkId := putLocked hash roll data (hash data)

/-- `delete`. -/
def delete (id : ChunkId) : PackIo Unit := commit fun d => { d with index := d.index.erase id }

/-- The transaction of `open`. -/
def openStore : PackIo Unit := do
  let fresh ← Txn.reads fun b => decide (b.device.store.nextSegment = none)
  if fresh then commit fun d => { d with nextSegment := some 1, activeSegment := some 1 }
  else pure ()

/-! ## Compaction -/

/-- The loop of `list_chunks_unlocked`. -/
def listRows : List (ChunkId × IndexEntry) → PackIo (List ChunkId)
  | [] => pure []
  | row :: rows => do
    let record ← readRecord hash row.2
    let ids ← listRows rows
    match record with
    | .ok _ => pure (row.1 :: ids)
    | .error _ => pure ids

/-- `list_chunks_unlocked`. -/
def listChunksUnlocked : PackIo (List ChunkId) := do
  let rows ← Txn.reads (·.device.store.index.toList)
  listRows hash rows

/-- The copy loop of `compact`. -/
def copyLive (target : Nat) :
    List ChunkId → List (ChunkId × IndexEntry) → PackIo (List (ChunkId × IndexEntry))
  | [], newEntries => pure newEntries
  | id :: ids, newEntries => do
    let found ← getIfValidUnlocked hash id
    match found with
    | none => Txn.fail .notFound
    | some data => do
      let offset ← Txn.reads (·.device.store.segmentLen target)
      Txn.failIf (data.length > u32Max) (.invalidArg "chunk larger than u32::MAX")
      writeRecord target id data
      copyLive target ids (newEntries ++ [(id, ⟨target, offset, data.length⟩)])

/-- The index transaction of `compact`. -/
def replaceIndex (target nextSeg : Nat) (newEntries : List (ChunkId × IndexEntry)) : PackIo Unit :=
  commit fun d =>
    { d with
      index := Table.insertAll (Table.eraseAll d.index (d.index.toList.map Prod.fst)) newEntries
      activeSegment := some target
      nextSegment := some nextSeg }

/-- `compact` once its target segment is known. -/
def compactInto (target : Nat) (live : List ChunkId) : PackIo CompactReport := do
  create target
  syncDir
  let newEntries ← copyLive hash target live []
  syncFile target
  syncDir
  replaceIndex target (saturatingAdd target 1) newEntries
  let removed ← Txn.reads (PackStore.obsolete target ·.device.store)
  Txn.forEach (fun segment => Bench.ignore (unlink segment)) removed
  syncDir
  pure ⟨newEntries.length, removed.length⟩

/-- `compact`; `none` when the search for a target never ends. -/
def compact (b : PackBench) : Option (Except FluxError CompactReport × PackBench) :=
  match listChunksUnlocked hash b with
  | (.error e, b) => some (.error e, b)
  | (.ok live, b) =>
    match readU64Meta "next_segment" (·.nextSegment) b with
    | (.error e, b) => some (.error e, b)
    | (.ok nextSeg, b) =>
      (findFree b.device.store (b.device.store.segments.size + 1) nextSeg).map fun target =>
        compactInto hash target live b

end

/-! ## Whole operations -/

/-- One operation with what it answers; `none` when it never returns. -/
def perform (hash : Bytes → ChunkId) (roll : Nat) (b : PackBench) :
    PackOp → Option (PackOutcome × PackBench)
  | .put data =>
    let (r, b') := put hash roll data b
    some (r.map .stored, b')
  | .delete id =>
    let (r, b') := delete id b
    some (r.map (fun _ => .done), b')
  | .compact => (compact hash b).map fun (r, b') => (r.map .compacted, b')
  | .reopen =>
    let (r, b') := openStore b
    some (r.map (fun _ => .done), b')

/-- The states of the disk between the commands of an operation on a store that is
all on stable storage. A search that never ends has issued none. -/
def crashPoints (hash : Bytes → ChunkId) (roll : Nat) (s : PackStore) (op : PackOp) :
    List PackDisk :=
  match perform hash roll (.start (.durable s) fun _ => none) op with
  | some (_, b) => b.crashPoints
  | none => [.durable s]

/-! ## Without faults -/

section
variable {hash : Bytes → ChunkId} {roll : Nat}

theorem appendSegment_appendSegment (s : PackStore) (segment : Nat) (xs ys : Bytes) :
    (s.appendSegment segment xs).appendSegment segment ys = s.appendSegment segment (xs ++ ys) := by
  simp [PackStore.appendSegment, Table.insert_insert]

theorem syncDir_mirrors : Mirrors PackDisk.store syncDir (pure ()) :=
  .command_unseen fun _ => rfl

theorem syncFile_mirrors (segment : Nat) : Mirrors PackDisk.store (syncFile segment) (pure ()) :=
  .command_unseen fun _ => rfl

theorem create_mirrors (segment : Nat) :
    Mirrors PackDisk.store (create segment) (Txn.modify (PackStore.createSegment segment)) :=
  .command fun _ => rfl

theorem append_mirrors (segment : Nat) (bytes : Bytes) :
    Mirrors PackDisk.store (append segment bytes)
      (Txn.modify (PackStore.appendSegment segment bytes)) :=
  .command fun _ => rfl

theorem writeRecord_mirrors (segment : Nat) (id : ChunkId) (data : Bytes) :
    Mirrors PackDisk.store (writeRecord segment id data)
      (Txn.modify (PackStore.appendSegment segment (PackStore.record id data))) := by
  refine Mirrors.congr ((append_mirrors _ _).bind fun _ => (append_mirrors _ _).bind fun _ =>
    (append_mirrors _ _).bind fun _ => append_mirrors _ _) ?_
  funext s
  show (Except.ok (), _) = (Except.ok (), _)
  simp only [appendSegment_appendSegment, PackStore.record, List.append_assoc]

theorem readU64Meta_mirrors (key : String) (value : PackStore → Option Nat) :
    Mirrors PackDisk.store (readU64Meta key value) (PackStore.readU64Meta key value) :=
  .query fun _ => rfl

theorem readRecord_mirrors (entry : IndexEntry) :
    Mirrors PackDisk.store (readRecord hash entry)
      (Txn.reads (PackStore.readRecord hash · entry)) :=
  .tryRead _ fun _ => rfl

theorem getIfValidUnlocked_mirrors (hash : Bytes → ChunkId) (id : ChunkId) :
    Mirrors PackDisk.store (getIfValidUnlocked hash id)
      (Txn.reads (PackStore.getIfValidUnlocked hash · id)) := by
  have hsteps : Mirrors PackDisk.store (getIfValidUnlocked hash id) (do
      let entry ← Txn.reads (fun s : PackStore => s.index[id]?)
      match entry with
      | none => pure none
      | some entry => do
        let record ← Txn.reads (PackStore.readRecord hash · entry)
        match record with
        | .ok data => pure (if hash data = id then some data else none)
        | .error _ => pure none) := by
    refine Mirrors.bind (.reads ?_) fun entry => ?_
    · exact fun _ => rfl
    cases entry with
    | none => exact .pure _
    | some entry =>
      refine (readRecord_mirrors entry).bind fun record => ?_
      cases record with
      | ok data => exact .pure _
      | error e => exact .pure _
  refine hsteps.congr ?_
  funext s
  simp only [Txn.reads_bind_run, Txn.reads_run, PackStore.getIfValidUnlocked]
  cases s.index[id]? with
  | none => rfl
  | some entry =>
    simp only [Txn.reads_bind_run]
    cases PackStore.readRecord hash s entry with
    | ok data => rfl
    | error e => rfl

theorem createIfMissing_mirrors (segment : Nat) :
    Mirrors PackDisk.store (createIfMissing segment)
      (Txn.modify (PackStore.createIfMissing segment)) := by
  intro b hb
  rw [createIfMissing, Txn.reads_bind_run]
  by_cases hmissing : b.device.store.segments[segment]? = none
  · rw [if_pos (decide_eq_true hmissing)]
    simp only [Txn.modify_run, PackStore.createIfMissing, if_pos hmissing]
    exact ((create_mirrors segment).bind fun _ => syncDir_mirrors) b hb
  · rw [if_neg (by simpa using hmissing)]
    simp only [Txn.modify_run, PackStore.createIfMissing, if_neg hmissing]
    exact ⟨rfl, rfl, hb⟩

theorem chooseSegment_mirrors (active nextSeg : Nat) :
    Mirrors PackDisk.store (chooseSegment roll active nextSeg)
      (PackStore.chooseSegment roll active nextSeg) := by
  refine (createIfMissing_mirrors active).bind fun _ => Mirrors.bind (.reads ?_) fun offset => ?_
  · exact fun _ => rfl
  · split
    · exact (create_mirrors nextSeg).bind fun _ => syncDir_mirrors.bind fun _ => .pure _
    · exact .pure _

theorem put_mirrors (hash : Bytes → ChunkId) (roll : Nat) (data : Bytes) :
    Mirrors PackDisk.store (put hash roll data) (PackStore.put hash roll data) := by
  refine (getIfValidUnlocked_mirrors hash _).bind fun existing => ?_
  split
  · exact .pure _
  · refine (readU64Meta_mirrors _ _).bind fun active => ?_
    refine (readU64Meta_mirrors _ _).bind fun nextSeg => ?_
    refine (chooseSegment_mirrors active nextSeg).bind fun chosen => ?_
    obtain ⟨active, nextSeg⟩ := chosen
    refine Mirrors.bind (.reads ?_) fun offset => (Mirrors.failIf _ _).bind fun _ => ?_
    · exact fun _ => rfl
    refine (writeRecord_mirrors active (hash data) data).bind fun _ => ?_
    refine (syncFile_mirrors active).unseen_bind (syncDir_mirrors.unseen_bind ?_)
    exact Mirrors.bind (.command fun _ => rfl) fun _ => .pure _

theorem delete_mirrors (id : ChunkId) :
    Mirrors PackDisk.store (delete id) (PackStore.delete id) :=
  .command fun _ => rfl

theorem openStore_mirrors : Mirrors PackDisk.store openStore (Txn.modify PackStore.openStore) := by
  intro b hb
  rw [openStore, Txn.reads_bind_run]
  by_cases hfresh : b.device.store.nextSegment = none
  · rw [if_pos (decide_eq_true hfresh)]
    simp only [Txn.modify_run, PackStore.openStore, if_pos hfresh]
    have hcommit : Mirrors PackDisk.store
        (commit fun d => { d with nextSegment := some 1, activeSegment := some 1 })
        (Txn.modify fun s => { s with nextSegment := some 1, activeSegment := some 1 }) :=
      .command fun _ => rfl
    exact hcommit b hb
  · rw [if_neg (by simpa using hfresh)]
    simp only [Txn.modify_run, PackStore.openStore, if_neg hfresh]
    exact ⟨rfl, rfl, hb⟩

theorem listRows_mirrors (rows : List (ChunkId × IndexEntry)) :
    Mirrors PackDisk.store (listRows hash rows) (Txn.reads fun s =>
      rows.filterMap fun row =>
        match PackStore.readRecord hash s row.2 with
        | .ok _ => some row.1
        | .error _ => none) := by
  induction rows with
  | nil => exact .pure _
  | cons row rows ih =>
    have hsteps : Mirrors PackDisk.store (listRows hash (row :: rows)) (do
        let record ← Txn.reads (PackStore.readRecord hash · row.2)
        let ids ← Txn.reads fun s => rows.filterMap fun row =>
          match PackStore.readRecord hash s row.2 with
          | .ok _ => some row.1
          | .error _ => none
        match record with
        | .ok _ => pure (row.1 :: ids)
        | .error _ => pure ids) := by
      refine (readRecord_mirrors row.2).bind fun record => ih.bind fun ids => ?_
      cases record with
      | ok data => exact .pure _
      | error e => exact .pure _
    refine hsteps.congr ?_
    funext s
    simp only [Txn.reads_bind_run, Txn.reads_run, List.filterMap_cons]
    cases PackStore.readRecord hash s row.2 with
    | ok data => rfl
    | error e => rfl

theorem listChunksUnlocked_mirrors (hash : Bytes → ChunkId) :
    Mirrors PackDisk.store (listChunksUnlocked hash)
      (Txn.reads (PackStore.listChunksUnlocked hash)) := by
  have hsteps : Mirrors PackDisk.store (listChunksUnlocked hash) (do
      let rows ← Txn.reads fun s : PackStore => s.index.toList
      Txn.reads fun s => rows.filterMap fun row =>
        match PackStore.readRecord hash s row.2 with
        | .ok _ => some row.1
        | .error _ => none) := by
    refine Mirrors.bind (.reads ?_) fun rows => listRows_mirrors rows
    exact fun _ => rfl
  exact hsteps

theorem copyLive_mirrors (target : Nat) (ids : List ChunkId)
    (newEntries : List (ChunkId × IndexEntry)) :
    Mirrors PackDisk.store (copyLive hash target ids newEntries)
      (PackStore.copyLive hash target ids newEntries) := by
  induction ids generalizing newEntries with
  | nil => exact .pure _
  | cons id ids ih =>
    have hsteps : Mirrors PackDisk.store (copyLive hash target (id :: ids) newEntries) (do
        let found ← Txn.reads (PackStore.getIfValidUnlocked hash · id)
        match found with
        | none => Txn.fail .notFound
        | some data => do
          let offset ← Txn.reads (PackStore.segmentLen · target)
          Txn.failIf (data.length > u32Max) (.invalidArg "chunk larger than u32::MAX")
          Txn.modify (PackStore.appendSegment target (PackStore.record id data))
          PackStore.copyLive hash target ids
            (newEntries ++ [(id, ⟨target, offset, data.length⟩)])) := by
      refine (getIfValidUnlocked_mirrors hash id).bind fun found => ?_
      cases found with
      | none => exact fun b hb => ⟨rfl, rfl, hb⟩
      | some data =>
        refine Mirrors.bind (.reads ?_) fun offset => (Mirrors.failIf _ _).bind fun _ => ?_
        · exact fun _ => rfl
        · exact (writeRecord_mirrors target id data).bind fun _ => ih _
    refine hsteps.congr ?_
    funext s
    rw [PackStore.copyLive, Txn.query_bind_run, Txn.reads_bind_run, PackStore.get]
    cases PackStore.getIfValidUnlocked hash s id with
    | none => rfl
    | some data => rfl

/-- Unlinking one by one. -/
theorem unlinkAll_mirrors (removed : List Nat) :
    Mirrors PackDisk.store (Txn.forEach (fun segment => Bench.ignore (unlink segment)) removed)
      (Txn.modify fun s => { s with segments := Table.eraseAll s.segments removed }) := by
  induction removed with
  | nil => exact .pure _
  | cons segment removed ih =>
    have hunlink : Mirrors PackDisk.store (unlink segment)
        (Txn.modify fun s => { s with segments := s.segments.erase segment }) :=
      .command fun _ => rfl
    exact hunlink.ignore.bind fun _ => ih

/-- The listing and the rest of `compact`. -/
theorem compactInto_mirrors (hash : Bytes → ChunkId) (target : Nat) :
    Mirrors PackDisk.store (listChunksUnlocked hash >>= compactInto hash target)
      (PackStore.compactInto hash target) := by
  refine (listChunksUnlocked_mirrors hash).bind fun live => ?_
  refine (create_mirrors target).bind fun _ => ?_
  refine syncDir_mirrors.unseen_bind ?_
  refine (copyLive_mirrors target live []).bind fun newEntries => ?_
  refine (syncFile_mirrors target).unseen_bind (syncDir_mirrors.unseen_bind ?_)
  refine Mirrors.bind (.command ?_) fun _ => Mirrors.bind (.reads ?_) fun removed => ?_
  · exact fun _ => rfl
  · exact fun _ => rfl
  · exact (unlinkAll_mirrors removed).bind fun _ => syncDir_mirrors.unseen_bind (.pure _)

theorem compact_mirrors (hash : Bytes → ChunkId) (b : PackBench) (hb : b.Quiet) :
    (compact hash b).map (fun o => (o.1, o.2.device.store)) =
      PackStore.compact hash b.device.store := by
  obtain ⟨hlive, hstore, hquiet⟩ := listChunksUnlocked_mirrors hash b hb
  rcases hlist : listChunksUnlocked hash b with ⟨r, b'⟩
  rw [hlist] at hlive hstore hquiet
  simp only [Txn.reads_run] at hlive hstore
  subst hlive
  simp only [compact, PackStore.compact, hlist, readU64Meta, PackStore.readU64Meta, Txn.query_run,
    hstore]
  cases b.device.store.nextSegment with
  | none => simp [hstore]
  | some nextSeg =>
    simp only [Option.map_map, hstore]
    congr 1
    funext target
    obtain ⟨hresult, hleft, -⟩ := compactInto_mirrors hash target b hb
    rw [Txn.bind_of_ok hlist] at hresult hleft
    exact Prod.ext hresult hleft

/-- Without faults an operation answers what `Pack` says and leaves the store that
`Pack` says. -/
theorem perform_mirrors (hash : Bytes → ChunkId) (roll : Nat) (b : PackBench) (hb : b.Quiet)
    (op : PackOp) :
    (perform hash roll b op).map (fun o => (o.1, o.2.device.store)) =
      PackStore.perform hash roll b.device.store op := by
  cases op with
  | put data =>
    obtain ⟨hresult, hstore, -⟩ := put_mirrors hash roll data b hb
    simp only [perform, PackStore.perform, Option.map_some, hresult, hstore]
  | delete id =>
    obtain ⟨hresult, hstore, -⟩ := delete_mirrors id b hb
    simp only [perform, PackStore.perform, Option.map_some, hresult, hstore]
  | reopen =>
    obtain ⟨hresult, hstore, -⟩ := openStore_mirrors b hb
    simp only [perform, PackStore.perform, Option.map_some, hresult, hstore]
    rfl
  | compact =>
    simp only [perform, PackStore.perform, ← compact_mirrors hash b hb, Option.map_map]
    rfl

end

end PackIo
end FluxFS
