import FluxFS.Lib.Txn
import FluxFS.Lib.Run
import FluxFS.Types

/-!
# Pack — the append-only chunk segments and their location index

`crates/chunk/src/pack.rs`. A store is the segment files, the heed
location index and the two persisted segment counters. Files are byte
lists with create-truncate and append semantics; a segment path is its
number. blake3 is a parameter `hash`.

An operation that fails keeps what it already wrote to the segment files
(`Kit.Txn`), as the code does: only the index and the counters are
written under a transaction.
-/

namespace FluxFS

open Std Kit

/-- Where the index says a chunk's record starts. -/
structure IndexEntry where
  segment : Nat
  offset : Nat
  len : Nat
deriving DecidableEq, Repr

/-- What `PackStore` keeps on disk. -/
structure PackStore where
  /-- `segments/seg-NNNNNN.dat`, by segment number. -/
  segments : Table Nat Bytes
  index : Table ChunkId IndexEntry
  /-- `KEY_ACTIVE_SEG`. -/
  activeSegment : Option Nat
  /-- `KEY_NEXT_SEG`. -/
  nextSegment : Option Nat

/-- `CompactReport`. -/
structure CompactReport where
  liveChunks : Nat
  removedSegments : Nat
deriving DecidableEq, Repr

/-- An operation of the store. -/
abbrev PackTxn := Txn PackStore FluxError

namespace PackStore

/-- `RECORD_MAGIC`, "FXK1". -/
def recordMagic : Nat := 0x46584b31

/-- Magic, length and chunk id. -/
def headerLen : Nat := 4 + 4 + 32

/-- An empty directory. -/
def emptyDir : PackStore := ⟨∅, ∅, none, none⟩

/-- `PackStore::open`: a directory without counters gets both set to one. No
`objects/` tree exists here, so nothing is migrated. -/
def openStore (s : PackStore) : PackStore :=
  if s.nextSegment = none then { s with nextSegment := some 1, activeSegment := some 1 } else s

/-- The length of a segment file. -/
def segmentLen (s : PackStore) (segment : Nat) : Nat := (s.segments[segment]?.getD []).length

/-- `File::create`: make or truncate. -/
def createSegment (segment : Nat) (s : PackStore) : PackStore :=
  { s with segments := s.segments.insert segment [] }

/-- Create a segment file that is not there. -/
def createIfMissing (segment : Nat) (s : PackStore) : PackStore :=
  if s.segments[segment]? = none then s.createSegment segment else s

/-- Append to a segment file. -/
def appendSegment (segment : Nat) (bytes : Bytes) (s : PackStore) : PackStore :=
  { s with segments := s.segments.insert segment (s.segments[segment]?.getD [] ++ bytes) }

/-- `read_u64_meta`. -/
def readU64Meta (key : String) (value : PackStore → Option Nat) : PackTxn Nat :=
  Txn.query fun s =>
    match value s with
    | some v => .ok v
    | none => .error (.io s!"missing pack meta {key}")

/-- One framed record: magic, length, chunk id, payload. -/
def record (id : ChunkId) (data : Bytes) : Bytes :=
  toLeBytes 4 recordMagic ++ toLeBytes 4 data.length ++ id.bytes ++ data

section
variable (hash : Bytes → ChunkId)

/-- `PackStore::read_record`. -/
def readRecord (s : PackStore) (entry : IndexEntry) : Except FluxError Bytes :=
  match s.segments[entry.segment]? with
  | none => .error (.io "No such file or directory (os error 2)")
  | some file =>
    let header := (file.drop entry.offset).take headerLen
    let magic := fromLeBytes (header.take 4)
    let len := fromLeBytes ((header.drop 4).take 4)
    let storedId := header.drop 8
    let data := (file.drop (entry.offset + headerLen)).take len
    if header.length < headerLen then .error (.io "failed to fill whole buffer")
    else if magic ≠ recordMagic ∨ len ≠ entry.len then
      .error (.io "pack record header mismatch")
    else if data.length < len then .error (.io "failed to fill whole buffer")
    else if storedId ≠ (hash data).bytes then
      .error (.io "pack record content-hash mismatch")
    else .ok data

/-- `PackStore::get_if_valid_unlocked`. -/
def getIfValidUnlocked (s : PackStore) (id : ChunkId) : Option Bytes :=
  match s.index[id]? with
  | none => none
  | some entry =>
    match readRecord hash s entry with
    | .ok data => if hash data = id then some data else none
    | .error _ => none

/-- `PackStore::get`. -/
def get (s : PackStore) (id : ChunkId) : Except FluxError Bytes :=
  match getIfValidUnlocked hash s id with
  | some data => .ok data
  | none => .error .notFound

/-- The segment a put writes to and the counters it will persist: the active
one, or a freshly created `next` when the active one is full. -/
def chooseSegment (roll active nextSeg : Nat) : PackTxn (Nat × Nat) := do
  Txn.modify (createIfMissing active)
  let offset ← Txn.reads (segmentLen · active)
  if offset ≥ roll then do
    Txn.modify (createSegment nextSeg)
    pure (nextSeg, saturatingAdd nextSeg 1)
  else
    pure (active, nextSeg)

/-- `PackStore::put_locked`. -/
def putLocked (roll : Nat) (data : Bytes) (id : ChunkId) : PackTxn ChunkId := do
  let existing ← Txn.reads (getIfValidUnlocked hash · id)
  if existing = some data then
    pure id
  else do
    let active ← readU64Meta "active_segment" (·.activeSegment)
    let nextSeg ← readU64Meta "next_segment" (·.nextSegment)
    let (active, nextSeg) ← chooseSegment roll active nextSeg
    let offset ← Txn.reads (segmentLen · active)
    Txn.failIf (data.length > u32Max) (.invalidArg "chunk larger than u32::MAX")
    Txn.modify (appendSegment active (record id data))
    Txn.modify fun s =>
      { s with
        index := s.index.insert id ⟨active, offset, data.length⟩
        activeSegment := some active
        nextSegment := some nextSeg }
    pure id

/-- `PackStore::put`. -/
def put (roll : Nat) (data : Bytes) : PackTxn ChunkId := putLocked hash roll data (hash data)

/-- `PackStore::delete`. -/
def delete (id : ChunkId) : PackTxn Unit :=
  Txn.modify fun s => { s with index := s.index.erase id }

/-- `PackStore::list_chunks_unlocked`. The index iterates in id order, so the
final sort and dedup of the code change nothing. -/
def listChunksUnlocked (s : PackStore) : List ChunkId :=
  s.index.toList.filterMap fun row =>
    match readRecord hash s row.2 with
    | .ok _ => some row.1
    | .error _ => none

/-! ## Compaction -/

/-- The search for an unused segment number. At the last number the code's
`saturating_add` stops advancing, so a taken one is never left again. -/
def findFree (s : PackStore) : Nat → Nat → Option Nat
  | 0, _ => none
  | fuel + 1, target =>
    if s.segments[target]? = none then some target
    else findFree s fuel (saturatingAdd target 1)

/-- The copy loop of `compact`, appending each live record to `target`. -/
def copyLive (target : Nat) :
    List ChunkId → List (ChunkId × IndexEntry) → PackTxn (List (ChunkId × IndexEntry))
  | [], newEntries => pure newEntries
  | id :: ids, newEntries => do
    let data ← Txn.query (get hash · id)
    let offset ← Txn.reads (segmentLen · target)
    Txn.failIf (data.length > u32Max) (.invalidArg "chunk larger than u32::MAX")
    Txn.modify (appendSegment target (record id data))
    copyLive target ids (newEntries ++ [(id, ⟨target, offset, data.length⟩)])

/-- The index transaction of `compact`: every old row goes, the copies come in. -/
def replaceIndex (target nextSeg : Nat) (newEntries : List (ChunkId × IndexEntry))
    (s : PackStore) : PackStore :=
  { s with
    index := Table.insertAll (Table.eraseAll s.index (s.index.toList.map Prod.fst)) newEntries
    activeSegment := some target
    nextSegment := some nextSeg }

/-- The segment files `compact` unlinks: all but `target`. -/
def obsolete (target : Nat) (s : PackStore) : List Nat :=
  (s.segments.toList.map Prod.fst).filter (· ≠ target)

/-- `PackStore::compact` once its target segment is known. -/
def compactInto (target : Nat) : PackTxn CompactReport := do
  let live ← Txn.reads (listChunksUnlocked hash)
  Txn.modify (createSegment target)
  let newEntries ← copyLive hash target live []
  Txn.modify (replaceIndex target (saturatingAdd target 1) newEntries)
  let removed ← Txn.reads (obsolete target)
  Txn.modify fun s => { s with segments := Table.eraseAll s.segments removed }
  pure ⟨newEntries.length, removed.length⟩

/-- `PackStore::compact`; `none` when the search for a target never ends. One
more probe than there are files reaches an unused number if there is one. -/
def compact (s : PackStore) : Option (Except FluxError CompactReport × PackStore) :=
  match readU64Meta "next_segment" (·.nextSegment) s with
  | (.error e, s) => some (.error e, s)
  | (.ok nextSeg, s) =>
    (findFree s (s.segments.size + 1) nextSeg).map fun target => compactInto hash target s

end
end PackStore

/-! ## Operation sequences -/

/-- The calls on a store. -/
inductive PackOp where
  | put (data : Bytes)
  | delete (id : ChunkId)
  | compact
  /-- Close the store and open the directory again. -/
  | reopen
deriving DecidableEq, Repr

/-- What a call answers. -/
inductive PackReply where
  | stored (id : ChunkId)
  | done
  | compacted (report : CompactReport)
deriving DecidableEq, Repr

/-- An answer or an error. -/
abbrev PackOutcome := Except FluxError PackReply

/-- The operations so far with their outcomes, the last one first. -/
abbrev PackHistory := List (PackOp × PackOutcome)

namespace PackStore

variable (hash : Bytes → ChunkId) (roll : Nat)

/-- One operation with what it answers; `none` when it never returns. -/
def perform (s : PackStore) : PackOp → Option (PackOutcome × PackStore)
  | .put data =>
    let (r, s') := put hash roll data s
    some (r.map .stored, s')
  | .delete id =>
    let (r, s') := delete id s
    some (r.map (fun _ => .done), s')
  | .compact => (compact hash s).map fun (r, s') => (r.map .compacted, s')
  | .reopen => some (.ok .done, openStore s)

/-- One operation on a store together with its history. -/
def packStep (st : PackStore × PackHistory) (op : PackOp) : Option (PackStore × PackHistory) :=
  (perform hash roll st.1 op).map fun (outcome, s') => (s', (op, outcome) :: st.2)

end PackStore

/-- The bytes of the last successful put of `id`, unless a successful delete of
`id` came after it. -/
def lastWrite (id : ChunkId) : PackHistory → Option Bytes
  | [] => none
  | (.put data, .ok (.stored stored)) :: rest =>
    if stored = id then some data else lastWrite id rest
  | (.delete deleted, .ok _) :: rest => if deleted = id then none else lastWrite id rest
  | _ :: rest => lastWrite id rest

end FluxFS
