import FluxFS.Chunk.Placement
import FluxFS.Client.Extents
import FluxFS.Client.Images

/-!
# DataPath — the manifests that writes and truncations build

`FluxClient::write_at` and `setattr` with a new size, up to the call of
`commit_staged_manifest`. A write copies up every window of `CHUNK_SIZE`
bytes that it touches: the window's old bytes are read back, filled up with
zeros, overlaid with the new bytes and staged as one chunk, whose extent
replaces whatever the manifest had there. A truncation keeps the extents in
front of the new size and cuts the one that crosses it.
-/

namespace FluxFS

open Kit

/-- A computation of the client that may fail; `none` is a panic. -/
abbrev ClientM (α : Type) := ExceptT FluxError Option α

/-- A check that passed and what followed it. -/
theorem except_bind_eq_ok {ε α β : Type} {x : Except ε α} {f : α → Except ε β} {b : β}
    (h : x >>= f = .ok b) : ∃ a, x = .ok a ∧ f a = .ok b := by
  cases x with
  | error e => cases h
  | ok a => exact ⟨a, rfl, h⟩

/-- A computed result in the client's monad. -/
def ClientM.ofExcept {α : Type} (r : Except FluxError α) : ClientM α := ExceptT.mk (some r)

/-- `Option::ok_or_else`. -/
def ClientM.okOr {α : Type} (o : Option α) (e : FluxError) : ClientM α :=
  .ofExcept (o.elim (.error e) .ok)

theorem ClientM.okOr_eq_ok {α : Type} {o : Option α} {e : FluxError} {a : α}
    (h : (ClientM.okOr o e).run = some (.ok a)) : o = some a := by
  cases o with
  | none => cases h
  | some b =>
    cases h
    rfl

/-- A computation that returned has run through its first step. -/
theorem ClientM.bind_eq_ok {α β : Type} {x : ClientM α} {f : α → ClientM β} {b : β}
    (h : (x >>= f).run = some (.ok b)) :
    ∃ a, x.run = some (.ok a) ∧ (f a).run = some (.ok b) := by
  rw [ExceptT.run_bind] at h
  obtain ⟨r, hr, hf⟩ := Option.bind_eq_some_iff.mp h
  cases r with
  | error e => cases hf
  | ok a => exact ⟨a, hr, hf⟩

theorem ClientM.bind_of_ok {α β : Type} {x : ClientM α} {a : α} (h : x.run = some (.ok a))
    (f : α → ClientM β) : (x >>= f).run = (f a).run := by
  rw [ExceptT.run_bind, h]
  rfl

/-- What a mutation hands to `commit_staged_manifest`. -/
structure Staging where
  manifest : Manifest
  staged : List (ChunkId × Bytes)

/-- `self.meta.get_manifest`, or `Manifest::empty` for a file without one. -/
def currentManifest (getManifest : ManifestId → Except FluxError Manifest) (inode : Inode) :
    Except FluxError Manifest :=
  match inode.manifestId with
  | some mid => getManifest mid
  | none => .ok (.empty inode.id inode.headGen)

/-- The file has been in conflict with its UFS object since a flush failed. -/
def inConflict (inode : Inode) : Bool :=
  inode.localityFields.any (·.dataState = .dirtyConflict)

/-! ## Writes -/

/-- The bytes of one window: `old` filled up with zeros and overlaid with the part of
`data` that falls into the window. -/
def windowBytes (old : Bytes) (offset : Nat) (data : Bytes) (windowStart windowEnd : Nat) : Bytes :=
  let overlayStart := max offset windowStart
  let overlayEnd := min (offset + data.length) windowEnd
  splice (resize old (windowEnd - windowStart) 0) (overlayStart - windowStart)
    (data.extract (overlayStart - offset) (overlayEnd - offset))

/-- The bytes that the window has before the write. -/
def readWindow (read : Nat → Nat → Except FluxError Bytes) (oldSize windowStart windowEnd : Nat) :
    ClientM Bytes :=
  let oldWindowEnd := min windowEnd oldSize
  if windowStart < oldWindowEnd then .ofExcept (read windowStart (oldWindowEnd - windowStart))
  else pure []

/-- One round of the loop of `write_chunked`; `read` is `read_inode_range` of the inode. -/
def writeWindow (hash : Bytes → ChunkId) (read : Nat → Nat → Except FluxError Bytes)
    (oldSize offset : Nat) (data : Bytes) (gen : DataGen) (acc : Staging) (windowIndex : Nat) :
    ClientM Staging := do
  let windowStart ← .okOr (checkedMul windowIndex chunkSize) (.invalidArg "chunk offset overflow")
  let windowStop ← .okOr (checkedAdd windowStart chunkSize) (.invalidArg "chunk end overflow")
  let windowEnd := min windowStop (max oldSize (offset + data.length))
  let old ← readWindow read oldSize windowStart windowEnd
  let bytes := windowBytes old offset data windowStart windowEnd
  let manifest ← ExceptT.mk (acc.manifest.replaceRange
    (.local windowStart (windowEnd - windowStart) (hash bytes)) gen)
  pure ⟨manifest, acc.staged ++ [(hash bytes, bytes)]⟩

/-- The windows a write of `len` bytes at `offset` touches, `first_window..=last_window`. -/
def windowIndices (offset len : Nat) : List Nat :=
  List.range' (offset / chunkSize) ((offset + len - 1) / chunkSize + 1 - offset / chunkSize)

/-- The loop of `write_chunked`. -/
def writeWindows (hash : Bytes → ChunkId) (read : Nat → Nat → Except FluxError Bytes)
    (oldSize offset : Nat) (data : Bytes) (gen : DataGen) : List Nat → Staging → ClientM Staging
  | [], acc => pure acc
  | index :: indices, acc => do
    let acc ← writeWindow hash read oldSize offset data gen acc index
    writeWindows hash read oldSize offset data gen indices acc

/-- `write_at` and `write_chunked` up to the commit, for `data` that is not empty. -/
def planWrite (hash : Bytes → ChunkId) (src : ReadSource)
    (getManifest : ManifestId → Except FluxError Manifest) (inode : Inode) (offset : Nat)
    (data : Bytes) : ClientM Staging :=
  if inode.fileType ≠ .regular then throw .isDirectory
  else if inConflict inode then throw .dirtyConflict
  else if offset + data.length > u64Max then throw (.invalidArg "offset overflow")
  else do
    let manifest ← .ofExcept (currentManifest getManifest inode)
    let acc ← writeWindows hash (readInodeRange src getManifest inode) inode.size offset data
      (saturatingAdd inode.headGen 1) (windowIndices offset data.length) ⟨manifest, []⟩
    pure { acc with manifest.size := max inode.size (offset + data.length) }

/-! ## Truncations -/

/-- The first `keep` bytes of an extent, and what is staged for them. -/
def cutAt (hash : Bytes → ChunkId) (getChunk : ChunkId → Except FluxError Bytes) (keep : Nat) :
    Extent → Except FluxError (Extent × List (ChunkId × Bytes))
  | .local start _ chunk => do
    let bytes ← getChunk chunk
    if bytes.length < keep then .error (.io "chunk shorter than manifest extent")
    else
      let bytes := bytes.take keep
      .ok (.local start keep (hash bytes), [(hash bytes, bytes)])
  | .ufsRange start _ key version offsetInObject =>
    .ok (.ufsRange start keep key version offsetInObject, [])

/-- An extent that ends at `stop`, as far as it lies in front of `size`. -/
def keepExtent (hash : Bytes → ChunkId) (getChunk : ChunkId → Except FluxError Bytes)
    (size stop : Nat) (e : Extent) : Except FluxError (Extent × List (ChunkId × Bytes)) :=
  if stop ≤ size then .ok (e, []) else cutAt hash getChunk (size - e.offset) e

/-- The loop of `truncate_locked`: the extents it pushes and the chunks it stages. -/
def truncateExtents (hash : Bytes → ChunkId) (getChunk : ChunkId → Except FluxError Bytes)
    (size : Nat) : List Extent → Except FluxError (List Extent × List (ChunkId × Bytes))
  | [] => .ok ([], [])
  | e :: es =>
    if e.offset ≥ size then .ok ([], [])
    else
      match checkedAdd e.offset e.len with
      | none => .error (.invalidArg "extent end overflow")
      | some stop => do
        let (kept, staged) ← keepExtent hash getChunk size stop e
        let (extents, rest) ← truncateExtents hash getChunk size es
        pure (kept :: extents, staged ++ rest)

/-- `truncate_locked` up to the commit. -/
def planTruncate (hash : Bytes → ChunkId) (src : ReadSource)
    (getManifest : ManifestId → Except FluxError Manifest) (inode : Inode) (size : Nat) :
    Except FluxError Staging :=
  if inConflict inode then .error .dirtyConflict
  else do
    let current ← currentManifest getManifest inode
    let (extents, staged) ← truncateExtents hash src.chunk size current.extents.extents
    let tree ← ExtentTree.tryFrom extents
    pure ⟨⟨inode.id, saturatingAdd inode.headGen 1, size, tree⟩, staged⟩

/-! ## Edits of a file -/

/-- A call that changes the bytes of a file. -/
inductive FileEdit where
  /-- `write_at` of bytes that are not empty. -/
  | write (offset : Nat) (data : Bytes) (hdata : data ≠ [])
  /-- `setattr` with a size that is not the file's. -/
  | truncate (size : Nat) (hsize : size ≤ u64Max) (attrs : InodeSetAttr)

namespace FileEdit

/-- What the call hands to `commit_staged_manifest`. -/
def plan (hash : Bytes → ChunkId) (src : ReadSource)
    (getManifest : ManifestId → Except FluxError Manifest) (inode : Inode) :
    FileEdit → ClientM Staging
  | .write offset data _ => planWrite hash src getManifest inode offset data
  | .truncate size .. =>
    if inode.fileType ≠ .regular then throw .isDirectory
    else .ofExcept (planTruncate hash src getManifest inode size)

/-- The record the call submits. -/
def change (now : Int) : FileEdit → DataChange
  | .write offset data _ => .write (offset + data.length) now
  | .truncate size _ attrs => .truncate size attrs now

/-- What the call is for: a write overlays its range and fills a gap with zeros, a
truncation drops the tail or adds zeros. -/
def apply : FileEdit → Bytes → Bytes
  | .write offset data _, content =>
    splice (resize content (max content.length (offset + data.length)) 0) offset data
  | .truncate size .., content => resize content size 0

end FileEdit

end FluxFS
