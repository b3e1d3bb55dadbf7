import FluxFS.Client.FileModel
import FluxFS.Ufs.Publish
import FluxFS.Wire.Digest
import FluxFS.Wire.Keys

/-!
# Flusher — writing a file back to the UFS

`flush_inode` announces a snapshot of a Dirty file by an intent on its record, and
`complete_flush_intent` publishes the bytes of that snapshot and takes the intent back. The
second part is also what `reconcile_flushes` runs for the intents it finds. A flusher is one
such call; a step is one call it makes to the metadata store, to the chunk store and the UFS
for one window of the file, or to the backend.

The UFS has no key prefix, and keys have no leading slash.
-/

namespace FluxFS

open Std Kit

/-! ## The UFS -/

/-- The version of an object that a client records. -/
def StoredObject.pinned (rel : String) (object : StoredObject) : UfsObject :=
  ⟨rel, object.data.length, object.etag, object.mtimeMs⟩

/-- `Ufs::find_verified_publish`, when its `stat` answers. -/
def findVerifiedPublish (objects : Table String StoredObject) (rel : String) (expectedSize : Nat)
    (targetDigest : ChunkId) : Option UfsObject :=
  match objects[rel]? with
  | none => none
  | some object =>
    if object.data.length ≠ expectedSize ∨ object.digest ≠ some targetDigest.toHex then none
    else some (object.pinned rel)

/-- The object under a key after a call. -/
def putObject (objects : Table String StoredObject) (rel : String) :
    Option StoredObject → Table String StoredObject
  | some object => objects.insert rel object
  | none => objects.erase rel

/-- The calls of `finish`. -/
def PublishCall.ofFinish : PublishCall → Bool
  | .write .. | .abort => false
  | .close .. | .check _ | .rename .. | .confirm _ => true

/-- What `finish` returns, once it returns. -/
def PublishPhase.result? : PublishPhase → Option (Except FluxError UfsObject)
  | .rejected error | .lost error => some (.error error)
  | .confirmed result => some result
  | _ => none

/-! ## Calls of a flush -/

/-- One round of `for_each_inode_chunk`, up to `consume`. -/
def nextInodeChunk (read : Nat → Nat → Except FluxError Bytes) (size offset : Nat) :
    Except FluxError Bytes := do
  let len := min (size - offset) chunkSize
  let bytes ← read offset len
  if bytes.length ≠ len then
    .error (.io s!"streamed inode range length mismatch: want={len} got={bytes.length}")
  else .ok bytes

/-- The end of a round: the offset of the next one. -/
def streamOffset (offset len : Nat) : Except FluxError Nat :=
  match checkedAdd offset len with
  | none => .error (.invalidArg "stream offset overflow")
  | some offset => .ok offset

/-- Where a flush is. -/
inductive Flusher where
  | idle
  /-- `flush_inode` has the record of a file to be flushed. -/
  | opened (inode : Inode) (manifestId : ManifestId)
  /-- The hasher of `inode_digest` has seen the bytes below `offset`. -/
  | digesting (inode : Inode) (manifest : Manifest) (offset : Nat) (seen : Bytes)
  /-- `flush_inode` has made its intent. -/
  | announcing (inode : Inode) (intent : FlushIntent)
  /-- `complete_flush_intent` begins. -/
  | completing (ino : InodeId) (intent : FlushIntent)
  /-- The record still has the intent. -/
  | holding (inode : Inode) (intent : FlushIntent) (object : UfsObject) (manifestId : ManifestId)
  /-- The manifest is the intent's. -/
  | looking (inode : Inode) (intent : FlushIntent) (object : UfsObject)
  /-- The target object is not the published file. -/
  | absent (inode : Inode) (intent : FlushIntent) (object : UfsObject)
  | uploading (inode : Inode) (intent : FlushIntent) (writer : VerifiedPublishWriter) (offset : Nat)
  /-- Inside `finish`. -/
  | finishing (ino : InodeId) (intent : FlushIntent) (writer : VerifiedPublishWriter)
  /-- `commit_flush_retry` with the rounds it has left, before and after its `get_inode`. -/
  | committing (ino : InodeId) (flushId : FlushId) (published : UfsObject) (rounds : Nat)
  | sending (ino : InodeId) (flushId : FlushId) (published : UfsObject) (rounds : Nat)
      (generation : Generation)
  /-- `record_flush_conflict`, in the same way. -/
  | conflicting (ino : InodeId) (flushId : FlushId) (message : String) (rounds : Nat)
  | failing (ino : InodeId) (flushId : FlushId) (message : String) (rounds : Nat)
      (generation : Generation)
  | done (result : Except FluxError Inode)
deriving DecidableEq, Repr

/-- A step of a flush. -/
inductive FlusherAction where
  | flushInode (ino : InodeId)
  /-- `reconcile_flushes` comes to an intent that it has listed. -/
  | reconcile (ino : InodeId)
  | getInode
  | getManifest
  /-- One window for `inode_digest`. -/
  | digest (src : ReadSource)
  /-- The intent gets the id that `FlushId::random` returns. -/
  | makeIntent (flushId : FlushId)
  /-- `find_verified_publish`, with the error of its `stat` if it fails. -/
  | find (fate : Option FluxError)
  | beginPublish (fate : Option FluxError)
  /-- One window for the upload. -/
  | upload (src : ReadSource) (fate : Option FluxError)
  | finish (call : PublishCall)
  /-- `begin_flush`, `commit_flush` or `fail_flush_conflict`. -/
  | request (rpc : Rpc)
  /-- The client ends its process. -/
  | stop

/-- The `?` operator. -/
def orDone {α : Type} (next : α → Flusher) : Except FluxError α → Flusher
  | .ok value => next value
  | .error error => .done (.error error)

/-- `flush_inode` once `get_inode` has answered. -/
def startFlush (inode : Inode) : Flusher :=
  if inode.fileType ≠ .regular then .done (.error .isDirectory)
  else
    match inode.localityFields with
    | none => .done (.error (.metaErr "flush inode missing locality fields"))
    | some fields =>
      if fields.backingMode = .ephemeral ∨ fields.dataState = .ufsClean then .done (.ok inode)
      else if fields.dataState = .dirtyConflict then .done (.error .dirtyConflict)
      else
        match inode.flushIntent with
        | some intent => .completing inode.id intent
        | none =>
          if fields.dataState ≠ .dirty then .done (.error .busy)
          else
            match inode.manifestId with
            | none => .done (.error (.metaErr "Dirty inode missing manifest"))
            | some manifestId => .opened inode manifestId

/-- The check of `flush_inode` once it has the manifest. -/
def startDigest (inode : Inode) (manifest : Manifest) : Flusher :=
  if manifest.gen ≠ inode.headGen ∨ manifest.size ≠ inode.size then
    .done (.error (.metaErr "Dirty inode head does not match manifest snapshot"))
  else .digesting inode manifest 0 []

/-- A window of the file has been read for `inode_digest`. -/
def digestChunk (inode : Inode) (manifest : Manifest) (offset : Nat) (seen bytes : Bytes) :
    Flusher :=
  orDone (.digesting inode manifest · (seen ++ bytes)) (streamOffset offset bytes.length)

/-- The `expected_ufs_version` of a new intent. -/
def expectedUfsVersion (inode : Inode) : Except FluxError (Option UfsVersion) :=
  match inode.ufs with
  | none => .error (.metaErr "Dirty inode missing UFS target")
  | some target =>
    match target.etag with
    | some etag => .ok (some etag)
    | none =>
      if inode.localityFields.any (·.origin = .fluxCreated) then .ok none
      else .error (.capability "safe overwrite of imported data requires a UFS ETag")

/-- The intent of `flush_inode` for the bytes its hasher has seen. -/
def announce (hash : Bytes → ChunkId) (flushId : FlushId) (inode : Inode) (manifest : Manifest)
    (seen : Bytes) : Flusher :=
  orDone (fun expected => .announcing inode
    (newFlushIntent hash flushId inode.headGen manifest expected (hash seen)))
    (expectedUfsVersion inode)

/-- The rounds of `commit_flush_retry` and `record_flush_conflict`. -/
def flushRounds : Nat := 4

/-- `complete_flush_intent` once `get_inode` has answered. -/
def holdIntent (intent : FlushIntent) (inode : Inode) : Flusher :=
  if inode.flushIntent.map (·.flushId) ≠ some intent.flushId then .done (.error .busy)
  else
    match inode.ufs with
    | none => .done (.error (.metaErr "Dirty inode missing UFS target"))
    | some object =>
      match inode.manifestId with
      | none => .done (.error (.metaErr "flushing inode missing manifest"))
      | some manifestId => .holding inode intent object manifestId

/-- The check of `complete_flush_intent` once it has the manifest. -/
def checkSnapshot (hash : Bytes → ChunkId) (inode : Inode) (intent : FlushIntent)
    (object : UfsObject) (manifest : Manifest) : Flusher :=
  if snapshotUnchanged hash manifest intent then .looking inode intent object
  else .conflicting inode.id intent.flushId "flush snapshot manifest changed" flushRounds

/-- What `complete_flush_intent` makes of the result of `find_verified_publish`. -/
def onFind (inode : Inode) (intent : FlushIntent) (object : UfsObject) :
    Option UfsObject → Flusher
  | some published => .committing inode.id intent.flushId published flushRounds
  | none => .absent inode intent object

/-- The conflict of a publish whose condition does not hold. -/
def driftMessage : String := "conditional UFS publish detected external version drift"

/-- What `complete_flush_intent` makes of the result of `begin_verified_publish`. -/
def onBeginPublish (inode : Inode) (intent : FlushIntent) :
    Except FluxError VerifiedPublishWriter → Flusher
  | .ok writer => .uploading inode intent writer 0
  | .error .dirtyConflict => .conflicting inode.id intent.flushId driftMessage flushRounds
  | .error error => .done (.error error)

/-- A window of the file has been read for the upload. -/
def uploadChunk (inode : Inode) (intent : FlushIntent) (writer : VerifiedPublishWriter)
    (offset : Nat) (fate : Option FluxError) (bytes : Bytes) : Flusher :=
  let writer := writer.write bytes fate
  match writer.phase with
  | .rejected error => .done (.error error)
  | _ => orDone (.uploading inode intent writer ·) (streamOffset offset bytes.length)

/-- What `complete_flush_intent` makes of the result of `finish`. -/
def onFinish (ino : InodeId) (intent : FlushIntent) : Except FluxError UfsObject → Flusher
  | .ok published => .committing ino intent.flushId published flushRounds
  | .error (.invalidArg _) =>
    .conflicting ino intent.flushId "flush reconstructed bytes do not match target digest"
      flushRounds
  | .error .dirtyConflict => .conflicting ino intent.flushId driftMessage flushRounds
  | .error error => .done (.error error)

/-- The next round of a loop that goes on after a lost compare-and-swap only. -/
def nextRound (again : Nat → Flusher) (rounds : Nat) (ok : Inode → Flusher) :
    Except FluxError Inode → Flusher
  | .ok inode => ok inode
  | .error (.casFailed ..) => if rounds = 0 then .done (.error .busy) else again rounds
  | .error error => .done (.error error)

/-! ## Steps -/

namespace Flusher

/-- Where a flush goes from a call that changes neither the metadata nor the UFS. -/
def look (hash : Bytes → ChunkId) (backend : UfsBackend) (s : Tables)
    (objects : Table String StoredObject) : Flusher → FlusherAction → Option Flusher
  | .idle, .flushInode ino => some (orDone startFlush (s.getInode ino))
  | .idle, .reconcile ino => ((s.inodes.get? ino).bind (·.flushIntent)).map (.completing ino)
  | .opened inode manifestId, .getManifest =>
    some (orDone (startDigest inode) (s.getManifest manifestId))
  | .digesting inode manifest offset seen, .digest src =>
    if offset < inode.size then
      some (orDone (digestChunk inode manifest offset seen)
        (nextInodeChunk (readInodeRange src s.getManifest inode) inode.size offset))
    else none
  | .digesting inode manifest offset seen, .makeIntent flushId =>
    if offset < inode.size then none else some (announce hash flushId inode manifest seen)
  | .completing ino intent, .getInode => some (orDone (holdIntent intent) (s.getInode ino))
  | .holding inode intent object manifestId, .getManifest =>
    some (orDone (checkSnapshot hash inode intent object) (s.getManifest manifestId))
  | .looking _ _ _, .find (some error) => some (.done (.error error))
  | .looking inode intent object, .find none =>
    some (onFind inode intent object
      (findVerifiedPublish objects object.key inode.size intent.targetDigest))
  | .absent inode intent object, .beginPublish fate =>
    some (onBeginPublish inode intent (beginVerifiedPublish backend object.key inode.size
      intent.expectedUfsVersion intent.targetDigest fate))
  | .uploading inode intent writer offset, .upload src fate =>
    if offset < inode.size then
      some (orDone (uploadChunk inode intent writer offset fate)
        (nextInodeChunk (readInodeRange src s.getManifest inode) inode.size offset))
    else none
  | .committing ino flushId published rounds, .getInode =>
    some (orDone (.sending ino flushId published (rounds - 1) ·.generation) (s.getInode ino))
  | .conflicting ino flushId message rounds, .getInode =>
    some (orDone (.failing ino flushId message (rounds - 1) ·.generation) (s.getInode ino))
  | _, .stop => some .idle
  | _, _ => none

/-- The request that a flush sends next. -/
def request? : Flusher → Option MetaOp
  | .announcing inode intent => some (.beginFlush inode.generation inode.id intent)
  | .sending ino flushId published _ generation =>
    some (.commitFlush generation ino flushId published)
  | .failing ino flushId message _ generation =>
    some (.failFlushConflict generation ino flushId message)
  | _ => none

/-- Where a flush goes from the record it gets back. -/
def answered (result : Except FluxError Inode) : Flusher → Flusher
  | .announcing inode intent => orDone (fun _ => .completing inode.id intent) result
  | .sending ino flushId published rounds _ =>
    nextRound (.committing ino flushId published) rounds (.done ∘ .ok) result
  | .failing ino flushId message rounds _ =>
    nextRound (.conflicting ino flushId message) rounds (fun _ => .done (.error .dirtyConflict))
      result
  | f => f

/-- The publish that is complete but for `finish`. -/
def publish? : Flusher → Option (InodeId × FlushIntent × VerifiedPublishWriter)
  | .uploading inode intent writer offset =>
    if offset < inode.size then none else some (inode.id, intent, writer)
  | .finishing ino intent writer => some (ino, intent, writer)
  | _ => none

end Flusher

/-- What a step does: the request that takes effect, the objects after it and where the flush
goes. -/
structure FlusherMove where
  sent : Option MetaRequest
  objects : Table String StoredObject
  next : Flusher

/-- A call of `finish` and, after the last one, what `complete_flush_intent` makes of it. -/
def finishCall (hash : Bytes → ChunkId) (objects : Table String StoredObject) (ino : InodeId)
    (intent : FlushIntent) (writer : VerifiedPublishWriter) (call : PublishCall) :
    Option FlusherMove :=
  (writer.call hash objects[writer.rel]? call).map fun (writer, object) =>
    ⟨none, putObject objects writer.rel object,
      match writer.phase.result? with
      | some result => onFinish ino intent result
      | none => .finishing ino intent writer⟩

/-- One step of a flush. -/
def flusherStep (hash : Bytes → ChunkId) (backend : UfsBackend) (s : Tables)
    (objects : Table String StoredObject) (f : Flusher) : FlusherAction → Option FlusherMove
  | .request rpc =>
    f.request?.bind fun op =>
      if rpc.isFresh s then
        some ⟨if rpc.delivery.arrives then some (rpc.request op) else none, objects,
          f.answered (rpc.call op mapInode s).1⟩
      else none
  | .finish call =>
    f.publish?.bind fun (ino, intent, writer) =>
      if call.ofFinish then finishCall hash objects ino intent writer call else none
  | action => (f.look hash backend s objects action).map (⟨none, objects, ·⟩)

/-! ## What a publish vouches for -/

/-- The upload is complete and nothing is visible yet. -/
def PublishPhase.uploaded : PublishPhase → Bool
  | .staged | .checked => true
  | _ => false

namespace VerifiedPublishWriter

/-- A complete upload has the digest that was announced. -/
def Vouched (hash : Bytes → ChunkId) (w : VerifiedPublishWriter) : Prop :=
  w.phase.uploaded = true → hash w.data = w.targetDigest

/-- What a call leaves of a publish, what it makes visible and what it returns. -/
structure Verifies (hash : Bytes → ChunkId) (w : VerifiedPublishWriter) (key : Option StoredObject)
    (w' : VerifiedPublishWriter) (key' : Option StoredObject) : Prop where
  rel : w'.rel = w.rel
  target : w'.targetDigest = w.targetDigest
  vouched : w'.Vouched hash
  visible : key' = key ∨
    ∃ etag mtimeMs, key' = some (w.object etag mtimeMs) ∧ hash w.data = w.targetDigest
  result : ∀ published, w'.phase.result? = some (.ok published) → ∃ object, key' = some object ∧
    published = object.pinned w.rel ∧ object.digest = some w.targetDigest.toHex

variable {hash : Bytes → ChunkId} {w w' : VerifiedPublishWriter} {key key' : Option StoredObject}
  {c : PublishCall}

/-- A call that ends the publish with an error. -/
theorem verifies_error {phase : PublishPhase} {error : FluxError}
    (hphase : phase.result? = some (.error error)) (hkey : key' = key ∨ ∃ etag mtimeMs,
      key' = some (w.object etag mtimeMs) ∧ hash w.data = w.targetDigest) :
    Verifies hash w key { w with phase := phase } key' where
  rel := rfl
  target := rfl
  vouched huploaded := by
    cases phase with
    | staged | checked => cases hphase
    | _ => cases huploaded
  visible := hkey
  result published hresult := by
    rw [hphase] at hresult
    cases hresult

/-- A call that leaves the publish going on. -/
theorem verifies_pending {phase : PublishPhase} (hphase : phase.result? = none)
    (hvouched : phase.uploaded = true → hash w.data = w.targetDigest)
    (hkey : key' = key ∨ ∃ etag mtimeMs,
      key' = some (w.object etag mtimeMs) ∧ hash w.data = w.targetDigest) :
    Verifies hash w key { w with phase := phase } key' where
  rel := rfl
  target := rfl
  vouched := hvouched
  visible := hkey
  result published hresult := by
    rw [hphase] at hresult
    cases hresult

theorem verifies_replace (key : Option StoredObject) (fate : CallFate) (etag : Option String)
    (mtimeMs : Option Int) (hdigest : hash w.data = w.targetDigest) :
    Verifies hash w key (w.replace key fate etag mtimeMs).1
      (w.replace key fate etag mtimeMs).2 := by
  cases fate with
  | answered =>
    refine verifies_pending rfl (fun h => ?_) (.inr ⟨etag, mtimeMs, rfl, hdigest⟩)
    cases h
  | refused error => exact verifies_error rfl (.inl rfl)
  | replyLost error => exact verifies_error rfl (.inr ⟨etag, mtimeMs, rfl, hdigest⟩)

theorem verifies_close (key : Option StoredObject) (fate : CallFate) (etag : Option String)
    (mtimeMs : Option Int) :
    Verifies hash w key (w.close hash key fate etag mtimeMs).1
      (w.close hash key fate etag mtimeMs).2 := by
  unfold close
  split
  · exact verifies_error rfl (.inl rfl)
  · rename_i hverified
    have hdigest : hash w.data = w.targetDigest := by
      rw [Bool.not_eq_true', Bool.not_eq_false, verified, decide_eq_true_eq] at hverified
      exact hverified.2
    split
    · cases fate with
      | answered => exact verifies_pending rfl (fun _ => hdigest) (.inl rfl)
      | refused error => exact verifies_error rfl (.inl rfl)
      | replyLost error => exact verifies_error rfl (.inl rfl)
    · split
      · exact verifies_replace key fate etag mtimeMs hdigest
      · cases fate with
        | answered => exact verifies_error rfl (.inl rfl)
        | refused error => exact verifies_error rfl (.inl rfl)
        | replyLost error => exact verifies_error rfl (.inl rfl)

/-- `finish` returns a version of an object that carries the announced digest. -/
theorem confirm_ok {fate : Option FluxError} {published : UfsObject}
    (h : w.confirm key fate = .ok published) : ∃ object, key = some object ∧
      published = object.pinned w.rel ∧ object.digest = some w.targetDigest.toHex := by
  unfold confirm at h
  split at h
  · cases h
  · cases h
  · rename_i object
    split at h
    · cases h
    · split at h
      · cases h
      · rename_i hdigest
        cases h
        exact ⟨object, rfl, rfl, not_not.mp hdigest⟩

theorem verifies_finish (hvouched : w.Vouched hash) (hc : c.ofFinish = true)
    (h : w.call hash key c = some (w', key')) : Verifies hash w key w' key' := by
  cases c with
  | write | abort => cases hc
  | close fate etag mtimeMs =>
    obtain ⟨-, h⟩ := Option.ite_none_right_eq_some.mp h
    have hclose : Verifies hash w key _ _ := verifies_close key fate etag mtimeMs
    rw [Option.some.inj h] at hclose
    exact hclose
  | check failed =>
    obtain ⟨hphase, h⟩ := Option.ite_none_right_eq_some.mp h
    split at h
    · cases h
      refine verifies_pending rfl (fun _ => hvouched ?_) (.inl rfl)
      rw [hphase]
      rfl
    · cases h
      exact verifies_error rfl (.inl rfl)
  | rename fate etag mtimeMs =>
    obtain ⟨hphase, h⟩ := Option.ite_none_right_eq_some.mp h
    have hreplace := verifies_replace key fate etag mtimeMs
      (hvouched (by rw [hphase]; rfl))
    rw [Option.some.inj h] at hreplace
    exact hreplace
  | confirm fate =>
    obtain ⟨-, h⟩ := Option.ite_none_right_eq_some.mp h
    cases h
    refine ⟨rfl, rfl, fun huploaded => ?_, .inl rfl, fun published hresult => ?_⟩
    · cases huploaded
    · exact confirm_ok (Option.some.inj hresult)

/-- A `write` that is not rejected leaves the publish as it was, with more bytes. -/
theorem write_spec (w : VerifiedPublishWriter) (data : Bytes) (fate : Option FluxError) :
    (w.write data fate).targetDigest = w.targetDigest ∧
      ((∃ error, (w.write data fate).phase = .rejected error) ∨
        (w.write data fate).phase = w.phase) := by
  rw [write]
  split
  · exact ⟨rfl, .inl ⟨_, rfl⟩⟩
  · split
    · exact ⟨rfl, .inl ⟨_, rfl⟩⟩
    · split
      · exact ⟨rfl, .inl ⟨_, rfl⟩⟩
      · exact ⟨rfl, .inr rfl⟩

end VerifiedPublishWriter

end FluxFS
