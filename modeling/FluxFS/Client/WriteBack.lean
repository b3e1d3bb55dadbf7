import FluxFS.Client.Flusher

/-!
# WriteBack — flushes among writers

Any number of flushes run beside the writers, the collectors and the other clients of a
cluster, and somebody outside may replace objects of the UFS at any time. A flush is announced
with the digest of the bytes it has read. While the record has the intent nobody commits to
the file, and what is recorded in the end is an object that carries the announced digest: it
has the bytes of the file, whoever uploaded it and whatever happened to its key since.
-/

namespace FluxFS

open Std Kit

/-- The cluster, the UFS and the flushes. -/
structure WriteBack where
  files : FileState
  objects : Table String StoredObject
  flushers : Table Nat Flusher
  /-- The intents that flushes have made, by their ids. -/
  intents : Table FlushId (InodeId × FlushIntent)
  /-- What was under a key at some time. -/
  stored : List (String × StoredObject)

/-- A step of the cluster, of a flush or of somebody outside. -/
inductive WriteBackAction where
  | file (action : FileAction)
  | flush (f : Nat) (action : FlusherAction)
  /-- An object is replaced or deleted. -/
  | external (key : String) (object : Option StoredObject)

namespace WriteBack

/-- A new store without clients, and a UFS without objects. -/
def fresh (now : Int) : WriteBack := ⟨FileState.fresh now, ∅, ∅, ∅, []⟩

/-- The metadata. -/
def tables (st : WriteBack) : Tables := st.files.tables

/-- Where the flush `f` is. -/
def flusher (st : WriteBack) (f : Nat) : Flusher := (st.flushers[f]?).getD .idle

end WriteBack

/-- The step sends a request of a flush. -/
def FileAction.flushes : FileAction → Bool
  | .cluster (.request r) => r.req.op.flush?.isSome
  | _ => false

/-- The intent that a flush has made and not sent, with its inode. -/
def Flusher.made : Flusher → Option (InodeId × FlushIntent)
  | .announcing inode intent => some (inode.id, intent)
  | _ => none

/-- The objects are `objects` now, and the intent of `f`, if it has just made one, is noted. -/
def WriteBack.noted (st : WriteBack) (f : Flusher) (objects : Table String StoredObject) :
    WriteBack :=
  { st with
    objects := objects
    intents := f.made.elim st.intents fun row => st.intents.insert row.2.flushId row
    stored := objects.toList ++ st.stored }

/-- One step. `FlushId::random` returns an id that no intent had before. -/
def writeBackStep (hash : Bytes → ChunkId) (backend : UfsBackend) (st : WriteBack) :
    WriteBackAction → Option WriteBack
  | .file action =>
    if action.flushes then none
    else (fileStep hash st.files action).map fun files => { st with files := files }
  | .flush f action => do
    let move ← flusherStep hash backend st.tables st.objects (st.flusher f) action
    let files ← move.sent.elim (some st.files) fun r =>
      fileStep hash st.files (.cluster (.request r))
    if ∀ row ∈ move.next.made, st.intents[row.2.flushId]? = none then
      some { st.noted move.next move.objects with
        files := files
        flushers := st.flushers.insert f move.next }
    else none
  | .external key object => some (st.noted .idle (putObject st.objects key object))

/-! ## What runs are asked to meet -/

/-- `contents` has the object under its version and under its digest. -/
@[mk_iff]
structure Contents.Serves (hash : Bytes → ChunkId) (contents : Contents) (key : String)
    (object : StoredObject) : Prop where
  version : (List.range object.data.length).map (contents.object key (object.pinned key)) =
    object.data
  digest : contents.chunk (hash object.data) = object.data

instance (hash : Bytes → ChunkId) (contents : Contents) (key : String) (object : StoredObject) :
    Decidable (contents.Serves hash key object) :=
  decidable_of_iff _ (contents.serves_iff hash key object).symm

/-- The digest in the metadata of the object is the digest of its bytes. -/
def StoredObject.Genuine (hash : Bytes → ChunkId) (object : StoredObject) : Prop :=
  ∀ digest ∈ object.digest, digest = (hash object.data).toHex

/-- The bytes whose digest a step announces. -/
def Flusher.hashed : Flusher → FlusherAction → Option Bytes
  | .digesting _ _ _ seen, .makeIntent _ => some seen
  | _, _ => none

/-- Neither generations nor sizes have run out; a version of an object stands for one content;
no digest of a chunk, a file or an object stands for two; other clients send what clients
send, and nobody but a publish writes digest metadata that is wrong. -/
def WriteBackAction.Allowed (hash : Bytes → ChunkId) (backend : UfsBackend) (contents : Contents)
    (st : WriteBack) (a : WriteBackAction) : Prop :=
  st.tables.GenerationsBelowMax ∧ st.tables.SizesFit ∧
    (∀ st' ∈ writeBackStep hash backend st a, ∀ row ∈ st'.objects.toList,
      contents.Serves hash row.1 row.2) ∧
    match a with
    | .file (.plan w edit src ..) =>
      ∀ staging ∈ st.files.planned hash w edit src, contents.Holds staging.staged
    | .file (.cluster (.request r)) => r.req.op.ClientIssued ∧ r.req.op.CarriesSound ∧
        r.req.op.templateClean = true
    | .file (.cluster _) => True
    | .flush f action =>
      ∀ bytes ∈ (st.flusher f).hashed action, contents.chunk (hash bytes) = bytes
    | .external _ object => ∀ o ∈ object, o.Genuine hash

instance (hash : Bytes → ChunkId) (backend : UfsBackend) (contents : Contents) (st : WriteBack)
    (a : WriteBackAction) : Decidable (a.Allowed hash backend contents st) :=
  match a with
  | .file (.plan w edit src ..) => inferInstanceAs (Decidable (_ ∧ _ ∧ _ ∧
      ∀ staging ∈ st.files.planned hash w edit src, contents.Holds staging.staged))
  | .file (.cluster (.request r)) => inferInstanceAs (Decidable (_ ∧ _ ∧ _ ∧ _ ∧
      (∀ m ∈ r.req.op.carried?, m.Sound) ∧ _))
  | .file (.cluster (.writer ..)) | .file (.cluster (.pass ..)) | .file (.cluster (.sweep ..))
  | .file (.cluster (.repair ..)) => inferInstanceAs (Decidable (_ ∧ _ ∧ _ ∧ True))
  | .flush f action => inferInstanceAs (Decidable (_ ∧ _ ∧ _ ∧
      ∀ bytes ∈ (st.flusher f).hashed action, contents.chunk (hash bytes) = bytes))
  | .external _ object => inferInstanceAs (Decidable (_ ∧ _ ∧ _ ∧
      ∀ o ∈ object, ∀ digest ∈ o.digest, digest = (hash o.data).toHex))

/-- What the reads of writers and of digests return, if they return, is right. -/
def WriteBackAction.ReadsRight (contents : Contents) : WriteBackAction → Prop
  | .file action => action.ReadsRight contents
  | .flush _ (.digest src) => src.Sound contents
  | .flush .. | .external .. => True

/-! ## Steps that are no part of a flush -/

/-- The file is as the UFS has it. -/
def Inode.isClean (i : Inode) : Bool := i.localityFields.any (·.dataState = .ufsClean)

/-- No record gets an intent, and one that has an intent describes the same bytes. -/
def IntentsStay (contents : Contents) (s t : Tables) : Prop :=
  ∀ id j intent, t.inodes.get? id = some j → j.flushIntent = some intent →
    ∃ i, s.inodes.get? id = some i ∧ i.flushIntent = some intent ∧
      t.content contents j = s.content contents i

/-- Moreover no file becomes clean. -/
structure FlushStays (contents : Contents) (s t : Tables) : Prop where
  intent : IntentsStay contents s t
  clean : ∀ id i j, s.inodes.get? id = some i → t.inodes.get? id = some j →
    j.isClean = true → i.isClean = true

section
variable {hash : Bytes → ChunkId} {contents : Contents} {s t : Tables}

theorem FlushStays.of_inodes (hcontent : ∀ id i, s.inodes.get? id = some i →
    t.content contents i = s.content contents i) (hinodes : t.inodes = s.inodes) :
    FlushStays contents s t where
  intent id j intent hj hintent := by
    rw [hinodes] at hj
    exact ⟨j, hj, hintent, hcontent id j hj⟩
  clean id i j hi hj hclean := by
    rw [hinodes, hi, Option.some.injEq] at hj
    rw [hj]
    exact hclean

/-- A record that is new has no intent. -/
theorem idle_of_born {now : Clock} {op : MetaOp} {i : Inode} (hborn : Born now op s i)
    (htemplate : op.templateClean = true) : i.flushIntent = none := by
  cases hborn with
  | created => rfl
  | imported hop | importedData hop =>
    rw [hop] at htemplate
    simp only [MetaOp.templateClean, Bool.and_eq_true, decide_eq_true_eq] at htemplate
    exact htemplate.2

/-- A record with an intent was there before a request that is no part of a flush. -/
theorem intent_request (hgrounded : Grounded s) {r : MetaRequest}
    (hraw : r.req.op.isRaw = false) (hcommit : r.req.op.commit? = none)
    (hends : r.req.op.endsFlush? = none) (hflush : r.req.op.flush? = none)
    (htemplate : r.req.op.templateClean = true) {id : InodeId} {j : Inode} {intent : FlushIntent}
    (hj : (applyRaftRequest r.now r.req s).2.inodes.get? id = some j)
    (hintent : j.flushIntent = some intent) : ∃ i, s.inodes.get? id = some i := by
  have hkept : ∀ k, (applyRaftRequest r.now r.req s).2.inodes.get? id = some k →
      k.flushIntent = some intent → ∃ i, s.inodes.get? id = some i := by
    apply request_keep (P := fun t => ∀ k, t.inodes.get? id = some k →
      k.flushIntent = some intent → ∃ i, s.inodes.get? id = some i) hgrounded
    · intro a b ha e k hk hkintent
      rcases unedited_edit hraw hcommit hends e hk with ⟨l, hl, hsame⟩ | ⟨hborn, -, -⟩
      · exact ha l hl ((hsame.flush hflush).intent.symm.trans hkintent)
      · rw [idle_of_born hborn htemplate] at hkintent
        cases hkintent
    · intro k hk _
      exact ⟨k, hk⟩
  exact hkept j hj hintent

theorem FlushStays.request (hgrounded : Grounded s) (hintact : Intact s) {r : MetaRequest}
    (hissued : r.req.op.ClientIssued) (hcommit : r.req.op.commit? = none)
    (hflush : r.req.op.flush? = none) (htemplate : r.req.op.templateClean = true) :
    FlushStays contents s (applyRaftRequest r.now r.req s).2 := by
  have hraw := hissued.not_raw
  have hends := MetaOp.ends_none_of_flush hflush
  have hsame : ∀ id i j, s.inodes.get? id = some i →
      (applyRaftRequest r.now r.req s).2.inodes.get? id = some j → Unedited r.req.op i j :=
    fun _ _ _ => unedited_request hgrounded hraw hcommit hends
  refine ⟨fun id j intent hj hintent => ?_, fun id i j hi hj hclean => ?_⟩
  · obtain ⟨i, hi⟩ := intent_request hgrounded hraw hcommit hends hflush htemplate hj hintent
    obtain ⟨hdata, hfields⟩ := hsame id i j hi hj
    refine ⟨i, hi, (hfields hflush).intent.symm.trans hintent, ?_⟩
    exact content_of_sameData hintact (hintact.request hgrounded hissued)
      (.request hgrounded hraw) hi hj hdata
  · rw [Inode.isClean, ((hsame id i j hi hj).flush hflush).fields] at hclean
    exact hclean

/-- A record is replaced by one without an intent. -/
theorem IntentsStay.put {new : Inode} (hinodes : t.inodes = s.inodes.put new)
    (hother : ∀ id j, new.id ≠ id → s.inodes.get? id = some j → t.inodes.get? id = some j →
      t.content contents j = s.content contents j)
    (hidle : new.flushIntent = none) : IntentsStay contents s t := by
  intro id j intent hj hintent
  have hget := hj
  rw [hinodes, Keyed.get?_put] at hget
  split at hget
  · cases hget
    rw [hidle] at hintent
    cases hintent
  · rename_i hne
    exact ⟨j, hget, hintent, hother id j hne hget hj⟩

theorem mutatedFields_not_clean (old : LocalityFields) :
    (mutatedFields old).dataState ≠ .ufsClean := by
  unfold mutatedFields
  split
  · intro h
    cases h
  · intro h
    cases h

/-- A commit replaces an idle record. -/
theorem FlushStays.commit (hintact : Intact s) {job : WriteJob}
    (hidle : job.basis.flushIntent = none)
    (hinodes : t.inodes = s.inodes.put (s.committed (job.change.image job.basis)))
    (hmanifests : t.manifests = (s.addManifest job.manifest).manifests) :
    FlushStays contents s t := by
  obtain ⟨-, -, -, -, hintent, hfields, -⟩ := job.change.image_spec job.basis
  have hstay : s.ManifestsStay t := by
    intro mid m hm
    rw [hmanifests]
    exact hintact.get_addManifest _ hm
  refine ⟨.put hinodes (fun id j hne _ hj => ?_) (hintent.trans hidle), fun id i j hi hj hclean => ?_⟩
  · exact (content_put_other hintact hinodes hstay hne hj).2
  · rw [hinodes, Keyed.get?_put] at hj
    split at hj
    · cases hj
      have hstate : (s.committed (job.change.image job.basis)).localityFields =
          some (mutatedFields (job.basis.localityFields.getD .default)) := hfields
      rw [Inode.isClean, hstate, Option.any_some, decide_eq_true_eq] at hclean
      exact absurd hclean (mutatedFields_not_clean _)
    · rw [hi, Option.some.injEq] at hj
      rw [hj]
      exact hclean

end

/-- A request of another client, if the step is one, is no part of a flush. -/
def ClusterAction.Unflushed : ClusterAction → Prop
  | .request r => r.req.op.flush? = none ∧ r.req.op.templateClean = true
  | _ => True

section
variable {hash : Bytes → ChunkId} {contents : Contents} {st : FileState} {a : ClusterAction}

theorem unflushed_of_sends {r : MetaRequest} (hquiet : a.Unflushed)
    (hr : a.sends st.cluster = some r) :
    r.req.op.flush? = none ∧ r.req.op.templateClean = true := by
  cases a with
  | writer _ action | pass _ action | sweep _ action =>
    simp only [ClusterAction.sends, Writer.sends, Pass.sends, Sweep.sends] at hr
    split at hr
    all_goals cases hr
    all_goals exact ⟨rfl, rfl⟩
  | request r' =>
    cases hr
    exact hquiet
  | repair c source target => cases hr

theorem FlushStays.cluster (hinv : FileInv hash contents st) (hissued : a.Issued contents st.tables)
    (hquiet : a.Unflushed) {next : Cluster} (h : clusterStep hash st.cluster a = some next) :
    FlushStays contents st.tables next.tables := by
  have hstep := tablesStep hissued h
  generalize next.tables = t at hstep
  cases hstep with
  | same => exact .of_inodes (fun _ _ _ => rfl) rfl
  | request _ hr hcommit hissued =>
    obtain ⟨hflush, htemplate⟩ := unflushed_of_sends hquiet hr
    exact .request hinv.grounded hinv.intact hissued hcommit hflush htemplate
  | @commit w rpc job stored _ hw hfresh =>
    have hwriter := hinv.writers w
    rw [hw] at hwriter
    obtain ⟨edit, -, hcarries⟩ := hwriter
    rcases job.applied hfresh with ⟨-, ⟨current, hcurrent, hgen, hidle⟩, hinodes, hmanifests⟩ |
      ⟨-, after, htables⟩
    · rw [hcarries.known.current hcurrent hgen] at hidle
      exact .commit hinv.intact hidle hinodes hmanifests
    · rw [htables]
      exact .of_inodes (fun _ _ _ => rfl) rfl

/-- What a step of the files that is no part of a flush leaves as it is. -/
theorem FlushStays.file {b : FileAction} {st' : FileState} (hinv : FileInv hash contents st)
    (hallowed : b.Allowed hash contents st)
    (hquiet : ∀ action, b = .cluster action → action.Unflushed)
    (h : fileStep hash st b = some st') : FlushStays contents st.tables st'.tables := by
  obtain ⟨action, hnext, -, rfl | ⟨w, call, rfl⟩⟩ := fileStep_cluster h
  · exact .cluster hinv hallowed.2.2 (hquiet action rfl) hnext
  · exact .cluster hinv (by trivial) (by trivial) hnext

/-- Writers and flushes go on knowing what they know. -/
theorem knows_fileStep {b : FileAction} {st' : FileState} (hinv : FileInv hash contents st)
    (hallowed : b.Allowed hash contents st) (h : fileStep hash st b = some st') {basis : Inode}
    {old : Manifest} (hknows : Knows st.tables basis old) : Knows st'.tables basis old := by
  obtain ⟨action, -, hmoves⟩ := moves_fileStep hinv hallowed h
  exact hmoves.knows basis old hknows

end

/-! ## What a flush knows -/

/-- The object of a publish for the intent `intent`, as a flush has found it under its key. -/
structure Published (hash : Bytes → ChunkId) (contents : Contents) (st : WriteBack) (ino : InodeId)
    (flushId : FlushId) (published : UfsObject) (intent : FlushIntent) (object : StoredObject) :
    Prop where
  made : st.intents[flushId]? = some (ino, intent)
  pinned : published = object.pinned published.key
  stored : (published.key, object) ∈ st.stored
  digest : object.digest = some intent.targetDigest.toHex
  target : hash object.data = intent.targetDigest
  serves : contents.Serves hash published.key object

/-- What each flush relies on. -/
def FlusherKnows (hash : Bytes → ChunkId) (contents : Contents) (st : WriteBack) : Flusher → Prop
  | .idle | .conflicting .. | .failing .. | .done _ => True
  | .opened inode manifestId =>
    inode.manifestId = some manifestId ∧ ∃ old, Knows st.tables inode old
  | .digesting inode manifest offset seen => inode.manifestId ≠ none ∧
      Knows st.tables inode manifest ∧ seen =
        (fileRange contents inode.ufs manifest.extents.extents 0 inode.size).take offset
  | .announcing inode intent => st.intents[intent.flushId]? = some (inode.id, intent) ∧
      ∃ manifest, Knows st.tables inode manifest ∧ contents.chunk intent.targetDigest =
        fileRange contents inode.ufs manifest.extents.extents 0 inode.size
  | .completing ino intent => st.intents[intent.flushId]? = some (ino, intent)
  | .holding inode intent _ _ | .looking inode intent _ | .absent inode intent _ =>
    st.intents[intent.flushId]? = some (inode.id, intent)
  | .uploading inode intent writer _ => st.intents[intent.flushId]? = some (inode.id, intent) ∧
      writer.targetDigest = intent.targetDigest ∧ writer.phase = .writing
  | .finishing ino intent writer => st.intents[intent.flushId]? = some (ino, intent) ∧
      writer.targetDigest = intent.targetDigest ∧ writer.Vouched hash
  | .committing ino flushId published _ | .sending ino flushId published _ _ =>
    ∃ intent object, Published hash contents st ino flushId published intent object

/-- An intent was made by a flush, for the bytes the file has. -/
def WriteBack.IntentsRight (contents : Contents) (st : WriteBack) (s : Tables) : Prop :=
  ∀ id i intent, s.inodes.get? id = some i → i.flushIntent = some intent →
    st.intents[intent.flushId]? = some (id, intent) ∧
      contents.chunk intent.targetDigest = s.content contents i

/-- What holds between the steps. -/
structure WriteBackInv (hash : Bytes → ChunkId) (contents : Contents) (st : WriteBack) : Prop where
  files : FileInv hash contents st.files
  intents : st.IntentsRight contents st.tables
  objects : ∀ (key : String) (object : StoredObject), st.objects[key]? = some object →
    object.Genuine hash ∧ contents.Serves hash key object ∧ (key, object) ∈ st.stored
  flushers : ∀ f, FlusherKnows hash contents st (st.flusher f)

section
variable {hash : Bytes → ChunkId} {contents : Contents} {st st' : WriteBack} {f : Flusher}
  {objects : Table String StoredObject}

theorem Published.frame {ino : InodeId} {flushId : FlushId} {published : UfsObject}
    {intent : FlushIntent} {object : StoredObject}
    (h : Published hash contents st ino flushId published intent object)
    (hintents : ∀ (id : FlushId) row, st.intents[id]? = some row → st'.intents[id]? = some row)
    (hstored : ∀ row ∈ st.stored, row ∈ st'.stored) :
    Published hash contents st' ino flushId published intent object :=
  { h with made := hintents _ _ h.made, stored := hstored _ h.stored }

/-- A flush that does not move goes on knowing what it knows. -/
theorem FlusherKnows.frame (h : FlusherKnows hash contents st f)
    (hknows : ∀ basis old, Knows st.tables basis old → Knows st'.tables basis old)
    (hintents : ∀ (id : FlushId) row, st.intents[id]? = some row → st'.intents[id]? = some row)
    (hstored : ∀ row ∈ st.stored, row ∈ st'.stored) : FlusherKnows hash contents st' f := by
  cases f with
  | idle | conflicting | failing | done => trivial
  | opened inode manifestId =>
    obtain ⟨hmid, old, hold⟩ := h
    exact ⟨hmid, old, hknows inode old hold⟩
  | digesting inode manifest offset seen =>
    obtain ⟨hmid, hold, hseen⟩ := h
    exact ⟨hmid, hknows inode manifest hold, hseen⟩
  | announcing inode intent =>
    obtain ⟨hmade, manifest, hold, hchunk⟩ := h
    exact ⟨hintents _ _ hmade, manifest, hknows inode manifest hold, hchunk⟩
  | completing | holding | looking | absent => exact hintents _ _ h
  | uploading | finishing => exact ⟨hintents _ _ h.1, h.2⟩
  | committing | sending =>
    obtain ⟨intent, object, hpublished⟩ := h
    exact ⟨intent, object, hpublished.frame hintents hstored⟩

theorem WriteBack.noted_intents (hfresh : ∀ row ∈ f.made, st.intents[row.2.flushId]? = none)
    (objects : Table String StoredObject) {id : FlushId} {row : InodeId × FlushIntent}
    (h : st.intents[id]? = some row) : (st.noted f objects).intents[id]? = some row := by
  rw [noted]
  cases hmade : f.made with
  | none => exact h
  | some new =>
    show (st.intents.insert new.2.flushId new)[id]? = some row
    rw [Table.get_insert, if_neg, h]
    intro heq
    rw [← heq, hfresh new hmade] at h
    cases h

theorem FlusherKnows.noted {g : Flusher} (h : FlusherKnows hash contents st f)
    (hfresh : ∀ row ∈ g.made, st.intents[row.2.flushId]? = none) :
    FlusherKnows hash contents (st.noted g objects) f :=
  h.frame (fun _ _ hold => hold) (fun _ _ => WriteBack.noted_intents hfresh objects)
    (fun _ => List.mem_append_right _)

/-! ### Phases -/

theorem FlusherKnows.orDone {α : Type} {next : α → Flusher} {result : Except FluxError α}
    (h : ∀ value, result = .ok value → FlusherKnows hash contents st (next value)) :
    FlusherKnows hash contents st (orDone next result) := by
  cases result with
  | ok value => exact h value rfl
  | error error => trivial

theorem FlusherKnows.start {inode : Inode} (hknows : ∃ old, Knows st.tables inode old)
    (hintent : ∀ intent, inode.flushIntent = some intent →
      st.intents[intent.flushId]? = some (inode.id, intent)) :
    FlusherKnows hash contents st (startFlush inode) := by
  unfold startFlush
  split
  · trivial
  · split
    · trivial
    · split
      · trivial
      · split
        · trivial
        · split
          · rename_i intent hsome
            exact hintent intent hsome
          · split
            · trivial
            · split
              · trivial
              · rename_i manifestId hmid
                exact ⟨hmid, hknows⟩

theorem FlusherKnows.digestFrom {inode : Inode} {manifest : Manifest} {manifestId : ManifestId}
    (h : FlusherKnows hash contents st (.opened inode manifestId))
    (hmanifest : st.tables.getManifest manifestId = .ok manifest) :
    FlusherKnows hash contents st (startDigest inode manifest) := by
  obtain ⟨hmid, old, hknows⟩ := h
  unfold startDigest
  split
  · trivial
  · refine ⟨fun hnone => ?_, ?_, rfl⟩
    · rw [hmid] at hnone
      cases hnone
    · unfold Tables.getManifest at hmanifest
      split at hmanifest
      · rename_i m hm
        cases hmanifest
        rw [← hknows.version manifestId manifest hmid hm] at hknows
        exact hknows
      · cases hmanifest

theorem nextInodeChunk_ok {read : Nat → Nat → Except FluxError Bytes} {size offset : Nat}
    {bytes : Bytes} (h : nextInodeChunk read size offset = .ok bytes) :
    read offset (min (size - offset) chunkSize) = .ok bytes ∧
      bytes.length = min (size - offset) chunkSize := by
  unfold nextInodeChunk at h
  dsimp only at h
  cases hread : read offset (min (size - offset) chunkSize) with
  | error e =>
    rw [hread] at h
    cases h
  | ok data =>
    rw [hread] at h
    change (if data.length ≠ _ then _ else _) = _ at h
    split at h
    · cases h
    · rename_i hlen
      cases h
      exact ⟨rfl, not_not.mp hlen⟩

theorem streamOffset_ok {offset len next : Nat} (h : streamOffset offset len = .ok next) :
    offset + len = next := by
  unfold streamOffset checkedAdd at h
  split at h
  · cases h
  · rename_i hsome
    cases h
    exact Option.some.inj (Option.ite_none_right_eq_some.mp hsome).2

/-- The hasher sees the bytes of the file in order. -/
theorem FlusherKnows.digestNext {inode : Inode} {manifest : Manifest} {offset : Nat}
    {seen bytes : Bytes} {src : ReadSource} (hsrc : src.Sound contents)
    (h : FlusherKnows hash contents st (.digesting inode manifest offset seen))
    (hoffset : offset < inode.size)
    (hread : nextInodeChunk (readInodeRange src st.tables.getManifest inode) inode.size offset =
      .ok bytes) :
    FlusherKnows hash contents st (digestChunk inode manifest offset seen bytes) := by
  refine .orDone fun next hnext => ?_
  obtain ⟨hmid, hknows, rfl⟩ := h
  refine ⟨hmid, hknows, ?_⟩
  obtain ⟨hok, hlen⟩ := nextInodeChunk_ok hread
  have hpos := chunkSize_pos
  have hsome : ¬ readsNothing inode offset (min (inode.size - offset) chunkSize) := by
    rintro (hzero | hbehind | hnone)
    · omega
    · omega
    · exact hmid hnone
  obtain ⟨mid, m, hmid', hm⟩ := readInodeRange_loads hsome hok
  have hcurrent : currentManifest st.tables.getManifest inode = .ok manifest := by
    rw [currentManifest, hmid']
    show st.tables.getManifest mid = .ok manifest
    unfold Tables.getManifest at hm ⊢
    split at hm
    · rename_i stored hstored
      rw [hknows.version mid stored hmid' hstored]
    · cases hm
  have hbytes := readInodeRange_eq_extract hsrc hknows.sound hcurrent
    (fun hnone => absurd hnone hmid) hok
  rw [← streamOffset_ok hnext, List.take_add, hlen, List.append_right_inj]
  rw [List.extract_eq_take_drop, Nat.add_sub_cancel_left] at hbytes
  exact hbytes

/-- The digest of a new intent is that of the bytes of its file. -/
theorem FlusherKnows.announce {inode : Inode} {manifest : Manifest} {offset : Nat} {seen : Bytes}
    {flushId : FlushId} (h : FlusherKnows hash contents st (.digesting inode manifest offset seen))
    (hdone : ¬ offset < inode.size) (hhashed : contents.chunk (hash seen) = seen) :
    FlusherKnows hash contents (st.noted (announce hash flushId inode manifest seen) objects)
      (announce hash flushId inode manifest seen) := by
  obtain ⟨-, hknows, hseen⟩ := h
  unfold FluxFS.announce
  cases expectedUfsVersion inode with
  | error => trivial
  | ok expected =>
    refine ⟨(Table.get_insert ..).trans (if_pos rfl), manifest, hknows, hhashed.trans ?_⟩
    rw [hseen, List.take_of_length_le]
    rw [fileRange_zero, List.length_map, List.length_range]
    exact Nat.not_lt.mp hdone

theorem FlusherKnows.hold {inode : Inode} {intent : FlushIntent}
    (h : st.intents[intent.flushId]? = some (inode.id, intent)) :
    FlusherKnows hash contents st (holdIntent intent inode) := by
  unfold holdIntent
  split
  · trivial
  · split
    · trivial
    · split
      · trivial
      · exact h

theorem FlusherKnows.snapshot {inode : Inode} {intent : FlushIntent} {object : UfsObject}
    (h : st.intents[intent.flushId]? = some (inode.id, intent)) (manifest : Manifest) :
    FlusherKnows hash contents st (checkSnapshot hash inode intent object manifest) := by
  unfold checkSnapshot
  split
  · exact h
  · trivial

/-- An object with the digest of an intent is what the intent's flush publishes. -/
theorem Published.of_digest {ino : InodeId} {intent : FlushIntent} {rel : String}
    {object : StoredObject} (hmade : st.intents[intent.flushId]? = some (ino, intent))
    (hstored : (rel, object) ∈ st.stored) (hgenuine : object.Genuine hash)
    (hserves : contents.Serves hash rel object)
    (hdigest : object.digest = some intent.targetDigest.toHex) :
    Published hash contents st ino intent.flushId (object.pinned rel) intent object where
  made := hmade
  pinned := rfl
  stored := hstored
  digest := hdigest
  target := ChunkId.toHex_inj (hgenuine _ hdigest).symm
  serves := hserves

theorem FlusherKnows.find (hinv : WriteBackInv hash contents st) {inode : Inode}
    {intent : FlushIntent} {object : UfsObject}
    (h : st.intents[intent.flushId]? = some (inode.id, intent)) :
    FlusherKnows hash contents st (onFind inode intent object
      (findVerifiedPublish st.objects object.key inode.size intent.targetDigest)) := by
  unfold findVerifiedPublish
  split
  · exact h
  · rename_i found hfound
    obtain ⟨hgenuine, hserves, hstored⟩ := hinv.objects _ found hfound
    split
    · exact h
    · rename_i hsame
      rw [not_or, not_not, not_not] at hsame
      exact ⟨intent, found, .of_digest h hstored hgenuine hserves hsame.2⟩

theorem FlusherKnows.beginPublish {inode : Inode} {intent : FlushIntent} {backend : UfsBackend}
    {rel : String} {fate : Option FluxError}
    (h : st.intents[intent.flushId]? = some (inode.id, intent)) :
    FlusherKnows hash contents st (onBeginPublish inode intent (beginVerifiedPublish backend rel
      inode.size intent.expectedUfsVersion intent.targetDigest fate)) := by
  cases hbegin : beginVerifiedPublish backend rel inode.size intent.expectedUfsVersion
      intent.targetDigest fate with
  | error error =>
    unfold onBeginPublish
    split
    all_goals trivial
  | ok writer =>
    unfold beginVerifiedPublish at hbegin
    dsimp only at hbegin
    repeat' split at hbegin
    all_goals cases hbegin
    exact ⟨h, rfl, rfl⟩

theorem FlusherKnows.uploadNext {inode : Inode} {intent : FlushIntent}
    {writer : VerifiedPublishWriter} {offset : Nat} {fate : Option FluxError}
    (h : FlusherKnows hash contents st (.uploading inode intent writer offset)) (bytes : Bytes) :
    FlusherKnows hash contents st (uploadChunk inode intent writer offset fate bytes) := by
  obtain ⟨hmade, htarget, hphase⟩ := h
  obtain ⟨hsame, hwrite⟩ := writer.write_spec bytes fate
  unfold uploadChunk
  dsimp only
  split
  · trivial
  · rename_i hnot
    refine .orDone fun next _ => ⟨hmade, hsame.trans htarget, ?_⟩
    rcases hwrite with ⟨error, hrejected⟩ | hkept
    · exact absurd hrejected (hnot error)
    · exact hkept.trans hphase

theorem FlusherKnows.round {again : Nat → Flusher} {ok : Inode → Flusher} {rounds : Nat}
    (hagain : ∀ n, FlusherKnows hash contents st (again n))
    (hok : ∀ inode, FlusherKnows hash contents st (ok inode)) (result : Except FluxError Inode) :
    FlusherKnows hash contents st (nextRound again rounds ok result) := by
  unfold nextRound
  split
  · exact hok _
  · split
    · trivial
    · exact hagain rounds
  · trivial

/-- A flush goes on after its request. -/
theorem FlusherKnows.answered (h : FlusherKnows hash contents st f)
    (result : Except FluxError Inode) : FlusherKnows hash contents st (f.answered result) := by
  cases f with
  | announcing inode intent => exact .orDone fun _ _ => h.1
  | sending =>
    refine .round (fun _ => ?_) (fun _ => ?_) result
    · exact h
    · trivial
  | failing =>
    refine .round (fun _ => ?_) (fun _ => ?_) result
    all_goals trivial
  | _ => exact h

/-- What `finish` is called for. -/
theorem FlusherKnows.publish {ino : InodeId} {intent : FlushIntent}
    {writer : VerifiedPublishWriter} (h : FlusherKnows hash contents st f)
    (hf : f.publish? = some (ino, intent, writer)) :
    FlusherKnows hash contents st (.finishing ino intent writer) := by
  cases f with
  | uploading inode intent writer offset =>
    obtain ⟨-, hf⟩ := Option.ite_none_left_eq_some.mp hf
    cases hf
    refine ⟨h.1, h.2.1, fun huploaded => ?_⟩
    rw [h.2.2] at huploaded
    cases huploaded
  | finishing =>
    cases hf
    exact h
  | _ => cases hf

theorem get_putObject (rel key : String)
    (object : Option StoredObject) :
    (putObject objects rel object)[key]? = if rel = key then object else objects[key]? := by
  cases object with
  | none => exact Table.get_erase ..
  | some object => exact Table.get_insert ..

/-- The calls of `finish` make only objects visible that are what their digest says. -/
theorem finish_genuine {ino : InodeId} {intent : FlushIntent} {writer : VerifiedPublishWriter}
    {call : PublishCall} {move : FlusherMove} (hvouched : writer.Vouched hash)
    (hcall : call.ofFinish = true)
    (hobjects : ∀ (key : String) (o : StoredObject), objects[key]? = some o → o.Genuine hash)
    (h : finishCall hash objects ino intent writer call = some move) :
    ∀ (key : String) (o : StoredObject), move.objects[key]? = some o → o.Genuine hash := by
  obtain ⟨⟨writer', object⟩, hwriter, rfl⟩ := Option.map_eq_some_iff.mp h
  have hverifies := VerifiedPublishWriter.verifies_finish hvouched hcall hwriter
  intro key o ho
  rw [get_putObject] at ho
  split at ho
  · rename_i hkey
    subst hkey
    rcases hverifies.visible with hsame | ⟨etag, mtimeMs, hnew, hdigest⟩
    · rw [hsame, ← hverifies.rel] at ho
      exact hobjects _ o ho
    · rw [hnew, Option.some.injEq] at ho
      rw [← ho]
      intro digest hmem
      rw [← Option.some.inj hmem]
      exact congrArg ChunkId.toHex hdigest.symm
  · exact hobjects key o ho

theorem FlusherKnows.finish (hinv : WriteBackInv hash contents st) {ino : InodeId}
    {intent : FlushIntent} {writer : VerifiedPublishWriter} {call : PublishCall}
    {move : FlusherMove} (hknows : FlusherKnows hash contents st (.finishing ino intent writer))
    (hcall : call.ofFinish = true)
    (h : finishCall hash st.objects ino intent writer call = some move)
    (hserves : ∀ row ∈ move.objects.toList, contents.Serves hash row.1 row.2) :
    FlusherKnows hash contents (st.noted .idle move.objects) move.next ∧ move.next.made = none := by
  obtain ⟨hmade, htarget, hvouched⟩ := hknows
  have hgenuine := finish_genuine hvouched hcall (fun key o ho => (hinv.objects key o ho).1) h
  obtain ⟨⟨writer', object⟩, hwriter, rfl⟩ := Option.map_eq_some_iff.mp h
  have hverifies := VerifiedPublishWriter.verifies_finish hvouched hcall hwriter
  dsimp only
  split
  · rename_i result hresult
    cases result with
    | error error =>
      unfold onFinish
      split
      · rename_i heq
        cases heq
      all_goals exact ⟨trivial, rfl⟩
    | ok published =>
      obtain ⟨o, ho, rfl, hdigest⟩ := hverifies.result published hresult
      have hget : (putObject st.objects writer'.rel object)[writer.rel]? = some o := by
        rw [get_putObject, if_pos hverifies.rel, ho]
      have hrow := (Table.mem_rows _ _ _).mpr hget
      refine ⟨⟨intent, o, .of_digest hmade (List.mem_append_left _ hrow) (hgenuine _ o hget)
        (hserves _ hrow) ?_⟩, rfl⟩
      rw [hdigest, htarget]
  · exact ⟨⟨hmade, hverifies.target.trans htarget, hverifies.vouched⟩, rfl⟩

/-! ### Steps of a flush -/

variable {backend : UfsBackend} {action : FlusherAction} {move : FlusherMove} {s : Tables}

/-- A step of a flush looks at something, sends its request or makes a call of `finish`. -/
theorem flusherStep_cases (h : flusherStep hash backend s objects f action = some move) :
    (∃ next, f.look hash backend s objects action = some next ∧ move = ⟨none, objects, next⟩) ∨
    (∃ (rpc : Rpc) (op : MetaOp), f.request? = some op ∧
      move = ⟨if rpc.delivery.arrives then some (rpc.request op) else none, objects,
        f.answered (rpc.call op mapInode s).1⟩) ∨
    ∃ ino intent writer call, f.publish? = some (ino, intent, writer) ∧ call.ofFinish = true ∧
      finishCall hash objects ino intent writer call = some move := by
  cases action with
  | request rpc =>
    obtain ⟨op, hop, h⟩ := Option.bind_eq_some_iff.mp h
    obtain ⟨-, h⟩ := Option.ite_none_right_eq_some.mp h
    cases h
    exact .inr (.inl ⟨rpc, op, hop, rfl⟩)
  | finish call =>
    obtain ⟨⟨ino, intent, writer⟩, hf, h⟩ := Option.bind_eq_some_iff.mp h
    obtain ⟨hcall, h⟩ := Option.ite_none_right_eq_some.mp h
    exact .inr (.inr ⟨ino, intent, writer, call, hf, hcall, h⟩)
  | _ =>
    obtain ⟨next, hnext, rfl⟩ := Option.map_eq_some_iff.mp h
    exact .inl ⟨next, hnext, rfl⟩

theorem getInode_ok {ino : InodeId} {inode : Inode} (h : s.getInode ino = .ok inode) :
    s.inodes.get? ino = some inode := by
  unfold Tables.getInode at h
  split at h
  · cases h
  · rename_i hinode
    cases h
    exact hinode

/-- What a flush knows after it has looked at something. -/
theorem FlusherKnows.look (hinv : WriteBackInv hash contents st)
    (hmax : st.tables.GenerationsBelowMax) (hsizes : st.tables.SizesFit)
    (hreads : ∀ src, action = .digest src → src.Sound contents)
    (hhashed : ∀ bytes ∈ f.hashed action, contents.chunk (hash bytes) = bytes)
    (hknows : FlusherKnows hash contents st f) {next : Flusher}
    (hfresh : ∀ row ∈ next.made, st.intents[row.2.flushId]? = none)
    (h : f.look hash backend st.tables st.objects action = some next) :
    FlusherKnows hash contents (st.noted next objects) next := by
  have hstay : ∀ {g}, some g = some next → FlusherKnows hash contents st g →
      FlusherKnows hash contents (st.noted next objects) next := by
    intro g hg hstill
    cases hg
    exact hstill.noted hfresh
  unfold Flusher.look at h
  split at h
  · -- flushInode
    refine hstay h (.orDone fun inode hinode => ?_)
    have hstored := getInode_ok hinode
    refine .start (knows_of_stored hinv.files.grounded hinv.files.intact hinv.files.sound hmax
      hsizes hstored) fun intent hintent => ?_
    have hmade := (hinv.intents _ inode intent hstored hintent).1
    rwa [← Keyed.key_of_get? hstored] at hmade
  · -- reconcile
    obtain ⟨intent, hintent, hnext⟩ := Option.map_eq_some_iff.mp h
    obtain ⟨inode, hinode, hsome⟩ := Option.bind_eq_some_iff.mp hintent
    exact hstay (congrArg some hnext) (hinv.intents _ inode intent hinode hsome).1
  · exact hstay h (.orDone fun _ => hknows.digestFrom)
  · -- digest
    obtain ⟨hoffset, h⟩ := Option.ite_none_right_eq_some.mp h
    exact hstay h (.orDone fun _ => hknows.digestNext (hreads _ rfl) hoffset)
  · -- makeIntent
    obtain ⟨hdone, h⟩ := Option.ite_none_left_eq_some.mp h
    cases h
    exact hknows.announce hdone (hhashed _ rfl)
  · -- getInode
    refine hstay h (.orDone fun inode hinode => .hold ?_)
    rw [Keyed.key_of_get? (getInode_ok hinode)]
    exact hknows
  · exact hstay h (.orDone fun manifest _ => .snapshot hknows manifest)
  · exact hstay h trivial
  · exact hstay h (.find hinv hknows)
  · exact hstay h (.beginPublish hknows)
  · -- upload
    obtain ⟨-, h⟩ := Option.ite_none_right_eq_some.mp h
    exact hstay h (.orDone fun bytes _ => hknows.uploadNext bytes)
  · exact hstay h (.orDone fun _ _ => hknows)
  · exact hstay h (.orDone fun _ _ => trivial)
  · exact hstay h trivial
  · cases h

/-- What a flush knows after its step, before the request it may have sent takes effect. -/
theorem FlusherKnows.after (hinv : WriteBackInv hash contents st)
    (hmax : st.tables.GenerationsBelowMax) (hsizes : st.tables.SizesFit)
    (hreads : ∀ src, action = .digest src → src.Sound contents)
    (hhashed : ∀ bytes ∈ f.hashed action, contents.chunk (hash bytes) = bytes)
    (hknows : FlusherKnows hash contents st f)
    (hfresh : ∀ row ∈ move.next.made, st.intents[row.2.flushId]? = none)
    (h : flusherStep hash backend st.tables st.objects f action = some move)
    (hserves : ∀ row ∈ move.objects.toList, contents.Serves hash row.1 row.2) :
    FlusherKnows hash contents (st.noted move.next move.objects) move.next := by
  rcases flusherStep_cases h with ⟨next, hnext, rfl⟩ | ⟨rpc, op, -, rfl⟩ |
    ⟨ino, intent, writer, call, hf, hcall, hfinish⟩
  · exact hknows.look hinv hmax hsizes hreads hhashed hfresh hnext
  · exact (hknows.answered _).noted hfresh
  · obtain ⟨hnext, hmade⟩ := (hknows.publish hf).finish hinv hcall hfinish hserves
    rw [WriteBack.noted, hmade]
    exact hnext

end

/-! ## The invariant -/

section
variable {hash : Bytes → ChunkId} {contents : Contents} {backend : UfsBackend}
  {st st' : WriteBack} {f : Nat} {action : FlusherAction}

/-- The bytes of a published object are those of the file that waits for it. -/
theorem Published.content (hinv : WriteBackInv hash contents st) {ino : InodeId} {flushId : FlushId}
    {published : UfsObject} {intent : FlushIntent} {object : StoredObject}
    (h : Published hash contents st ino flushId published intent object) {i : Inode}
    {waits : FlushIntent} (hi : st.tables.inodes.get? ino = some i)
    (hwaits : i.flushIntent = some waits) (hid : waits.flushId = flushId) :
    waits = intent ∧ object.data = st.tables.content contents i := by
  obtain ⟨hmade, hchunk⟩ := hinv.intents ino i waits hi hwaits
  rw [hid, h.made, Option.some.injEq] at hmade
  obtain rfl : intent = waits := congrArg Prod.snd hmade
  refine ⟨rfl, ?_⟩
  rw [← hchunk, ← h.target]
  exact h.serves.digest.symm

/-- A flush ends well only with the bytes of the file. -/
theorem publishesContent_of_knows (hinv : WriteBackInv hash contents st) {ino : InodeId}
    {flushId : FlushId} {published : UfsObject} {rounds : Nat} {generation : Generation}
    (h : FlusherKnows hash contents st (.sending ino flushId published rounds generation)) :
    (MetaOp.commitFlush generation ino flushId published).PublishesContent contents st.tables := by
  obtain ⟨intent, object, hpublished⟩ := h
  intro i hi waits hwaits hid pos hpos
  obtain ⟨-, hdata⟩ := hpublished.content hinv hi hwaits hid
  have hversion := hpublished.serves.version
  rw [← hpublished.pinned, hdata, Tables.content, fileRange_zero, List.length_map,
    List.length_range] at hversion
  exact List.map_inj_left.mp hversion pos (List.mem_range.mpr hpos)

/-- What a step of a flush does, part by part. -/
theorem flush_step (h : writeBackStep hash backend st (.flush f action) = some st') :
    ∃ move, flusherStep hash backend st.tables st.objects (st.flusher f) action = some move ∧
      (∀ row ∈ move.next.made, st.intents[row.2.flushId]? = none) ∧
      (st'.files = st.files ∨ ∃ r, move.sent = some r ∧
        fileStep hash st.files (.cluster (.request r)) = some st'.files) ∧
      st' = { st.noted move.next move.objects with
        files := st'.files
        flushers := st.flushers.insert f move.next } := by
  obtain ⟨move, hmove, h⟩ := Option.bind_eq_some_iff.mp h
  obtain ⟨files, hfiles, h⟩ := Option.bind_eq_some_iff.mp h
  obtain ⟨hfresh, h⟩ := Option.ite_none_right_eq_some.mp h
  cases h
  refine ⟨move, hmove, hfresh, ?_, rfl⟩
  cases hsent : move.sent with
  | none =>
    rw [hsent] at hfiles
    exact .inl (Option.some.inj hfiles).symm
  | some r =>
    rw [hsent] at hfiles
    exact .inr ⟨r, rfl, hfiles⟩

/-- Only the request of a flush is sent. -/
theorem request_of_sent {g : Flusher} {move : FlusherMove} {r : MetaRequest}
    (h : flusherStep hash backend st.tables st.objects g action = some move)
    (hr : move.sent = some r) : g.request? = some r.req.op := by
  rcases flusherStep_cases h with ⟨next, -, rfl⟩ | ⟨rpc, op, hop, rfl⟩ |
    ⟨ino, intent, writer, call, -, -, hfinish⟩
  · cases hr
  · obtain ⟨-, hr⟩ := Option.ite_none_right_eq_some.mp hr
    cases hr
    exact hop
  · obtain ⟨_, -, rfl⟩ := Option.map_eq_some_iff.mp hfinish
    cases hr

/-- The requests of flushes are as clients build them. -/
theorem allowed_of_request (hinv : WriteBackInv hash contents st)
    (hmax : st.tables.GenerationsBelowMax) (hsizes : st.tables.SizesFit) {r : MetaRequest}
    {g : Flusher} (hknows : FlusherKnows hash contents st g) (hop : g.request? = some r.req.op) :
    r.req.op.flush? ≠ none ∧
      (FileAction.cluster (.request r)).Allowed hash contents st.files := by
  simp only [FileAction.Allowed, ClusterAction.Issued]
  generalize r.req.op = op at hop
  cases g with
  | announcing | failing =>
    cases hop
    exact ⟨Option.some_ne_none _, hmax, hsizes, trivial, MetaOp.carriesSound_of_none rfl, trivial⟩
  | sending =>
    cases hop
    exact ⟨Option.some_ne_none _, hmax, hsizes, trivial, MetaOp.carriesSound_of_none rfl,
      publishesContent_of_knows hinv hknows⟩
  | _ => cases hop

theorem MetaOp.commit_none_of_flush {op : MetaOp} (h : op.flush? ≠ none) : op.commit? = none := by
  cases op with
  | commitInodeManifest | commitInodeManifestReserved => exact absurd rfl h
  | _ => rfl

theorem request_tables {files files' : FileState} {r : MetaRequest}
    (h : fileStep hash files (.cluster (.request r)) = some files') :
    files'.tables = (applyRaftRequest r.now r.req files.tables).2 := by
  rw [fileStep] at h
  obtain ⟨-, h⟩ := Option.ite_none_left_eq_some.mp h
  obtain ⟨next, hnext, rfl⟩ := Option.map_eq_some_iff.mp h
  obtain ⟨-, hnext⟩ := Option.ite_none_right_eq_some.mp hnext
  cases hnext
  rfl

/-- A request of a flush changes no byte of any file. -/
theorem keeps_of_request (hinv : WriteBackInv hash contents st) {r : MetaRequest}
    (hflush : r.req.op.flush? ≠ none)
    (hallowed : (FileAction.cluster (.request r)).Allowed hash contents st.files) :
    KeepsContents contents st.tables (applyRaftRequest r.now r.req st.tables).2 := by
  obtain ⟨-, -, hissued, hcarries, hpublish⟩ := hallowed
  exact .request hinv.files.grounded hinv.files.intact hinv.files.sound hissued hcarries
    (MetaOp.commit_none_of_flush hflush) hpublish

/-- A flush leaves the files as they are or sends its request. -/
theorem flush_request (hinv : WriteBackInv hash contents st)
    (hallowed : (WriteBackAction.flush f action).Allowed hash backend contents st)
    (h : writeBackStep hash backend st (.flush f action) = some st') :
    st'.files = st.files ∨ ∃ r, (st.flusher f).request? = some r.req.op ∧
      r.req.op.flush? ≠ none ∧
      (FileAction.cluster (.request r)).Allowed hash contents st.files ∧
      fileStep hash st.files (.cluster (.request r)) = some st'.files := by
  obtain ⟨move, hmove, -, hfiles, -⟩ := flush_step h
  rcases hfiles with hsame | ⟨r, hr, hstep⟩
  · exact .inl hsame
  · have hop := request_of_sent hmove hr
    obtain ⟨hflush, hok⟩ :=
      allowed_of_request hinv hallowed.1 hallowed.2.1 (hinv.flushers f) hop
    exact .inr ⟨r, hop, hflush, hok, hstep⟩

/-- Intents that stay are still those of the bytes of their files. -/
theorem WriteBack.IntentsRight.stay {s t : Tables} (h : st.IntentsRight contents s)
    (hstay : IntentsStay contents s t) : st.IntentsRight contents t := by
  intro id j intent hj hintent
  obtain ⟨i, hi, hsame, hbytes⟩ := hstay id j intent hj hintent
  obtain ⟨hmade, hchunk⟩ := h id i intent hi hsame
  exact ⟨hmade, hchunk.trans hbytes.symm⟩

theorem WriteBack.IntentsRight.frame {s : Tables} (h : st.IntentsRight contents s)
    (hintents : ∀ (id : FlushId) row, st.intents[id]? = some row → st'.intents[id]? = some row) :
    st'.IntentsRight contents s :=
  fun id i intent hi hintent =>
    ⟨hintents _ _ (h id i intent hi hintent).1, (h id i intent hi hintent).2⟩

/-- The record that an intent is written to is the one that was read. -/
theorem chunk_of_begin (hinv : WriteBackInv hash contents st) {g : Flusher} {i : Inode}
    {intent : FlushIntent} (hknows : FlusherKnows hash contents st g)
    (hop : g.request? = some (.beginFlush i.generation i.id intent))
    (hi : st.tables.inodes.get? i.id = some i) :
    st.intents[intent.flushId]? = some (i.id, intent) ∧
      contents.chunk intent.targetDigest = st.tables.content contents i := by
  cases g with
  | announcing inode made =>
    injection Option.some.inj hop with hgen hid hintent
    subst hintent
    obtain ⟨hmade, manifest, hknown, hchunk⟩ := hknows
    rw [← hid] at hi
    obtain rfl : i = inode := hknown.known.current hi hgen.symm
    exact ⟨hmade, hchunk.trans (hknown.content hinv.files.intact hi).symm⟩
  | sending | failing => cases hop
  | _ => cases hop

/-- A request of a flush leaves the intents right. -/
theorem intents_of_request (hinv : WriteBackInv hash contents st) {g : Flusher} {r : MetaRequest}
    (hknows : FlusherKnows hash contents st g) (hop : g.request? = some r.req.op)
    (hflush : r.req.op.flush? ≠ none)
    (hkeeps : KeepsContents contents st.tables (applyRaftRequest r.now r.req st.tables).2) :
    st.IntentsRight contents (applyRaftRequest r.now r.req st.tables).2 := by
  obtain ⟨before, after, o, ho, hafter⟩ := request_flush (s := st.tables) r.now hflush
  rw [hafter] at hkeeps ⊢
  have hcontent := hkeeps.content
  generalize r.req.op = op at ho hop
  cases ho with
  | refused => exact hinv.intents
  | @begun i fields new hi =>
    obtain ⟨hmade, hchunk⟩ := chunk_of_begin hinv hknows hop hi
    intro id j intent hj hintent
    have hget := hj
    rw [Tables.putInode, Keyed.get?_put] at hget
    split at hget
    · rename_i hid
      cases hget
      cases hintent
      subst hid
      exact ⟨hmade, hchunk.trans (hcontent _ i _ hi hj).symm⟩
    · obtain ⟨hold, hbytes⟩ := hinv.intents id j intent hget hintent
      exact ⟨hold, hbytes.trans (hcontent id j j hget hj).symm⟩
  | emptied | published | superseded | failed =>
    exact hinv.intents.stay (.put rfl (fun id j _ hi hj => hcontent id j j hi hj) rfl)

theorem WriteBackInv.fresh (now : Int) : WriteBackInv hash contents (WriteBack.fresh now) where
  files := FileInv.fresh now
  intents id i intent hi hintent := by
    rw [(Tables.of_get_fresh hi).2] at hintent
    cases hintent
  objects key object h := by simp [WriteBack.fresh] at h
  flushers f := by simp [WriteBack.fresh, WriteBack.flusher, FlusherKnows]

/-- A step of the files that is no part of a flush is allowed among the files. -/
theorem allowed_file {a : FileAction}
    (h : (WriteBackAction.file a).Allowed hash backend contents st) (hflushes : ¬ a.flushes = true) :
    a.Allowed hash contents st.files ∧ ∀ action, a = .cluster action → action.Unflushed := by
  obtain ⟨hmax, hsizes, -, h⟩ := h
  cases a with
  | plan => exact ⟨⟨hmax, hsizes, h⟩, fun action heq => by cases heq⟩
  | cluster action =>
    cases action with
    | request r =>
      obtain ⟨hissued, hcarries, htemplate⟩ := h
      have hflush : r.req.op.flush? = none := Option.not_isSome_iff_eq_none.mp hflushes
      have hpublish : r.req.op.PublishesContent contents st.tables := by
        cases hop : r.req.op with
        | commitFlush =>
          rw [hop] at hflush
          cases hflush
        | _ => trivial
      refine ⟨⟨hmax, hsizes, hissued, hcarries, hpublish⟩, fun action heq => ?_⟩
      cases heq
      exact ⟨hflush, htemplate⟩
    | writer | pass | sweep | repair =>
      refine ⟨⟨hmax, hsizes, trivial⟩, fun action heq => ?_⟩
      cases heq
      trivial

theorem WriteBackInv.file {a : FileAction} (hinv : WriteBackInv hash contents st)
    (hallowed : (WriteBackAction.file a).Allowed hash backend contents st)
    (hreads : a.ReadsRight contents) (h : writeBackStep hash backend st (.file a) = some st') :
    WriteBackInv hash contents st' := by
  obtain ⟨hflushes, h⟩ := Option.ite_none_left_eq_some.mp h
  obtain ⟨files, hfiles, rfl⟩ := Option.map_eq_some_iff.mp h
  obtain ⟨hfile, hquiet⟩ := allowed_file hallowed hflushes
  have hstays := FlushStays.file hinv.files hfile hquiet hfiles
  refine ⟨hinv.files.step hfile hreads hfiles, hinv.intents.stay hstays.intent, hinv.objects,
    fun f => ?_⟩
  exact (hinv.flushers f).frame (fun _ _ => knows_fileStep hinv.files hfile hfiles)
    (fun _ _ hmade => hmade) (fun _ hrow => hrow)

/-- The files after a step of a flush. -/
theorem flush_files (hinv : WriteBackInv hash contents st)
    (hallowed : (WriteBackAction.flush f action).Allowed hash backend contents st)
    (h : writeBackStep hash backend st (.flush f action) = some st') :
    FileInv hash contents st'.files ∧ st.IntentsRight contents st'.files.tables ∧
    ∀ basis old, Knows st.tables basis old → Knows st'.files.tables basis old := by
  rcases flush_request hinv hallowed h with hsame | ⟨r, hop, hflush, hok, hstep⟩
  · rw [hsame]
    exact ⟨hinv.files, hinv.intents, fun _ _ hold => hold⟩
  · refine ⟨hinv.files.step hok trivial hstep, ?_,
      fun _ _ => knows_fileStep hinv.files hok hstep⟩
    rw [request_tables hstep]
    exact intents_of_request hinv (hinv.flushers f) hop hflush (keeps_of_request hinv hflush hok)

theorem WriteBackInv.flush (hinv : WriteBackInv hash contents st)
    (hallowed : (WriteBackAction.flush f action).Allowed hash backend contents st)
    (hreads : (WriteBackAction.flush f action).ReadsRight contents)
    (h : writeBackStep hash backend st (.flush f action) = some st') :
    WriteBackInv hash contents st' := by
  obtain ⟨hinv', hintents, hknows⟩ := flush_files hinv hallowed h
  obtain ⟨hmax, hsizes, hserves, hhashed⟩ := hallowed
  replace hserves := hserves st' h
  obtain ⟨move, hmove, hfresh, -, hst'⟩ := flush_step h
  have hflusher := hinv.flushers f
  have hafter := hflusher.after hinv hmax hsizes (fun src heq => by rw [heq] at hreads; exact hreads)
    hhashed hfresh hmove (by rw [hst'] at hserves; exact hserves)
  generalize st'.files = files at hinv' hknows hintents hst'
  subst hst'
  have hother : ∀ {g}, FlusherKnows hash contents (st.noted move.next move.objects) g →
      FlusherKnows hash contents { st.noted move.next move.objects with
        files := files
        flushers := st.flushers.insert f move.next } g :=
    fun hg => hg.frame hknows (fun _ _ hmade => hmade) (fun _ hrow => hrow)
  refine ⟨hinv', hintents.frame fun _ _ => WriteBack.noted_intents hfresh move.objects,
    fun key object hobject => ?_, fun g => ?_⟩
  · have hrow := (Table.mem_rows _ _ _).mpr hobject
    refine ⟨?_, hserves _ hrow, List.mem_append_left _ hrow⟩
    rcases flusherStep_cases hmove with ⟨next, -, rfl⟩ | ⟨rpc, op, -, rfl⟩ |
      ⟨ino, intent, writer, call, hf, hcall, hfinish⟩
    · exact (hinv.objects key object hobject).1
    · exact (hinv.objects key object hobject).1
    · exact finish_genuine (hflusher.publish hf).2.2 hcall
        (fun key o ho => (hinv.objects key o ho).1) hfinish key object hobject
  · show FlusherKnows hash contents _ (((st.flushers.insert f move.next)[g]?).getD .idle)
    rw [Table.get_insert]
    split
    · exact hother hafter
    · exact hother ((hinv.flushers g).noted hfresh)

theorem WriteBackInv.external {key : String} {object : Option StoredObject}
    (hinv : WriteBackInv hash contents st)
    (hallowed : (WriteBackAction.external key object).Allowed hash backend contents st)
    (h : writeBackStep hash backend st (.external key object) = some st') :
    WriteBackInv hash contents st' := by
  obtain ⟨-, -, hserves, hgenuine⟩ := hallowed
  replace hserves := hserves st' h
  cases h
  refine ⟨hinv.files, hinv.intents, fun k o ho => ?_,
    fun f => (hinv.flushers f).noted fun row hrow => by cases hrow⟩
  have hrow := (Table.mem_rows _ _ _).mpr ho
  refine ⟨?_, hserves _ hrow, List.mem_append_left _ hrow⟩
  rw [WriteBack.noted, get_putObject] at ho
  split at ho
  · exact hgenuine o ho
  · exact (hinv.objects k o ho).1

/-- What every step of a run keeps. -/
theorem WriteBackInv.step {a : WriteBackAction} (hinv : WriteBackInv hash contents st)
    (hallowed : a.Allowed hash backend contents st) (hreads : a.ReadsRight contents)
    (h : writeBackStep hash backend st a = some st') : WriteBackInv hash contents st' := by
  cases a with
  | file a => exact hinv.file hallowed hreads h
  | flush f action => exact hinv.flush hallowed hreads h
  | external key object => exact hinv.external hallowed h

theorem WriteBackInv.run {actions : List WriteBackAction} (hinv : WriteBackInv hash contents st)
    (hallowed : Along (writeBackStep hash backend)
      (fun st a => a.Allowed hash backend contents st) st actions)
    (hreads : ∀ a ∈ actions, a.ReadsRight contents)
    (hrun : exec (writeBackStep hash backend) st actions = some st') :
    WriteBackInv hash contents st' :=
  exec_invariant_along (fun _ _ _ hinv hok hstep => hinv.step hok.1 hok.2 hstep) actions st st' hinv
    (hallowed.and_mem hreads) hrun

end

/-! ## Files that become clean -/

section
variable {hash : Bytes → ChunkId} {contents : Contents} {backend : UfsBackend}
  {st st' : WriteBack} {id : InodeId} {i j : Inode}

end

/-- The edit of the file `id` that a step commits. -/
def WriteBackAction.commits (id : InodeId) (st : WriteBack) : WriteBackAction → Option FileEdit
  | .file action => action.commits id st.files
  | .flush .. | .external .. => none

/-- The edit of the file `id` whose call returns `Ok` in a step. -/
def WriteBackAction.acknowledges (id : InodeId) (st : WriteBack) :
    WriteBackAction → Option FileEdit
  | .file action => action.acknowledges id st.files
  | .flush .. | .external .. => none

section
variable {hash : Bytes → ChunkId} {contents : Contents} {backend : UfsBackend}
  {st st' : WriteBack} {id : InodeId}

end

end FluxFS
