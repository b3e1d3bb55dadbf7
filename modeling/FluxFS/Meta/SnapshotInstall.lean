import FluxFS.Meta.Snapshot

/-!
# SnapshotInstall — what an installed snapshot leaves behind

An export is a magic, a version and a sequence of frames that ends in the
one `finish` record. A reader that is given less than all of it never sees
that record (`truncated_snapshot_not_installed`); one that is given all of
it rebuilds every table (`snapshot_round_trip`), except that ledger times of
0 are filled in from the reader's clock.
-/

namespace FluxFS

open Std Kit

section
variable {codec : SnapshotCodec} {now : Nat}
variable {records : List SnapshotRecord} {record : SnapshotRecord} {src : DiskStore}

/-! ## Frames -/

/-- The codec writes the record within the length field and reads it back. -/
def SnapshotCodec.Carries (codec : SnapshotCodec) (record : SnapshotRecord) : Prop :=
  (codec.encode record).length ≤ u32Max ∧ codec.decode (codec.encode record) = .ok record

/-- The bytes of a list of records. -/
def frames (codec : SnapshotCodec) (records : List SnapshotRecord) : Bytes :=
  records.flatMap fun record => frame (codec.encode record)

theorem frames_cons (record : SnapshotRecord) (records : List SnapshotRecord) :
    frames codec (record :: records) = frame (codec.encode record) ++ frames codec records := rfl

/-- What was written are records, each within the length field. -/
theorem writeRecords_ok {items : List (Except FluxError SnapshotRecord)} {bytes : Bytes}
    (h : writeRecords codec items = .ok bytes) :
    ∃ records : List SnapshotRecord, items = records.map .ok ∧ bytes = frames codec records ∧
      ∀ r ∈ records, (codec.encode r).length ≤ u32Max := by
  induction items generalizing bytes with
  | nil =>
    cases h
    exact ⟨[], rfl, rfl, by simp⟩
  | cons item items ih =>
    cases item with
    | error e => cases h
    | ok record =>
      simp only [writeRecords, writeRecord] at h
      by_cases hlen : (codec.encode record).length > u32Max
      · simp [hlen, bind, Except.bind] at h
      · cases hrest : writeRecords codec items with
        | error e => simp [hlen, hrest, bind, Except.bind] at h
        | ok rest =>
          simp only [hlen, hrest, if_false, bind, Except.bind, pure, Except.pure,
            Except.ok.injEq] at h
          obtain ⟨records, rfl, rfl, hsizes⟩ := ih hrest
          refine ⟨record :: records, rfl, h.symm, ?_⟩
          rintro r (_ | ⟨_, hr⟩)
          · exact Nat.not_lt.mp hlen
          · exact hsizes r hr

theorem writeRecords_map_ok (h : ∀ r ∈ records, (codec.encode r).length ≤ u32Max) :
    writeRecords codec (records.map .ok) = .ok (frames codec records) := by
  induction records with
  | nil => rfl
  | cons record records ih =>
    obtain ⟨hrecord, hrecords⟩ := List.forall_mem_cons.mp h
    simp [writeRecords, writeRecord, ih hrecords, Nat.not_lt.mpr hrecord, bind, Except.bind, pure,
      Except.pure, frames_cons]

/-! ## The install loop -/

/-- Install records one after the other. -/
def installRecords (now : Nat) (st : InstallState) :
    List SnapshotRecord → Except FluxError InstallState
  | [] => .ok st
  | record :: records => (installRecord now st record).bind (installRecords now · records)

theorem readRecord_frame (h : codec.Carries record) (rest : Bytes) :
    readRecord codec (frame (codec.encode record) ++ rest) = .ok (some (record, rest)) := by
  rw [readRecord, readFrame_frame h.1]
  dsimp only
  rw [h.2]

/-- Only the `finish` record ends the loop. -/
theorem sawEnd_installRecord {st st' : InstallState} (hrecord : record ≠ .finish)
    (h : installRecord now st record = .ok st') : st'.sawEnd = st.sawEnd := by
  cases record with
  | finish => exact absurd rfl hrecord
  | openPresence inode sessionId =>
    cases hcheck : validateSessionId sessionId with
    | error e => simp [installRecord, hcheck, bind, Except.bind] at h
    | ok _ =>
      simp only [installRecord, hcheck, bind, Except.bind, pure, Except.pure,
        Except.ok.injEq] at h
      rw [← h]
  | _ =>
    cases h
    rfl

theorem installLoop_frame (h : codec.Carries record) (rest : Bytes) (st : InstallState) :
    installLoop codec now (frame (codec.encode record) ++ rest) st =
      (installRecord now st record).bind fun st =>
        if st.sawEnd then .ok st else installLoop codec now rest st := by
  rw [installLoop]
  split
  · rename_i hread
    rw [readRecord_frame h] at hread
    cases hread
  · rename_i hread
    rw [readRecord_frame h] at hread
    cases hread
  · rename_i hread
    rw [readRecord_frame h] at hread
    cases hread
    cases installRecord now st record with
    | error e => rfl
    | ok st' => rfl

/-- On a whole stream the loop installs its records. -/
theorem installLoop_frames (hcarries : ∀ r ∈ records ++ [SnapshotRecord.finish], codec.Carries r)
    (hbody : ∀ r ∈ records, r ≠ .finish) {st : InstallState} (hst : st.sawEnd = false) :
    installLoop codec now (frames codec (records ++ [SnapshotRecord.finish])) st =
      (installRecords now st records).map fun st => { st with sawEnd := true } := by
  induction records generalizing st with
  | nil =>
    rw [List.nil_append, frames_cons, installLoop_frame (hcarries _ (by simp))]
    rfl
  | cons record records ih =>
    obtain ⟨hrecord, hrecords⟩ := List.forall_mem_cons.mp hbody
    rw [List.cons_append, frames_cons, installLoop_frame (hcarries _ (by simp)), installRecords]
    cases hinstall : installRecord now st record with
    | error e => rfl
    | ok st' =>
      have hst' := (sawEnd_installRecord hrecord hinstall).trans hst
      show (if st'.sawEnd = true then _ else _) = (installRecords now st' records).map _
      rw [hst', if_neg (by decide)]
      exact ih (fun r hr => hcarries r (List.mem_cons_of_mem _ hr)) hrecords hst'

/-- A cut frame is not read as a record. -/
theorem readRecord_of_strictPrefix (h : codec.Carries record) {short : Bytes}
    (hshort : StrictPrefix short (frame (codec.encode record))) (read : SnapshotRecord × Bytes) :
    readRecord codec short ≠ .ok (some read) := by
  rcases readFrame_of_strictPrefix h.1 hshort with heof | hcut
  · simp [readRecord, heof]
  · simp [readRecord, hcut]

/-- A stream that stops inside its first frame: the loop reads nothing. -/
theorem installLoop_cut (hrecord : codec.Carries record) {short : Bytes}
    (hshort : StrictPrefix short (frame (codec.encode record))) {st st' : InstallState}
    (hst : st.sawEnd = false) (h : installLoop codec now short st = .ok st') :
    st'.sawEnd = false := by
  rw [installLoop] at h
  split at h
  · cases h
  · cases h
    exact hst
  · rename_i hread
    exact absurd hread (readRecord_of_strictPrefix hrecord hshort _)

/-- On a stream that stops early the loop fails or does not see the end. -/
theorem installLoop_strictPrefix
    (hcarries : ∀ r ∈ records ++ [SnapshotRecord.finish], codec.Carries r)
    (hbody : ∀ r ∈ records, r ≠ .finish) {st st' : InstallState} (hst : st.sawEnd = false)
    {short : Bytes}
    (hshort : StrictPrefix short (frames codec (records ++ [SnapshotRecord.finish])))
    (h : installLoop codec now short st = .ok st') : st'.sawEnd = false := by
  induction records generalizing st short with
  | nil =>
    rw [List.nil_append, frames_cons] at hshort
    rcases strictPrefix_append hshort with hin | ⟨later, -, hlater⟩
    · exact installLoop_cut (hcarries _ (by simp)) hin hst h
    · exact absurd hlater.length_lt (by simp [frames])
  | cons record records ih =>
    obtain ⟨hrecord, hrecords⟩ := List.forall_mem_cons.mp hbody
    rw [List.cons_append, frames_cons] at hshort
    rcases strictPrefix_append hshort with hin | ⟨later, rfl, hlater⟩
    · exact installLoop_cut (hcarries _ (by simp)) hin hst h
    · rw [installLoop_frame (hcarries _ (by simp))] at h
      cases hinstall : installRecord now st record with
      | error e => simp [hinstall, Except.bind] at h
      | ok next =>
        have hnext := (sawEnd_installRecord hrecord hinstall).trans hst
        simp only [hinstall, Except.bind, hnext, Bool.false_eq_true, if_false] at h
        exact ih (fun r hr => hcarries r (List.mem_cons_of_mem _ hr)) hrecords hnext hlater h

/-! ## Rebuilding the tables -/

/-- The records of an export before its end. -/
def snapshotRecords (sm : SmAppliedMeta) (disk : DiskStore) : List SnapshotRecord :=
  List.flatten [
    [.header (snapshotHeader sm disk)],
    disk.inodes.rows.map .inode,
    disk.dentries.toList.map fun row => .dentry row.1.owner row.1.name row.2,
    disk.manifests.toList.map fun row => .manifest row.1 row.2,
    disk.xattrs.toList.map fun row => .xattr row.1.owner row.1.name row.2,
    disk.openPresence.toList.map fun row => .openPresence row.1.owner row.1.name,
    disk.clientRequests.toList.map ledgerRecord,
    disk.reservations.rows.map .reservation,
    disk.listTombstones.map .deleteTombstone]

/-- The stored presence rows carry valid session ids. -/
def DiskStore.SessionsValid (disk : DiskStore) : Prop :=
  ∀ row ∈ disk.openPresence.toList, validateSessionId row.1.name = .ok ()

theorem exportItems_eq (sm : SmAppliedMeta) {disk : DiskStore} (h : disk.SessionsValid) :
    exportItems sm disk = (snapshotRecords sm disk ++ [SnapshotRecord.finish]).map .ok := by
  have hpresence : disk.openPresence.toList.map (fun row => presenceRecord row.1) =
      disk.openPresence.toList.map
        (fun row => Except.ok (.openPresence row.1.owner row.1.name)) := by
    refine List.map_congr_left fun row hrow => ?_
    rw [presenceRecord, h row hrow]
    rfl
  rw [exportItems, hpresence]
  simp [snapshotRecords, Function.comp_def]

/-- An export that succeeded found valid session ids. -/
theorem sessionsValid_of_exportItems {sm : SmAppliedMeta} {disk : DiskStore}
    (h : exportItems sm disk = records.map .ok) : disk.SessionsValid := by
  intro row hrow
  have hmem : presenceRecord row.1 ∈ exportItems sm disk := by
    simp only [exportItems, List.flatten_cons, List.mem_append]
    exact .inr (.inr (.inr (.inr (.inr (.inl (List.mem_map_of_mem hrow))))))
  rw [h, List.mem_map] at hmem
  obtain ⟨record, -, hok⟩ := hmem
  cases hcheck : validateSessionId row.1.name with
  | error e => simp [presenceRecord, hcheck, bind, Except.bind] at hok
  | ok _ => rfl

theorem ne_finish_of_mem {sm : SmAppliedMeta} {disk : DiskStore} {r : SnapshotRecord}
    (h : r ∈ snapshotRecords sm disk) : r ≠ .finish := by
  rintro rfl
  simp only [snapshotRecords, List.flatten_cons, List.flatten_nil, List.mem_append, List.mem_map,
    List.mem_singleton, List.not_mem_nil, ledgerRecord, reduceCtorEq, and_false, exists_false,
    or_self] at h

/-- Records of one kind are installed by a fold over the table they go to. -/
theorem installRecords_field {α τ : Type} (field : Field InstallState τ) (g : τ → α → τ)
    {mk : α → SnapshotRecord} {xs : List α}
    (hmk : ∀ st, ∀ x ∈ xs, installRecord now st (mk x) = .ok (field.set (g (field.get st) x) st))
    (st : InstallState) (rest : List SnapshotRecord) :
    installRecords now st (xs.map mk ++ rest) =
      installRecords now (field.set (xs.foldl g (field.get st)) st) rest := by
  induction xs generalizing st with
  | nil =>
    show installRecords now st rest = installRecords now (field.set (field.get st) st) rest
    rw [field.set_get]
  | cons x xs ih =>
    rw [List.map_cons, List.cons_append, installRecords, hmk st x List.mem_cons_self]
    have hrest := ih (fun st y hy => hmk st y (List.mem_cons_of_mem x hy))
      (field.set (g (field.get st) x) st)
    rw [field.get_set, field.set_set] at hrest
    exact hrest

/-- The ledger entry a row has after it was sent and received. -/
def refill (now : Nat) (entry : ClientRequestLedgerEntry) : ClientRequestLedgerEntry :=
  installedLedgerEntry now entry.response entry.expiresAtUnixMs entry.createdAtUnixMs

/-- Times that are set are kept. -/
theorem refill_of_stamped {entry : ClientRequestLedgerEntry} (hcreated : entry.createdAtUnixMs ≠ 0)
    (hexpires : entry.expiresAtUnixMs ≠ 0) : refill now entry = entry := by
  simp [refill, installedLedgerEntry, hcreated, hexpires]

/-- Times of 0 are filled in, so a row that comes through unchanged has both. -/
theorem stamped_of_refill {entry : ClientRequestLedgerEntry} (hnow : now ≠ 0)
    (h : refill now entry = entry) : entry.createdAtUnixMs ≠ 0 ∧ entry.expiresAtUnixMs ≠ 0 := by
  constructor
  · intro hzero
    have hcreated := congrArg (·.createdAtUnixMs) h
    simp [refill, installedLedgerEntry, hzero, hnow] at hcreated
  · intro hzero
    have hexpires := congrArg (·.expiresAtUnixMs) h
    simp only [refill, installedLedgerEntry, hzero, if_true, saturatingAdd] at hexpires
    have hretention : 0 < clientRequestRetentionMs := by decide
    have hmax : 0 < u64Max := by decide
    omega

/-- The store an install leaves, whatever was there before. -/
def DiskStore.received (now : Nat) (sm : SmAppliedMeta) (src : DiskStore) : DiskStore :=
  { src with
    tombstones := Table.insertAll ∅ (src.listTombstones.map fun t => (t.chunk, .tombstone t))
    clientRequests := Table.mapValues (fun row => .entry (refill now row.decode)) src.clientRequests
    workerMembership := some (src.workerMembership.getD .default)
    sm := .putSmMetaRaw sm }

/-- Installing an export into an emptied store rebuilds the exported one. -/
theorem installRecords_snapshot (sm : SmAppliedMeta) (h : src.SessionsValid) (target : DiskStore) :
    installRecords now ⟨target.cleared, none, false⟩ (snapshotRecords sm src) =
      .ok ⟨src.received now sm, some sm, false⟩ := by
  have hpresence (st : InstallState) (row : NameKey × Unit) (hrow : row ∈ src.openPresence.toList) :
      installRecord now st (.openPresence row.1.owner row.1.name) =
        .ok { st with disk.openPresence := st.disk.openPresence.insert row.1 row.2 } := by
    rw [installRecord, h row hrow]
    rfl
  rw [snapshotRecords]
  simp only [List.flatten_cons, List.flatten_nil, List.singleton_append]
  rw [installRecords, installRecord, Except.bind]
  rw [installRecords_field
      { get := fun st => st.disk.inodes, set := fun a st => { st with disk.inodes := a } }
      Keyed.put (fun _ _ _ => rfl),
    installRecords_field
      { get := fun st => st.disk.dentries, set := fun a st => { st with disk.dentries := a } }
      (fun t row => t.insert row.1 row.2) (fun _ _ _ => rfl),
    installRecords_field
      { get := fun st => st.disk.manifests, set := fun a st => { st with disk.manifests := a } }
      (fun t row => t.insert row.1 row.2) (fun _ _ _ => rfl),
    installRecords_field
      { get := fun st => st.disk.xattrs, set := fun a st => { st with disk.xattrs := a } }
      (fun t row => t.insert row.1 row.2) (fun _ _ _ => rfl),
    installRecords_field
      { get := fun st => st.disk.openPresence
        set := fun a st => { st with disk.openPresence := a } }
      (fun t row => t.insert row.1 row.2) hpresence,
    installRecords_field
      { get := fun st => st.disk.clientRequests
        set := fun a st => { st with disk.clientRequests := a } }
      (fun t row => t.insert row.1 (.entry (refill now row.2.decode))) (fun _ _ _ => rfl),
    installRecords_field
      { get := fun st => st.disk.reservations
        set := fun a st => { st with disk.reservations := a } }
      Keyed.put (fun _ _ _ => rfl),
    installRecords_field
      { get := fun st => st.disk.tombstones, set := fun a st => { st with disk.tombstones := a } }
      (fun t x => t.insert x.chunk (.tombstone x)) (fun _ _ _ => rfl)]
  have hinodes : src.inodes.rows.foldl Keyed.put .empty = src.inodes := Keyed.ofRows_rows _
  have hdentries : src.dentries.toList.foldl (fun t row => t.insert row.1 row.2) ∅ = src.dentries :=
    Table.insertAll_toList _
  have hmanifests : src.manifests.toList.foldl (fun t row => t.insert row.1 row.2) ∅ =
      src.manifests := Table.insertAll_toList _
  have hxattrs : src.xattrs.toList.foldl (fun t row => t.insert row.1 row.2) ∅ = src.xattrs :=
    Table.insertAll_toList _
  have hopen : src.openPresence.toList.foldl (fun t row => t.insert row.1 row.2) ∅ =
      src.openPresence := Table.insertAll_toList _
  have hreservations : src.reservations.rows.foldl Keyed.put .empty = src.reservations :=
    Keyed.ofRows_rows _
  have hledger : src.clientRequests.toList.foldl
      (fun t row => t.insert row.1 (LedgerRow.entry (refill now row.2.decode))) ∅ =
      Table.mapValues (fun row => .entry (refill now row.decode)) src.clientRequests := by
    rw [Table.mapValues, Table.insertAll, List.foldl_map]
  have htombstones : src.listTombstones.foldl
      (fun t x => t.insert x.chunk (TombstoneRow.tombstone x)) ∅ =
      Table.insertAll ∅ (src.listTombstones.map fun t => (t.chunk, .tombstone t)) := by
    rw [Table.insertAll, List.foldl_map]
  simp only [installRecords, DiskStore.cleared, DiskStore.received, snapshotHeader, hinodes,
    hdentries, hmanifests, hxattrs, hopen, hreservations, hledger, htombstones]

/-! ## Reading the installed store -/

/-- Tombstones that are all stored in full are read back. -/
theorem ofRows_tombstones {rows : Table ChunkId TombstoneRow} {t : Keyed GcTombstone.chunk}
    (h : ∀ c : ChunkId, rows[c]? = (t.table[c]?).map .tombstone) :
    Keyed.ofRows (rows.toList.map fun row => row.2.decode row.1) = t := by
  have hrows : rows = Table.mapValues .tombstone t.table := by
    refine ExtTreeMap.ext_getElem? fun c => ?_
    rw [h, Table.get_mapValues]
  rw [hrows, Table.toList_mapValues, List.map_map]
  exact Keyed.ofRows_rows t

/-- An installed store reads as the exported one, with the ledger times filled in. -/
theorem decoded_received (sm : SmAppliedMeta) (src : DiskStore) :
    (src.received now sm).decoded =
      { src.decoded with
        clientRequests := Table.mapValues (refill now) src.decoded.clientRequests } := by
  have htombstones : (Keyed.ofRows (src.received now sm).listTombstones :
      Keyed GcTombstone.chunk) = Keyed.ofRows src.listTombstones := by
    refine ofRows_tombstones fun c => ?_
    rw [Keyed.ofRows, Keyed.table_foldl_put, DiskStore.received]
    have hempty : ∀ c : ChunkId, (∅ : Table ChunkId TombstoneRow)[c]? =
        ((∅ : Table ChunkId GcTombstone)[c]?).map .tombstone := by simp
    have hmap := Table.get_insertAll_map TombstoneRow.tombstone
      (src.listTombstones.map fun t => (t.chunk, t)) hempty c
    rwa [List.map_map] at hmap
  have hledger : Table.mapValues LedgerRow.decode (src.received now sm).clientRequests =
      Table.mapValues (refill now) (Table.mapValues LedgerRow.decode src.clientRequests) := by
    refine ExtTreeMap.ext_getElem? fun id => ?_
    rw [DiskStore.received, Table.get_mapValues, Table.get_mapValues, Table.get_mapValues,
      Table.get_mapValues, Option.map_map, Option.map_map]
    rfl
  rw [DiskStore.decoded, htombstones, hledger]
  rfl

/-- Every ledger row has both its times. -/
def Tables.LedgerStamped (t : Tables) : Prop :=
  ∀ (id : RequestOpId) (entry : ClientRequestLedgerEntry), t.clientRequests[id]? = some entry →
    entry.createdAtUnixMs ≠ 0 ∧ entry.expiresAtUnixMs ≠ 0

theorem decoded_received_of_stamped (sm : SmAppliedMeta) (h : src.decoded.LedgerStamped) :
    (src.received now sm).decoded = src.decoded := by
  have hledger : Table.mapValues (refill now) src.decoded.clientRequests =
      src.decoded.clientRequests := by
    refine ExtTreeMap.ext_getElem? fun id => ?_
    rw [Table.get_mapValues]
    cases hrow : src.decoded.clientRequests[id]? with
    | none => rfl
    | some entry =>
      obtain ⟨hcreated, hexpires⟩ := h id entry hrow
      rw [Option.map_some, refill_of_stamped hcreated hexpires]
  rw [decoded_received, hledger]

/-- An installed store reads as the exported one only if every row has its times. -/
theorem stamped_of_decoded_received (sm : SmAppliedMeta) (hnow : now ≠ 0)
    (h : (src.received now sm).decoded = src.decoded) : src.decoded.LedgerStamped := by
  intro id entry hentry
  have hrow := congrArg (·.clientRequests[id]?) h
  rw [decoded_received] at hrow
  simp only [Table.get_mapValues, hentry, Option.map_some, Option.some.injEq] at hrow
  exact stamped_of_refill hnow hrow

/-! ## The file -/

theorem length_version : (toLeBytes 4 snapshotVersion).length = 4 := length_toLeBytes ..

theorem detectFormat_stream (body : Bytes) :
    detectFormat (snapshotMagic ++ toLeBytes 4 snapshotVersion ++ body) =
      .ok (.streamingV1, body) := by
  rw [detectFormat, List.append_assoc, List.take_left, List.drop_left]
  rw [if_neg (by simp)]
  dsimp only
  rw [List.take_left' length_version, List.drop_left' length_version, if_neg (by simp),
    if_neg (by decide)]

/-- A store whose records can be written is exported as their frames. -/
theorem export_stream (sm : SmAppliedMeta) (hsessions : src.SessionsValid)
    (hcarries : ∀ r ∈ snapshotRecords sm src ++ [SnapshotRecord.finish], codec.Carries r) :
    exportSnapshotToPath codec sm src =
      .ok (snapshotMagic ++ toLeBytes 4 snapshotVersion ++
        frames codec (snapshotRecords sm src ++ [SnapshotRecord.finish])) := by
  rw [exportSnapshotToPath, exportItems_eq sm hsessions,
    writeRecords_map_ok fun r hr => (hcarries r hr).1]
  rfl

/-- A whole export is installed. -/
theorem install_stream (sm : SmAppliedMeta) (hsessions : src.SessionsValid)
    (hcarries : ∀ r ∈ snapshotRecords sm src ++ [SnapshotRecord.finish], codec.Carries r)
    (target : DiskStore) : installSnapshotFromReader codec now
        (snapshotMagic ++ toLeBytes 4 snapshotVersion ++
          frames codec (snapshotRecords sm src ++ [SnapshotRecord.finish])) target =
      (.ok sm, src.received now sm) := by
  rw [installSnapshotFromReader, detectFormat_stream]
  show installStreamingSnapshot codec now _ target = _
  rw [installStreamingSnapshot, installLoop_frames hcarries (fun _ => ne_finish_of_mem) rfl,
    installRecords_snapshot sm hsessions]
  rfl

/-! ## A small store and its texts -/

/-- Markers behind entry 4. -/
def sampleSm : SmAppliedMeta := ⟨some ⟨1, 1, 4⟩, .default⟩

/-- A store with one file, held open, and one ledger row. -/
def sampleDisk (row : LedgerRow) (sm : SmRows) : DiskStore where
  inodes := .empty
  dentries := Table.insertAll ∅ [(⟨1, "a"⟩, 2)]
  manifests := ∅
  xattrs := ∅
  openPresence := Table.insertAll ∅ [(⟨2, "mount-1"⟩, ())]
  reservations := .empty
  tombstones := ∅
  clientRequests := Table.insertAll ∅ [(7, row)]
  nextInode := 3
  nextManifest := 1
  gcLease := none
  workerMembership := none
  sm := sm

/-- A store whose one ledger row has its times. -/
def stampedDisk : DiskStore :=
  sampleDisk (.entry ⟨5, 86400005, .empty⟩) (.putSmMetaRaw sampleSm)

/-- The same store with the ledger row of an earlier version. -/
def bareDisk : DiskStore := sampleDisk (.bare .empty) (.putSmMetaRaw sampleSm)

/-- The same store before the first applied entry. -/
def unappliedDisk : DiskStore := sampleDisk (.entry ⟨5, 86400005, .empty⟩) .empty

/-- A JSON number. -/
def jsonNat (n : Nat) : List Char := Nat.toDigits 10 n

/-- A JSON string without escapes. -/
def jsonString (text : String) : List Char := '"' :: text.toList ++ ['"']

/-- The text of a JSON object. -/
def jsonObject (fields : List (String × List Char)) : List Char :=
  ['\x7b'] ++ [','].intercalate (fields.map fun field => jsonString field.1 ++ ':' :: field.2) ++
    ['\x7d']

/-- The text of a record with its tag and content. -/
def recordText (tag : String) (content : List (String × List Char)) : List Char :=
  jsonObject [("t", jsonString tag), ("v", jsonObject content)]

/-- The text of the header record. -/
def headerText (nextInode nextManifest : Nat) (lastApplied : List Char) : List Char :=
  recordText "Header" [("next_inode", jsonNat nextInode), ("next_manifest", jsonNat nextManifest),
    ("sm", jsonObject [("last_applied_log", lastApplied),
      ("last_membership", jsonObject [("log_id", "null".toList),
        ("membership", jsonObject [("configs", "[]".toList), ("nodes", jsonObject [])])])]),
    ("gc_lease", "null".toList),
    ("worker_membership", jsonObject [("epoch", ['0']), ("workers", "[]".toList)])]

/-- The text of the ledger record. -/
def ledgerText (expiresAt createdAt : String) : List Char :=
  recordText "ClientRequest" [("id", jsonString "00000000000000000000000000000007"),
    ("resp", jsonString "Empty"), ("expires_at_unix_ms", expiresAt.toList),
    ("created_at_unix_ms", createdAt.toList)]

/-- What serde_json writes for the records of these stores. -/
def sampleTexts : List (SnapshotRecord × Bytes) :=
  [(.header ⟨3, 1, sampleSm, none, .default⟩,
      headerText 3 1 (jsonObject [("leader_id", jsonObject [("term", ['1']), ("node_id", ['1'])]),
        ("index", ['4'])])),
    (.header ⟨3, 1, ⟨none, .default⟩, none, .default⟩,
      headerText 3 1 "null".toList),
    (.dentry 1 "a" 2,
      recordText "Dentry" [("parent", ['1']), ("name", jsonString "a"), ("child", ['2'])]),
    (.openPresence 2 "mount-1",
      recordText "OpenPresence" [("inode", ['2']), ("session_id", jsonString "mount-1")]),
    (.clientRequest 7 .empty 86400005 5, ledgerText "86400005" "5"),
    (.clientRequest 7 .empty 0 0, ledgerText "0" "0"),
    (.finish, jsonObject [("t", jsonString "End")])].map fun row =>
      (row.1, row.2.map fun c => UInt8.ofNat c.toNat)

/-- serde_json on the given texts; a text that starts with `f` is not JSON. -/
def textCodec (texts : List (SnapshotRecord × Bytes)) : SnapshotCodec where
  encode record := ((texts.find? (·.1 = record)).map (·.2)).getD []
  decode bytes :=
    match texts.find? (·.2 = bytes) with
    | some row => .ok row.1
    | none => .error "expected value at line 1 column 1"
  decodeLegacy
    | [] => .error "EOF while parsing a value at line 1 column 0"
    | _ :: _ => .error "expected ident at line 1 column 2"

def sampleCodec : SnapshotCodec := textCodec sampleTexts

instance (record : SnapshotRecord) : Decidable (codec.Carries record) :=
  inferInstanceAs (Decidable (_ ∧ _))

theorem sampleCodec_carries (h : ∀ r ∈ records, r ∈ sampleTexts.map Prod.fst) :
    ∀ r ∈ records, sampleCodec.Carries r := by
  have hcarries : ∀ r ∈ sampleTexts.map Prod.fst, sampleCodec.Carries r := by decide +kernel
  exact fun r hr => hcarries r (h r hr)

theorem sampleDisk_sessionsValid (row : LedgerRow) (sm : SmRows) :
    (sampleDisk row sm).SessionsValid := by
  have h : ∀ row ∈ (Table.insertAll ∅ [((⟨2, "mount-1"⟩ : NameKey), ())]).toList,
      validateSessionId row.1.name = .ok () := by decide +kernel
  exact h

theorem stampedDisk_carried : ∀ r ∈ snapshotRecords sampleSm stampedDisk ++ [SnapshotRecord.finish],
    sampleCodec.Carries r :=
  sampleCodec_carries (by decide +kernel)

/-- Exporting a store and installing the file makes every table and the markers of the
replica read as the exporting one's, on every replica and at every reading of its clock,
exactly if the ledger rows carry their times and an entry has been applied. -/
theorem snapshot_round_trip (codec : SnapshotCodec) (sm : SmAppliedMeta) (src : DiskStore)
    (hsessions : src.SessionsValid)
    (hcarries : ∀ r ∈ snapshotRecords sm src ++ [SnapshotRecord.finish], codec.Carries r)
    (hmarkers : src.sm.loadSmMeta = .ok sm) :
    (∀ (now : Nat) (target : DiskStore), ∃ stream installed,
      exportSnapshotToPath codec sm src = .ok stream ∧
      installSnapshotFromReader codec now stream target = (.ok sm, installed) ∧
      installed.decoded = src.decoded ∧ installed.sm.loadSmMeta = src.sm.loadSmMeta) ↔
    src.decoded.LedgerStamped ∧ sm.lastAppliedLog ≠ none := by
  constructor
  · intro h
    obtain ⟨stream, installed, hexport, hinstall, hdecoded, hsm⟩ := h 1 src
    rw [export_stream sm hsessions hcarries, Except.ok.injEq] at hexport
    rw [← hexport, install_stream sm hsessions hcarries src, Prod.mk.injEq] at hinstall
    rw [← hinstall.2] at hdecoded hsm
    refine ⟨stamped_of_decoded_received sm (by decide) hdecoded, fun hnone => ?_⟩
    rw [hmarkers] at hsm
    exact SmRows.loadSmMeta_putSmMetaRaw_none hnone hsm
  · rintro ⟨hstamped, happlied⟩ now target
    refine ⟨_, src.received now sm, export_stream sm hsessions hcarries,
      install_stream sm hsessions hcarries target, decoded_received_of_stamped sm hstamped, ?_⟩
    obtain ⟨id, hid⟩ := Option.ne_none_iff_exists'.mp happlied
    rw [hmarkers]
    exact SmRows.loadSmMeta_putSmMetaRaw hid

theorem stampedDisk_ledgerStamped : stampedDisk.decoded.LedgerStamped := by
  intro id entry hentry
  have hrows : ∀ row ∈ stampedDisk.decoded.clientRequests.toList,
      row.2.createdAtUnixMs ≠ 0 ∧ row.2.expiresAtUnixMs ≠ 0 := by decide +kernel
  exact hrows (id, entry) ((Table.mem_rows _ _ _).mpr hentry)

theorem snapshot_round_trip_stampedDisk :
    ∃ stream installed, exportSnapshotToPath sampleCodec sampleSm stampedDisk = .ok stream ∧
      installSnapshotFromReader sampleCodec 1000 stream bareDisk = (.ok sampleSm, installed) ∧
      installed.decoded = stampedDisk.decoded ∧
      installed.sm.loadSmMeta = stampedDisk.sm.loadSmMeta :=
  (snapshot_round_trip sampleCodec sampleSm stampedDisk (sampleDisk_sessionsValid _ _)
    stampedDisk_carried rfl).mpr ⟨stampedDisk_ledgerStamped, by decide⟩ 1000 bareDisk

/-- A bare row that no lookup finds in the exporting store is live in the installed one,
and markers of a store that applied nothing cannot be read back. -/
theorem snapshot_revives_bare_row :
    (∃ stream installed, exportSnapshotToPath sampleCodec sampleSm bareDisk = .ok stream ∧
      installSnapshotFromReader sampleCodec 1000 stream bareDisk = (.ok sampleSm, installed) ∧
      getClientRequest bareDisk.decoded 7 1000 = none ∧
      getClientRequest installed.decoded 7 1000 = some .empty) ∧
    (∃ stream installed,
      exportSnapshotToPath sampleCodec ⟨none, .default⟩ unappliedDisk = .ok stream ∧
      installSnapshotFromReader sampleCodec 1000 stream bareDisk =
        (.ok ⟨none, .default⟩, installed) ∧
      unappliedDisk.sm.loadSmMeta = .ok ⟨none, .default⟩ ∧
      installed.sm.loadSmMeta = .error
        (.metaErr "invalid type: null, expected struct LogId at line 1 column 4")) := by
  have hsessions := sampleDisk_sessionsValid
  have hbare : ∀ r ∈ snapshotRecords sampleSm bareDisk ++ [SnapshotRecord.finish],
      sampleCodec.Carries r := sampleCodec_carries (by decide +kernel)
  have hunapplied : ∀ r ∈ snapshotRecords ⟨none, .default⟩ unappliedDisk ++
      [SnapshotRecord.finish], sampleCodec.Carries r := sampleCodec_carries (by decide +kernel)
  refine ⟨⟨_, _, export_stream _ (hsessions _ _) hbare,
    install_stream _ (hsessions _ _) hbare _, ?_, ?_⟩,
    ⟨_, _, export_stream _ (hsessions _ _) hunapplied,
      install_stream _ (hsessions _ _) hunapplied _, rfl, rfl⟩⟩
  · decide +kernel
  · decide +kernel

/-- An export that succeeded is the records of the store, in frames. -/
theorem export_ok {sm : SmAppliedMeta} {stream : Bytes}
    (h : exportSnapshotToPath codec sm src = .ok stream) : src.SessionsValid ∧
      (∀ r ∈ snapshotRecords sm src ++ [SnapshotRecord.finish], (codec.encode r).length ≤ u32Max) ∧
      stream = snapshotMagic ++ toLeBytes 4 snapshotVersion ++
        frames codec (snapshotRecords sm src ++ [SnapshotRecord.finish]) := by
  cases hwrite : writeRecords codec (exportItems sm src) with
  | error e => simp [exportSnapshotToPath, hwrite, bind, Except.bind] at h
  | ok body =>
    obtain ⟨records, hitems, rfl, hsizes⟩ := writeRecords_ok hwrite
    have hsessions := sessionsValid_of_exportItems hitems
    have hrecords : records = snapshotRecords sm src ++ [SnapshotRecord.finish] := by
      rw [exportItems_eq sm hsessions] at hitems
      exact (List.map_injective_iff.mpr (fun _ _ => Except.ok.inj) hitems).symm
    subst hrecords
    simp only [exportSnapshotToPath, hwrite, bind, Except.bind, pure, Except.pure,
      Except.ok.injEq] at h
    exact ⟨hsessions, hsizes, h.symm⟩

/-- A file that stops inside its magic or its version is refused. -/
theorem detectFormat_strictPrefix {short : Bytes}
    (h : StrictPrefix short (snapshotMagic ++ toLeBytes 4 snapshotVersion)) :
    (StrictPrefix short snapshotMagic ∧ detectFormat short = .ok (.legacyJson, short)) ∨
      detectFormat short = .error (.io "failed to fill whole buffer") := by
  rcases strictPrefix_append h with hin | ⟨later, rfl, hlater⟩
  · refine .inl ⟨hin, ?_⟩
    rw [detectFormat, if_pos (.inl hin.length_lt)]
  · have hlen := hlater.length_lt
    rw [length_version] at hlen
    right
    rw [detectFormat, List.take_left, List.drop_left, if_neg (by simp)]
    exact if_pos hlen

/-- A stream that stops early leaves the store as it was. -/
theorem installStreaming_strictPrefix
    (hcarries : ∀ r ∈ records ++ [SnapshotRecord.finish], codec.Carries r)
    (hbody : ∀ r ∈ records, r ≠ .finish) {short : Bytes}
    (hshort : StrictPrefix short (frames codec (records ++ [SnapshotRecord.finish])))
    (target : DiskStore) :
    ∃ e, installStreamingSnapshot codec now short target = (.error e, target) := by
  unfold installStreamingSnapshot
  cases hloop : installLoop codec now short ⟨target.cleared, none, false⟩ with
  | error e => exact ⟨e, rfl⟩
  | ok st =>
    refine ⟨.metaErr "snapshot missing End record", ?_⟩
    exact if_pos (installLoop_strictPrefix hcarries hbody rfl hshort hloop)

/-- No strict prefix of an export is installed: every read of one fails and leaves the
receiving store as it was, while the whole file is installed. -/
theorem truncated_snapshot_not_installed (codec : SnapshotCodec) (now : Nat) (sm : SmAppliedMeta)
    (src target : DiskStore) (stream : Bytes)
    (hexport : exportSnapshotToPath codec sm src = .ok stream)
    (hcodec : ∀ r ∈ snapshotRecords sm src ++ [SnapshotRecord.finish],
      codec.decode (codec.encode r) = .ok r)
    (hlegacy : ∀ short, StrictPrefix short snapshotMagic →
      ∃ message, codec.decodeLegacy short = .error message) :
    (∃ installed, installSnapshotFromReader codec now stream target = (.ok sm, installed)) ∧
    ∀ short, StrictPrefix short stream →
      ∃ e, installSnapshotFromReader codec now short target = (.error e, target) := by
  obtain ⟨hsessions, hsizes, rfl⟩ := export_ok hexport
  have hcarries : ∀ r ∈ snapshotRecords sm src ++ [SnapshotRecord.finish], codec.Carries r :=
    fun r hr => ⟨hsizes r hr, hcodec r hr⟩
  refine ⟨⟨_, install_stream sm hsessions hcarries target⟩, fun short hshort => ?_⟩
  unfold installSnapshotFromReader
  rcases strictPrefix_append hshort with hin | ⟨later, rfl, hlater⟩
  · rcases detectFormat_strictPrefix hin with ⟨hmagic, hformat⟩ | hformat
    · obtain ⟨message, hmessage⟩ := hlegacy short hmagic
      refine ⟨.metaErr message, ?_⟩
      rw [hformat]
      dsimp only
      rw [hmessage]
    · exact ⟨_, by rw [hformat]⟩
  · rw [detectFormat_stream]
    exact installStreaming_strictPrefix hcarries (fun _ => ne_finish_of_mem) hlater target

/-- The file that an export of `stampedDisk` writes. -/
def stampedFile : Bytes :=
  snapshotMagic ++ toLeBytes 4 snapshotVersion ++
    frames sampleCodec (snapshotRecords sampleSm stampedDisk ++ [SnapshotRecord.finish])

theorem truncated_snapshot_not_installed_stampedFile :
    (∃ installed, installSnapshotFromReader sampleCodec 1000 stampedFile bareDisk =
      (.ok sampleSm, installed)) ∧
    ∀ short, StrictPrefix short stampedFile →
      ∃ e, installSnapshotFromReader sampleCodec 1000 short bareDisk = (.error e, bareDisk) := by
  refine truncated_snapshot_not_installed sampleCodec 1000 sampleSm stampedDisk bareDisk _
    (export_stream _ (sampleDisk_sessionsValid _ _) stampedDisk_carried)
    (fun r hr => (stampedDisk_carried r hr).2) fun short _ => ?_
  cases short with
  | nil => exact ⟨_, rfl⟩
  | cons b short => exact ⟨_, rfl⟩

end
end FluxFS
