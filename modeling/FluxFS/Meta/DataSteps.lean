import FluxFS.Meta.Steps

/-!
# DataSteps — the remaining requests as edits

Open presence, extended attributes, image commits, flush, reservations and
garbage collection, and from them the whole state machine:
`applyRaftRequest_edits`.
-/

namespace FluxFS

open Std Kit

variable {now : Clock} {time : Int} {op : MetaOp} {records : Prop} {s₀ s : Tables} {β : Type}
variable {inode : InodeId} {expected : Generation} {manifest : Manifest} {chunks : List ChunkId}

/-! ## Open presence -/

theorem openInode_edits {sessionId : String} :
    Within now op records s (openInodeInTxn sessionId inode s) := by
  refine Txn.outcome_query (fun _ _ => .refl) fun _ _ => ?_
  refine outcome_getInodeRaw (fun _ => .refl) fun i hi => ?_
  refine outcome_guard (fun _ => .refl) fun hregular => ?_
  exact .single (.openPresence (k := ⟨inode, sessionId⟩) hi (not_not.mp hregular))

theorem closeInode_edits {sessionId : String} (hop : op = .closeInode sessionId inode) :
    Within now op records s (closeInodeInTxn sessionId inode s) := by
  refine Txn.outcome_query (fun _ _ => .refl) fun _ _ => ?_
  have howner : ∀ k ∈ [NameKey.mk inode sessionId], k.owner ∈ [inode] := by simp
  have hname : ∀ k ∈ [NameKey.mk inode sessionId], op.closes k = true := by
    simp [hop, MetaOp.closes]
  exact .single (.closePresence howner hname)

theorem recoverSession_edits {sessionId : String} (hop : op = .recoverSession sessionId) :
    Within now op records s (recoverSessionInTxn sessionId s) := by
  refine Txn.outcome_query (fun _ _ => .refl) fun _ _ => ?_
  have howner : ∀ k ∈ sessionKeys s sessionId,
      k.owner ∈ Table.ordSet ((sessionKeys s sessionId).map (·.owner)) :=
    fun k hk => Table.mem_ordSet.mpr (List.mem_map_of_mem hk)
  have hname : ∀ k ∈ sessionKeys s sessionId, op.closes k = true := by
    intro k hk
    rw [sessionKeys, List.mem_filter] at hk
    rw [hop]
    exact hk.2
  exact .single (.closePresence howner hname)

/-! ## Extended attributes -/

theorem touched_stampXattr {i : Inode} (h : i.generation < u64Max) :
    Touched i (stampXattr time i) := by
  unfold Touched
  rw [saturatingAdd_of_lt h]
  rfl

theorem setXattr_edits {name : String} {value : Bytes} {mode : XattrSetMode}
    (hop : op.putsXattrs = true) :
    Within now op records s (setXattrInTxn time expected inode name value mode s) := by
  refine outcome_getInodeRaw (fun _ => .refl) fun i hi => ?_
  refine outcome_checkGeneration (fun _ => .refl) fun _ => ?_
  refine outcome_query_ok (fun _ => .refl) fun _ _ => ?_
  refine outcome_query_ok (fun _ => .refl) fun _ _ => ?_
  refine outcome_guard (fun _ => .refl) fun hgen => ?_
  have hput : Edits now op records s { s with xattrs := s.xattrs.insert ⟨inode, name⟩ value } :=
    .single (.putXattr (k := ⟨inode, name⟩) hi hop)
  exact hput.tail (.touch (Keyed.get?_of_get? hi) (touched_stampXattr (Nat.not_lt.mp hgen)))

theorem removeXattr_edits {name : String} :
    Within now op records s (removeXattrInTxn time expected inode name s) := by
  refine outcome_query_ok (fun _ => .refl) fun _ _ => ?_
  refine outcome_getInodeRaw (fun _ => .refl) fun i hi => ?_
  refine outcome_checkGeneration (fun _ => .refl) fun _ => ?_
  refine Txn.outcome_reads (Txn.outcome_modify ?_)
  have herase : Edits now op records s { s with xattrs := s.xattrs.erase ⟨inode, name⟩ } :=
    .single (.eraseXattr s ⟨inode, name⟩)
  refine outcome_guard (fun _ => herase) fun _ => ?_
  refine outcome_guard (fun _ => herase) fun hgen => ?_
  exact herase.tail (.touch (Keyed.get?_of_get? hi) (touched_stampXattr (Nat.not_lt.mp hgen)))

/-! ## Images -/

theorem putManifest_edits : Within now op records s (putManifestInTxn manifest s) := by
  refine outcome_query_ok (fun _ => .refl) fun _ _ => ?_
  exact .single (.addManifest s manifest)

theorem touched_of_unchanged {current inode : Inode}
    (hgen : inode.generation = saturatingAdd current.generation 1)
    (h : ¬ dataOrLifecycleChanged current inode) : Touched current inode := by
  simp only [dataOrLifecycleChanged, not_or, not_not] at h
  obtain ⟨h1, h2, h3, h4, h5, h6, h7, h8, h9, h10, h11, h12, h13, h14, h15⟩ := h
  unfold Touched
  cases inode
  cases current
  simp_all

theorem putInodeCas_edits {inode : Inode} :
    Within now op records s (putInodeCasInTxn expected inode s) := by
  refine outcome_getInodeRaw (fun _ => .refl) fun current hcurrent => ?_
  refine outcome_checkGeneration (fun _ => .refl) fun hexpected => ?_
  refine outcome_guard (fun _ => .refl) fun hmax => ?_
  refine outcome_guard (fun _ => .refl) fun hnext => ?_
  refine outcome_guard (fun _ => .refl) fun hsame => ?_
  refine .single (.touch (Keyed.get?_of_get? hcurrent) (touched_of_unchanged ?_ hsame))
  rw [hexpected, saturatingAdd_of_lt (Nat.not_lt.mp hmax)]
  exact not_not.mp hnext

/-- A commit of an image, whether or not a reservation covers its chunks. -/
theorem commitInodeManifest_edits {inode : Inode}
    (hop : op.commit? = some (expected, inode, manifest))
    (hfence : manifest.localChunks = [] ∨ ∃ ticket r, op.shows? = some ticket ∧
      s.reservations.get? ticket = some r ∧ r.inode = inode.id ∧ r.expectedGeneration = expected ∧
      ∀ c ∈ manifest.localChunks, c ∈ r.chunks) :
    Within now op records s (commitInodeManifestInTxn expected inode manifest s) := by
  simp only [commitInodeManifestInTxn, putManifestInTxn, bind_assoc, pure_bind]
  refine outcome_guard (fun _ => .refl) fun hinode => ?_
  refine outcome_getInodeRaw (fun _ => .refl) fun current hcurrent => ?_
  refine outcome_checkGeneration (fun _ => .refl) fun hgen => ?_
  refine outcome_guard (fun _ => .refl) fun hidle => ?_
  refine outcome_query_ok (fun _ => .refl) fun _ _ => ?_
  refine .single (.commitImage hop (not_not.mp hinode) hcurrent hgen hcurrent ?_ hfence)
  simpa using hidle

theorem localChunks_of_not_manifestHasLocal (h : ¬ manifestHasLocal manifest = true) :
    manifest.localChunks = [] := by
  rw [Manifest.localChunks, List.filterMap_eq_nil_iff]
  intro extent hextent
  simp only [manifestHasLocal, List.any_eq_true, not_exists, not_and] at h
  simpa using h extent hextent

theorem commitUnreserved_edits {inode : Inode}
    (hop : op.commit? = some (expected, inode, manifest)) :
    Within now op records s (commitUnreserved expected inode manifest s) := by
  refine outcome_guard (fun _ => .refl) fun hlocal => ?_
  exact commitInodeManifest_edits hop (.inl (localChunks_of_not_manifestHasLocal hlocal))

theorem commitReserved_edits {ticket : WriteTicketId} {inode : Inode}
    (hop : op = .commitInodeManifestReserved ticket expected inode manifest) :
    Within now op records s (commitReservedInTxn ticket expected inode manifest s) := by
  refine Txn.outcome_query (fun _ _ => .refl) fun r hr => ?_
  refine outcome_guard (fun _ => .refl) fun hmatch => ?_
  refine outcome_guard (fun _ => .refl) fun hchunks => ?_
  have hstored : s.reservations.get? ticket = some r := by
    cases hget : s.reservations.get? ticket with
    | none => simp [hget] at hr
    | some r' =>
      simp only [hget, Except.ok.injEq] at hr
      rw [hr]
  rw [not_or, not_not, not_not] at hmatch
  have hcover : ∀ c ∈ manifest.localChunks, c ∈ r.chunks := by
    intro c hc
    rw [← not_not.mp hchunks]
    exact Table.mem_ordSet.mpr hc
  have hcommit : Within now op records s (commitInodeManifestInTxn expected inode manifest s) :=
    commitInodeManifest_edits (by rw [hop]; rfl)
      (.inr ⟨ticket, r, by rw [hop]; rfl, hstored, hmatch.1, hmatch.2, hcover⟩)
  refine Txn.outcome_bind (fun e t hrun => ?_) (fun committed t hrun => ?_)
  · rw [hrun] at hcommit
    exact hcommit
  · rw [hrun] at hcommit
    exact hcommit.tail (.dropReservations t [ticket])

/-! ## Flush -/

theorem outcome_flushFields {P : Except FluxError β × Tables → Prop} {i : Inode}
    {f : LocalityFields → MetaTxn β} (herr : ∀ e, P (.error e, s))
    (hok : ∀ fields, i.localityFields = some fields → P (f fields s)) :
    P ((flushFields i >>= f) s) := by
  refine Txn.outcome_query (fun e _ => herr e) fun fields hfields => hok fields ?_
  cases hget : i.localityFields with
  | none => simp [hget] at hfields
  | some g =>
    simp only [hget, Except.ok.injEq] at hfields
    rw [hfields]

theorem outcome_matchingFlushIntent {P : Except FluxError β × Tables → Prop} {i : Inode}
    {flushId : FlushId} {f : FlushIntent → MetaTxn β} (herr : ∀ e, P (.error e, s))
    (hok : ∀ intent, i.flushIntent = some intent → intent.flushId = flushId → P (f intent s)) :
    P ((matchingFlushIntent i flushId >>= f) s) := by
  refine Txn.outcome_query (fun e _ => herr e) fun intent hintent => ?_
  cases hget : i.flushIntent with
  | none => simp [hget] at hintent
  | some current =>
    simp only [hget] at hintent
    split at hintent
    · rename_i hid
      cases hintent
      exact hok _ hget hid
    · cases hintent

/-- The inode and flush id of a flush request. -/
def MetaOp.flush? : MetaOp → Option (InodeId × FlushId)
  | .beginFlush _ inode intent => some (inode, intent.flushId)
  | .commitFlush _ inode flushId _ => some (inode, flushId)
  | .failFlushConflict _ inode flushId _ => some (inode, flushId)
  | _ => none

theorem MetaOp.ends_none_of_flush {op : MetaOp} (h : op.flush? = none) : op.endsFlush? = none := by
  cases op with
  | commitFlush | failFlushConflict => cases h
  | _ => rfl

/-- What a flush operation does: it is refused, or it replaces the record it is about. -/
inductive FlushOutcome (s : Tables) : MetaOp → Except FluxError Inode × Tables → Prop
  | refused (op : MetaOp) (e : FluxError) : FlushOutcome s op (.error e, s)
  | begun {i : Inode} {fields : LocalityFields} {intent : FlushIntent}
      (hi : s.inodes.get? i.id = some i) (hfields : i.localityFields = some fields)
      (hbacked : fields.backingMode = .ufsBacked) (hdirty : fields.dataState = .dirty)
      (hhead : i.headGen = intent.snapshotGen) (hidle : i.flushIntent = none)
      (hop : fields.opState = .none) :
      FlushOutcome s (.beginFlush i.generation i.id intent)
        (.ok (beginFlush i fields intent), s.putInode (beginFlush i fields intent))
  | emptied {i : Inode} {fields : LocalityFields} {intent : FlushIntent} {ufs : UfsObject}
      (hi : s.inodes.get? i.id = some i) (hfields : i.localityFields = some fields)
      (hintent : i.flushIntent = some intent) (hhead : i.headGen = intent.snapshotGen)
      (hsize : i.size = 0) :
      FlushOutcome s (.commitFlush i.generation i.id intent.flushId ufs)
        (.ok (installPublished i fields intent ufs none),
          s.putInode (installPublished i fields intent ufs none))
  | published {i : Inode} {fields : LocalityFields} {intent : FlushIntent} {ufs : UfsObject}
      {tree : ExtentTree} (hi : s.inodes.get? i.id = some i)
      (hfields : i.localityFields = some fields) (hintent : i.flushIntent = some intent)
      (hhead : i.headGen = intent.snapshotGen) (hsize : i.size ≠ 0)
      (htree : ExtentTree.singleton (.ufsRange 0 i.size ufs.key (publishedVersion intent ufs) 0) =
        .ok tree) :
      FlushOutcome s (.commitFlush i.generation i.id intent.flushId ufs)
        (.ok (installPublished i fields intent ufs (some s.nextManifest)),
          (s.addManifest ⟨i.id, intent.snapshotGen, i.size, tree⟩).putInode
            (installPublished i fields intent ufs (some s.nextManifest)))
  | superseded {i : Inode} {fields : LocalityFields} {intent : FlushIntent} {ufs : UfsObject}
      (hi : s.inodes.get? i.id = some i) (hfields : i.localityFields = some fields)
      (hintent : i.flushIntent = some intent) (hhead : i.headGen ≠ intent.snapshotGen) :
      FlushOutcome s (.commitFlush i.generation i.id intent.flushId ufs)
        (.ok (flushConflict i fields headAdvancedError),
          s.putInode (flushConflict i fields headAdvancedError))
  | failed {i : Inode} {fields : LocalityFields} {intent : FlushIntent} {error : String}
      (hi : s.inodes.get? i.id = some i) (hfields : i.localityFields = some fields)
      (hintent : i.flushIntent = some intent) :
      FlushOutcome s (.failFlushConflict i.generation i.id intent.flushId error)
        (.ok (flushConflict i fields error), s.putInode (flushConflict i fields error))

theorem beginFlush_outcome {intent : FlushIntent} :
    FlushOutcome s (.beginFlush expected inode intent)
      (beginFlushInTxn expected inode intent s) := by
  refine outcome_getInodeRaw (.refused _) fun i hi => ?_
  obtain rfl : i.id = inode := Keyed.key_of_get? hi
  refine outcome_checkGeneration (.refused _) fun hgeneration => ?_
  subst hgeneration
  refine outcome_guard (.refused _) fun _ => ?_
  refine outcome_flushFields (.refused _) fun fields hfields => ?_
  refine outcome_guard (.refused _) fun hstate => ?_
  refine outcome_guard (.refused _) fun hhead => ?_
  refine outcome_guard (.refused _) fun hidle => ?_
  rw [not_or, not_not, not_not] at hstate
  rw [not_or, not_not, Option.isSome_iff_ne_none, not_not] at hidle
  exact .begun hi hfields hstate.1 hstate.2 (not_not.mp hhead) hidle.1 hidle.2

theorem commitFlush_outcome {flushId : FlushId} {ufs : UfsObject} :
    FlushOutcome s (.commitFlush expected inode flushId ufs)
      (commitFlushInTxn expected inode flushId ufs s) := by
  refine outcome_getInodeRaw (.refused _) fun i hi => ?_
  obtain rfl : i.id = inode := Keyed.key_of_get? hi
  refine outcome_checkGeneration (.refused _) fun hgeneration => ?_
  subst hgeneration
  refine outcome_matchingFlushIntent (.refused _) fun intent hintent hid => ?_
  subst hid
  refine outcome_flushFields (.refused _) fun fields hfields => ?_
  by_cases hhead : i.headGen = intent.snapshotGen
  · rw [if_pos hhead]
    by_cases hsize : i.size = 0
    · simp only [publishManifest, if_pos hsize, pure_bind]
      exact .emptied hi hfields hintent hhead hsize
    · simp only [publishManifest, if_neg hsize, putManifestInTxn, bind_assoc, pure_bind]
      refine outcome_query_ok (.refused _) fun tree htree => ?_
      refine outcome_query_ok (.refused _) fun _ _ => ?_
      exact .published hi hfields hintent hhead hsize htree
  · rw [if_neg hhead]
    exact .superseded hi hfields hintent hhead

theorem failFlush_outcome {flushId : FlushId} {error : String} :
    FlushOutcome s (.failFlushConflict expected inode flushId error)
      (failFlushConflictInTxn expected inode flushId error s) := by
  refine outcome_getInodeRaw (.refused _) fun i hi => ?_
  obtain rfl : i.id = inode := Keyed.key_of_get? hi
  refine outcome_checkGeneration (.refused _) fun hgeneration => ?_
  subst hgeneration
  refine outcome_matchingFlushIntent (.refused _) fun intent hintent hid => ?_
  subst hid
  refine outcome_flushFields (.refused _) fun fields hfields => ?_
  exact .failed hi hfields hintent

/-- The only extent of a published file is a UFS range. -/
theorem localChunks_of_singleton {offset len start : Nat} {key version : String}
    {tree : ExtentTree} (h : ExtentTree.singleton (.ufsRange offset len key version start) =
      .ok tree) {gen : DataGen} {size : Nat} :
    (Manifest.mk inode gen size tree).localChunks = [] := by
  rw [Manifest.localChunks, ExtentTree.extents_of_singleton h]
  rfl

theorem FlushOutcome.edits {o : Except FluxError Inode × Tables} (h : FlushOutcome s op o) :
    Within now op records s o := by
  cases h with
  | refused => exact .refl
  | begun hi hfields hbacked hdirty hhead hidle hop =>
    exact .single (.beginFlush hi hfields hbacked hdirty hhead hidle hop rfl)
  | emptied hi hfields hintent hhead =>
    exact .single (.publishFlush rfl hi hfields hintent hhead (by simp))
  | @published i fields intent ufs tree hi hfields hintent hhead _ htree =>
    refine .tail (.single (.addManifest s ⟨i.id, intent.snapshotGen, i.size, tree⟩))
      (.publishFlush rfl hi hfields hintent hhead ?_)
    intro mid hmid
    cases hmid
    exact ⟨⟨i.id, intent.snapshotGen, i.size, tree⟩, by simp [Tables.addManifest],
      localChunks_of_singleton htree⟩
  | superseded hi hfields hintent | failed hi hfields hintent =>
    exact .single (.failFlush rfl hi hfields hintent)

theorem performOp_flush (hflush : op.flush? ≠ none) :
    ∃ o, FlushOutcome s op o ∧ (performOp now op s).2 = o.2 := by
  cases op with
  | beginFlush => exact ⟨_, beginFlush_outcome, Txn.bind_pure_state ..⟩
  | commitFlush => exact ⟨_, commitFlush_outcome, Txn.bind_pure_state ..⟩
  | failFlushConflict => exact ⟨_, failFlush_outcome, Txn.bind_pure_state ..⟩
  | _ => exact absurd rfl hflush

/-! ## Reservations -/

theorem reserveChunks_edits {ticket : WriteTicketId} {expiresAt : Nat}
    (hop : op.reserves? = some ticket) :
    Within now op records s (reserveChunksInTxn ticket inode expected chunks expiresAt s) := by
  refine outcome_getInodeRaw (fun _ => .refl) fun i hi => ?_
  refine outcome_checkGeneration (fun _ => .refl) fun _ => ?_
  refine Txn.outcome_reads (outcome_guard (fun _ => .refl) fun hfenced => ?_)
  refine Txn.outcome_reads ?_
  cases hexisting : s.reservations.get? ticket with
  | some existing =>
    show Edits now op records s (Txn.failIf _ _ s).2
    rw [Txn.failIf_run]
    split <;> exact .refl
  | none =>
    refine .single (.reserve hop hexisting hi fun c hc => ?_)
    simp only [List.any_eq_true, Table.mem_ordSet, not_exists, not_and] at hfenced
    simpa using hfenced c (Table.mem_ordSet.mp hc)

theorem expireReservations_edits {cutoff maxToExpire : Nat} :
    Within now op records s (expireReservationsInTxn cutoff maxToExpire s) :=
  .single (.dropReservations s _)

/-! ## Tombstones -/

theorem mem_activeManifests {mid : ManifestId} :
    mid ∈ s.activeManifests ↔ ∃ id i, s.inodes.get? id = some i ∧ i.manifestId = some mid := by
  simp only [Tables.activeManifests, Table.mem_ordSet, List.mem_filterMap, Keyed.mem_rows]
  constructor
  · rintro ⟨i, hi, hmid⟩
    exact ⟨i.id, i, hi, hmid⟩
  · rintro ⟨id, i, hi, hmid⟩
    exact ⟨i, Keyed.get?_of_get? hi, hmid⟩

theorem mem_liveManifestChunks {c : ChunkId} :
    c ∈ s.liveManifestChunks ↔ ∃ id i mid m, s.inodes.get? id = some i ∧
      i.manifestId = some mid ∧ s.manifests[mid]? = some m ∧ c ∈ m.localChunks := by
  simp only [Tables.liveManifestChunks, List.mem_flatMap, List.mem_filter, Prod.exists,
    Table.mem_rows, decide_eq_true_eq, mem_activeManifests]
  constructor
  · rintro ⟨mid, m, ⟨hm, id, i, hi, hmid⟩, hc⟩
    exact ⟨id, i, mid, m, hi, hmid, hm, hc⟩
  · rintro ⟨id, i, mid, m, hi, hmid, hm, hc⟩
    exact ⟨mid, m, ⟨hm, id, i, hi, hmid⟩, hc⟩

theorem mem_reservedChunks {c : ChunkId} :
    c ∈ s.reservedChunks ↔ ∃ ticket r, s.reservations.get? ticket = some r ∧ c ∈ r.chunks := by
  simp only [Tables.reservedChunks, Tables.listReservations, List.mem_flatMap, Keyed.mem_rows]
  constructor
  · rintro ⟨r, hr, hc⟩
    exact ⟨r.ticket, r, hr, hc⟩
  · rintro ⟨ticket, r, hr, hc⟩
    exact ⟨r, Keyed.get?_of_get? hr, hc⟩

/-- The candidates a batch tombstones are exactly the unused ones. -/
theorem mem_tombstoneCandidates {candidates : List ChunkId} {c : ChunkId} :
    c ∈ tombstoneCandidates s candidates ↔ c ∈ candidates ∧ s.Unused c := by
  simp only [tombstoneCandidates, List.mem_filter, Table.mem_ordSet, List.mem_append, not_or,
    decide_eq_true_eq, mem_liveManifestChunks, mem_reservedChunks, Tables.Unused]
  refine and_congr_right fun _ => ?_
  constructor
  · rintro ⟨hlive, hreserved⟩
    exact ⟨fun id i mid m hi hmid hm hc => hlive ⟨id, i, mid, m, hi, hmid, hm, hc⟩,
      fun ticket r hr hc => hreserved ⟨ticket, r, hr, hc⟩⟩
  · rintro ⟨hlive, hreserved⟩
    refine ⟨?_, ?_⟩
    · rintro ⟨id, i, mid, m, hi, hmid, hm, hc⟩
      exact hlive id i mid m hi hmid hm hc
    · rintro ⟨ticket, r, hr, hc⟩
      exact hreserved ticket r hr hc

/-- A removal of unreferenced manifests changes no reference. -/
theorem unused_removeManifests {ids : List ManifestId} {c : ChunkId} (h : s.Unused c) :
    (s.removeManifests ids).Unused c := by
  refine ⟨fun id i mid m hi hmid hm => ?_, h.2⟩
  refine h.1 id i mid m hi hmid ?_
  simp only [Tables.removeManifests, Table.get_eraseAll] at hm
  split at hm
  · cases hm
  · exact hm

theorem putTombstones_edits (hop : op.collects = true) (h : Edits now op records s₀ s)
    (hunused : ∀ c ∈ chunks, s.Unused c) :
    Edits now op records s₀ (chunks.foldl (fun s c => s.putTombstone (.fresh c)) s) := by
  induction chunks generalizing s with
  | nil => exact h
  | cons c chunks ih =>
    have hput := h.tail (.tombstone hop (hunused c List.mem_cons_self))
    exact ih hput fun d hd => hunused d (List.mem_cons_of_mem c hd)

theorem removeUnreferenced_edits (hop : op.collects = true) (h : Edits now op records s₀ s) :
    Edits now op records s₀ (s.removeManifests s.unreferencedManifests) := by
  refine h.tail (.removeManifests hop fun id hid => ?_)
  simpa [Tables.unreferencedManifests] using (List.mem_filter.mp hid).2

theorem tombstoneGcBatch_edits {candidates : List ChunkId} (hop : op.collects = true) :
    Within now op records s (tombstoneGcBatchInTxn candidates s) := by
  refine putTombstones_edits hop (removeUnreferenced_edits hop .refl) fun c hc => ?_
  exact unused_removeManifests (mem_tombstoneCandidates.mp hc).2

theorem outcome_findTombstone {P : Except FluxError β × Tables → Prop} {c : ChunkId}
    {f : GcTombstone → MetaTxn β} (herr : ∀ e, P (.error e, s))
    (hok : ∀ t, s.tombstones.get? c = some t → P (f t s)) : P ((findTombstone c >>= f) s) := by
  refine Txn.outcome_query (fun e _ => herr e) fun t ht => hok t ?_
  cases hget : s.tombstones.get? c with
  | none => simp [hget] at ht
  | some u =>
    simp only [hget, Except.ok.injEq] at ht
    rw [ht]

/-- One round from `t` of a loop in a request that started at `s₀`. -/
def Round (now : Clock) (op : MetaOp) (records : Prop) (s₀ t : Tables) (o : Except FluxError β × Tables) : Prop :=
  Relation.ReflTransGen (Edit now op s₀.LinkFault records s₀.inodes) t o.2

/-- A loop of edits is edits, wherever it stops. -/
theorem forEach_edits {α : Type} {body : α → MetaTxn Unit} (as : List α)
    (hbody : ∀ a ∈ as, ∀ t, Round now op records s t (body a t)) :
    Within now op records s (Txn.forEach body as s) :=
  Txn.Keeps.forEach as hbody s

theorem finalizeTombstones_edits (hop : op = .finalizeGcTombstones chunks) :
    Within now op records s (finalizeTombstonesInTxn chunks s) := by
  refine forEach_edits chunks fun c hc t => ?_
  refine outcome_findTombstone (fun _ => .refl) fun old hold => ?_
  refine outcome_guard (fun _ => .refl) fun hdone => ?_
  rw [not_or, not_not] at hdone
  have hlisted : op.finalizes c = true := by
    rw [hop]
    exact decide_eq_true hc
  exact .single (.dropTombstone hlisted hold hdone.2)

theorem initializeGcTargets_edits {targets : List WorkerTargetId} :
    Within now op records s (initializeGcTargetsInTxn chunks targets s) := by
  refine forEach_edits chunks fun c _ t => ?_
  refine outcome_findTombstone (fun _ => .refl) fun old hold => ?_
  have hkey : t.tombstones.get? old.chunk = some old := Keyed.get?_of_get? hold
  split
  · exact .single (.updateTombstone hkey)
  · exact .refl

theorem acknowledgeGcDeletes_edits {deleted : List (ChunkId × WorkerTargetId)} :
    Within now op records s (acknowledgeGcDeletesInTxn deleted s) := by
  refine forEach_edits deleted fun row _ t => ?_
  refine outcome_findTombstone (fun _ => .refl) fun old hold => ?_
  have hkey : t.tombstones.get? old.chunk = some old := Keyed.get?_of_get? hold
  refine outcome_guard (fun _ => .refl) fun _ => ?_
  exact .single (.updateTombstone hkey)

/-! ## The lease and the workers -/

theorem gcPlan_state {leaseId : GcLeaseId} : (gcPlanInTxn leaseId s).2 = s :=
  Txn.bind_pure_state ..

theorem beginGc_edits {leaseId : GcLeaseId} (hop : op.collects = true)
    (hsets : op.setsLease (some leaseId) = true) :
    Within now op records s (beginGcInTxn leaseId s) := by
  refine Txn.outcome_reads ?_
  cases s.gcLease with
  | some current =>
    show Edits now op records s ((if current = leaseId then gcPlanInTxn leaseId else _) s).2
    split
    · rw [gcPlan_state]
    · exact .refl
  | none =>
    have hlease : Edits now op records s { s with gcLease := some leaseId } :=
      .single (.aside s s.clientRequests (some leaseId) s.workerMembership (.inr hsets) (.inl rfl))
    have hremoved := removeUnreferenced_edits hop hlease
    refine Txn.outcome_modify (Txn.outcome_reads (Txn.outcome_modify ?_))
    unfold Within
    rw [Txn.bind_pure_state, gcPlan_state]
    exact hremoved

theorem finishGc_edits {leaseId : GcLeaseId} (hsets : op.setsLease none = true) :
    Within now op records s (finishGcInTxn leaseId s) := by
  refine Txn.outcome_reads (outcome_guard (fun _ => .refl) fun _ => ?_)
  exact .single (.aside s s.clientRequests none s.workerMembership (.inr hsets) (.inl rfl))

theorem outcome_checkDeadline {P : Except FluxError β × Tables → Prop}
    {membership : WorkerMembership} {registration : WorkerRegistration} {f : Unit → MetaTxn β}
    (herr : ∀ e, P (.error e, s)) (hok : P (f () s)) :
    P ((checkDeadline membership registration >>= f) s) := by
  unfold checkDeadline
  split
  · exact outcome_guard herr fun _ => hok
  · exact hok

theorem registerWorker_edits {registration : WorkerRegistration} :
    Within now op records s (registerWorkerInTxn registration s) := by
  refine outcome_query_ok (fun _ => .refl) fun _ _ => ?_
  refine Txn.outcome_reads (outcome_guard (fun _ => .refl) fun _ => ?_)
  refine outcome_checkDeadline (fun _ => .refl) ?_
  exact .single (.aside s s.clientRequests s.gcLease _ (.inl rfl) (.inl rfl))

/-! ## The state machine -/

theorem pruneClientRequests_edits {cutoff maxToPrune : Nat} (h : Edits now op records s₀ s)
    (hprune : records ∨ op.prunes? = some (cutoff, maxToPrune)) :
    Edits now op records s₀ (pruneClientRequests s cutoff maxToPrune) :=
  h.tail (.aside s _ s.gcLease s.workerMembership (.inl rfl)
    (.inr (hprune.imp_right fun hop => ⟨cutoff, maxToPrune, hop, rfl⟩)))

/-- Wrapping the result of an operation into a response adds no write. -/
theorem within_respond {α : Type} {x : MetaTxn α} {g : α → β} (h : Within now op records s (x s)) :
    Within now op records s ((x >>= fun a => pure (g a)) s) := by
  unfold Within
  rw [Txn.bind_pure_state]
  exact h

theorem performOp_edits (op : MetaOp) (hself : op.isRename = true → s.NoSelfEntry) :
    Within now op records s (performOp now op s) := by
  cases op with
  | registerWorker registration => exact within_respond registerWorker_edits
  | create parent name fileType mode uid gid expected =>
    exact within_respond (createNode_edits (by simp [MetaOp.names]) of_decide_eq_true rfl fun _ => rfl)
  | symlink parent name target uid gid expected =>
    exact within_respond (symlink_edits (by simp [MetaOp.names]) of_decide_eq_true rfl)
  | putInode inode => exact .single (.raw s rfl)
  | putInodeCas expected inode => exact within_respond putInodeCas_edits
  | putManifest manifest => exact within_respond putManifest_edits
  | commitInodeManifest expected inode manifest =>
    exact within_respond (commitUnreserved_edits rfl)
  | reserveChunks ticket inode expected chunks expiresAt =>
    exact within_respond (reserveChunks_edits rfl)
  | abortChunkReservation ticket => exact .single (.dropReservations s [ticket])
  | expireChunkReservations cutoff maxToExpire =>
    exact pruneClientRequests_edits expireReservations_edits (.inr rfl)
  | pruneClientRequests cutoff maxToPrune => exact pruneClientRequests_edits .refl (.inr rfl)
  | commitInodeManifestReserved ticket expected inode manifest =>
    exact within_respond (commitReserved_edits rfl)
  | tombstoneGcBatch candidates => exact within_respond (tombstoneGcBatch_edits rfl)
  | finalizeGcTombstones chunks => exact within_respond (finalizeTombstones_edits rfl)
  | initializeGcDeleteTargets chunks targets => exact within_respond initializeGcTargets_edits
  | acknowledgeGcDeletes deleted => exact within_respond acknowledgeGcDeletes_edits
  | beginFlush expected inode intent => exact within_respond beginFlush_outcome.edits
  | commitFlush => exact within_respond commitFlush_outcome.edits
  | failFlushConflict => exact within_respond failFlush_outcome.edits
  | beginGc leaseId => exact within_respond (beginGc_edits rfl (decide_eq_true rfl))
  | finishGc leaseId => exact within_respond (finishGc_edits rfl)
  | importExternal parent name inode manifest expected => exact within_respond (import_edits rfl)
  | unlink parent name expected => exact within_respond unlink_edits
  | openInode sessionId inode => exact within_respond openInode_edits
  | closeInode sessionId inode => exact within_respond (closeInode_edits rfl)
  | recoverSession sessionId => exact within_respond (recoverSession_edits rfl)
  | link inode newParent newName expected => exact within_respond link_edits
  | setXattr expected inode name value mode => exact within_respond (setXattr_edits rfl)
  | removeXattr expected inode name => exact within_respond removeXattr_edits
  | rmdir parent name expected => exact within_respond rmdir_edits
  | rename oldParent oldName expectedOld newParent newName expectedNew noReplace =>
    exact within_respond (rename_edits (hself rfl))

theorem dispatch_edits (hself : s.NoSelfEntry) (op : MetaOp) :
    Edits now op records s (dispatch now op s).2 := by
  unfold dispatch
  split
  · exact .refl
  · exact performOp_edits op fun _ => hself

/-- Whatever an applied request answers, it changed the tables by edits of its
operation. -/
theorem applyRaftRequest_edits (hself : s.NoSelfEntry) (now : Clock) (req : MetaRaftRequest) :
    Edits now req.op True s (applyRaftRequest now req s).2 := by
  unfold applyRaftRequest
  split
  · exact dispatch_edits hself req.op
  · split
    · exact .refl
    · have hpruned : Edits now req.op True s
          (pruneClientRequests s req.ledgerNowUnixMs clientRequestPruneBatch) :=
        pruneClientRequests_edits .refl (.inl trivial)
      dsimp only
      split
      · exact hpruned
      · have hself' : (pruneClientRequests s req.ledgerNowUnixMs
            clientRequestPruneBatch).NoSelfEntry := hself
        exact (hpruned.trans (dispatch_edits hself' req.op)).tail
          (.aside _ _ _ _ (.inl rfl) (.inr (.inl trivial)))

end FluxFS
