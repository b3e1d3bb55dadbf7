import FluxFS.Chunk.PackRefines
import FluxFS.Client.Cluster
import FluxFS.Meta.Fence

/-!
# Reclaim — concurrent collection against writers

The fence of the metadata store says that a tombstoned chunk is in no live
manifest and in no reservation. A pass deletes from a list of tombstones that it
read earlier, and nothing renews its right to: once another pass has finalized a
chunk, a writer may reserve, store and commit it again. While every delete finds
the tombstone still there, no interleaving deletes live data.
-/

namespace FluxFS

open Std Kit

/-- `c` is in a Local extent of the manifest of a stored inode. -/
def Tables.References (s : Tables) (c : ChunkId) : Prop :=
  ∃ id i mid m, s.inodes.get? id = some i ∧ i.manifestId = some mid ∧ s.manifests[mid]? = some m ∧
    c ∈ m.localChunks

section
variable {hash : Bytes → ChunkId} {st st' : Cluster} {a : ClusterAction}

theorem not_references_of_unused {s : Tables} {c : ChunkId} (h : s.Unused c) :
    ¬ s.References c := by
  rintro ⟨id, i, mid, m, hi, hmid, hm, hc⟩
  exact h.1 id i mid m hi hmid hm hc

theorem MetaOp.client_of_isOther {op : MetaOp} (h : op.isOther = true) :
    op.isRaw = false ∧ op.importsLocal = false := by
  cases op with
  | putInode i => cases h
  | importExternal parent name inode manifest expected =>
    cases manifest with
    | none => exact ⟨rfl, rfl⟩
    | some manifest => exact ⟨rfl, (Bool.not_eq_true' _).mp h⟩
  | _ => exact ⟨rfl, rfl⟩

/-- Every request of a run is one that clients make. -/
theorem sends_client {r : MetaRequest} (h : clusterStep hash st a = some st')
    (hr : a.sends st = some r) : r.req.op.isRaw = false ∧ r.req.op.importsLocal = false := by
  cases a with
  | writer _ action | pass _ action | sweep _ action =>
    simp only [ClusterAction.sends, Writer.sends, Pass.sends, Sweep.sends] at hr
    split at hr
    all_goals cases hr
    all_goals exact ⟨rfl, rfl⟩
  | request r =>
    cases hr
    exact MetaOp.client_of_isOther (Option.ite_none_right_eq_some.mp h).1
  | repair c source target => cases hr

/-- What every client's request keeps, every step keeps. -/
theorem step_tables_keep {P : Tables → Prop} (h : clusterStep hash st a = some st')
    (hrequest : ∀ r : MetaRequest, a.sends st = some r → r.req.op.isRaw = false →
      r.req.op.importsLocal = false → P st.tables → P (applyRaftRequest r.now r.req st.tables).2)
    (hst : P st.tables) : P st'.tables := by
  rcases clusterStep_sent h with heq | ⟨r, hr, heq⟩
  · rw [heq]
    exact hst
  · obtain ⟨hraw, hlocal⟩ := sends_client h hr
    rw [heq]
    exact hrequest r hr hraw hlocal hst

theorem fence_step (h : clusterStep hash st a = some st')
    (hst : Grounded st.tables ∧ Fence st.tables) : Grounded st'.tables ∧ Fence st'.tables :=
  step_tables_keep (P := fun s => Grounded s ∧ Fence s) h
    (fun _ _ hraw hlocal hs => Fence.request ⟨hraw, hlocal⟩ hs) hst

end

/-! ## Deletes of a pass -/

/-- The replica a pass is about to delete. -/
def Pass.nextDelete : Pass → PassAction → Option (ChunkId × WorkerTargetId)
  | .deleting _ (row :: _) _ _, .delete _ => some row
  | _, _ => none

/-- The chunks a pass has listed and not yet deleted from every target. -/
def Pass.doomed : Pass → List ChunkId
  | .listed tombstones => tombstones.map (·.chunk)
  | .deleting _ todo _ _ => todo.map Prod.fst
  | _ => []

section
variable {hash : Bytes → ChunkId} {s t : Tables} {ws ws' : Workers} {p next : Pass} {a : PassAction}

/-- The only step of a pass that touches the workers deletes one replica. -/
theorem passStep_workers (h : passStep s ws p a = some (t, ws', next)) :
    ws' = ws ∨ ∃ c target, p.nextDelete a = some (c, target) ∧
      ws' = ws.deleteFromTarget c target := by
  unfold passStep at h
  split at h
  case h_7 =>
      split at h
      · cases h
        exact .inr ⟨_, _, rfl, rfl⟩
      · cases h
        exact .inl rfl
      · cases h
        exact .inr ⟨_, _, rfl, rfl⟩
  all_goals
    repeat' split at h
  all_goals
    cases h
  all_goals
    exact .inl rfl

theorem nextDelete_doomed {row : ChunkId × WorkerTargetId} (h : p.nextDelete a = some row) :
    row.1 ∈ p.doomed := by
  unfold Pass.nextDelete at h
  split at h
  · cases h
    exact List.mem_cons_self
  · cases h

theorem mem_pendingDeletes {tombstones : List GcTombstone} {targets : List WorkerTargetId}
    {c : ChunkId} (h : c ∈ (pendingDeletes tombstones targets).map Prod.fst) :
    c ∈ tombstones.map (·.chunk) := by
  obtain ⟨row, hrow, rfl⟩ := List.mem_map.mp h
  obtain ⟨tombstone, htombstone, hrow⟩ := List.mem_flatMap.mp hrow
  obtain ⟨target, _, rfl⟩ := List.mem_map.mp hrow
  exact List.mem_map_of_mem htombstone

theorem tombstoned_of_mem_rows {c : ChunkId} {tombstones : List GcTombstone}
    (hsub : ∀ x ∈ tombstones, x ∈ s.tombstones.rows) (h : c ∈ tombstones.map (·.chunk)) :
    (s.tombstones.get? c).isSome := by
  obtain ⟨x, hx, rfl⟩ := List.mem_map.mp h
  rw [Keyed.mem_rows.mp (hsub x hx)]
  rfl

/-- A pass adds a chunk to its list only when it reads the tombstone. -/
theorem passStep_doomed (h : passStep s ws p a = some (t, ws', next)) {c : ChunkId}
    (hc : c ∈ next.doomed) : c ∈ p.doomed ∨ (t = s ∧ (s.tombstones.get? c).isSome) := by
  unfold passStep at h
  split at h
  case h_2 =>
      split at h
      · cases h
        cases hc
      · cases h
        exact .inr ⟨rfl, tombstoned_of_mem_rows (fun _ => List.mem_of_mem_take) hc⟩
  case h_5 =>
      cases h
      exact .inr ⟨rfl, tombstoned_of_mem_rows (fun _ => List.mem_of_mem_filter) hc⟩
  case h_6 tombstones targets rpc =>
      cases h
      unfold onReply at hc
      split at hc
      · exact .inl (mem_pendingDeletes hc)
      · cases hc
  case h_7 =>
      split at h
      all_goals
        cases h
        exact .inl (List.mem_cons_of_mem _ hc)
  all_goals
    repeat' split at h
  all_goals
    cases h
  all_goals
    first
    | cases hc
    | (unfold onReply at hc
       split at hc <;> cases hc)

end

/-! ## Tombstones that are listed stay -/

section
variable {hash : Bytes → ChunkId} {st st' : Cluster} {a : ClusterAction}

theorem tombstone_edit {now : Clock} {op : MetaOp} {faulty records : Prop} {start : Keyed Inode.id}
    {s t : Tables} {c : ChunkId} (hop : op.finalizes c = false)
    (h : (s.tombstones.get? c).isSome) (e : Edit now op faulty records start s t) :
    (t.tombstones.get? c).isSome := by
  cases e with
  | tombstone | updateTombstone =>
    rw [Tables.putTombstone, Keyed.get?_put]
    split
    · rfl
    · exact h
  | @dropTombstone old d hd =>
    rw [Keyed.get?_delete, if_neg]
    · exact h
    · rintro rfl
      rw [hd] at hop
      cases hop
  | closePresence =>
    exact reapAll_keep (P := fun s => (s.tombstones.get? c).isSome) (fun _ _ _ hs _ _ _ => hs) _ h
  | _ => exact h

/-- No other pass has still to delete a chunk whose tombstone the step drops. -/
def FinalizesAlone (st : Cluster) (a : ClusterAction) : Prop :=
  ∀ r ∈ a.sends st, ∀ row ∈ st.passes.toList, ∀ c ∈ row.2.doomed, r.req.op.finalizes c = false

instance (st : Cluster) (a : ClusterAction) : Decidable (FinalizesAlone st a) :=
  inferInstanceAs (Decidable (∀ r ∈ a.sends st, ∀ row ∈ st.passes.toList,
    ∀ c ∈ row.2.doomed, r.req.op.finalizes c = false))

/-- What keeps passes off live chunks. -/
structure ReclaimInv (st : Cluster) : Prop where
  grounded : Grounded st.tables
  fence : Fence st.tables
  tombstoned : ∀ p, ∀ c ∈ (st.pass p).doomed, (st.tables.tombstones.get? c).isSome

/-- A step moves one pass at most. -/
theorem clusterStep_pass (h : clusterStep hash st a = some st') (q : Nat) :
    st'.pass q = st.pass q ∨ ∃ action, a = .pass q action ∧
      passStep st.tables st.workers (st.pass q) action =
        some (st'.tables, st'.workers, st'.pass q) := by
  cases a with
  | writer w action =>
    obtain ⟨_, h⟩ := Option.ite_none_right_eq_some.mp h
    obtain ⟨_, _, rfl⟩ := Option.map_eq_some_iff.mp h
    exact .inl rfl
  | pass p action =>
    obtain ⟨⟨t, ws, next⟩, hstep, rfl⟩ := Option.map_eq_some_iff.mp h
    by_cases hq : p = q
    · subst hq
      refine .inr ⟨action, rfl, ?_⟩
      rw [hstep]
      simp [Cluster.pass]
    · left
      show ((st.passes.insert p next)[q]?).getD .idle = _
      rw [Table.get_insert, if_neg hq]
      rfl
  | sweep q action =>
    obtain ⟨_, h⟩ := Option.ite_none_right_eq_some.mp h
    obtain ⟨_, _, rfl⟩ := Option.map_eq_some_iff.mp h
    exact .inl rfl
  | request r =>
    obtain ⟨_, h⟩ := Option.ite_none_right_eq_some.mp h
    cases h
    exact .inl rfl
  | repair c source target =>
    obtain ⟨_, _, rfl⟩ := Option.map_eq_some_iff.mp h
    exact .inl rfl

theorem mem_passes {q : Nat} {c : ChunkId} (h : c ∈ (st.pass q).doomed) :
    (q, st.pass q) ∈ st.passes.toList := by
  rw [Table.mem_rows]
  unfold Cluster.pass at h ⊢
  cases hq : st.passes[q]? with
  | none =>
    rw [hq] at h
    cases h
  | some pass => rfl

theorem ReclaimInv.fresh (start : Int) : ReclaimInv (Cluster.fresh start) where
  grounded := Grounded.fresh start
  fence := Fence.fresh start
  tombstoned p c h := by simp [Cluster.fresh, Cluster.pass, Pass.doomed] at h

theorem ReclaimInv.step (h : ReclaimInv st) (halone : FinalizesAlone st a)
    (hstep : clusterStep hash st a = some st') : ReclaimInv st' := by
  obtain ⟨hgrounded, hfence⟩ := fence_step hstep ⟨h.grounded, h.fence⟩
  -- a tombstone that some pass still relies on outlives the request
  have hkept : ∀ q, ∀ c ∈ (st.pass q).doomed, (st'.tables.tombstones.get? c).isSome := by
    intro q c hc
    apply step_tables_keep (P := fun s => (s.tombstones.get? c).isSome) hstep _
      (h.tombstoned q c hc)
    intro r hr _ _ hs
    exact request_keep (P := fun s => (s.tombstones.get? c).isSome) h.grounded
      (fun _ _ ha e => tombstone_edit (halone r hr _ (mem_passes hc) c hc) ha e) hs
  refine ⟨hgrounded, hfence, fun q c hc => ?_⟩
  rcases clusterStep_pass hstep q with heq | ⟨action, rfl, hpass⟩
  · exact hkept q c (heq ▸ hc)
  · rcases passStep_doomed hpass hc with hold | ⟨heq, hlisted⟩
    · exact hkept q c hold
    · rw [heq]
      exact hlisted

/-- A delete of a chunk that still has its tombstone. -/
theorem ReclaimInv.spares {p : Nat} {action : PassAction} (h : ReclaimInv st)
    (hstep : clusterStep hash st (.pass p action) = some st') {c : ChunkId}
    {target : WorkerTargetId} (hheld : (st.workers.held target c).isSome)
    (hgone : st'.workers.held target c = none) : st.tables.Unused c := by
  obtain ⟨⟨t, ws, next⟩, hpass, rfl⟩ := Option.map_eq_some_iff.mp hstep
  change ws.held target c = none at hgone
  rcases passStep_workers hpass with heq | ⟨d, other, hdelete, heq⟩
  · rw [heq] at hgone
    rw [hgone] at hheld
    cases hheld
  · rw [heq, Workers.held_deleteFromTarget] at hgone
    split at hgone
    · rename_i hsame
      obtain ⟨x, hx⟩ := Option.isSome_iff_exists.mp (h.tombstoned p d (nextDelete_doomed hdelete))
      rw [← hsame.2]
      exact h.fence.fenced d x hx
    · rw [hgone] at hheld
      cases hheld

theorem ReclaimInv.run {start : Int} {actions : List ClusterAction}
    (halone : Along (clusterStep hash) FinalizesAlone (Cluster.fresh start) actions)
    (hrun : exec (clusterStep hash) (Cluster.fresh start) actions = some st) : ReclaimInv st :=
  exec_invariant_along (fun _ _ _ h ha hstep => h.step ha hstep) actions _ st
    (ReclaimInv.fresh start) halone hrun

end

/-- For every interleaving of writers, passes, sweeps and other requests in which no
pass drops the tombstone of a chunk that another pass has listed and has still to
delete: no step of a pass removes a replica of a chunk that a stored inode's
manifest refers to. -/
theorem concurrent_gc_spares_live_chunks (hash : Bytes → ChunkId) (start : Int)
    (actions : List ClusterAction) (st st' : Cluster) (p : Nat) (action : PassAction)
    (halone : Along (clusterStep hash) FinalizesAlone (Cluster.fresh start) actions)
    (hrun : exec (clusterStep hash) (Cluster.fresh start) actions = some st)
    (hstep : clusterStep hash st (.pass p action) = some st')
    (c : ChunkId) (target : WorkerTargetId) (hheld : (st.workers.held target c).isSome)
    (hgone : st'.workers.held target c = none) : ¬ st.tables.References c :=
  not_references_of_unused ((ReclaimInv.run halone hrun).spares hstep hheld hgone)

/-! ## One chunk, two passes -/

instance (s : Tables) (c : ChunkId) : Decidable (s.References c) :=
  decidable_of_iff (c ∈ s.liveManifestChunks) mem_liveManifestChunks

/-- The id of the chunk `[1]`. -/
def sampleChunk : ChunkId := PackStore.sampleHash [1]

/-- A one-byte file. -/
def sampleManifest : Manifest := ⟨2, 1, 1, ⟨[.local 0 1 sampleChunk], List.pairwise_singleton _ _⟩⟩

/-- A write of that byte, up to the put on worker 0; request ids count from `id`. -/
def sampleWrite (w ticket id : Nat) : List ClusterAction :=
  [.writer w (.getInode 2), .writer w .getManifest,
    .writer w (.reserve ticket (.write 1 5) sampleManifest [(sampleChunk, [1])] 99
      ⟨.answered, 5, id, 0⟩),
    .writer w (.store 0)]

/-- The end of a write that `sampleWrite` began. -/
def sampleCommit (w id : Nat) : List ClusterAction :=
  [.writer w .putDone, .writer w (.commit ⟨.answered, 8, id, 0⟩)]

/-- A file is created and a first write of it fails after the put. -/
def sampleOrphan : List ClusterAction :=
  .request ⟨1, none, 0, .create rootInode "f" .regular 0o644 0 0 none⟩ :: sampleWrite 0 1 10 ++
    [.writer 0 .putFailed, .writer 0 (.abort ⟨.answered, 5, 11, 0⟩)]

/-- A pass tombstones the chunk the write has left behind. -/
def sampleTombstone : List ClusterAction :=
  [.pass 0 (.start 256 0 ⟨.answered, 6, 20, 0⟩), .pass 0 .list, .pass 0 (.page [sampleChunk]),
    .pass 0 (.tombstone ⟨.answered, 6, 21, 0⟩), .pass 0 .list,
    .pass 0 (.initTargets [0] ⟨.answered, 6, 22, 0⟩)]

/-- A second pass reclaims the same tombstone, and the file is written again. -/
def sampleOvertake : List ClusterAction :=
  [.pass 1 (.start 256 0 ⟨.answered, 7, 30, 0⟩), .pass 1 .list,
    .pass 1 (.initTargets [0] ⟨.answered, 7, 31, 0⟩), .pass 1 (.delete .answered),
    .pass 1 (.acknowledge ⟨.answered, 7, 32, 0⟩), .pass 1 (.finalize ⟨.answered, 7, 33, 0⟩)] ++
  sampleWrite 1 2 40 ++ [.writer 1 .putDone, .writer 1 (.commit ⟨.answered, 8, 41, 0⟩)]

theorem concurrent_gc_spares_live_chunks_sampleTombstone :
    ∃ st st', exec (clusterStep PackStore.sampleHash) (Cluster.fresh 0)
        (sampleOrphan ++ sampleTombstone) = some st ∧
      clusterStep PackStore.sampleHash st (.pass 0 (.delete .answered)) = some st' ∧
      st.workers.held 0 sampleChunk = some [1] ∧ st'.workers.held 0 sampleChunk = none ∧
      ¬ st.tables.References sampleChunk := by
  have hdone : (exec (clusterStep PackStore.sampleHash) (Cluster.fresh 0)
      (sampleOrphan ++ sampleTombstone)).any (fun st =>
        st.workers.held 0 sampleChunk = some [1] ∧
        (clusterStep PackStore.sampleHash st (.pass 0 (.delete .answered))).any
          (fun st' => st'.workers.held 0 sampleChunk = none)) = true := by decide +kernel
  obtain ⟨st, hrun, hend⟩ := (Option.any_eq_true _ _).mp hdone
  obtain ⟨hheld, hnext⟩ := of_decide_eq_true hend
  obtain ⟨st', hstep, hgone⟩ := (Option.any_eq_true _ _).mp hnext
  have hgone := of_decide_eq_true hgone
  exact ⟨st, st', hrun, hstep, hheld, hgone,
    concurrent_gc_spares_live_chunks PackStore.sampleHash 0 _ st st' 0 _ (by decide +kernel) hrun
      hstep sampleChunk 0 (by rw [hheld]; rfl) hgone⟩

/-- The first pass deletes from the list it read before the second one finalized: the
chunk is gone while the file refers to it. -/
theorem stale_pass_deletes_live_chunk :
    ∃ st st', exec (clusterStep PackStore.sampleHash) (Cluster.fresh 0)
        (sampleOrphan ++ sampleTombstone ++ sampleOvertake) = some st ∧
      clusterStep PackStore.sampleHash st (.pass 0 (.delete .answered)) = some st' ∧
      st.tables.References sampleChunk ∧
      st.workers.held 0 sampleChunk = some [1] ∧ st'.workers.held 0 sampleChunk = none := by
  have hdone : (exec (clusterStep PackStore.sampleHash) (Cluster.fresh 0)
      (sampleOrphan ++ sampleTombstone ++ sampleOvertake)).any (fun st =>
        (st.tables.References sampleChunk ∧ st.workers.held 0 sampleChunk = some [1]) ∧
        (clusterStep PackStore.sampleHash st (.pass 0 (.delete .answered))).any
          (fun st' => st'.workers.held 0 sampleChunk = none)) = true := by decide +kernel
  obtain ⟨st, hrun, hend⟩ := (Option.any_eq_true _ _).mp hdone
  obtain ⟨⟨href, hheld⟩, hnext⟩ := of_decide_eq_true hend
  obtain ⟨st', hstep, hgone⟩ := (Option.any_eq_true _ _).mp hnext
  exact ⟨st, st', hrun, hstep, href, hheld, of_decide_eq_true hgone⟩

end FluxFS
