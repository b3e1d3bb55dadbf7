import FluxFS.Client.Backed
import FluxFS.Client.ReadPath

/-!
# Reader — one read among writers and collectors

`read_at` looks up the inode, then its manifest, then one chunk per extent, and
holds nothing in between. A manifest is immutable and its id never used again, so
what a read assembles is the version it opened; but a tombstone batch removes the
manifests of overwritten versions at once, and with them the right of a slow reader
to their chunks. A batch that comes while the version is still the head takes nothing
from its readers.
-/

namespace FluxFS

open Std Kit

/-! ## The steps of a read -/

/-- `ChunkStore::get`: the first worker whose bytes have the id. -/
def Workers.get (hash : Bytes → ChunkId) (ws : Workers) (c : ChunkId) : Except FluxError Bytes :=
  match (ws.toList.filterMap (·.2[c]?)).find? (hash · = c) with
  | some data => .ok data
  | none => .error (.io s!"no readable remote replica for {c.toHex}")

/-- The workers and a UFS that serves the pinned objects. -/
def Workers.source (hash : Bytes → ChunkId) (contents : Contents) (ws : Workers) : ReadSource where
  chunk := ws.get hash
  ufs key object offset len :=
    .ok ((List.range len).map fun i => contents.object key object (offset + i))

/-- Where a `read_at` stands. -/
inductive Reader where
  | start (ino : InodeId) (offset len : Nat)
  | opened (inode : Inode) (mid : ManifestId) (offset len : Nat)
  | reading (inode : Inode) (offset stop : Nat) (output : Bytes) (rest : List Extent)
  | done (result : Except FluxError Bytes)

/-- The next lookup of `read_at`. -/
def readerStep (src : ReadSource) (s : Tables) : Reader → Reader
  | .start ino offset len =>
    match s.inodes.get? ino with
    | none => .done (.error .notFound)
    | some inode =>
      if inode.fileType ≠ .regular then .done (.error .isDirectory)
      else if readsNothing inode offset len then .done (.ok [])
      else
        match inode.manifestId with
        | none => .done (.ok [])
        | some mid => .opened inode mid offset len
  | .opened inode mid offset len =>
    match s.manifests[mid]? with
    | none => .done (.error .notFound)
    | some manifest =>
      .reading inode offset (readEnd inode offset len)
        (List.replicate (readEnd inode offset len - offset) 0) manifest.extents.extents
  | .reading inode offset stop output (e :: rest) =>
    match e.copy src inode.ufs offset stop output with
    | .ok output => .reading inode offset stop output rest
    | .error error => .done (.error error)
  | .reading _ _ _ output [] => .done (.ok output)
  | .done result => .done result

/-- The cluster and one read. -/
structure ReadState where
  cluster : Cluster
  reader : Reader

/-- A step of the reader or of anyone else. -/
inductive ReadAction
  | cluster (action : ClusterAction)
  | read

/-- The lookups of the read in one step. -/
def ReadAction.lookups : ReadAction → Nat
  | .read => 1
  | .cluster _ => 0

/-- One step. -/
def readStep (hash : Bytes → ChunkId) (contents : Contents) (st : ReadState) :
    ReadAction → Option ReadState
  | .cluster action => (clusterStep hash st.cluster action).map fun next =>
    { st with cluster := next }
  | .read => some { st with
      reader := readerStep (st.cluster.workers.source hash contents) st.cluster.tables st.reader }

/-! ## Versions -/

/-- The extents of the version a record names. -/
def versionExtents (s : Tables) (inode : Inode) : List Extent :=
  ((inode.manifestId.bind (s.manifests[·]?)).map (·.extents.extents)).getD []

/-- The requested bytes of the version a record names. -/
def versionRange (contents : Contents) (s : Tables) (inode : Inode) (offset len : Nat) : Bytes :=
  if readsNothing inode offset len then []
  else fileRange contents inode.ufs (versionExtents s inode) offset (readEnd inode offset len)

/-- The bytes a step puts. -/
def ClusterAction.puts (st : Cluster) : ClusterAction → Option Bytes
  | .writer w (.store _) =>
    match st.writer w with
    | .putting _ ((_, data) :: _) _ => some data
    | _ => none
  | _ => none

/-- Chunk ids do not collide: what is put is what `contents` has under its id. -/
def PutsAgree (hash : Bytes → ChunkId) (contents : Contents) (st : Cluster) (a : ClusterAction) :
    Prop :=
  ∀ data ∈ a.puts st, contents.chunk (hash data) = data

instance (hash : Bytes → ChunkId) (contents : Contents) (st : Cluster) (a : ClusterAction) :
    Decidable (PutsAgree hash contents st a) :=
  inferInstanceAs (Decidable (∀ data ∈ a.puts st, contents.chunk (hash data) = data))

/-! ## What a step does to the workers -/

/-- The workers after a step. -/
inductive Stored (hash : Bytes → ChunkId) (st : Cluster) (a : ClusterAction) : Workers → Prop
  | same : Stored hash st a st.workers
  | put {data : Bytes} {target : WorkerTargetId} (h : a.puts st = some data) :
      Stored hash st a (st.workers.store (hash data) data target)
  | pass {p : Nat} {action : PassAction} {c : ChunkId} {target : WorkerTargetId}
      (ha : a = .pass p action) (h : (st.pass p).nextDelete action = some (c, target)) :
      Stored hash st a (st.workers.deleteFromTarget c target)
  | sweep {q : Nat} {action : SweepAction} {c : ChunkId} {target : WorkerTargetId}
      (ha : a = .sweep q action) : Stored hash st a (st.workers.deleteFromTarget c target)
  | repair {c : ChunkId} {data : Bytes} {source target : WorkerTargetId}
      (h : st.workers.held source c = some data) : Stored hash st a (st.workers.store c data target)

section
variable {hash : Bytes → ChunkId} {st st' : Cluster} {a : ClusterAction}

theorem writerStep_workers {s t : Tables} {ws ws' : Workers} {w next : Writer}
    {action : WriterAction} (h : writerStep hash s ws w action = some (t, ws', next)) :
    ws' = ws ∨ ∃ job expected data rest stored target, w = .putting job ((expected, data) :: rest)
      stored ∧ action = .store target ∧ ws' = ws.store (hash data) data target := by
  unfold writerStep at h
  split at h
  case h_4 =>
      cases h
      exact .inr ⟨_, _, _, _, _, _, rfl, rfl, rfl⟩
  all_goals
    repeat' split at h
  all_goals
    cases h
  all_goals
    exact .inl rfl

theorem sweepStep_workers {s t : Tables} {ws ws' : Workers} {q next : Sweep} {action : SweepAction}
    (h : sweepStep s ws q action = some (t, ws', next)) :
    ws' = ws ∨ ∃ c target, ws' = ws.deleteFromTarget c target := by
  unfold sweepStep at h
  split at h
  case h_4 =>
      split at h
      · cases h
        exact .inr ⟨_, _, rfl⟩
      · cases h
        exact .inl rfl
      · cases h
        exact .inr ⟨_, _, rfl⟩
  all_goals
    repeat' split at h
  all_goals
    cases h
  all_goals
    exact .inl rfl

theorem clusterStep_stored (h : clusterStep hash st a = some st') :
    Stored hash st a st'.workers := by
  cases a with
  | writer w action =>
    obtain ⟨_, h⟩ := Option.ite_none_right_eq_some.mp h
    obtain ⟨⟨t, ws, next⟩, hstep, rfl⟩ := Option.map_eq_some_iff.mp h
    show Stored hash st _ ws
    rcases writerStep_workers hstep with rfl | ⟨job, expected, data, rest, stored, target, hw,
      rfl, rfl⟩
    · exact .same
    · exact .put (by rw [ClusterAction.puts, hw])
  | pass p action =>
    obtain ⟨⟨t, ws, next⟩, hstep, rfl⟩ := Option.map_eq_some_iff.mp h
    show Stored hash st _ ws
    rcases passStep_workers hstep with rfl | ⟨c, target, hdelete, rfl⟩
    · exact .same
    · exact .pass rfl hdelete
  | sweep q action =>
    obtain ⟨_, h⟩ := Option.ite_none_right_eq_some.mp h
    obtain ⟨⟨t, ws, next⟩, hstep, rfl⟩ := Option.map_eq_some_iff.mp h
    show Stored hash st _ ws
    rcases sweepStep_workers hstep with rfl | ⟨c, target, rfl⟩
    · exact .same
    · exact .sweep rfl
  | request r =>
    obtain ⟨_, h⟩ := Option.ite_none_right_eq_some.mp h
    cases h
    exact .same
  | repair c source target =>
    obtain ⟨data, hdata, rfl⟩ := Option.map_eq_some_iff.mp h
    exact .repair hdata

end

/-! ## What is read is what was opened -/

/-- Every replica has the bytes of its id. -/
def HeldAgree (hash : Bytes → ChunkId) (contents : Contents) (ws : Workers) : Prop :=
  ∀ target c data, ws.held target c = some data → hash data = c ∧ data = contents.chunk c

section
variable {hash : Bytes → ChunkId} {contents : Contents} {st st' : Cluster} {a : ClusterAction}

theorem heldAgree_store {ws : Workers} {c : ChunkId} {data : Bytes} {target : WorkerTargetId}
    (h : HeldAgree hash contents ws) (hhash : hash data = c) (hdata : data = contents.chunk c) :
    HeldAgree hash contents (ws.store c data target) := by
  intro other d bytes hheld
  rw [Workers.held_store] at hheld
  split at hheld
  · rename_i hsame
    cases hheld
    rw [← hsame.2]
    exact ⟨hhash, hdata⟩
  · exact h other d bytes hheld

theorem heldAgree_delete {ws : Workers} {c : ChunkId} {target : WorkerTargetId}
    (h : HeldAgree hash contents ws) : HeldAgree hash contents (ws.deleteFromTarget c target) := by
  intro other d bytes hheld
  rw [Workers.held_deleteFromTarget] at hheld
  split at hheld
  · cases hheld
  · exact h other d bytes hheld

theorem heldAgree_step (h : HeldAgree hash contents st.workers)
    (hputs : PutsAgree hash contents st a) (hstep : clusterStep hash st a = some st') :
    HeldAgree hash contents st'.workers := by
  have hstored := clusterStep_stored hstep
  generalize st'.workers = ws at hstored ⊢
  cases hstored with
  | same => exact h
  | put hput => exact heldAgree_store h rfl (hputs _ hput).symm
  | pass => exact heldAgree_delete h
  | sweep => exact heldAgree_delete h
  | repair hheld =>
    obtain ⟨hhash, hdata⟩ := h _ _ _ hheld
    exact heldAgree_store h hhash hdata

theorem get_sound (h : HeldAgree hash contents st.workers) {c : ChunkId} {data : Bytes}
    (hget : st.workers.get hash c = .ok data) : data = contents.chunk c := by
  unfold Workers.get at hget
  split at hget
  · rename_i found hfound
    cases hget
    obtain ⟨⟨target, row⟩, hrow, hdata⟩ := List.mem_filterMap.mp (List.mem_of_find?_eq_some hfound)
    have hheld : st.workers.held target c = some data := by
      rw [Table.mem_rows] at hrow
      rw [Workers.held, hrow]
      exact hdata
    exact (h target c data hheld).2
  · cases hget

theorem source_sound (h : HeldAgree hash contents st.workers) :
    (st.workers.source hash contents).Sound contents where
  chunk _ _ hget := get_sound h hget
  ufs _ _ _ _ _ hread := (Except.ok.inj hread).symm

/-- A replica that agrees makes the chunk readable. -/
theorem get_ok (h : HeldAgree hash contents st.workers) {c : ChunkId} {target : WorkerTargetId}
    {data : Bytes} (hheld : st.workers.held target c = some data) :
    st.workers.get hash c = .ok (contents.chunk c) := by
  obtain ⟨row, hrow, hdata⟩ := Option.bind_eq_some_iff.mp hheld
  have hmem : data ∈ st.workers.toList.filterMap (·.2[c]?) :=
    List.mem_filterMap.mpr ⟨(target, row), by rw [Table.mem_rows]; exact hrow, hdata⟩
  obtain ⟨found, hfound⟩ : ∃ found,
      (st.workers.toList.filterMap (·.2[c]?)).find? (hash · = c) = some found := by
    rw [← Option.isSome_iff_exists, List.find?_isSome]
    exact ⟨data, hmem, decide_eq_true (h target c data hheld).1⟩
  have hget : st.workers.get hash c = .ok found := by rw [Workers.get, hfound]
  rw [hget, get_sound h hget]

end

/-- The read of `[offset, offset + len)` that has opened `inode`. -/
structure OpenedRead where
  inode : Inode
  mid : ManifestId
  manifest : Manifest
  offset : Nat
  len : Nat

namespace OpenedRead

variable (r : OpenedRead)

/-- The end of the requested range within the file. -/
def stop : Nat := readEnd r.inode r.offset r.len

/-- The bytes the read is to return. -/
def bytes (contents : Contents) : Bytes :=
  fileRange contents r.inode.ufs r.manifest.extents.extents r.offset r.stop

/-- What the reader has so far is of the opened version. -/
def Matches (contents : Contents) : Reader → Prop
  | .start .. => False
  | .opened inode mid offset len =>
    inode = r.inode ∧ mid = r.mid ∧ offset = r.offset ∧ len = r.len
  | .reading inode offset stop output rest =>
    inode = r.inode ∧ offset = r.offset ∧ stop = r.stop ∧
      ∃ copied, r.manifest.extents.extents = copied ++ rest ∧
        output = fileRange contents r.inode.ufs copied r.offset r.stop
  | .done (.ok bytes) => bytes = r.bytes contents
  | .done (.error _) => True

end OpenedRead

section
variable {contents : Contents} {src : ReadSource} {s : Tables} {r : OpenedRead} {reader : Reader}

theorem fileRange_length (contents : Contents) (ufs : Option UfsObject) (extents : List Extent)
    (offset stop : Nat) : (fileRange contents ufs extents offset stop).length = stop - offset := by
  simp [fileRange]

theorem copy_fileRange {ufs : Option UfsObject} {offset stop : Nat} {copied : List Extent}
    {e : Extent} {result : Bytes} (hsrc : src.Sound contents) (hobject : e.InObject)
    (h : e.copy src ufs offset stop (fileRange contents ufs copied offset stop) = .ok result) :
    result = fileRange contents ufs (copied ++ [e]) offset stop := by
  obtain ⟨hlen, hget⟩ := Extent.copy_sound hsrc hobject (fileRange_length ..) h
  rw [fileRange_length] at hlen hget
  apply eq_map_range hlen
  intro i hi
  rw [hget i hi (fileByte contents ufs copied (offset + i)) (by simp [fileRange, hi])]
  simp only [fileByte, fileByteFrom, List.foldl_append, List.foldl_cons, List.foldl_nil]

/-- A lookup among tables where the manifest is the opened one, or gone. -/
theorem OpenedRead.matches_step (hsrc : src.Sound contents)
    (hobject : ∀ e ∈ r.manifest.extents.extents, e.InObject)
    (hmanifest : ∀ m, s.manifests[r.mid]? = some m → m = r.manifest)
    (h : r.Matches contents reader) : r.Matches contents (readerStep src s reader) := by
  cases reader with
  | start => exact h.elim
  | opened inode mid offset len =>
    obtain ⟨rfl, rfl, rfl, rfl⟩ := h
    rw [readerStep]
    split
    · trivial
    · rename_i m hm
      rw [hmanifest m hm]
      refine ⟨rfl, rfl, rfl, [], rfl, ?_⟩
      simp [fileRange, fileByte, fileByteFrom, OpenedRead.stop]
  | reading inode offset stop output rest =>
    obtain ⟨rfl, rfl, rfl, copied, hcopied, rfl⟩ := h
    cases rest with
    | nil =>
      rw [List.append_nil] at hcopied
      show _ = r.bytes contents
      rw [OpenedRead.bytes, hcopied]
    | cons e rest =>
      rw [readerStep]
      split
      · rename_i output hcopy
        refine ⟨rfl, rfl, rfl, copied ++ [e], by simp [hcopied], ?_⟩
        have hmem : e ∈ r.manifest.extents.extents := by simp [hcopied]
        exact copy_fileRange hsrc (hobject e hmem) hcopy
      · trivial
  | done result => exact h

end

/-! ## Any interleaving -/

/-- The read matches the version it opened, whose manifest is as it was or gone. -/
structure ReadInv (hash : Bytes → ChunkId) (contents : Contents) (r : OpenedRead)
    (st : ReadState) : Prop where
  grounded : Grounded st.cluster.tables
  fence : Fence st.cluster.tables
  held : HeldAgree hash contents st.cluster.workers
  allocated : r.mid < st.cluster.tables.nextManifest
  manifest : ∀ m, st.cluster.tables.manifests[r.mid]? = some m → m = r.manifest
  reader : r.Matches contents st.reader

/-- `PutsAgree` for the steps of the cluster. -/
def ReadPutsAgree (hash : Bytes → ChunkId) (contents : Contents) (st : ReadState) :
    ReadAction → Prop
  | .cluster action => PutsAgree hash contents st.cluster action
  | .read => True

instance (hash : Bytes → ChunkId) (contents : Contents) (st : ReadState) (a : ReadAction) :
    Decidable (ReadPutsAgree hash contents st a) :=
  match a with
  | .cluster action => inferInstanceAs (Decidable (PutsAgree hash contents st.cluster action))
  | .read => .isTrue trivial

section
variable {hash : Bytes → ChunkId} {contents : Contents} {r : OpenedRead} {st st' : ReadState}
  {a : ReadAction}

theorem ReadInv.step (hobject : ∀ e ∈ r.manifest.extents.extents, e.InObject)
    (h : ReadInv hash contents r st)
    (hputs : ReadPutsAgree hash contents st a) (hstep : readStep hash contents st a = some st') :
    ReadInv hash contents r st' := by
  cases a with
  | read =>
    cases hstep
    exact ⟨h.grounded, h.fence, h.held, h.allocated, h.manifest,
      OpenedRead.matches_step (source_sound h.held) hobject h.manifest h.reader⟩
  | cluster action =>
    obtain ⟨next, hnext, rfl⟩ := Option.map_eq_some_iff.mp hstep
    obtain ⟨hgrounded, hfence⟩ := fence_step hnext ⟨h.grounded, h.fence⟩
    have hheld := heldAgree_step h.held hputs hnext
    rcases refines_step h.grounded h.fence hnext with heq | ⟨_, _, _, hrefines⟩
    · refine ⟨hgrounded, hfence, hheld, ?_, ?_, h.reader⟩
      · rw [heq]
        exact h.allocated
      · rw [heq]
        exact h.manifest
    · refine ⟨hgrounded, hfence, hheld, Nat.lt_of_lt_of_le h.allocated hrefines.next,
        fun m hm => ?_, h.reader⟩
      rcases hrefines.manifests r.mid m hm with hold | hnew
      · exact h.manifest m hold
      · exact absurd hnew (Nat.not_le.mpr h.allocated)

end

/-! ## A read that no batch disturbs -/

/-- The lookups the read has still to make. -/
def Reader.left (extents : Nat) : Reader → Nat
  | .start .. => extents + 3
  | .opened .. => extents + 2
  | .reading _ _ _ _ rest => rest.length + 1
  | .done _ => 0

/-- The step is a sweep's. -/
def ClusterAction.isSweep : ClusterAction → Bool
  | .sweep .. => true
  | _ => false

/-- Concurrent passes only, none of which deletes from a stale list; chunk ids do not
collide and generations can advance. -/
def ReadScope (hash : Bytes → ChunkId) (contents : Contents) (st : Cluster) (a : ClusterAction) :
    Prop :=
  a.isSweep = false ∧ FinalizesAlone st a ∧ st.tables.GenerationsBelowMax ∧
    PutsAgree hash contents st a

instance (hash : Bytes → ChunkId) (contents : Contents) (st : Cluster) (a : ClusterAction) :
    Decidable (ReadScope hash contents st a) :=
  inferInstanceAs (Decidable (_ ∧ _))

/-- In that scope, a batch is sent only while some inode has the version. -/
def ReadUndisturbed (hash : Bytes → ChunkId) (contents : Contents) (version : Option ManifestId)
    (st : ReadState) : ReadAction → Prop
  | .cluster action => ReadScope hash contents st.cluster action ∧
      ∀ r ∈ action.sends st.cluster, r.req.op.collects = true →
        ∀ mid ∈ version, mid ∈ st.cluster.tables.activeManifests
  | .read => True

instance (hash : Bytes → ChunkId) (contents : Contents) (version : Option ManifestId)
    (st : ReadState) (a : ReadAction) : Decidable (ReadUndisturbed hash contents version st a) :=
  match a with
  | .cluster action => inferInstanceAs (Decidable (ReadScope hash contents st.cluster action ∧
      ∀ r ∈ action.sends st.cluster, r.req.op.collects = true →
        ∀ mid ∈ version, mid ∈ st.cluster.tables.activeManifests))
  | .read => .isTrue trivial

/-- Some worker has the chunk, in the length of the extent. -/
def Held (st : Cluster) (len : Nat) (c : ChunkId) : Prop :=
  ∃ target data, st.workers.held target c = some data ∧ data.length = len

section
variable {hash : Bytes → ChunkId} {contents : Contents} {st st' : Cluster} {a : ClusterAction}

/-- A chunk that no pass has still to delete stays where it is. -/
theorem held_step (hsweep : a.isSweep = false) (hheld : HeldAgree hash contents st.workers)
    (hputs : PutsAgree hash contents st a) (hstep : clusterStep hash st a = some st') {len : Nat}
    {c : ChunkId} (hspared : ∀ p, c ∉ (st.pass p).doomed) (h : Held st len c) : Held st' len c := by
  obtain ⟨target, data, hdata, hlen⟩ := h
  have hsame : data = contents.chunk c := (hheld target c data hdata).2
  have hstored := clusterStep_stored hstep
  unfold Held
  generalize st'.workers = ws at hstored ⊢
  cases hstored with
  | same => exact ⟨target, data, hdata, hlen⟩
  | @put bytes other hput =>
    by_cases hc : other = target ∧ hash bytes = c
    · refine ⟨target, bytes, ?_, ?_⟩
      · rw [Workers.held_store, if_pos hc]
      · rw [← hputs bytes hput, hc.2, ← hsame, hlen]
    · refine ⟨target, data, ?_, hlen⟩
      rw [Workers.held_store, if_neg hc]
      exact hdata
  | @pass p action d other ha hdelete =>
    refine ⟨target, data, ?_, hlen⟩
    rw [Workers.held_deleteFromTarget, if_neg]
    · exact hdata
    · rintro ⟨_, rfl⟩
      exact hspared p (nextDelete_doomed hdelete)
  | sweep ha =>
    rw [ha] at hsweep
    cases hsweep
  | @repair d bytes source other hbytes =>
    by_cases hc : other = target ∧ d = c
    · refine ⟨target, bytes, ?_, ?_⟩
      · rw [Workers.held_store, if_pos hc]
      · rw [(hheld source d bytes hbytes).2, hc.2, ← hsame, hlen]
    · refine ⟨target, data, ?_, hlen⟩
      rw [Workers.held_store, if_neg hc]
      exact hdata

/-- Every reference is backed by a replica. -/
structure ReadReady (hash : Bytes → ChunkId) (contents : Contents) (st : Cluster) : Prop where
  reclaim : ReclaimInv st
  backed : Backed hash Held st
  held : HeldAgree hash contents st.workers

theorem ReclaimInv.spared (h : ReclaimInv st) {c : ChunkId} (hused : ¬ st.tables.Unused c)
    (p : Nat) : c ∉ (st.pass p).doomed := by
  intro hc
  obtain ⟨x, hx⟩ := Option.isSome_iff_exists.mp (h.tombstoned p c hc)
  exact hused (h.fence.fenced c x hx)

theorem ReadReady.step (h : ReadReady hash contents st) (hscope : ReadScope hash contents st a)
    (hstep : clusterStep hash st a = some st') : ReadReady hash contents st' := by
  obtain ⟨hsweep, halone, hmax, hputs⟩ := hscope
  refine ⟨h.reclaim.step halone hstep, ?_, heldAgree_step h.held hputs hstep⟩
  apply h.backed.step hmax hstep
  · exact fun len c hused hc => held_step hsweep h.held hputs hstep (h.reclaim.spared hused) hc
  · rintro w job expected data rest stored target hw rfl
    have hmoves := writer_moves hstep
    rw [hw] at hmoves
    have hworkers : st.workers.store (hash data) data target = st'.workers :=
      congrArg (fun o : Tables × Workers × Writer => o.2.1) (Option.some.inj hmoves)
    refine ⟨target, data, ?_, rfl⟩
    rw [← hworkers, Workers.held_store, if_pos ⟨rfl, rfl⟩]

theorem ReadReady.run {start : Int} {actions : List ClusterAction}
    (hscope : Along (clusterStep hash) (ReadScope hash contents) (Cluster.fresh start) actions)
    (hrun : exec (clusterStep hash) (Cluster.fresh start) actions = some st) :
    ReadReady hash contents st := by
  refine exec_invariant_along (fun _ _ _ h ha hstep => h.step ha hstep) actions _ st ?_ hscope hrun
  refine ⟨ReclaimInv.fresh start, Backed.fresh hash Held start, fun target c data h => ?_⟩
  simp [Cluster.fresh, Workers.held] at h

/-- No tombstone added and no manifest removed. -/
structure Uncollected (s t : Tables) : Prop where
  tombstones : ∀ c, s.tombstones.get? c = none → t.tombstones.get? c = none
  manifests : ∀ (mid : ManifestId) m, s.manifests[mid]? = some m → t.manifests[mid]? = some m

theorem Uncollected.refl (s : Tables) : Uncollected s s := ⟨fun _ h => h, fun _ _ h => h⟩

theorem uncollected_edit {now : Clock} {op : MetaOp} {faulty records : Prop} {start : Keyed Inode.id}
    {s t : Tables} (hop : op.collects = false) (hfence : Fence s)
    (e : Edit now op faulty records start s t) : Uncollected s t := by
  have hadd : ∀ n, ∀ (mid : ManifestId) m, s.manifests[mid]? = some m →
      (s.addManifest n).manifests[mid]? = some m := by
    intro n mid m hm
    rw [Tables.addManifest, Table.get_insert, if_neg]
    · exact hm
    · exact Nat.ne_of_gt (hfence.manifestsBelow mid m hm)
  cases e with
  | tombstone hcollects =>
    rw [hop] at hcollects
    cases hcollects
  | removeManifests hcollects =>
    rw [hop] at hcollects
    cases hcollects
  | @updateTombstone old new hold =>
    refine ⟨fun c hc => ?_, fun _ _ hm => hm⟩
    rw [Tables.putTombstone, Keyed.get?_put, if_neg]
    · exact hc
    · rintro rfl
      rw [hc] at hold
      cases hold
  | dropTombstone =>
    refine ⟨fun c hc => ?_, fun _ _ hm => hm⟩
    rw [Keyed.get?_delete]
    split
    · rfl
    · exact hc
  | addManifest n => exact ⟨fun _ hc => hc, hadd n⟩
  | commitImage => exact ⟨fun _ hc => hc, hadd _⟩
  | closePresence =>
    exact reapAll_keep (P := Uncollected s) (fun _ _ _ ha _ _ _ => ⟨ha.1, ha.2⟩) _
      ⟨fun _ hc => hc, fun _ _ hm => hm⟩
  | _ => exact ⟨fun _ hc => hc, fun _ _ hm => hm⟩

theorem uncollected_step (hgrounded : Grounded st.tables) (hfence : Fence st.tables)
    (hops : ∀ r ∈ a.sends st, r.req.op.collects = false)
    (hstep : clusterStep hash st a = some st') : Uncollected st.tables st'.tables := by
  have hkeep : Fence st'.tables ∧ Uncollected st.tables st'.tables := by
    apply step_tables_keep (P := fun t => Fence t ∧ Uncollected st.tables t) hstep _
      ⟨hfence, .refl _⟩
    intro r hr hraw hlocal h
    apply request_keep (P := fun t => Fence t ∧ Uncollected st.tables t) hgrounded _ h
    rintro a b ⟨hfence, hsame⟩ e
    have hedit := uncollected_edit (hops r hr) hfence e
    exact ⟨hfence.edit hraw hlocal e, fun c hc => hedit.tombstones c (hsame.tombstones c hc),
      fun mid m hm => hedit.manifests mid m (hsame.manifests mid m hm)⟩
  exact hkeep.2

/-- The two have the same inode rows. -/
def SameInodes (s t : Tables) : Prop := t.inodes = s.inodes

instance : Std.Refl SameInodes := ⟨fun _ => rfl⟩

instance : IsTrans Tables SameInodes := ⟨fun _ _ _ h h' => h'.trans h⟩

/-- A collecting request does not touch an inode. -/
theorem performOp_collects (now : Clock) {op : MetaOp} (hop : op.collects = true) :
    Txn.Keeps SameInodes (performOp now op) := by
  have hplan (leaseId : GcLeaseId) : Txn.Keeps SameInodes (gcPlanInTxn leaseId) :=
    .query_bind fun _ => .pure _
  cases op with
  | tombstoneGcBatch candidates =>
    have hfold : ∀ (chunks : List ChunkId) (s : Tables),
        SameInodes s (chunks.foldl (fun s chunk => s.putTombstone (.fresh chunk)) s) := by
      intro chunks
      induction chunks with
      | nil => exact fun _ => rfl
      | cons chunk chunks ih => exact fun s => ih (s.putTombstone (.fresh chunk))
    have hbatch : Txn.Keeps SameInodes (tombstoneGcBatchInTxn candidates) :=
      .reads_bind fun _ => .reads_bind fun _ => .modify_bind (fun _ => rfl) fun _ =>
        .modify_bind (hfold _) fun _ => .pure _
    exact hbatch.bind fun _ => .pure _
  | beginGc leaseId =>
    have hbegin : Txn.Keeps SameInodes (beginGcInTxn leaseId) := by
      refine .reads_bind fun lease => ?_
      cases lease with
      | none =>
        refine .modify_bind (fun _ => rfl) fun _ => .reads_bind fun _ => ?_
        exact .modify_bind (fun _ => rfl) fun _ => (hplan leaseId).bind fun _ => .pure _
      | some current =>
        dsimp only
        split
        · exact hplan leaseId
        · exact .fail _
    exact hbegin.bind fun _ => .pure _
  | _ => cases hop

theorem inodes_step {r : MetaRequest} (hr : a.sends st = some r) (hop : r.req.op.collects = true)
    (hstep : clusterStep hash st a = some st') : st'.tables.inodes = st.tables.inodes := by
  rcases clusterStep_sent hstep with heq | ⟨sent, hsent, heq⟩
  · rw [heq]
  · cases hr.symm.trans hsent
    rw [heq]
    cases hexec : r.req.executes st.tables with
    | false =>
      obtain ⟨after, heq⟩ := applyRaftRequest_of_not_executes r.now hexec
      rw [heq]
    | true =>
      obtain ⟨before, after, -, heq⟩ := applyRaftRequest_of_executes r.now hexec
      rw [heq]
      exact performOp_collects r.now hop _

end

/-- The UFS ranges of the version lie in the object its inode is pinned to. -/
def Pinned (inode : Inode) (extents : List Extent) : Prop :=
  ∀ e ∈ extents, e.InObject ∧ (e.localChunk? = none → inode.ufs.isSome)

instance (inode : Inode) (extents : List Extent) : Decidable (Pinned inode extents) :=
  inferInstanceAs (Decidable (∀ e ∈ extents, _))

/-- The opened version is still there, chunk by chunk. -/
structure ReadServed (hash : Bytes → ChunkId) (contents : Contents) (r : OpenedRead)
    (st : ReadState) : Prop where
  ready : ReadReady hash contents st.cluster
  inv : ReadInv hash contents r st
  present : st.cluster.tables.manifests[r.mid]? = some r.manifest
  chunks : ∀ offset len c, .local offset len c ∈ r.manifest.extents.extents →
    st.cluster.tables.tombstones.get? c = none ∧ Held st.cluster len c
  unfailed : ∀ e, st.reader ≠ .done (.error e)

section
variable {hash : Bytes → ChunkId} {contents : Contents} {r : OpenedRead} {st st' : ReadState}
  {a : ReadAction}

theorem ReadServed.supplies (h : ReadServed hash contents r st)
    (hpinned : Pinned r.inode r.manifest.extents.extents) {e : Extent}
    (he : e ∈ r.manifest.extents.extents) :
    (st.cluster.workers.source hash contents).Supplies contents r.inode.ufs e := by
  cases e with
  | «local» offset len c =>
    obtain ⟨target, data, hdata, hlen⟩ := (h.chunks offset len c he).2
    refine ⟨get_ok h.ready.held hdata, ?_⟩
    rw [← (h.ready.held target c data hdata).2, hlen]
  | ufsRange offset len key version oio =>
    obtain ⟨object, hobject⟩ := Option.isSome_iff_exists.mp ((hpinned _ he).2 rfl)
    exact ⟨object, hobject, fun _ _ _ _ => rfl⟩

theorem ReadServed.reader_step (h : ReadServed hash contents r st)
    (hpinned : Pinned r.inode r.manifest.extents.extents) (e : FluxError) :
    readerStep (st.cluster.workers.source hash contents) st.cluster.tables st.reader ≠
      .done (.error e) := by
  have hmatches := h.inv.reader
  cases hreader : st.reader with
  | start =>
    rw [hreader] at hmatches
    exact hmatches.elim
  | opened inode mid offset len =>
    rw [hreader] at hmatches
    obtain ⟨_, rfl, _⟩ := hmatches
    rw [readerStep, h.present]
    exact Reader.noConfusion
  | reading inode offset stop output rest =>
    rw [hreader] at hmatches
    obtain ⟨rfl, _, _, copied, hcopied, _⟩ := hmatches
    cases rest with
    | nil =>
      intro heq
      cases heq
    | cons x rest =>
      have hmem : x ∈ r.manifest.extents.extents := by simp [hcopied]
      obtain ⟨next, hnext⟩ : ∃ next, x.copy (st.cluster.workers.source hash contents)
          r.inode.ufs offset stop output = .ok next :=
        Extent.copy_supplied (h.supplies hpinned hmem) (hpinned x hmem).1 ..
      rw [readerStep, hnext]
      exact Reader.noConfusion
  | done result =>
    intro heq
    exact h.unfailed e (hreader.trans heq)

/-- The opened manifest and the chunks it names survive a step: it does not collect, or the
version is still a head after it. -/
theorem ReadServed.kept (h : ReadServed hash contents r st) {action : ClusterAction}
    {next : Cluster} (hstep : clusterStep hash st.cluster action = some next)
    (hbatch : ∀ q ∈ action.sends st.cluster, q.req.op.collects = true →
      r.mid ∈ st.cluster.tables.activeManifests)
    (hinv : ReadInv hash contents r { st with cluster := next }) :
    next.tables.manifests[r.mid]? = some r.manifest ∧
      ∀ offset len c, .local offset len c ∈ r.manifest.extents.extents →
        next.tables.tombstones.get? c = none := by
  by_cases hcollects : ∃ q, action.sends st.cluster = some q ∧ q.req.op.collects = true
  · obtain ⟨q, hq, hop⟩ := hcollects
    have hactive : r.mid ∈ next.tables.activeManifests := by
      rw [Tables.activeManifests, inodes_step hq hop hstep]
      exact hbatch q hq hop
    obtain ⟨m, hm⟩ := hinv.fence.present r.mid hactive
    cases hinv.manifest m hm
    refine ⟨hm, fun offset len c he => ?_⟩
    have hrefers : next.tables.RefersTo len c := ⟨r.mid, hactive, _, offset, hm, he⟩
    cases hx : next.tables.tombstones.get? c with
    | none => rfl
    | some x => exact absurd (hinv.fence.fenced c x hx) hrefers.used
  · have hops : ∀ q ∈ action.sends st.cluster, q.req.op.collects = false := by
      intro q hq
      rw [← Bool.not_eq_true]
      exact fun hop => hcollects ⟨q, hq, hop⟩
    have hkept := uncollected_step h.inv.grounded h.inv.fence hops hstep
    exact ⟨hkept.manifests _ _ h.present,
      fun offset len c he => hkept.tombstones c (h.chunks offset len c he).1⟩

theorem ReadServed.step (hpinned : Pinned r.inode r.manifest.extents.extents)
    (h : ReadServed hash contents r st)
    (hok : ReadUndisturbed hash contents (some r.mid) st a)
    (hstep : readStep hash contents st a = some st') : ReadServed hash contents r st' := by
  have hobject : ∀ e ∈ r.manifest.extents.extents, e.InObject := fun e he => (hpinned e he).1
  cases a with
  | read =>
    have hinv := h.inv.step hobject (a := .read) trivial hstep
    cases hstep
    exact ⟨h.ready, hinv, h.present, h.chunks, h.reader_step hpinned⟩
  | cluster action =>
    obtain ⟨hscope, hops⟩ := hok
    have hinv := h.inv.step hobject (a := .cluster action) hscope.2.2.2 hstep
    obtain ⟨next, hnext, rfl⟩ := Option.map_eq_some_iff.mp hstep
    obtain ⟨hpresent, hfree'⟩ := h.kept hnext (fun q hq hop => hops q hq hop _ rfl) hinv
    refine ⟨h.ready.step hscope hnext, hinv, hpresent, fun offset len c he => ?_, h.unfailed⟩
    obtain ⟨hfree, hheld⟩ := h.chunks offset len c he
    refine ⟨hfree' offset len c he, ?_⟩
    apply held_step hscope.1 h.ready.held hscope.2.2.2 hnext _ hheld
    intro p hdoomed
    have hsome := h.ready.reclaim.tombstoned p c hdoomed
    rw [hfree] at hsome
    cases hsome

/-- Every lookup brings the read closer to its end. -/
theorem ReadInv.left_step (h : ReadInv hash contents r st)
    (hstep : readStep hash contents st a = some st') :
    st'.reader.left r.manifest.extents.extents.length ≤
      st.reader.left r.manifest.extents.extents.length -
        a.lookups := by
  cases a with
  | cluster action =>
    obtain ⟨next, _, rfl⟩ := Option.map_eq_some_iff.mp hstep
    exact Nat.le_refl _
  | read =>
    cases hstep
    have hmatches := h.reader
    show (readerStep _ _ st.reader).left _ ≤ _
    cases hreader : st.reader with
    | start =>
      rw [hreader] at hmatches
      exact hmatches.elim
    | opened inode mid offset len =>
      rw [hreader] at hmatches
      obtain ⟨_, rfl, _⟩ := hmatches
      rw [readerStep]
      split
      · exact Nat.zero_le _
      · rename_i m hm
        rw [h.manifest m hm]
        exact Nat.le_refl _
    | reading inode offset stop output rest =>
      cases rest with
      | nil => exact Nat.le_refl _
      | cons e rest =>
        rw [readerStep]
        split
        · exact Nat.le_refl _
        · exact Nat.zero_le _
    | done result => exact Nat.le_refl _

theorem left_run (hobject : ∀ e ∈ r.manifest.extents.extents, e.InObject)
    (actions : List ReadAction) (h : ReadInv hash contents r st)
    (hputs : Along (readStep hash contents) (ReadPutsAgree hash contents) st actions)
    (hrun : exec (readStep hash contents) st actions = some st') :
    st'.reader.left r.manifest.extents.extents.length ≤
      st.reader.left r.manifest.extents.extents.length - (actions.map (·.lookups)).sum := by
  induction actions generalizing st with
  | nil =>
    cases hrun
    exact Nat.le_refl _
  | cons a actions ih =>
    obtain ⟨next, hstep, hrun⟩ := exec_cons_some hrun
    have hfirst := h.left_step hstep
    have hrest := ih (h.step hobject hputs.1 hstep) (hputs.2 next hstep) hrun
    rw [List.map_cons, List.sum_cons]
    omega

end

theorem Reader.done_of_left {extents : Nat} {reader : Reader} (h : reader.left extents = 0) :
    ∃ result, reader = .done result := by
  cases reader with
  | done result => exact ⟨result, rfl⟩
  | _ => cases h

/-! ## One read in a run -/

section
variable {hash : Bytes → ChunkId} {contents : Contents} {st : Cluster} {ino : InodeId}
  {inode : Inode} {offset len : Nat}

/-- What the first lookup of a regular file leaves: an answer, or an opened version. -/
theorem readerStep_start (src : ReadSource) (hinode : st.tables.inodes.get? ino = some inode)
    (hregular : inode.fileType = .regular) (hfence : Fence st.tables) :
    (readsNothing inode offset len ∧
      readerStep src st.tables (.start ino offset len) = .done (.ok [])) ∨
    ∃ mid manifest, ¬ readsNothing inode offset len ∧ inode.manifestId = some mid ∧
      st.tables.manifests[mid]? = some manifest ∧
      readerStep src st.tables (.start ino offset len) = .opened inode mid offset len := by
  by_cases hnothing : readsNothing inode offset len
  · left
    refine ⟨hnothing, ?_⟩
    simp [readerStep, hinode, hregular, hnothing]
  · right
    cases hmid : inode.manifestId with
    | none => exact absurd (.inr (.inr hmid)) hnothing
    | some mid =>
      obtain ⟨_, manifest, hmanifest⟩ := hfence.allocated hinode hmid
      refine ⟨mid, manifest, hnothing, rfl, hmanifest, ?_⟩
      simp [readerStep, hinode, hregular, hnothing, hmid]

theorem heldAgree_run {start : Int} {actions : List ClusterAction}
    (hputs : Along (clusterStep hash) (PutsAgree hash contents) (Cluster.fresh start) actions)
    (hrun : exec (clusterStep hash) (Cluster.fresh start) actions = some st) :
    (Grounded st.tables ∧ Fence st.tables) ∧ HeldAgree hash contents st.workers := by
  refine exec_invariant_along
    (I := fun st => (Grounded st.tables ∧ Fence st.tables) ∧ HeldAgree hash contents st.workers)
    (fun _ _ _ h ha hstep => ⟨fence_step hstep h.1, heldAgree_step h.2 ha hstep⟩)
    actions _ st ⟨⟨Grounded.fresh start, Fence.fresh start⟩, fun target c data h => ?_⟩ hputs hrun
  simp [Cluster.fresh, Workers.held] at h

theorem done_stays {result : Except FluxError Bytes} {actions : List ReadAction}
    {rst rst' : ReadState} (h : rst.reader = .done result)
    (hrun : exec (readStep hash contents) rst actions = some rst') : rst'.reader =
      .done result := by
  refine exec_invariant (I := fun rst => rst.reader = .done result) ?_ actions rst rst' h hrun
  intro rst a next h hstep
  cases a with
  | cluster action =>
    obtain ⟨_, _, rfl⟩ := Option.map_eq_some_iff.mp hstep
    exact h
  | read =>
    cases hstep
    show readerStep _ _ rst.reader = _
    rw [h, readerStep]

/-- A read that has opened a version, at the moment it has. -/
theorem readInv_opened {mid : ManifestId} {manifest : Manifest}
    (hst : (Grounded st.tables ∧ Fence st.tables) ∧ HeldAgree hash contents st.workers)
    (hmanifest : st.tables.manifests[mid]? = some manifest) :
    ReadInv hash contents ⟨inode, mid, manifest, offset, len⟩
      ⟨st, .opened inode mid offset len⟩ where
  grounded := hst.1.1
  fence := hst.1.2
  held := hst.2
  allocated := hst.1.2.manifestsBelow mid manifest hmanifest
  manifest _ hm := Option.some.inj (hm.symm.trans hmanifest)
  reader := ⟨rfl, rfl, rfl, rfl⟩

theorem readServed_opened {mid : ManifestId} {manifest : Manifest}
    (hready : ReadReady hash contents st) (hinode : st.tables.inodes.get? ino = some inode)
    (hmid : inode.manifestId = some mid) (hmanifest : st.tables.manifests[mid]? = some manifest) :
    ReadServed hash contents ⟨inode, mid, manifest, offset, len⟩
      ⟨st, .opened inode mid offset len⟩ where
  ready := hready
  inv := readInv_opened ⟨⟨hready.reclaim.grounded, hready.reclaim.fence⟩, hready.held⟩ hmanifest
  present := hmanifest
  chunks o n c he := by
    have hrefers : st.tables.RefersTo n c :=
      ⟨mid, activeManifests_of_stored hinode hmid, manifest, o, hmanifest, he⟩
    refine ⟨?_, hready.backed.live n c hrefers⟩
    cases hx : st.tables.tombstones.get? c with
    | none => rfl
    | some x => exact absurd (hready.reclaim.fence.fenced c x hx) hrefers.used
  unfailed _ := Reader.noConfusion

end

/-- For every interleaving of one `read_at` with any steps of the cluster: if it
returns `Ok`, it returns the requested bytes of the version that was the head when it
looked the inode up; and if only concurrent passes collect, none of them from a stale
list, and between that moment and the last lookup a batch is sent only while the version
has not been replaced, it does return those bytes once it has made its lookups. -/
theorem read_returns_opened_version (hash : Bytes → ChunkId) (contents : Contents) (start : Int)
    (before : List ClusterAction) (st : Cluster) (ino : InodeId) (inode : Inode) (offset len : Nat)
    (later : List ReadAction) (st' : ReadState)
    (hbefore : Along (clusterStep hash) (PutsAgree hash contents) (Cluster.fresh start) before)
    (hrun : exec (clusterStep hash) (Cluster.fresh start) before = some st)
    (hinode : st.tables.inodes.get? ino = some inode) (hregular : inode.fileType = .regular)
    (hpinned : Pinned inode (versionExtents st.tables inode))
    (hlater : Along (readStep hash contents) (ReadPutsAgree hash contents)
      ⟨st, .start ino offset len⟩ (.read :: later))
    (hread : exec (readStep hash contents) ⟨st, .start ino offset len⟩ (.read :: later) =
      some st') :
    (∀ bytes, st'.reader = .done (.ok bytes) →
      bytes = versionRange contents st.tables inode offset len) ∧
    (Along (clusterStep hash) (ReadScope hash contents) (Cluster.fresh start) before →
      Along (readStep hash contents) (ReadUndisturbed hash contents inode.manifestId)
        ⟨st, .start ino offset len⟩ (.read :: later) →
      (versionExtents st.tables inode).length + 2 ≤ (later.map (·.lookups)).sum →
      st'.reader = .done (.ok (versionRange contents st.tables inode offset len))) := by
  have hst := heldAgree_run hbefore hrun
  obtain ⟨first, hfirst, hread⟩ := exec_cons_some hread
  have hlater := hlater.2 first hfirst
  cases hfirst
  rcases readerStep_start (st.workers.source hash contents) hinode hregular hst.1.2 with
    ⟨hnothing, hdone⟩ | ⟨mid, manifest, hsome, hmid, hmanifest, hopened⟩
  · have hend := done_stays hdone hread
    rw [versionRange, if_pos hnothing]
    refine ⟨fun bytes hbytes => ?_, fun _ _ _ => hend⟩
    rw [hend] at hbytes
    cases hbytes
    rfl
  · have hextents : versionExtents st.tables inode = manifest.extents.extents := by
      rw [versionExtents, hmid, Option.bind_some, hmanifest]
      rfl
    rw [versionRange, if_neg hsome, hextents]
    rw [hextents] at hpinned
    rw [hopened] at hread hlater
    have hobject : ∀ e ∈ manifest.extents.extents, e.InObject := fun e he => (hpinned e he).1
    have hopen : ReadInv hash contents ⟨inode, mid, manifest, offset, len⟩
        ⟨st, .opened inode mid offset len⟩ := readInv_opened hst hmanifest
    have hinv : ReadInv hash contents ⟨inode, mid, manifest, offset, len⟩ st' :=
      exec_invariant_along (fun _ _ _ h ha hstep => h.step hobject ha hstep) later _ st' hopen
        hlater hread
    refine ⟨fun bytes hbytes => ?_, fun hscope hundisturbed hlookups => ?_⟩
    · have hmatches := hinv.reader
      rw [hbytes] at hmatches
      exact hmatches
    · have hundisturbed := hundisturbed.2 _ rfl
      rw [hopened, hmid] at hundisturbed
      have hserved : ReadServed hash contents ⟨inode, mid, manifest, offset, len⟩ st' :=
        exec_invariant_along (fun _ _ _ h ha hstep => h.step hpinned ha hstep) later _ st'
          (readServed_opened (ReadReady.run hscope hrun) hinode hmid hmanifest) hundisturbed hread
      have hleft := left_run hobject later hopen hlater hread
      obtain ⟨result, hresult⟩ := Reader.done_of_left (Nat.le_zero.mp (by
        refine Nat.le_trans hleft ?_
        show manifest.extents.extents.length + 2 - _ ≤ 0
        omega))
      cases result with
      | error e => exact absurd hresult (hserved.unfailed e)
      | ok bytes =>
        have hmatches := hinv.reader
        rw [hresult] at hmatches ⊢
        rw [show bytes = _ from hmatches]
        rfl

/-! ## One read and one overwrite -/

/-- The answer of a read that has ended. -/
def Reader.answer? : Reader → Option (Except FluxError Bytes)
  | .done result => some result
  | _ => none

/-- The two one-byte chunks of the runs below; no UFS object. -/
def sampleContents : Contents where
  chunk c := if c = sampleChunk then [1] else if c = PackStore.sampleHash [2] then [2] else []
  object _ _ _ := 0

/-- A file with the byte 1. -/
def sampleFile : List ClusterAction :=
  .request ⟨1, none, 0, .create rootInode "f" .regular 0o644 0 0 none⟩ :: sampleWrite 0 1 10 ++
    sampleCommit 0 12

/-- The byte 2 in its place. -/
def sampleOverwrite : List ClusterAction :=
  [.writer 1 (.getInode 2), .writer 1 .getManifest,
    .writer 1 (.reserve 2 (.write 1 7)
      ⟨2, 3, 1, ⟨[.local 0 1 (PackStore.sampleHash [2])], List.pairwise_singleton _ _⟩⟩
      [(PackStore.sampleHash [2], [2])] 99 ⟨.answered, 7, 40, 0⟩),
    .writer 1 (.store 0)] ++ sampleCommit 1 41

/-- A complete pass that finds the first chunk unused. -/
def samplePass : List ClusterAction :=
  [.pass 0 (.start 256 0 ⟨.answered, 9, 50, 0⟩), .pass 0 .list, .pass 0 (.page [sampleChunk]),
    .pass 0 (.tombstone ⟨.answered, 9, 51, 0⟩), .pass 0 .list,
    .pass 0 (.initTargets [0] ⟨.answered, 9, 52, 0⟩), .pass 0 (.delete .answered),
    .pass 0 (.acknowledge ⟨.answered, 9, 53, 0⟩), .pass 0 (.finalize ⟨.answered, 9, 54, 0⟩)]

/-- A pass that asks for the chunk while the file has it. -/
def sampleEarlyBatch : List ClusterAction :=
  [.pass 1 (.start 256 0 ⟨.answered, 9, 20, 0⟩), .pass 1 .list, .pass 1 (.page [sampleChunk]),
    .pass 1 (.tombstone ⟨.answered, 9, 21, 0⟩)]

/-- The inode is looked up before a batch and the overwrite, and everything else after
them. -/
def sampleOvertakenRead : List ReadAction :=
  .read :: (sampleEarlyBatch ++ sampleOverwrite).map .cluster ++ [.read, .read, .read]

theorem sampleFile_returns :
    (exec (clusterStep PackStore.sampleHash) (Cluster.fresh 0) sampleFile).isSome := by
  decide +kernel

/-- The end of the run. -/
def sampleFileEnd : Cluster := Option.get _ sampleFile_returns

/-- The record of that file. -/
def sampleFileInode : Inode := (sampleFileEnd.tables.inodes.get? 2).get (by decide +kernel)

theorem read_returns_opened_version_sampleOvertakenRead :
    ∃ st', exec (readStep PackStore.sampleHash sampleContents) ⟨sampleFileEnd, .start 2 0 1⟩
        sampleOvertakenRead = some st' ∧ st'.reader = .done (.ok [1]) := by
  have hdone : (exec (readStep PackStore.sampleHash sampleContents) ⟨sampleFileEnd, .start 2 0 1⟩
      sampleOvertakenRead).isSome := by decide +kernel
  obtain ⟨st', hread⟩ := Option.isSome_iff_exists.mp hdone
  have hversion : versionRange sampleContents sampleFileEnd.tables sampleFileInode 0 1 = [1] := by
    decide +kernel
  refine ⟨st', hread, ?_⟩
  rw [← hversion]
  exact (read_returns_opened_version PackStore.sampleHash sampleContents 0 sampleFile sampleFileEnd
    2 sampleFileInode 0 1 _ st' (by decide +kernel) (Option.some_get sampleFile_returns).symm
    (Option.some_get _).symm (by decide +kernel) (by decide +kernel) (by decide +kernel) hread).2
      (by decide +kernel) (by decide +kernel) (by decide +kernel)

/-- A pass between the overwrite and the manifest lookup takes the version away. -/
theorem pass_fails_open_read :
    ∃ st', exec (readStep PackStore.sampleHash sampleContents) ⟨sampleFileEnd, .start 2 0 1⟩
        (.read :: (sampleOverwrite ++ samplePass).map .cluster ++ [.read]) = some st' ∧
      st'.reader.answer? = some (.error .notFound) ∧
      (st'.cluster.tables.inodes.get? 2).isSome := by
  have hdone : (exec (readStep PackStore.sampleHash sampleContents) ⟨sampleFileEnd, .start 2 0 1⟩
      (.read :: (sampleOverwrite ++ samplePass).map .cluster ++ [.read])).any
        (fun st' => st'.reader.answer? = some (.error .notFound) ∧
          (st'.cluster.tables.inodes.get? 2).isSome) = true := by decide +kernel
  obtain ⟨st', hrun, hend⟩ := (Option.any_eq_true _ _).mp hdone
  exact ⟨st', hrun, of_decide_eq_true hend⟩

end FluxFS
