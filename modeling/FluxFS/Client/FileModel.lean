import FluxFS.Client.Contents
import FluxFS.Client.Paths

/-!
# FileModel — files as sequences of committed edits

The cluster of writers, collectors and workers again, with the manifests of
writers computed by the code that computes them. A writer reads a record, loads
its manifest, reads the old bytes it needs, reserves, puts and commits; all of
this interleaves with other writers, with collectors, flushes and any other
request. To a reader of the file none of it is visible: its bytes are those of
the edits that were committed, applied whole, one after the other.
-/

namespace FluxFS

open Std Kit

/-- The cluster and the call each writer is in. -/
structure FileState where
  cluster : Cluster
  edits : Table Nat FileEdit

/-- A step of the cluster in which manifests are computed. -/
inductive FileAction
  /-- A writer that has loaded its manifest has its reads answered by `src`, builds the new
  manifest and asks for a reservation. -/
  | plan (w : Nat) (edit : FileEdit) (src : ReadSource) (now : Int) (ticket : WriteTicketId)
      (deadline : Nat) (rpc : Rpc)
  | cluster (action : ClusterAction)

namespace FileState

/-- A new store without clients. -/
def fresh (now : Int) : FileState := ⟨Cluster.fresh now, ∅⟩

/-- The metadata. -/
def tables (st : FileState) : Tables := st.cluster.tables

/-- What the writer hands to `commit_staged_manifest`; `none` if its call fails before. -/
def planned (hash : Bytes → ChunkId) (st : FileState) (w : Nat) (edit : FileEdit)
    (src : ReadSource) : Option Staging :=
  match st.cluster.writer w with
  | .loaded basis old =>
    match (edit.plan hash src (fun _ => .ok old) basis).run with
    | some (.ok staging) => some staging
    | _ => none
  | _ => none

end FileState

/-- `setattr` truncates only to another size. -/
def FileEdit.isDue (basis : Inode) : FileEdit → Bool
  | .write .. => true
  | .truncate size .. => size ≠ basis.size

/-- The step is a writer's reservation. -/
def ClusterAction.reserves : ClusterAction → Bool
  | .writer _ (.reserve ..) => true
  | _ => false

/-- One call of one party; a writer's reservation is for what it has planned. -/
def fileStep (hash : Bytes → ChunkId) (st : FileState) : FileAction → Option FileState
  | .plan w edit src now ticket deadline rpc =>
    match st.cluster.writer w with
    | .loaded basis _ =>
      if edit.isDue basis then
        match st.planned hash w edit src with
        | some staging =>
          (clusterStep hash st.cluster (.writer w (.reserve ticket (edit.change now)
            staging.manifest staging.staged deadline rpc))).map
              fun next => ⟨next, st.edits.insert w edit⟩
        | none =>
          (clusterStep hash st.cluster (.writer w .stop)).map fun next => ⟨next, st.edits⟩
      else none
    | _ => none
  | .cluster action =>
    if action.reserves then none
    else (clusterStep hash st.cluster action).map fun next => ⟨next, st.edits⟩

/-! ## Commits -/

/-- The request reaches the leader. -/
def Delivery.arrives : Delivery → Bool
  | .notApplied _ => false
  | _ => true

/-- The commit a step calls, and the edit it is for. -/
def FileAction.commitCall (st : FileState) : FileAction → Option (FileEdit × WriteJob × Rpc)
  | .cluster (.writer w (.commit rpc)) =>
    match st.cluster.writer w with
    | .putting job [] _ => (st.edits[w]?).map fun edit => (edit, job, rpc)
    | _ => none
  | _ => none

/-- The edit of the file `id` that a step commits. -/
def FileAction.commits (id : InodeId) (st : FileState) (a : FileAction) : Option FileEdit :=
  (a.commitCall st).bind fun (edit, job, rpc) =>
    if job.basis.id = id ∧ rpc.delivery.arrives ∧
        (mapInode (rpc.response job.commitOp st.tables)).toBool then some edit
    else none

/-- The edit of the file `id` whose call returns `Ok` in a step. -/
def FileAction.acknowledges (id : InodeId) (st : FileState) (a : FileAction) : Option FileEdit :=
  (a.commitCall st).bind fun (edit, job, rpc) =>
    if job.basis.id = id ∧ (rpc.call job.commitOp mapInode st.tables).1.toBool then some edit
    else none

/-- Sizes are `u64` numbers. -/
def Tables.SizesFit (s : Tables) : Prop := ∀ i ∈ s.inodes.rows, i.size ≤ u64Max

instance (s : Tables) : Decidable s.SizesFit := inferInstanceAs (Decidable (∀ i ∈ s.inodes.rows, _))

/-- A request of another client, if the step is one, is as clients build it. -/
def ClusterAction.Issued (contents : Contents) (s : Tables) : ClusterAction → Prop
  | .request r => r.req.op.ClientIssued ∧ r.req.op.CarriesSound ∧
      r.req.op.PublishesContent contents s
  | _ => True

/-- Neither generations nor sizes have run out, the chunk ids of what is staged do not
collide, and other clients send what clients send. -/
def FileAction.Allowed (hash : Bytes → ChunkId) (contents : Contents) (st : FileState)
    (a : FileAction) : Prop :=
  st.tables.GenerationsBelowMax ∧ st.tables.SizesFit ∧
    match a with
    | .plan w edit src .. => ∀ staging ∈ st.planned hash w edit src, contents.Holds staging.staged
    | .cluster action => action.Issued contents st.tables

/-- What the reads of a writer return, if they return, is right. -/
def FileAction.ReadsRight (contents : Contents) : FileAction → Prop
  | .plan _ _ src .. => src.Sound contents
  | .cluster _ => True

/-! ## What a writer knows -/

/-- `basis` was stored under its id with the manifest `old`. -/
structure Knows (s : Tables) (basis : Inode) (old : Manifest) : Prop where
  known : Known s basis
  sound : old.SoundAt basis.size
  inode : old.inode = basis.id
  version : ∀ (mid : ManifestId) (m : Manifest), basis.manifestId = some mid →
    s.manifests[mid]? = some m → m = old
  absent : basis.manifestId = none → old = .empty basis.id basis.headGen

/-- The job commits what `edit` makes of the file its basis describes. -/
inductive WriteJob.Carries (hash : Bytes → ChunkId) (contents : Contents) (s : Tables)
    (job : WriteJob) (edit : FileEdit) : Prop
  | intro {old : Manifest} {staging : Staging} {now : Int} (hknows : Knows s job.basis old)
      (hplanned : Planned hash contents job.basis old edit staging)
      (hholds : contents.Holds staging.staged) (hmanifest : job.manifest = staging.manifest)
      (hchange : job.change = edit.change now)

/-- What each writer relies on; `edit?` is the call it is in. -/
def WriterKnows (hash : Bytes → ChunkId) (contents : Contents) (s : Tables)
    (edit? : Option FileEdit) : Writer → Prop
  | .idle | .aborting _ => True
  | .opened basis => ∃ old, Knows s basis old
  | .loaded basis old => Knows s basis old
  | .putting job _ _ => ∃ edit, edit? = some edit ∧ job.Carries hash contents s edit

/-- What holds between the steps. -/
structure FileInv (hash : Bytes → ChunkId) (contents : Contents) (st : FileState) : Prop where
  grounded : Grounded st.tables
  intact : Intact st.tables
  sound : st.tables.SoundFiles
  writers : ∀ w, WriterKnows hash contents st.tables st.edits[w]? (st.cluster.writer w)

section
variable {hash : Bytes → ChunkId} {contents : Contents} {s t : Tables} {basis : Inode}
  {old : Manifest}

/-- A record that is stored now. -/
theorem knows_of_stored (hgrounded : Grounded s) (hintact : Intact s) (hsound : s.SoundFiles)
    (hmax : s.GenerationsBelowMax) (hsizes : s.SizesFit) {id : InodeId}
    (h : s.inodes.get? id = some basis) : ∃ old, Knows s basis old := by
  have hfollows := follows_of_stored hgrounded (Keyed.get?_of_get? h)
  have hsize := hsizes basis (Keyed.mem_rows_of_get? h)
  cases hmid : basis.manifestId with
  | none =>
    refine ⟨.empty basis.id basis.headGen, ⟨hmax.get h, hfollows, fun mid hmid' => ?_⟩, ?_, rfl,
      fun mid m hmid' _ => ?_, fun _ => rfl⟩
    · rw [hmid] at hmid'
      cases hmid'
    · have hempty := Manifest.Sound.empty basis.id basis.headGen
      refine ⟨hempty.laid, hempty.objects, hempty.windows, fun e he => ?_, hsize⟩
      cases he
    · rw [hmid] at hmid'
      cases hmid'
  | some mid =>
    obtain ⟨m, hm, hinode, hmsize, -⟩ := (hintact.backs id basis h).stored hmid
    refine ⟨m, ⟨hmax.get h, hfollows, fun mid' hmid' => ?_⟩,
      (hsound id basis mid m h hmid hm).at hmsize, hinode, fun mid' m' hmid' hm' => ?_,
      fun hnone => ?_⟩
    · rw [hmid, Option.some.injEq] at hmid'
      rw [← hmid']
      exact hintact.below mid m hm
    · rw [hmid, Option.some.injEq] at hmid'
      rw [← hmid', hm, Option.some.injEq] at hm'
      exact hm'.symm
    · rw [hmid] at hnone
      cases hnone

/-- Nothing a request does makes the knowledge of a record false. -/
theorem Knows.request {r : MetaRequest} (h : Knows s basis old) (hgrounded : Grounded s)
    (hmax : s.GenerationsBelowMax) (hraw : r.req.op.isRaw = false)
    (hnext : r.req.op.AdvancesOnce) : Knows (applyRaftRequest r.now r.req s).2 basis old := by
  have hages := Ages.request hgrounded hraw
  refine ⟨⟨h.known.canAdvance,
    follows_request hgrounded hraw hnext hmax h.known.canAdvance h.known.follows,
    fun mid hmid => ?_⟩, h.sound, h.inode, fun mid m hmid hm => ?_, h.absent⟩
  · exact Nat.lt_of_lt_of_le (h.known.allocated mid hmid) hages.manifests
  · rcases hages.manifest mid m hm with hsame | hlate
    · exact h.version mid m hmid hsame
    · exact absurd hlate (Nat.not_le.mpr (h.known.allocated mid hmid))

/-- While the record is the stored one, the content of the file is that of `old`. -/
theorem Knows.content (h : Knows s basis old) (hintact : Intact s)
    (hstored : s.inodes.get? basis.id = some basis) :
    s.content contents basis = fileRange contents basis.ufs old.extents.extents 0 basis.size := by
  cases hmid : basis.manifestId with
  | none =>
    rw [Tables.content, versionExtents_of_none hmid, h.absent hmid]
    rfl
  | some mid =>
    obtain ⟨m, hm, -⟩ := (hintact.backs basis.id basis hstored).stored hmid
    rw [Tables.content, versionExtents_of_some hmid hm, h.version mid m hmid hm]

end

/-- The image of an edit's record has the size of the edited file and the same object. -/
theorem FileEdit.image_change (edit : FileEdit) (now : Int) (basis : Inode) :
    ((edit.change now).image basis).size = edit.newSize basis.size ∧
      ((edit.change now).image basis).ufs = basis.ufs ∧
      ((edit.change now).image basis).headGen = saturatingAdd basis.headGen 1 := by
  cases edit with
  | write offset data hdata => exact ⟨rfl, rfl, rfl⟩
  | truncate size hsize attrs => exact ⟨rfl, rfl, rfl⟩

namespace WriteJob.Carries
variable {hash : Bytes → ChunkId} {contents : Contents} {s t : Tables} {job : WriteJob}
  {edit : FileEdit}

theorem known (h : job.Carries hash contents s edit) : Known s job.basis := by
  obtain ⟨hknows, -, -, -, -⟩ := h
  exact hknows.known

theorem image (h : job.Carries hash contents s edit) :
    (job.change.image job.basis).size = job.manifest.size ∧
      (job.change.image job.basis).headGen = job.manifest.gen ∧
      (job.change.image job.basis).ufs = job.basis.ufs := by
  obtain ⟨-, hplanned, -, hmanifest, hchange⟩ := h
  rw [hmanifest, hchange, hplanned.size, hplanned.gen]
  obtain ⟨hsize, hufs, hhead⟩ := edit.image_change _ job.basis
  exact ⟨hsize, hhead, hufs⟩

theorem sound (h : job.Carries hash contents s edit) : job.manifest.Sound := by
  obtain ⟨-, hplanned, -, hmanifest, -⟩ := h
  rw [hmanifest]
  exact hplanned.sound

theorem issued (h : job.Carries hash contents s edit) : job.commitOp.ClientIssued :=
  ⟨h.image.1.symm, h.image.2.1.symm⟩

theorem advancesOnce (h : job.Carries hash contents s edit) : job.commitOp.AdvancesOnce := by
  intro expected image manifest hop
  cases hop
  obtain ⟨-, hgen, -⟩ := job.change.image_spec job.basis
  exact hgen.trans (saturatingAdd_of_lt h.known.canAdvance)

/-- The job's manifest, read as one of its basis, has the edited content. -/
theorem content (h : job.Carries hash contents s edit) (hintact : Intact s)
    (hstored : s.inodes.get? job.basis.id = some job.basis) :
    fileRange contents job.basis.ufs job.manifest.extents.extents 0 job.manifest.size =
      edit.apply (s.content contents job.basis) := by
  obtain ⟨hknows, hplanned, hholds, hmanifest, -⟩ := h
  rw [hmanifest, hknows.content hintact hstored]
  exact hplanned.content hknows.sound hholds

/-- Tables with the job's image in place of its basis. -/
theorem installed (h : job.Carries hash contents s edit) (hintact : Intact s)
    (hsound : s.SoundFiles) (hstored : s.inodes.get? job.basis.id = some job.basis)
    (hinodes : t.inodes = s.inodes.put (s.committed (job.change.image job.basis)))
    (hmanifests : t.manifests = (s.addManifest job.manifest).manifests) :
    t.SoundFiles ∧ ∀ id i j, s.inodes.get? id = some i → t.inodes.get? id = some j →
      t.content contents j =
        if job.basis.id = id then edit.apply (s.content contents i) else s.content contents i := by
  have hid : (s.committed (job.change.image job.basis)).id = job.basis.id :=
    (job.change.image_spec job.basis).1
  have hstay : s.ManifestsStay t := by
    intro mid m hm
    rw [hmanifests]
    exact hintact.get_addManifest _ hm
  have hadded : t.manifests[s.nextManifest]? = some job.manifest := by
    rw [hmanifests, Tables.addManifest, Table.get_insert, if_pos rfl]
  refine ⟨hsound.put hintact hinodes hstay fun mid m hmid hm => ?_, fun id i j hi hj => ?_⟩
  · cases hmid
    rw [hadded, Option.some.injEq] at hm
    rw [← hm]
    exact h.sound
  · by_cases hsame : job.basis.id = id
    · subst hsame
      rw [hstored, Option.some.injEq] at hi
      rw [hinodes, Keyed.get?_put, if_pos hid, Option.some.injEq] at hj
      subst hi hj
      obtain ⟨hsize, -, hufs⟩ := h.image
      rw [if_pos rfl, ← h.content hintact hstored, Tables.content, versionExtents_of_some rfl
        hadded, ← hsize, ← hufs]
      rfl
    · obtain ⟨hkept, hbytes⟩ := content_put_other hintact hinodes hstay (hid ▸ hsame) hj
      rw [hi, Option.some.injEq] at hkept
      rw [if_neg hsame, hbytes, hkept]

end WriteJob.Carries

/-! ## One step of the tables -/

section
variable {hash : Bytes → ChunkId} {contents : Contents} {st st' : Cluster} {a : ClusterAction}

theorem issued_of_sends {r : MetaRequest} (hissued : a.Issued contents st.tables)
    (hr : a.sends st = some r) (hcommit : r.req.op.commit? = none) :
    r.req.op.ClientIssued ∧ r.req.op.CarriesSound ∧
      r.req.op.PublishesContent contents st.tables := by
  cases a with
  | writer w action =>
    simp only [ClusterAction.sends, Writer.sends] at hr
    split at hr
    · cases hr
      exact ⟨trivial, MetaOp.carriesSound_of_none rfl, trivial⟩
    · cases hr
      cases hcommit
    · cases hr
      exact ⟨trivial, MetaOp.carriesSound_of_none rfl, trivial⟩
    · cases hr
  | pass _ action | sweep _ action =>
    simp only [ClusterAction.sends, Pass.sends, Sweep.sends] at hr
    split at hr
    all_goals cases hr
    all_goals exact ⟨trivial, MetaOp.carriesSound_of_none rfl, trivial⟩
  | request r' =>
    cases hr
    exact hissued
  | repair c source target => cases hr

theorem commit_step {w : Nat} {rpc : Rpc} {job : WriteJob} {stored : Bool}
    (hw : st.writer w = .putting job [] stored)
    (h : clusterStep hash st (.writer w (.commit rpc)) = some st') :
    rpc.isFresh st.tables = true ∧
      st'.tables = (rpc.call job.commitOp mapInode st.tables).2 := by
  have hmoves := writer_moves h
  rw [hw] at hmoves
  obtain ⟨hfresh, hmoves⟩ := Option.ite_none_right_eq_some.mp hmoves
  exact ⟨hfresh, (congrArg Prod.fst (Option.some.inj hmoves)).symm⟩

end

/-- What a step does to the tables: nothing, a request that commits no image, or a commit
that reaches the leader. -/
inductive TablesStep (contents : Contents) (st : FileState) (a : ClusterAction) : Tables → Prop
  | same (hquiet : ∀ id, (FileAction.cluster a).commits id st = none) :
      TablesStep contents st a st.tables
  | request {r : MetaRequest} (hquiet : ∀ id, (FileAction.cluster a).commits id st = none)
      (hr : a.sends st.cluster = some r) (hcommit : r.req.op.commit? = none)
      (hissued : r.req.op.ClientIssued) (hcarries : r.req.op.CarriesSound)
      (hpublish : r.req.op.PublishesContent contents st.tables) :
      TablesStep contents st a (applyRaftRequest r.now r.req st.tables).2
  | commit {w : Nat} {rpc : Rpc} {job : WriteJob} {stored : Bool}
      (ha : a = .writer w (.commit rpc)) (hw : st.cluster.writer w = .putting job [] stored)
      (hfresh : rpc.isFresh st.tables = true) (harrives : rpc.delivery.arrives = true) :
      TablesStep contents st a (rpc.applied job.commitOp st.tables)

section
variable {hash : Bytes → ChunkId} {contents : Contents} {st : FileState} {a : ClusterAction}
  {next : Cluster}

/-- A commit that does not arrive commits nothing. -/
theorem commits_of_lost {w : Nat} {rpc : Rpc} {e : FluxError} (h : rpc.delivery = .notApplied e)
    (id : InodeId) : (FileAction.cluster (.writer w (.commit rpc))).commits id st = none := by
  rw [FileAction.commits, Option.bind_eq_none_iff]
  rintro ⟨edit, job, rpc'⟩ hcall
  have hrpc : rpc' = rpc := by
    simp only [FileAction.commitCall] at hcall
    split at hcall
    · obtain ⟨_, _, heq⟩ := Option.map_eq_some_iff.mp hcall
      cases heq
      rfl
    · cases hcall
  refine if_neg fun harrives => ?_
  rw [hrpc, h] at harrives
  exact Bool.false_ne_true harrives.2.1

/-- A step that sends no commit commits nothing. -/
theorem commits_of_not_putting (h : ∀ w rpc job stored, a = .writer w (.commit rpc) →
    st.cluster.writer w ≠ .putting job [] stored) (id : InodeId) :
    (FileAction.cluster a).commits id st = none := by
  rw [FileAction.commits, Option.bind_eq_none_iff]
  intro call hcall
  unfold FileAction.commitCall at hcall
  split at hcall
  · rename_i w rpc heq
    cases heq
    split at hcall
    · rename_i job stored hw
      exact absurd hw (h w rpc job stored rfl)
    · cases hcall
  · cases hcall

theorem tablesStep (hissued : a.Issued contents st.tables)
    (h : clusterStep hash st.cluster a = some next) : TablesStep contents st a next.tables := by
  by_cases hcommits : ∃ w rpc job stored, a = .writer w (.commit rpc) ∧
      st.cluster.writer w = .putting job [] stored
  · obtain ⟨w, rpc, job, stored, rfl, hw⟩ := hcommits
    obtain ⟨hfresh, htables⟩ := commit_step hw h
    rw [htables]
    unfold Rpc.call
    cases hdelivery : rpc.delivery with
    | answered => exact .commit rfl hw hfresh (by rw [hdelivery]; rfl)
    | notApplied e => exact .same (commits_of_lost hdelivery)
    | replyLost e => exact .commit rfl hw hfresh (by rw [hdelivery]; rfl)
  · have hquiet : ∀ id, (FileAction.cluster a).commits id st = none :=
      commits_of_not_putting fun w rpc job stored ha hw => hcommits ⟨w, rpc, job, stored, ha, hw⟩
    rcases clusterStep_sent h with heq | ⟨r, hr, heq⟩
    · rw [heq]
      exact .same hquiet
    · cases hcommit : r.req.op.commit? with
      | none =>
        obtain ⟨hissued, hcarries, hpublish⟩ := issued_of_sends hissued hr hcommit
        rw [heq]
        exact .request hquiet hr hcommit hissued hcarries hpublish
      | some commit =>
        obtain ⟨w, rpc, job, stored, ha, hw, -⟩ := commit_sent h hr (by rw [hcommit]; rfl)
        exact absurd ⟨w, rpc, job, stored, ha, hw⟩ hcommits

end

/-- What a step leaves of what held before it, and what it does to the bytes of files. -/
structure Moves (contents : Contents) (st : FileState) (a : ClusterAction) (t : Tables) : Prop where
  grounded : Grounded t
  intact : Intact t
  sound : t.SoundFiles
  next : st.tables.nextInode ≤ t.nextInode
  born : ∀ id j, t.inodes.get? id = some j →
    (∃ i, st.tables.inodes.get? id = some i) ∨ st.tables.nextInode ≤ id
  knows : ∀ basis old, Knows st.tables basis old → Knows t basis old
  content : ∀ id i j, st.tables.inodes.get? id = some i → t.inodes.get? id = some j →
    t.content contents j = ((FileAction.cluster a).commits id st).elim
      (st.tables.content contents i) (·.apply (st.tables.content contents i))

section
variable {hash : Bytes → ChunkId} {contents : Contents} {st : FileState} {a : ClusterAction}

theorem Moves.same (hinv : FileInv hash contents st)
    (hquiet : ∀ id, (FileAction.cluster a).commits id st = none) :
    Moves contents st a st.tables where
  grounded := hinv.grounded
  intact := hinv.intact
  sound := hinv.sound
  next := Nat.le_refl _
  born _ j hj := .inl ⟨j, hj⟩
  knows _ _ h := h
  content id i j hi hj := by
    rw [hi, Option.some.injEq] at hj
    rw [hquiet, hj]
    rfl

theorem Moves.request (hinv : FileInv hash contents st) (hmax : st.tables.GenerationsBelowMax)
    {r : MetaRequest} (hquiet : ∀ id, (FileAction.cluster a).commits id st = none)
    (hcommit : r.req.op.commit? = none) (hissued : r.req.op.ClientIssued)
    (hcarries : r.req.op.CarriesSound)
    (hpublish : r.req.op.PublishesContent contents st.tables) :
    Moves contents st a (applyRaftRequest r.now r.req st.tables).2 := by
  have hraw := hissued.not_raw
  have hages := Ages.request hinv.grounded hraw
  have hkeeps := KeepsContents.request hinv.grounded hinv.intact hinv.sound hissued hcarries hcommit
    hpublish
  have hnext : r.req.op.AdvancesOnce := by
    intro expected image manifest hop
    rw [hcommit] at hop
    cases hop
  refine ⟨hinv.grounded.request hraw, hinv.intact.request hinv.grounded hissued, hkeeps.sound,
    hages.inodes, hages.inode, fun basis old h => h.request hinv.grounded hmax hraw hnext,
    fun id i j hi hj => ?_⟩
  rw [hquiet]
  exact hkeeps.content id i j hi hj

/-- How the commit of a job ends. -/
theorem WriteJob.applied (job : WriteJob) {rpc : Rpc} {s : Tables} (hfresh : rpc.isFresh s = true) :
    (rpc.response job.commitOp s = .inode (s.committed (job.change.image job.basis)) ∧
      (∃ current, s.inodes.get? job.basis.id = some current ∧
        current.generation = job.basis.generation ∧ current.flushIntent = none) ∧
      (rpc.applied job.commitOp s).inodes =
        s.inodes.put (s.committed (job.change.image job.basis)) ∧
      (rpc.applied job.commitOp s).manifests = (s.addManifest job.manifest).manifests) ∨
    ((∃ e, rpc.response job.commitOp s = .err e) ∧
      ∃ after, rpc.applied job.commitOp s = { s with clientRequests := after }) := by
  have happlied := commit_applied job.ticket job.basis.generation (job.change.image job.basis)
    job.manifest hfresh
  rw [(job.change.image_spec job.basis).1] at happlied
  exact happlied

/-- A commit that the leader answers with a record replaces the record it was computed from
and makes the file what the edit makes of it; any other leaves the files alone. -/
theorem Moves.commit (hinv : FileInv hash contents st) (hmax : st.tables.GenerationsBelowMax)
    {w : Nat} {rpc : Rpc} {job : WriteJob} {stored : Bool} (ha : a = .writer w (.commit rpc))
    (hw : st.cluster.writer w = .putting job [] stored) (hfresh : rpc.isFresh st.tables = true)
    (harrives : rpc.delivery.arrives = true) :
    Moves contents st a (rpc.applied job.commitOp st.tables) := by
  have hwriter := hinv.writers w
  rw [hw] at hwriter
  obtain ⟨edit, hedit, hcarries⟩ := hwriter
  have hcommits : ∀ id, (FileAction.cluster a).commits id st =
      if job.basis.id = id ∧ (mapInode (rpc.response job.commitOp st.tables)).toBool then some edit
      else none := by
    intro id
    subst ha
    simp only [FileAction.commits, FileAction.commitCall, hw, hedit, Option.map_some,
      Option.bind_some, harrives, true_and]
  have hgrounded : Grounded (rpc.applied job.commitOp st.tables) := by
    apply hinv.grounded.request
    rfl
  have hintact : Intact (rpc.applied job.commitOp st.tables) :=
    hinv.intact.request (r := rpc.request job.commitOp) hinv.grounded hcarries.issued
  have hages : Ages st.tables (rpc.applied job.commitOp st.tables) :=
    Ages.request (r := rpc.request job.commitOp) hinv.grounded rfl
  have hknows : ∀ basis old, Knows st.tables basis old →
      Knows (rpc.applied job.commitOp st.tables) basis old :=
    fun basis old h => h.request (r := rpc.request job.commitOp) hinv.grounded hmax rfl
      hcarries.advancesOnce
  rcases job.applied hfresh with ⟨hresponse, ⟨current, hcurrent, hgen, -⟩, hinodes, hmanifests⟩ |
    ⟨⟨e, hresponse⟩, after, htables⟩
  · rw [hcarries.known.current hcurrent hgen] at hcurrent
    obtain ⟨hsound, hcontent⟩ :=
      hcarries.installed hinv.intact hinv.sound hcurrent hinodes hmanifests
    refine ⟨hgrounded, hintact, hsound, hages.inodes, hages.inode, hknows, fun id i j hi hj => ?_⟩
    rw [hcontent id i j hi hj, hcommits, hresponse]
    by_cases hid : job.basis.id = id
    · rw [if_pos hid, if_pos ⟨hid, rfl⟩]
      rfl
    · rw [if_neg hid, if_neg fun h => hid h.1]
      rfl
  · have hkeeps : KeepsContents contents st.tables (rpc.applied job.commitOp st.tables) := by
      rw [htables]
      exact (KeepsContents.refl hinv.sound).ledger st.tables.clientRequests
    refine ⟨hgrounded, hintact, hkeeps.sound, hages.inodes, hages.inode, hknows,
      fun id i j hi hj => ?_⟩
    rw [hkeeps.content id i j hi hj, hcommits, hresponse, if_neg fun h => Bool.false_ne_true h.2]
    rfl

theorem moves_of_step (hinv : FileInv hash contents st) (hmax : st.tables.GenerationsBelowMax)
    (hissued : a.Issued contents st.tables) {next : Cluster}
    (h : clusterStep hash st.cluster a = some next) : Moves contents st a next.tables := by
  have hstep := tablesStep hissued h
  generalize next.tables = t at hstep
  cases hstep with
  | same hquiet => exact .same hinv hquiet
  | request hquiet hr hcommit hissued hcarries hpublish =>
    exact .request hinv hmax hquiet hcommit hissued hcarries hpublish
  | commit ha hw hfresh harrives => exact .commit hinv hmax ha hw hfresh harrives

end

/-! ## The invariant -/

section
variable {hash : Bytes → ChunkId} {contents : Contents} {s t : Tables} {edit? : Option FileEdit}

/-- A writer that does not move goes on knowing what it knows. -/
theorem WriterKnows.frame {w : Writer} (h : WriterKnows hash contents s edit? w)
    (hknows : ∀ basis old, Knows s basis old → Knows t basis old) :
    WriterKnows hash contents t edit? w := by
  cases w with
  | idle => trivial
  | aborting ticket => trivial
  | opened basis =>
    obtain ⟨old, hold⟩ := h
    exact ⟨old, hknows basis old hold⟩
  | loaded basis old => exact hknows basis old h
  | putting job staged stored =>
    obtain ⟨edit, hedit, hcarries, hplanned, hholds, hmanifest, hchange⟩ := h
    exact ⟨edit, hedit, hknows _ _ hcarries, hplanned, hholds, hmanifest, hchange⟩

/-- What a reply leads to is known if both outcomes are. -/
theorem WriterKnows.onReply {α : Type} {result : Except FluxError α} {next : α → Writer}
    {failed : Writer} (hnext : ∀ a, WriterKnows hash contents t edit? (next a))
    (hfailed : WriterKnows hash contents t edit? failed) :
    WriterKnows hash contents t edit? (FluxFS.onReply result next failed) := by
  cases result with
  | ok a => exact hnext a
  | error e => exact hfailed

theorem WriterKnows.move {ws ws' : Workers} {w next : Writer} {action : WriterAction}
    (h : WriterKnows hash contents s edit? w)
    (hstep : writerStep hash s ws w action = some (t, ws', next))
    (hreserve : action.ticket? = none) (hgrounded : Grounded s) (hintact : Intact s)
    (hsound : s.SoundFiles) (hmax : s.GenerationsBelowMax) (hsizes : s.SizesFit) :
    WriterKnows hash contents t edit? next := by
  unfold writerStep at hstep
  split at hstep
  · -- getInode
    split at hstep
    · rename_i basis hbasis
      cases hstep
      exact knows_of_stored hgrounded hintact hsound hmax hsizes hbasis
    · cases hstep
      trivial
  · -- getManifest
    obtain ⟨old, hknows⟩ := h
    split at hstep
    · rename_i hmid
      cases hstep
      rw [hknows.absent hmid] at hknows
      exact hknows
    · rename_i mid hmid
      split at hstep
      · rename_i loaded hloaded
        cases hstep
        rw [← hknows.version mid loaded hmid hloaded] at hknows
        exact hknows
      · cases hstep
        trivial
  · cases hreserve
  · cases hstep
    exact h
  · cases hstep
    split
    · exact h
    · trivial
  · cases hstep
    trivial
  · obtain ⟨_, hstep⟩ := Option.ite_none_right_eq_some.mp hstep
    cases hstep
    exact .onReply (fun _ => trivial) trivial
  · obtain ⟨_, hstep⟩ := Option.ite_none_right_eq_some.mp hstep
    cases hstep
    trivial
  · cases hstep
    trivial
  · cases hstep

end

section
variable {hash : Bytes → ChunkId} {contents : Contents} {st : FileState} {next : Cluster}

theorem FileInv.fresh (now : Int) : FileInv hash contents (FileState.fresh now) where
  grounded := Grounded.fresh now
  intact := Intact.fresh now
  sound id i mid m hi hmid hm := by simp [FileState.tables, FileState.fresh, Cluster.fresh,
    Tables.fresh] at hm
  writers w := by simp [FileState.fresh, Cluster.writer, Cluster.fresh, WriterKnows]

theorem FileInv.cluster {a : ClusterAction} (hinv : FileInv hash contents st)
    (hmax : st.tables.GenerationsBelowMax) (hsizes : st.tables.SizesFit)
    (hissued : a.Issued contents st.tables) (hreserves : a.reserves = false)
    (h : clusterStep hash st.cluster a = some next) : FileInv hash contents ⟨next, st.edits⟩ := by
  have hmoves := moves_of_step hinv hmax hissued h
  refine ⟨hmoves.grounded, hmoves.intact, hmoves.sound, fun w => ?_⟩
  rcases clusterStep_writer h w with ⟨hsame, -⟩ | ⟨action, rfl, -, hmove⟩
  · show WriterKnows hash contents next.tables st.edits[w]? (next.writer w)
    rw [hsame]
    exact (hinv.writers w).frame hmoves.knows
  · refine (hinv.writers w).move hmove ?_ hinv.grounded hinv.intact hinv.sound hmax hsizes
    cases action with
    | reserve => cases hreserves
    | _ => rfl

/-- The manifest a writer has loaded is the one the reads of its call see. -/
theorem Knows.currentManifest {s : Tables} {basis : Inode} {old : Manifest}
    (h : Knows s basis old) : currentManifest (fun _ => .ok old) basis = .ok old := by
  unfold FluxFS.currentManifest
  split
  · rfl
  · rename_i hmid
    rw [h.absent hmid]

theorem planned_spec (hinv : FileInv hash contents st) {w : Nat} {basis : Inode} {old : Manifest}
    (hw : st.cluster.writer w = .loaded basis old) {edit : FileEdit} {src : ReadSource}
    (hsrc : src.Sound contents) {staging : Staging}
    (h : st.planned hash w edit src = some staging) :
    Knows st.tables basis old ∧ Planned hash contents basis old edit staging := by
  have hknows := hinv.writers w
  rw [hw] at hknows
  have hplan : (edit.plan hash src (fun _ => .ok old) basis).run = some (.ok staging) := by
    rw [FileState.planned, hw] at h
    dsimp only at h
    split at h
    · rename_i hplan
      cases h
      exact hplan
    · cases h
  exact ⟨hknows, edit.plan_spec hsrc hknows.sound hknows.currentManifest hknows.inode hplan⟩

/-- A writer that reserves what it has planned. -/
theorem FileInv.plan (hinv : FileInv hash contents st) (hmax : st.tables.GenerationsBelowMax)
    {w : Nat} {basis : Inode} {old : Manifest} (hw : st.cluster.writer w = .loaded basis old)
    {edit : FileEdit} {src : ReadSource} (hsrc : src.Sound contents) {staging : Staging}
    (hplanned : st.planned hash w edit src = some staging) (hholds : contents.Holds staging.staged)
    {now : Int} {ticket : WriteTicketId} {deadline : Nat} {rpc : Rpc}
    (h : clusterStep hash st.cluster (.writer w (.reserve ticket (edit.change now) staging.manifest
      staging.staged deadline rpc)) = some next) :
    FileInv hash contents ⟨next, st.edits.insert w edit⟩ := by
  have hmoves : Moves contents st _ next.tables := moves_of_step hinv hmax (by trivial) h
  obtain ⟨hknows, hplan⟩ := planned_spec hinv hw hsrc hplanned
  refine ⟨hmoves.grounded, hmoves.intact, hmoves.sound, fun v => ?_⟩
  show WriterKnows hash contents next.tables (st.edits.insert w edit)[v]? (next.writer v)
  rw [Table.get_insert]
  rcases clusterStep_writer h v with ⟨hsame, -⟩ | ⟨action, ha, -, hmove⟩
  · rw [hsame]
    split
    · rename_i hvw
      subst hvw
      rw [hw]
      exact hmoves.knows basis old hknows
    · exact (hinv.writers v).frame hmoves.knows
  · cases ha
    rw [hw] at hmove
    obtain ⟨-, hmove⟩ := Option.ite_none_right_eq_some.mp hmove
    have hnext : _ = next.writer w := congrArg (fun r => r.2.2) (Option.some.inj hmove)
    rw [if_pos rfl, ← hnext]
    refine .onReply (fun _ => ?_) trivial
    exact ⟨edit, rfl, hmoves.knows basis old hknows, hplan, hholds, rfl, rfl⟩

/-- What every step of a run keeps. -/
theorem FileInv.step {st' : FileState} {a : FileAction} (hinv : FileInv hash contents st)
    (hallowed : a.Allowed hash contents st) (hreads : a.ReadsRight contents)
    (h : fileStep hash st a = some st') : FileInv hash contents st' := by
  cases a with
  | plan w edit src now ticket deadline rpc =>
    obtain ⟨hmax, hsizes, hholds⟩ := hallowed
    simp only [fileStep] at h
    split at h
    · rename_i basis old hw
      obtain ⟨-, h⟩ := Option.ite_none_right_eq_some.mp h
      split at h
      · rename_i staging hstaging
        obtain ⟨next, hnext, rfl⟩ := Option.map_eq_some_iff.mp h
        exact hinv.plan hmax hw hreads hstaging (hholds staging hstaging) hnext
      · obtain ⟨next, hnext, rfl⟩ := Option.map_eq_some_iff.mp h
        exact hinv.cluster hmax hsizes (by trivial) rfl hnext
    · cases h
  | cluster action =>
    obtain ⟨hreserves, h⟩ := Option.ite_none_left_eq_some.mp h
    obtain ⟨next, hnext, rfl⟩ := Option.map_eq_some_iff.mp h
    obtain ⟨hmax, hsizes, hissued⟩ := hallowed
    exact hinv.cluster hmax hsizes hissued (Bool.eq_false_iff.mpr hreserves) hnext

/-! ## Bytes along a run -/

/-- A step of the files is a step of their cluster. -/
theorem fileStep_cluster {st' : FileState} {a : FileAction} (h : fileStep hash st a = some st') :
    ∃ action, clusterStep hash st.cluster action = some st'.cluster ∧
      (∀ id, a.commits id st = (FileAction.cluster action).commits id st) ∧
      (a = .cluster action ∨ ∃ w call, action = .writer w call) := by
  cases a with
  | plan w edit src now ticket deadline rpc =>
    simp only [fileStep] at h
    split at h
    · obtain ⟨-, h⟩ := Option.ite_none_right_eq_some.mp h
      split at h
      all_goals
        obtain ⟨next, hnext, rfl⟩ := Option.map_eq_some_iff.mp h
        exact ⟨_, hnext, fun _ => rfl, .inr ⟨w, _, rfl⟩⟩
    · cases h
  | cluster action =>
    obtain ⟨-, h⟩ := Option.ite_none_left_eq_some.mp h
    obtain ⟨next, hnext, rfl⟩ := Option.map_eq_some_iff.mp h
    exact ⟨action, hnext, fun _ => rfl, .inl rfl⟩

theorem moves_fileStep {st' : FileState} {a : FileAction} (hinv : FileInv hash contents st)
    (hallowed : a.Allowed hash contents st) (h : fileStep hash st a = some st') :
    ∃ action, (∀ id, a.commits id st = (FileAction.cluster action).commits id st) ∧
      Moves contents st action st'.tables := by
  obtain ⟨action, hnext, hcommits, rfl | ⟨w, call, rfl⟩⟩ := fileStep_cluster h
  · exact ⟨_, hcommits, moves_of_step hinv hallowed.1 hallowed.2.2 hnext⟩
  · exact ⟨_, hcommits, moves_of_step hinv hallowed.1 (by trivial) hnext⟩

end

/-! ## Calls on a stored file -/

section
variable {hash : Bytes → ChunkId} {contents : Contents} {s : Tables} {ino : InodeId} {i : Inode}

end

end FluxFS
