import FluxFS.Client.Reclaim
import FluxFS.Meta.References
import FluxFS.Meta.Updates

/-!
# Backed — what stands behind a reference

A commit refers to the extents its writer carried over from the manifest it
replaces and to the chunks it has put under its ticket. So a property that every
put establishes and that only the removal of an unused chunk can end holds behind
every Local extent of every stored inode. The invariant is proved once, for any
such property `good`; the collectors and the read path use it at their own.
-/

namespace FluxFS

open Std Kit

/-! ## What a client knows of the tables -/

/-- `basis` was stored under its id, and its manifest under the id it names. -/
structure Known (s : Tables) (basis : Inode) : Prop where
  canAdvance : basis.generation < u64Max
  follows : Follows basis basis.id s
  allocated : ∀ mid, basis.manifestId = some mid → mid < s.nextManifest

/-- The Local extents of `old` are those of the manifest that `basis` names, if it
is still there. -/
def Loaded (s : Tables) (basis : Inode) (old : Manifest) : Prop :=
  ∀ offset len c, .local offset len c ∈ old.extents.extents →
    ∃ mid, basis.manifestId = some mid ∧ ∀ m, s.manifests[mid]? = some m → m = old

section
variable {s t : Tables} {basis : Inode} {old : Manifest}

theorem Fence.allocated (h : Fence s) {id : InodeId} {i : Inode} (hi : s.inodes.get? id = some i)
    {mid : ManifestId} (hmid : i.manifestId = some mid) :
    mid < s.nextManifest ∧ ∃ m, s.manifests[mid]? = some m := by
  obtain ⟨m, hm⟩ := h.present mid (activeManifests_of_stored hi hmid)
  exact ⟨h.manifestsBelow mid m hm, m, hm⟩

theorem known_of_stored (hgrounded : Grounded s) (hfence : Fence s) (hmax : s.GenerationsBelowMax)
    {id : InodeId} (h : s.inodes.get? id = some basis) : Known s basis where
  canAdvance := hmax.get h
  follows := follows_of_stored hgrounded (Keyed.get?_of_get? h)
  allocated _ hmid := (hfence.allocated h hmid).1

/-- A record that was read and still has the stored generation is the stored one. -/
theorem Known.current (h : Known s basis) {current : Inode}
    (hcurrent : s.inodes.get? basis.id = some current)
    (hgen : current.generation = basis.generation) : current = basis := by
  rcases h.follows.2 current hcurrent with heq | ⟨hlt, _⟩
  · exact heq
  · rw [hgen] at hlt
    exact absurd hlt (Nat.lt_irrefl _)

theorem Known.request {r : MetaRequest} (h : Known s basis) (hgrounded : Grounded s)
    (hmax : s.GenerationsBelowMax) (hraw : r.req.op.isRaw = false)
    (hnext : r.req.op.AdvancesOnce)
    (hrefines : Refines r.req.op s (applyRaftRequest r.now r.req s).2) :
    Known (applyRaftRequest r.now r.req s).2 basis where
  canAdvance := h.canAdvance
  follows := follows_request hgrounded hraw hnext hmax h.canAdvance h.follows
  allocated mid hmid := Nat.lt_of_lt_of_le (h.allocated mid hmid) hrefines.next

theorem Loaded.refines {op : MetaOp} (h : Loaded s basis old) (hknown : Known s basis)
    (hrefines : Refines op s t) : Loaded t basis old := by
  intro offset len c he
  obtain ⟨mid, hmid, hold⟩ := h offset len c he
  refine ⟨mid, hmid, fun m hm => ?_⟩
  rcases hrefines.manifests mid m hm with hsame | hnew
  · exact hold m hsame
  · exact absurd hnew (Nat.not_le.mpr (hknown.allocated mid hmid))

/-- While the record is the stored one, the stored inode refers to what was loaded. -/
theorem Loaded.refersTo (h : Loaded s basis old) (hfence : Fence s) {id : InodeId}
    (hstored : s.inodes.get? id = some basis) {offset len : Nat} {c : ChunkId}
    (he : .local offset len c ∈ old.extents.extents) : s.RefersTo len c := by
  obtain ⟨mid, hmid, hold⟩ := h offset len c he
  obtain ⟨_, m, hm⟩ := hfence.allocated hstored hmid
  refine ⟨mid, activeManifests_of_stored hstored hmid, m, offset, hm, ?_⟩
  rw [hold m hm]
  exact he

end

/-! ## Reservations -/

/-- An outcome that is only good when the stored record has the generation of `row`
and `row` is stored. -/
def ReservedAs (s : Tables) (row : ChunkReservation) (o : Except FluxError Unit × Tables) : Prop :=
  o.1 = .ok () →
    (∃ current, s.inodes.get? row.inode = some current ∧
      current.generation = row.expectedGeneration) ∧
    o.2.reservations.get? row.ticket = some row

theorem reserveChunksInTxn_spec {ticket : WriteTicketId} {inode : InodeId} {expected : Generation}
    {chunks : List ChunkId} {expiresAt : Nat} {s : Tables} :
    ReservedAs s ⟨ticket, inode, expected, Table.ordSet chunks, expiresAt⟩
      (reserveChunksInTxn ticket inode expected chunks expiresAt s) := by
  have herr : ∀ e, ReservedAs s ⟨ticket, inode, expected, Table.ordSet chunks, expiresAt⟩
      (.error e, s) := fun _ h => nomatch h
  refine outcome_getInodeRaw herr fun current hcurrent => ?_
  refine outcome_checkGeneration herr fun hgen => ?_
  refine Txn.outcome_reads (outcome_guard herr fun _ => ?_)
  refine Txn.outcome_reads fun hok => ⟨⟨current, hcurrent, hgen⟩, ?_⟩
  cases hrow : s.reservations.get? ticket with
  | none =>
    show (s.reservations.put _).get? ticket = _
    rw [Keyed.get?_put, if_pos rfl]
  | some existing =>
    rw [hrow] at hok
    by_cases hsame : existing ≠ ⟨ticket, inode, expected, Table.ordSet chunks, expiresAt⟩
    · simp [Txn.failIf_run, hsame] at hok
    · simp only [Txn.failIf_run, if_neg hsame]
      rw [hrow, not_not.mp hsame]

/-- A reservation that is answered with `Ok`: the record still has the generation it
was asked for, and the ticket holds the chunks. -/
theorem reserve_answered {rpc : Rpc} {s : Tables} {ticket : WriteTicketId} {inode : InodeId}
    {expected : Generation} {chunks : List ChunkId} {expiresAt : Nat}
    (hfresh : rpc.isFresh s = true)
    (h : (rpc.call (.reserveChunks ticket inode expected chunks expiresAt) mapEmpty s).1 = .ok ()) :
    (∃ current, s.inodes.get? inode = some current ∧ current.generation = expected) ∧
      ∃ row, (rpc.call (.reserveChunks ticket inode expected chunks expiresAt) mapEmpty
        s).2.reservations.get? ticket = some row ∧ ∀ c ∈ chunks, c ∈ row.chunks := by
  obtain ⟨hresponse, htables⟩ := Rpc.call_ok h
  obtain ⟨before, after, _, t, hok, _, happlied⟩ :=
    Rpc.performed (.reserveChunks ticket inode expected chunks expiresAt) hfresh rfl
      (by simp [mapEmpty_ok hresponse])
  obtain ⟨hcurrent, hrow⟩ := reserveChunksInTxn_spec (by rw [hok])
  rw [hok] at hrow
  refine ⟨hcurrent, ⟨ticket, inode, expected, Table.ordSet chunks, expiresAt⟩, ?_,
    fun c hc => Table.mem_ordSet.mpr hc⟩
  rw [htables, happlied]
  exact hrow

/-! ## The invariant -/

/-- The puts a write has still to make. -/
def unstored (hash : Bytes → ChunkId) (staged : List (ChunkId × Bytes)) (stored : Bool) :
    List (ChunkId × Bytes) :=
  match staged with
  | [] => []
  | (c, data) :: rest => if stored = true ∧ hash data = c then rest else (c, data) :: rest

/-- The ticket covers the manifest, and each Local extent is good or still to be put. -/
structure JobBacked (good : Nat → ChunkId → Prop) (row : ChunkReservation) (manifest : Manifest)
    (unput : List (ChunkId × Bytes)) : Prop where
  covered : ∀ c ∈ manifest.localChunks, c ∈ row.chunks
  backed : ∀ offset len c, .local offset len c ∈ manifest.extents.extents →
    good len c ∨ ∃ data, (c, data) ∈ unput ∧ data.length = len

/-- What a writer relies on; a write whose ticket is gone can only fail. -/
def WriterBacked (hash : Bytes → ChunkId) (good : Nat → ChunkId → Prop)
    (tickets : List WriteTicketId) (s : Tables) : Writer → Prop
  | .idle | .aborting _ => True
  | .opened basis => Known s basis
  | .loaded basis old => Known s basis ∧ Loaded s basis old
  | .putting job staged stored =>
    job.basis.generation < u64Max ∧ job.ticket ∈ tickets ∧
      ∀ row, s.reservations.get? job.ticket = some row →
        JobBacked good row job.manifest (unstored hash staged stored)

/-- Live chunks are good, and every client carries what it needs to keep them so. -/
structure Backed (hash : Bytes → ChunkId) (good : Cluster → Nat → ChunkId → Prop) (st : Cluster) :
    Prop where
  grounded : Grounded st.tables
  fence : Fence st.tables
  live : ∀ len c, st.tables.RefersTo len c → good st len c
  writers : ∀ w, WriterBacked hash (good st) st.tickets st.tables (st.writer w)

theorem Backed.fresh (hash : Bytes → ChunkId) (good : Cluster → Nat → ChunkId → Prop)
    (start : Int) : Backed hash good (Cluster.fresh start) where
  grounded := Grounded.fresh start
  fence := Fence.fresh start
  live len c h := by
    obtain ⟨mid, _, m, _, hm, _⟩ := h
    simp [Cluster.fresh, Tables.fresh] at hm
  writers w := by simp [Cluster.writer, Cluster.fresh, WriterBacked]

/-! ## One step -/

section
variable {hash : Bytes → ChunkId} {good : Cluster → Nat → ChunkId → Prop} {st st' : Cluster}
  {a : ClusterAction}

theorem writer_moves {w : Nat} {action : WriterAction}
    (h : clusterStep hash st (.writer w action) = some st') :
    writerStep hash st.tables st.workers (st.writer w) action =
      some (st'.tables, st'.workers, st'.writer w) := by
  obtain ⟨_, h⟩ := Option.ite_none_right_eq_some.mp h
  obtain ⟨⟨t, ws, next⟩, hstep, rfl⟩ := Option.map_eq_some_iff.mp h
  rw [hstep]
  simp [Cluster.writer]

/-- A step moves one writer at most. -/
theorem clusterStep_writer (h : clusterStep hash st a = some st') (w : Nat) :
    (st'.writer w = st.writer w ∧ st.tickets ⊆ st'.tickets) ∨
      ∃ action, a = .writer w action ∧ st'.tickets = action.ticket?.toList ++ st.tickets ∧
        writerStep hash st.tables st.workers (st.writer w) action =
          some (st'.tables, st'.workers, st'.writer w) := by
  cases a with
  | writer v action =>
    have hmoves := writer_moves h
    obtain ⟨_, h⟩ := Option.ite_none_right_eq_some.mp h
    obtain ⟨⟨t, ws, next⟩, _, rfl⟩ := Option.map_eq_some_iff.mp h
    by_cases hv : v = w
    · subst hv
      exact .inr ⟨action, rfl, rfl, hmoves⟩
    · refine .inl ⟨?_, List.subset_append_right _ _⟩
      show ((st.writers.insert v next)[w]?).getD .idle = _
      rw [Table.get_insert, if_neg hv]
      rfl
  | pass p action =>
    obtain ⟨_, _, rfl⟩ := Option.map_eq_some_iff.mp h
    exact .inl ⟨rfl, List.Subset.refl _⟩
  | sweep q action =>
    obtain ⟨_, h⟩ := Option.ite_none_right_eq_some.mp h
    obtain ⟨_, _, rfl⟩ := Option.map_eq_some_iff.mp h
    exact .inl ⟨rfl, List.Subset.refl _⟩
  | request r =>
    obtain ⟨_, h⟩ := Option.ite_none_right_eq_some.mp h
    cases h
    exact .inl ⟨rfl, List.Subset.refl _⟩
  | repair c source target =>
    obtain ⟨_, _, rfl⟩ := Option.map_eq_some_iff.mp h
    exact .inl ⟨rfl, List.Subset.refl _⟩

/-- A request of a step that commits an image ends the write of some writer. -/
theorem commit_sent {r : MetaRequest} (h : clusterStep hash st a = some st')
    (hr : a.sends st = some r) (hcommit : r.req.op.commit?.isSome) :
    ∃ w rpc job stored, a = .writer w (.commit rpc) ∧ st.writer w = .putting job [] stored ∧
      r.req.op = job.commitOp := by
  cases a with
  | writer w action =>
    simp only [ClusterAction.sends, Writer.sends] at hr
    split at hr
    · cases hr
      cases hcommit
    · rename_i job stored rpc hw
      cases hr
      exact ⟨w, rpc, job, stored, rfl, hw, rfl⟩
    · cases hr
      cases hcommit
    · cases hr
  | pass _ action | sweep _ action =>
    simp only [ClusterAction.sends, Pass.sends, Sweep.sends] at hr
    split at hr
    all_goals cases hr
    all_goals cases hcommit
  | request r =>
    cases hr
    have hother := (Option.ite_none_right_eq_some.mp h).1
    cases hop : r.req.op with
    | commitInodeManifest | commitInodeManifestReserved =>
      rw [hop] at hother
      cases hother
    | _ =>
      rw [hop] at hcommit
      cases hcommit
  | repair c source target => cases hr

/-- A request of a step that reserves chunks does so under a new ticket. -/
theorem reserve_sent {r : MetaRequest} {ticket : WriteTicketId}
    (h : clusterStep hash st a = some st') (hr : a.sends st = some r)
    (hreserve : r.req.op.reserves? = some ticket) : ticket ∉ st.tickets := by
  cases a with
  | writer w action =>
    have hnew := (Option.ite_none_right_eq_some.mp h).1
    simp only [ClusterAction.sends, Writer.sends] at hr
    split at hr
    · cases hr
      cases hreserve
      exact hnew _ rfl
    · cases hr
      cases hreserve
    · cases hr
      cases hreserve
    · cases hr
  | pass _ action | sweep _ action =>
    simp only [ClusterAction.sends, Pass.sends, Sweep.sends] at hr
    split at hr
    all_goals cases hr
    all_goals cases hreserve
  | request r =>
    cases hr
    have hother := (Option.ite_none_right_eq_some.mp h).1
    cases hop : r.req.op with
    | reserveChunks =>
      rw [hop] at hother
      cases hother
    | _ =>
      rw [hop] at hreserve
      cases hreserve
  | repair c source target => cases hr

/-- What a step does to references, reservations and manifests. -/
theorem refines_step (hgrounded : Grounded st.tables) (hfence : Fence st.tables)
    (hstep : clusterStep hash st a = some st') :
    st'.tables = st.tables ∨ ∃ r : MetaRequest, a.sends st = some r ∧
      st'.tables = (applyRaftRequest r.now r.req st.tables).2 ∧
      Refines r.req.op st.tables st'.tables := by
  rcases clusterStep_sent hstep with heq | ⟨r, hr, heq⟩
  · exact .inl heq
  · obtain ⟨hraw, hlocal⟩ := sends_client hstep hr
    refine .inr ⟨r, hr, heq, ?_⟩
    rw [heq]
    exact refines_request hgrounded hfence hraw hlocal

/-- What a step does to the tables, as far as references and knowledge go. -/
theorem Backed.tables (h : Backed hash good st) (hmax : st.tables.GenerationsBelowMax)
    (hstep : clusterStep hash st a = some st') :
    st'.tables = st.tables ∨ ∃ r : MetaRequest, a.sends st = some r ∧
      Refines r.req.op st.tables st'.tables ∧
      ∀ basis, Known st.tables basis → Known st'.tables basis := by
  rcases refines_step h.grounded h.fence hstep with heq | ⟨r, hr, heq, hrefines⟩
  · exact .inl heq
  · have hnext : r.req.op.AdvancesOnce := by
      intro expected image manifest hcommit
      obtain ⟨w, rpc, job, stored, _, hw, hop⟩ :=
        commit_sent hstep hr (by rw [hcommit]; rfl)
      have hwriter := h.writers w
      rw [hw] at hwriter
      rw [hop] at hcommit
      cases hcommit
      exact (job.change.image_spec job.basis).2.1.trans (saturatingAdd_of_lt hwriter.1)
    refine .inr ⟨r, hr, hrefines, fun basis hknown => ?_⟩
    rw [heq] at hrefines ⊢
    exact hknown.request h.grounded hmax (sends_client hstep hr).1 hnext hrefines

theorem composed_local {old manifest : Manifest} {staged : List (ChunkId × Bytes)}
    (h : composed old manifest staged = true) {offset len : Nat} {c : ChunkId}
    (he : .local offset len c ∈ manifest.extents.extents) :
    .local offset len c ∈ old.extents.extents ∨ ∃ data, (c, data) ∈ staged ∧ data.length = len := by
  have hextent := List.all_eq_true.mp h _ he
  simp only [Bool.or_eq_true, decide_eq_true_eq, List.any_eq_true, Prod.exists] at hextent
  rcases hextent with hold | ⟨_, data, hmem, rfl, hlen⟩
  · exact .inl hold
  · exact .inr ⟨data, hmem, hlen⟩

section
variable {good good' : Nat → ChunkId → Prop} {row : ChunkReservation} {manifest : Manifest}
  {staged rest unput : List (ChunkId × Bytes)} {expected : ChunkId} {data : Bytes}

/-- Chunks of a reservation are in use. -/
theorem JobBacked.keep {s : Tables} {ticket : WriteTicketId} (h : JobBacked good row manifest unput)
    (hrow : s.reservations.get? ticket = some row)
    (hgood : ∀ len c, ¬ s.Unused c → good len c → good' len c) :
    JobBacked good' row manifest unput := by
  refine ⟨h.covered, fun offset len c he => (h.backed offset len c he).imp_left fun hc => ?_⟩
  exact hgood len c (fun hunused => hunused.2 _ row hrow (h.covered c (mem_localChunks he))) hc

/-- Under a new ticket, what is not staged is part of the version that was read. -/
theorem JobBacked.reserve {old : Manifest} (hcovered : ∀ c ∈ manifest.localChunks, c ∈ row.chunks)
    (hcomposed : composed old manifest staged = true)
    (hold : ∀ offset len c, .local offset len c ∈ old.extents.extents → good len c) :
    JobBacked good row manifest (unstored hash staged false) := by
  refine ⟨hcovered, fun offset len c he => ?_⟩
  rcases composed_local hcomposed he with hkept | hstaged
  · exact .inl (hold offset len c hkept)
  · right
    cases staged with
    | nil => simp at hstaged
    | cons row rest => simpa [unstored] using hstaged

theorem JobBacked.store {stored : Bool}
    (h : JobBacked good row manifest (unstored hash ((expected, data) :: rest) stored))
    (hput : good data.length (hash data)) :
    JobBacked good row manifest (unstored hash ((expected, data) :: rest) true) := by
  refine ⟨h.covered, fun offset len c he => ?_⟩
  rcases h.backed offset len c he with hc | ⟨bytes, hmem, hlen⟩
  · exact .inl hc
  have hmem : (c, bytes) ∈ (expected, data) :: rest := by
    simp only [unstored] at hmem
    split at hmem
    · exact List.mem_cons_of_mem _ hmem
    · exact hmem
  by_cases hhash : hash data = expected
  · rcases List.mem_cons.mp hmem with heq | hrest
    · cases heq
      rw [hhash, hlen] at hput
      exact .inl hput
    · exact .inr ⟨bytes, by simpa [unstored, hhash] using hrest, hlen⟩
  · exact .inr ⟨bytes, by simpa [unstored, hhash] using hmem, hlen⟩

theorem JobBacked.putDone
    (h : JobBacked good row manifest (unstored hash ((expected, data) :: rest) true))
    (hhash : hash data = expected) :
    JobBacked good row manifest (unstored hash rest false) := by
  simp only [unstored, hhash, and_self, if_true] at h
  cases rest with
  | nil => exact h
  | cons row rest => simpa [unstored] using h

end

/-- A writer that does not move keeps what it relies on. -/
theorem WriterBacked.frame {good good' : Nat → ChunkId → Prop}
    {tickets tickets' : List WriteTicketId}
    {s t : Tables} {w : Writer} (h : WriterBacked hash good tickets s w)
    (hknown : ∀ basis, Known s basis → Known t basis)
    (hloaded : ∀ basis old, Known s basis → Loaded s basis old → Loaded t basis old)
    (hreserved : ∀ ticket ∈ tickets, ∀ row, t.reservations.get? ticket = some row →
      s.reservations.get? ticket = some row)
    (hgood : ∀ len c, ¬ s.Unused c → good len c → good' len c) (htickets : tickets ⊆ tickets') :
    WriterBacked hash good' tickets' t w := by
  cases w with
  | idle => trivial
  | aborting ticket => trivial
  | opened basis => exact hknown basis h
  | loaded basis old => exact ⟨hknown basis h.1, hloaded basis old h.1 h.2⟩
  | putting job staged stored =>
    obtain ⟨hmax, hticket, hjob⟩ := h
    refine ⟨hmax, htickets hticket, fun row hrow => ?_⟩
    have hrow := hreserved _ hticket row hrow
    exact (hjob row hrow).keep hrow hgood

/-- The writer that moves: its knowledge is what it has just read, and its ticket's
chunks are good once they are put. -/
theorem WriterBacked.move {good good' : Nat → ChunkId → Prop} {tickets : List WriteTicketId}
    {s t : Tables} {ws ws' : Workers} {w next : Writer} {action : WriterAction}
    (h : WriterBacked hash good tickets s w)
    (hstep : writerStep hash s ws w action = some (t, ws', next))
    (hgrounded : Grounded s) (hfence : Fence s) (hmax : s.GenerationsBelowMax)
    (hlive : ∀ len c, s.RefersTo len c → good len c)
    (hgood : ∀ len c, ¬ s.Unused c → good len c → good' len c)
    (hput : ∀ job expected data rest stored target, w = .putting job ((expected, data) :: rest)
      stored → action = .store target → good' data.length (hash data)) :
    WriterBacked hash good' (action.ticket?.toList ++ tickets) t next := by
  unfold writerStep at hstep
  split at hstep
  · -- getInode
    split at hstep
    · rename_i basis hbasis
      cases hstep
      exact known_of_stored hgrounded hfence hmax hbasis
    · cases hstep
      trivial
  · -- getManifest
    split at hstep
    · cases hstep
      exact ⟨h, fun offset len c he => nomatch he⟩
    · rename_i mid hmid
      split at hstep
      · rename_i old hold
        cases hstep
        refine ⟨h, fun offset len c he => ⟨mid, hmid, fun m hm => ?_⟩⟩
        exact Option.some.inj (hm.symm.trans hold)
      · cases hstep
        trivial
  · -- reserve
    rename_i basis old ticket change manifest staged deadline rpc
    obtain ⟨⟨hfresh, hcomposed⟩, hstep⟩ := Option.ite_none_right_eq_some.mp hstep
    cases hstep
    obtain ⟨hknown, hloaded⟩ := h
    unfold onReply
    split
    · rename_i hok
      obtain ⟨⟨current, hcurrent, hgen⟩, row, hrow, hcovered⟩ := reserve_answered hfresh hok
      -- the record is still the one the write was computed from
      have hstored : s.inodes.get? basis.id = some basis := by
        rw [hcurrent, hknown.current hcurrent hgen]
      refine ⟨hknown.canAdvance, List.mem_append_left _ (List.mem_singleton.mpr rfl),
        fun row' hrow' => ?_⟩
      have heq : row = row' := Option.some.inj (hrow.symm.trans hrow')
      subst heq
      refine .reserve hcovered hcomposed fun offset len c he => ?_
      have hrefers := hloaded.refersTo hfence hstored he
      exact hgood len c hrefers.used (hlive len c hrefers)
    · trivial
  · -- store
    rename_i job expected data rest stored target
    cases hstep
    obtain ⟨hlt, hticket, hjob⟩ := h
    exact ⟨hlt, hticket, fun row hrow => ((hjob row hrow).keep hrow hgood).store
      (hput job expected data rest stored target rfl rfl)⟩
  · -- putDone
    rename_i job expected data rest
    cases hstep
    split
    · rename_i hhash
      obtain ⟨hlt, hticket, hjob⟩ := h
      exact ⟨hlt, hticket, fun row hrow => ((hjob row hrow).keep hrow hgood).putDone hhash⟩
    · trivial
  · -- putFailed
    cases hstep
    trivial
  · -- commit
    obtain ⟨_, hstep⟩ := Option.ite_none_right_eq_some.mp hstep
    cases hstep
    unfold onReply
    split <;> trivial
  · -- abort
    obtain ⟨_, hstep⟩ := Option.ite_none_right_eq_some.mp hstep
    cases hstep
    trivial
  · cases hstep
    trivial
  · cases hstep

/-- A step under which used chunks stay good and puts make chunks good. -/
theorem Backed.step (h : Backed hash good st) (hmax : st.tables.GenerationsBelowMax)
    (hstep : clusterStep hash st a = some st')
    (hgood : ∀ len c, ¬ st.tables.Unused c → good st len c → good st' len c)
    (hput : ∀ w job expected data rest stored target,
      st.writer w = .putting job ((expected, data) :: rest) stored →
      a = .writer w (.store target) → good st' data.length (hash data)) : Backed hash good st' := by
  obtain ⟨hgrounded, hfence⟩ := fence_step hstep ⟨h.grounded, h.fence⟩
  have htables := h.tables hmax hstep
  refine ⟨hgrounded, hfence, fun len c hc => ?_, fun w => ?_⟩
  · rcases htables with heq | ⟨r, hr, hrefines, _⟩
    · rw [heq] at hc
      exact hgood len c hc.used (h.live len c hc)
    · rcases hrefines.refers len c hc with hold | ⟨expected, image, manifest, ticket, row, offset,
        hcommit, hshows, hrow, he⟩
      · exact hgood len c hold.used (h.live len c hold)
      · -- the write that commits the extent has put its chunk or carried it over
        obtain ⟨w, rpc, job, stored, _, hw, hop⟩ :=
          commit_sent hstep hr (by rw [hcommit]; rfl)
        have hwriter := h.writers w
        rw [hw] at hwriter
        rw [hop] at hcommit hshows
        cases hcommit
        cases hshows
        obtain ⟨hcovered, hbacked⟩ := hwriter.2.2 row hrow
        rcases hbacked offset len c he with hc | ⟨_, hmem, _⟩
        · exact hgood len c
            (fun hunused => hunused.2 _ row hrow (hcovered c (mem_localChunks he))) hc
        · cases hmem
  · rcases clusterStep_writer hstep w with ⟨hw, htickets⟩ | ⟨action, rfl, htickets, hmove⟩
    · rw [hw]
      rcases htables with heq | ⟨r, hr, hrefines, hknown⟩
      · rw [heq]
        exact (h.writers w).frame (fun _ hb => hb) (fun _ _ _ ho => ho) (fun _ _ _ hrow => hrow)
          hgood htickets
      · apply (h.writers w).frame hknown (fun _ _ hb ho => ho.refines hb hrefines) _ hgood htickets
        intro ticket hticket row hrow
        rcases hrefines.reservations ticket row hrow with hold | hnew
        · exact hold
        · exact absurd hticket (reserve_sent hstep hr hnew)
    · rw [htickets]
      exact (h.writers w).move hmove h.grounded h.fence hmax h.live hgood
        (fun job expected data rest stored target hw ha =>
          hput w job expected data rest stored target hw (by rw [ha]))

end

end FluxFS
