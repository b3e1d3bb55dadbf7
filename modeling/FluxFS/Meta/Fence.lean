import FluxFS.Meta.Runs

/-!
# Fence — tombstones against live manifests and reservations

The concurrent collector never tombstones a chunk that a stored inode's
manifest or an outstanding write ticket uses, and a write can only reserve
chunks that are not tombstoned. `Fence` is that agreement between the three
tables; a commit keeps it because the ticket it shows has held its chunks
since they were reserved.
-/

namespace FluxFS

open Std Kit

/-- An import whose manifest has a Local extent, which no client sends. -/
def MetaOp.importsLocal : MetaOp → Bool
  | .importExternal _ _ _ (some manifest) _ => manifestHasLocal manifest
  | _ => false

/-- What keeps live chunks out of the tombstones: active manifests are stored, and no
tombstoned chunk is in one of them or reserved. -/
structure Fence (s : Tables) : Prop where
  manifestsBelow : ∀ mid m, s.manifests[mid]? = some m → mid < s.nextManifest
  present : ∀ mid ∈ s.activeManifests, ∃ m, s.manifests[mid]? = some m
  fenced : ∀ c tombstone, s.tombstones.get? c = some tombstone → s.Unused c

theorem unused_iff {s : Tables} {c : ChunkId} :
    s.Unused c ↔ (∀ mid ∈ s.activeManifests, ∀ m, s.manifests[mid]? = some m → c ∉ m.localChunks) ∧
      ∀ ticket r, s.reservations.get? ticket = some r → c ∉ r.chunks := by
  simp only [Tables.Unused, mem_activeManifests]
  constructor
  · rintro ⟨hlive, hreserved⟩
    refine ⟨?_, hreserved⟩
    rintro mid ⟨id, i, hi, hmid⟩ m hm
    exact hlive id i mid m hi hmid hm
  · rintro ⟨hlive, hreserved⟩
    exact ⟨fun id i mid m hi hmid hm => hlive mid ⟨id, i, hi, hmid⟩ m hm, hreserved⟩

/-! ## References after an update -/

section
variable {s t : Tables} {mid : ManifestId}

theorem activeManifests_putInode {i : Inode} (h : mid ∈ (s.putInode i).activeManifests) :
    i.manifestId = some mid ∨ mid ∈ s.activeManifests := by
  simp only [mem_activeManifests] at h ⊢
  obtain ⟨id, j, hj, hmid⟩ := h
  rw [Tables.get_putInode] at hj
  split at hj
  · cases hj
    exact .inl hmid
  · exact .inr ⟨id, j, hj, hmid⟩

theorem activeManifests_of_stored {i : Inode} {id : InodeId} (hi : s.inodes.get? id = some i)
    (hmid : i.manifestId = some mid) : mid ∈ s.activeManifests :=
  mem_activeManifests.mpr ⟨id, i, hi, hmid⟩

theorem activeManifests_deleteInode {id : InodeId} (h : mid ∈ (s.deleteInode id).activeManifests) :
    mid ∈ s.activeManifests := by
  obtain ⟨a, i, hi, hmid⟩ := mem_activeManifests.mp h
  exact activeManifests_of_stored (Tables.of_get_deleteInode hi).2 hmid

end

namespace Fence
variable {now : Clock} {op : MetaOp} {faulty records : Prop} {start : Keyed Inode.id} {s t : Tables}

theorem fresh (now : Int) : Fence (Tables.fresh now) where
  manifestsBelow mid m h := by simp [Tables.fresh] at h
  present mid h := by
    obtain ⟨id, i, hi, hmid⟩ := mem_activeManifests.mp h
    rw [(Tables.of_get_fresh hi).2] at hmid
    cases hmid
  fenced c tombstone h := by simp [Tables.fresh] at h

/-- Fewer references, reservations and tombstones over the same manifests. -/
theorem mono (h : Fence s) (hmanifests : t.manifests = s.manifests)
    (hnext : t.nextManifest = s.nextManifest)
    (hactive : ∀ mid ∈ t.activeManifests, mid ∈ s.activeManifests)
    (hreserved : ∀ ticket r, t.reservations.get? ticket = some r →
      s.reservations.get? ticket = some r)
    (htombstones : ∀ c x, t.tombstones.get? c = some x → ∃ y, s.tombstones.get? c = some y) :
    Fence t where
  manifestsBelow mid m hm := by
    rw [hnext]
    exact h.manifestsBelow mid m (hmanifests ▸ hm)
  present mid hmid := by
    rw [hmanifests]
    exact h.present mid (hactive mid hmid)
  fenced c x hx := by
    obtain ⟨y, hy⟩ := htombstones c x hx
    have hunused := unused_iff.mp (h.fenced c y hy)
    rw [unused_iff, hmanifests]
    exact ⟨fun mid hmid => hunused.1 mid (hactive mid hmid),
      fun ticket r hr => hunused.2 ticket r (hreserved ticket r hr)⟩

/-- An image may name a manifest in use or one whose chunks are not tombstoned. -/
theorem putInode (h : Fence s) {i : Inode}
    (hclean : ∀ mid, i.manifestId = some mid → mid ∈ s.activeManifests ∨
      ∃ m, s.manifests[mid]? = some m ∧ ∀ c ∈ m.localChunks, s.tombstones.get? c = none) :
    Fence (s.putInode i) where
  manifestsBelow := h.manifestsBelow
  present mid hmid := by
    rcases activeManifests_putInode hmid with hnew | hold
    · rcases hclean mid hnew with hold | ⟨m, hm, _⟩
      · exact h.present mid hold
      · exact ⟨m, hm⟩
    · exact h.present mid hold
  fenced c x hx := by
    have hunused := unused_iff.mp (h.fenced c x hx)
    rw [unused_iff]
    constructor
    · intro mid hmid m hm hc
      have hold : mid ∈ s.activeManifests := by
        rcases activeManifests_putInode hmid with hnew | hold
        · rcases hclean mid hnew with hold | ⟨m', hm', hfree⟩
          · exact hold
          · -- a new manifest has no tombstoned chunk
            have heq : m' = m := Option.some.inj (hm'.symm.trans hm)
            have hnone := hfree c (heq ▸ hc)
            have hsome : s.tombstones.get? c = some x := hx
            rw [hnone] at hsome
            cases hsome
        · exact hold
      exact hunused.1 mid hold m hm hc
    · exact hunused.2

/-- The record of a stored inode with the manifest it had. -/
theorem putInode_keep (h : Fence s) {i old : Inode} {id : InodeId}
    (hold : s.inodes.get? id = some old) (hmid : i.manifestId = old.manifestId) :
    Fence (s.putInode i) := by
  apply h.putInode
  intro mid hi
  exact .inl (activeManifests_of_stored hold (hmid ▸ hi))

theorem deleteInode (h : Fence s) (id : InodeId) : Fence (s.deleteInode id) := by
  refine h.mono rfl rfl (fun _ => activeManifests_deleteInode) ?_ (fun c x hx => ⟨x, hx⟩)
  intro ticket r hr
  rw [Tables.get_reservations_deleteInode] at hr
  exact (Option.filter_eq_some_iff.mp hr).1

/-- A stored manifest may be added or an unreferenced one removed. -/
theorem setManifests (h : Fence s) {manifests : Table ManifestId Manifest} {next : ManifestId}
    (hbelow : ∀ mid m, manifests[mid]? = some m → mid < next)
    (hsame : ∀ mid ∈ s.activeManifests, manifests[mid]? = s.manifests[mid]?) :
    Fence { s with manifests := manifests, nextManifest := next } where
  manifestsBelow := hbelow
  present mid hmid := by
    show ∃ m, manifests[mid]? = some m
    rw [hsame mid hmid]
    exact h.present mid hmid
  fenced c x hx := by
    have hunused := unused_iff.mp (h.fenced c x hx)
    rw [unused_iff]
    refine ⟨fun mid hmid m hm => ?_, hunused.2⟩
    exact hunused.1 mid hmid m ((hsame mid hmid).symm.trans hm)

theorem addManifest (h : Fence s) (m : Manifest) : Fence (s.addManifest m) := by
  apply h.setManifests
  · intro mid n hn
    rw [Table.get_insert] at hn
    split at hn
    · rename_i heq
      rw [← heq]
      exact Nat.lt_succ_self _
    · exact Nat.lt_succ_of_lt (h.manifestsBelow mid n hn)
  · intro mid hmid
    obtain ⟨n, hn⟩ := h.present mid hmid
    have hlt := h.manifestsBelow mid n hn
    rw [Table.get_insert, if_neg (Nat.ne_of_gt hlt)]

theorem removeManifests (h : Fence s) {ids : List ManifestId}
    (hids : ∀ id ∈ ids, id ∉ s.activeManifests) : Fence (s.removeManifests ids) := by
  apply h.setManifests
  · intro mid n hn
    rw [Table.get_eraseAll] at hn
    split at hn
    · cases hn
    · exact h.manifestsBelow mid n hn
  · intro mid hmid
    rw [Table.get_eraseAll, if_neg]
    intro hmem
    exact hids mid hmem hmid

/-- A ticket may be given out for chunks that are not tombstoned. -/
theorem reserve (h : Fence s) {r : ChunkReservation}
    (hfree : ∀ c ∈ r.chunks, s.tombstones.get? c = none) :
    Fence { s with reservations := s.reservations.put r } where
  manifestsBelow := h.manifestsBelow
  present := h.present
  fenced c x hx := by
    refine ⟨(h.fenced c x hx).1, fun ticket r' hr' hc => ?_⟩
    rw [Keyed.get?_put] at hr'
    split at hr'
    · cases hr'
      have hsome : s.tombstones.get? c = some x := hx
      rw [hfree c hc] at hsome
      cases hsome
    · exact (h.fenced c x hx).2 ticket r' hr' hc

theorem putTombstone (h : Fence s) {x : GcTombstone} (hunused : s.Unused x.chunk) :
    Fence (s.putTombstone x) where
  manifestsBelow := h.manifestsBelow
  present := h.present
  fenced c y hy := by
    rw [Tables.putTombstone, Keyed.get?_put] at hy
    split at hy
    · rename_i heq
      exact heq ▸ hunused
    · exact h.fenced c y hy

/-- The fence does not look at names. -/
theorem setDentries (h : Fence s) (dentries : Table NameKey InodeId) :
    Fence { s with dentries := dentries } :=
  ⟨h.manifestsBelow, h.present, h.fenced⟩

/-- The chunks of a ticket are not tombstoned. -/
theorem free_of_reserved (h : Fence s) {ticket : WriteTicketId} {r : ChunkReservation} {c : ChunkId}
    (hr : s.reservations.get? ticket = some r) (hc : c ∈ r.chunks) : s.tombstones.get? c =
      none := by
  cases hx : s.tombstones.get? c with
  | none => rfl
  | some x => exact absurd hc ((h.fenced c x hx).2 ticket r hr)

/-- A new inode has no manifest or an imported one without Local extents. -/
theorem clean_of_born (hlocal : op.importsLocal = false) {i : Inode} (hborn : Born now op s i)
    {mid : ManifestId} (hmid : i.manifestId = some mid) :
    ∃ m, s.manifests[mid]? = some m ∧ m.localChunks = [] := by
  cases hborn with
  | created => cases hmid
  | imported => cases hmid
  | importedData hop hmanifest =>
    cases hmid
    rw [hop] at hlocal
    have hnone := localChunks_of_not_manifestHasLocal (Bool.not_eq_true _ ▸ hlocal)
    exact ⟨_, hmanifest, hnone⟩

theorem addInode (hlocal : op.importsLocal = false) (h : Fence s) {i : Inode}
    (hborn : Born now op s i) : Fence (s.addInode i) := by
  have hnext : Fence { s with nextInode := s.nextInode + 1 } :=
    ⟨h.manifestsBelow, h.present, h.fenced⟩
  apply hnext.putInode
  intro mid hmid
  obtain ⟨m, hm, hnone⟩ := clean_of_born hlocal hborn hmid
  exact .inr ⟨m, hm, by simp [hnone]⟩

/-- A committed image: its manifest was just added under a new id. -/
theorem commitImage (h : Fence s) {image : Inode} {manifest : Manifest}
    (hfree : ∀ c ∈ manifest.localChunks, s.tombstones.get? c = none) :
    Fence ((s.addManifest manifest).putInode { image with manifestId := some s.nextManifest }) := by
  apply (h.addManifest manifest).putInode
  intro mid hmid
  cases hmid
  refine .inr ⟨manifest, ?_, hfree⟩
  rw [Tables.addManifest, Table.get_insert, if_pos rfl]

theorem edit (hraw : op.isRaw = false) (hlocal : op.importsLocal = false) (h : Fence s)
    (e : Edit now op faulty records start s t) : Fence t := by
  cases e with
  | aside | skipInode | openPresence | putXattr | eraseXattr =>
    exact ⟨h.manifestsBelow, h.present, h.fenced⟩
  | raw hop =>
    rw [hop] at hraw
    cases hraw
  | touch hold hnew =>
    apply h.putInode_keep hold
    rw [hnew]
  | addEntry _ _ hborn =>
    exact (h.addInode hlocal hborn).setDentries _
  | addOrphan _ _ hborn => exact h.addInode hlocal hborn
  | linkEntry _ _ hsource =>
    refine setDentries (h.putInode_keep hsource ?_) _
    rfl
  | unlinkEntry _ hchild => exact (h.setDentries _).putInode_keep hchild rfl
  | reapEntry | removeDir => exact (h.setDentries _).deleteInode _
  | eraseEntry => exact h.setDentries _
  | moveEntry _ _ _ hsource => exact (h.setDentries _).putInode_keep hsource rfl
  | closePresence =>
    apply reapAll_keep
    · intro s id _ hs _ _ _
      exact hs.deleteInode id
    · exact ⟨h.manifestsBelow, h.present, h.fenced⟩
  | addManifest m => exact h.addManifest m
  | removeManifests _ hids => exact h.removeManifests hids
  | commitImage hop _ _ _ _ _ hfence =>
    apply h.commitImage
    intro c hc
    rcases hfence with hnone | ⟨ticket, r, _, hr, _, _, hcover⟩
    · rw [hnone] at hc
      cases hc
    · exact h.free_of_reserved hr (hcover c hc)
  | beginFlush hstored => exact h.putInode_keep hstored rfl
  | publishFlush _ _ _ _ _ hmid =>
    apply h.putInode
    intro mid hi
    obtain ⟨m, hm, hnone⟩ := hmid mid hi
    exact .inr ⟨m, hm, by simp [hnone]⟩
  | failFlush _ hstored => exact h.putInode_keep hstored rfl
  | reserve _ _ _ hfree => exact h.reserve hfree
  | dropReservations tickets =>
    refine h.mono rfl rfl (fun _ hmid => hmid) ?_ (fun c x hx => ⟨x, hx⟩)
    intro ticket r hr
    rw [Tables.dropReservations, Keyed.get?_deleteAll] at hr
    split at hr
    · cases hr
    · exact hr
  | tombstone _ hunused => exact h.putTombstone hunused
  | updateTombstone hold => exact h.putTombstone (h.fenced _ _ hold)
  | dropTombstone =>
    refine h.mono rfl rfl (fun _ hmid => hmid) (fun _ _ hr => hr) ?_
    intro a x hx
    rw [Keyed.get?_delete] at hx
    split at hx
    · cases hx
    · exact ⟨x, hx⟩

/-- What a client's request keeps of both invariants. -/
theorem request {r : MetaRequest}
    (hclient : r.req.op.isRaw = false ∧ r.req.op.importsLocal = false)
    (h : Grounded s ∧ Fence s) :
    Grounded (applyRaftRequest r.now r.req s).2 ∧ Fence (applyRaftRequest r.now r.req s).2 :=
  ⟨h.1.request hclient.1, request_keep h.1 (fun _ _ => edit hclient.1 hclient.2) h.2⟩

end Fence

/-! ## One batch -/

theorem get_putTombstones (chunks : List ChunkId) (s : Tables) (c : ChunkId) :
    (chunks.foldl (fun s c => s.putTombstone (.fresh c)) s).tombstones.get? c =
      if c ∈ chunks then some (.fresh c) else s.tombstones.get? c := by
  induction chunks generalizing s with
  | nil => simp
  | cons d chunks ih =>
    rw [List.foldl_cons, ih, Tables.putTombstone, Keyed.get?_put]
    by_cases hc : c ∈ chunks
    · simp [hc]
    · by_cases hd : d = c
      · subst hd
        simp [hc, GcTombstone.fresh]
      · simp [hc, hd, GcTombstone.fresh, Ne.symm hd]

theorem performOp_tombstoneGcBatch (now : Clock) (candidates : List ChunkId) (s : Tables) :
    performOp now (.tombstoneGcBatch candidates) s =
      (.ok (.gcBatch ⟨tombstoneCandidates s candidates, s.unreferencedManifests.length⟩),
        (tombstoneCandidates s candidates).foldl (fun s c => s.putTombstone (.fresh c))
          (s.removeManifests s.unreferencedManifests)) := rfl

/-- The tombstones of an executed batch. -/
theorem tombstoneGcBatch_exact {now : Clock} {req : MetaRaftRequest} {s : Tables}
    {candidates : List ChunkId} (hop : req.op = .tombstoneGcBatch candidates)
    (hexec : req.executes s = true) :
    ∃ batch, (applyRaftRequest now req s).1 = .gcBatch batch ∧
      (∀ c, c ∈ batch.tombstonedChunks ↔ c ∈ candidates ∧ s.Unused c) ∧
      ∀ c, ((applyRaftRequest now req s).2.tombstones.get? c).isSome ↔
        (s.tombstones.get? c).isSome ∨ c ∈ batch.tombstonedChunks := by
  obtain ⟨before, after, hresponse, htables⟩ := applyRaftRequest_of_executes now hexec
  rw [hop, performOp_tombstoneGcBatch] at hresponse htables
  refine ⟨_, hresponse, fun c => mem_tombstoneCandidates, fun c => ?_⟩
  rw [htables, get_putTombstones]
  split
  · rename_i hc
    simp [hc]
  · rename_i hc
    simp [hc, Tables.removeManifests]

/-! ## Tickets -/

/-- Only `ReserveChunks` gives a ticket out. -/
theorem ticket_absent_edit {now : Clock} {op : MetaOp} {faulty records : Prop} {start : Keyed Inode.id}
    {s t : Tables} {ticket : WriteTicketId} (hop : op.reserves? ≠ some ticket)
    (h : s.reservations.get? ticket = none) (e : Edit now op faulty records start s t) :
    t.reservations.get? ticket = none := by
  have hdelete : ∀ a id, a.reservations.get? ticket = none →
      (Tables.deleteInode a id).reservations.get? ticket = none := by
    intro a id ha
    rw [Tables.get_reservations_deleteInode, ha]
    rfl
  cases e with
  | reapEntry | removeDir => exact hdelete _ _ h
  | closePresence => exact reapAll_keep (fun s id _ hs _ _ _ => hdelete s id hs) _ h
  | @reserve r i hticket =>
    rw [Keyed.get?_put, if_neg, h]
    intro heq
    exact hop (hticket.trans (congrArg some heq))
  | dropReservations tickets =>
    rw [Tables.dropReservations, Keyed.get?_deleteAll, h]
    exact ite_self _
  | _ => exact h

/-- A commit that shows a ticket no reservation has is refused and changes nothing. -/
theorem commit_refused {now : Clock} {req : MetaRaftRequest} {s : Tables} {ticket : WriteTicketId}
    {expected : Generation} {inode : Inode} {manifest : Manifest}
    (hop : req.op = .commitInodeManifestReserved ticket expected inode manifest)
    (habsent : s.reservations.get? ticket = none) :
    (req.executes s = true → (applyRaftRequest now req s).1 = .err .busy) ∧
      ∃ ledger, (applyRaftRequest now req s).2 = { s with clientRequests := ledger } := by
  cases hexec : req.executes s with
  | false =>
    refine ⟨fun h => ?_, applyRaftRequest_of_not_executes now hexec⟩
    cases h
  | true =>
    obtain ⟨before, after, hresponse, htables⟩ := applyRaftRequest_of_executes now hexec
    have hrefused : performOp now req.op { s with clientRequests := before } =
        (.error .busy, { s with clientRequests := before }) := by
      rw [hop]
      refine Txn.bind_of_error (Txn.bind_of_error ?_ _) _
      simp [habsent]
    rw [hrefused] at hresponse htables
    exact ⟨fun _ => hresponse, after, htables⟩

/-- The request takes `ticket` back: it aborts it, or expires it in this pass. -/
def MetaOp.Drops (s : Tables) (ticket : WriteTicketId) (op : MetaOp) : Prop :=
  op = .abortChunkReservation ticket ∨
    ∃ cutoff maxToExpire, op = .expireChunkReservations cutoff maxToExpire ∧
      ticket ∈ (expiredReservations s cutoff maxToExpire).map (·.ticket)

theorem ticket_absent_of_drops {now : Clock} {req : MetaRaftRequest} {s : Tables}
    {ticket : WriteTicketId} (hexec : req.executes s = true) (hdrop : req.op.Drops s ticket) :
    (applyRaftRequest now req s).2.reservations.get? ticket = none := by
  obtain ⟨before, after, _, htables⟩ := applyRaftRequest_of_executes now hexec
  rw [htables]
  rcases hdrop with hop | ⟨cutoff, maxToExpire, hop, hmem⟩
  · rw [hop]
    show (s.reservations.deleteAll [ticket]).get? ticket = none
    rw [Keyed.get?_deleteAll, if_pos (List.mem_singleton_self ticket)]
  · rw [hop]
    show (s.reservations.deleteAll _).get? ticket = none
    rw [Keyed.get?_deleteAll, if_pos]
    exact hmem

/-- A ticket that is not outstanding stays so while nobody reserves it again. -/
theorem ticket_absent_run {s : Tables} {ticket : WriteTicketId} (later : List MetaRequest)
    (hlater : ∀ q ∈ later, q.req.op.isRaw = false ∧ q.req.op.reserves? ≠ some ticket)
    (hs : Grounded s) (habsent : s.reservations.get? ticket = none) :
    (runMeta s later).reservations.get? ticket = none := by
  have hrun : Grounded (runMeta s later) ∧ (runMeta s later).reservations.get? ticket = none := by
    apply runMeta_invariant (I := fun s => Grounded s ∧ s.reservations.get? ticket = none)
      (fun s q hq h => ?_) later hlater ⟨hs, habsent⟩
    exact ⟨h.1.request hq.1, request_keep h.1 (fun _ _ => ticket_absent_edit hq.2) h.2⟩
  exact hrun.2

/-! ## The fence in every run -/

/-- In every state any requests lead to: no tombstoned chunk is in a stored
inode's manifest or in a reservation; an executed batch tombstones exactly the
candidates in neither, and any other answer to it leaves the tombstones alone;
once a ticket was aborted or expired, and until it is reserved anew, a commit
that shows it is refused and changes no table but the request ledger. -/
theorem gc_fence_holds_in_every_run (start : Int) (requests : List MetaRequest) (s : Tables)
    (hclient : ∀ r ∈ requests, r.req.op.isRaw = false ∧ r.req.op.importsLocal = false)
    (hrun : runMeta (Tables.fresh start) requests = s) :
    (∀ id i mid, s.inodes.get? id = some i → i.manifestId = some mid →
      ∃ m, s.manifests[mid]? = some m ∧ ∀ c ∈ m.localChunks, s.tombstones.get? c = none) ∧
    (∀ ticket r, s.reservations.get? ticket = some r →
      ∀ c ∈ r.chunks, s.tombstones.get? c = none) ∧
    (∀ (r : MetaRequest) candidates, r.req.op = .tombstoneGcBatch candidates →
      (r.req.executes s = true →
        ∃ batch, (applyRaftRequest r.now r.req s).1 = .gcBatch batch ∧
          (∀ c, c ∈ batch.tombstonedChunks ↔ c ∈ candidates ∧ s.Unused c) ∧
          ∀ c, ((applyRaftRequest r.now r.req s).2.tombstones.get? c).isSome ↔
            (s.tombstones.get? c).isSome ∨ c ∈ batch.tombstonedChunks) ∧
      (r.req.executes s = false → (applyRaftRequest r.now r.req s).2.tombstones = s.tombstones)) ∧
    (∀ (ticket : WriteTicketId) (drop : MetaRequest) (later : List MetaRequest) (t : Tables),
      drop.req.executes s = true → drop.req.op.Drops s ticket →
      (∀ q ∈ later, q.req.op.isRaw = false ∧ q.req.op.reserves? ≠ some ticket) →
      runMeta s (drop :: later) = t →
      ∀ (commit : MetaRequest) expected inode manifest,
        commit.req.op = .commitInodeManifestReserved ticket expected inode manifest →
        (commit.req.executes t = true →
          (applyRaftRequest commit.now commit.req t).1 = .err .busy) ∧
        ∃ ledger, (applyRaftRequest commit.now commit.req t).2 =
          { t with clientRequests := ledger }) := by
  have hinv : Grounded s ∧ Fence s := by
    rw [← hrun]
    exact runMeta_invariant (I := fun s => Grounded s ∧ Fence s) (fun _ _ => Fence.request)
      requests hclient ⟨Grounded.fresh start, Fence.fresh start⟩
  obtain ⟨hgrounded, hfence⟩ := hinv
  refine ⟨fun id i mid hi hmid => ?_, fun ticket r hr c hc => hfence.free_of_reserved hr hc,
    fun r candidates hop => ⟨tombstoneGcBatch_exact hop, fun hnot => ?_⟩,
    fun ticket drop later t hexec hdrop hlater ht commit expected inode manifest hop => ?_⟩
  · have hactive := activeManifests_of_stored hi hmid
    obtain ⟨m, hm⟩ := hfence.present mid hactive
    refine ⟨m, hm, fun c hc => ?_⟩
    cases hx : s.tombstones.get? c with
    | none => rfl
    | some x => exact absurd hc ((hfence.fenced c x hx).1 id i mid m hi hmid hm)
  · obtain ⟨ledger, htables⟩ := applyRaftRequest_of_not_executes r.now hnot
    rw [htables]
  · apply commit_refused hop
    rw [← ht]
    have hdropRaw : drop.req.op.isRaw = false := by
      rcases hdrop with hop | ⟨_, _, hop, _⟩
      · rw [hop]
        rfl
      · rw [hop]
        rfl
    exact ticket_absent_run later hlater (hgrounded.request hdropRaw)
      (ticket_absent_of_drops hexec hdrop)

/-- A file, a ticket for one chunk, and a batch that asks for it and for another. -/
def sampleFenceRun : List MetaRequest :=
  [⟨10, none, 0, .create rootInode "f" .regular 0o644 0 0 none⟩,
    ⟨11, none, 0, .reserveChunks 7 2 1 [.ofByte 1] 99⟩,
    ⟨12, none, 0, .tombstoneGcBatch [.ofByte 1, .ofByte 2]⟩]

/-- The reserved chunk was spared, and after an abort of its ticket the commit of
the write is refused. -/
theorem gc_fence_holds_in_sampleFenceRun :
    (runMeta (Tables.fresh 9) sampleFenceRun).tombstones.get? (.ofByte 1) = none ∧
    (runMeta (Tables.fresh 9) sampleFenceRun).tombstones.get? (.ofByte 2) =
      some (.fresh (.ofByte 2)) ∧
    ∀ inode manifest, (applyRaftRequest 14
        ⟨none, 0, .commitInodeManifestReserved 7 1 inode manifest⟩
        (runMeta (runMeta (Tables.fresh 9) sampleFenceRun)
          [⟨13, none, 0, .abortChunkReservation 7⟩])).1 = .err .busy := by
  have h := gc_fence_holds_in_every_run 9 sampleFenceRun _ (by decide) rfl
  obtain ⟨_, hreserved, _, hcommit⟩ := h
  have hrow : ∃ r, (runMeta (Tables.fresh 9) sampleFenceRun).reservations.get? 7 = some r ∧
      ChunkId.ofByte 1 ∈ r.chunks := ⟨⟨7, 2, 1, [.ofByte 1], 99⟩, by decide +kernel, by decide⟩
  obtain ⟨r, hr, hc⟩ := hrow
  refine ⟨hreserved 7 r hr _ hc, by decide +kernel, fun inode manifest => ?_⟩
  exact (hcommit 7 ⟨13, none, 0, .abortChunkReservation 7⟩ [] _ (by decide +kernel) (.inl rfl)
    (by simp) rfl ⟨14, none, 0, .commitInodeManifestReserved 7 1 inode manifest⟩ 1 inode manifest
    rfl).1 rfl

end FluxFS
