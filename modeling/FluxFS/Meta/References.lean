import FluxFS.Meta.Fence

/-!
# References — what a request may change about the chunks in use

A manifest never changes once it is stored and its id is never used again, a
reservation is only ever dropped, and a stored inode comes to refer to a Local
extent only by a commit that shows the ticket of its chunks.
-/

namespace FluxFS

open Std Kit

/-- A stored inode's manifest has a Local extent of this length and chunk. -/
def Tables.RefersTo (s : Tables) (len : Nat) (c : ChunkId) : Prop :=
  ∃ mid ∈ s.activeManifests, ∃ m offset, s.manifests[mid]? = some m ∧
    .local offset len c ∈ m.extents.extents

theorem mem_localChunks {m : Manifest} {offset len : Nat} {c : ChunkId}
    (h : .local offset len c ∈ m.extents.extents) : c ∈ m.localChunks :=
  List.mem_filterMap.mpr ⟨_, h, rfl⟩

theorem localChunks_extent {m : Manifest} {c : ChunkId} (h : c ∈ m.localChunks) :
    ∃ offset len, .local offset len c ∈ m.extents.extents := by
  obtain ⟨e, he, hc⟩ := List.mem_filterMap.mp h
  cases e with
  | «local» offset len d =>
    cases hc
    exact ⟨offset, len, he⟩
  | ufsRange => cases hc

theorem Tables.RefersTo.used {s : Tables} {len : Nat} {c : ChunkId} (h : s.RefersTo len c) :
    ¬ s.Unused c := by
  obtain ⟨mid, hmid, m, offset, hm, he⟩ := h
  intro hunused
  exact (unused_iff.mp hunused).1 mid hmid m hm (mem_localChunks he)

/-! ## One edit -/

section
variable {now : Clock} {op : MetaOp} {faulty records : Prop} {start : Keyed Inode.id} {s t : Tables}
  {len : Nat} {c : ChunkId}

/-- Fewer active manifests over tables that agree on them. -/
theorem refersTo_mono (h : t.RefersTo len c)
    (hactive : ∀ mid ∈ t.activeManifests, mid ∈ s.activeManifests)
    (hmanifests : ∀ mid ∈ s.activeManifests, ∀ m, t.manifests[mid]? = some m →
      s.manifests[mid]? = some m) : s.RefersTo len c := by
  obtain ⟨mid, hmid, m, offset, hm, he⟩ := h
  exact ⟨mid, hactive mid hmid, m, offset, hmanifests mid (hactive mid hmid) m hm, he⟩

/-- A record that is stored with the manifest it had, or with one that has no Local
extent, adds no reference. -/
theorem refersTo_putInode {i : Inode} (h : (s.putInode i).RefersTo len c)
    (hmid : ∀ mid, i.manifestId = some mid → mid ∈ s.activeManifests ∨
      ∃ m, s.manifests[mid]? = some m ∧ m.localChunks = []) : s.RefersTo len c := by
  obtain ⟨mid, hactive, m, offset, hm, he⟩ := h
  rcases activeManifests_putInode hactive with hnew | hold
  · rcases hmid mid hnew with hold | ⟨m', hm', hnone⟩
    · exact ⟨mid, hold, m, offset, hm, he⟩
    · have heq : m' = m := Option.some.inj (hm'.symm.trans hm)
      have hc := mem_localChunks he
      rw [← heq, hnone] at hc
      cases hc
  · exact ⟨mid, hold, m, offset, hm, he⟩

theorem refersTo_putInode_keep {i old : Inode} {id : InodeId} (h : (s.putInode i).RefersTo len c)
    (hold : s.inodes.get? id = some old) (hmid : i.manifestId = old.manifestId) :
    s.RefersTo len c := by
  apply refersTo_putInode h
  intro mid hi
  exact .inl (activeManifests_of_stored hold (hmid ▸ hi))

theorem refersTo_deleteInode {id : InodeId} (h : (s.deleteInode id).RefersTo len c) :
    s.RefersTo len c :=
  refersTo_mono h (fun _ => activeManifests_deleteInode) (fun _ _ _ hm => hm)

/-- A manifest is added under an id that no inode uses. -/
theorem manifests_addManifest (hfence : Fence s) (m : Manifest) {mid : ManifestId}
    (hmid : mid ∈ s.activeManifests) :
    (s.addManifest m).manifests[mid]? = s.manifests[mid]? := by
  obtain ⟨n, hn⟩ := hfence.present mid hmid
  have hlt := hfence.manifestsBelow mid n hn
  rw [Tables.addManifest, Table.get_insert, if_neg (Nat.ne_of_gt hlt)]

/-- The commit of `op` refers to the extent, and shows a ticket that is outstanding. -/
def CommitsExtent (op : MetaOp) (s : Tables) (len : Nat) (c : ChunkId) : Prop :=
  ∃ expected image manifest ticket r offset, op.commit? = some (expected, image, manifest) ∧
    op.shows? = some ticket ∧ s.reservations.get? ticket = some r ∧
    .local offset len c ∈ manifest.extents.extents

theorem refersTo_edit (hraw : op.isRaw = false) (hlocal : op.importsLocal = false)
    (hfence : Fence s) (e : Edit now op faulty records start s t) (h : t.RefersTo len c) :
    s.RefersTo len c ∨ CommitsExtent op s len c := by
  have hborn : ∀ {i : Inode}, Born now op s i → (s.addInode i).RefersTo len c →
    s.RefersTo len c := by
    intro i hborn h
    apply refersTo_putInode h
    intro mid hmid
    exact .inr (Fence.clean_of_born hlocal hborn hmid)
  cases e with
  | aside | skipInode | openPresence | putXattr | eraseXattr | eraseEntry | reserve
  | dropReservations | tombstone | updateTombstone | dropTombstone => exact .inl h
  | raw hop =>
    rw [hop] at hraw
    cases hraw
  | touch hold hnew => exact .inl (refersTo_putInode_keep h hold (by rw [hnew]))
  | addEntry _ _ hnew => exact .inl (hborn hnew h)
  | addOrphan _ _ hnew => exact .inl (hborn hnew h)
  | linkEntry _ _ hsource => exact .inl (refersTo_putInode_keep h hsource rfl)
  | unlinkEntry _ hchild =>
    have hkept := refersTo_putInode_keep h hchild rfl
    exact .inl hkept
  | reapEntry | removeDir =>
    have hkept := refersTo_deleteInode h
    exact .inl hkept
  | moveEntry _ _ _ hsource =>
    have hkept := refersTo_putInode_keep h hsource rfl
    exact .inl hkept
  | closePresence =>
    left
    revert h
    apply reapAll_keep (P := fun a => a.RefersTo len c → s.RefersTo len c)
    · intro a id _ ha _ _ _ h
      exact ha (refersTo_deleteInode h)
    · exact id
  | addManifest m =>
    left
    apply refersTo_mono (s := s) h (fun _ hmid => hmid)
    intro mid hmid n hn
    rw [← manifests_addManifest hfence m hmid]
    exact hn
  | removeManifests =>
    left
    apply refersTo_mono (s := s) h (fun _ hmid => hmid)
    intro mid _ m hm
    rw [Tables.removeManifests, Table.get_eraseAll] at hm
    split at hm
    · cases hm
    · exact hm
  | @commitImage expected image current manifest hop _ _ _ _ _ hshown =>
    obtain ⟨mid, hmid, m, offset, hm, he⟩ := h
    rcases activeManifests_putInode hmid with hnew | hold
    · -- the new manifest: its chunks are those of the ticket
      cases hnew
      right
      have heq : manifest = m := by
        rw [Tables.putInode, Tables.addManifest, Table.get_insert, if_pos rfl] at hm
        exact Option.some.inj hm
      subst heq
      rcases hshown with hnone | ⟨ticket, r, hticket, hr, _⟩
      · have hc := mem_localChunks he
        rw [hnone] at hc
        cases hc
      · exact ⟨expected, image, manifest, ticket, r, offset, hop, hticket, hr, he⟩
    · left
      refine ⟨mid, hold, m, offset, ?_, he⟩
      rw [← manifests_addManifest hfence manifest hold]
      exact hm
  | beginFlush hstored => exact .inl (refersTo_putInode_keep h hstored rfl)
  | publishFlush _ _ _ _ _ hmid =>
    left
    apply refersTo_putInode h
    intro mid hi
    exact .inr (hmid mid hi)
  | failFlush _ hstored => exact .inl (refersTo_putInode_keep h hstored rfl)

/-- A reservation is as it was given out. -/
theorem reservation_edit {ticket : WriteTicketId} {r : ChunkReservation}
    (e : Edit now op faulty records start s t) (h : t.reservations.get? ticket = some r) :
    s.reservations.get? ticket = some r ∨ op.reserves? = some ticket := by
  have hdelete : ∀ {a : Tables} {id : InodeId}, (a.deleteInode id).reservations.get? ticket =
    some r →
      a.reservations.get? ticket = some r := by
    intro a id h
    rw [Tables.get_reservations_deleteInode] at h
    exact (Option.filter_eq_some_iff.mp h).1
  cases e with
  | reapEntry | removeDir => exact .inl (hdelete h)
  | closePresence =>
    left
    revert h
    apply reapAll_keep (P := fun a => a.reservations.get? ticket = some r →
      s.reservations.get? ticket = some r)
    · intro a id _ ha _ _ _ h
      exact ha (hdelete h)
    · exact id
  | @reserve row i hop =>
    rw [Keyed.get?_put] at h
    split at h
    · rename_i heq
      exact .inr (heq ▸ hop)
    · exact .inl h
  | dropReservations tickets =>
    rw [Tables.dropReservations, Keyed.get?_deleteAll] at h
    split at h
    · cases h
    · exact .inl h
  | _ => exact .inl h

/-- A manifest is as it was stored, or stored under a new id. -/
theorem manifest_edit {mid : ManifestId} {m : Manifest} (e : Edit now op faulty records start s t)
    (h : t.manifests[mid]? = some m) : s.manifests[mid]? = some m ∨ s.nextManifest ≤ mid := by
  have hadd : ∀ {n : Manifest}, (s.addManifest n).manifests[mid]? = some m →
      s.manifests[mid]? = some m ∨ s.nextManifest ≤ mid := by
    intro n h
    rw [Tables.addManifest, Table.get_insert] at h
    split at h
    · rename_i heq
      exact .inr (Nat.le_of_eq heq)
    · exact .inl h
  cases e with
  | addManifest n => exact hadd h
  | commitImage => exact hadd h
  | removeManifests =>
    rw [Tables.removeManifests, Table.get_eraseAll] at h
    split at h
    · cases h
    · exact .inl h
  | closePresence =>
    left
    revert h
    apply reapAll_keep (P := fun a => a.manifests[mid]? = some m → s.manifests[mid]? = some m)
    · intro a id _ ha _ _ _ h
      exact ha h
    · exact id
  | _ => exact .inl h

theorem nextManifest_edit (e : Edit now op faulty records start s t) : s.nextManifest ≤ t.nextManifest := by
  cases e with
  | addManifest => exact Nat.le_succ _
  | commitImage => exact Nat.le_succ _
  | closePresence =>
    apply reapAll_keep (P := fun a => s.nextManifest ≤ a.nextManifest)
    · intro a _ _ ha _ _ _
      exact ha
    · exact Nat.le_refl _
  | _ => exact Nat.le_refl _

end

/-! ## One request -/

/-- What a client's request does to the references, the reservations and the
manifests of the tables it finds. -/
structure Refines (op : MetaOp) (s t : Tables) : Prop where
  refers : ∀ len c, t.RefersTo len c → s.RefersTo len c ∨ CommitsExtent op s len c
  reservations : ∀ ticket r, t.reservations.get? ticket = some r →
    s.reservations.get? ticket = some r ∨ op.reserves? = some ticket
  manifests : ∀ mid m, t.manifests[mid]? = some m → s.manifests[mid]? = some m ∨
    s.nextManifest ≤ mid
  next : s.nextManifest ≤ t.nextManifest

theorem refines_request {r : MetaRequest} {s : Tables} (hgrounded : Grounded s) (hfence : Fence s)
    (hraw : r.req.op.isRaw = false) (hlocal : r.req.op.importsLocal = false) :
    Refines r.req.op s (applyRaftRequest r.now r.req s).2 := by
  have hkeep : Fence (applyRaftRequest r.now r.req s).2 ∧
      Refines r.req.op s (applyRaftRequest r.now r.req s).2 := by
    apply request_keep (P := fun t => Fence t ∧ Refines r.req.op s t) hgrounded
    · rintro a b ⟨hfence, h⟩ e
      refine ⟨hfence.edit hraw hlocal e, fun len c hc => ?_, fun ticket row hrow => ?_,
        fun mid m hm => ?_, Nat.le_trans h.next (nextManifest_edit e)⟩
      · rcases refersTo_edit hraw hlocal hfence e hc with hold | ⟨expected, image, manifest, ticket,
          row, offset, hcommit, hshows, hrow, he⟩
        · exact h.refers len c hold
        · right
          refine ⟨expected, image, manifest, ticket, row, offset, hcommit, hshows, ?_, he⟩
          -- a commit reserves nothing itself
          refine (h.reservations ticket row hrow).resolve_right fun hreserves => ?_
          cases hop : r.req.op with
          | reserveChunks =>
            rw [hop] at hshows
            cases hshows
          | _ =>
            rw [hop] at hreserves
            cases hreserves
      · rcases reservation_edit e hrow with hold | hnew
        · exact h.reservations ticket row hold
        · exact .inr hnew
      · rcases manifest_edit e hm with hold | hnew
        · exact h.manifests mid m hold
        · exact .inr (Nat.le_trans h.next hnew)
    · exact ⟨hfence, fun _ _ h => .inl h, fun _ _ h => .inl h, fun _ _ h => .inl h, Nat.le_refl _⟩
  exact hkeep.2

end FluxFS
