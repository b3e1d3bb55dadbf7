import FluxFS.Meta.References
import FluxFS.Meta.SnapshotInstall
import FluxFS.Meta.Updates

/-!
# Integrity — inodes, their manifests and the id counters

What the inode table, the manifest table and the two counters say about each
other in every store a client's requests can reach. A record that names a
manifest is `Backed`: the manifest is stored and has the record's id, size and
head generation. Two GC sweeps delete manifests and five operations install
them, so the invariant is joint: stored manifests lie below the counter,
which keeps a new manifest from replacing one that a record names.

The store may move to another replica at any point (`StoreAction.transfer`):
a replica's history is a chain of requests and installed snapshots.
-/

namespace FluxFS

open Std Kit

/-- The manifest has the id, the size and the head generation of the inode. -/
def Manifest.Describes (m : Manifest) (i : Inode) : Prop :=
  m.inode = i.id ∧ m.size = i.size ∧ m.gen = i.headGen

/-- The record names a stored manifest that describes it, or it names none and has no
bytes. The size of a symlink is the length of its target. -/
def Tables.Backs (s : Tables) (i : Inode) : Prop :=
  match i.manifestId with
  | some mid => ∃ m, s.manifests[mid]? = some m ∧ m.Describes i
  | none => i.fileType ≠ .symlink → i.size = 0

/-- Every record is backed, and manifest ids lie below the counter. -/
structure Intact (s : Tables) : Prop where
  below : ∀ (mid : ManifestId) (m : Manifest), s.manifests[mid]? = some m → mid < s.nextManifest
  backs : ∀ id i, s.inodes.get? id = some i → s.Backs i

/-- A request as the client builds it: no raw `PutInode`, an image and its manifest of one
size and generation, an import whose manifest has the generation of its record and which
comes without a manifest only for an empty file. -/
def MetaOp.ClientIssued : MetaOp → Prop
  | .putInode _ => False
  | .commitInodeManifest _ image manifest | .commitInodeManifestReserved _ _ image manifest =>
    manifest.size = image.size ∧ manifest.gen = image.headGen
  | .importExternal _ _ template (some manifest) _ => manifest.gen = template.headGen
  | .importExternal _ _ template none _ => template.fileType ≠ .symlink → template.size = 0
  | _ => True

instance (op : MetaOp) : Decidable op.ClientIssued := by
  unfold MetaOp.ClientIssued
  split <;> infer_instance

theorem MetaOp.ClientIssued.not_raw {op : MetaOp} (h : op.ClientIssued) : op.isRaw = false := by
  cases op with
  | putInode => exact h.elim
  | _ => rfl

/-! ## Records -/

section
variable {s t : Tables}

/-- A manifest whose id lies below the counter is the one it was. -/
theorem backs_of_manifests {i : Inode} (h : s.Backs i)
    (hkeep : ∀ mid m, i.manifestId = some mid → s.manifests[mid]? = some m →
      t.manifests[mid]? = some m) : t.Backs i := by
  unfold Tables.Backs at h ⊢
  cases hmid : i.manifestId with
  | none =>
    rw [hmid] at h
    exact h
  | some mid =>
    rw [hmid] at h
    obtain ⟨m, hm, hdescribes⟩ := h
    exact ⟨m, hkeep mid m hmid hm, hdescribes⟩

/-- What backs a record backs every record with the same data fields. -/
theorem Tables.Backs.congr {i j : Inode} (h : s.Backs i) (hid : j.id = i.id)
    (hsize : j.size = i.size) (hhead : j.headGen = i.headGen)
    (htype : j.fileType = i.fileType) (hmid : j.manifestId = i.manifestId) :
    s.Backs j := by
  unfold Tables.Backs Manifest.Describes at h ⊢
  rw [hmid, hid, hsize, hhead, htype]
  exact h

theorem Tables.Backs.of_none {i : Inode} (hmid : i.manifestId = none)
    (hempty : i.fileType ≠ .symlink → i.size = 0) : s.Backs i := by
  unfold Tables.Backs
  rw [hmid]
  exact hempty

theorem Tables.Backs.of_some {i : Inode} {mid : ManifestId} {m : Manifest}
    (hmid : i.manifestId = some mid) (hm : s.manifests[mid]? = some m) (h : m.Describes i) :
    s.Backs i := by
  unfold Tables.Backs
  rw [hmid]
  exact ⟨m, hm, h⟩

theorem Tables.Backs.stored {i : Inode} {mid : ManifestId} (h : s.Backs i)
    (hmid : i.manifestId = some mid) : ∃ m, s.manifests[mid]? = some m ∧ m.Describes i := by
  unfold Tables.Backs at h
  rw [hmid] at h
  exact h

/-! ## Updates -/

namespace Intact

theorem fresh (now : Int) : Intact (Tables.fresh now) where
  below mid m h := by simp [Tables.fresh] at h
  backs id i h := by
    obtain ⟨-, rfl⟩ := Tables.of_get_fresh h
    exact .of_none rfl fun _ => rfl

/-- Tables with the manifests of `s` and some of its inodes. -/
theorem mono (h : Intact s) (hmanifests : t.manifests = s.manifests)
    (hnext : t.nextManifest = s.nextManifest)
    (hinodes : ∀ id i, t.inodes.get? id = some i → s.inodes.get? id = some i) : Intact t where
  below mid m hm := by
    rw [hmanifests] at hm
    rw [hnext]
    exact h.below mid m hm
  backs id i hi := by
    apply backs_of_manifests (h.backs id i (hinodes id i hi))
    intro mid m _ hm
    rw [hmanifests]
    exact hm

theorem putInode (h : Intact s) {i : Inode} (hi : s.Backs i) : Intact (s.putInode i) where
  below := h.below
  backs id j hj := by
    rw [Tables.get_putInode] at hj
    split at hj
    · cases hj
      exact hi
    · exact h.backs id j hj

/-- A record stored with the data fields it had. -/
theorem putInode_keep (h : Intact s) {i old : Inode} {id : InodeId}
    (hold : s.inodes.get? id = some old) (hid : i.id = old.id) (hsize : i.size = old.size)
    (hhead : i.headGen = old.headGen) (htype : i.fileType = old.fileType)
    (hmid : i.manifestId = old.manifestId) : Intact (s.putInode i) :=
  h.putInode ((h.backs id old hold).congr hid hsize hhead htype hmid)

theorem deleteInode (h : Intact s) (id : InodeId) : Intact (s.deleteInode id) :=
  h.mono rfl rfl fun _ _ hi => (Tables.of_get_deleteInode hi).2

theorem eraseDentry (h : Intact s) (k : NameKey) : Intact (s.eraseDentry k) :=
  h.mono rfl rfl fun _ _ hi => hi

theorem putDentry (h : Intact s) (k : NameKey) (child : InodeId) : Intact (s.putDentry k child) :=
  h.mono rfl rfl fun _ _ hi => hi

/-- A new manifest takes an id that no stored manifest has. -/
theorem get_addManifest (h : Intact s) (m : Manifest) {mid : ManifestId} {old : Manifest}
    (hold : s.manifests[mid]? = some old) : (s.addManifest m).manifests[mid]? = some old := by
  have hlt := h.below mid old hold
  rw [Tables.addManifest, Table.get_insert, if_neg (Nat.ne_of_gt hlt)]
  exact hold

theorem addManifest (h : Intact s) (m : Manifest) : Intact (s.addManifest m) where
  below mid old hm := by
    rw [Tables.addManifest, Table.get_insert] at hm
    split at hm
    · rename_i heq
      rw [← heq]
      exact Nat.lt_succ_self _
    · exact Nat.lt_succ_of_lt (h.below mid old hm)
  backs id i hi := by
    apply backs_of_manifests (h.backs id i hi)
    intro mid old _ hold
    exact h.get_addManifest m hold

/-- GC removes manifests that no record names. -/
theorem removeManifests (h : Intact s) {ids : List ManifestId}
    (hids : ∀ id ∈ ids, id ∉ s.activeManifests) : Intact (s.removeManifests ids) where
  below mid m hm := by
    rw [Tables.removeManifests, Table.get_eraseAll] at hm
    split at hm
    · cases hm
    · exact h.below mid m hm
  backs id i hi := by
    apply backs_of_manifests (h.backs id i hi)
    intro mid m hmid hm
    have hactive : mid ∈ s.activeManifests := activeManifests_of_stored hi hmid
    rw [Tables.removeManifests, Table.get_eraseAll, if_neg fun hgone => hids mid hgone hactive]
    exact hm

/-- A manifest and the record that names it. -/
theorem install (h : Intact s) {i : Inode} {m : Manifest} (hmid : i.manifestId =
    some s.nextManifest) (hdescribes : m.Describes i) : Intact ((s.addManifest m).putInode i) := by
  apply (h.addManifest m).putInode
  apply Tables.Backs.of_some hmid _ hdescribes
  rw [Tables.addManifest, Table.get_insert, if_pos rfl]

end Intact

/-! ## One edit -/

variable {now : Clock} {op : MetaOp} {faulty records : Prop} {start : Keyed Inode.id}

/-- The record of a new inode is backed. -/
theorem backs_of_born (hop : op.ClientIssued) {i : Inode} (hborn : Born now op s i) :
    s.Backs i := by
  cases hborn with
  | created fileType mode uid gid target htarget =>
    apply Tables.Backs.of_none rfl
    intro htype
    cases htarget htype
    rfl
  | imported himport =>
    rw [himport] at hop
    exact .of_none rfl hop
  | importedData himport hmanifest =>
    rw [himport] at hop
    exact .of_some rfl hmanifest ⟨rfl, rfl, hop⟩

theorem Intact.addInode (h : Intact s) {i : Inode} (hi : s.Backs i) : Intact (s.addInode i) := by
  have hskip : Intact { s with nextInode := s.nextInode + 1 } := h.mono rfl rfl fun _ _ hi => hi
  exact hskip.putInode hi

/-- Every edit of a client's request, the end of a flush apart. -/
theorem Intact.edit (hop : op.ClientIssued) (hends : op.endsFlush? = none) (h : Intact s)
    (e : Edit now op faulty records start s t) : Intact t := by
  cases e with
  | aside | skipInode | openPresence | putXattr | eraseXattr | reserve | dropReservations
  | tombstone | updateTombstone | dropTombstone =>
    exact h.mono rfl rfl fun _ _ hi => hi
  | raw hraw =>
    rw [hraw] at hop
    exact hop.elim
  | touch hold hnew =>
    rw [hnew]
    exact h.putInode_keep hold rfl rfl rfl rfl rfl
  | addEntry _ _ hborn => exact (h.addInode (backs_of_born hop hborn)).putDentry ..
  | addOrphan _ _ hborn => exact h.addInode (backs_of_born hop hborn)
  | linkEntry _ _ hsource =>
    apply Intact.putDentry
    exact h.putInode_keep hsource rfl rfl rfl rfl rfl
  | unlinkEntry _ hchild => exact (h.eraseDentry _).putInode_keep hchild rfl rfl rfl rfl rfl
  | reapEntry | removeDir => exact (h.eraseDentry _).deleteInode _
  | eraseEntry => exact h.eraseDentry _
  | moveEntry _ _ _ hsource =>
    exact ((h.eraseDentry _).putDentry ..).putInode_keep hsource rfl rfl rfl rfl rfl
  | closePresence =>
    apply reapAll_keep
    · intro a id _ ha _ _ _
      exact ha.deleteInode id
    · exact h.mono rfl rfl fun _ _ hi => hi
  | addManifest m => exact h.addManifest m
  | removeManifests _ hids => exact h.removeManifests hids
  | commitImage hcommit hinode =>
    apply h.install rfl
    refine ⟨hinode, ?_⟩
    cases op with
    | commitInodeManifest | commitInodeManifestReserved =>
      cases hcommit
      exact hop
    | _ => cases hcommit
  | beginFlush hstored => exact h.putInode_keep hstored rfl rfl rfl rfl rfl
  | publishFlush hflush | failFlush hflush =>
    rw [hends] at hflush
    cases hflush

/-! ## The end of a flush -/

/-- The published manifest covers the whole file at its head generation. -/
theorem Intact.flush (h : Intact s) {op : MetaOp} {o : Except FluxError Inode × Tables}
    (ho : FlushOutcome s op o) : Intact o.2 := by
  cases ho with
  | refused => exact h
  | emptied _ _ _ _ hsize => exact h.putInode (.of_none rfl fun _ => hsize)
  | published _ _ _ hhead => exact h.install rfl ⟨rfl, rfl, hhead.symm⟩
  | begun hi | superseded hi | failed hi => exact h.putInode_keep hi rfl rfl rfl rfl rfl

/-! ## One request -/

theorem Intact.request (hgrounded : Grounded s) (h : Intact s) {r : MetaRequest}
    (hop : r.req.op.ClientIssued) : Intact (applyRaftRequest r.now r.req s).2 := by
  have hledger : ∀ {a : Tables} ledger, Intact a → Intact { a with clientRequests := ledger } :=
    fun ledger ha => ha.mono rfl rfl fun _ _ hi => hi
  cases hflush : r.req.op.flush? with
  | none =>
    have hends := MetaOp.ends_none_of_flush hflush
    exact request_keep hgrounded (fun _ _ => Intact.edit hop hends) h
  | some flush =>
    obtain ⟨before, after, o, ho, hafter⟩ :=
      request_flush (s := s) r.now (by rw [hflush]; exact Option.some_ne_none _)
    rw [hafter]
    exact hledger after ((hledger before h).flush ho)

/-! ## Ids -/

/-- The counters and what lies below them: ids only go up, an id that was handed out and
is not in use stays out of use, and a stored manifest is never changed. -/
structure Ages (s t : Tables) : Prop where
  inodes : s.nextInode ≤ t.nextInode
  manifests : s.nextManifest ≤ t.nextManifest
  inode : ∀ id i, t.inodes.get? id = some i → (∃ j, s.inodes.get? id = some j) ∨ s.nextInode ≤ id
  manifest : ∀ (mid : ManifestId) (m : Manifest), t.manifests[mid]? = some m →
    s.manifests[mid]? = some m ∨ s.nextManifest ≤ mid

namespace Ages

theorem refl (s : Tables) : Ages s s :=
  ⟨Nat.le_refl _, Nat.le_refl _, fun _ i hi => .inl ⟨i, hi⟩, fun _ _ hm => .inl hm⟩

theorem trans {u : Tables} (hst : Ages s t) (htu : Ages t u) : Ages s u where
  inodes := Nat.le_trans hst.inodes htu.inodes
  manifests := Nat.le_trans hst.manifests htu.manifests
  inode id i hi := by
    rcases htu.inode id i hi with ⟨j, hj⟩ | hlate
    · exact hst.inode id j hj
    · exact .inr (Nat.le_trans hst.inodes hlate)
  manifest mid m hm := by
    rcases htu.manifest mid m hm with hold | hlate
    · exact hst.manifest mid m hold
    · exact .inr (Nat.le_trans hst.manifests hlate)

/-- A stored record is replaced. -/
theorem inode_put {i j old : Inode} {id key : InodeId} (hold : s.inodes.get? key = some old)
    (h : (s.inodes.put i).get? id = some j) (hid : i.id = key) :
    (∃ j, s.inodes.get? id = some j) ∨ s.nextInode ≤ id :=
  .inl (Grounded.get_putInode (hid ▸ hold) h)

theorem inode_addInode {i j : Inode} {id : InodeId} (hid : i.id = s.nextInode)
    (h : (s.addInode i).inodes.get? id = some j) :
    (∃ j, s.inodes.get? id = some j) ∨ s.nextInode ≤ id := by
  rw [Tables.addInode, Tables.get_putInode] at h
  split at h
  · rename_i heq
    exact .inr (Nat.le_of_eq (hid.symm.trans heq))
  · exact .inl ⟨j, h⟩

end Ages

theorem inode_edit (hraw : op.isRaw = false) {id : InodeId} {i : Inode}
    (e : Edit now op faulty records start s t) (h : t.inodes.get? id = some i) :
    (∃ j, s.inodes.get? id = some j) ∨ s.nextInode ≤ id := by
  cases e with
  | raw hop =>
    rw [hop] at hraw
    cases hraw
  | touch hold hnew =>
    rw [hnew] at h
    exact Ages.inode_put hold h rfl
  | addEntry _ _ hborn => exact Ages.inode_addInode hborn.id_eq h
  | addOrphan _ _ hborn => exact Ages.inode_addInode hborn.id_eq h
  | linkEntry _ _ hsource => exact Ages.inode_put hsource h rfl
  | unlinkEntry _ hchild => exact Ages.inode_put hchild h rfl
  | moveEntry _ _ _ hsource => exact Ages.inode_put hsource h rfl
  | commitImage _ _ hcurrent => exact Ages.inode_put hcurrent h rfl
  | beginFlush hstored => exact Ages.inode_put hstored h rfl
  | publishFlush _ hstored => exact Ages.inode_put hstored h rfl
  | failFlush _ hstored => exact Ages.inode_put hstored h rfl
  | reapEntry | removeDir => exact .inl ⟨i, (Tables.of_get_deleteInode h).2⟩
  | closePresence =>
    have hkept := of_get_reapAll h
    exact .inl ⟨i, hkept⟩
  | _ => exact .inl ⟨i, h⟩

theorem Ages.edit (hraw : op.isRaw = false) (e : Edit now op faulty records start s t) : Ages s t :=
  ⟨nextInode_edit e, nextManifest_edit e, fun _ _ => inode_edit hraw e, fun _ _ => manifest_edit e⟩

theorem Ages.request (hgrounded : Grounded s) {r : MetaRequest} (hraw : r.req.op.isRaw = false) :
    Ages s (applyRaftRequest r.now r.req s).2 :=
  request_keep (P := Ages s) hgrounded (fun _ _ ha e => ha.trans (.edit hraw e)) (.refl s)

end

/-! ## Requests and transfers -/

/-- A step in the history of a replica's tables. -/
inductive StoreAction where
  | apply (r : MetaRequest)
  /-- Export the store with these raft markers and install the file on another replica,
  whose store goes on from there. -/
  | transfer (now : Nat) (rows : SmRows) (sm : SmAppliedMeta) (target : DiskStore)

/-- A request of a client, or a transfer whose records the codec reads back. -/
def StoreAction.Allowed (codec : SnapshotCodec) (s : Tables) : StoreAction → Prop
  | .apply r => r.req.op.ClientIssued
  | .transfer _ rows sm _ =>
    ∀ r ∈ snapshotRecords sm (DiskStore.ofStore ⟨s, rows⟩) ++ [SnapshotRecord.finish],
      codec.decode (codec.encode r) = .ok r

section
variable {codec : SnapshotCodec} {s t : Tables}

end

instance (codec : SnapshotCodec) (s : Tables) (a : StoreAction) : Decidable (a.Allowed codec s) :=
  match a with
  | .apply r => inferInstanceAs (Decidable r.req.op.ClientIssued)
  | .transfer _ rows sm _ => inferInstanceAs (Decidable (∀ r ∈
      snapshotRecords sm (DiskStore.ofStore ⟨s, rows⟩) ++ [SnapshotRecord.finish],
        codec.decode (codec.encode r) = .ok r))

end FluxFS
