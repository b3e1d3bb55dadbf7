import FluxFS.Lib.Txn
import FluxFS.Types

/-!
# Tables — the metadata store's databases

`HeedMetaStore` keeps six LMDB databases and a few keys of the `meta`
database. `Tables` is their content inside one write transaction. The keys
are read as the pair they encode (`{parent:016x}\0{name}` is injective for
64-bit ids), rows that carry their own key are `Keyed`.

`MetaTxn` operations keep what they wrote when they stop with an error: the
raft apply path commits the transaction of a failed request.
-/

namespace FluxFS

open Std Kit

/-- What one applied request answers. -/
inductive MetaRaftResponse where
  | empty
  | inode (inode : Inode)
  | manifestId (id : ManifestId)
  | gcPlan (plan : GcPlan)
  | gcBatch (batch : GcBatch)
  | workerMembership (membership : WorkerMembership)
  | err (error : FluxError)
deriving DecidableEq, Repr

/-- A retained response. -/
structure ClientRequestLedgerEntry where
  createdAtUnixMs : Nat
  expiresAtUnixMs : Nat
  response : MetaRaftResponse
deriving DecidableEq, Repr

/-- The decoded tables of `HeedMetaStore`. -/
structure Tables where
  inodes : Keyed Inode.id
  dentries : Table NameKey InodeId
  manifests : Table ManifestId Manifest
  xattrs : Table NameKey Bytes
  /-- One row per inode and mount session that keeps it open. -/
  openPresence : Table NameKey Unit
  reservations : Keyed ChunkReservation.ticket
  tombstones : Keyed GcTombstone.chunk
  clientRequests : Table RequestOpId ClientRequestLedgerEntry
  nextInode : InodeId
  nextManifest : ManifestId
  gcLease : Option GcLeaseId
  workerMembership : WorkerMembership

/-- A write transaction. -/
abbrev MetaTxn := Txn Tables FluxError

/-- The locality of an inode that FluxFS itself created. -/
def createdLocality : LocalityFields := ⟨.ephemeral, .ephemeral, .none, .fluxCreated⟩

/-- The inode record `create_node_in_txn` and `open` write. -/
def newInode (id : InodeId) (fileType : FileType) (mode uid gid : Nat)
    (symlinkTarget : Option String) (now : Int) : Inode where
  id := id
  fileType := fileType
  mode := mode
  uid := uid
  gid := gid
  size := symlinkTarget.elim 0 String.utf8ByteSize
  mtimeMs := now
  ctimeMs := now
  atimeMs := now
  linkCount := if fileType = .directory then 2 else 1
  symlinkTarget := symlinkTarget
  generation := 1
  headGen := 1
  ufsGen := 0
  ufsBaseVersion := none
  locality := .ephemeral
  localityFields := some createdLocality
  ufs := none
  extentRoot := none
  manifestId := none
  flushIntent := none
  lastError := none

namespace Tables

/-- `HeedMetaStore::open` on an empty directory. -/
def fresh (now : Int) : Tables where
  inodes := Keyed.empty.put (newInode rootInode .directory 0o755 0 0 none now)
  dentries := ∅
  manifests := ∅
  xattrs := ∅
  openPresence := ∅
  reservations := Keyed.empty
  tombstones := Keyed.empty
  clientRequests := ∅
  nextInode := rootInode + 1
  nextManifest := 1
  gcLease := none
  workerMembership := .default

/-! ## Row updates -/

/-- Store an inode under its id. -/
def putInode (s : Tables) (i : Inode) : Tables := { s with inodes := s.inodes.put i }

/-- Store an entry. -/
def putDentry (s : Tables) (k : NameKey) (child : InodeId) : Tables :=
  { s with dentries := s.dentries.insert k child }

/-- Drop an entry. -/
def eraseDentry (s : Tables) (k : NameKey) : Tables := { s with dentries := s.dentries.erase k }

/-- `alloc_manifest_id` and the manifest put. -/
def addManifest (s : Tables) (m : Manifest) : Tables :=
  { s with
    manifests := s.manifests.insert s.nextManifest m
    nextManifest := s.nextManifest + 1 }

/-- Drop reservations. -/
def dropReservations (s : Tables) (tickets : List WriteTicketId) : Tables :=
  { s with reservations := s.reservations.deleteAll tickets }

/-- The keys of the rows an inode owns: a `prefix_iter` over `{id:016x}`. -/
def ownedKeys {V : Type} (t : Table NameKey V) (id : InodeId) : List NameKey :=
  (t.toList.map Prod.fst).filter (·.owner = id)

/-- `list_reservations_in_txn` filtered to one inode. -/
def reservationsOf (s : Tables) (id : InodeId) : List WriteTicketId :=
  (s.reservations.rows.filter (·.inode = id)).map (·.ticket)

/-- `delete_inode_in_txn`: the inode's reservations, xattrs and presence rows go
with it. -/
def deleteInode (s : Tables) (id : InodeId) : Tables :=
  { s with
    reservations := s.reservations.deleteAll (s.reservationsOf id)
    xattrs := Table.eraseAll s.xattrs (ownedKeys s.xattrs id)
    openPresence := Table.eraseAll s.openPresence (ownedKeys s.openPresence id)
    inodes := s.inodes.delete id }

/-- `has_open_presence_in_txn`. -/
def hasOpenPresence (s : Tables) (id : InodeId) : Bool := !(ownedKeys s.openPresence id).isEmpty

/-- `directory_has_children_in_txn`. -/
def directoryHasChildren (s : Tables) (dir : InodeId) : Bool :=
  !(ownedKeys s.dentries dir).isEmpty

/-- The children of a directory, in name order. -/
def childrenOf (s : Tables) (dir : InodeId) : List InodeId :=
  (s.dentries.toList.filter (·.1.owner = dir)).map Prod.snd

/-! ## Reading the rows back -/

/-- A fresh store holds the root directory only. -/
theorem of_get_fresh {now : Int} {id : InodeId} {i : Inode}
    (h : (fresh now).inodes.get? id = some i) :
    id = rootInode ∧ i = newInode rootInode .directory 0o755 0 0 none now := by
  rw [fresh, Keyed.get?_put, Keyed.get?_empty] at h
  split at h
  · rename_i hroot
    cases h
    exact ⟨hroot.symm, rfl⟩
  · cases h

theorem get_putInode (s : Tables) (i : Inode) (id : InodeId) :
    (s.putInode i).inodes.get? id = if i.id = id then some i else s.inodes.get? id :=
  Keyed.get?_put ..

theorem putInode_putInode (s : Tables) {i j : Inode} (h : i.id = j.id) :
    (s.putInode i).putInode j = s.putInode j := by
  unfold putInode
  rw [Keyed.put_put h]

theorem putInode_of_get {s : Tables} {i : Inode} (h : s.inodes.get? i.id = some i) :
    s.putInode i = s := by
  unfold putInode
  rw [Keyed.put_of_get? h]

theorem get_deleteInode (s : Tables) (gone id : InodeId) :
    (s.deleteInode gone).inodes.get? id = if gone = id then none else s.inodes.get? id :=
  Keyed.get?_delete ..

theorem of_get_deleteInode {s : Tables} {gone id : InodeId} {i : Inode}
    (h : (s.deleteInode gone).inodes.get? id = some i) : gone ≠ id ∧ s.inodes.get? id = some i := by
  rw [get_deleteInode] at h
  split at h
  · cases h
  · exact ⟨by assumption, h⟩

theorem get_putDentry (s : Tables) (k a : NameKey) (child : InodeId) :
    (s.putDentry k child).dentries[a]? = if k = a then some child else s.dentries[a]? :=
  Table.get_insert ..

theorem get_eraseDentry (s : Tables) (k a : NameKey) :
    (s.eraseDentry k).dentries[a]? = if k = a then none else s.dentries[a]? :=
  Table.get_erase ..

theorem mem_ownedKeys {V : Type} {t : Table NameKey V} {id : InodeId} {k : NameKey} :
    k ∈ ownedKeys t id ↔ k.owner = id ∧ ∃ v, t[k]? = some v := by
  rw [ownedKeys, List.mem_filter, Table.mem_rowKeys, decide_eq_true_eq, and_comm]

theorem get_eraseOwned {V : Type} (t : Table NameKey V) (id : InodeId) (k : NameKey) :
    (Table.eraseAll t (ownedKeys t id))[k]? = if k.owner = id then none else t[k]? := by
  rw [Table.get_eraseAll]
  by_cases hk : k.owner = id
  · rw [if_pos hk, ite_eq_left_iff]
    intro hnot
    by_contra hsome
    exact hnot (mem_ownedKeys.mpr ⟨hk, Option.ne_none_iff_exists'.mp hsome⟩)
  · rw [if_neg hk, if_neg (fun hmem => hk (mem_ownedKeys.mp hmem).1)]

theorem hasOpenPresence_iff {s : Tables} {id : InodeId} :
    s.hasOpenPresence id = true ↔ ∃ session, s.openPresence[NameKey.mk id session]? = some () := by
  simp only [hasOpenPresence, Bool.not_eq_true', List.isEmpty_eq_false_iff_exists_mem,
    mem_ownedKeys]
  constructor
  · rintro ⟨⟨owner, session⟩, rfl, _, h⟩
    exact ⟨session, h⟩
  · rintro ⟨session, h⟩
    exact ⟨⟨id, session⟩, rfl, (), h⟩

theorem directoryHasChildren_iff {s : Tables} {dir : InodeId} :
    s.directoryHasChildren dir = true ↔
      ∃ name child, s.dentries[NameKey.mk dir name]? = some child := by
  simp only [directoryHasChildren, Bool.not_eq_true', List.isEmpty_eq_false_iff_exists_mem,
    mem_ownedKeys]
  constructor
  · rintro ⟨⟨owner, name⟩, rfl, child, h⟩
    exact ⟨name, child, h⟩
  · rintro ⟨name, child, h⟩
    exact ⟨⟨dir, name⟩, rfl, child, h⟩

theorem mem_childrenOf {s : Tables} {dir child : InodeId} :
    child ∈ s.childrenOf dir ↔ ∃ name, s.dentries[NameKey.mk dir name]? = some child := by
  simp only [childrenOf, List.mem_map, List.mem_filter, Prod.exists, decide_eq_true_eq,
    Table.mem_rows]
  constructor
  · rintro ⟨⟨owner, name⟩, c, ⟨h, rfl⟩, rfl⟩
    exact ⟨name, h⟩
  · rintro ⟨name, h⟩
    exact ⟨⟨dir, name⟩, child, ⟨h, rfl⟩, rfl⟩

theorem mem_reservationsOf {s : Tables} {id : InodeId} {ticket : WriteTicketId} :
    ticket ∈ s.reservationsOf id ↔ ∃ r, s.reservations.get? ticket = some r ∧ r.inode = id := by
  simp only [reservationsOf, List.mem_map, List.mem_filter, Keyed.mem_rows, decide_eq_true_eq]
  constructor
  · rintro ⟨r, ⟨h, hi⟩, rfl⟩
    exact ⟨r, h, hi⟩
  · rintro ⟨r, h, hi⟩
    have hticket := Keyed.key_of_get? h
    exact ⟨r, ⟨hticket ▸ h, hi⟩, hticket⟩

/-- The reservations that survive an inode's deletion are those of other inodes. -/
theorem get_reservations_deleteInode (s : Tables) (id : InodeId) (ticket : WriteTicketId) :
    (s.deleteInode id).reservations.get? ticket =
      (s.reservations.get? ticket).filter (·.inode ≠ id) := by
  simp only [deleteInode, Keyed.get?_deleteAll, mem_reservationsOf]
  cases h : s.reservations.get? ticket with
  | none => simp
  | some r =>
    by_cases hi : r.inode = id
    · simp [hi, Option.filter]
    · simp [hi, Option.filter]

end Tables
end FluxFS
