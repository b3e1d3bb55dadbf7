import FluxFS.Meta.Apply

/-!
# Edits — what a request can do to the tables

Every operation of the state machine is a sequence of the changes listed
here, each with the facts the operation has checked when it makes it.
`applyRaftRequest_edits` says so once, by stepping through each operation;
every invariant of the tables is then proved against `Edit` and never against
an operation's code.

A request that fails keeps its first writes, so the list also has the
half-done changes: an inode without its entry (`addOrphan`) and an entry
dropped without its link (`eraseEntry`), which only happens to a store that
was `faulty` when the request arrived. `start` holds the inodes of that
moment.
-/

namespace FluxFS

open Std Kit

namespace Tables

/-- `id` is a stored directory. -/
def IsDir (s : Tables) (id : InodeId) : Prop :=
  ∃ i, s.inodes.get? id = some i ∧ i.fileType = .directory

/-- `child` is a directory with an entry in `dir`. -/
def DirChild (s : Tables) (dir child : InodeId) : Prop :=
  (∃ name, s.dentries[NameKey.mk dir name]? = some child) ∧ s.IsDir child

/-- No directory has an entry for itself. -/
def NoSelfEntry (s : Tables) : Prop :=
  ∀ (k : NameKey) (child : InodeId), s.dentries[k]? = some child → child ≠ k.owner

/-- Some entry's file cannot lose a link: its count is zero or its generation is
at the last value. -/
def LinkFault (s : Tables) : Prop :=
  ∃ (k : NameKey) (child : Inode), s.dentries[k]? = some child.id ∧
    s.inodes.get? child.id = some child ∧ child.fileType ≠ .directory ∧
    (child.linkCount = 0 ∨ u64Max ≤ child.generation)

/-- `c` is in no manifest of a stored inode and in no reservation. -/
def Unused (s : Tables) (c : ChunkId) : Prop :=
  (∀ id i mid m, s.inodes.get? id = some i → i.manifestId = some mid →
    s.manifests[mid]? = some m → c ∉ m.localChunks) ∧
  ∀ ticket r, s.reservations.get? ticket = some r → c ∉ r.chunks

end Tables

/-- The entry names a request carries. -/
def MetaOp.names : MetaOp → List String
  | .create _ name .. | .symlink _ name .. | .importExternal _ name .. => [name]
  | .link _ _ newName _ => [newName]
  | .unlink _ name _ | .rmdir _ name _ => [name]
  | .rename _ oldName _ _ newName .. => [oldName, newName]
  | _ => []

/-- A new name within the bound that `Link` and `Rename` enforce. -/
def MetaOp.shortNewName : MetaOp → Bool
  | .create _ name .. | .symlink _ name .. | .importExternal _ name .. => name.utf8ByteSize ≤ 255
  | _ => true

/-- A request that moves an entry. -/
def MetaOp.isRename : MetaOp → Bool
  | .rename .. => true
  | _ => false

/-- The requests that write xattr rows. -/
def MetaOp.putsXattrs : MetaOp → Bool
  | .create .. | .symlink .. | .setXattr .. => true
  | _ => false

/-- The cutoff and the batch of a request that prunes the ledger. -/
def MetaOp.prunes? : MetaOp → Option (Nat × Nat)
  | .expireChunkReservations cutoff maxToExpire => some (cutoff, maxToExpire)
  | .pruneClientRequests cutoff maxToPrune => some (cutoff, maxToPrune)
  | _ => none

/-- The generation, image and manifest of a request that commits an image. -/
def MetaOp.commit? : MetaOp → Option (Generation × Inode × Manifest)
  | .commitInodeManifest expected inode manifest => some (expected, inode, manifest)
  | .commitInodeManifestReserved _ expected inode manifest => some (expected, inode, manifest)
  | _ => none

/-- The inode, generation and flush id of a request that ends a flush. -/
def MetaOp.endsFlush? : MetaOp → Option (InodeId × Generation × FlushId)
  | .commitFlush expected inode flushId _ => some (inode, expected, flushId)
  | .failFlushConflict expected inode flushId _ => some (inode, expected, flushId)
  | _ => none

/-- The ticket a request reserves chunks under. -/
def MetaOp.reserves? : MetaOp → Option WriteTicketId
  | .reserveChunks ticket .. => some ticket
  | _ => none

/-- The ticket a commit shows. -/
def MetaOp.shows? : MetaOp → Option WriteTicketId
  | .commitInodeManifestReserved ticket .. => some ticket
  | _ => none

/-- A request that collects unreferenced manifests, and chunks if it is a batch. -/
def MetaOp.collects : MetaOp → Bool
  | .tombstoneGcBatch _ | .beginGc _ => true
  | _ => false

/-- The tombstones a request may drop. -/
def MetaOp.finalizes : MetaOp → ChunkId → Bool
  | .finalizeGcTombstones chunks, c => c ∈ chunks
  | _, _ => false

/-- The stop-the-world lease a request sets or clears. -/
def MetaOp.setsLease : MetaOp → Option GcLeaseId → Bool
  | .beginGc leaseId, lease => lease = some leaseId
  | .finishGc _, lease => lease = none
  | _, _ => false

/-- The presence rows a request takes back. -/
def MetaOp.closes : MetaOp → NameKey → Bool
  | .closeInode sessionId inode, k => k = ⟨inode, sessionId⟩
  | .recoverSession sessionId, k => k.name = sessionId
  | _, _ => false

/-- `new` is `old` one generation on, with other mode, owner or times. -/
def Touched (old new : Inode) : Prop :=
  new =
    { old with
      mode := new.mode
      uid := new.uid
      gid := new.gid
      mtimeMs := new.mtimeMs
      ctimeMs := new.ctimeMs
      atimeMs := new.atimeMs
      generation := saturatingAdd old.generation 1 }

/-- The record of an inode that a request adds. -/
inductive Born (now : Clock) (op : MetaOp) (s : Tables) : Inode → Prop
  | created (fileType : FileType) (mode uid gid : Nat) (target : Option String)
      (htarget : fileType ≠ .symlink → target = none) :
      Born now op s (newInode s.nextInode fileType mode uid gid target now.inode)
  | imported {parent : InodeId} {name : String} {template : Inode} {expected : Option Generation}
      (hop : op = .importExternal parent name template none expected) :
      Born now op s { importedInode template s.nextInode with manifestId := none }
  | importedData {parent : InodeId} {name : String} {template : Inode} {manifest : Manifest}
      {expected : Option Generation} {mid : ManifestId}
      (hop : op = .importExternal parent name template (some manifest) expected)
      (hmanifest : s.manifests[mid]? = some { manifest with inode := s.nextInode }) :
      Born now op s
        { importedInode template s.nextInode with manifestId := some mid, size := manifest.size }

/-- The tables with a new inode and no entry for it yet. -/
def Tables.addInode (s : Tables) (i : Inode) : Tables :=
  { s with nextInode := s.nextInode + 1 }.putInode i

/-- One change to the tables. The ledger is written freely only where the request is
recorded in it (`records`); the operation itself may prune it. -/
inductive Edit (now : Clock) (op : MetaOp) (faulty records : Prop) (start : Keyed Inode.id) :
    Tables → Tables → Prop
  /-- The ledger, the lease and the workers. -/
  | aside (s : Tables) (ledger : Table RequestOpId ClientRequestLedgerEntry)
      (lease : Option GcLeaseId) (workers : WorkerMembership)
      (hlease : lease = s.gcLease ∨ op.setsLease lease = true)
      (hledger : ledger = s.clientRequests ∨ records ∨ ∃ cutoff maxToPrune,
        op.prunes? = some (cutoff, maxToPrune) ∧
          ledger = (pruneClientRequests s cutoff maxToPrune).clientRequests) :
      Edit now op faulty records start s
        { s with clientRequests := ledger, gcLease := lease, workerMembership := workers }
  | skipInode (s : Tables) : Edit now op faulty records start s { s with nextInode := s.nextInode + 1 }
  | raw (s : Tables) {i : Inode} (hop : op = .putInode i) : Edit now op faulty records start s
    (s.putInode i)
  /-- A directory on a change below it, a setattr, a stamped xattr change. -/
  | touch {s : Tables} {old new : Inode} (hold : s.inodes.get? old.id = some old)
      (hnew : Touched old new) : Edit now op faulty records start s (s.putInode new)
  -- entries
  | addEntry {s : Tables} {k : NameKey} {i : Inode} (hvacant : s.dentries[k]? = none)
      (hparent : s.IsDir k.owner) (hborn : Born now op s i)
      (hname : op.shortNewName = true → Dentry.validate k.name = .ok ()) :
      Edit now op faulty records start s ((s.addInode i).putDentry k i.id)
  | addOrphan {s : Tables} {i : Inode} {name : String} (hname : name ∈ op.names)
      (hlong : name.utf8ByteSize > 255) (hborn : Born now op s i) :
      Edit now op faulty records start s (s.addInode i)
  | linkEntry {s : Tables} {k : NameKey} {source : Inode} (hvacant : s.dentries[k]? = none)
      (hparent : s.IsDir k.owner) (hsource : s.inodes.get? source.id = some source)
      (hfile : source.fileType ≠ .directory) (hlinked : source.linkCount ≠ 0)
      (hname : Dentry.validate k.name = .ok ()) :
      Edit now op faulty records start s
        ((s.putInode
          { source with
            linkCount := source.linkCount + 1
            generation := saturatingAdd source.generation 1
            ctimeMs := now.inode }).putDentry k source.id)
  | unlinkEntry {s : Tables} {k : NameKey} {child : Inode}
      (hentry : s.dentries[k]? = some child.id) (hchild : s.inodes.get? child.id = some child)
      (hfile : child.fileType ≠ .directory) (hlinked : child.linkCount ≠ 0)
      (hgen : child.generation < u64Max)
      (hkeep : (dropLink now.unlinked child).linkCount ≠ 0 ∨ s.hasOpenPresence child.id = true) :
      Edit now op faulty records start s ((s.eraseDentry k).putInode (dropLink now.unlinked child))
  | reapEntry {s : Tables} {k : NameKey} {child : Inode}
      (hentry : s.dentries[k]? = some child.id) (hchild : s.inodes.get? child.id = some child)
      (hfile : child.fileType ≠ .directory) (hlast : child.linkCount = 1)
      (hclosed : s.hasOpenPresence child.id = false) :
      Edit now op faulty records start s ((s.eraseDentry k).deleteInode child.id)
  | eraseEntry {s : Tables} {k : NameKey} (hfaulty : faulty) :
      Edit now op faulty records start s (s.eraseDentry k)
  | removeDir {s : Tables} {k : NameKey} {child : Inode}
      (hentry : s.dentries[k]? = some child.id) (hchild : s.inodes.get? child.id = some child)
      (hdir : child.fileType = .directory) (hempty : s.directoryHasChildren child.id = false) :
      Edit now op faulty records start s ((s.eraseDentry k).deleteInode child.id)
  | moveEntry {s : Tables} {oldKey newKey : NameKey} {source : Inode} (hne : oldKey ≠ newKey)
      (hentry : s.dentries[oldKey]? = some source.id) (hvacant : s.dentries[newKey]? = none)
      (hsource : s.inodes.get? source.id = some source) (hparent : s.IsDir newKey.owner)
      (hself : source.id ≠ newKey.owner)
      (hbelow : source.fileType = .directory →
        ¬ Relation.ReflTransGen s.DirChild source.id newKey.owner)
      (hname : Dentry.validate newKey.name = .ok ()) :
      Edit now op faulty records start s
        (((s.eraseDentry oldKey).putDentry newKey source.id).putInode
          { source with generation := saturatingAdd source.generation 1, ctimeMs := now.inode })
  -- open presence
  | openPresence {s : Tables} {k : NameKey} {i : Inode} (hstored : s.inodes.get? k.owner = some i)
      (hregular : i.fileType = .regular) :
      Edit now op faulty records start s { s with openPresence := s.openPresence.insert k () }
  | closePresence {s : Tables} {keys : List NameKey} {ids : List InodeId}
      (hids : ∀ k ∈ keys, k.owner ∈ ids) (hop : ∀ k ∈ keys, op.closes k = true) :
      Edit now op faulty records start s (ids.foldl reapUnlinkedInodeIfUnopened
        { s with openPresence := Table.eraseAll s.openPresence keys })
  -- extended attributes
  | putXattr {s : Tables} {k : NameKey} {value : Bytes} {i : Inode}
      (hstored : s.inodes.get? k.owner = some i) (hop : op.putsXattrs = true) :
      Edit now op faulty records start s { s with xattrs := s.xattrs.insert k value }
  | eraseXattr (s : Tables) (k : NameKey) :
      Edit now op faulty records start s { s with xattrs := s.xattrs.erase k }
  -- manifests and images
  | addManifest (s : Tables) (m : Manifest) : Edit now op faulty records start s (s.addManifest m)
  | removeManifests {s : Tables} {ids : List ManifestId} (hop : op.collects = true)
      (hids : ∀ id ∈ ids, id ∉ s.activeManifests) :
      Edit now op faulty records start s (s.removeManifests ids)
  | commitImage {s : Tables} {expected : Generation} {image current : Inode} {manifest : Manifest}
      (hop : op.commit? = some (expected, image, manifest)) (hinode : manifest.inode = image.id)
      (hcurrent : s.inodes.get? image.id = some current) (hgen : current.generation = expected)
      (hstart : start.get? image.id = some current)
      (hidle : current.flushIntent = none)
      (hfence : manifest.localChunks = [] ∨ ∃ ticket r, op.shows? = some ticket ∧
        s.reservations.get? ticket = some r ∧ r.inode = image.id ∧
        r.expectedGeneration = expected ∧ ∀ c ∈ manifest.localChunks, c ∈ r.chunks) :
      Edit now op faulty records start s
        ((s.addManifest manifest).putInode { image with manifestId := some s.nextManifest })
  -- flush
  | beginFlush {s : Tables} {inode : Inode} {fields : LocalityFields} {intent : FlushIntent}
      {expected : Generation} (hstored : s.inodes.get? inode.id = some inode)
      (hfields : inode.localityFields = some fields) (hbacked : fields.backingMode = .ufsBacked)
      (hdirty : fields.dataState = .dirty) (hhead : inode.headGen = intent.snapshotGen)
      (hidle : inode.flushIntent = none) (hop : fields.opState = .none)
      (hbegin : op = .beginFlush expected inode.id intent) :
      Edit now op faulty records start s (s.putInode (FluxFS.beginFlush inode fields intent))
  | publishFlush {s : Tables} {inode : Inode} {fields : LocalityFields} {intent : FlushIntent}
      {ufs : UfsObject} {mid : Option ManifestId} {expected : Generation}
      (hop : op.endsFlush? = some (inode.id, expected, intent.flushId))
      (hstored : s.inodes.get? inode.id = some inode)
      (hfields : inode.localityFields = some fields) (hintent : inode.flushIntent = some intent)
      (hhead : inode.headGen = intent.snapshotGen)
      (hmid : ∀ id, mid = some id → ∃ m, s.manifests[id]? = some m ∧ m.localChunks = []) :
      Edit now op faulty records start s (s.putInode (installPublished inode fields intent ufs mid))
  | failFlush {s : Tables} {inode : Inode} {fields : LocalityFields} {intent : FlushIntent}
      {error : String} {expected : Generation}
      (hop : op.endsFlush? = some (inode.id, expected, intent.flushId))
      (hstored : s.inodes.get? inode.id = some inode)
      (hfields : inode.localityFields = some fields) (hintent : inode.flushIntent = some intent) :
      Edit now op faulty records start s (s.putInode (flushConflict inode fields error))
  -- reservations and tombstones
  | reserve {s : Tables} {r : ChunkReservation} {i : Inode} (hop : op.reserves? = some r.ticket)
      (hfree : s.reservations.get? r.ticket = none) (hstored : s.inodes.get? r.inode = some i)
      (hfenced : ∀ c ∈ r.chunks, s.tombstones.get? c = none) :
      Edit now op faulty records start s { s with reservations := s.reservations.put r }
  | dropReservations (s : Tables) (tickets : List WriteTicketId) :
      Edit now op faulty records start s (s.dropReservations tickets)
  | tombstone {s : Tables} {c : ChunkId} (hop : op.collects = true) (hunused : s.Unused c) :
      Edit now op faulty records start s (s.putTombstone (.fresh c))
  | updateTombstone {s : Tables} {old new : GcTombstone}
      (hold : s.tombstones.get? new.chunk = some old) : Edit now op faulty records start s
        (s.putTombstone new)
  | dropTombstone {s : Tables} {old : GcTombstone} {c : ChunkId}
      (hop : op.finalizes c = true) (hold : s.tombstones.get? c = some old)
      (hdone : old.pendingTargets = []) :
      Edit now op faulty records start s { s with tombstones := s.tombstones.delete c }

/-- Any number of edits by one request that started at `s₀`. -/
abbrev Edits (now : Clock) (op : MetaOp) (records : Prop) (s₀ : Tables) : Tables → Prop :=
  Relation.ReflTransGen (Edit now op s₀.LinkFault records s₀.inodes) s₀

end FluxFS
