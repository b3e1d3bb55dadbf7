import FluxFS.Client.FileBytes
import FluxFS.Client.Reader
import FluxFS.Meta.Flush
import FluxFS.Meta.Integrity

/-!
# Contents — the bytes of stored files under requests

A record describes a file through three fields: its size, its pinned object
and the manifest it names. Most requests leave all three alone. The exceptions
are a commit of an image, which installs the manifest it carries, and the end
of a flush, which replaces the manifest by one range of the published object.
-/

namespace FluxFS

open Std Kit

/-- The bytes of the file a record describes. -/
def Tables.content (contents : Contents) (s : Tables) (i : Inode) : Bytes :=
  fileRange contents i.ufs (versionExtents s i) 0 i.size

/-- `MetaStore::get_manifest`. -/
def Tables.getManifest (s : Tables) (mid : ManifestId) : Except FluxError Manifest :=
  match s.manifests[mid]? with
  | some m => .ok m
  | none => .error .notFound

/-- The manifests that records name are sound. -/
def Tables.SoundFiles (s : Tables) : Prop :=
  ∀ id i mid m, s.inodes.get? id = some i → i.manifestId = some mid →
    s.manifests[mid]? = some m → m.Sound

/-- The manifest that the request carries. -/
def MetaOp.carried? : MetaOp → Option Manifest
  | .commitInodeManifest _ _ manifest | .commitInodeManifestReserved _ _ _ manifest => some manifest
  | .importExternal _ _ _ manifest _ => manifest
  | _ => none

/-- A manifest that a client sends is sound. -/
def MetaOp.CarriesSound (op : MetaOp) : Prop := ∀ m ∈ op.carried?, m.Sound

theorem MetaOp.carriesSound_of_none {op : MetaOp} (h : op.carried? = none) : op.CarriesSound := by
  intro m hm
  rw [h] at hm
  cases hm

/-- A flush that ends well has published the bytes of the file that waits for it. -/
def MetaOp.PublishesContent (contents : Contents) (s : Tables) : MetaOp → Prop
  | .commitFlush _ inode flushId published => ∀ i ∈ s.inodes.get? inode, ∀ intent ∈ i.flushIntent,
      intent.flushId = flushId → ∀ pos < i.size, contents.object published.key published pos =
        fileByte contents i.ufs (versionExtents s i) pos
  | _ => True

/-! ## Records of the same data -/

/-- The fields that describe the bytes are the same. -/
structure SameData (i j : Inode) : Prop where
  size : j.size = i.size
  ufs : j.ufs = i.ufs
  manifest : j.manifestId = i.manifestId

theorem SameData.refl (i : Inode) : SameData i i := ⟨rfl, rfl, rfl⟩

theorem SameData.trans {i j k : Inode} (hij : SameData i j) (hjk : SameData j k) : SameData i k :=
  ⟨hjk.size.trans hij.size, hjk.ufs.trans hij.ufs, hjk.manifest.trans hij.manifest⟩

/-- The fields that a flush goes by are the same. -/
structure SameFlush (i j : Inode) : Prop where
  head : j.headGen = i.headGen
  intent : j.flushIntent = i.flushIntent
  fields : j.localityFields = i.localityFields

theorem SameFlush.refl (i : Inode) : SameFlush i i := ⟨rfl, rfl, rfl⟩

theorem SameFlush.trans {i j k : Inode} (hij : SameFlush i j) (hjk : SameFlush j k) :
    SameFlush i k :=
  ⟨hjk.head.trans hij.head, hjk.intent.trans hij.intent, hjk.fields.trans hij.fields⟩

/-- `op` leaves the data of the record alone, and its flush if it is no flush request. -/
structure Unedited (op : MetaOp) (i j : Inode) : Prop where
  data : SameData i j
  flush : op.flush? = none → SameFlush i j

theorem Unedited.refl (op : MetaOp) (i : Inode) : Unedited op i i := ⟨.refl i, fun _ => .refl i⟩

theorem Unedited.trans {op : MetaOp} {i j k : Inode} (hij : Unedited op i j)
    (hjk : Unedited op j k) : Unedited op i k :=
  ⟨hij.data.trans hjk.data, fun h => (hij.flush h).trans (hjk.flush h)⟩

section
variable {contents : Contents} {s t : Tables} {id : InodeId} {i j : Inode}

theorem versionExtents_of_some {mid : ManifestId} {m : Manifest} (hmid : i.manifestId = some mid)
    (hm : s.manifests[mid]? = some m) : versionExtents s i = m.extents.extents := by
  rw [versionExtents, hmid, Option.bind_some, hm]
  rfl

theorem versionExtents_of_none (hmid : i.manifestId = none) : versionExtents s i = [] := by
  rw [versionExtents, hmid]
  rfl

/-- A manifest id that records of both moments name stands for one manifest. -/
theorem versionExtents_of_sameData (hs : Intact s) (ht : Intact t) (hages : Ages s t)
    (hi : s.inodes.get? id = some i) (hj : t.inodes.get? id = some j) (hdata : SameData i j) :
    versionExtents t j = versionExtents s i := by
  cases hmid : i.manifestId with
  | none => rw [versionExtents_of_none hmid, versionExtents_of_none (hdata.manifest.trans hmid)]
  | some mid =>
    have hmid' := hdata.manifest.trans hmid
    obtain ⟨m, hm, -⟩ := (hs.backs id i hi).stored hmid
    obtain ⟨m', hm', -⟩ := (ht.backs id j hj).stored hmid'
    rw [versionExtents_of_some hmid hm, versionExtents_of_some hmid' hm']
    rcases hages.manifest mid m' hm' with hsame | hlate
    · rw [hm, Option.some.injEq] at hsame
      rw [hsame]
    · exact absurd hlate (Nat.not_le.mpr (hs.below mid m hm))

theorem content_of_sameData (hs : Intact s) (ht : Intact t) (hages : Ages s t)
    (hi : s.inodes.get? id = some i) (hj : t.inodes.get? id = some j) (hdata : SameData i j) :
    t.content contents j = s.content contents i := by
  rw [Tables.content, Tables.content, versionExtents_of_sameData hs ht hages hi hj hdata,
    hdata.size, hdata.ufs]

end

/-! ## One edit -/

section
variable {now : Clock} {op : MetaOp} {faulty records : Prop} {start : Keyed Inode.id} {s t : Tables}
  {id : InodeId} {j : Inode}

theorem unedited_put {new old : Inode} {key : InodeId} (hold : s.inodes.get? key = some old)
    (h : (s.inodes.put new).get? id = some j) (hid : new.id = key) (hsame : Unedited op old new) :
    ∃ i, s.inodes.get? id = some i ∧ Unedited op i j := by
  rw [Keyed.get?_put] at h
  split at h
  · rename_i heq
    cases h
    exact ⟨old, (hid.symm.trans heq) ▸ hold, hsame⟩
  · exact ⟨j, h, .refl op j⟩

theorem unedited_add {new : Inode} (hborn : Born now op s new)
    (h : (s.addInode new).inodes.get? id = some j) :
    (∃ i, s.inodes.get? id = some i ∧ Unedited op i j) ∨ Born now op s j ∧ s.nextInode ≤ id := by
  rw [Tables.addInode, Tables.get_putInode] at h
  split at h
  · rename_i heq
    cases h
    exact .inr ⟨hborn, Nat.le_of_eq (hborn.id_eq.symm.trans heq)⟩
  · exact .inl ⟨j, h, .refl op j⟩

/-- A record after an edit that is no commit and ends no flush: one with the data it had, or
a new one. -/
theorem unedited_edit (hraw : op.isRaw = false) (hcommit : op.commit? = none)
    (hends : op.endsFlush? = none) (e : Edit now op faulty records start s t)
    (h : t.inodes.get? id = some j) :
    (∃ i, s.inodes.get? id = some i ∧ Unedited op i j) ∨
      Born now op s j ∧ s.nextInode ≤ id ∧ t.manifests = s.manifests := by
  cases e with
  | raw hop =>
    rw [hop] at hraw
    cases hraw
  | touch hold hnew =>
    rw [hnew] at h
    exact .inl (unedited_put hold h rfl ⟨⟨rfl, rfl, rfl⟩, fun _ => ⟨rfl, rfl, rfl⟩⟩)
  | addEntry _ _ hborn => exact (unedited_add hborn h).imp_right fun hnew => ⟨hnew.1, hnew.2, rfl⟩
  | addOrphan _ _ hborn => exact (unedited_add hborn h).imp_right fun hnew => ⟨hnew.1, hnew.2, rfl⟩
  | linkEntry _ _ hsource =>
    exact .inl (unedited_put hsource h rfl ⟨⟨rfl, rfl, rfl⟩, fun _ => ⟨rfl, rfl, rfl⟩⟩)
  | unlinkEntry _ hchild =>
    exact .inl (unedited_put hchild h rfl ⟨⟨rfl, rfl, rfl⟩, fun _ => ⟨rfl, rfl, rfl⟩⟩)
  | moveEntry _ _ _ hsource =>
    exact .inl (unedited_put hsource h rfl ⟨⟨rfl, rfl, rfl⟩, fun _ => ⟨rfl, rfl, rfl⟩⟩)
  | beginFlush hstored _ _ _ _ _ _ hbegin =>
    refine .inl (unedited_put hstored h rfl ⟨⟨rfl, rfl, rfl⟩, fun hflush => ?_⟩)
    rw [hbegin] at hflush
    cases hflush
  | commitImage hop =>
    rw [hcommit] at hop
    cases hop
  | publishFlush hop | failFlush hop =>
    rw [hends] at hop
    cases hop
  | reapEntry | removeDir => exact .inl ⟨j, (Tables.of_get_deleteInode h).2, .refl op j⟩
  | closePresence =>
    have hkept := of_get_reapAll h
    exact .inl ⟨j, hkept, .refl op j⟩
  | _ => exact .inl ⟨j, h, .refl op j⟩

/-- The manifest of a new record is the one its import carried. -/
theorem sound_of_born (hop : op.CarriesSound) (hborn : Born now op s j) {mid : ManifestId}
    {m : Manifest} (hmid : j.manifestId = some mid) (hm : s.manifests[mid]? = some m) :
      m.Sound := by
  cases hborn with
  | created => cases hmid
  | imported => cases hmid
  | importedData himport hmanifest =>
    cases hmid
    rw [himport] at hop
    rw [hmanifest, Option.some.injEq] at hm
    have hsent := hop _ rfl
    rw [← hm]
    exact ⟨hsent.laid, hsent.objects, hsent.windows, hsent.inside, hsent.bounded⟩

theorem Tables.SoundFiles.edit (hop : op.CarriesSound) (hraw : op.isRaw = false)
    (hcommit : op.commit? = none) (hends : op.endsFlush? = none) (hintact : Intact s)
    (h : s.SoundFiles) (e : Edit now op faulty records start s t) : t.SoundFiles := by
  intro id j mid m hj hmid hm
  rcases unedited_edit hraw hcommit hends e hj with ⟨i, hi, hkept⟩ | ⟨hborn, -, hsame⟩
  · have himid := hkept.data.manifest.symm.trans hmid
    rcases manifest_edit e hm with hold | hlate
    · exact h id i mid m hi himid hold
    · obtain ⟨old, hold, -⟩ := (hintact.backs id i hi).stored himid
      exact absurd hlate (Nat.not_le.mpr (hintact.below mid old hold))
  · rw [hsame] at hm
    exact sound_of_born hop hborn hmid hm

end

/-! ## Records that are replaced -/

/-- Manifests are only added. -/
def Tables.ManifestsStay (s t : Tables) : Prop :=
  ∀ (mid : ManifestId) (m : Manifest), s.manifests[mid]? = some m → t.manifests[mid]? = some m

section
variable {contents : Contents} {s t : Tables} {new : Inode}

/-- A record that is not replaced keeps its bytes when manifests are only added. -/
theorem content_put_other (hintact : Intact s) (hinodes : t.inodes = s.inodes.put new)
    (hmanifests : s.ManifestsStay t)
    {id : InodeId} {j : Inode} (hne : new.id ≠ id) (hj : t.inodes.get? id = some j) :
    s.inodes.get? id = some j ∧ t.content contents j = s.content contents j := by
  rw [hinodes, Keyed.get?_put, if_neg hne] at hj
  refine ⟨hj, ?_⟩
  have hextents : versionExtents t j = versionExtents s j := by
    cases hmid : j.manifestId with
    | none => rw [versionExtents_of_none hmid, versionExtents_of_none hmid]
    | some mid =>
      obtain ⟨m, hm, -⟩ := (hintact.backs id j hj).stored hmid
      rw [versionExtents_of_some hmid hm, versionExtents_of_some hmid (hmanifests mid m hm)]
  rw [Tables.content, Tables.content, hextents]

theorem Tables.SoundFiles.put (h : s.SoundFiles) (hintact : Intact s)
    (hinodes : t.inodes = s.inodes.put new)
    (hmanifests : s.ManifestsStay t)
    (hnew : ∀ (mid : ManifestId) (m : Manifest), new.manifestId = some mid →
      t.manifests[mid]? = some m → m.Sound) :
    t.SoundFiles := by
  intro id j mid m hj hmid hm
  rw [hinodes, Keyed.get?_put] at hj
  split at hj
  · cases hj
    exact hnew mid m hmid hm
  · obtain ⟨old, hold, -⟩ := (hintact.backs id j hj).stored hmid
    rw [hmanifests mid old hold, Option.some.injEq] at hm
    rw [← hm]
    exact h id j mid old hj hmid hold

/-- Every file that stays has the bytes it had, and the manifests are still sound. -/
structure KeepsContents (contents : Contents) (s t : Tables) : Prop where
  content : ∀ id i j, s.inodes.get? id = some i → t.inodes.get? id = some j →
    t.content contents j = s.content contents i
  sound : t.SoundFiles

theorem KeepsContents.put (hsound : s.SoundFiles) (hintact : Intact s)
    (hinodes : t.inodes = s.inodes.put new)
    (hmanifests : s.ManifestsStay t)
    {old : Inode} (hold : s.inodes.get? new.id = some old)
    (hcontent : t.content contents new = s.content contents old)
    (hnew : ∀ (mid : ManifestId) (m : Manifest), new.manifestId = some mid →
      t.manifests[mid]? = some m → m.Sound) :
    KeepsContents contents s t := by
  refine ⟨fun id i j hi hj => ?_, hsound.put hintact hinodes hmanifests hnew⟩
  by_cases hid : new.id = id
  · subst hid
    rw [hi, Option.some.injEq] at hold
    rw [hinodes, Keyed.get?_put, if_pos rfl, Option.some.injEq] at hj
    rw [← hj, hold]
    exact hcontent
  · obtain ⟨hsame, hbytes⟩ := content_put_other hintact hinodes hmanifests hid hj
    rw [hi, Option.some.injEq] at hsame
    rw [hbytes, hsame]

theorem KeepsContents.refl (hsound : s.SoundFiles) : KeepsContents contents s s := by
  refine ⟨fun id i j hi hj => ?_, hsound⟩
  rw [hi, Option.some.injEq] at hj
  rw [hj]

end

/-! ## The end of a flush -/

section
variable {contents : Contents} {s : Tables}

/-- The range of the published object that a flush leaves behind. -/
theorem sound_published {inode : InodeId} {gen : DataGen} {size : Nat} {key : String}
    {version : UfsVersion} {tree : ExtentTree}
    (h : ExtentTree.singleton (.ufsRange 0 size key version 0) = .ok tree) :
    (Manifest.mk inode gen size tree).Sound := by
  have hextents := ExtentTree.extents_of_singleton h
  obtain ⟨-, hlaid, -⟩ := ExtentTree.tryFrom_eq_ok.mp h
  have hmax : 0 + size ≤ u64Max := hlaid.within _ (List.mem_singleton_self _)
  refine ⟨?_, fun e he => ?_, fun e he => ?_, fun e he => ?_,
    (Nat.zero_add size).symm.trans_le hmax⟩
  · show Laid tree.extents
    rw [hextents]
    exact hlaid
  all_goals
    replace he : e ∈ tree.extents := he
    rw [hextents] at he
    rw [List.mem_singleton.mp he]
  · exact hmax
  · trivial
  · exact Nat.le_of_eq (Nat.zero_add size)

theorem fileRange_published {ufs : UfsObject} {version : UfsVersion} {size : Nat} {B : Nat → UInt8}
    (hmax : size ≤ u64Max) (h : ∀ pos < size, contents.object ufs.key ufs pos = B pos) :
    fileRange contents (some ufs) [.ufsRange 0 size ufs.key version 0] 0 size =
      (List.range size).map B := by
  rw [fileRange_zero]
  refine List.map_congr_left fun pos hpos => ?_
  have hlt := List.mem_range.mp hpos
  have hwithin : ∀ e ∈ [Extent.ufsRange 0 size ufs.key version 0], e.offset + e.len ≤ u64Max := by
    intro e he
    rw [List.mem_singleton.mp he]
    exact (Nat.zero_add size).symm ▸ hmax
  rw [fileByte_cons hwithin (fun x hx => by cases hx), if_pos
    ⟨Nat.zero_le _, (Nat.zero_add size).symm ▸ hlt⟩]
  show contents.object ufs.key ufs (0 + (pos - 0)) = B pos
  rw [Nat.sub_zero, Nat.zero_add]
  exact h pos hlt

/-- The record of a flush that ended well describes the same bytes by the published object. -/
theorem KeepsContents.publish (hsound : s.SoundFiles) (hintact : Intact s) {id : InodeId}
    {ufs : UfsObject} {i : Inode} {fields : LocalityFields}
    {intent : FlushIntent} {tree : ExtentTree} (hi : s.inodes.get? id = some i)
    (hbytes : ∀ pos < i.size,
      contents.object ufs.key ufs pos = fileByte contents i.ufs (versionExtents s i) pos)
    (htree : ExtentTree.singleton (.ufsRange 0 i.size ufs.key (publishedVersion intent ufs) 0) =
      .ok tree) :
    KeepsContents contents s ((s.addManifest ⟨i.id, intent.snapshotGen, i.size, tree⟩).putInode
      (installPublished i fields intent ufs (some s.nextManifest))) := by
  have hadded :
      (s.addManifest ⟨i.id, intent.snapshotGen, i.size, tree⟩).manifests[s.nextManifest]? =
      some ⟨i.id, intent.snapshotGen, i.size, tree⟩ := by
    rw [Tables.addManifest, Table.get_insert, if_pos rfl]
  have hget : s.inodes.get? i.id = some i := Keyed.get?_of_get? hi
  refine .put hsound hintact rfl (fun _ _ hm => hintact.get_addManifest _ hm) hget ?_
    fun mid m hmid hm => ?_
  · obtain ⟨-, hlaid, -⟩ := ExtentTree.tryFrom_eq_ok.mp htree
    have hmax : 0 + i.size ≤ u64Max := hlaid.within _ (List.mem_singleton_self _)
    have hextents : versionExtents ((s.addManifest
      ⟨i.id, intent.snapshotGen, i.size, tree⟩).putInode
        (installPublished i fields intent ufs (some s.nextManifest)))
        (installPublished i fields intent ufs (some s.nextManifest)) = tree.extents :=
      versionExtents_of_some rfl hadded
    rw [Tables.content, hextents, ExtentTree.extents_of_singleton htree]
    refine (fileRange_published (by omega) hbytes).trans ?_
    exact (fileRange_zero ..).symm
  · cases hmid
    have hm' := Option.some.inj (hm.symm.trans hadded)
    rw [hm']
    exact sound_published htree

/-- A flush changes no byte of any file. -/
theorem KeepsContents.flush (hsound : s.SoundFiles) (hintact : Intact s) {op : MetaOp}
    {o : Except FluxError Inode × Tables} (ho : FlushOutcome s op o)
    (hpublish : op.PublishesContent contents s) : KeepsContents contents s o.2 := by
  cases ho with
  | refused => exact .refl hsound
  | @emptied i _ _ _ hi _ _ _ hsize =>
    refine .put hsound hintact rfl (fun _ _ hm => hm) hi ?_ fun mid m hmid _ => ?_
    · show fileRange _ _ _ 0 i.size = fileRange _ _ _ 0 i.size
      rw [hsize]
      rfl
    · cases hmid
  | published hi _ hintent _ _ htree =>
    exact .publish hsound hintact hi (hpublish _ hi _ hintent rfl) htree
  | begun hi | superseded hi | failed hi =>
    refine .put hsound hintact rfl (fun _ _ hm => hm) hi rfl fun mid m hmid hm => ?_
    exact hsound _ _ mid m hi hmid hm

end

/-! ## Requests -/

section
variable {contents : Contents} {s : Tables} {r : MetaRequest}

/-- The ledger says nothing about files. -/
theorem KeepsContents.ledger (before : Table RequestOpId ClientRequestLedgerEntry)
    {after : Table RequestOpId ClientRequestLedgerEntry} {t : Tables}
    (h : KeepsContents contents { s with clientRequests := before } t) :
    KeepsContents contents s { t with clientRequests := after } :=
  ⟨h.content, h.sound⟩

theorem unedited_request (hgrounded : Grounded s) (hraw : r.req.op.isRaw = false)
    (hcommit : r.req.op.commit? = none) (hends : r.req.op.endsFlush? = none) {id : InodeId}
    {i j : Inode} (hi : s.inodes.get? id = some i)
    (hj : (applyRaftRequest r.now r.req s).2.inodes.get? id = some j) :
    Unedited r.req.op i j := by
  have hkept : id < (applyRaftRequest r.now r.req s).2.nextInode ∧ ∀ j,
      (applyRaftRequest r.now r.req s).2.inodes.get? id = some j → Unedited r.req.op i j := by
    apply request_keep (P := fun t => id < t.nextInode ∧ ∀ j, t.inodes.get? id = some j →
      Unedited r.req.op i j) hgrounded
    · rintro a b ⟨hlt, ha⟩ e
      refine ⟨Nat.lt_of_lt_of_le hlt (nextInode_edit e), fun k hk => ?_⟩
      rcases unedited_edit hraw hcommit hends e hk with ⟨l, hl, hsame⟩ | ⟨-, hlate, -⟩
      · exact (ha l hl).trans hsame
      · exact absurd hlate (Nat.not_le.mpr hlt)
    · refine ⟨hgrounded.below id i hi, fun k hk => ?_⟩
      rw [hi, Option.some.injEq] at hk
      rw [hk]
      exact .refl _ k
  exact hkept.2 j hj

/-- A request that commits no image changes no byte of any file. -/
theorem KeepsContents.request (hgrounded : Grounded s) (hintact : Intact s) (hsound : s.SoundFiles)
    (hissued : r.req.op.ClientIssued) (hcarries : r.req.op.CarriesSound)
    (hcommit : r.req.op.commit? = none) (hpublish : r.req.op.PublishesContent contents s) :
    KeepsContents contents s (applyRaftRequest r.now r.req s).2 := by
  have hraw := hissued.not_raw
  cases hflush : r.req.op.flush? with
  | none =>
    have hends := MetaOp.ends_none_of_flush hflush
    have hafter : Intact (applyRaftRequest r.now r.req s).2 ∧
        (applyRaftRequest r.now r.req s).2.SoundFiles := by
      apply request_keep (P := fun t => Intact t ∧ t.SoundFiles) hgrounded
      · rintro a b ⟨ha, hsound⟩ e
        exact ⟨ha.edit hissued hends e, hsound.edit hcarries hraw hcommit hends ha e⟩
      · exact ⟨hintact, hsound⟩
    refine ⟨fun id i j hi hj => ?_, hafter.2⟩
    exact content_of_sameData hintact hafter.1 (.request hgrounded hraw) hi hj
      (unedited_request hgrounded hraw hcommit hends hi hj).data
  | some flush =>
    obtain ⟨before, after, o, ho, hafter⟩ :=
      request_flush (s := s) r.now (by rw [hflush]; exact Option.some_ne_none _)
    rw [hafter]
    have hintact' : Intact { s with clientRequests := before } :=
      hintact.mono rfl rfl fun _ _ hi => hi
    have hpublish' : r.req.op.PublishesContent contents { s with clientRequests := before } := by
      cases hop : r.req.op <;> rw [hop] at hpublish <;> exact hpublish
    have hkeeps := KeepsContents.flush (s := { s with clientRequests := before }) hsound hintact' ho
      hpublish'
    exact hkeeps.ledger before

end

/-! ## Commits -/

/-- The record a commit of `image` stores. -/
def Tables.committed (s : Tables) (image : Inode) : Inode :=
  { image with manifestId := some s.nextManifest }

/-- A reserved commit does nothing, or it installs the image with its manifest. -/
inductive CommitOutcome (ticket : WriteTicketId) (expected : Generation) (image : Inode)
    (manifest : Manifest) (s : Tables) : Except FluxError Inode × Tables → Prop
  | failed (e : FluxError) : CommitOutcome ticket expected image manifest s (.error e, s)
  | installed {current : Inode} (hcurrent : s.inodes.get? image.id = some current)
      (hgen : current.generation = expected) (hidle : current.flushIntent = none) :
      CommitOutcome ticket expected image manifest s
        (.ok (s.committed image),
          ((s.addManifest manifest).putInode (s.committed image)).dropReservations [ticket])

section
variable {s : Tables} {ticket : WriteTicketId} {expected : Generation} {image : Inode}
  {manifest : Manifest}

theorem commitReserved_outcome : CommitOutcome ticket expected image manifest s
    (commitReservedInTxn ticket expected image manifest s) := by
  simp only [commitReservedInTxn, commitInodeManifestInTxn, putManifestInTxn, bind_assoc, pure_bind]
  refine outcome_query_ok .failed fun _ _ => ?_
  refine outcome_guard .failed fun _ => ?_
  refine outcome_guard .failed fun _ => ?_
  refine outcome_guard .failed fun _ => ?_
  refine outcome_getInodeRaw .failed fun current hcurrent => ?_
  refine outcome_checkGeneration .failed fun hgen => ?_
  refine outcome_guard .failed fun hidle => ?_
  refine outcome_query_ok .failed fun _ _ => ?_
  exact .installed hcurrent hgen (Option.not_isSome_iff_eq_none.mp hidle)

/-- A commit under a fresh request id and how its answer tells what it did. -/
theorem commit_applied (ticket : WriteTicketId) (expected : Generation) (image : Inode)
    (manifest : Manifest) {rpc : Rpc} (hfresh : rpc.isFresh s = true) :
    (rpc.response (.commitInodeManifestReserved ticket expected image manifest) s =
        .inode (s.committed image) ∧
      (∃ current, s.inodes.get? image.id = some current ∧ current.generation = expected ∧
        current.flushIntent = none) ∧
      (rpc.applied (.commitInodeManifestReserved ticket expected image manifest) s).inodes =
        s.inodes.put (s.committed image) ∧
      (rpc.applied (.commitInodeManifestReserved ticket expected image manifest) s).manifests =
        (s.addManifest manifest).manifests) ∨
    ((∃ e, rpc.response (.commitInodeManifestReserved ticket expected image manifest) s = .err e) ∧
      ∃ after, rpc.applied (.commitInodeManifestReserved ticket expected image manifest) s =
        { s with clientRequests := after }) := by
  rcases Rpc.executes_or_refused hfresh (.commitInodeManifestReserved ticket expected image
    manifest) with hexec | ⟨hrefused, hbusy⟩
  · obtain ⟨before, after, hresponse, htables⟩ := applyRaftRequest_of_executes rpc.now hexec
    have houtcome : CommitOutcome ticket expected image manifest { s with clientRequests := before }
        (commitReservedInTxn ticket expected image manifest { s with clientRequests := before }) :=
      commitReserved_outcome
    replace hresponse : rpc.response (.commitInodeManifestReserved ticket expected image manifest)
      s =
        toResponse ((commitReservedInTxn ticket expected image manifest >>= fun inode =>
          pure (.inode inode)) { s with clientRequests := before }).1 := hresponse
    replace htables : rpc.applied (.commitInodeManifestReserved ticket expected image manifest) s =
        { ((commitReservedInTxn ticket expected image manifest >>= fun inode =>
          pure (MetaRaftResponse.inode inode)) { s with clientRequests := before }).2 with
          clientRequests := after } := htables
    generalize houtcome' : commitReservedInTxn ticket expected image manifest
      { s with clientRequests := before } = outcome at houtcome
    cases houtcome with
    | failed e =>
      rw [Txn.bind_of_error houtcome'] at hresponse htables
      exact .inr ⟨⟨e, hresponse⟩, after, htables⟩
    | installed hcurrent hgen hidle =>
      rw [Txn.bind_of_ok houtcome'] at hresponse htables
      rw [htables]
      exact .inl ⟨hresponse, ⟨_, hcurrent, hgen, hidle⟩, rfl, rfl⟩
  · obtain ⟨after, hafter⟩ := applyRaftRequest_of_not_executes rpc.now hrefused
    exact .inr ⟨⟨.busy, hbusy⟩, after, hafter⟩

end

end FluxFS
