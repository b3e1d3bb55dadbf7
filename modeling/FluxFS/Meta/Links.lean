import FluxFS.Meta.Tree

/-!
# Links — entries that lead somewhere

The part of the name space that also survives long names, generations at
their last value and every request that failed half-way: no inode has more
entries than it has links, so none is deleted while an entry names it. Unlike
`Tree` it needs no promise about names or counters, only that requests have
the shape clients give them.
-/

namespace FluxFS

open Std Kit

/-- A request as clients build it, read against the tables it arrives at: no raw
`PutInode`, imports with the link count of a new inode, images with the link
count and type of the record they replace. -/
structure AsIssued (s : Tables) (r : MetaRequest) : Prop where
  notRaw : r.req.op.isRaw = false
  template : r.req.op.templateLinked = true
  image : r.req.op.keepsLinks s = true

instance (s : Tables) (r : MetaRequest) : Decidable (AsIssued s r) :=
  decidable_of_iff (r.req.op.isRaw = false ∧ r.req.op.templateLinked = true ∧
      r.req.op.keepsLinks s = true)
    ⟨fun ⟨h1, h2, h3⟩ => ⟨h1, h2, h3⟩, fun ⟨h1, h2, h3⟩ => ⟨h1, h2, h3⟩⟩

/-- The most entries an inode can have. -/
def Inode.linkBound (i : Inode) : Nat := if i.fileType = .directory then 1 else i.linkCount

/-- Every entry names a stored inode, which has a link for it. -/
structure Linked (s : Tables) : Prop where
  grounded : Grounded s
  child : ∀ (k : NameKey) (child : InodeId), s.dentries[k]? = some child →
    ∃ i, s.inodes.get? child = some i
  bounded : ∀ id i, s.inodes.get? id = some i → s.refs id ≤ i.linkBound
  dirLinked : ∀ id i, s.inodes.get? id = some i → i.fileType = .directory → i.linkCount ≠ 0

namespace Linked
variable {now : Clock} {op : MetaOp} {s t : Tables}

theorem fresh (now : Int) : Linked (Tables.fresh now) where
  grounded := Grounded.fresh now
  child k child h := by simp [Tables.fresh] at h
  bounded id i _ := by
    have hnone : (Tables.fresh now).refs id = 0 := by
      simp [Tables.refs, Tables.fresh, Table.countOf]
    omega
  dirLinked id i h _ := by
    rw [(Tables.of_get_fresh h).2]
    simp [newInode]

theorem frame (h : Linked s) (hinodes : t.inodes = s.inodes) (hdentries : t.dentries = s.dentries)
    (hnext : s.nextInode ≤ t.nextInode) : Linked t where
  grounded := by
    refine h.grounded.mono (fun id i hi => ⟨i, hinodes ▸ hi⟩) hnext (fun k c hc => ?_)
    rw [hdentries] at hc
    exact hc
  child k c hc := by
    rw [hdentries] at hc
    rw [hinodes]
    exact h.child k c hc
  bounded id i hi := by
    rw [Tables.refs, hdentries]
    exact h.bounded id i (hinodes ▸ hi)
  dirLinked id i hi := h.dirLinked id i (hinodes ▸ hi)

/-- A record rewritten with its type and enough links. -/
theorem putInode (h : Linked s) {i old : Inode} (hold : s.inodes.get? i.id = some old)
    (htype : i.fileType = old.fileType) (hroom : s.refs i.id ≤ i.linkBound)
    (hlinked : i.fileType = .directory → i.linkCount = old.linkCount) : Linked (s.putInode i) where
  grounded := h.grounded.putInode hold
  child k c hc := by
    rw [Tables.get_putInode]
    split
    · exact ⟨i, rfl⟩
    · exact h.child k c hc
  bounded id j hj := by
    rw [Tables.get_putInode] at hj
    split at hj
    · rename_i hid
      cases hj
      exact hid ▸ hroom
    · exact h.bounded id j hj
  dirLinked id j hj hdir := by
    rw [Tables.get_putInode] at hj
    split at hj
    · cases hj
      rw [hlinked hdir]
      exact h.dirLinked _ _ hold (htype ▸ hdir)
    · exact h.dirLinked id j hj hdir

theorem putInode_keep (h : Linked s) {i old : Inode} (hold : s.inodes.get? i.id = some old)
    (htype : i.fileType = old.fileType) (hlinks : i.linkCount = old.linkCount) :
    Linked (s.putInode i) := by
  have hbound : i.linkBound = old.linkBound := by
    rw [Inode.linkBound, htype, hlinks, Inode.linkBound]
  exact h.putInode hold htype (hbound ▸ h.bounded _ _ hold) (fun _ => hlinks)

theorem refs_le (hdentries : ∀ (k : NameKey) (c : InodeId), t.dentries[k]? = some c →
    s.dentries[k]? = some c) (id : InodeId) : t.refs id ≤ s.refs id :=
  (Table.rows_subperm hdentries).countP_le _

theorem eraseDentry (h : Linked s) (k : NameKey) : Linked (s.eraseDentry k) := by
  have hold : ∀ (a : NameKey) (c : InodeId), (s.eraseDentry k).dentries[a]? = some c →
      s.dentries[a]? = some c := fun a c ha => (of_get_eraseDentry ha).2
  exact ⟨h.grounded.eraseDentry k, fun a c ha => h.child a c (hold a c ha),
    fun id i hi => (refs_le hold id).trans (h.bounded id i hi), h.dirLinked⟩

/-- An inode without an entry goes. -/
theorem deleteInode (h : Linked s) {id : InodeId} (hnone : s.refs id = 0) :
    Linked (s.deleteInode id) where
  grounded := h.grounded.deleteInode id
  child k c hc := by
    have hne : id ≠ c := by
      rintro rfl
      have hpos := refs_pos (s := s) hc
      omega
    rw [Tables.get_deleteInode, if_neg hne]
    exact h.child k c hc
  bounded a i hi := h.bounded a i (Tables.of_get_deleteInode hi).2
  dirLinked a i hi := h.dirLinked a i (Tables.of_get_deleteInode hi).2

/-- A vacant name gets an inode that has a link to spare. -/
theorem putDentry (h : Linked s) {k : NameKey} {i : Inode} (hvacant : s.dentries[k]? = none)
    (hi : s.inodes.get? i.id = some i) (hne : i.id ≠ k.owner)
    (hroom : s.refs i.id + 1 ≤ i.linkBound) : Linked (s.putDentry k i.id) where
  grounded := h.grounded.putDentry hne
  child a c hc := by
    rcases of_get_putDentry hc with ⟨_, rfl⟩ | hold
    · exact ⟨i, hi⟩
    · exact h.child a c hold
  bounded id j hj := by
    have hj : s.inodes.get? id = some j := hj
    rw [refs_putDentry hvacant]
    split
    · rename_i hid
      subst hid
      cases hi.symm.trans hj
      exact hroom
    · exact h.bounded id j hj
  dirLinked := h.dirLinked

/-- A new inode has no entry yet. -/
theorem addInode (h : Linked s) {i : Inode} (hid : i.id = s.nextInode)
    (hlinks : i.linkCount = if i.fileType = .directory then 2 else 1) :
    Linked (s.addInode i) ∧ (s.addInode i).refs i.id = 0 := by
  have hnone : s.refs i.id = 0 := by
    by_contra hpos
    obtain ⟨k, hk⟩ := Table.countOf_pos.mp (Nat.pos_of_ne_zero hpos)
    obtain ⟨j, hj⟩ := h.child k i.id hk
    exact absurd (h.grounded.below _ _ hj) (by rw [hid]; exact Nat.lt_irrefl _)
  have hget : ∀ a, (s.addInode i).inodes.get? a = if i.id = a then some i else s.inodes.get? a :=
    fun a => Keyed.get?_put ..
  refine ⟨⟨h.grounded.addInode hid, fun k c hc => ?_, fun a j hj => ?_, fun a j hj hdir => ?_⟩,
    hnone⟩
  · rw [hget]
    split
    · exact ⟨i, rfl⟩
    · exact h.child k c hc
  · rw [hget] at hj
    split at hj
    · rename_i heq
      have hzero : (s.addInode i).refs a = 0 := heq ▸ hnone
      omega
    · exact h.bounded a j hj
  · rw [hget] at hj
    split at hj
    · cases hj
      rw [hlinks, if_pos hdir]
      decide
    · exact h.dirLinked a j hj hdir

/-- After its entry is gone, an inode has a link more than entries. -/
theorem refs_eraseDentry_lt (h : Linked s) {k : NameKey} {i : Inode}
    (hentry : s.dentries[k]? = some i.id) (hi : s.inodes.get? i.id = some i) :
    (s.eraseDentry k).refs i.id + 1 ≤ i.linkBound := by
  have hrefs := refs_eraseDentry hentry i.id
  rw [if_pos rfl] at hrefs
  have hbound := h.bounded _ _ hi
  omega

theorem linkBound_of_file {i : Inode} (hfile : i.fileType ≠ .directory) :
    i.linkBound = i.linkCount := if_neg hfile

theorem linkBound_of_dir {i : Inode} (hdir : i.fileType = .directory) : i.linkBound = 1 :=
  if_pos hdir

/-- A file gets a link and the entry for it. -/
theorem linkEntry (h : Linked s) {k : NameKey} {source new : Inode}
    (hvacant : s.dentries[k]? = none) (hparent : s.IsDir k.owner)
    (hsource : s.inodes.get? source.id = some source) (hfile : source.fileType ≠ .directory)
    (hid : new.id = source.id) (htype : new.fileType = source.fileType)
    (hlinks : new.linkCount = source.linkCount + 1) :
    Linked ((s.putInode new).putDentry k new.id) := by
  obtain ⟨parent, hstored, hdir⟩ := hparent
  have hold : s.inodes.get? new.id = some source := hid ▸ hsource
  have hnewFile : new.fileType ≠ .directory := htype ▸ hfile
  have hbound : s.refs new.id ≤ source.linkCount := by
    rw [hid, ← linkBound_of_file hfile]
    exact h.bounded _ _ hsource
  have hput : Linked (s.putInode new) := by
    refine h.putInode hold htype ?_ (fun hd => absurd hd hnewFile)
    rw [linkBound_of_file hnewFile, hlinks]
    exact Nat.le_succ_of_le hbound
  apply hput.putDentry hvacant (Keyed.get?_put_self ..)
  · rw [hid]
    exact ne_of_file_of_dir hstored hdir hsource hfile
  · rw [linkBound_of_file hnewFile, hlinks]
    exact Nat.succ_le_succ hbound

/-- Every edit of a request that clients could have issued. -/
theorem edit {r : MetaRequest} {s₀ : Tables} (hissued : AsIssued s₀ r) (h : Linked s)
    (e : Edit r.now r.req.op s₀.LinkFault True s₀.inodes s t) : Linked t := by
  cases e with
  | aside | openPresence | putXattr | eraseXattr | addManifest | removeManifests | reserve
  | dropReservations | tombstone | updateTombstone | dropTombstone => exact h.frame rfl rfl le_rfl
  | skipInode => exact h.frame rfl rfl (Nat.le_succ _)
  | raw hop =>
    have hraw := hissued.notRaw
    rw [hop] at hraw
    cases hraw
  | touch hold hnew =>
    rw [hnew]
    exact h.putInode_keep hold rfl rfl
  | @addEntry k i hvacant hparent hborn =>
    have hlinks := Tree.linkCount_of_born hborn hissued.template
    obtain ⟨hadded, hnone⟩ := h.addInode hborn.id_eq hlinks
    obtain ⟨parent, hstored, -⟩ := hparent
    have hlt := h.grounded.below _ _ hstored
    apply hadded.putDentry hvacant (Keyed.get?_put_self ..)
    · rw [hborn.id_eq]
      exact (Nat.ne_of_lt hlt).symm
    · rw [hnone, Inode.linkBound, hlinks]
      split <;> exact le_rfl
  | addOrphan _ _ hborn =>
    exact (h.addInode hborn.id_eq (Tree.linkCount_of_born hborn hissued.template)).1
  | linkEntry hvacant hparent hsource hfile =>
    exact h.linkEntry hvacant hparent hsource hfile rfl rfl rfl
  | @unlinkEntry k child hentry hchild hfile hlinked =>
    have hroom := h.refs_eraseDentry_lt hentry hchild
    rw [linkBound_of_file hfile] at hroom
    refine (h.eraseDentry k).putInode hchild rfl ?_ (fun hd => absurd hd hfile)
    have hbound : (dropLink r.now.unlinked child).linkBound = child.linkCount - 1 :=
      linkBound_of_file (i := dropLink r.now.unlinked child) hfile
    rw [hbound]
    exact Nat.le_sub_of_add_le hroom
  | @reapEntry k child hentry hchild hfile hlast =>
    have hroom := h.refs_eraseDentry_lt hentry hchild
    rw [linkBound_of_file hfile, hlast] at hroom
    exact (h.eraseDentry k).deleteInode (by omega)
  | eraseEntry => exact h.eraseDentry _
  | @removeDir k child hentry hchild hdir hempty =>
    have hroom := h.refs_eraseDentry_lt hentry hchild
    rw [linkBound_of_dir hdir] at hroom
    exact (h.eraseDentry k).deleteInode (by omega)
  | @moveEntry oldKey newKey source hne hentry hvacant hsource hparent hself =>
    have hvacant' : (s.eraseDentry oldKey).dentries[newKey]? = none := by
      rw [Tables.get_eraseDentry]
      split
      · rfl
      · exact hvacant
    have hmoved := (h.eraseDentry oldKey).putDentry hvacant' hsource hself
      (h.refs_eraseDentry_lt hentry hsource)
    exact hmoved.putInode_keep hsource rfl rfl
  | closePresence =>
    apply reapAll_keep
    · intro s id i hs hi hzero _
      apply hs.deleteInode
      have hfile : i.fileType ≠ .directory := fun hdir => hs.dirLinked id i hi hdir hzero
      have hbound := hs.bounded id i hi
      rw [linkBound_of_file hfile, hzero] at hbound
      exact Nat.le_zero.mp hbound
    · exact h.frame rfl rfl le_rfl
  | commitImage hop hinode hcurrent hgen hstart =>
    obtain ⟨hlinks, htype⟩ := keepsLinks_commit hissued.image hop hstart hgen
    refine putInode_keep (h.frame ?_ ?_ ?_) hcurrent htype hlinks
    all_goals rfl
  | beginFlush hstored => exact h.putInode_keep hstored rfl rfl
  | publishFlush _ hstored => exact h.putInode_keep hstored rfl rfl
  | failFlush _ hstored => exact h.putInode_keep hstored rfl rfl

theorem request {r : MetaRequest} (hissued : AsIssued s r) (h : Linked s) :
    Linked (applyRaftRequest r.now r.req s).2 :=
  request_keep h.grounded (fun _ _ => edit hissued) h

/-- No entry of a reachable state dangles. -/
theorem run {start : Int} {requests : List MetaRequest}
    (hissued : Along metaStep AsIssued (Tables.fresh start) requests)
    (hrun : exec metaStep (Tables.fresh start) requests = some s) : Linked s := by
  refine exec_invariant_along (fun a r b ha hr hb => ?_) requests _ s (fresh start) hissued hrun
  cases hb
  exact ha.request hr

end Linked
end FluxFS
