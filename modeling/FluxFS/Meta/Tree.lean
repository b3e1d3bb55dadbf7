import FluxFS.Lib.Reach
import FluxFS.Meta.Runs

/-!
# Tree — the name space

Every entry hangs in a stored directory and names a stored inode, the root
has no entry, every other directory has one and is reachable from the root,
and a file's link count is the number of its entries. `Inode.entries` is
the number of entries an inode must have, so the three counting statements
are one.
-/

namespace FluxFS

open Std Kit

/-- How many entries name `id`. -/
def Tables.refs (s : Tables) (id : InodeId) : Nat := Table.countOf s.dentries id

/-- How many entries must name this inode. -/
def Inode.entries (i : Inode) : Nat :=
  if i.id = rootInode then 0 else if i.fileType = .directory then 1 else i.linkCount

/-- The name space is a tree: entries lead from directories to stored inodes, link counts are
the numbers of entries, and every directory hangs below the root. -/
structure Tree (s : Tables) : Prop where
  grounded : Grounded s
  root : s.IsDir rootInode
  parent : ∀ (k : NameKey) (child : InodeId), s.dentries[k]? = some child → s.IsDir k.owner
  child : ∀ (k : NameKey) (child : InodeId), s.dentries[k]? = some child →
    ∃ i, s.inodes.get? child = some i
  counted : ∀ id i, s.inodes.get? id = some i → s.refs id = i.entries
  /-- A directory never looks unlinked. -/
  dirLinked : ∀ id i, s.inodes.get? id = some i → i.fileType = .directory → i.linkCount ≠ 0
  rooted : Rooted s.DirChild rootInode s.IsDir

/-! ## Requests -/

/-- The link count of an import's template: 2 for a directory, 1 otherwise. -/
def MetaOp.templateLinked : MetaOp → Bool
  | .importExternal _ _ template _ _ =>
    template.linkCount = if template.fileType = .directory then 2 else 1
  | _ => true

/-- A committed image has the link count and type of the record it replaces. -/
def MetaOp.keepsLinks (s : Tables) (op : MetaOp) : Bool :=
  op.commit?.all fun (expected, image, _) =>
    (s.inodes.get? image.id).all fun current =>
      current.generation ≠ expected ||
        (image.linkCount = current.linkCount && image.fileType = current.fileType)

/-- What clients promise of a request that arrives at `s`, and no generation is
at its last value. -/
structure Orderly (s : Tables) (r : MetaRequest) : Prop where
  notRaw : r.req.op.isRaw = false
  names : ∀ name ∈ r.req.op.names, Dentry.validate name = .ok ()
  template : r.req.op.templateLinked = true
  image : r.req.op.keepsLinks s = true
  generations : ∀ i ∈ s.inodes.rows, i.generation < u64Max

instance (s : Tables) (r : MetaRequest) : Decidable (Orderly s r) :=
  decidable_of_iff
    (r.req.op.isRaw = false ∧ (∀ name ∈ r.req.op.names, Dentry.validate name = .ok ()) ∧
      r.req.op.templateLinked = true ∧ r.req.op.keepsLinks s = true ∧
      ∀ i ∈ s.inodes.rows, i.generation < u64Max)
    ⟨fun ⟨h1, h2, h3, h4, h5⟩ => ⟨h1, h2, h3, h4, h5⟩,
      fun ⟨h1, h2, h3, h4, h5⟩ => ⟨h1, h2, h3, h4, h5⟩⟩

theorem keepsLinks_commit {s : Tables} {op : MetaOp} {expected : Generation} {image current : Inode}
    {manifest : Manifest} (h : op.keepsLinks s = true)
    (hop : op.commit? = some (expected, image, manifest))
    (hstart : s.inodes.get? image.id = some current) (hgen : current.generation = expected) :
    image.linkCount = current.linkCount ∧ image.fileType = current.fileType := by
  simpa [MetaOp.keepsLinks, hop, hstart, hgen] using h

/-! ## Directories and entries after an update -/

section
variable {s : Tables}

theorem isDir_putInode {i old : Inode} (hold : s.inodes.get? i.id = some old)
    (htype : i.fileType = old.fileType) (id : InodeId) :
    (s.putInode i).IsDir id ↔ s.IsDir id := by
  simp only [Tables.IsDir, Tables.get_putInode]
  by_cases hid : i.id = id
  · subst hid
    simp [hold, htype]
  · simp [hid]

theorem isDir_deleteInode {gone : InodeId}
    (hfile : ∀ i, s.inodes.get? gone = some i → i.fileType ≠ .directory) (id : InodeId) :
    (s.deleteInode gone).IsDir id ↔ s.IsDir id := by
  simp only [Tables.IsDir, Tables.get_deleteInode]
  by_cases hid : gone = id
  · subst hid
    simp only [if_true, reduceCtorEq, false_and, exists_false, false_iff]
    rintro ⟨i, hi, hdir⟩
    exact hfile i hi hdir
  · simp [hid]

theorem isDir_addInode {i : Inode} (hnew : s.inodes.get? i.id = none) (id : InodeId) :
    (s.addInode i).IsDir id ↔ s.IsDir id ∨ (id = i.id ∧ i.fileType = .directory) := by
  simp only [Tables.IsDir, Tables.addInode, Tables.get_putInode]
  by_cases hid : i.id = id
  · subst hid
    simp [hnew]
  · simp [hid, Ne.symm hid]

theorem refs_putDentry {k : NameKey} (hvacant : s.dentries[k]? = none) (child id : InodeId) :
    (s.putDentry k child).refs id = s.refs id + if child = id then 1 else 0 :=
  Table.countOf_insert _ hvacant child id

theorem refs_eraseDentry {k : NameKey} {child : InodeId} (hentry : s.dentries[k]? = some child)
    (id : InodeId) : s.refs id = (s.eraseDentry k).refs id + if child = id then 1 else 0 :=
  Table.countOf_erase _ hentry id

theorem refs_pos {k : NameKey} {child : InodeId} (hentry : s.dentries[k]? = some child) :
    0 < s.refs child :=
  Table.countOf_pos.mpr ⟨k, hentry⟩

theorem of_get_eraseDentry {k a : NameKey} {child : InodeId}
    (h : (s.eraseDentry k).dentries[a]? = some child) : k ≠ a ∧ s.dentries[a]? = some child := by
  rw [Tables.get_eraseDentry] at h
  split at h
  · cases h
  · exact ⟨by assumption, h⟩

theorem of_get_putDentry {k a : NameKey} {child c : InodeId}
    (h : (s.putDentry k child).dentries[a]? = some c) :
    (k = a ∧ child = c) ∨ s.dentries[a]? = some c := by
  rw [Tables.get_putDentry] at h
  split at h
  · exact .inl ⟨by assumption, Option.some.inj h⟩
  · exact .inr h

end

namespace Tree
variable {now : Clock} {op : MetaOp} {faulty records : Prop} {start : Keyed Inode.id} {s t : Tables}

theorem fresh (now : Int) : Tree (Tables.fresh now) where
  grounded := Grounded.fresh now
  root := ⟨_, Keyed.get?_put_self .., rfl⟩
  parent k child h := by simp [Tables.fresh] at h
  child k child h := by simp [Tables.fresh] at h
  counted id i h := by
    obtain ⟨rfl, rfl⟩ := Tables.of_get_fresh h
    simp [Tables.refs, Tables.fresh, Table.countOf, Inode.entries, newInode]
  dirLinked id i h _ := by
    rw [(Tables.of_get_fresh h).2]
    simp [newInode]
  rooted id h := by
    obtain ⟨i, hi, _⟩ := h
    rw [(Tables.of_get_fresh hi).1]

/-- An inode that is no directory is not the root and has its link count of
entries. -/
theorem entries_of_file (h : Tree s) {i : Inode} (hi : s.inodes.get? i.id = some i)
    (hfile : i.fileType ≠ .directory) : i.id ≠ rootInode ∧ s.refs i.id = i.linkCount := by
  have hroot : i.id ≠ rootInode := by
    intro heq
    obtain ⟨root, hget, hdir⟩ := h.root
    rw [← heq, hi, Option.some.injEq] at hget
    exact hfile (hget ▸ hdir)
  refine ⟨hroot, ?_⟩
  rw [h.counted i.id i hi, Inode.entries, if_neg hroot, if_neg hfile]

/-- A directory with an entry is not the root and has no other entry. -/
theorem refs_of_dir (h : Tree s) {k : NameKey} {i : Inode} (hentry : s.dentries[k]? = some i.id)
    (hi : s.inodes.get? i.id = some i) (hdir : i.fileType = .directory) :
    i.id ≠ rootInode ∧ s.refs i.id = 1 := by
  have hcount := h.counted i.id i hi
  have hpos := refs_pos hentry
  have hroot : i.id ≠ rootInode := by
    intro heq
    rw [hcount, Inode.entries, if_pos heq] at hpos
    exact absurd hpos (Nat.lt_irrefl 0)
  refine ⟨hroot, ?_⟩
  rw [hcount, Inode.entries, if_neg hroot, if_pos hdir]

/-- A store in the tree shape whose generations can still advance has no link
fault. -/
theorem not_linkFault (h : Tree s) (hgen : ∀ i ∈ s.inodes.rows, i.generation < u64Max) :
    ¬ s.LinkFault := by
  rintro ⟨k, child, hentry, hchild, hfile, hzero | hlast⟩
  · have hcount := (h.entries_of_file hchild hfile).2
    have hpos := refs_pos hentry
    omega
  · have hmax := hgen child (Keyed.mem_rows_of_get? hchild)
    exact absurd hmax (Nat.not_lt.mpr hlast)

/-- A change that leaves the directories and their entries as they are. -/
theorem files (h : Tree s) (hgrounded : Grounded t) (hdir : ∀ id, t.IsDir id ↔ s.IsDir id)
    (hkept : ∀ (k : NameKey) (child : InodeId), s.IsDir child → s.dentries[k]? = some child →
      t.dentries[k]? = some child)
    (hentry : ∀ (k : NameKey) (child : InodeId), t.dentries[k]? = some child →
      s.IsDir k.owner ∧ ∃ i, t.inodes.get? child = some i)
    (hcounted : ∀ id i, t.inodes.get? id = some i → t.refs id = i.entries)
    (hlinked : ∀ id i, t.inodes.get? id = some i → i.fileType = .directory → i.linkCount ≠ 0) :
    Tree t where
  grounded := hgrounded
  root := (hdir _).mpr h.root
  parent k child hk := (hdir _).mpr (hentry k child hk).1
  child k child hk := (hentry k child hk).2
  counted := hcounted
  dirLinked := hlinked
  rooted := by
    refine h.rooted.mono (fun a b hab => ?_) (fun a ha => (hdir a).mp ha)
    obtain ⟨⟨name, hname⟩, hb⟩ := hab
    exact ⟨⟨name, hkept _ _ hb hname⟩, (hdir b).mpr hb⟩

/-- A record rewritten with its type and link count. -/
theorem putInode (h : Tree s) {i old : Inode} (hold : s.inodes.get? i.id = some old)
    (htype : i.fileType = old.fileType) (hlinks : i.linkCount = old.linkCount) :
    Tree (s.putInode i) := by
  apply h.files (h.grounded.putInode hold) (isDir_putInode hold htype)
  · intro k child _ hk
    exact hk
  · intro k child hk
    obtain ⟨j, hj⟩ := h.child k child hk
    refine ⟨h.parent k child hk, ?_⟩
    rw [Tables.get_putInode]
    split
    · exact ⟨i, rfl⟩
    · exact ⟨j, hj⟩
  · intro id j hj
    rw [Tables.get_putInode] at hj
    split at hj
    · rename_i hid
      cases hj
      have hcount := h.counted _ _ hold
      have hkey := Keyed.key_of_get? hold
      subst hid
      rw [Inode.entries, hkey] at hcount
      rw [Inode.entries, htype, hlinks]
      exact hcount
    · exact h.counted id j hj
  · intro id j hj hdir
    rw [Tables.get_putInode] at hj
    split at hj
    · cases hj
      rw [hlinks]
      exact h.dirLinked _ _ hold (htype ▸ hdir)
    · exact h.dirLinked id j hj hdir

/-! ### Files -/

theorem linkEntry (h : Tree s) {k : NameKey} {source new : Inode} (hvacant : s.dentries[k]? = none)
    (hparent : s.IsDir k.owner) (hsource : s.inodes.get? source.id = some source)
    (hfile : source.fileType ≠ .directory) (hid : new.id = source.id)
    (htype : new.fileType = source.fileType) (hlinks : new.linkCount = source.linkCount + 1)
    (hgrounded : Grounded ((s.putInode new).putDentry k source.id)) :
    Tree ((s.putInode new).putDentry k source.id) := by
  have hold : s.inodes.get? new.id = some source := hid ▸ hsource
  obtain ⟨hroot, hcount⟩ := h.entries_of_file hsource hfile
  apply h.files hgrounded (isDir_putInode hold htype)
  · intro a child _ ha
    show ((s.putInode new).putDentry k source.id).dentries[a]? = some child
    rw [Tables.get_putDentry, if_neg]
    · exact ha
    · rintro rfl
      rw [hvacant] at ha
      cases ha
  · intro a child ha
    rcases of_get_putDentry ha with ⟨rfl, rfl⟩ | hold
    · exact ⟨hparent, new, by rw [← hid]; exact Keyed.get?_put_self ..⟩
    · obtain ⟨j, hj⟩ := h.child a child hold
      refine ⟨h.parent a child hold, ?_⟩
      show ∃ i, (s.putInode new).inodes.get? child = some i
      rw [Tables.get_putInode]
      split
      · exact ⟨new, rfl⟩
      · exact ⟨j, hj⟩
  · intro id i hi
    have hi' : (s.putInode new).inodes.get? id = some i := hi
    have hrefs : ((s.putInode new).putDentry k source.id).refs id =
        s.refs id + if source.id = id then 1 else 0 := refs_putDentry (s := s) hvacant source.id id
    rw [Tables.get_putInode, hid] at hi'
    rw [hrefs]
    split at hi'
    · rename_i heq
      cases hi'
      subst heq
      simp [hcount, Inode.entries, hid, hroot, htype, hfile, hlinks]
    · rename_i heq
      simp [heq, h.counted id i hi']
  · intro id i hi hdir
    have hi' : (s.putInode new).inodes.get? id = some i := hi
    rw [Tables.get_putInode] at hi'
    split at hi'
    · cases hi'
      exact absurd (htype ▸ hdir) hfile
    · exact h.dirLinked id i hi' hdir

/-- The entry of a file goes; its record is rewritten or deleted. -/
theorem eraseFile (h : Tree s) {k : NameKey} {child : Inode}
    (hentry : s.dentries[k]? = some child.id) (hchild : s.inodes.get? child.id = some child)
    (hfile : child.fileType ≠ .directory) (hgrounded : Grounded t)
    (hdentries : t.dentries = (s.eraseDentry k).dentries)
    (hothers : ∀ id, id ≠ child.id → t.inodes.get? id = s.inodes.get? id)
    (hrest : ∀ i, t.inodes.get? child.id = some i →
      i.fileType = child.fileType ∧ i.linkCount + 1 = child.linkCount)
    (hgone : t.inodes.get? child.id = none → child.linkCount = 1) : Tree t := by
  obtain ⟨hroot, hcount⟩ := h.entries_of_file hchild hfile
  have hrefs : ∀ id, s.refs id = t.refs id + if child.id = id then 1 else 0 := by
    intro id
    rw [Tables.refs, Tables.refs, hdentries]
    exact refs_eraseDentry hentry id
  have hdir : ∀ id, t.IsDir id ↔ s.IsDir id := by
    intro id
    by_cases hid : id = child.id
    · subst hid
      constructor
      · rintro ⟨i, hi, hdir⟩
        exact absurd ((hrest i hi).1 ▸ hdir) hfile
      · rintro ⟨i, hi, hdir⟩
        rw [hchild, Option.some.injEq] at hi
        exact absurd (hi ▸ hdir) hfile
    · rw [Tables.IsDir, hothers id hid, Tables.IsDir]
  apply h.files hgrounded hdir
  · intro a dir hd ha
    rw [hdentries, Tables.get_eraseDentry, if_neg]
    · exact ha
    · rintro rfl
      obtain ⟨i, hi, hdir⟩ := hd
      rw [hentry, Option.some.injEq] at ha
      rw [← ha, hchild, Option.some.injEq] at hi
      exact hfile (hi ▸ hdir)
  · intro a c ha
    have hpos : 0 < t.refs c := refs_pos ha
    rw [hdentries] at ha
    obtain ⟨_, ha⟩ := of_get_eraseDentry ha
    refine ⟨h.parent a c ha, ?_⟩
    by_cases hc : c = child.id
    · subst hc
      rw [← Option.ne_none_iff_exists']
      intro hnone
      -- the last entry is gone with the record
      have hlast := hgone hnone
      have hone := hrefs child.id
      rw [if_pos rfl] at hone
      omega
    · rw [hothers c hc]
      exact h.child a c ha
  · intro id i hi
    have hone := hrefs id
    by_cases hid : id = child.id
    · subst hid
      obtain ⟨htype, hlinks⟩ := hrest i hi
      have hkey := Keyed.key_of_get? hi
      rw [if_pos rfl] at hone
      rw [Inode.entries, hkey, if_neg hroot, htype, if_neg hfile]
      omega
    · rw [if_neg (Ne.symm hid)] at hone
      rw [hothers id hid] at hi
      rw [← h.counted id i hi]
      exact hone.symm
  · intro id i hi hd
    by_cases hid : id = child.id
    · subst hid
      exact absurd ((hrest i hi).1 ▸ hd) hfile
    · rw [hothers id hid] at hi
      exact h.dirLinked id i hi hd

/-- An unlinked inode goes. -/
theorem deleteUnlinked (h : Tree s) {id : InodeId} {i : Inode} (hi : s.inodes.get? id = some i)
    (hzero : i.linkCount = 0) : Tree (s.deleteInode id) := by
  obtain rfl : i.id = id := Keyed.key_of_get? hi
  have hfile : i.fileType ≠ .directory := fun hdir => h.dirLinked i.id i hi hdir hzero
  obtain ⟨_, hcount⟩ := h.entries_of_file hi hfile
  apply h.files (h.grounded.deleteInode i.id)
  · apply isDir_deleteInode
    intro j hj
    rw [hi, Option.some.injEq] at hj
    exact hj ▸ hfile
  · intro k child _ hk
    exact hk
  · intro k child hk
    refine ⟨h.parent k child hk, ?_⟩
    have hne : i.id ≠ child := by
      rintro rfl
      have hpos := refs_pos (s := s) hk
      omega
    rw [Tables.get_deleteInode, if_neg hne]
    exact h.child k child hk
  · intro a j hj
    exact h.counted a j (Tables.of_get_deleteInode hj).2
  · intro a j hj hdir
    exact h.dirLinked a j (Tables.of_get_deleteInode hj).2 hdir

/-! ### New entries -/

/-- A new inode starts with one entry to come. -/
theorem linkCount_of_born {i : Inode} (hborn : Born now op s i) (htemplate : op.templateLinked =
    true) : i.linkCount = if i.fileType = .directory then 2 else 1 := by
  cases hborn with
  | created => rfl
  | imported hop =>
    rw [hop] at htemplate
    exact of_decide_eq_true htemplate
  | importedData hop =>
    rw [hop] at htemplate
    exact of_decide_eq_true htemplate

/-- Nothing leads to an inode that is not there. -/
theorem refs_of_absent (h : Tree s) {id : InodeId} (hnew : s.inodes.get? id = none) :
    s.refs id = 0 := by
  by_contra hpos
  obtain ⟨k, hk⟩ := Table.countOf_pos.mp (Nat.pos_of_ne_zero hpos)
  obtain ⟨i, hi⟩ := h.child k id hk
  rw [hnew] at hi
  cases hi

section
variable {k : NameKey} {i : Inode} (hnew : s.inodes.get? i.id = none)
include hnew

/-- The new inode has its one entry. -/
theorem counted_addEntry (h : Tree s) (hvacant : s.dentries[k]? = none)
    (hlinks : i.linkCount = if i.fileType = .directory then 2 else 1) {a : InodeId} {j : Inode}
    (hj : (s.addInode i).inodes.get? a = some j) :
    ((s.addInode i).putDentry k i.id).refs a = j.entries := by
  have hroot : i.id ≠ rootInode := by
    intro heq
    obtain ⟨root, hroot, _⟩ := h.root
    rw [← heq, hnew] at hroot
    cases hroot
  have hrefs : ((s.addInode i).putDentry k i.id).refs a = s.refs a + if i.id = a then 1 else 0 :=
    refs_putDentry (s := s) hvacant i.id a
  rw [hrefs]
  rw [Tables.addInode, Tables.get_putInode] at hj
  split at hj
  · rename_i heq
    cases hj
    subst heq
    rw [h.refs_of_absent hnew, if_pos rfl, Inode.entries, if_neg hroot, hlinks]
    split <;> rfl
  · rename_i heq
    rw [if_neg heq, Nat.add_zero]
    exact h.counted a j hj

/-- A new directory hangs on its parent. -/
theorem rooted_addEntry (h : Tree s) (hvacant : s.dentries[k]? = none)
    (hparent : s.IsDir k.owner) :
    Rooted ((s.addInode i).putDentry k i.id).DirChild rootInode
      ((s.addInode i).putDentry k i.id).IsDir := by
  have hgrow : ∀ a b, s.DirChild a b → ((s.addInode i).putDentry k i.id).DirChild a b := by
    rintro a b ⟨⟨name, hname⟩, hb⟩
    refine ⟨⟨name, ?_⟩, (isDir_addInode hnew b).mpr (.inl hb)⟩
    rw [Tables.get_putDentry, if_neg]
    · exact hname
    · intro heq
      rw [← heq, hvacant] at hname
      cases hname
  by_cases htype : i.fileType = .directory
  · apply h.rooted.add (p := k.owner) (x := i.id) hgrow hparent
    · exact ⟨⟨k.name, by rw [Tables.get_putDentry, if_pos rfl]⟩,
        (isDir_addInode hnew _).mpr (.inr ⟨rfl, htype⟩)⟩
    · exact fun a ha => ((isDir_addInode hnew a).mp ha).imp_right And.left
  · apply h.rooted.mono hgrow
    exact fun a ha => ((isDir_addInode hnew a).mp ha).resolve_right fun hdir => htype hdir.2

end

theorem addEntry (h : Tree s) {k : NameKey} {i : Inode} (hvacant : s.dentries[k]? = none)
    (hparent : s.IsDir k.owner) (hid : i.id = s.nextInode)
    (hlinks : i.linkCount = if i.fileType = .directory then 2 else 1)
    (hgrounded : Grounded ((s.addInode i).putDentry k i.id)) :
    Tree ((s.addInode i).putDentry k i.id) := by
  have hnew : s.inodes.get? i.id = none := by
    cases hold : s.inodes.get? i.id with
    | none => rfl
    | some j => exact absurd (h.grounded.below _ _ hold) (by rw [hid]; exact Nat.lt_irrefl _)
  have hget : ∀ a, ((s.addInode i).putDentry k i.id).inodes.get? a =
      if i.id = a then some i else s.inodes.get? a := fun a => Keyed.get?_put ..
  have hdir : ∀ a, s.IsDir a → ((s.addInode i).putDentry k i.id).IsDir a :=
    fun a ha => (isDir_addInode hnew a).mpr (.inl ha)
  refine ⟨hgrounded, hdir _ h.root, fun a c ha => ?_, fun a c ha => ?_,
    fun a j => counted_addEntry hnew h hvacant hlinks, fun a j hj hd => ?_,
    rooted_addEntry hnew h hvacant hparent⟩
  · rcases of_get_putDentry ha with ⟨rfl, _⟩ | hold
    · exact hdir _ hparent
    · exact hdir _ (h.parent a c hold)
  · rw [hget]
    rcases of_get_putDentry ha with ⟨_, rfl⟩ | hold
    · exact ⟨i, if_pos rfl⟩
    · split
      · exact ⟨i, rfl⟩
      · exact h.child a c hold
  · rw [hget] at hj
    split at hj
    · cases hj
      rw [hlinks, if_pos hd]
      decide
    · exact h.dirLinked a j hj hd

/-! ### Directories -/

theorem removeDir (h : Tree s) {k : NameKey} {child : Inode}
    (hentry : s.dentries[k]? = some child.id) (hchild : s.inodes.get? child.id = some child)
    (hdir : child.fileType = .directory) (hempty : s.directoryHasChildren child.id = false) :
    Tree ((s.eraseDentry k).deleteInode child.id) := by
  obtain ⟨hroot, hone⟩ := h.refs_of_dir hentry hchild hdir
  have hleaf : ∀ (a : NameKey) (c : InodeId), s.dentries[a]? = some c → a.owner ≠ child.id := by
    rintro ⟨owner, name⟩ c ha rfl
    have hsome := Tables.directoryHasChildren_iff.mpr ⟨name, c, ha⟩
    rw [hempty] at hsome
    cases hsome
  have hget : ∀ a i, ((s.eraseDentry k).deleteInode child.id).inodes.get? a = some i →
      child.id ≠ a ∧ s.inodes.get? a = some i := fun a i hi => Tables.of_get_deleteInode hi
  have hkept : ∀ a, child.id ≠ a → s.IsDir a →
      ((s.eraseDentry k).deleteInode child.id).IsDir a := by
    rintro a hne ⟨i, hi, hd⟩
    exact ⟨i, by rw [Tables.get_deleteInode, if_neg hne]; exact hi, hd⟩
  have hrefs : ∀ a, s.refs a = ((s.eraseDentry k).deleteInode child.id).refs a +
      if child.id = a then 1 else 0 := refs_eraseDentry hentry
  refine ⟨(h.grounded.eraseDentry k).deleteInode child.id, hkept _ hroot h.root,
    fun a c ha => ?_, fun a c ha => ?_, fun a i hi => ?_, fun a i hi hd => ?_, ?_⟩
  · obtain ⟨_, hold⟩ := of_get_eraseDentry ha
    exact hkept _ (Ne.symm (hleaf a c hold)) (h.parent a c hold)
  · have hpos : 0 < ((s.eraseDentry k).deleteInode child.id).refs c := refs_pos ha
    obtain ⟨_, hold⟩ := of_get_eraseDentry ha
    have hne : child.id ≠ c := by
      rintro rfl
      have hlast := hrefs child.id
      rw [if_pos rfl] at hlast
      omega
    rw [Tables.get_deleteInode, if_neg hne]
    exact h.child a c hold
  · obtain ⟨hne, hi⟩ := hget a i hi
    have hsame := hrefs a
    rw [if_neg hne, Nat.add_zero] at hsame
    rw [← hsame]
    exact h.counted a i hi
  · exact h.dirLinked a i (hget a i hi).2 hd
  · apply h.rooted.remove (x := child.id)
    · rintro b ⟨⟨name, hname⟩, _⟩
      exact hleaf _ _ hname rfl
    · rintro a b ⟨⟨name, hname⟩, hb⟩ hne
      refine ⟨⟨name, ?_⟩, hkept b (Ne.symm hne) hb⟩
      show (s.eraseDentry k).dentries[NameKey.mk a name]? = some b
      rw [Tables.get_eraseDentry, if_neg]
      · exact hname
      · rintro rfl
        rw [hentry, Option.some.injEq] at hname
        exact hne hname.symm
    · rintro a ⟨i, hi, hd⟩
      obtain ⟨hne, hi⟩ := hget a i hi
      exact ⟨⟨i, hi, hd⟩, Ne.symm hne⟩

/-- An entry moves to a vacant name of a directory that is not below it. -/
theorem moveDentry (h : Tree s) {oldKey newKey : NameKey} {source : Inode}
    (hentry : s.dentries[oldKey]? = some source.id) (hvacant : s.dentries[newKey]? = none)
    (hsource : s.inodes.get? source.id = some source) (hparent : s.IsDir newKey.owner)
    (hself : source.id ≠ newKey.owner)
    (hbelow : source.fileType = .directory →
      ¬ Relation.ReflTransGen s.DirChild source.id newKey.owner) :
    Tree ((s.eraseDentry oldKey).putDentry newKey source.id) := by
  have hvacant' : (s.eraseDentry oldKey).dentries[newKey]? = none := by
    rw [Tables.get_eraseDentry]
    split
    · rfl
    · exact hvacant
  have hget : ∀ (a : NameKey) (c : InodeId), c ≠ source.id → s.dentries[a]? = some c →
      ((s.eraseDentry oldKey).putDentry newKey source.id).dentries[a]? = some c := by
    intro a c hne ha
    have hold : oldKey ≠ a := by
      rintro rfl
      rw [hentry, Option.some.injEq] at ha
      exact hne ha.symm
    have hnew : newKey ≠ a := by
      rintro rfl
      rw [hvacant] at ha
      cases ha
    rw [Tables.get_putDentry, if_neg hnew, Tables.get_eraseDentry, if_neg hold]
    exact ha
  have hof : ∀ (a : NameKey) (c : InodeId),
      ((s.eraseDentry oldKey).putDentry newKey source.id).dentries[a]? = some c →
      (newKey = a ∧ source.id = c) ∨ s.dentries[a]? = some c := by
    intro a c ha
    rcases of_get_putDentry ha with hnew | hold
    · exact .inl hnew
    · exact .inr (of_get_eraseDentry hold).2
  refine ⟨(h.grounded.eraseDentry _).putDentry hself, h.root, fun a c ha => ?_, fun a c ha => ?_,
    fun a i hi => ?_, h.dirLinked, ?_⟩
  · rcases hof a c ha with ⟨rfl, _⟩ | hold
    · exact hparent
    · exact h.parent a c hold
  · rcases hof a c ha with ⟨_, rfl⟩ | hold
    · exact ⟨source, hsource⟩
    · exact h.child a c hold
  · have hrefs := refs_eraseDentry hentry a
    rw [refs_putDentry hvacant', ← hrefs]
    exact h.counted a i hi
  · by_cases hdir : source.fileType = .directory
    · apply h.rooted.move (x := source.id) (q := newKey.owner)
      · rintro a b ⟨⟨name, hname⟩, hb⟩ hne
        exact ⟨⟨name, hget _ _ hne hname⟩, hb⟩
      · exact hparent
      · exact ⟨⟨newKey.name, by rw [Tables.get_putDentry, if_pos rfl]⟩, source, hsource, hdir⟩
      · exact hbelow hdir
      · exact fun a ha => ha
    · apply h.rooted.mono
      · rintro a b ⟨⟨name, hname⟩, hb⟩
        refine ⟨⟨name, hget _ _ ?_ hname⟩, hb⟩
        rintro rfl
        obtain ⟨i, hi, hd⟩ := hb
        rw [hsource, Option.some.injEq] at hi
        exact hdir (hi ▸ hd)
      · exact fun a ha => ha

/-! ### Requests -/

/-- The name space does not look at the other tables. -/
theorem frame (h : Tree s) (hinodes : t.inodes = s.inodes) (hdentries : t.dentries = s.dentries)
    (hnext : s.nextInode ≤ t.nextInode) : Tree t := by
  have hdir : ∀ id, t.IsDir id ↔ s.IsDir id := by
    intro id
    rw [Tables.IsDir, hinodes, Tables.IsDir]
  apply h.files _ hdir
  · intro k child _ hk
    rw [hdentries]
    exact hk
  · intro k child hk
    rw [hdentries] at hk
    rw [hinodes]
    exact ⟨h.parent k child hk, h.child k child hk⟩
  · intro id i hi
    rw [Tables.refs, hdentries]
    exact h.counted id i (hinodes ▸ hi)
  · intro id i hi
    exact h.dirLinked id i (hinodes ▸ hi)
  · refine h.grounded.mono (fun id i hi => ⟨i, hinodes ▸ hi⟩) hnext (fun k c hc => ?_)
    rw [hdentries] at hc
    exact hc

theorem edit {r : MetaRequest} {s₀ : Tables} (horderly : Orderly s₀ r) (hfault : ¬ s₀.LinkFault)
    (h : Tree s) (e : Edit r.now r.req.op s₀.LinkFault True s₀.inodes s t) : Tree t := by
  have hgrounded : Grounded t := h.grounded.edit horderly.notRaw e
  cases e with
  | aside | openPresence | putXattr | eraseXattr | addManifest | removeManifests | reserve
  | dropReservations | tombstone | updateTombstone | dropTombstone => exact h.frame rfl rfl le_rfl
  | skipInode => exact h.frame rfl rfl (Nat.le_succ _)
  | raw hop =>
    have hraw := horderly.notRaw
    rw [hop] at hraw
    cases hraw
  | touch hold hnew =>
    rw [hnew]
    exact h.putInode hold rfl rfl
  | addEntry hvacant hparent hborn =>
    exact h.addEntry hvacant hparent hborn.id_eq (linkCount_of_born hborn horderly.template)
      hgrounded
  | addOrphan hname hlong =>
    have hshort := Dentry.length_le_of_validate (horderly.names _ hname)
    omega
  | linkEntry hvacant hparent hsource hfile =>
    exact h.linkEntry hvacant hparent hsource hfile rfl rfl rfl hgrounded
  | unlinkEntry hentry hchild hfile hlinked =>
    apply h.eraseFile hentry hchild hfile hgrounded rfl
    · intro id hne
      exact Keyed.get?_put_of_ne _ (Ne.symm hne)
    · intro i hi
      rw [Tables.get_putInode, dropLink_id, if_pos rfl, Option.some.injEq] at hi
      rw [← hi]
      exact ⟨rfl, Nat.sub_add_cancel (Nat.pos_of_ne_zero hlinked)⟩
    · intro hnone
      rw [Tables.get_putInode, dropLink_id, if_pos rfl] at hnone
      cases hnone
  | reapEntry hentry hchild hfile hlast =>
    apply h.eraseFile hentry hchild hfile hgrounded rfl
    · intro id hne
      exact Keyed.get?_delete_of_ne _ (Ne.symm hne)
    · intro i hi
      exact absurd rfl (Tables.of_get_deleteInode hi).1
    · intro _
      exact hlast
  | eraseEntry hfaulty => exact absurd hfaulty hfault
  | removeDir hentry hchild hdir hempty => exact h.removeDir hentry hchild hdir hempty
  | moveEntry hne hentry hvacant hsource hparent hself hbelow =>
    have hmoved := h.moveDentry hentry hvacant hsource hparent hself hbelow
    exact hmoved.putInode hsource rfl rfl
  | closePresence =>
    apply reapAll_keep
    · intro s id i hs hi hzero _
      exact hs.deleteUnlinked hi hzero
    · exact h.frame rfl rfl le_rfl
  | commitImage hop hinode hcurrent hgen hstart =>
    obtain ⟨hlinks, htype⟩ := keepsLinks_commit horderly.image hop hstart hgen
    refine putInode (h.frame ?_ ?_ ?_) hcurrent htype hlinks
    all_goals rfl
  | beginFlush hstored => exact h.putInode hstored rfl rfl
  | publishFlush _ hstored => exact h.putInode hstored rfl rfl
  | failFlush _ hstored => exact h.putInode hstored rfl rfl

theorem request {r : MetaRequest} (horderly : Orderly s r) (h : Tree s) :
    Tree (applyRaftRequest r.now r.req s).2 :=
  request_keep h.grounded (fun _ _ => edit horderly (h.not_linkFault horderly.generations)) h

end Tree

/-! ## The name space in every run -/

/-- In every run of orderly requests from a fresh store: every entry hangs in a
stored directory and names a stored inode; the root has no entry; every other
directory has exactly one and is reachable from the root; no directory is below
itself; every other inode has its link count of entries. -/
theorem namespace_is_tree_in_every_run (start : Int) (requests : List MetaRequest) (s : Tables)
    (horderly : Along metaStep Orderly (Tables.fresh start) requests)
    (hrun : exec metaStep (Tables.fresh start) requests = some s) :
    (∀ (k : NameKey) (child : InodeId), s.dentries[k]? = some child →
      s.IsDir k.owner ∧ ∃ i, s.inodes.get? child = some i) ∧
    (∀ k : NameKey, s.dentries[k]? ≠ some rootInode) ∧
    (∀ id, s.IsDir id → id ≠ rootInode →
      (∃! k : NameKey, s.dentries[k]? = some id) ∧
        Relation.ReflTransGen s.DirChild rootInode id) ∧
    (∀ id, s.IsDir id → ¬ Relation.TransGen s.DirChild id id) ∧
    (∀ id i, s.inodes.get? id = some i → i.fileType ≠ .directory →
      i.linkCount = Table.countOf s.dentries id) := by
  have h : Tree s := by
    refine exec_invariant_along (fun a r b ha hr hb => ?_) requests _ s (Tree.fresh start) horderly
      hrun
    cases hb
    exact ha.request hr
  have hroot : ∀ k : NameKey, s.dentries[k]? ≠ some rootInode := by
    intro k hk
    obtain ⟨root, hget, hdir⟩ := h.root
    have hkey := Keyed.key_of_get? hget
    rw [← hkey] at hk hget
    exact (h.refs_of_dir hk hget hdir).1 hkey
  have hunique : ∀ {id : InodeId}, s.IsDir id → ∀ {k l : NameKey}, s.dentries[k]? = some id →
      s.dentries[l]? = some id → k = l := by
    rintro id ⟨i, hi, hdir⟩ k l hk hl
    obtain rfl : i.id = id := Keyed.key_of_get? hi
    exact Table.key_unique (h.refs_of_dir hk hi hdir).2 hk hl
  refine ⟨fun k child hk => ⟨h.parent k child hk, h.child k child hk⟩, hroot,
    fun id hid hne => ⟨?_, h.rooted id hid⟩, fun id hid => ?_, fun id i hi hfile => ?_⟩
  · obtain ⟨i, hi, hdir⟩ := hid
    obtain rfl : i.id = id := Keyed.key_of_get? hi
    have hone : s.refs i.id = 1 := by
      rw [h.counted i.id i hi, Inode.entries, if_neg hne, if_pos hdir]
    obtain ⟨k, hk⟩ := Table.countOf_pos.mp (Nat.lt_of_lt_of_eq Nat.zero_lt_one hone.symm)
    exact ⟨k, hk, fun l hl => hunique ⟨i, hi, hdir⟩ hl hk⟩
  · apply acyclic_of_reach _ _ (h.rooted id hid)
    · rintro b ⟨⟨name, hname⟩, _⟩
      exact hroot _ hname
    · rintro b c d ⟨⟨name, hname⟩, hd⟩ ⟨⟨name', hname'⟩, _⟩
      have hkey := hunique hd hname hname'
      exact congrArg NameKey.owner hkey
  · obtain rfl : i.id = id := Keyed.key_of_get? hi
    exact (h.entries_of_file hi hfile).2.symm

/-- Two directories, a file with two links, and the inner directory moved out. -/
def sampleTreeRun : List MetaRequest :=
  [⟨1, none, 0, .create rootInode "a" .directory 0o755 0 0 none⟩,
    ⟨2, none, 0, .create 2 "b" .directory 0o755 0 0 none⟩,
    ⟨3, none, 0, .create 3 "f" .regular 0o644 0 0 none⟩,
    ⟨4, none, 0, .link 4 rootInode "g" none⟩,
    ⟨5, none, 0, .rename 2 "b" none rootInode "c" none false⟩]

theorem namespace_is_tree_in_sampleTreeRun :
    (runMeta (Tables.fresh 0) sampleTreeRun).dentries[NameKey.mk rootInode "c"]? = some 3 ∧
      Relation.ReflTransGen (runMeta (Tables.fresh 0) sampleTreeRun).DirChild rootInode 3 ∧
      Table.countOf (runMeta (Tables.fresh 0) sampleTreeRun).dentries 4 = 2 := by
  have horderly : Along metaStep Orderly (Tables.fresh 0) sampleTreeRun := by decide +kernel
  obtain ⟨_, _, hdirs, _, hfiles⟩ := namespace_is_tree_in_every_run 0 sampleTreeRun _ horderly
    (exec_metaStep _ _)
  have hdir : (runMeta (Tables.fresh 0) sampleTreeRun).IsDir 3 :=
    ⟨((runMeta (Tables.fresh 0) sampleTreeRun).inodes.get? 3).get (by decide +kernel),
      by simp, by decide +kernel⟩
  refine ⟨by decide +kernel, (hdirs 3 hdir (by decide)).2, ?_⟩
  have hfile : ∃ i, (runMeta (Tables.fresh 0) sampleTreeRun).inodes.get? 4 = some i ∧
      i.fileType ≠ .directory ∧ i.linkCount = 2 :=
    ⟨((runMeta (Tables.fresh 0) sampleTreeRun).inodes.get? 4).get (by decide +kernel),
      by simp, by decide +kernel, by decide +kernel⟩
  obtain ⟨i, hi, htype, hlinks⟩ := hfile
  rw [← hfiles 4 i hi htype, hlinks]

end FluxFS
