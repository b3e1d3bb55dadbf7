import FluxFS.Meta.Tree

/-!
# Presence — open files outlive their last name

A file whose link count reaches zero stays while some session has a presence
row for it, and the step that takes the last such row takes the file and all
its rows. Deletion happens in two places (the unlink of an unopened file, the
close of an unlinked one); `Lifetime` is what both keep.
-/

namespace FluxFS

open Std Kit

/-- `id` is unlinked and nobody has it open. -/
def Tables.Orphan (s : Tables) (id : InodeId) : Prop :=
  ∃ i, s.inodes.get? id = some i ∧ i.linkCount = 0 ∧ s.hasOpenPresence id = false

/-- Presence, attribute and reservation rows belong to stored inodes. -/
structure Owned (s : Tables) : Prop where
  opened : ∀ k : NameKey, s.openPresence[k]? = some () →
    ∃ i, s.inodes.get? k.owner = some i ∧ i.fileType = .regular
  xattrs : ∀ (k : NameKey) (v : Bytes), s.xattrs[k]? = some v → ∃ i, s.inodes.get? k.owner = some i
  reservations : ∀ ticket r, s.reservations.get? ticket = some r →
    ∃ i, s.inodes.get? r.inode = some i

/-- Rows belong to stored inodes, and no unlinked inode outlives its last session. -/
structure Lifetime (s : Tables) : Prop where
  owned : Owned s
  noOrphan : ∀ id, ¬ s.Orphan id

/-! ## Presence rows after an update -/

section
variable {s t : Tables}

theorem hasOpenPresence_eq_false {id : InodeId} :
    s.hasOpenPresence id = false ↔ ∀ session, s.openPresence[NameKey.mk id session]? = none := by
  rw [← Bool.not_eq_true, Tables.hasOpenPresence_iff, not_exists]
  refine forall_congr' fun session => ?_
  cases s.openPresence[NameKey.mk id session]? with
  | none => simp
  | some u => simp

theorem openPresence_deleteInode (s : Tables) (gone : InodeId) (k : NameKey) :
    (s.deleteInode gone).openPresence[k]? = if k.owner = gone then none else s.openPresence[k]? :=
  Tables.get_eraseOwned ..

theorem xattrs_deleteInode (s : Tables) (gone : InodeId) (k : NameKey) :
    (s.deleteInode gone).xattrs[k]? = if k.owner = gone then none else s.xattrs[k]? :=
  Tables.get_eraseOwned ..

theorem orphan_of_deleteInode {gone id : InodeId} (h : (s.deleteInode gone).Orphan id) :
    gone ≠ id ∧ s.Orphan id := by
  obtain ⟨i, hi, hzero, hclosed⟩ := h
  obtain ⟨hne, hi⟩ := Tables.of_get_deleteInode hi
  refine ⟨hne, i, hi, hzero, ?_⟩
  rw [hasOpenPresence_eq_false] at hclosed ⊢
  intro session
  have hrow := hclosed session
  rw [openPresence_deleteInode, if_neg (Ne.symm hne)] at hrow
  exact hrow

theorem orphan_of_reap {a id : InodeId} (h : (reapUnlinkedInodeIfUnopened s a).Orphan id) :
    a ≠ id ∧ s.Orphan id := by
  rcases reap_cases s a with heq | ⟨i, hi, hzero, hclosed, heq⟩
  · rw [heq] at h
    refine ⟨?_, h⟩
    rintro rfl
    -- an orphan would have been reaped
    obtain ⟨i, hi, hzero, hclosed⟩ := h
    have hgone : (reapUnlinkedInodeIfUnopened s a).inodes.get? a = none := by
      unfold reapUnlinkedInodeIfUnopened
      rw [hi]
      simp [hzero, hclosed, Tables.get_deleteInode]
    rw [heq, hi] at hgone
    cases hgone
  · rw [heq] at h
    exact orphan_of_deleteInode h

/-- Reaping leaves no orphan among the inodes it looks at and makes none. -/
theorem orphan_of_reapAll {ids : List InodeId} {id : InodeId}
    (h : (ids.foldl reapUnlinkedInodeIfUnopened s).Orphan id) : id ∉ ids ∧ s.Orphan id := by
  induction ids generalizing s with
  | nil => exact ⟨List.not_mem_nil, h⟩
  | cons a ids ih =>
    obtain ⟨hrest, hreaped⟩ := ih h
    obtain ⟨hne, horphan⟩ := orphan_of_reap hreaped
    refine ⟨?_, horphan⟩
    rw [List.mem_cons, not_or]
    exact ⟨Ne.symm hne, hrest⟩

end

namespace Owned
variable {s t : Tables}

theorem fresh (now : Int) : Owned (Tables.fresh now) := by
  constructor
  · intro k h
    simp [Tables.fresh] at h
  · intro k v h
    simp [Tables.fresh] at h
  · intro ticket r h
    simp [Tables.fresh] at h

/-- Every stored inode stays, with its type; the rows are the old ones. -/
theorem mono (h : Owned s)
    (hinodes : ∀ id i, s.inodes.get? id = some i →
      ∃ j, t.inodes.get? id = some j ∧ j.fileType = i.fileType)
    (hopened : t.openPresence = s.openPresence) (hxattrs : t.xattrs = s.xattrs)
    (hreservations : t.reservations = s.reservations) : Owned t := by
  constructor
  · intro k hk
    obtain ⟨i, hi, hregular⟩ := h.opened k (hopened ▸ hk)
    obtain ⟨j, hj, htype⟩ := hinodes _ _ hi
    exact ⟨j, hj, htype.trans hregular⟩
  · intro k v hk
    obtain ⟨i, hi⟩ := h.xattrs k v (hxattrs ▸ hk)
    obtain ⟨j, hj, _⟩ := hinodes _ _ hi
    exact ⟨j, hj⟩
  · intro ticket r hr
    obtain ⟨i, hi⟩ := h.reservations ticket r (hreservations ▸ hr)
    obtain ⟨j, hj, _⟩ := hinodes _ _ hi
    exact ⟨j, hj⟩

theorem putInode (h : Owned s) {i old : Inode} (hold : s.inodes.get? i.id = some old)
    (htype : i.fileType = old.fileType) : Owned (s.putInode i) := by
  refine h.mono (fun id j hj => ?_) rfl rfl rfl
  rw [Tables.get_putInode]
  split
  · rename_i heq
    subst heq
    rw [hold, Option.some.injEq] at hj
    exact ⟨i, rfl, htype.trans (congrArg Inode.fileType hj)⟩
  · exact ⟨j, hj, rfl⟩

theorem addInode (h : Owned s) (hgrounded : Grounded s) {i : Inode} (hid : i.id = s.nextInode) :
    Owned (s.addInode i) := by
  refine h.mono (fun id j hj => ?_) rfl rfl rfl
  rw [Tables.addInode, Tables.get_putInode, if_neg]
  · exact ⟨j, hj, rfl⟩
  · rintro rfl
    have hlt := hgrounded.below _ _ hj
    rw [hid] at hlt
    exact Nat.lt_irrefl _ hlt

theorem deleteInode (h : Owned s) (gone : InodeId) : Owned (s.deleteInode gone) := by
  have hget : ∀ id, id ≠ gone → (s.deleteInode gone).inodes.get? id = s.inodes.get? id := by
    intro id hne
    rw [Tables.get_deleteInode, if_neg (Ne.symm hne)]
  constructor
  · intro k hk
    rw [openPresence_deleteInode] at hk
    split at hk
    · cases hk
    · rename_i hne
      rw [hget _ hne]
      exact h.opened k hk
  · intro k v hk
    rw [xattrs_deleteInode] at hk
    split at hk
    · cases hk
    · rename_i hne
      rw [hget _ hne]
      exact h.xattrs k v hk
  · intro ticket r hr
    rw [Tables.get_reservations_deleteInode, Option.filter_eq_some_iff, decide_eq_true_eq] at hr
    rw [hget _ hr.2]
    exact h.reservations ticket r hr.1

/-- Every edit of a request whose image, if any, keeps the type of the record. -/
theorem edit {now : Clock} {op : MetaOp} {s₀ : Tables} (hraw : op.isRaw = false)
    (himage : op.keepsLinks s₀ = true) (hgrounded : Grounded s) (h : Owned s)
    (e : Edit now op s₀.LinkFault True s₀.inodes s t) : Owned t := by
  cases e with
  | aside | skipInode | eraseEntry | addManifest | removeManifests | tombstone
  | updateTombstone | dropTombstone => exact ⟨h.opened, h.xattrs, h.reservations⟩
  | raw hop =>
    rw [hop] at hraw
    cases hraw
  | touch hold hnew =>
    rw [hnew]
    exact h.putInode hold rfl
  | addEntry _ _ hborn =>
    have hadded := h.addInode hgrounded hborn.id_eq
    exact ⟨hadded.opened, hadded.xattrs, hadded.reservations⟩
  | addOrphan _ _ hborn => exact h.addInode hgrounded hborn.id_eq
  | @linkEntry k source _ _ hsource =>
    have hput : Owned (s.putInode { source with
        linkCount := source.linkCount + 1
        generation := saturatingAdd source.generation 1
        ctimeMs := now.inode }) := h.putInode hsource rfl
    exact ⟨hput.opened, hput.xattrs, hput.reservations⟩
  | @unlinkEntry k child _ hchild =>
    have herased : Owned (s.eraseDentry k) := ⟨h.opened, h.xattrs, h.reservations⟩
    exact herased.putInode hchild rfl
  | @reapEntry k | @removeDir k =>
    have herased : Owned (s.eraseDentry k) := ⟨h.opened, h.xattrs, h.reservations⟩
    exact herased.deleteInode _
  | @moveEntry oldKey newKey source _ _ _ hsource =>
    have hmoved : Owned ((s.eraseDentry oldKey).putDentry newKey source.id) :=
      ⟨h.opened, h.xattrs, h.reservations⟩
    exact hmoved.putInode hsource rfl
  | @openPresence k i hstored hregular =>
    refine ⟨fun a ha => ?_, h.xattrs, h.reservations⟩
    rw [Table.get_insert] at ha
    split at ha
    · rename_i heq
      exact ⟨i, heq ▸ hstored, hregular⟩
    · exact h.opened a ha
  | closePresence =>
    apply reapAll_keep
    · intro s id _ hs _ _ _
      exact hs.deleteInode id
    · refine ⟨fun a ha => ?_, h.xattrs, h.reservations⟩
      rw [Table.get_eraseAll] at ha
      split at ha
      · cases ha
      · exact h.opened a ha
  | @putXattr k value i hstored =>
    refine ⟨h.opened, fun a v ha => ?_, h.reservations⟩
    rw [Table.get_insert] at ha
    split at ha
    · rename_i heq
      exact ⟨i, heq ▸ hstored⟩
    · exact h.xattrs a v ha
  | eraseXattr k =>
    refine ⟨h.opened, fun a v ha => ?_, h.reservations⟩
    rw [Table.get_erase] at ha
    split at ha
    · cases ha
    · exact h.xattrs a v ha
  | @commitImage expected image current manifest hop _ hcurrent hgen hstart =>
    have hadded : Owned (s.addManifest manifest) := ⟨h.opened, h.xattrs, h.reservations⟩
    exact hadded.putInode hcurrent (keepsLinks_commit himage hop hstart hgen).2
  | beginFlush hstored => exact h.putInode hstored rfl
  | publishFlush _ hstored => exact h.putInode hstored rfl
  | failFlush _ hstored => exact h.putInode hstored rfl
  | @reserve row i _ _ hstored =>
    refine ⟨h.opened, h.xattrs, fun ticket r' hr' => ?_⟩
    rw [Keyed.get?_put] at hr'
    split at hr'
    · cases hr'
      exact ⟨i, hstored⟩
    · exact h.reservations ticket r' hr'
  | dropReservations tickets =>
    refine ⟨h.opened, h.xattrs, fun ticket r' hr' => ?_⟩
    rw [Tables.dropReservations, Keyed.get?_deleteAll] at hr'
    split at hr'
    · cases hr'
    · exact h.reservations ticket r' hr'

/-- A presence row leaves only with a request that takes it back. -/
theorem row_edit {now : Clock} {op : MetaOp} {faulty records : Prop} {start : Keyed Inode.id} {k : NameKey}
    (hkeep : op.closes k = false) (h : Owned s) (hrow : s.openPresence[k]? = some ())
    (e : Edit now op faulty records start s t) : t.openPresence[k]? = some () := by
  have hopen : s.hasOpenPresence k.owner = true := Tables.hasOpenPresence_iff.mpr ⟨k.name, hrow⟩
  cases e with
  | @reapEntry _ child _ _ _ _ hclosed =>
    refine (openPresence_deleteInode ..).trans ((if_neg ?_).trans hrow)
    intro heq
    rw [heq, hclosed] at hopen
    cases hopen
  | @removeDir _ child _ hchild hdir =>
    refine (openPresence_deleteInode ..).trans ((if_neg ?_).trans hrow)
    -- only regular files have rows
    intro heq
    obtain ⟨i, hi, hregular⟩ := h.opened k hrow
    rw [heq, hchild, Option.some.injEq] at hi
    rw [← hi, hdir] at hregular
    cases hregular
  | @openPresence opened =>
    refine (Table.get_insert ..).trans ?_
    split
    · rfl
    · exact hrow
  | @closePresence keys ids hids hop =>
    apply reapAll_keep (P := fun s => s.openPresence[k]? = some ())
    · intro a id i ha _ _ hclosed
      refine (openPresence_deleteInode ..).trans ((if_neg ?_).trans ha)
      rintro rfl
      rw [hasOpenPresence_eq_false.mp hclosed k.name] at ha
      cases ha
    · refine (Table.get_eraseAll ..).trans ((if_neg ?_).trans hrow)
      intro hk
      rw [hop k hk] at hkeep
      cases hkeep
  | _ => exact hrow

end Owned

/-! ## Orphans -/

section
variable {s t : Tables} {id : InodeId}

/-- No orphan appears when presence rows only grow and a stored inode with link
count zero was stored with link count zero before. -/
theorem orphan_mono (h : t.Orphan id)
    (hrows : ∀ session, t.openPresence[NameKey.mk id session]? = none →
      s.openPresence[NameKey.mk id session]? = none)
    (hinodes : ∀ i, t.inodes.get? id = some i → i.linkCount = 0 →
      ∃ j, s.inodes.get? id = some j ∧ j.linkCount = 0) : s.Orphan id := by
  obtain ⟨i, hi, hzero, hclosed⟩ := h
  obtain ⟨j, hj, hjzero⟩ := hinodes i hi hzero
  refine ⟨j, hj, hjzero, ?_⟩
  rw [hasOpenPresence_eq_false] at hclosed ⊢
  exact fun session => hrows session (hclosed session)

/-- A rewritten record. -/
theorem orphan_of_put {i old : Inode} (h : t.Orphan id) (hinodes : t.inodes = s.inodes.put i)
    (hrows : t.openPresence = s.openPresence) (hold : s.inodes.get? i.id = some old)
    (hlinks : i.linkCount = 0 → old.linkCount = 0) : s.Orphan id := by
  refine orphan_mono h (fun _ hrow => hrows ▸ hrow) (fun j hj hzero => ?_)
  rw [hinodes, Keyed.get?_put] at hj
  split at hj
  · rename_i heq
    cases hj
    exact ⟨old, heq ▸ hold, hlinks hzero⟩
  · exact ⟨j, hj, hzero⟩

/-- A new inode is linked. -/
theorem orphan_of_add {i : Inode} (h : t.Orphan id) (hinodes : t.inodes = s.inodes.put i)
    (hrows : t.openPresence = s.openPresence) (hlinks : i.linkCount ≠ 0) : s.Orphan id := by
  refine orphan_mono h (fun _ hrow => hrows ▸ hrow) (fun j hj hzero => ?_)
  rw [hinodes, Keyed.get?_put] at hj
  split at hj
  · cases hj
    exact absurd hzero hlinks
  · exact ⟨j, hj, hzero⟩

/-- An orphan after an edit of an orderly request was one before. -/
theorem orphan_of_edit {r : MetaRequest} {s₀ : Tables} (horderly : Orderly s₀ r)
    (e : Edit r.now r.req.op s₀.LinkFault True s₀.inodes s t) (h : t.Orphan id) : s.Orphan id := by
  have hborn : ∀ {i : Inode}, Born r.now r.req.op s i → i.linkCount ≠ 0 := by
    intro i hborn
    rw [Tree.linkCount_of_born hborn horderly.template]
    split
    · decide
    · decide
  cases e with
  | aside | skipInode | eraseEntry | addManifest | removeManifests | reserve | dropReservations
  | tombstone | updateTombstone | dropTombstone | putXattr | eraseXattr => exact h
  | raw hop =>
    have hraw := horderly.notRaw
    rw [hop] at hraw
    cases hraw
  | touch hold hnew =>
    rw [hnew] at h
    exact orphan_of_put h rfl rfl hold (fun hzero => hzero)
  | addEntry _ _ hnew => exact orphan_of_add h rfl rfl (hborn hnew)
  | addOrphan _ _ hnew => exact orphan_of_add h rfl rfl (hborn hnew)
  | linkEntry _ _ hsource =>
    refine orphan_of_put h rfl rfl hsource (fun hzero => ?_)
    exact absurd hzero (Nat.succ_ne_zero _)
  | @unlinkEntry k child hentry hchild hfile hlinked hgen hkeep =>
    -- the file keeps a link or a presence row
    refine orphan_mono h (fun _ hrow => hrow) (fun j hj hzero => ?_)
    rw [Tables.get_putInode] at hj
    split at hj
    · rename_i heq
      cases hj
      rcases hkeep with hlinks | hopen
      · exact absurd hzero hlinks
      · obtain ⟨_, _, _, hclosed⟩ := h
        have hclosed' : s.hasOpenPresence id = false := hclosed
        rw [← heq, dropLink_id, hopen] at hclosed'
        cases hclosed'
    · exact ⟨j, hj, hzero⟩
  | reapEntry | removeDir => exact (orphan_of_deleteInode h).2
  | moveEntry _ _ _ hsource => exact orphan_of_put h rfl rfl hsource (fun hzero => hzero)
  | openPresence =>
    refine orphan_mono h (fun session hrow => ?_) (fun j hj hzero => ⟨j, hj, hzero⟩)
    rw [Table.get_insert] at hrow
    split at hrow
    · cases hrow
    · exact hrow
  | @closePresence keys ids hids =>
    obtain ⟨hunseen, hclosed⟩ := orphan_of_reapAll h
    refine orphan_mono hclosed (fun session hrow => ?_) (fun j hj hzero => ⟨j, hj, hzero⟩)
    rw [Table.get_eraseAll] at hrow
    split at hrow
    · rename_i hkey
      exact absurd (hids _ hkey) hunseen
    · exact hrow
  | commitImage hop _ hcurrent hgen hstart =>
    obtain ⟨hlinks, _⟩ := keepsLinks_commit horderly.image hop hstart hgen
    exact orphan_of_put h rfl rfl hcurrent (fun hzero => hlinks.symm.trans hzero)
  | beginFlush hstored => exact orphan_of_put h rfl rfl hstored (fun hzero => hzero)
  | publishFlush _ hstored => exact orphan_of_put h rfl rfl hstored (fun hzero => hzero)
  | failFlush _ hstored => exact orphan_of_put h rfl rfl hstored (fun hzero => hzero)

/-! ## An unlinked inode stays unlinked -/

/-- `id` has been given out, and its inode is gone or has no link. -/
def Tables.Unlinked (s : Tables) (id : InodeId) : Prop :=
  id < s.nextInode ∧ ∀ i, s.inodes.get? id = some i → i.linkCount = 0

theorem unlinked_put {i old : Inode} (h : s.Unlinked id) (hinodes : t.inodes = s.inodes.put i)
    (hnext : t.nextInode = s.nextInode) (hold : s.inodes.get? i.id = some old)
    (hlinks : old.linkCount = 0 → i.linkCount = 0) : t.Unlinked id := by
  refine ⟨hnext ▸ h.1, fun j hj => ?_⟩
  rw [hinodes, Keyed.get?_put] at hj
  split at hj
  · rename_i heq
    cases hj
    exact hlinks (h.2 old (heq ▸ hold))
  · exact h.2 j hj

theorem unlinked_deleteInode (h : s.Unlinked id) (gone : InodeId) :
    (s.deleteInode gone).Unlinked id :=
  ⟨h.1, fun i hi => h.2 i (Tables.of_get_deleteInode hi).2⟩

theorem unlinked_addInode (h : s.Unlinked id) {i : Inode} (hid : i.id = s.nextInode) :
    (s.addInode i).Unlinked id := by
  refine ⟨Nat.lt_succ_of_lt h.1, fun j hj => ?_⟩
  rw [Tables.addInode, Tables.get_putInode, if_neg] at hj
  · exact h.2 j hj
  · rw [hid]
    exact (Nat.ne_of_lt h.1).symm

theorem unlinked_edit {r : MetaRequest} {s₀ : Tables} (horderly : Orderly s₀ r)
    (h : s.Unlinked id) (e : Edit r.now r.req.op s₀.LinkFault True s₀.inodes s t) : t.Unlinked id := by
  cases e with
  | aside | eraseEntry | addManifest | removeManifests | reserve | dropReservations | tombstone
  | updateTombstone | dropTombstone | putXattr | eraseXattr | openPresence => exact h
  | skipInode => exact ⟨Nat.lt_succ_of_lt h.1, h.2⟩
  | raw hop =>
    have hraw := horderly.notRaw
    rw [hop] at hraw
    cases hraw
  | touch hold hnew =>
    rw [hnew]
    exact unlinked_put h rfl rfl hold (fun hzero => hzero)
  | addEntry _ _ hborn => exact unlinked_addInode h hborn.id_eq
  | addOrphan _ _ hborn => exact unlinked_addInode h hborn.id_eq
  | linkEntry _ _ hsource _ hlinked =>
    exact unlinked_put h rfl rfl hsource (fun hzero => absurd hzero hlinked)
  | unlinkEntry _ hchild _ hlinked =>
    exact unlinked_put h rfl rfl hchild (fun hzero => absurd hzero hlinked)
  | reapEntry | removeDir => exact unlinked_deleteInode (s := s.eraseDentry _) h _
  | moveEntry _ _ _ hsource =>
    exact unlinked_put h rfl rfl hsource (fun hzero => hzero)
  | closePresence =>
    apply reapAll_keep (P := fun s => s.Unlinked id)
    · intro s gone _ hs _ _ _
      exact unlinked_deleteInode hs gone
    · exact h
  | commitImage hop _ hcurrent hgen hstart =>
    obtain ⟨hlinks, _⟩ := keepsLinks_commit horderly.image hop hstart hgen
    exact unlinked_put h rfl rfl hcurrent (fun hzero => hlinks.trans hzero)
  | beginFlush hstored => exact unlinked_put h rfl rfl hstored (fun hzero => hzero)
  | publishFlush _ hstored => exact unlinked_put h rfl rfl hstored (fun hzero => hzero)
  | failFlush _ hstored => exact unlinked_put h rfl rfl hstored (fun hzero => hzero)

end

/-! ## The lifetime in every run -/

theorem Lifetime.request {s : Tables} {r : MetaRequest} (horderly : Orderly s r) (htree : Tree s)
    (h : Lifetime s) : Lifetime (applyRaftRequest r.now r.req s).2 := by
  have hedits := applyRaftRequest_edits htree.grounded.noSelf r.now r.req
  have hkeep : Grounded (applyRaftRequest r.now r.req s).2 ∧
      Lifetime (applyRaftRequest r.now r.req s).2 := by
    refine edits_keep (P := fun a => Grounded a ∧ Lifetime a) (fun a b hab e => ?_) hedits
      ⟨htree.grounded, h⟩
    refine ⟨hab.1.edit horderly.notRaw e, hab.2.owned.edit horderly.notRaw horderly.image hab.1 e,
      fun id horphan => ?_⟩
    exact hab.2.noOrphan id (orphan_of_edit horderly e horphan)
  exact hkeep.2

theorem tree_and_lifetime_of_run {start : Int} {requests : List MetaRequest} {s : Tables}
    (horderly : Along metaStep Orderly (Tables.fresh start) requests)
    (hrun : exec metaStep (Tables.fresh start) requests = some s) : Tree s ∧ Lifetime s := by
  have hfresh : Lifetime (Tables.fresh start) := by
    refine ⟨Owned.fresh start, ?_⟩
    rintro id ⟨i, hi, hzero, _⟩
    rw [(Tables.of_get_fresh hi).2] at hzero
    simp [newInode] at hzero
  refine exec_invariant_along (I := fun s => Tree s ∧ Lifetime s) (fun a r b ha hr hb => ?_)
    requests _ s ⟨Tree.fresh start, hfresh⟩ horderly hrun
  cases hb
  exact ⟨ha.1.request hr, ha.2.request hr ha.1⟩

/-- In every run of orderly requests: an inode without entries is stored with
link count zero exactly when some session has a presence row for it, and no
inode with link count zero is without such a row; presence rows are rows of
stored regular files; and a request after which an unlinked inode has no
presence row left has also removed the inode, its attributes and its
reservations. -/
theorem open_unlink_lifetime (start : Int) (requests : List MetaRequest) (s : Tables)
    (horderly : Along metaStep Orderly (Tables.fresh start) requests)
    (hrun : exec metaStep (Tables.fresh start) requests = some s) :
    (∀ id i, s.inodes.get? id = some i → i.linkCount = 0 →
      ∃ session, s.openPresence[NameKey.mk id session]? = some ()) ∧
    (∀ id, (∀ k : NameKey, s.dentries[k]? ≠ some id) →
      ((∃ i, s.inodes.get? id = some i ∧ i.linkCount = 0) ↔
        ∃ session, s.openPresence[NameKey.mk id session]? = some ())) ∧
    (∀ id session, s.openPresence[NameKey.mk id session]? = some () →
      ∃ i, s.inodes.get? id = some i ∧ i.fileType = .regular) ∧
    (∀ (r : MetaRequest) id i t, Orderly s r → metaStep s r = some t →
      s.inodes.get? id = some i → i.linkCount = 0 →
      (∀ session, t.openPresence[NameKey.mk id session]? = none) →
      t.inodes.get? id = none ∧ (∀ name, t.xattrs[NameKey.mk id name]? = none) ∧
        ∀ ticket reservation, t.reservations.get? ticket = some reservation →
          reservation.inode ≠ id) := by
  obtain ⟨htree, hlife⟩ := tree_and_lifetime_of_run horderly hrun
  have hrow : ∀ {s : Tables}, Lifetime s → ∀ {id i}, s.inodes.get? id = some i → i.linkCount = 0 →
      ∃ session, s.openPresence[NameKey.mk id session]? = some () := by
    intro s hlife id i hi hzero
    rw [← Tables.hasOpenPresence_iff, ← Bool.not_eq_false]
    exact fun hclosed => hlife.noOrphan id ⟨i, hi, hzero, hclosed⟩
  have hopened : ∀ id session, s.openPresence[NameKey.mk id session]? = some () →
      ∃ i, s.inodes.get? id = some i ∧ i.fileType = .regular :=
    fun id session hk => hlife.owned.opened ⟨id, session⟩ hk
  refine ⟨fun id i hi hzero => hrow hlife hi hzero, fun id hnone => ⟨?_, ?_⟩, hopened, ?_⟩
  · rintro ⟨i, hi, hzero⟩
    exact hrow hlife hi hzero
  · rintro ⟨session, hk⟩
    obtain ⟨i, hi, hregular⟩ := hopened id session hk
    obtain rfl : i.id = id := Keyed.key_of_get? hi
    refine ⟨i, hi, ?_⟩
    have hcount := (htree.entries_of_file hi (by rw [hregular]; decide)).2
    rw [← hcount, ← Nat.le_zero, ← Nat.not_lt]
    intro hpos
    obtain ⟨k, hk⟩ := Table.countOf_pos.mp hpos
    exact hnone k hk
  · intro r id i t hr ht hi hzero hclosed
    cases ht
    have hafter := hlife.request hr htree
    have hunlinked : (applyRaftRequest r.now r.req s).2.Unlinked id := by
      apply request_keep (P := fun s => s.Unlinked id) htree.grounded
      · intro a b ha e
        exact unlinked_edit hr ha e
      · refine ⟨htree.grounded.below id i hi, fun j hj => ?_⟩
        rw [hi, Option.some.injEq] at hj
        rw [← hj]
        exact hzero
    have hgone : (applyRaftRequest r.now r.req s).2.inodes.get? id = none := by
      cases hj : (applyRaftRequest r.now r.req s).2.inodes.get? id with
      | none => rfl
      | some j =>
        obtain ⟨session, hk⟩ := hrow hafter hj (hunlinked.2 j hj)
        rw [hclosed session] at hk
        cases hk
    refine ⟨hgone, fun name => ?_, fun ticket reservation hreserved heq => ?_⟩
    · cases hx : (applyRaftRequest r.now r.req s).2.xattrs[NameKey.mk id name]? with
      | none => rfl
      | some v =>
        obtain ⟨j, hj⟩ := hafter.owned.xattrs ⟨id, name⟩ v hx
        have hstored : (applyRaftRequest r.now r.req s).2.inodes.get? id = some j := hj
        rw [hgone] at hstored
        cases hstored
    · obtain ⟨j, hj⟩ := hafter.owned.reservations ticket reservation hreserved
      rw [heq, hgone] at hj
      cases hj

/-- A file opened by two sessions, unlinked, and closed by one of them. -/
def sampleLifetimeRun : List MetaRequest :=
  [⟨1, none, 0, .create rootInode "f" .regular 0o644 0 0 none⟩,
    ⟨2, none, 0, .openInode "one" 2⟩,
    ⟨3, none, 0, .openInode "two" 2⟩,
    ⟨4, none, 0, .setXattr 1 2 "user.k" [7] .upsert⟩,
    ⟨5, none, 0, .unlink rootInode "f" none⟩,
    ⟨6, none, 0, .closeInode "one" 2⟩]

/-- The file is still there, and the second close takes it and its attribute. -/
theorem open_unlink_lifetime_sampleLifetimeRun :
    ((runMeta (Tables.fresh 0) sampleLifetimeRun).inodes.get? 2).isSome ∧
      (runMeta (Tables.fresh 0) sampleLifetimeRun).xattrs[NameKey.mk 2 "user.k"]? = some [7] ∧
      (runMeta (Tables.fresh 0) (sampleLifetimeRun ++
        [⟨7, none, 0, .closeInode "two" 2⟩])).inodes.get? 2 = none := by
  have horderly : Along metaStep Orderly (Tables.fresh 0) sampleLifetimeRun := by decide +kernel
  obtain ⟨_, _, _, hlast⟩ := open_unlink_lifetime 0 sampleLifetimeRun _ horderly (exec_metaStep _ _)
  have hfile : ∃ i, (runMeta (Tables.fresh 0) sampleLifetimeRun).inodes.get? 2 = some i ∧
      i.linkCount = 0 :=
    ⟨((runMeta (Tables.fresh 0) sampleLifetimeRun).inodes.get? 2).get (by decide +kernel),
      by simp, by decide +kernel⟩
  obtain ⟨i, hi, hzero⟩ := hfile
  refine ⟨by rw [hi]; rfl, by decide +kernel, ?_⟩
  refine (hlast ⟨7, none, 0, .closeInode "two" 2⟩ 2 i _ (by decide +kernel) rfl hi hzero ?_).1
  have hclosed : (runMeta (Tables.fresh 0) (sampleLifetimeRun ++
      [⟨7, none, 0, .closeInode "two" 2⟩])).hasOpenPresence 2 = false := by decide +kernel
  exact hasOpenPresence_eq_false.mp hclosed

end FluxFS
