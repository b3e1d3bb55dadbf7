import FluxFS.Client.Images
import FluxFS.Meta.Runs

/-!
# Updates — optimistic concurrency on inode records

A client reads a record, computes an image of it one generation on, and
submits the image with the generation it read. Every change of a record, by
whatever request, takes its generation up by one, so a generation identifies
a record: an image that is accepted was computed from the record it replaces.
-/

namespace FluxFS

open Std Kit

/-- The generation and image of a request that replaces a record by an image. -/
def MetaOp.image? : MetaOp → Option (Generation × Inode)
  | .putInodeCas expected inode => some (expected, inode)
  | .commitInodeManifest expected inode _ => some (expected, inode)
  | .commitInodeManifestReserved _ expected inode _ => some (expected, inode)
  | _ => none

theorem image_of_commit {op : MetaOp} {expected : Generation} {image : Inode} {manifest : Manifest}
    (h : op.commit? = some (expected, image, manifest)) : op.image? = some (expected, image) := by
  cases op with
  | commitInodeManifest | commitInodeManifestReserved =>
    cases h
    rfl
  | _ => cases h

/-- An image the request commits is one generation on from the one it expects. -/
def MetaOp.AdvancesOnce (op : MetaOp) : Prop :=
  ∀ expected image manifest, op.commit? = some (expected, image, manifest) →
    image.generation = expected + 1

/-- Every stored generation can still advance. -/
def Tables.GenerationsBelowMax (s : Tables) : Prop := ∀ i ∈ s.inodes.rows, i.generation < u64Max

instance (s : Tables) : Decidable s.GenerationsBelowMax :=
  inferInstanceAs (Decidable (∀ i ∈ s.inodes.rows, _))

theorem Tables.GenerationsBelowMax.get {s : Tables} (h : s.GenerationsBelowMax) {id : InodeId}
    {i : Inode} (hi : s.inodes.get? id = some i) : i.generation < u64Max :=
  h i (Keyed.mem_rows_of_get? hi)

/-! ## One edit -/

section
variable {now : Clock} {op : MetaOp} {faulty records : Prop} {start : Keyed Inode.id} {s t : Tables}
  {id : InodeId} {j : Inode}

/-- The record under `id` after a change: the same, one generation on, or new. -/
def RecordAfter (s : Tables) (id : InodeId) (j : Inode) : Prop :=
  s.inodes.get? id = some j ∨
    (∃ i, s.inodes.get? id = some i ∧ j.generation = saturatingAdd i.generation 1) ∨
    s.nextInode ≤ id

theorem recordAfter_put {new old : Inode} (hj : t.inodes.get? id = some j)
    (hinodes : t.inodes = s.inodes.put new) (hold : s.inodes.get? new.id = some old)
    (hgen : new.generation = saturatingAdd old.generation 1) : RecordAfter s id j := by
  rw [hinodes, Keyed.get?_put] at hj
  split at hj
  · rename_i heq
    cases hj
    exact .inr (.inl ⟨old, heq ▸ hold, hgen⟩)
  · exact .inl hj

theorem recordAfter_add {new : Inode} (hj : t.inodes.get? id = some j)
    (hinodes : t.inodes = s.inodes.put new) (hid : new.id = s.nextInode) : RecordAfter s id j := by
  rw [hinodes, Keyed.get?_put] at hj
  split at hj
  · rename_i heq
    exact .inr (.inr (Nat.le_of_eq (hid.symm.trans heq)))
  · exact .inl hj

/-- Reaping changes no record that it leaves. -/
theorem of_get_reapAll {ids : List InodeId}
    (hj : (ids.foldl reapUnlinkedInodeIfUnopened s).inodes.get? id = some j) :
    s.inodes.get? id = some j := by
  have hkeep : ∀ i, (ids.foldl reapUnlinkedInodeIfUnopened s).inodes.get? id = some i →
      s.inodes.get? id = some i := by
    apply reapAll_keep (P := fun a => ∀ i, a.inodes.get? id = some i → s.inodes.get? id = some i)
    · intro a gone _ ha _ _ _ i hi
      exact ha i (Tables.of_get_deleteInode hi).2
    · exact fun i hi => hi
  exact hkeep j hj

theorem recordAfter_edit (hraw : op.isRaw = false)
    (hnext : op.AdvancesOnce)
    (hstart : ∀ i, start.get? id = some i → i.generation < u64Max)
    (e : Edit now op faulty records start s t) (hj : t.inodes.get? id = some j) : RecordAfter s id j := by
  cases e with
  | aside | skipInode | eraseEntry | addManifest | removeManifests | reserve | dropReservations
  | tombstone | updateTombstone | dropTombstone | putXattr | eraseXattr | openPresence =>
    exact .inl hj
  | raw hop =>
    rw [hop] at hraw
    cases hraw
  | touch hold hnew =>
    rw [hnew] at hj
    exact recordAfter_put hj rfl hold rfl
  | addEntry _ _ hborn => exact recordAfter_add hj rfl hborn.id_eq
  | addOrphan _ _ hborn => exact recordAfter_add hj rfl hborn.id_eq
  | linkEntry _ _ hsource => exact recordAfter_put hj rfl hsource rfl
  | unlinkEntry _ hchild _ _ hgen =>
    exact recordAfter_put hj rfl hchild (saturatingAdd_of_lt hgen).symm
  | reapEntry | removeDir => exact .inl (Tables.of_get_deleteInode hj).2
  | moveEntry _ _ _ hsource => exact recordAfter_put hj rfl hsource rfl
  | closePresence =>
    have hkept := of_get_reapAll hj
    exact .inl hkept
  | @commitImage expected image current manifest hop _ hcurrent hgen hstarted =>
    rw [Tables.get_putInode] at hj
    split at hj
    · rename_i heq
      cases hj
      subst heq
      refine .inr (.inl ⟨current, hcurrent, ?_⟩)
      rw [saturatingAdd_of_lt (hstart current hstarted), hgen]
      exact hnext expected image manifest hop
    · exact .inl hj
  | beginFlush hstored => exact recordAfter_put hj rfl hstored rfl
  | publishFlush _ hstored => exact recordAfter_put hj rfl hstored rfl
  | failFlush _ hstored => exact recordAfter_put hj rfl hstored rfl

end

/-! ## One request -/

/-- `j` is `i` or a later record of the same inode. -/
def Later (i j : Inode) : Prop := j = i ∨ (i.generation < j.generation ∧ j.generation ≤ u64Max)

/-- The inode `id` after a request, relative to the record `i` before it. -/
def Follows (i : Inode) (id : InodeId) (t : Tables) : Prop :=
  id < t.nextInode ∧ ∀ j, t.inodes.get? id = some j → Later i j

theorem nextInode_edit {now : Clock} {op : MetaOp} {faulty records : Prop} {start : Keyed Inode.id}
    {s t : Tables} (e : Edit now op faulty records start s t) : s.nextInode ≤ t.nextInode := by
  cases e with
  | skipInode => exact Nat.le_succ _
  | addEntry => exact Nat.le_succ _
  | addOrphan => exact Nat.le_succ _
  | closePresence =>
    apply reapAll_keep (P := fun a => s.nextInode ≤ a.nextInode)
    · intro a _ _ ha _ _ _
      exact ha
    · exact Nat.le_refl _
  | _ => exact Nat.le_refl _

/-- A request leaves each record, deletes it, or takes its generation up. -/
theorem follows_request {r : MetaRequest} {s : Tables} (hs : Grounded s)
    (hraw : r.req.op.isRaw = false) (hnext : r.req.op.AdvancesOnce)
    (hmax : s.GenerationsBelowMax) {id : InodeId} {i : Inode} (hi : i.generation < u64Max)
    (h : Follows i id s) : Follows i id (applyRaftRequest r.now r.req s).2 := by
  apply request_keep (P := Follows i id) hs _ h
  rintro a b ⟨hlt, ha⟩ e
  refine ⟨Nat.lt_of_lt_of_le hlt (nextInode_edit e), fun k hk => ?_⟩
  rcases recordAfter_edit hraw hnext (fun _ => hmax.get) e hk with hsame | ⟨l, hl, hgen⟩ | hnew
  · exact ha k hsame
  · -- one generation on from a record that is `i` or later
    right
    rcases ha l hl with rfl | ⟨hil, hle⟩
    · rw [hgen, saturatingAdd_of_lt hi]
      exact ⟨Nat.lt_succ_self _, hi⟩
    · rw [hgen]
      exact ⟨Nat.lt_of_lt_of_le hil (le_saturatingAdd hle), saturatingAdd_le_max _ _⟩
  · exact absurd hnew (Nat.not_le.mpr hlt)

theorem follows_of_stored {s : Tables} (hs : Grounded s) {id : InodeId} {i : Inode}
    (hi : s.inodes.get? id = some i) : Follows i id s := by
  refine ⟨hs.below id i hi, fun j hj => .inl ?_⟩
  rw [hi, Option.some.injEq] at hj
  exact hj.symm

/-! ## Accepted images -/

/-- An outcome that is only good when the stored record has the generation the
image was computed for. -/
def Checked {β : Type} (s : Tables) (id : InodeId) (expected : Generation)
    (o : Except FluxError β × Tables) : Prop :=
  ∀ b, o.1 = .ok b → ∃ current, s.inodes.get? id = some current ∧ current.generation = expected

section
variable {s : Tables} {id : InodeId} {expected : Generation} {image : Inode} {manifest : Manifest}
  {β : Type}

theorem checked_error (e : FluxError) (t : Tables) :
    Checked s id expected ((.error e, t) : Except FluxError β × Tables) := by
  intro b h
  cases h

theorem checked_getInode {f : Inode → Unit → MetaTxn β} :
    Checked s id expected ((do let current ← getInodeRaw id
                               let u ← checkGeneration current expected
                               f current u) s) := by
  refine outcome_getInodeRaw (fun e => checked_error e s) fun i hi => ?_
  refine outcome_checkGeneration (fun e => checked_error e s) fun hgen => ?_
  exact fun _ _ => ⟨i, hi, hgen⟩

theorem checked_bind {α : Type} {x : MetaTxn α} {f : α → MetaTxn β}
    (h : Checked s id expected (x s)) : Checked s id expected ((x >>= f) s) := by
  refine Txn.outcome_bind (fun e t _ => checked_error e t) fun a t hrun b _ => ?_
  exact h a (by rw [hrun])

theorem checked_commit :
    Checked s image.id expected (commitInodeManifestInTxn expected image manifest s) :=
  outcome_guard (fun e => checked_error e s) fun _ => checked_getInode

theorem checked_performOp {now : Clock} {op : MetaOp} (hop : op.image? = some (expected, image)) :
    Checked s image.id expected (performOp now op s) := by
  cases op with
  | putInodeCas g inode =>
    cases hop
    exact checked_bind checked_getInode
  | commitInodeManifest g inode manifest =>
    cases hop
    exact checked_bind (outcome_guard (fun e => checked_error e s) fun _ => checked_commit)
  | commitInodeManifestReserved ticket g inode manifest =>
    cases hop
    apply checked_bind
    refine Txn.outcome_query (fun e _ => checked_error e s) fun r _ => ?_
    refine outcome_guard (fun e => checked_error e s) fun _ => ?_
    refine outcome_guard (fun e => checked_error e s) fun _ => ?_
    exact checked_bind checked_commit
  | _ => cases hop

/-- An image that a request is seen to install replaces a record of the
generation it was computed for. -/
theorem current_of_accepted {now : Clock} {req : MetaRaftRequest} {next : Inode}
    (hop : req.op.image? = some (expected, image)) (hexec : req.executes s = true)
    (hresponse : (applyRaftRequest now req s).1 = .inode next) :
    ∃ current, s.inodes.get? image.id = some current ∧ current.generation = expected := by
  obtain ⟨before, _, hanswer, _⟩ := applyRaftRequest_of_executes now hexec
  rw [hresponse] at hanswer
  cases hresult : (performOp now req.op { s with clientRequests := before }).1 with
  | error e =>
    rw [hresult] at hanswer
    cases hanswer
  | ok response =>
    exact checked_performOp (s := { s with clientRequests := before }) hop response hresult

end

/-! ## Clients -/

/-- The store and every record some client has read from it. -/
structure CasState where
  tables : Tables
  reads : List Inode

/-- A new store and no reads. -/
def CasState.fresh (now : Int) : CasState := ⟨Tables.fresh now, []⟩

/-- A step of clients that read records and send images. -/
inductive CasAction where
  /-- A client reads a record. -/
  | read (id : InodeId)
  /-- A request that carries no image. -/
  | request (r : MetaRequest)
  /-- A request whose image a client computed from `basis`. -/
  | submit (basis : Inode) (r : MetaRequest)

/-- The request carries an image of `basis`, one generation on, and the
generation of `basis`. -/
def MetaOp.DerivedFrom (basis : Inode) (op : MetaOp) : Prop :=
  ∃ image, op.image? = some (basis.generation, image) ∧ image.id = basis.id ∧
    image.generation = basis.generation + 1

instance (basis : Inode) (op : MetaOp) : Decidable (op.DerivedFrom basis) :=
  match h : op.image? with
  | none => .isFalse (by rintro ⟨image, himage, _⟩; rw [h] at himage; cases himage)
  | some (expected, image) =>
    decidable_of_iff (expected = basis.generation ∧ image.id = basis.id ∧
        image.generation = basis.generation + 1) (by
      constructor
      · rintro ⟨rfl, hid, hgen⟩
        exact ⟨image, h, hid, hgen⟩
      · rintro ⟨image', himage, hid, hgen⟩
        rw [h] at himage
        cases himage
        exact ⟨rfl, hid, hgen⟩)

/-- The images of `write_at` and `truncate` are derived from the record read. -/
theorem derivedFrom_dataChange {basis : Inode} {op : MetaOp} {change : DataChange}
    (hlt : basis.generation < u64Max)
    (hop : op.image? = some (basis.generation, change.image basis)) : op.DerivedFrom basis := by
  obtain ⟨hid, hgen, _⟩ := change.image_spec basis
  exact ⟨_, hop, hid, hgen.trans (saturatingAdd_of_lt hlt)⟩

/-- So is the image of `setattr`. -/
theorem derivedFrom_setattr {basis image : Inode} {op : MetaOp} {attrs : InodeSetAttr} {now : Int}
    (hlt : basis.generation < u64Max) (himage : setattrImage basis attrs now = some image)
    (hop : op.image? = some (basis.generation, image)) : op.DerivedFrom basis := by
  obtain ⟨_, heq⟩ := Option.ite_none_right_eq_some.mp himage
  cases heq
  exact ⟨_, hop, rfl, saturatingAdd_of_lt hlt⟩

/-- One action of the store or of a client; any number of clients interleave. -/
def casStep (st : CasState) : CasAction → Option CasState
  | .read id => (st.tables.inodes.get? id).map fun i => { st with reads := i :: st.reads }
  | .request r =>
    if r.req.op.isRaw = false ∧ r.req.op.image? = none then
      some { st with tables := (applyRaftRequest r.now r.req st.tables).2 }
    else none
  | .submit basis r =>
    if basis ∈ st.reads ∧ r.req.op.DerivedFrom basis then
      some { st with tables := (applyRaftRequest r.now r.req st.tables).2 }
    else none

/-- What an action does: a client reads, or a request whose image, if any, is one
generation on is applied. -/
theorem casStep_cases {st st' : CasState} {a : CasAction} (h : casStep st a = some st') :
    (∃ id i, st.tables.inodes.get? id = some i ∧ st' = { st with reads := i :: st.reads }) ∨
      ∃ r : MetaRequest, r.req.op.isRaw = false ∧ r.req.op.AdvancesOnce ∧
        st' = { st with tables := (applyRaftRequest r.now r.req st.tables).2 } := by
  cases a with
  | read id =>
    obtain ⟨i, hi, rfl⟩ := Option.map_eq_some_iff.mp h
    exact .inl ⟨id, i, hi, rfl⟩
  | request r =>
    obtain ⟨⟨hraw, hnone⟩, hst⟩ := Option.ite_none_right_eq_some.mp h
    refine .inr ⟨r, hraw, fun expected image manifest hop => ?_, (Option.some.inj hst).symm⟩
    rw [image_of_commit hop] at hnone
    cases hnone
  | submit basis r =>
    obtain ⟨⟨_, image, himage, _, hgen⟩, hst⟩ := Option.ite_none_right_eq_some.mp h
    refine .inr ⟨r, ?_, fun expected image' manifest hop => ?_, (Option.some.inj hst).symm⟩
    · cases hop : r.req.op with
      | putInode i =>
        rw [hop] at himage
        cases himage
      | _ => rfl
    · have himage' := image_of_commit hop
      rw [himage] at himage'
      cases himage'
      exact hgen

/-- Every record a client has read is the stored one or an earlier one. -/
structure CasInv (st : CasState) : Prop where
  grounded : Grounded st.tables
  known : ∀ basis ∈ st.reads, basis.generation < u64Max ∧ Follows basis basis.id st.tables

/-- Every stored generation is below the maximum when the action is taken. -/
def GenerationsCanAdvance (st : CasState) (_ : CasAction) : Prop := st.tables.GenerationsBelowMax

instance (st : CasState) (a : CasAction) : Decidable (GenerationsCanAdvance st a) :=
  inferInstanceAs (Decidable st.tables.GenerationsBelowMax)

theorem CasInv.fresh (now : Int) : CasInv (CasState.fresh now) := by
  refine ⟨Grounded.fresh now, fun basis hbasis => ?_⟩
  cases hbasis

theorem CasInv.read {st : CasState} (h : CasInv st) (hmax : st.tables.GenerationsBelowMax)
    {id : InodeId} {i : Inode} (hi : st.tables.inodes.get? id = some i) :
    CasInv { st with reads := i :: st.reads } := by
  refine ⟨h.grounded, fun basis hbasis => ?_⟩
  rcases List.mem_cons.mp hbasis with rfl | hold
  · exact ⟨hmax.get hi, follows_of_stored h.grounded (Keyed.get?_of_get? hi)⟩
  · exact h.known basis hold

theorem CasInv.request {st : CasState} (h : CasInv st) (hmax : st.tables.GenerationsBelowMax)
    {r : MetaRequest} (hraw : r.req.op.isRaw = false) (hnext : r.req.op.AdvancesOnce) :
    CasInv { st with tables := (applyRaftRequest r.now r.req st.tables).2 } := by
  refine ⟨h.grounded.request hraw, fun basis hbasis => ?_⟩
  obtain ⟨hlt, hfollows⟩ := h.known basis hbasis
  exact ⟨hlt, follows_request h.grounded hraw hnext hmax hlt hfollows⟩

/-- A record that was read and still has the stored generation is the stored one. -/
theorem CasInv.current {st : CasState} (h : CasInv st) {basis current : Inode}
    (hread : basis ∈ st.reads) (hcurrent : st.tables.inodes.get? basis.id = some current)
    (hgen : current.generation = basis.generation) : current = basis := by
  rcases (h.known basis hread).2.2 current hcurrent with rfl | ⟨hlt, _⟩
  · rfl
  · rw [hgen] at hlt
    exact absurd hlt (Nat.lt_irrefl _)

theorem CasInv.step {st st' : CasState} {a : CasAction} (h : CasInv st)
    (hmax : st.tables.GenerationsBelowMax) (hstep : casStep st a = some st') : CasInv st' := by
  rcases casStep_cases hstep with ⟨id, i, hi, rfl⟩ | ⟨r, hraw, hnext, rfl⟩
  · exact h.read hmax hi
  · exact h.request hmax hraw hnext

theorem follows_step {st st' : CasState} {a : CasAction} (h : CasInv st)
    (hmax : st.tables.GenerationsBelowMax) (hstep : casStep st a = some st') {id : InodeId}
    {i : Inode} (hi : i.generation < u64Max) (hfollows : Follows i id st.tables) :
    Follows i id st'.tables := by
  rcases casStep_cases hstep with ⟨_, _, _, rfl⟩ | ⟨r, hraw, hnext, rfl⟩
  · exact hfollows
  · exact follows_request h.grounded hraw hnext hmax hi hfollows

theorem CasInv.run {start : Int} {actions : List CasAction} {st : CasState}
    (hmax : Along casStep GenerationsCanAdvance (CasState.fresh start) actions)
    (hrun : exec casStep (CasState.fresh start) actions = some st) : CasInv st :=
  exec_invariant_along (fun _ _ _ hst hok hstep => hst.step hok hstep) actions _ st
    (CasInv.fresh start) hmax hrun

/-- For every interleaving of reads, requests and images by any number of
clients, while generations can advance: an accepted image was computed from the
record it replaces; a request that changes a record takes its generation up; and
a record stored at one moment and one stored under the same id at a later moment
with the same generation are the same record. -/
theorem no_lost_update (start : Int) (actions : List CasAction) (st : CasState)
    (hmax : Along casStep GenerationsCanAdvance (CasState.fresh start) actions)
    (hrun : exec casStep (CasState.fresh start) actions = some st)
    (hlast : st.tables.GenerationsBelowMax) :
    (∀ basis (r : MetaRequest) next st', casStep st (.submit basis r) = some st' →
      r.req.executes st.tables = true →
      (applyRaftRequest r.now r.req st.tables).1 = .inode next →
      st.tables.inodes.get? basis.id = some basis) ∧
    (∀ action st' id i j, casStep st action = some st' → st.tables.inodes.get? id = some i →
      st'.tables.inodes.get? id = some j → j ≠ i → i.generation < j.generation) ∧
    (∀ later st' id i j, Along casStep GenerationsCanAdvance st later →
      exec casStep st later = some st' → st.tables.inodes.get? id = some i →
      st'.tables.inodes.get? id = some j → i.generation = j.generation → i = j) := by
  have hinv := CasInv.run hmax hrun
  refine ⟨fun basis r next st' hstep hexec hresponse => ?_,
    fun action st' id i j hstep hi hj hne => ?_, fun later st' id i j hok hlater hi hj hgen => ?_⟩
  · obtain ⟨⟨hread, image, himage, hid, _⟩, _⟩ := Option.ite_none_right_eq_some.mp hstep
    obtain ⟨current, hcurrent, hgen⟩ := current_of_accepted himage hexec hresponse
    rw [hid] at hcurrent
    -- a later record would have a higher generation than the one that was checked
    rw [hcurrent, hinv.current hread hcurrent hgen]
  · have hfollows := follows_step hinv hlast hstep (hlast.get hi)
      (follows_of_stored hinv.grounded hi)
    rcases hfollows.2 j hj with rfl | ⟨hlt, _⟩
    · exact absurd rfl hne
    · exact hlt
  · have hfollows : CasInv st' ∧ Follows i id st'.tables := by
      refine exec_invariant_along (I := fun st => CasInv st ∧ Follows i id st.tables)
        (fun a action b ha hmax hb => ?_) later st st'
        ⟨hinv, follows_of_stored hinv.grounded hi⟩ hok hlater
      exact ⟨ha.1.step hmax hb, follows_step ha.1 hmax hb (hlast.get hi) ha.2⟩
    rcases hfollows.2.2 j hj with rfl | ⟨hlt, _⟩
    · rfl
    · rw [hgen] at hlt
      exact absurd hlt (Nat.lt_irrefl _)

/-- A new file is read, its mode changed by one client, and read again. -/
def sampleCasRun : List CasAction :=
  let file := newInode 2 .regular 0o644 0 0 none 1
  [.request ⟨1, none, 0, .create rootInode "f" .regular 0o644 0 0 none⟩, .read 2,
    .submit file ⟨2, none, 0, .putInodeCas 1 { file with mode := 0o600, generation := 2 }⟩, .read 2]

theorem sampleCasRun_returns :
    (exec casStep (CasState.fresh 0) sampleCasRun).isSome := by decide +kernel

/-- The end of the run. -/
def sampleCasEnd : CasState := Option.get _ sampleCasRun_returns

/-- The record of the second read. -/
def sampleBasis : Inode :=
  { newInode 2 .regular 0o644 0 0 none 1 with mode := 0o600, generation := 2 }

/-- A submission of an image that was read before another was accepted. -/
def sampleSubmit : MetaRequest :=
  ⟨3, none, 0, .putInodeCas 2 { sampleBasis with uid := 5, generation := 3 }⟩

/-- A further change computed from the second read replaces that very record. -/
theorem no_lost_update_sampleCasRun :
    (applyRaftRequest 3 sampleSubmit.req sampleCasEnd.tables).1 =
        .inode { sampleBasis with uid := 5, generation := 3 } ∧
      sampleCasEnd.tables.inodes.get? 2 = some sampleBasis := by
  have hrun := (Option.some_get sampleCasRun_returns).symm
  have hmax : Along casStep GenerationsCanAdvance (CasState.fresh 0) sampleCasRun := by
    decide +kernel
  have hlast : sampleCasEnd.tables.GenerationsBelowMax := by decide +kernel
  have haccepted : (applyRaftRequest 3 sampleSubmit.req sampleCasEnd.tables).1 =
      .inode { sampleBasis with uid := 5, generation := 3 } := by decide +kernel
  have hstep : casStep sampleCasEnd (.submit sampleBasis sampleSubmit) =
      some { sampleCasEnd with
        tables := (applyRaftRequest 3 sampleSubmit.req sampleCasEnd.tables).2 } := by
    have hread : sampleBasis ∈ sampleCasEnd.reads := by decide +kernel
    have hderived : sampleSubmit.req.op.DerivedFrom sampleBasis := by decide +kernel
    rw [casStep, if_pos ⟨hread, hderived⟩]
    rfl
  exact ⟨haccepted, (no_lost_update 0 sampleCasRun sampleCasEnd hmax hrun hlast).1 sampleBasis
    sampleSubmit _ _ hstep (by decide +kernel) haccepted⟩

end FluxFS
