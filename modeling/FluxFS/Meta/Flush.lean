import FluxFS.Meta.Updates

/-!
# Flush — the write-back state of an inode

A flush is announced on the inode record (`flush_intent` and `op_state`), the
file is published to the backing store, and the announcement is taken back
with the outcome. `FlushConsistent` is what the six fields involved say about
each other. Data commits are whole images computed by clients, so it also
rests on an image being computed from the record it replaces.
-/

namespace FluxFS

open Std Kit

/-- The locality fields of a record agree with its intent, its data generations
and its label. -/
structure FlushConsistent (i : Inode) (f : LocalityFields) : Prop where
  fields : i.localityFields = some f
  intent : ∀ intent, i.flushIntent = some intent ↔ f.opState = .flushing intent
  dirty : ∀ intent, i.flushIntent = some intent → f.dataState = .dirty
  snapshot : ∀ intent, i.flushIntent = some intent → i.headGen = intent.snapshotGen
  clean : f.dataState = .ufsClean → i.headGen = i.ufsGen
  backed : f.backingMode = .ephemeral → i.flushIntent = none
  label : i.locality = LocalityLabel.derive f i.headGen i.ufsGen

/-- Every stored record is consistent. -/
def Tables.FlushConsistent (s : Tables) : Prop :=
  ∀ id i, s.inodes.get? id = some i → ∃ f, FluxFS.FlushConsistent i f

/-- An import's template as `commit_external_file` and `commit_external_dir` build
it: clean, without an intent. -/
def MetaOp.templateClean : MetaOp → Bool
  | .importExternal _ _ template _ _ =>
    template.localityFields = some importedLocality && template.headGen = template.ufsGen &&
      template.flushIntent = none
  | _ => true

/-! ## Records -/

section
variable {i j : Inode} {f : LocalityFields} {intent : FlushIntent}

/-- A record without intent whose operation state is none. -/
theorem flushConsistent_idle (hfields : i.localityFields = some f) (hnone : i.flushIntent = none)
    (hop : f.opState = .none) (hclean : f.dataState = .ufsClean → i.headGen = i.ufsGen)
    (hlabel : i.locality = LocalityLabel.derive f i.headGen i.ufsGen) : FlushConsistent i f where
  fields := hfields
  intent intent := by
    rw [hnone, hop]
    constructor
    · intro h
      cases h
    · intro h
      cases h
  dirty intent h := by
    rw [hnone] at h
    cases h
  snapshot intent h := by
    rw [hnone] at h
    cases h
  clean := hclean
  backed _ := hnone
  label := hlabel

/-- A record that differs from a consistent one in none of the fields involved. -/
theorem FlushConsistent.congr (h : FlushConsistent i f)
    (hfields : j.localityFields = i.localityFields) (hintent : j.flushIntent = i.flushIntent)
    (hhead : j.headGen = i.headGen) (hufs : j.ufsGen = i.ufsGen)
    (hlabel : j.locality = i.locality) : FlushConsistent j f where
  fields := hfields.trans h.fields
  intent intent := by rw [hintent, h.intent]
  dirty intent hi := h.dirty intent (hintent ▸ hi)
  snapshot intent hi := by rw [hhead, h.snapshot intent (hintent ▸ hi)]
  clean hclean := by rw [hhead, hufs, h.clean hclean]
  backed hb := by rw [hintent, h.backed hb]
  label := by rw [hlabel, hhead, hufs, h.label]

theorem flushConsistent_beginFlush (hbacked : f.backingMode = .ufsBacked)
    (hdirty : f.dataState = .dirty) (hhead : i.headGen = intent.snapshotGen) :
    FlushConsistent (beginFlush i f intent) { f with opState := .flushing intent } where
  fields := rfl
  intent other := by
    show some intent = some other ↔ OpState.flushing intent = .flushing other
    rw [Option.some.injEq, OpState.flushing.injEq]
  dirty _ _ := hdirty
  snapshot other hother := by
    obtain rfl : intent = other := Option.some.inj hother
    exact hhead
  clean hclean := by
    have hstate : f.dataState = .ufsClean := hclean
    rw [hdirty] at hstate
    cases hstate
  backed hb := by
    have hmode : f.backingMode = .ephemeral := hb
    rw [hbacked] at hmode
    cases hmode
  label := rfl

theorem flushConsistent_publish (hhead : i.headGen = intent.snapshotGen) (ufs : UfsObject)
    (mid : Option ManifestId) :
    FlushConsistent (installPublished i f intent ufs mid)
      { f with opState := .none, dataState := .ufsClean } :=
  flushConsistent_idle rfl rfl rfl (fun _ => hhead) rfl

theorem flushConsistent_conflict (error : String) :
    FlushConsistent (flushConflict i f error)
      { f with opState := .none, dataState := .dirtyConflict } :=
  flushConsistent_idle rfl rfl rfl (fun h => by cases h) rfl

/-- The image of a data change of an idle record. -/
theorem flushConsistent_image (hidle : i.flushIntent = none) (change : DataChange) :
    FlushConsistent (change.image i) (mutatedFields (i.localityFields.getD .default)) := by
  obtain ⟨_, _, _, _, hintent, hfields, hlabel⟩ := change.image_spec i
  apply flushConsistent_idle hfields (hintent.trans hidle)
  · unfold mutatedFields
    split <;> rfl
  · intro hclean
    unfold mutatedFields at hclean
    split at hclean <;> cases hclean
  · exact hlabel

theorem flushConsistent_born {now : Clock} {op : MetaOp} {s : Tables} (hborn : Born now op s i)
    (htemplate : op.templateClean = true) : ∃ f, FlushConsistent i f := by
  have himport : ∀ template : Inode, (template.localityFields = some importedLocality ∧
      template.headGen = template.ufsGen) ∧ template.flushIntent = none →
      FlushConsistent (importedInode template s.nextInode) importedLocality := by
    rintro template ⟨⟨hfields, hhead⟩, hnone⟩
    apply flushConsistent_idle (i := importedInode template s.nextInode)
    · simp [importedInode, hfields]
    · exact hnone
    · rfl
    · exact fun _ => hhead
    · simp [importedInode, LocalityLabel.derive, importedLocality, hhead]
  cases hborn with
  | created fileType mode uid gid target =>
    exact ⟨createdLocality, flushConsistent_idle rfl rfl rfl (fun h => by cases h) rfl⟩
  | imported hop =>
    rw [hop] at htemplate
    simp only [MetaOp.templateClean, Bool.and_eq_true, decide_eq_true_eq] at htemplate
    exact ⟨_, (himport _ htemplate).congr rfl rfl rfl rfl rfl⟩
  | importedData hop =>
    rw [hop] at htemplate
    simp only [MetaOp.templateClean, Bool.and_eq_true, decide_eq_true_eq] at htemplate
    exact ⟨_, (himport _ htemplate).congr rfl rfl rfl rfl rfl⟩

end

/-! ## Edits -/

section
variable {now : Clock} {op : MetaOp} {faulty records : Prop} {start : Keyed Inode.id} {s t : Tables}

theorem flushConsistent_put (h : s.FlushConsistent) {new : Inode}
    (hinodes : t.inodes = s.inodes.put new) (hnew : ∃ f, FlushConsistent new f) :
    t.FlushConsistent := by
  intro id i hi
  rw [hinodes, Keyed.get?_put] at hi
  split at hi
  · cases hi
    exact hnew
  · exact h id i hi

/-- A request that commits an image commits a consistent one, if the record it
replaces is idle and has the generation it expects. -/
def CommitsConsistent (op : MetaOp) (start : Keyed Inode.id) : Prop :=
  ∀ expected image manifest current, op.commit? = some (expected, image, manifest) →
    start.get? image.id = some current → current.generation = expected →
    current.flushIntent = none → ∃ f, FlushConsistent image f

theorem flushConsistent_edit (hraw : op.isRaw = false) (htemplate : op.templateClean = true)
    (hcommit : CommitsConsistent op start) (h : s.FlushConsistent)
    (e : Edit now op faulty records start s t) : t.FlushConsistent := by
  have hkeep : ∀ {a : Tables} {old new : Inode}, s.inodes.get? old.id = some old →
      a.inodes = s.inodes.put new → new.localityFields = old.localityFields →
      new.flushIntent = old.flushIntent → new.headGen = old.headGen →
      new.ufsGen = old.ufsGen → new.locality = old.locality → a.FlushConsistent := by
    intro a old new hold hinodes hfields hintent hhead hufs hlabel
    obtain ⟨f, hf⟩ := h _ _ hold
    exact flushConsistent_put h hinodes ⟨f, hf.congr hfields hintent hhead hufs hlabel⟩
  have hdelete : ∀ {a : Tables} {gone : InodeId}, a.FlushConsistent →
      (a.deleteInode gone).FlushConsistent :=
    fun ha id i hi => ha id i (Tables.of_get_deleteInode hi).2
  cases e with
  | aside | skipInode | eraseEntry | addManifest | removeManifests | reserve | dropReservations
  | tombstone | updateTombstone | dropTombstone | putXattr | eraseXattr | openPresence => exact h
  | raw hop =>
    rw [hop] at hraw
    cases hraw
  | touch hold hnew =>
    rw [hnew]
    exact hkeep hold rfl rfl rfl rfl rfl rfl
  | addEntry _ _ hborn => exact flushConsistent_put h rfl (flushConsistent_born hborn htemplate)
  | addOrphan _ _ hborn => exact flushConsistent_put h rfl (flushConsistent_born hborn htemplate)
  | linkEntry _ _ hsource => exact hkeep hsource rfl rfl rfl rfl rfl rfl
  | unlinkEntry _ hchild => exact hkeep hchild rfl rfl rfl rfl rfl rfl
  | reapEntry | removeDir => exact hdelete h
  | moveEntry _ _ _ hsource => exact hkeep hsource rfl rfl rfl rfl rfl rfl
  | closePresence =>
    apply reapAll_keep (P := Tables.FlushConsistent)
    · intro a gone _ ha _ _ _
      exact hdelete ha
    · exact h
  | commitImage hop _ hcurrent hgen hstart hidle =>
    obtain ⟨f, hf⟩ := hcommit _ _ _ _ hop hstart hgen hidle
    exact flushConsistent_put h rfl ⟨f, hf.congr rfl rfl rfl rfl rfl⟩
  | beginFlush hstored hfields hbacked hdirty hhead =>
    exact flushConsistent_put h rfl ⟨_, flushConsistent_beginFlush hbacked hdirty hhead⟩
  | publishFlush _ _ _ _ hhead =>
    exact flushConsistent_put h rfl ⟨_, flushConsistent_publish hhead _ _⟩
  | failFlush => exact flushConsistent_put h rfl ⟨_, flushConsistent_conflict _⟩

end

/-! ## Requests with a flush id -/

/-- The request carries a flush id that the record does not wait for: any begin
while a flush is on, any end without its own intent. -/
def MetaOp.ForeignFlush (op : MetaOp) (i : Inode) : Prop :=
  ∃ flushId, op.flush? = some (i.id, flushId) ∧
    match i.flushIntent with
    | some intent => intent.flushId ≠ flushId
    | none => op.endsFlush? ≠ none

/-- A foreign flush request changes no table but the request ledger. -/
theorem request_foreignFlush {now : Clock} {req : MetaRaftRequest} {s : Tables} {i : Inode}
    (hi : s.inodes.get? i.id = some i) (h : req.op.ForeignFlush i) :
    ∃ ledger, (applyRaftRequest now req s).2 = { s with clientRequests := ledger } := by
  obtain ⟨flushId, hflush, hforeign⟩ := h
  obtain ⟨before, after, o, ho, hafter⟩ :=
    request_flush (s := s) now (by rw [hflush]; exact Option.some_ne_none _)
  refine ⟨after, hafter.trans ?_⟩
  have hstored : ∀ j, s.inodes.get? j.id = some j → j.id = i.id → i = j := by
    intro j hj hid
    rw [hid, hi] at hj
    exact Option.some.inj hj
  generalize req.op = op at ho hflush hforeign
  cases ho with
  | refused => rfl
  | begun hj _ _ _ _ hidle =>
    cases hstored _ hj (congrArg Prod.fst (Option.some.inj hflush))
    rw [hidle] at hforeign
    exact absurd rfl hforeign
  | emptied hj _ hintent | published hj _ hintent | superseded hj _ hintent
  | failed hj _ hintent =>
    cases hstored _ hj (congrArg Prod.fst (Option.some.inj hflush))
    rw [hintent] at hforeign
    exact absurd (congrArg Prod.snd (Option.some.inj hflush)) hforeign

/-- While the head is the snapshot, a flush that commits is installed as clean. -/
theorem commitFlush_published {s : Tables} {id : InodeId} {next : Inode} {expected : Generation}
    {flushId : FlushId} {ufs : UfsObject}
    (hhead : ∀ i intent, s.inodes.get? id = some i → i.flushIntent = some intent →
      i.headGen = intent.snapshotGen)
    (hok : (commitFlushInTxn expected id flushId ufs s).1 = .ok next) : next.lastError = none := by
  have ho : FlushOutcome s _ (commitFlushInTxn expected id flushId ufs s) := commitFlush_outcome
  generalize commitFlushInTxn expected id flushId ufs s = o at ho hok
  cases ho with
  | refused => cases hok
  | emptied | published =>
    cases hok
    rfl
  | superseded hi _ hintent hmoved => exact absurd (hhead _ _ hi hintent) hmoved

/-! ## Clients -/

/-- A step of clients that read records, flush and commit. -/
inductive FlushAction where
  /-- A client reads a record. -/
  | read (id : InodeId)
  /-- Any request but a raw put or a commit of an image; imports are those clients
  build. -/
  | request (r : MetaRequest)
  /-- A commit of a data change of the record `basis` that a client has read. -/
  | commit (basis : Inode) (change : DataChange) (r : MetaRequest)

/-- The request commits the image `change` makes of `basis`. -/
def MetaOp.Commits (basis : Inode) (change : DataChange) (op : MetaOp) : Prop :=
  op.commit?.map (fun c => (c.1, c.2.1)) = some (basis.generation, change.image basis)

instance (basis : Inode) (change : DataChange) (op : MetaOp) :
    Decidable (op.Commits basis change) :=
  inferInstanceAs (Decidable (_ = _))

/-- One step, if it is one that clients take. -/
def flushStep (st : CasState) : FlushAction → Option CasState
  | .read id => (st.tables.inodes.get? id).map fun i => { st with reads := i :: st.reads }
  | .request r =>
    if r.req.op.isRaw = false ∧ r.req.op.commit? = none ∧ r.req.op.templateClean = true then
      some { st with tables := (applyRaftRequest r.now r.req st.tables).2 }
    else none
  | .commit basis change r =>
    if basis ∈ st.reads ∧ r.req.op.Commits basis change then
      some { st with tables := (applyRaftRequest r.now r.req st.tables).2 }
    else none

/-- Every stored generation is below the maximum when the action is taken. -/
def FlushGenerations (st : CasState) (_ : FlushAction) : Prop := st.tables.GenerationsBelowMax

instance (st : CasState) (a : FlushAction) : Decidable (FlushGenerations st a) :=
  inferInstanceAs (Decidable st.tables.GenerationsBelowMax)

/-- The invariant of a run with flushes. -/
structure FlushInv (st : CasState) : Prop where
  cas : CasInv st
  consistent : st.tables.FlushConsistent

theorem FlushInv.request {st : CasState} (h : FlushInv st) (hmax : st.tables.GenerationsBelowMax)
    {r : MetaRequest} (hraw : r.req.op.isRaw = false) (hnext : r.req.op.AdvancesOnce)
    (htemplate : r.req.op.templateClean = true)
    (hcommit : CommitsConsistent r.req.op st.tables.inodes) :
    FlushInv { st with tables := (applyRaftRequest r.now r.req st.tables).2 } where
  cas := h.cas.request hmax hraw hnext
  consistent := request_keep (P := Tables.FlushConsistent) h.cas.grounded
    (fun _ _ ha e => flushConsistent_edit hraw htemplate hcommit ha e) h.consistent

theorem FlushInv.step {st st' : CasState} {a : FlushAction} (h : FlushInv st)
    (hmax : st.tables.GenerationsBelowMax) (hstep : flushStep st a = some st') : FlushInv st' := by
  cases a with
  | read id =>
    obtain ⟨i, hi, rfl⟩ := Option.map_eq_some_iff.mp hstep
    exact ⟨h.cas.read hmax hi, h.consistent⟩
  | request r =>
    obtain ⟨⟨hraw, hnone, htemplate⟩, hst⟩ := Option.ite_none_right_eq_some.mp hstep
    cases hst
    apply h.request hmax hraw _ htemplate
    · intro expected image manifest current hop
      rw [hnone] at hop
      cases hop
    · intro expected image manifest hop
      rw [hnone] at hop
      cases hop
  | commit basis change r =>
    obtain ⟨⟨hread, hcommits⟩, hst⟩ := Option.ite_none_right_eq_some.mp hstep
    cases hst
    obtain ⟨⟨expected, image, manifest⟩, hop, hpair⟩ := Option.map_eq_some_iff.mp hcommits
    obtain ⟨rfl, rfl⟩ := Prod.mk.inj hpair
    obtain ⟨hid, hgen, _⟩ := change.image_spec basis
    have hsame : ∀ {e img m}, r.req.op.commit? = some (e, img, m) →
        e = basis.generation ∧ img = change.image basis := by
      intro e img m hop'
      rw [hop] at hop'
      cases hop'
      exact ⟨rfl, rfl⟩
    apply h.request hmax
    · cases hcase : r.req.op with
      | putInode i =>
        rw [hcase] at hop
        cases hop
      | _ => rfl
    · intro e img m hop'
      obtain ⟨rfl, rfl⟩ := hsame hop'
      exact hgen.trans (saturatingAdd_of_lt (h.cas.known basis hread).1)
    · cases hcase : r.req.op with
      | importExternal =>
        rw [hcase] at hop
        cases hop
      | _ => rfl
    · intro e img m current hop' hcurrent hcurgen hidle
      obtain ⟨rfl, rfl⟩ := hsame hop'
      rw [hid] at hcurrent
      -- the image was computed from the record it replaces
      rw [h.cas.current hread hcurrent hcurgen] at hidle
      exact ⟨_, flushConsistent_image hidle change⟩

theorem FlushInv.fresh (now : Int) : FlushInv (CasState.fresh now) := by
  refine ⟨CasInv.fresh now, fun id i hi => ?_⟩
  rw [(Tables.of_get_fresh hi).2]
  exact ⟨createdLocality, flushConsistent_idle rfl rfl rfl (fun h => by cases h) rfl⟩

/-- For every interleaving of imports, reads, data commits, metadata updates and
flush requests, while generations can advance: every stored record is consistent
(`FlushConsistent`); a `commit_flush` that succeeds installs the snapshot as clean,
never as a conflict; and a request whose flush id is not the one the record waits
for changes nothing. -/
theorem flush_state_machine (start : Int) (actions : List FlushAction) (st : CasState)
    (hmax : Along flushStep FlushGenerations (CasState.fresh start) actions)
    (hrun : exec flushStep (CasState.fresh start) actions = some st) :
    (∀ id i, st.tables.inodes.get? id = some i → ∃ f, FlushConsistent i f) ∧
    (∀ (r : MetaRequest) expected id flushId ufs next,
      r.req.op = .commitFlush expected id flushId ufs → r.req.executes st.tables = true →
      (applyRaftRequest r.now r.req st.tables).1 = .inode next → next.lastError = none) ∧
    (∀ (r : MetaRequest) i, st.tables.inodes.get? i.id = some i → r.req.op.ForeignFlush i →
      ∃ ledger, (applyRaftRequest r.now r.req st.tables).2 =
        { st.tables with clientRequests := ledger }) := by
  have hinv : FlushInv st := exec_invariant_along (fun _ _ _ h hok hstep => h.step hok hstep)
    actions _ st (FlushInv.fresh start) hmax hrun
  refine ⟨hinv.consistent, ?_, fun r i hi => request_foreignFlush hi⟩
  intro r expected id flushId ufs next hop hexec hresponse
  obtain ⟨before, _, hanswer, _⟩ := applyRaftRequest_of_executes r.now hexec
  rw [hresponse, hop, performOp] at hanswer
  have hflushed : (commitFlushInTxn expected id flushId ufs
      { st.tables with clientRequests := before }).1 = .ok next := by
    rcases hrun : commitFlushInTxn expected id flushId ufs
        { st.tables with clientRequests := before } with ⟨e | committed, t⟩
    · rw [Txn.bind_of_error hrun] at hanswer
      cases hanswer
    · rw [Txn.bind_of_ok hrun] at hanswer
      cases hanswer
      rfl
  refine commitFlush_published (fun i intent hi hintent => ?_) hflushed
  obtain ⟨f, hf⟩ := hinv.consistent id i hi
  exact hf.snapshot intent hintent

/-! ## Runs on one file -/

/-- The template of an empty backing-store file. -/
def sampleTemplate : Inode where
  id := 0
  fileType := .regular
  mode := 0o644
  uid := 0
  gid := 0
  size := 0
  mtimeMs := 2
  ctimeMs := 2
  atimeMs := 2
  linkCount := 1
  symlinkTarget := none
  generation := 1
  headGen := 0
  ufsGen := 0
  ufsBaseVersion := some "size:0"
  locality := .external
  localityFields := some importedLocality
  ufs := some ⟨"f", 0, none, none⟩
  extentRoot := none
  manifestId := none
  flushIntent := none
  lastError := none

/-- A setattr that sets nothing. -/
def noAttrs : InodeSetAttr := ⟨none, none, none, none, none, none⟩

/-- `truncate` to `size` of a file without extents: reserve nothing, commit. -/
def truncateActions (basis : Inode) (ticket size : Nat) : List FlushAction :=
  let change := DataChange.truncate size noAttrs 5
  let image := change.image basis
  [.request ⟨4, none, 0, .reserveChunks ticket basis.id basis.generation [] 99⟩,
    .commit basis change ⟨5, none, 0, .commitInodeManifestReserved ticket basis.generation image
      ⟨basis.id, image.headGen, size, .empty⟩⟩]

/-- An imported file is extended and so made dirty. -/
def sampleDirtyRun : List FlushAction :=
  .request ⟨1, none, 0, .importExternal rootInode "f" sampleTemplate none none⟩ :: .read 2 ::
    truncateActions (importedInode sampleTemplate 2) 1 1

theorem sampleDirtyRun_returns : (exec flushStep (CasState.fresh 0) sampleDirtyRun).isSome := by
  decide +kernel

/-- The end of the run. -/
def sampleDirtyEnd : CasState := Option.get _ sampleDirtyRun_returns

/-- The dirty record, `g` generations old, last accessed at `g`. -/
def dirtyRecord (g : Nat) : Inode :=
  { (DataChange.truncate 1 noAttrs 5).image (importedInode sampleTemplate 2) with
    manifestId := some 1
    generation := g
    atimeMs := g }

/-- A flush of the first head generation. -/
def sampleIntent : FlushIntent := ⟨7, 1, .ofByte 1, some "size:0", .ofByte 2⟩

/-- The dirty file is flushed. -/
def sampleFlushRun : List FlushAction :=
  sampleDirtyRun ++
    [.request ⟨6, none, 0, .beginFlush 2 2 sampleIntent⟩,
      .request ⟨7, none, 0, .commitFlush 3 2 8 ⟨"f", 1, some "e", none⟩⟩]

theorem sampleFlushRun_returns : (exec flushStep (CasState.fresh 0) sampleFlushRun).isSome := by
  decide +kernel

/-- The end of the run. -/
def sampleFlushEnd : CasState := Option.get _ sampleFlushRun_returns

/-- The intent outlived a commit with a flush id that is not its own, and a
commit with its own id is answered with a clean record. -/
theorem flush_state_machine_sampleFlushRun :
    ∃ i next, sampleFlushEnd.tables.inodes.get? 2 = some i ∧ i.flushIntent = some sampleIntent ∧
      (∃ f, FlushConsistent i f) ∧
      (applyRaftRequest 8 ⟨none, 0, .commitFlush 3 2 7 ⟨"f", 1, some "e", none⟩⟩
        sampleFlushEnd.tables).1 = .inode next ∧ next.lastError = none := by
  have hrun := (Option.some_get sampleFlushRun_returns).symm
  have hmax : Along flushStep FlushGenerations (CasState.fresh 0) sampleFlushRun := by
    decide +kernel
  obtain ⟨hconsistent, hpublished, _⟩ :=
    flush_state_machine 0 sampleFlushRun sampleFlushEnd hmax hrun
  have hstored : (sampleFlushEnd.tables.inodes.get? 2).bind (·.flushIntent) =
      some sampleIntent := by decide +kernel
  obtain ⟨i, hi, hintent⟩ := Option.bind_eq_some_iff.mp hstored
  have hanswer : ∃ next, (applyRaftRequest 8
      ⟨none, 0, .commitFlush 3 2 7 ⟨"f", 1, some "e", none⟩⟩ sampleFlushEnd.tables).1 =
        .inode next :=
    ⟨installPublished (beginFlush (dirtyRecord 2) ⟨.ufsBacked, .dirty, .none, .imported⟩
        sampleIntent) ⟨.ufsBacked, .dirty, .flushing sampleIntent, .imported⟩ sampleIntent
        ⟨"f", 1, some "e", none⟩ (some 2), by decide +kernel⟩
  obtain ⟨next, hnext⟩ := hanswer
  exact ⟨i, next, hi, hintent, hconsistent 2 i hi, hnext,
    hpublished ⟨8, none, 0, .commitFlush 3 2 7 ⟨"f", 1, some "e", none⟩⟩ 3 2 7 _ next rfl
      (by decide +kernel) hnext⟩

/-! ## At the last generation

`begin_flush` and `fail_flush_conflict` add to the generation with saturation, so
at `u64::MAX` they change the record and keep its generation. -/

/-- A metadata update that only moves the access time and the generation on. -/
def casAction (g : Nat) : FlushAction :=
  .request ⟨6, none, 0, .putInodeCas g (dirtyRecord (g + 1))⟩

/-- `n` such updates from generation `g` on. -/
def casActions (g : Nat) : Nat → List FlushAction
  | 0 => []
  | n + 1 => casAction g :: casActions (g + 1) n

theorem putInodeCas_run {s : Tables} {current next : Inode}
    (hcurrent : s.inodes.get? next.id = some current) (hlt : current.generation < u64Max)
    (hgen : next.generation = current.generation + 1)
    (hsame : ¬ dataOrLifecycleChanged current next) :
    putInodeCasInTxn current.generation next s = (.ok next, s.putInode next) := by
  rw [putInodeCasInTxn, getInodeRaw_bind hcurrent, checkGeneration, Txn.failIf_bind_run,
    if_neg (not_not.mpr rfl), Txn.failIf_bind_run, if_neg (Nat.not_lt.mpr hlt),
    Txn.failIf_bind_run, if_neg (not_not.mpr hgen), Txn.failIf_bind_run, if_neg hsame]
  rfl

theorem casAction_run {st : CasState} {g : Nat} (hlt : g < u64Max)
    (hlease : st.tables.gcLease = none) (hstored : st.tables.inodes.get? 2 = some (dirtyRecord g)) :
    flushStep st (casAction g) =
      some { st with tables := st.tables.putInode (dirtyRecord (g + 1)) } := by
  have hsame : ¬ dataOrLifecycleChanged (dirtyRecord g) (dirtyRecord (g + 1)) := by
    simp [dataOrLifecycleChanged, dirtyRecord]
  have hcas : putInodeCasInTxn g (dirtyRecord (g + 1)) st.tables =
      (.ok (dirtyRecord (g + 1)), st.tables.putInode (dirtyRecord (g + 1))) :=
    putInodeCas_run hstored hlt rfl hsame
  have happly : (applyRaftRequest 6 ⟨none, 0, .putInodeCas g (dirtyRecord (g + 1))⟩ st.tables).2 =
      st.tables.putInode (dirtyRecord (g + 1)) := by
    show (dispatch 6 (.putInodeCas g (dirtyRecord (g + 1))) st.tables).2 = _
    rw [dispatch_of_allowed (by rw [hlease]; rfl), performOp, Txn.bind_of_ok hcas]
    rfl
  rw [casAction, flushStep, if_pos ⟨rfl, rfl, rfl⟩, happly]

/-- The store in which the file has reached generation `g`. -/
def agedState (g : Nat) : CasState :=
  { sampleDirtyEnd with tables := sampleDirtyEnd.tables.putInode (dirtyRecord g) }

theorem casActions_run (n g : Nat) (h : g + n ≤ u64Max) :
    exec flushStep (agedState g) (casActions g n) = some (agedState (g + n)) := by
  induction n generalizing g with
  | zero => rfl
  | succ n ih =>
    have hlease : (agedState g).tables.gcLease = none := by
      show sampleDirtyEnd.tables.gcLease = none
      decide +kernel
    have hstep : flushStep (agedState g) (casAction g) = some (agedState (g + 1)) := by
      have hput := Tables.putInode_putInode sampleDirtyEnd.tables (i := dirtyRecord g)
        (j := dirtyRecord (g + 1)) rfl
      rw [casAction_run (by omega) hlease (Keyed.get?_put_self ..), agedState, agedState]
      exact congrArg (fun tables => some (CasState.mk tables sampleDirtyEnd.reads)) hput
    rw [casActions, exec_cons, hstep]
    show exec flushStep (agedState (g + 1)) (casActions (g + 1) n) = _
    rw [ih (g + 1) (by omega), Nat.add_right_comm g 1 n]
    rfl

theorem agedState_two : agedState 2 = sampleDirtyEnd := by
  have hstored : sampleDirtyEnd.tables.inodes.get? 2 = some (dirtyRecord 2) := by decide +kernel
  rw [agedState, Tables.putInode_of_get hstored]

/-- A client reads the file during a flush, the flush fails, and the client's
truncate is committed although its record is not the stored one. -/
def staleCommitActions : List FlushAction :=
  let flushing := beginFlush (dirtyRecord u64Max) ⟨.ufsBacked, .dirty, .none, .imported⟩
    sampleIntent
  [.request ⟨7, none, 0, .beginFlush u64Max 2 sampleIntent⟩, .read 2,
      .request ⟨8, none, 0, .failFlushConflict u64Max 2 7 "conflict"⟩] ++
    truncateActions flushing 2 3

theorem staleCommitActions_returns :
    (exec flushStep (agedState u64Max) staleCommitActions).isSome := by decide +kernel

/-- Without the bound on generations a record can announce a flush that is not
on: an intent with no flushing state. -/
theorem flush_intent_without_flush :
    ∃ actions st i f intent, exec flushStep (CasState.fresh 0) actions = some st ∧
      st.tables.inodes.get? 2 = some i ∧ i.localityFields = some f ∧
      i.flushIntent = some intent ∧ f.opState = .none := by
  have hdirty : exec flushStep (CasState.fresh 0) sampleDirtyRun = some sampleDirtyEnd :=
    (Option.some_get sampleDirtyRun_returns).symm
  have hrun : exec flushStep (CasState.fresh 0)
      (sampleDirtyRun ++ (casActions 2 (u64Max - 2) ++ staleCommitActions)) =
        some (Option.get _ staleCommitActions_returns) := by
    rw [exec_append, hdirty, Option.bind_some, ← agedState_two, exec_append,
      casActions_run (u64Max - 2) 2 (by decide), Option.bind_some]
    exact (Option.some_get staleCommitActions_returns).symm
  have hrecord : ((Option.get _ staleCommitActions_returns).tables.inodes.get? 2).bind
      (fun i => i.localityFields.bind fun f => i.flushIntent.map fun intent => (f.opState, intent))
        = some (.none, sampleIntent) := by decide +kernel
  obtain ⟨i, hi, hrest⟩ := Option.bind_eq_some_iff.mp hrecord
  obtain ⟨f, hf, hintent⟩ := Option.bind_eq_some_iff.mp hrest
  obtain ⟨intent, hintent, hpair⟩ := Option.map_eq_some_iff.mp hintent
  exact ⟨_, _, i, f, intent, hrun, hi, hf, hintent, congrArg Prod.fst hpair⟩

end FluxFS
