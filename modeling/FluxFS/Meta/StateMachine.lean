import FluxFS.Lib.Run
import FluxFS.Meta.RaftTypes

/-!
# StateMachine — applying the raft log

`MetaStateMachine::apply` takes up an entry by advancing the markers it
holds in memory and then makes one store call, which commits the entry's
effect and the markers in one transaction. A crash loses what is in memory
and an open transaction; a restart loads the markers and goes on with the
entries above them. So however often it crashes, the store is that of one
uninterrupted application (`crashes_apply_log_once`).

The entries carry no clock: what an operation stamps into an inode is read
when it is applied, on every replica for itself (`replicas_agree`).
-/

namespace FluxFS

open Std Kit

/-- What `HeedMetaStore` keeps on disk. -/
structure MetaStore where
  tables : Tables
  sm : SmRows

namespace MetaStore

/-- `HeedMetaStore::open` on an empty directory. -/
def fresh (now : Int) : MetaStore := ⟨.fresh now, .empty⟩

/-- `HeedMetaStore::apply_raft_request`: each way out writes the markers in the
transaction it commits. -/
def applyRaftRequest (now : Clock) (req : MetaRaftRequest) (sm : SmAppliedMeta)
    (store : MetaStore) : MetaRaftResponse × MetaStore :=
  match req.opId with
  | none =>
    let (response, t) := dispatch now req.op store.tables
    (response, ⟨t, .putSmMetaRaw sm⟩)
  | some opId =>
    match getClientRequest store.tables opId req.ledgerNowUnixMs with
    | some cached => (cached, ⟨store.tables, .putSmMetaRaw sm⟩)
    | none =>
      let s := pruneClientRequests store.tables req.ledgerNowUnixMs clientRequestPruneBatch
      if s.clientRequests.size ≥ clientRequestLedgerSoftCap then
        (.err .busy, ⟨s, .putSmMetaRaw sm⟩)
      else
        let (response, t) := dispatch now req.op s
        (response,
          ⟨putClientRequest t opId response req.ledgerNowUnixMs, .putSmMetaRaw sm⟩)

/-- `HeedMetaStore::save_sm_meta_only`. -/
def saveSmMetaOnly (sm : SmAppliedMeta) (store : MetaStore) : MetaStore :=
  { store with sm := .putSmMetaRaw sm }

/-- On every path the request's effect and the markers are stored together. -/
theorem applyRaftRequest_eq (now : Clock) (req : MetaRaftRequest) (sm : SmAppliedMeta)
    (store : MetaStore) :
    store.applyRaftRequest now req sm =
      ((FluxFS.applyRaftRequest now req store.tables).1,
        ⟨(FluxFS.applyRaftRequest now req store.tables).2, .putSmMetaRaw sm⟩) := by
  unfold applyRaftRequest FluxFS.applyRaftRequest
  cases req.opId with
  | none => rfl
  | some opId =>
    dsimp only
    cases getClientRequest store.tables opId req.ledgerNowUnixMs with
    | some cached => rfl
    | none =>
      dsimp only
      split
      · rfl
      · rfl

/-- The store call of one entry. -/
def persist (now : Clock) (entry : Entry) (sm : SmAppliedMeta) (store : MetaStore) :
    MetaRaftResponse × MetaStore :=
  match entry.payload with
  | .blank => (.empty, store.saveSmMetaOnly sm)
  | .normal req => store.applyRaftRequest now req sm
  | .membership _ => (.empty, store.saveSmMetaOnly sm)

theorem persist_sm (now : Clock) (entry : Entry) (sm : SmAppliedMeta) (store : MetaStore) :
    (store.persist now entry sm).2.sm = .putSmMetaRaw sm := by
  unfold persist
  cases entry.payload with
  | blank => rfl
  | normal req =>
    dsimp only
    rw [applyRaftRequest_eq]
  | membership membership => rfl

end MetaStore

/-- The markers in memory once `entry` is taken up. -/
def SmAppliedMeta.advance (sm : SmAppliedMeta) (entry : Entry) : SmAppliedMeta :=
  let sm := { sm with lastAppliedLog := some entry.logId }
  match entry.payload with
  | .membership membership => { sm with lastMembership := ⟨some entry.logId, membership⟩ }
  | _ => sm

@[simp] theorem SmAppliedMeta.advance_lastAppliedLog (sm : SmAppliedMeta) (entry : Entry) :
    (sm.advance entry).lastAppliedLog = some entry.logId := by
  unfold advance
  cases entry.payload <;> rfl

/-- The markers an entry leaves are read back. -/
theorem loadSmMeta_advance (sm : SmAppliedMeta) (entry : Entry) :
    (SmRows.putSmMetaRaw (sm.advance entry)).loadSmMeta = .ok (sm.advance entry) :=
  SmRows.loadSmMeta_putSmMetaRaw (sm.advance_lastAppliedLog entry)

/-- The store and the markers in memory. -/
structure MetaStateMachine where
  store : MetaStore
  applied : SmAppliedMeta

namespace MetaStateMachine

/-- `MetaStateMachine::new`. -/
def new (store : MetaStore) : Except FluxError MetaStateMachine :=
  store.sm.loadSmMeta.map fun sm => ⟨store, sm⟩

/-- One round of `apply`. -/
def applyEntry (m : MetaStateMachine) (entry : Entry) (now : Clock) :
    MetaRaftResponse × MetaStateMachine :=
  let sm := m.applied.advance entry
  let (response, store) := m.store.persist now entry sm
  (response, ⟨store, sm⟩)

/-- `MetaStateMachine::apply`, with the clock each entry reads. -/
def apply (m : MetaStateMachine) : List (Entry × Clock) → List MetaRaftResponse × MetaStateMachine
  | [] => ([], m)
  | (entry, now) :: rest =>
    let (response, m) := m.applyEntry entry now
    let (responses, m) := m.apply rest
    (response :: responses, m)

theorem apply_append (m : MetaStateMachine) (xs ys : List (Entry × Clock)) :
    (m.apply (xs ++ ys)).2 = ((m.apply xs).2.apply ys).2 := by
  induction xs generalizing m with
  | nil => rfl
  | cons x xs ih => exact ih (m.applyEntry x.1 x.2).2

/-- A machine in step with its store: a restart finds what is in memory. -/
def InStep (m : MetaStateMachine) : Prop := m.store.sm.loadSmMeta = .ok m.applied

theorem InStep.applyEntry {m : MetaStateMachine} (entry : Entry) (now : Clock) :
    (m.applyEntry entry now).2.InStep := by
  unfold InStep MetaStateMachine.applyEntry
  dsimp only
  rw [MetaStore.persist_sm]
  exact loadSmMeta_advance m.applied entry

theorem InStep.apply {m : MetaStateMachine} (h : m.InStep) (xs : List (Entry × Clock)) :
    (m.apply xs).2.InStep := by
  induction xs generalizing m with
  | nil => exact h
  | cons x xs ih => exact ih (InStep.applyEntry x.1 x.2)

/-- The last applied id is that of the last entry. -/
theorem apply_lastAppliedLog (m : MetaStateMachine) (xs : List (Entry × Clock)) :
    (m.apply xs).2.applied.lastAppliedLog =
      (xs.getLast?.map (·.1.logId)).or m.applied.lastAppliedLog := by
  induction xs generalizing m with
  | nil => rfl
  | cons x xs ih =>
    have hstep : (m.apply (x :: xs)).2 = ((m.applyEntry x.1 x.2).2.apply xs).2 := rfl
    have hfirst : (m.applyEntry x.1 x.2).2.applied.lastAppliedLog = some x.1.logId :=
      SmAppliedMeta.advance_lastAppliedLog ..
    rw [hstep, ih, hfirst, List.getLast?_cons]
    cases xs.getLast? <;> rfl

end MetaStateMachine

/-! ## Crashes and restarts -/

/-- The markers in memory, the entries still to apply, and whether the first of them
has been taken up. -/
structure ApplyState where
  applied : SmAppliedMeta
  todo : List Entry
  taken : Bool

/-- A replica: what is on disk, and the state machine unless it is down. -/
structure Replica where
  store : MetaStore
  running : Option ApplyState

/-- What a replica does; a crash can come at any point. -/
inductive ApplyAction where
  /-- Load the markers and go on with the entries above them. -/
  | restart
  /-- Advance the markers in memory to the next entry. -/
  | take
  /-- Commit the transaction of the entry taken up, which read the clock as `now`. -/
  | commit (now : Clock)
  /-- Lose the memory and an open transaction. -/
  | crash
deriving DecidableEq, Repr

/-- The entries above the applied marker. -/
def SmAppliedMeta.entriesAbove (sm : SmAppliedMeta) (log : List Entry) : List Entry :=
  log.filter fun entry => sm.lastAppliedLog.all (·.index < entry.index)

/-- One step. -/
def applyStep (log : List Entry) (r : Replica) : ApplyAction → Option Replica
  | .restart =>
    match r.running, MetaStateMachine.new r.store with
    | none, .ok m =>
      some { r with running := some ⟨m.applied, m.applied.entriesAbove log, false⟩ }
    | _, _ => none
  | .take =>
    match r.running with
    | some ⟨sm, entry :: rest, false⟩ =>
      some { r with running := some ⟨sm.advance entry, entry :: rest, true⟩ }
    | _ => none
  | .commit now =>
    match r.running with
    | some ⟨sm, entry :: rest, true⟩ =>
      some ⟨(r.store.persist now entry sm).2, some ⟨sm, rest, false⟩⟩
    | _ => none
  | .crash => some { r with running := none }

/-- The clock reading of a committed attempt. -/
def ApplyAction.clock? : ApplyAction → Option Clock
  | .commit now => some now
  | _ => none

/-- What the machine holds in memory after it has applied some entries. -/
def ApplyState.Follows (r : ApplyState) (m : MetaStateMachine) (rest : List Entry) : Prop :=
  r.todo = rest ∧
    r.applied = if r.taken then rest.head?.elim m.applied m.applied.advance else m.applied

/-- The replica has applied a part of the log with these clock readings, and
nothing else. -/
def Replica.Applied (start : MetaStateMachine) (log : List Entry) (clocks : List Clock)
    (r : Replica) : Prop :=
  ∃ done rest, log = done ++ rest ∧ done.length = clocks.length ∧
    r.store = (start.apply (done.zip clocks)).2.store ∧
    ∀ a, r.running = some a → a.Follows (start.apply (done.zip clocks)).2 rest

/-- In a log in index order, what is above an entry is what follows it. -/
theorem filter_above {before after : List Entry} {entry : Entry}
    (hlog : (before ++ entry :: after).Pairwise (·.index < ·.index)) :
    (before ++ entry :: after).filter (fun e => entry.index < e.index) = after := by
  obtain ⟨-, hafter, hbefore⟩ := List.pairwise_append.mp hlog
  have hnone : before.filter (fun e => entry.index < e.index) = [] := by
    rw [List.filter_eq_nil_iff]
    intro e he hlt
    exact UInt64.lt_asymm (hbefore e he entry List.mem_cons_self) (of_decide_eq_true hlt)
  have hall : after.filter (fun e => entry.index < e.index) = after := by
    rw [List.filter_eq_self]
    intro e he
    exact decide_eq_true ((List.pairwise_cons.mp hafter).1 e he)
  rw [List.filter_append, hnone, List.filter_cons, if_neg (by simp), hall, List.nil_append]

/-- The entries above the last one applied are the rest of the log. -/
theorem entriesAbove_apply {start : MetaStateMachine} {done rest : List Entry}
    {clocks : List Clock} (hlog : (done ++ rest).Pairwise (·.index < ·.index))
    (habove : start.applied.entriesAbove (done ++ rest) = done ++ rest)
    (hlen : done.length = clocks.length) :
    (start.apply (done.zip clocks)).2.applied.entriesAbove (done ++ rest) = rest := by
  rcases List.eq_nil_or_concat' done with rfl | ⟨before, entry, rfl⟩
  · exact habove
  · rcases List.eq_nil_or_concat' clocks with rfl | ⟨earlier, now, rfl⟩
    · simp at hlen
    · have hearlier : before.length = earlier.length := by simpa using hlen
      rw [List.append_assoc, List.singleton_append] at hlog ⊢
      have hlast : (start.apply ((before ++ [entry]).zip
        (earlier ++ [now]))).2.applied.lastAppliedLog =
          some entry.logId := by
        rw [MetaStateMachine.apply_lastAppliedLog, List.zip_append hearlier]
        simp
      rw [SmAppliedMeta.entriesAbove, hlast]
      exact filter_above hlog

/-- Opening the store finds the machine that wrote it. -/
theorem MetaStateMachine.InStep.new {m : MetaStateMachine} (h : m.InStep) :
    MetaStateMachine.new m.store = .ok m := by
  rw [MetaStateMachine.new, h]
  rfl

/-- One action keeps the replica on the log. -/
theorem Replica.Applied.step {start : MetaStateMachine} {log : List Entry} {clocks : List Clock}
    {r r' : Replica} {a : ApplyAction} (hstart : start.InStep)
    (hlog : log.Pairwise (·.index < ·.index))
    (habove : start.applied.entriesAbove log = log) (h : r.Applied start log clocks)
    (hstep : applyStep log r a = some r') :
    r'.Applied start log (clocks ++ a.clock?.toList) := by
  obtain ⟨done, rest, rfl, hlen, hstore, hrunning⟩ := h
  cases a with
  | restart =>
    have hquiet : clocks ++ ApplyAction.restart.clock?.toList = clocks := List.append_nil _
    rw [applyStep, hstore, (hstart.apply _).new] at hstep
    rw [hquiet]
    split at hstep
    · rename_i hdown hnew
      cases hnew
      cases hstep
      refine ⟨done, rest, rfl, hlen, rfl, ?_⟩
      rintro _ ⟨⟩
      exact ⟨entriesAbove_apply hlog habove hlen, rfl⟩
    · cases hstep
  | take =>
    have hquiet : clocks ++ ApplyAction.take.clock?.toList = clocks := List.append_nil _
    rw [applyStep] at hstep
    rw [hquiet]
    split at hstep
    · rename_i sm entry todo hup
      cases hstep
      obtain ⟨rfl, happlied⟩ := hrunning _ hup
      have hsm : sm = (start.apply (done.zip clocks)).2.applied := happlied
      clear happlied
      subst hsm
      refine ⟨done, entry :: todo, rfl, hlen, hstore, ?_⟩
      rintro _ ⟨⟩
      exact ⟨rfl, rfl⟩
    · cases hstep
  | commit now =>
    rw [applyStep] at hstep
    split at hstep
    · rename_i sm entry todo hup
      cases hstep
      obtain ⟨rfl, happlied⟩ := hrunning _ hup
      have hsm : sm = (start.apply (done.zip clocks)).2.applied.advance entry := happlied
      clear happlied
      subst hsm
      have hmachine : (start.apply ((done ++ [entry]).zip (clocks ++ [now]))).2 =
          ((start.apply (done.zip clocks)).2.applyEntry entry now).2 := by
        rw [List.zip_append hlen, MetaStateMachine.apply_append]
        rfl
      refine ⟨done ++ [entry], todo, by simp, by simp [ApplyAction.clock?, hlen], ?_, ?_⟩
      · rw [hstore]
        exact congrArg MetaStateMachine.store hmachine.symm
      · rintro _ ⟨⟩
        exact ⟨rfl, congrArg MetaStateMachine.applied hmachine.symm⟩
    · cases hstep
  | crash =>
    have hquiet : clocks ++ ApplyAction.crash.clock?.toList = clocks := List.append_nil _
    cases hstep
    rw [hquiet]
    exact ⟨done, rest, rfl, hlen, hstore, fun _ hdown => nomatch hdown⟩

/-- Any run of crashes and restarts keeps the replica on the log. -/
theorem Replica.Applied.run {start : MetaStateMachine} {log : List Entry} (hstart : start.InStep)
    (hlog : log.Pairwise (·.index < ·.index)) (habove : start.applied.entriesAbove log = log)
    (actions : List ApplyAction) {clocks : List Clock} {r r' : Replica}
    (h : r.Applied start log clocks) (hrun : exec (applyStep log) r actions = some r') :
    r'.Applied start log (clocks ++ actions.filterMap ApplyAction.clock?) := by
  induction actions generalizing clocks r with
  | nil =>
    cases hrun
    rwa [List.filterMap_nil, List.append_nil]
  | cons a actions ih =>
    obtain ⟨r₁, hstep, hrest⟩ := exec_cons_some hrun
    have hnext := ih (h.step hstart hlog habove hstep) hrest
    rw [List.append_assoc] at hnext
    cases ha : a.clock? with
    | none => simpa [ha] using hnext
    | some now => simpa [ha] using hnext

/-- However often the replica crashes while it applies a log, each committed attempt
applies the next entry: the tables, markers and membership on disk are those of one
uninterrupted application with the clock readings of the committed attempts, a
restart loads that application's machine, and the log is through once nothing is
left to do. -/
theorem crashes_apply_log_once (start : MetaStateMachine) (log : List Entry)
    (hstart : start.InStep) (hlog : log.Pairwise (·.index < ·.index))
    (habove : start.applied.entriesAbove log = log) (actions : List ApplyAction) (r : Replica)
    (hrun : exec (applyStep log) ⟨start.store, none⟩ actions = some r) :
    let clocks := actions.filterMap ApplyAction.clock?
    let uninterrupted := (start.apply (log.zip clocks)).2
    clocks.length ≤ log.length ∧
    r.store = uninterrupted.store ∧
    MetaStateMachine.new r.store = .ok uninterrupted ∧
    ∀ a, r.running = some a → a.todo = [] → clocks.length = log.length := by
  intro clocks uninterrupted
  have hinit : Replica.Applied start log [] ⟨start.store, none⟩ :=
    ⟨[], log, rfl, rfl, rfl, fun _ hdown => nomatch hdown⟩
  obtain ⟨done, rest, rfl, hlen, hstore, hrunning⟩ := hinit.run hstart hlog habove actions hrun
  rw [List.nil_append] at hlen hstore hrunning
  have hzip : (done ++ rest).zip clocks = done.zip clocks := by
    have hsplit : (done ++ rest).zip (clocks ++ []) = done.zip clocks ++ rest.zip [] :=
      List.zip_append hlen
    rwa [List.append_nil, List.zip_nil_right, List.append_nil] at hsplit
  have huninterrupted : uninterrupted = (start.apply (done.zip clocks)).2 := by
    simp only [uninterrupted, hzip]
  rw [huninterrupted]
  refine ⟨by simp [clocks, ← hlen], hstore, ?_, ?_⟩
  · rw [hstore]
    exact (hstart.apply _).new
  · intro a ha htodo
    obtain ⟨hrest, -⟩ := hrunning a ha
    rw [htodo] at hrest
    simp [clocks, ← hlen, ← hrest]

/-- A blank entry, a create and a membership change. -/
def sampleLog : List Entry :=
  [⟨⟨1, 1, 1⟩, .blank⟩,
    ⟨⟨1, 1, 2⟩, .normal ⟨some 7, 1000, .create rootInode "a" .regular 0o644 0 0 none⟩⟩,
    ⟨⟨1, 1, 3⟩, .membership ⟨[[1, 2]], [(1, "n1"), (2, "n2")]⟩⟩]

/-- Crashes before a commit, after one, and with an entry taken up. -/
def sampleCrashes : List ApplyAction :=
  [.restart, .take, .crash, .restart, .take, .commit 4, .take, .crash, .crash, .restart, .take,
    .commit 5, .crash, .restart, .take, .commit 6]

theorem crashes_apply_log_once_sampleCrashes :
    ∃ r, exec (applyStep sampleLog) ⟨.fresh 0, none⟩ sampleCrashes = some r ∧
      r.store =
        (MetaStateMachine.apply ⟨.fresh 0, ⟨none, .default⟩⟩
          (sampleLog.zip [4, 5, 6])).2.store := by
  have hsome : (exec (applyStep sampleLog) ⟨.fresh 0, none⟩ sampleCrashes).isSome = true := by
    decide +kernel
  obtain ⟨r, hr⟩ := Option.isSome_iff_exists.mp hsome
  exact ⟨r, hr, (crashes_apply_log_once ⟨.fresh 0, ⟨none, .default⟩⟩ sampleLog rfl
    (by decide) (by decide) sampleCrashes r hr).2.1⟩

/-! ## Two replicas -/

/-- What an operation stamps into inodes: its readings of the local clock. A rename
reads one for its second parent only if that is another directory. -/
def MetaOp.readings (now : Clock) : MetaOp → List Int
  | .create .. | .symlink .. | .link .. => [now.parent, now.inode]
  | .importExternal .. | .rmdir .. => [now.parent]
  | .unlink .. => [now.parent, now.unlinked]
  | .setXattr .. | .removeXattr .. => [now.inode]
  | .rename oldParent _ _ newParent .. =>
    if newParent = oldParent then [now.parent, now.unlinked, now.inode]
    else [now.parent, now.newParent, now.unlinked, now.inode]
  | _ => []

/-- The readings an entry takes. -/
def Entry.readings (now : Clock) (entry : Entry) : List Int :=
  match entry.payload with
  | .normal req => req.op.readings now
  | _ => []

theorem renameInTxn_of_readings {now other : Clock} (oldKey newKey : NameKey)
    (hparent : now.parent = other.parent) (hunlinked : now.unlinked = other.unlinked)
    (hinode : now.inode = other.inode)
    (hnew : newKey.owner ≠ oldKey.owner → now.newParent = other.newParent)
    (expectedOld expectedNew : Option Generation) (noReplace : Bool) :
    renameInTxn now expectedOld oldKey expectedNew newKey noReplace =
      renameInTxn other expectedOld oldKey expectedNew newKey noReplace := by
  have hbump : bumpNewParent now.newParent oldKey.owner newKey.owner expectedNew =
      bumpNewParent other.newParent oldKey.owner newKey.owner expectedNew := by
    by_cases hne : newKey.owner ≠ oldKey.owner
    · rw [hnew hne]
    · rw [bumpNewParent, bumpNewParent, if_neg hne, if_neg hne]
  simp only [renameInTxn, renameWrites, hparent, hunlinked, hinode, hbump]

/-- Nothing else of the clock reaches the tables or the answer. -/
theorem performOp_of_readings {now other : Clock} {op : MetaOp}
    (h : op.readings now = op.readings other) : performOp now op = performOp other op := by
  cases op with
  | create parent name fileType mode uid gid expected =>
    obtain ⟨hparent, hinode⟩ : now.parent = other.parent ∧ now.inode = other.inode := by
      simpa [MetaOp.readings] using h
    simp only [performOp, createInTxn, createNodeInTxn, hparent, hinode]
  | symlink parent name target uid gid expected =>
    obtain ⟨hparent, hinode⟩ : now.parent = other.parent ∧ now.inode = other.inode := by
      simpa [MetaOp.readings] using h
    simp only [performOp, symlinkInTxn, createNodeInTxn, hparent, hinode]
  | link inode newParent newName expected =>
    obtain ⟨hparent, hinode⟩ : now.parent = other.parent ∧ now.inode = other.inode := by
      simpa [MetaOp.readings] using h
    simp only [performOp, linkInTxn, hparent, hinode]
  | importExternal parent name inode manifest expected =>
    have hparent : now.parent = other.parent := by simpa [MetaOp.readings] using h
    simp only [performOp, importExternalInTxn, hparent]
  | rmdir parent name expected =>
    have hparent : now.parent = other.parent := by simpa [MetaOp.readings] using h
    simp only [performOp, rmdirInTxn, hparent]
  | unlink parent name expected =>
    obtain ⟨hparent, hunlinked⟩ : now.parent = other.parent ∧ now.unlinked = other.unlinked := by
      simpa [MetaOp.readings] using h
    simp only [performOp, unlinkInTxn, hparent, hunlinked]
  | setXattr expected inode name value mode =>
    have hinode : now.inode = other.inode := by simpa [MetaOp.readings] using h
    simp only [performOp, hinode]
  | removeXattr expected inode name =>
    have hinode : now.inode = other.inode := by simpa [MetaOp.readings] using h
    simp only [performOp, hinode]
  | rename oldParent oldName expectedOld newParent newName expectedNew noReplace =>
    have hreadings : now.parent = other.parent ∧ now.unlinked = other.unlinked ∧
        now.inode = other.inode ∧ (newParent ≠ oldParent → now.newParent = other.newParent) := by
      by_cases hsame : newParent = oldParent
      all_goals
        simp [MetaOp.readings, hsame] at h ⊢
        tauto
    obtain ⟨hparent, hunlinked, hinode, hnew⟩ := hreadings
    simp only [performOp, renameInTxn_of_readings ⟨oldParent, oldName⟩ ⟨newParent, newName⟩
      hparent hunlinked hinode hnew]
  | _ => rfl

theorem persist_of_readings {now other : Clock} {entry : Entry}
    (h : entry.readings now = entry.readings other) :
    MetaStore.persist now entry = MetaStore.persist other entry := by
  funext sm store
  unfold MetaStore.persist
  cases hpayload : entry.payload with
  | blank => rfl
  | membership membership => rfl
  | normal req =>
    have hop : req.op.readings now = req.op.readings other := by
      simpa only [Entry.readings, hpayload] using h
    simp only [MetaStore.applyRaftRequest, dispatch, performOp_of_readings hop]

/-- Two replicas that apply a log from one state, each with its own clock, answer
alike and are in the same state after every entry, if at each entry all readings that
its operation takes are the same on both. -/
theorem replicas_agree (m : MetaStateMachine) (log : List (Entry × Clock × Clock))
    (hclocks : ∀ x ∈ log, x.1.readings x.2.1 = x.1.readings x.2.2) (n : Nat) :
    m.apply ((log.take n).map fun x => (x.1, x.2.1)) =
      m.apply ((log.take n).map fun x => (x.1, x.2.2)) := by
  induction log generalizing m n with
  | nil => simp
  | cons x log ih =>
    cases n with
    | zero => rfl
    | succ n =>
      obtain ⟨hx, hlog⟩ := List.forall_mem_cons.mp hclocks
      have hentry : m.applyEntry x.1 x.2.1 = m.applyEntry x.1 x.2.2 := by
        simp only [MetaStateMachine.applyEntry, persist_of_readings hx]
      simp only [List.take_succ_cons, List.map_cons, MetaStateMachine.apply, hentry,
        ih _ hlog n]

/-- The clocks differ at the entries that stamp nothing, and in readings that a create
does not take. -/
theorem replicas_agree_sampleLog :
    let m : MetaStateMachine := ⟨.fresh 0, ⟨none, .default⟩⟩
    m.apply (sampleLog.zip [4, ⟨5, 0, 0, 6⟩, 6]) = m.apply (sampleLog.zip [1, ⟨5, 8, 9, 6⟩, 9]) :=
  replicas_agree ⟨.fresh 0, ⟨none, .default⟩⟩
    (sampleLog.zip [(4, 1), (⟨5, 0, 0, 6⟩, ⟨5, 8, 9, 6⟩), (6, 9)]) (by decide) 3

/-- Two replicas whose clocks differ by a millisecond answer a create differently. -/
theorem replicas_diverge_on_create :
    let m : MetaStateMachine := ⟨.fresh 0, ⟨none, .default⟩⟩
    (m.apply (sampleLog.zip [4, 5])).1 =
      [.empty, .inode (newInode 2 .regular 0o644 0 0 none 5)] ∧
    (m.apply (sampleLog.zip [4, 6])).1 =
      [.empty, .inode (newInode 2 .regular 0o644 0 0 none 6)] := by
  decide +kernel

end FluxFS
