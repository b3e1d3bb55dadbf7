import FluxFS.Meta.Fence
import FluxFS.Meta.Rollback

/-!
# Tombstones — delete progress along a run

A collector writes a tombstone, gives it the storage targets that must delete
the chunk, records which of them did, and drops it when none is left. `Advance`
is what one request may do to a tombstone that has its targets, `delete_progress`
what a run of such requests does. A `TombstoneGcBatch` puts a fresh tombstone
for every unused candidate, also for one that has a tombstone already; its
progress is then lost, so the runs are those whose batches leave tombstones with
targets alone.
-/

namespace FluxFS

open Std Kit

/-- The deletes a request reports. -/
def MetaOp.acknowledges (op : MetaOp) (chunk : ChunkId) (target : WorkerTargetId) : Bool :=
  match op with
  | .acknowledgeGcDeletes deleted => (chunk, target) ∈ deleted
  | _ => false

/-- The four requests of the tombstone workflow. -/
def MetaOp.worksTombstones : MetaOp → Bool
  | .tombstoneGcBatch _ => true
  | op => op.listsTombstones

/-- A batch names no chunk whose tombstone has its targets. -/
def MetaOp.sparesTargeted (s : Tables) : MetaOp → Bool
  | .tombstoneGcBatch candidates => candidates.all fun chunk => !s.targeted chunk
  | _ => true

/-- What a request does to a tombstone that has its targets: it keeps the targets
it does not acknowledge, or drops the tombstone with none left. -/
def Advance (op : MetaOp) (chunk : ChunkId) (old : GcTombstone) : Option GcTombstone → Prop
  | none => op.finalizes chunk = true ∧
      ∀ target ∈ old.pendingTargets, op.acknowledges chunk target = true
  | some new => new.targetsInitialized = true ∧ new.pendingTargets ⊆ old.pendingTargets ∧
      ∀ target ∈ old.pendingTargets, target ∉ new.pendingTargets →
        op.acknowledges chunk target = true

section
variable {op : MetaOp} {chunk : ChunkId}

theorem Advance.refl {t : GcTombstone} (h : t.targetsInitialized = true) :
    Advance op chunk t (some t) :=
  ⟨h, List.Subset.refl _, fun _ hin hnot => absurd hin hnot⟩

theorem Advance.trans {t u : GcTombstone} {after : Option GcTombstone}
    (h : Advance op chunk t (some u)) (h' : Advance op chunk u after) :
    Advance op chunk t after := by
  obtain ⟨-, hsub, hacked⟩ := h
  have hboth : ∀ target ∈ t.pendingTargets,
      (target ∈ u.pendingTargets → op.acknowledges chunk target = true) →
      op.acknowledges chunk target = true := by
    intro target htarget hstill
    by_cases hu : target ∈ u.pendingTargets
    · exact hstill hu
    · exact hacked target htarget hu
  cases after with
  | none =>
    obtain ⟨hfinal, hrest⟩ := h'
    exact ⟨hfinal, fun target htarget => hboth target htarget (hrest target)⟩
  | some v =>
    obtain ⟨hinit, hsub', hrest⟩ := h'
    exact ⟨hinit, List.Subset.trans hsub' hsub, fun target htarget hgone =>
      hboth target htarget fun hu => hrest target hu hgone⟩

/-- `chunk`'s tombstone advances from `s` to `t`, and none appears. -/
structure Advances (op : MetaOp) (chunk : ChunkId) (s t : Tables) : Prop where
  absent : s.tombstones.get? chunk = none → t.tombstones.get? chunk = none
  present : ∀ old, s.tombstones.get? chunk = some old → old.targetsInitialized = true →
    Advance op chunk old (t.tombstones.get? chunk)

instance : Std.Refl (Advances op chunk) where
  refl s := ⟨id, fun old hold hinit => by rw [hold]; exact .refl hinit⟩

instance : IsTrans Tables (Advances op chunk) where
  trans s t u hst htu := by
    refine ⟨fun h => htu.absent (hst.absent h), fun old hold hinit => ?_⟩
    have hfirst := hst.present old hold hinit
    cases ht : t.tombstones.get? chunk with
    | none =>
      rw [ht] at hfirst
      rw [htu.absent ht]
      exact hfirst
    | some mid =>
      rw [ht] at hfirst
      exact hfirst.trans (htu.present mid ht hfirst.1)

/-- Tombstones of other chunks do not matter. -/
theorem advances_of_eq {s t : Tables} (h : t.tombstones.get? chunk = s.tombstones.get? chunk) :
    Advances op chunk s t where
  absent hnone := h.trans hnone
  present old hold hinit := by
    rw [h, hold]
    exact .refl hinit

/-! ## One element -/

/-- The three loops look a tombstone up before they do anything. -/
theorem keeps_findTombstone {c : ChunkId} {f : GcTombstone → MetaTxn Unit}
    (h : ∀ s t, s.tombstones.get? c = some t → Advances op chunk s (f t s).2) :
    Txn.Keeps (Advances op chunk) (findTombstone c >>= f) := by
  intro s
  cases ht : s.tombstones.get? c with
  | none =>
    rw [Txn.bind_of_error (findTombstone_none ht)]
    exact Std.Refl.refl s
  | some t =>
    rw [Txn.bind_of_ok (findTombstone_run ht)]
    exact h s t ht

theorem finalize_advances {chunks : List ChunkId} (hop : op = .finalizeGcTombstones chunks) :
    Txn.Keeps (Advances op chunk) (finalizeTombstonesInTxn chunks) := by
  refine Txn.Keeps.forEach chunks fun c hc => keeps_findTombstone fun s t ht => ?_
  rw [Txn.failIf_bind_run]
  split
  · exact Std.Refl.refl s
  · rename_i hready
    obtain ⟨-, hdone⟩ := not_or.mp hready
    have hdelete : (s.tombstones.delete c).get? chunk =
        if c = chunk then none else s.tombstones.get? chunk := Keyed.get?_delete ..
    by_cases heq : c = chunk
    · subst heq
      rw [if_pos rfl] at hdelete
      refine ⟨fun _ => hdelete, fun old hold _ => ?_⟩
      show Advance op c old ((s.tombstones.delete c).get? c)
      rw [hdelete]
      cases ht.symm.trans hold
      refine ⟨by simpa [hop, MetaOp.finalizes] using hc, ?_⟩
      rw [not_not.mp hdone]
      simp
    · rw [if_neg heq] at hdelete
      exact advances_of_eq hdelete

theorem initialize_advances {chunks : List ChunkId} {targets : List WorkerTargetId} :
    Txn.Keeps (Advances op chunk) (initializeGcTargetsInTxn chunks targets) := by
  refine Txn.Keeps.forEach chunks fun c _ => keeps_findTombstone fun s t ht => ?_
  split
  · -- only a tombstone without targets gets them
    rename_i hbare
    have hid : t.chunk = c := Keyed.key_of_get? ht
    by_cases heq : t.chunk = chunk
    · refine ⟨fun hnone => ?_, fun old hold hinit => ?_⟩
      · rw [← heq, hid, ht] at hnone
        cases hnone
      · rw [← heq, hid, ht, Option.some.injEq] at hold
        rw [← hold, hbare] at hinit
        cases hinit
    · exact advances_of_eq ((get_putTombstone _ _).trans (if_neg heq))
  · exact Std.Refl.refl s

theorem acknowledge_advances {deleted : List (ChunkId × WorkerTargetId)}
    (hop : op = .acknowledgeGcDeletes deleted) :
    Txn.Keeps (Advances op chunk) (acknowledgeGcDeletesInTxn deleted) := by
  refine Txn.Keeps.forEach deleted fun row hrow => keeps_findTombstone fun s t ht => ?_
  rw [Txn.failIf_bind_run]
  split
  · exact Std.Refl.refl s
  · rename_i hinit
    have hid : t.chunk = row.1 := Keyed.key_of_get? ht
    by_cases heq : t.chunk = chunk
    · refine ⟨fun hnone => ?_, fun old hold _ => ?_⟩
      · rw [← heq, hid, ht] at hnone
        cases hnone
      · rw [← heq, hid, ht, Option.some.injEq] at hold
        subst hold
        show Advance op chunk t ((s.putTombstone _).tombstones.get? chunk)
        rw [get_putTombstone, if_pos heq]
        refine ⟨by simpa using hinit, List.filter_sublist.subset, fun target htarget hgone => ?_⟩
        -- the one target that is filtered out is the row's
        have hsame : target = row.2 := by
          by_contra hne
          exact hgone (List.mem_filter.mpr ⟨htarget, by simpa using hne⟩)
        have hmem : (chunk, target) ∈ deleted := by
          rw [← heq, hid, hsame]
          exact hrow
        simpa [hop, MetaOp.acknowledges] using hmem
    · exact advances_of_eq ((get_putTombstone _ _).trans (if_neg heq))

theorem batch_advances {now : Clock} {candidates : List ChunkId} {s : Tables}
    (hspares : MetaOp.sparesTargeted s (.tombstoneGcBatch candidates) = true) {old : GcTombstone}
    (hold : s.tombstones.get? chunk = some old) (hinit : old.targetsInitialized = true) :
    (performOp now (.tombstoneGcBatch candidates) s).2.tombstones.get? chunk = some old := by
  have hnot : chunk ∉ candidates := by
    intro hmem
    have hbare := List.all_eq_true.mp hspares chunk hmem
    simp [Tables.targeted, hold, hinit] at hbare
  have hnotTombstoned : chunk ∉ tombstoneCandidates s candidates :=
    fun hmem => hnot (mem_tombstoneCandidates.mp hmem).1
  rw [performOp_tombstoneGcBatch, get_putTombstones, if_neg hnotTombstoned]
  exact hold

/-! ## One request -/

theorem performOp_advance {now : Clock} {s : Tables} (hworks : op.worksTombstones = true)
    (hspares : op.sparesTargeted s = true) {old : GcTombstone}
    (hold : s.tombstones.get? chunk = some old) (hinit : old.targetsInitialized = true) :
    Advance op chunk old ((performOp now op s).2.tombstones.get? chunk) := by
  have hrespond : ∀ {α : Type} {x : MetaTxn α} {g : α → MetaRaftResponse},
      Txn.Keeps (Advances op chunk) x →
      Advance op chunk old (((x >>= fun a => pure (g a)) s).2.tombstones.get? chunk) := by
    intro α x g hx
    rw [Txn.bind_pure_state]
    exact (hx s).present old hold hinit
  cases op with
  | tombstoneGcBatch candidates =>
    rw [batch_advances hspares hold hinit]
    exact .refl hinit
  | finalizeGcTombstones chunks => exact hrespond (finalize_advances rfl)
  | initializeGcDeleteTargets chunks targets => exact hrespond initialize_advances
  | acknowledgeGcDeletes deleted => exact hrespond (acknowledge_advances rfl)
  | _ => cases hworks

theorem request_advance {r : MetaRequest} {s : Tables} (hworks : r.req.op.worksTombstones = true)
    (hspares : r.req.op.sparesTargeted s = true) {old : GcTombstone}
    (hold : s.tombstones.get? chunk = some old) (hinit : old.targetsInitialized = true) :
    Advance r.req.op chunk old ((applyRaftRequest r.now r.req s).2.tombstones.get? chunk) := by
  cases hexec : r.req.executes s with
  | false =>
    obtain ⟨after, htables⟩ := applyRaftRequest_of_not_executes r.now hexec
    rw [htables]
    show Advance r.req.op chunk old (s.tombstones.get? chunk)
    rw [hold]
    exact .refl hinit
  | true =>
    obtain ⟨before, after, -, htables⟩ := applyRaftRequest_of_executes r.now hexec
    have hspares' : r.req.op.sparesTargeted { s with clientRequests := before } = true := hspares
    rw [htables]
    exact performOp_advance (s := { s with clientRequests := before }) hworks hspares' hold hinit

end

/-! ## Runs -/

/-- A request of the workflow that leaves tombstones with targets alone. -/
structure TombstoneStep (s : Tables) (r : MetaRequest) : Prop where
  works : r.req.op.worksTombstones = true
  spares : r.req.op.sparesTargeted s = true

instance (s : Tables) (r : MetaRequest) : Decidable (TombstoneStep s r) :=
  decidable_of_iff (r.req.op.worksTombstones = true ∧ r.req.op.sparesTargeted s = true)
    ⟨fun ⟨h1, h2⟩ => ⟨h1, h2⟩, fun ⟨h1, h2⟩ => ⟨h1, h2⟩⟩

/-- A request of the run acknowledged the delete and took the target off. -/
def AckedIn (s : Tables) (requests : List MetaRequest) (chunk : ChunkId) (target : WorkerTargetId) :
    Prop :=
  ∃ pre r post, requests = pre ++ r :: post ∧ r.req.op.acknowledges chunk target = true ∧
    (runMeta s pre).awaits chunk target = true ∧
    (runMeta s (pre ++ [r])).awaits chunk target = false

theorem AckedIn.cons {s : Tables} {requests : List MetaRequest} {chunk : ChunkId}
    {target : WorkerTargetId} (r : MetaRequest)
    (h : AckedIn (applyRaftRequest r.now r.req s).2 requests chunk target) :
    AckedIn s (r :: requests) chunk target := by
  obtain ⟨pre, q, post, rfl, hacks, hbefore, hafter⟩ := h
  exact ⟨r :: pre, q, post, rfl, hacks, hbefore, hafter⟩

/-- The tombstone is still there with fewer targets, or it was finalised after the
last of them acknowledged. -/
def Progressed (s : Tables) (requests : List MetaRequest) (chunk : ChunkId)
    (targets : List WorkerTargetId) : Prop :=
  (∃ t, (runMeta s requests).tombstones.get? chunk = some t ∧ t.targetsInitialized = true ∧
    t.pendingTargets ⊆ targets ∧
    ∀ target ∈ targets, target ∉ t.pendingTargets → AckedIn s requests chunk target) ∨
  ∃ pre r post, requests = pre ++ r :: post ∧ r.req.op.finalizes chunk = true ∧
    (runMeta s (pre ++ [r])).tombstones.get? chunk = none ∧
    ∀ target ∈ targets, AckedIn s pre chunk target

theorem finalizes_not_acknowledges {op : MetaOp} {chunk : ChunkId} {target : WorkerTargetId}
    (h : op.finalizes chunk = true) : op.acknowledges chunk target = false := by
  cases op with
  | finalizeGcTombstones => rfl
  | _ => cases h

theorem progressed_cons {s : Tables} {r : MetaRequest} {requests : List MetaRequest}
    {chunk : ChunkId} {old new : GcTombstone} (hold : s.tombstones.get? chunk = some old)
    (hnew : (applyRaftRequest r.now r.req s).2.tombstones.get? chunk = some new)
    (hstep : Advance r.req.op chunk old (some new))
    (hrest : Progressed (applyRaftRequest r.now r.req s).2 requests chunk new.pendingTargets) :
    Progressed s (r :: requests) chunk old.pendingTargets := by
  obtain ⟨-, hsub, hacked⟩ := hstep
  -- a target of the old set was taken off by this request or by a later one
  have hacks : ∀ {later : List MetaRequest} {target : WorkerTargetId},
      target ∈ old.pendingTargets →
      (target ∈ new.pendingTargets →
        AckedIn (applyRaftRequest r.now r.req s).2 later chunk target) →
      AckedIn s (r :: later) chunk target := by
    intro later target htarget hlater
    by_cases hstill : target ∈ new.pendingTargets
    · exact (hlater hstill).cons r
    · refine ⟨[], r, later, rfl, hacked target htarget hstill, ?_, ?_⟩
      · show s.awaits chunk target = true
        simpa [Tables.awaits, hold] using htarget
      · show (applyRaftRequest r.now r.req s).2.awaits chunk target = false
        simpa [Tables.awaits, hnew] using hstill
  rcases hrest with ⟨t, ht, hinit, hsub', hgone⟩ | ⟨pre, q, post, rfl, hfinal, hnone, hall⟩
  · exact .inl ⟨t, ht, hinit, List.Subset.trans hsub' hsub, fun target htarget hnot =>
      hacks htarget fun hstill => hgone target hstill hnot⟩
  · exact .inr ⟨r :: pre, q, post, rfl, hfinal, hnone, fun target htarget =>
      hacks htarget (hall target)⟩

/-- In every run of tombstone requests whose batches name no chunk whose tombstone
has its targets: a tombstone with targets keeps those that have not acknowledged
their delete, until it is finalised, and then all of them have. -/
theorem delete_progress_is_kept (s : Tables) (requests : List MetaRequest)
    (hsteps : Along metaStep TombstoneStep s requests) (chunk : ChunkId)
    (targets : List WorkerTargetId)
    (htargets : s.tombstones.get? chunk = some ⟨chunk, true, targets⟩) :
    Progressed s requests chunk targets := by
  -- over the run, for the tombstone each request finds
  suffices h : ∀ (requests : List MetaRequest) (s : Tables) (old : GcTombstone),
      Along metaStep TombstoneStep s requests → s.tombstones.get? chunk = some old →
      old.targetsInitialized = true → Progressed s requests chunk old.pendingTargets from
    h requests s _ hsteps htargets rfl
  clear hsteps htargets
  intro requests
  induction requests with
  | nil =>
    intro s old _ hold hinit
    exact .inl ⟨old, hold, hinit, List.Subset.refl _, fun _ hin hnot => absurd hin hnot⟩
  | cons r requests ih =>
    intro s old hsteps hold hinit
    obtain ⟨hstep, hrest⟩ := hsteps
    have hadvance := request_advance hstep.works hstep.spares hold hinit
    cases hnew : (applyRaftRequest r.now r.req s).2.tombstones.get? chunk with
    | none =>
      rw [hnew] at hadvance
      obtain ⟨hfinal, hacked⟩ := hadvance
      refine .inr ⟨[], r, requests, rfl, hfinal, hnew, fun target htarget => ?_⟩
      have hack := hacked target htarget
      rw [finalizes_not_acknowledges hfinal] at hack
      cases hack
    | some new =>
      rw [hnew] at hadvance
      exact progressed_cons hold hnew hadvance
        (ih _ new (hrest _ rfl) hnew hadvance.1)

/-- A tombstone with two targets. -/
def sampleTargets : List MetaRequest :=
  [⟨1, none, 0, .tombstoneGcBatch [.ofByte 1]⟩,
    ⟨2, none, 0, .initializeGcDeleteTargets [.ofByte 1] [7, 8]⟩]

/-- Both targets acknowledge, a batch asks for another chunk, and the tombstone is
finalised. -/
def sampleReclaim : List MetaRequest :=
  [⟨3, none, 0, .acknowledgeGcDeletes [(.ofByte 1, 7)]⟩,
    ⟨4, none, 0, .tombstoneGcBatch [.ofByte 2]⟩,
    ⟨5, none, 0, .acknowledgeGcDeletes [(.ofByte 1, 8)]⟩,
    ⟨6, none, 0, .finalizeGcTombstones [.ofByte 1]⟩]

theorem delete_progress_is_kept_sampleReclaim :
    Progressed (runMeta (Tables.fresh 0) sampleTargets) sampleReclaim (.ofByte 1) [7, 8] ∧
      (runMeta (Tables.fresh 0) (sampleTargets ++ sampleReclaim)).tombstones.get? (.ofByte 1) =
        none := by
  have hsteps : Along metaStep TombstoneStep (runMeta (Tables.fresh 0) sampleTargets)
      sampleReclaim := by decide +kernel
  exact ⟨delete_progress_is_kept _ sampleReclaim hsteps (.ofByte 1) [7, 8] (by decide +kernel),
    by decide +kernel⟩

/-- One target acknowledges; another collector's batch names the chunk again, and
gives the fresh tombstone the one target it can reach. -/
def sampleRestart : List MetaRequest :=
  [⟨3, none, 0, .acknowledgeGcDeletes [(.ofByte 1, 7)]⟩,
    ⟨4, none, 0, .tombstoneGcBatch [.ofByte 1]⟩,
    ⟨5, none, 0, .initializeGcDeleteTargets [.ofByte 1] [7]⟩,
    ⟨6, none, 0, .acknowledgeGcDeletes [(.ofByte 1, 7)]⟩,
    ⟨7, none, 0, .finalizeGcTombstones [.ofByte 1]⟩]

/-- The tombstone that waited for target 8 is finalised, and target 8 never
acknowledged its delete. -/
theorem batch_forgets_pending_target :
    (runMeta (Tables.fresh 0) sampleTargets).tombstones.get? (.ofByte 1) =
      some ⟨.ofByte 1, true, [7, 8]⟩ ∧
    (runMeta (Tables.fresh 0) (sampleTargets ++ sampleRestart.take 1)).tombstones.get? (.ofByte 1) =
      some ⟨.ofByte 1, true, [8]⟩ ∧
    (applyRaftRequest 7 ⟨none, 0, .finalizeGcTombstones [.ofByte 1]⟩
      (runMeta (Tables.fresh 0) (sampleTargets ++ sampleRestart.take 4))).1 = .empty ∧
    (runMeta (Tables.fresh 0) (sampleTargets ++ sampleRestart)).tombstones.get? (.ofByte 1) = none ∧
    ∀ r ∈ sampleTargets ++ sampleRestart, r.req.op.acknowledges (.ofByte 1) 8 = false := by
  decide +kernel

end FluxFS
