import FluxFS.Client.Backed

/-!
# Sweep — stop-the-world collection

`BeginGc` computes the live chunks once, from the manifests in use, and its lease
keeps every data request out until it is released. A sweep that still holds its
lease deletes nothing that a stored inode refers to. It does not look at write
tickets, though: a chunk that was reserved and put before `BeginGc` may be swept
and then committed. And any client may release the lease of a sweep that is still
going on.
-/

namespace FluxFS

open Std Kit

/-! ## The lease -/

section
variable {now : Clock} {op : MetaOp} {faulty records : Prop} {start : Keyed Inode.id} {s t : Tables}

theorem lease_edit (e : Edit now op faulty records start s t) :
    t.gcLease = s.gcLease ∨ op.setsLease t.gcLease = true := by
  cases e with
  | aside _ _ _ hlease => exact hlease
  | closePresence =>
    left
    exact reapAll_keep (P := fun a => a.gcLease = s.gcLease) (fun _ _ _ ha _ _ _ => ha) _ rfl
  | _ => exact .inl rfl

/-- A request that neither begins nor finishes a sweep leaves the lease. -/
theorem lease_request (hs : Grounded s) (now : Clock) (req : MetaRaftRequest) :
    (applyRaftRequest now req s).2.gcLease = s.gcLease ∨
      req.op.setsLease (applyRaftRequest now req s).2.gcLease = true := by
  apply request_keep (P := fun t => t.gcLease = s.gcLease ∨ req.op.setsLease t.gcLease = true) hs
  · intro a b ha e
    rcases lease_edit e with heq | hset
    · rw [heq]
      exact ha
    · exact .inr hset
  · exact .inl rfl

/-- The outcome of an operation that leaves inodes and manifests. -/
def LeavesData {β : Type} (s : Tables) (o : Except FluxError β × Tables) : Prop :=
  o.2.inodes = s.inodes ∧ o.2.manifests = s.manifests

theorem leavesData_respond {α β : Type} {x : MetaTxn α} {g : α → β} (h : LeavesData s (x s)) :
    LeavesData s ((x >>= fun a => pure (g a)) s) := by
  unfold LeavesData
  rw [Txn.bind_pure_state]
  exact h

/-- The lease lets only such operations through. -/
theorem leavesData_performOp (hlease : s.gcLease.isSome) (hop : op.allowedUnderLease = true) :
    LeavesData s (performOp now op s) := by
  cases op with
  | registerWorker registration =>
    apply leavesData_respond
    refine outcome_query_ok (fun _ => ⟨rfl, rfl⟩) fun _ _ => ?_
    refine Txn.outcome_reads (outcome_guard (fun _ => ⟨rfl, rfl⟩) fun _ => ?_)
    exact outcome_checkDeadline (fun _ => ⟨rfl, rfl⟩) ⟨rfl, rfl⟩
  | beginGc leaseId =>
    apply leavesData_respond
    refine Txn.outcome_reads ?_
    obtain ⟨current, hcurrent⟩ := Option.isSome_iff_exists.mp hlease
    rw [hcurrent]
    show LeavesData s ((if current = leaseId then gcPlanInTxn leaseId else Txn.fail .busy) s)
    split
    · unfold LeavesData
      rw [gcPlan_state]
      exact ⟨rfl, rfl⟩
    · exact ⟨rfl, rfl⟩
  | finishGc leaseId =>
    apply leavesData_respond
    exact Txn.outcome_reads (outcome_guard (fun _ => ⟨rfl, rfl⟩) fun _ => ⟨rfl, rfl⟩)
  | _ => cases hop

/-- Under a lease no request changes what is referred to. -/
theorem refersTo_under_lease (hlease : s.gcLease.isSome) {req : MetaRaftRequest} {len : Nat}
    {c : ChunkId} (h : (applyRaftRequest now req s).2.RefersTo len c) : s.RefersTo len c := by
  have hsame : (applyRaftRequest now req s).2.inodes = s.inodes ∧
      (applyRaftRequest now req s).2.manifests = s.manifests := by
    cases hexec : req.executes s with
    | false =>
      obtain ⟨after, heq⟩ := applyRaftRequest_of_not_executes now hexec
      rw [heq]
      exact ⟨rfl, rfl⟩
    | true =>
      have hop : req.op.allowedUnderLease = true := by
        rw [MetaRaftRequest.executes, Bool.and_eq_true, Bool.or_eq_true] at hexec
        refine hexec.1.resolve_left fun hnone => ?_
        rw [Option.isNone_iff_eq_none.mp hnone] at hlease
        cases hlease
      obtain ⟨before, after, _, heq⟩ := applyRaftRequest_of_executes now hexec
      rw [heq]
      exact leavesData_performOp (s := { s with clientRequests := before }) hlease hop
  apply refersTo_mono h
  · intro mid hmid
    rw [Tables.activeManifests, hsame.1] at hmid
    exact hmid
  · intro mid _ m hm
    rw [hsame.2] at hm
    exact hm

/-! ## Plans -/

theorem mem_collectLive {ids : List ManifestId} {live : List ChunkId}
    (h : collectLive s ids = .ok live) {mid : ManifestId} (hmid : mid ∈ ids) {m : Manifest}
    (hm : s.manifests[mid]? = some m) {c : ChunkId} (hc : c ∈ m.localChunks) : c ∈ live := by
  induction ids generalizing live with
  | nil => cases hmid
  | cons id ids ih =>
    rw [collectLive] at h
    split at h
    · cases h
    · rename_i manifest hmanifest
      split at h
      · cases h
      · rename_i rest hrest
        cases h
        rw [List.mem_append]
        rcases List.mem_cons.mp hmid with rfl | hmid
        · rw [hm] at hmanifest
          cases hmanifest
          exact .inl hc
        · exact .inr (ih hrest hmid)

/-- The plan is for this lease and has every chunk that is referred to. -/
def GcPlan.Covers (plan : GcPlan) (s : Tables) (leaseId : GcLeaseId) : Prop :=
  plan.leaseId = leaseId ∧ ∀ len c, s.RefersTo len c → c ∈ plan.liveChunks

theorem gcPlanInTxn_ok {leaseId : GcLeaseId} {plan : GcPlan}
    (h : (gcPlanInTxn leaseId s).1 = .ok plan) : plan.Covers s leaseId := by
  rw [gcPlanInTxn, Txn.query_bind_run] at h
  split at h
  · rename_i live hlive
    cases h
    refine ⟨rfl, fun len c ⟨mid, hmid, m, offset, hm, he⟩ => ?_⟩
    exact Table.mem_ordSet.mpr (mem_collectLive hlive hmid hm (mem_localChunks he))
  · cases h

theorem currentGcPlan_ok {plan : GcPlan} (h : currentGcPlan s = .ok (some plan)) :
    ∃ leaseId, s.gcLease = some leaseId ∧ plan.Covers s leaseId := by
  unfold currentGcPlan at h
  split at h
  · cases h
  · rename_i leaseId hlease
    cases hplan : (gcPlanInTxn leaseId s).1 with
    | error e =>
      rw [hplan] at h
      cases h
    | ok made =>
      rw [hplan] at h
      cases h
      exact ⟨leaseId, hlease, gcPlanInTxn_ok hplan⟩

theorem beginGcInTxn_ok {leaseId : GcLeaseId} {plan : GcPlan}
    (h : beginGcInTxn leaseId s = (.ok plan, t)) :
    t.gcLease = some leaseId ∧ plan.Covers t leaseId := by
  have hstate : ∀ {u v : Tables} {made : GcPlan}, gcPlanInTxn leaseId u = (.ok made, v) →
    v = u := by
    intro u v made hplan
    have hsame : (gcPlanInTxn leaseId u).2 = u := gcPlan_state
    rw [hplan] at hsame
    exact hsame
  rw [beginGcInTxn, Txn.reads_bind_run] at h
  cases hlease : s.gcLease with
  | some current =>
    rw [hlease] at h
    change (if current = leaseId then gcPlanInTxn leaseId else Txn.fail .busy) s = _ at h
    split at h
    · rename_i heq
      have hsame := hstate h
      subst hsame
      exact ⟨by rw [hlease, heq], gcPlanInTxn_ok (by rw [h])⟩
    · cases h
  | none =>
    rw [hlease] at h
    simp only [Txn.modify_bind_run, Txn.reads_bind_run] at h
    rcases Txn.bind_cases h with ⟨made, v, hmade, h⟩ | ⟨_, _, herr⟩
    · have hsame := hstate hmade
      have hcovers := gcPlanInTxn_ok (congrArg Prod.fst hmade)
      subst hsame
      cases h
      exact ⟨rfl, hcovers⟩
    · cases herr

theorem mapGcPlan_ok {response : MetaRaftResponse} {plan : GcPlan}
    (h : mapGcPlan response = .ok plan) : response = .gcPlan plan := by
  cases response with
  | gcPlan made =>
    cases h
    rfl
  | _ => cases h

/-- A `BeginGc` that is answered with a plan holds its lease. -/
theorem beginGc_answered {rpc : Rpc} {leaseId : GcLeaseId} {plan : GcPlan}
    (hfresh : rpc.isFresh s = true)
    (h : (rpc.call (.beginGc leaseId) mapGcPlan s).1 = .ok plan) :
    (rpc.call (.beginGc leaseId) mapGcPlan s).2.gcLease = some leaseId ∧
      plan.Covers (rpc.call (.beginGc leaseId) mapGcPlan s).2 leaseId := by
  obtain ⟨hresponse, htables⟩ := Rpc.call_ok h
  have hplan := mapGcPlan_ok hresponse
  obtain ⟨before, after, made, t, hok, hrespond, happlied⟩ :=
    Rpc.performed (.beginGc leaseId) hfresh rfl (by simp [hplan])
  rw [hplan] at hrespond
  cases hrespond
  rw [htables, happlied]
  have hbegun := beginGcInTxn_ok hok
  exact hbegun

end

/-! ## Sweeps that hold their lease -/

/-- The plan a sweep carries out. -/
def Sweep.plan? : Sweep → Option GcPlan
  | .planned plan | .sweeping plan _ => some plan
  | _ => none

/-- The chunks a sweep has still to delete. -/
def Sweep.todo : Sweep → List ChunkId
  | .sweeping _ todo => todo
  | _ => []

/-- Before each delete of a sweep: its lease is still there, and no write ticket
holds the chunk. -/
def SweepsUnclaimed (st : Cluster) : ClusterAction → Prop
  | .sweep q action => ∀ c ∈ (st.sweep q).deletes action,
      st.tables.gcLease = (st.sweep q).plan?.map (·.leaseId) ∧ c ∉ st.tables.reservedChunks
  | _ => True

instance (st : Cluster) (a : ClusterAction) : Decidable (SweepsUnclaimed st a) :=
  match a with
  | .sweep q action => inferInstanceAs (Decidable (∀ c ∈ (st.sweep q).deletes action,
      st.tables.gcLease = (st.sweep q).plan?.map (·.leaseId) ∧ c ∉ st.tables.reservedChunks))
  | .writer .. | .pass .. | .request _ | .repair .. => .isTrue trivial

/-- No sweep has deleted the chunk since it was last put. -/
def Unswept (st : Cluster) (_ : Nat) (c : ChunkId) : Prop := c ∉ st.swept

/-- What keeps sweeps off live chunks. -/
structure SweepInv (hash : Bytes → ChunkId) (st : Cluster) : Prop where
  backed : Backed hash Unswept st
  lease : ∀ leaseId, st.tables.gcLease = some leaseId → leaseId ∈ st.leases
  plans : ∀ q plan, (st.sweep q).plan? = some plan → plan.leaseId ∈ st.leases ∧
    (st.tables.gcLease = some plan.leaseId →
      ∀ len c, st.tables.RefersTo len c → c ∈ plan.liveChunks)
  todo : ∀ q plan, (st.sweep q).plan? = some plan → ∀ c ∈ (st.sweep q).todo, c ∉ plan.liveChunks

/-! ## One step -/

section
variable {hash : Bytes → ChunkId} {st st' : Cluster} {a : ClusterAction}

/-- A step moves one sweep at most. -/
theorem clusterStep_sweep (h : clusterStep hash st a = some st') (q : Nat) :
    (st'.sweep q = st.sweep q ∧ st.leases ⊆ st'.leases) ∨
      ∃ action, a = .sweep q action ∧ st'.leases = action.lease?.toList ++ st.leases ∧
        sweepStep st.tables st.workers (st.sweep q) action =
          some (st'.tables, st'.workers, st'.sweep q) := by
  cases a with
  | writer w action =>
    obtain ⟨_, h⟩ := Option.ite_none_right_eq_some.mp h
    obtain ⟨_, _, rfl⟩ := Option.map_eq_some_iff.mp h
    exact .inl ⟨rfl, List.Subset.refl _⟩
  | pass p action =>
    obtain ⟨_, _, rfl⟩ := Option.map_eq_some_iff.mp h
    exact .inl ⟨rfl, List.Subset.refl _⟩
  | sweep v action =>
    obtain ⟨_, h⟩ := Option.ite_none_right_eq_some.mp h
    obtain ⟨⟨t, ws, next⟩, hstep, rfl⟩ := Option.map_eq_some_iff.mp h
    by_cases hv : v = q
    · subst hv
      refine .inr ⟨action, rfl, rfl, ?_⟩
      rw [hstep]
      simp [Cluster.sweep]
    · refine .inl ⟨?_, List.subset_append_right _ _⟩
      show ((st.sweeps.insert v next)[q]?).getD .idle = _
      rw [Table.get_insert, if_neg hv]
      rfl
  | request r =>
    obtain ⟨_, h⟩ := Option.ite_none_right_eq_some.mp h
    cases h
    exact .inl ⟨rfl, List.Subset.refl _⟩
  | repair c source target =>
    obtain ⟨_, _, rfl⟩ := Option.map_eq_some_iff.mp h
    exact .inl ⟨rfl, List.Subset.refl _⟩

/-- A `BeginGc` of a step starts a sweep under a new lease. -/
theorem begin_sent {r : MetaRequest} {leaseId : GcLeaseId} (h : clusterStep hash st a = some st')
    (hr : a.sends st = some r) (hop : r.req.op = .beginGc leaseId) :
    leaseId ∉ st.leases ∧ leaseId ∈ st'.leases := by
  cases a with
  | writer _ action | pass _ action =>
    simp only [ClusterAction.sends, Writer.sends, Pass.sends] at hr
    split at hr
    all_goals cases hr
    all_goals cases hop
  | sweep q action =>
    obtain ⟨hnew, h⟩ := Option.ite_none_right_eq_some.mp h
    obtain ⟨_, _, rfl⟩ := Option.map_eq_some_iff.mp h
    simp only [ClusterAction.sends, Sweep.sends] at hr
    split at hr
    · cases hr
      cases hop
      exact ⟨hnew _ rfl, List.mem_append_left _ (List.mem_singleton.mpr rfl)⟩
    all_goals cases hr
    all_goals cases hop
  | request r =>
    cases hr
    have hother := (Option.ite_none_right_eq_some.mp h).1
    rw [hop] at hother
    cases hother
  | repair c source target => cases hr

/-- What a step does to the lease: nothing, releases it, or takes a new one. -/
theorem lease_step (hgrounded : Grounded st.tables) (h : clusterStep hash st a = some st')
    {leaseId : GcLeaseId} (hlease : st'.tables.gcLease = some leaseId) :
    st.tables.gcLease = some leaseId ∨ (leaseId ∉ st.leases ∧ leaseId ∈ st'.leases) := by
  rcases clusterStep_sent h with heq | ⟨r, hr, heq⟩
  · rw [heq] at hlease
    exact .inl hlease
  · rcases lease_request hgrounded r.now r.req with hsame | hset
    · rw [heq, hsame] at hlease
      exact .inl hlease
    · rw [← heq, hlease] at hset
      right
      cases hop : r.req.op with
      | beginGc l =>
        rw [hop, MetaOp.setsLease, decide_eq_true_eq, Option.some.injEq] at hset
        rw [hset]
        exact begin_sent h hr hop
      | finishGc l =>
        rw [hop] at hset
        cases hset
      | _ =>
        rw [hop] at hset
        cases hset

/-- While the lease stays, no step adds a reference. -/
theorem refersTo_step (h : clusterStep hash st a = some st') (hlease : st.tables.gcLease.isSome)
    {len : Nat} {c : ChunkId} (hc : st'.tables.RefersTo len c) : st.tables.RefersTo len c := by
  rcases clusterStep_sent h with heq | ⟨r, _, heq⟩
  · rw [heq] at hc
    exact hc
  · rw [heq] at hc
    exact refersTo_under_lease hlease hc

end

section
variable {s t : Tables} {ws ws' : Workers} {q next : Sweep} {a : SweepAction} {plan : GcPlan}

/-- Where the plan of a sweep that has moved comes from. -/
theorem sweepStep_plan (h : sweepStep s ws q a = some (t, ws', next))
    (hplan : next.plan? = some plan) :
    (q.plan? = some plan ∧ t = s) ∨
      ∃ leaseId, t.gcLease = some leaseId ∧ plan.Covers t leaseId := by
  unfold sweepStep at h
  split at h
  case h_1 =>
      obtain ⟨hfresh, h⟩ := Option.ite_none_right_eq_some.mp h
      cases h
      unfold onReply at hplan
      split at hplan
      · rename_i hok
        cases hplan
        exact .inr ⟨_, beginGc_answered hfresh hok⟩
      · cases hplan
  case h_2 =>
      split at h
      · rename_i hcurrent
        cases h
        cases hplan
        exact .inr (currentGcPlan_ok hcurrent)
      · cases h
        cases hplan
  case h_4 =>
      split at h
      all_goals
        cases h
        try cases hplan
      exact .inl ⟨rfl, rfl⟩
  all_goals
    repeat' split at h
  all_goals
    cases h
  all_goals
    first
    | exact .inl ⟨hplan, rfl⟩
    | cases hplan

/-- A sweep only has chunks to delete that its plan does not list. -/
theorem sweepStep_todo (h : sweepStep s ws q a = some (t, ws', next))
    (hplan : next.plan? = some plan) {c : ChunkId} (hc : c ∈ next.todo) :
    c ∉ plan.liveChunks ∨ (q.plan? = some plan ∧ c ∈ q.todo) := by
  unfold sweepStep at h
  split at h
  case h_3 =>
      cases h
      cases hplan
      left
      exact of_decide_eq_true (List.mem_filter.mp hc).2
  case h_5 =>
      cases h
      exact .inr ⟨hplan, List.mem_cons_of_mem _ hc⟩
  case h_4 =>
      split at h
      all_goals
        cases h
        try cases hplan
      exact .inr ⟨rfl, hc⟩
  case h_1 =>
      obtain ⟨_, h⟩ := Option.ite_none_right_eq_some.mp h
      cases h
      unfold onReply at hc
      split at hc <;> cases hc
  all_goals
    repeat' split at h
  all_goals
    cases h
  all_goals
    cases hc

end

/-! ## Runs -/

section
variable {hash : Bytes → ChunkId} {st st' : Cluster} {a : ClusterAction}

theorem SweepInv.fresh (hash : Bytes → ChunkId) (start : Int) :
    SweepInv hash (Cluster.fresh start) where
  backed := Backed.fresh hash Unswept start
  lease leaseId h := nomatch h
  plans q plan h := by simp [Cluster.sweep, Cluster.fresh, Sweep.plan?] at h
  todo q plan h := by simp [Cluster.sweep, Cluster.fresh, Sweep.plan?] at h

/-- What a sweep deletes under its lease and past every ticket is not in use. -/
theorem SweepInv.unused {q : Nat} {action : SweepAction} (h : SweepInv hash st)
    (hguard : SweepsUnclaimed st (.sweep q action)) {c : ChunkId}
    (hc : (st.sweep q).deletes action = some c) : st.tables.Unused c := by
  obtain ⟨hlease, hfree⟩ := hguard c hc
  have htodo : c ∈ (st.sweep q).todo ∧ ∃ plan, (st.sweep q).plan? = some plan := by
    unfold Sweep.deletes at hc
    split at hc
    · rename_i plan d todo target delivery hq
      rw [hq]
      split at hc
      · cases hc
      · cases hc
        exact ⟨List.mem_cons_self, plan, rfl⟩
    · cases hc
  obtain ⟨hmem, plan, hplan⟩ := htodo
  rw [hplan] at hlease
  have hlive := (h.plans q plan hplan).2 hlease
  have hdead := h.todo q plan hplan c hmem
  rw [unused_iff]
  constructor
  · intro mid hmid m hm hcm
    obtain ⟨offset, len, he⟩ := localChunks_extent hcm
    exact hdead (hlive len c ⟨mid, hmid, m, offset, hm, he⟩)
  · intro ticket row hrow hcr
    exact hfree (List.mem_flatMap.mpr ⟨row, Keyed.mem_rows_of_get? hrow, hcr⟩)

theorem swept_writer {w : Nat} {action : WriterAction}
    (h : clusterStep hash st (.writer w action) = some st') :
    st'.swept = st.swept.filter (some · ≠ (st.writer w).stores hash action) := by
  obtain ⟨_, h⟩ := Option.ite_none_right_eq_some.mp h
  obtain ⟨_, _, rfl⟩ := Option.map_eq_some_iff.mp h
  rfl

/-- A chunk in use is not swept by a guarded step. -/
theorem SweepInv.unswept (h : SweepInv hash st) (hguard : SweepsUnclaimed st a)
    (hstep : clusterStep hash st a = some st') {c : ChunkId} (hused : ¬ st.tables.Unused c)
    (hc : c ∉ st.swept) : c ∉ st'.swept := by
  cases a with
  | writer w action =>
    rw [swept_writer hstep]
    exact fun hmem => hc (List.mem_filter.mp hmem).1
  | pass p action =>
    obtain ⟨_, _, rfl⟩ := Option.map_eq_some_iff.mp hstep
    exact hc
  | sweep q action =>
    obtain ⟨_, hstep⟩ := Option.ite_none_right_eq_some.mp hstep
    obtain ⟨_, _, rfl⟩ := Option.map_eq_some_iff.mp hstep
    intro hmem
    rcases List.mem_append.mp hmem with hnew | hold
    · exact hused (h.unused hguard (Option.mem_toList.mp hnew))
    · exact hc hold
  | request r =>
    obtain ⟨_, hstep⟩ := Option.ite_none_right_eq_some.mp hstep
    cases hstep
    exact hc
  | repair c source target =>
    obtain ⟨_, _, rfl⟩ := Option.map_eq_some_iff.mp hstep
    exact hc

theorem SweepInv.step (h : SweepInv hash st)
    (hok : SweepsUnclaimed st a ∧ st.tables.GenerationsBelowMax)
    (hstep : clusterStep hash st a = some st') : SweepInv hash st' := by
  obtain ⟨hguard, hmax⟩ := hok
  have hleases : st.leases ⊆ st'.leases := by
    rcases clusterStep_sweep hstep 0 with ⟨_, hsub⟩ | ⟨action, _, heq, _⟩
    · exact hsub
    · rw [heq]
      exact List.subset_append_right _ _
  have hbacked : Backed hash Unswept st' := by
    apply h.backed.step hmax hstep
    · exact fun _ c hused hc => h.unswept hguard hstep hused hc
    · rintro w job expected data rest stored target hw rfl
      intro hmem
      rw [swept_writer hstep, hw] at hmem
      exact of_decide_eq_true (List.mem_filter.mp hmem).2 rfl
  have hplans : ∀ plan : GcPlan, plan.leaseId ∈ st.leases →
      (st.tables.gcLease = some plan.leaseId →
        ∀ len c, st.tables.RefersTo len c → c ∈ plan.liveChunks) →
      st'.tables.gcLease = some plan.leaseId →
        ∀ len c, st'.tables.RefersTo len c → c ∈ plan.liveChunks := by
    intro plan hknown hlive hlease len c hc
    rcases lease_step h.backed.grounded hstep hlease with hsame | ⟨hnew, _⟩
    · exact hlive hsame len c (refersTo_step hstep (by rw [hsame]; rfl) hc)
    · exact absurd hknown hnew
  have hlease : ∀ leaseId, st'.tables.gcLease = some leaseId → leaseId ∈ st'.leases := by
    intro leaseId hlease
    rcases lease_step h.backed.grounded hstep hlease with hsame | ⟨_, hnew⟩
    · exact hleases (h.lease leaseId hsame)
    · exact hnew
  refine ⟨hbacked, hlease, fun q plan hplan => ?_, fun q plan hplan c hc => ?_⟩
  · rcases clusterStep_sweep hstep q with ⟨hq, _⟩ | ⟨action, _, _, hmove⟩
    · rw [hq] at hplan
      obtain ⟨hknown, hlive⟩ := h.plans q plan hplan
      exact ⟨hleases hknown, hplans plan hknown hlive⟩
    · rcases sweepStep_plan hmove hplan with ⟨hold, _⟩ | ⟨leaseId, hset, hid, hcovers⟩
      · obtain ⟨hknown, hlive⟩ := h.plans q plan hold
        exact ⟨hleases hknown, hplans plan hknown hlive⟩
      · exact ⟨hid ▸ hlease leaseId hset, fun _ => hcovers⟩
  · rcases clusterStep_sweep hstep q with ⟨hq, _⟩ | ⟨action, _, _, hmove⟩
    · rw [hq] at hplan hc
      exact h.todo q plan hplan c hc
    · rcases sweepStep_todo hmove hplan hc with hdead | ⟨hold, hc⟩
      · exact hdead
      · exact h.todo q plan hold c hc

end

/-- For every interleaving of writers, passes, sweeps, lease releases and other
requests in which each delete of a sweep finds its lease still there and the chunk
in no write ticket, while generations can advance: no chunk that a stored inode's
manifest refers to has been swept since it was last put. -/
theorem stop_the_world_gc_spares_live_chunks (hash : Bytes → ChunkId) (start : Int)
    (actions : List ClusterAction) (st : Cluster)
    (hok : Along (clusterStep hash)
      (fun st a => SweepsUnclaimed st a ∧ st.tables.GenerationsBelowMax)
      (Cluster.fresh start) actions)
    (hrun : exec (clusterStep hash) (Cluster.fresh start) actions = some st)
    (c : ChunkId) (hc : st.tables.References c) : c ∉ st.swept := by
  have hinv : SweepInv hash st :=
    exec_invariant_along (fun _ _ _ h ha hstep => h.step ha hstep) actions _ st
      (SweepInv.fresh hash start) hok hrun
  obtain ⟨id, i, mid, m, hi, hmid, hm, hc⟩ := hc
  obtain ⟨offset, len, he⟩ := localChunks_extent hc
  exact hinv.backed.live len c
    ⟨mid, activeManifests_of_stored hi hmid, m, offset, hm, he⟩

/-! ## One sweep and one write -/

/-- A sweep under lease 7 lists the sample chunk. -/
def sampleSweepList : List ClusterAction :=
  [.sweep 0 (.begin 7 ⟨.answered, 6, 20, 0⟩), .sweep 0 (.list [sampleChunk])]

/-- The sweep deletes one chunk. -/
def sampleSweepDelete : List ClusterAction := [.sweep 0 (.delete 0 .answered), .sweep 0 .next]

/-- The sweep gives its lease back. -/
def sampleSweepFinish : List ClusterAction := [.sweep 0 (.finish ⟨.answered, 6, 21, 0⟩)]

/-- The chunk a failed write left behind is swept, and then written again. -/
def sampleSweptAndRewritten : List ClusterAction :=
  sampleOrphan ++ sampleSweepList ++ sampleSweepDelete ++ sampleSweepFinish ++
    sampleWrite 1 2 40 ++ sampleCommit 1 41

theorem stop_the_world_gc_spares_live_chunks_sampleSweptAndRewritten :
    ∃ st, exec (clusterStep PackStore.sampleHash) (Cluster.fresh 0) sampleSweptAndRewritten =
        some st ∧ st.tables.References sampleChunk ∧ sampleChunk ∉ st.swept := by
  have hdone : (exec (clusterStep PackStore.sampleHash) (Cluster.fresh 0)
      sampleSweptAndRewritten).any (fun st => st.tables.References sampleChunk) = true := by
    decide +kernel
  obtain ⟨st, hrun, href⟩ := (Option.any_eq_true _ _).mp hdone
  have href := of_decide_eq_true href
  exact ⟨st, hrun, href, stop_the_world_gc_spares_live_chunks PackStore.sampleHash 0 _ st
    (by decide +kernel) hrun sampleChunk href⟩

/-- A write reserves and puts its chunk before `BeginGc` and commits after
`FinishGc`. -/
def sampleSweptReservation : List ClusterAction :=
  .request ⟨1, none, 0, .create rootInode "f" .regular 0o644 0 0 none⟩ :: sampleWrite 0 1 10 ++
    sampleSweepList ++ sampleSweepDelete ++ sampleSweepFinish ++ sampleCommit 0 41

/-- Another client releases the lease of the sweep, and the chunk is written before
the sweep gets to it. -/
def sampleReleasedSweep : List ClusterAction :=
  sampleOrphan ++ sampleSweepList ++
    [.sweep 1 .observe, .sweep 1 (.release ⟨.answered, 6, 22, 0⟩)] ++
    sampleWrite 1 2 40 ++ sampleCommit 1 41 ++ sampleSweepDelete

/-- In both runs the file refers to a chunk that has been swept since it was put. -/
theorem sweep_deletes_live_chunk :
    (∃ st, exec (clusterStep PackStore.sampleHash) (Cluster.fresh 0) sampleSweptReservation =
        some st ∧ st.tables.References sampleChunk ∧ sampleChunk ∈ st.swept ∧
        st.workers.held 0 sampleChunk = none) ∧
      ∃ st, exec (clusterStep PackStore.sampleHash) (Cluster.fresh 0) sampleReleasedSweep =
        some st ∧ st.tables.References sampleChunk ∧ sampleChunk ∈ st.swept ∧
        st.workers.held 0 sampleChunk = none := by
  have hreserved : (exec (clusterStep PackStore.sampleHash) (Cluster.fresh 0)
      sampleSweptReservation).any (fun st => st.tables.References sampleChunk ∧
        sampleChunk ∈ st.swept ∧ st.workers.held 0 sampleChunk = none) = true := by decide +kernel
  have hreleased : (exec (clusterStep PackStore.sampleHash) (Cluster.fresh 0)
      sampleReleasedSweep).any (fun st => st.tables.References sampleChunk ∧
        sampleChunk ∈ st.swept ∧ st.workers.held 0 sampleChunk = none) = true := by decide +kernel
  obtain ⟨st, hrun, hend⟩ := (Option.any_eq_true _ _).mp hreserved
  obtain ⟨st', hrun', hend'⟩ := (Option.any_eq_true _ _).mp hreleased
  exact ⟨⟨st, hrun, of_decide_eq_true hend⟩, st', hrun', of_decide_eq_true hend'⟩

end FluxFS
