import FluxFS.Lib.Sorted
import FluxFS.Meta.Runs

/-!
# Membership — the worker table over all registrations

`register_worker_in_txn` keeps the workers sorted by id, with ids and endpoints of
their own (`Members`), and never takes a lease back. The epoch counts the accepted
registrations that matter to placement, so that two memberships of one epoch place
chunks alike (`membership_invariant`).
-/

namespace FluxFS

open Std Kit

/-- A worker without its lease. -/
def WorkerRegistration.placement (w : WorkerRegistration) : WorkerRegistration :=
  { w with leaseDeadlineMs := 0 }

theorem placement_eq_iff {a b : WorkerRegistration} (hid : a.id = b.id) :
    a.placement = b.placement ↔ ¬ placementChanged a b := by
  obtain ⟨id, endpoint, domain, capacity, available, lease⟩ := a
  obtain ⟨id', endpoint', domain', capacity', available', lease'⟩ := b
  simp only at hid
  simp [WorkerRegistration.placement, placementChanged, hid]

theorem WorkerRegistration.id_ne_zero {w : WorkerRegistration} (h : w.validate = .ok ()) :
    w.id ≠ 0 := by
  intro hzero
  rw [validate, if_pos hzero] at h
  cases h

/-- Valid workers in the order of their ids, no two at one endpoint. -/
structure Members (m : WorkerMembership) : Prop where
  sorted : SortedBy (·.id) m.workers
  endpoints : m.workers.Pairwise (fun a b => a.endpoint ≠ b.endpoint)
  valid : ∀ w ∈ m.workers, w.validate = .ok ()
  epoch_le : m.epoch ≤ u64Max

/-- The registration adds a worker, or changes one apart from its lease. -/
def Relevant (m : WorkerMembership) (registration : WorkerRegistration) : Prop :=
  (∀ w ∈ m.workers, w.id ≠ registration.id) ∨
    ∃ w ∈ m.workers, w.id = registration.id ∧ placementChanged w registration

/-- What `register_worker_in_txn` has checked of a registration that it admits. -/
structure Admissible (m : WorkerMembership) (registration : WorkerRegistration) : Prop where
  valid : registration.validate = .ok ()
  endpoint : ∀ w ∈ m.workers, w.id ≠ registration.id → w.endpoint ≠ registration.endpoint
  lease : ∀ w ∈ m.workers, w.id = registration.id →
    w.leaseDeadlineMs ≤ registration.leaseDeadlineMs

namespace Members
variable {m : WorkerMembership} {a b registration : WorkerRegistration}

/-- The worker of the registration's id, as the code looks it up. -/
theorem find?_eq (h : Members m) (ha : a ∈ m.workers) (hid : a.id = registration.id) :
    m.workers.find? (·.id = registration.id) = some a := by
  cases hfind : m.workers.find? (·.id = registration.id) with
  | none =>
    have := List.find?_eq_none.mp hfind a ha
    simp [hid] at this
  | some b =>
    have hb := List.find?_some hfind
    simp only [decide_eq_true_eq] at hb
    rw [h.sorted.eq_of_key ha (List.mem_of_find?_eq_some hfind) (hid.trans hb.symm)]

end Members

/-! ## One registration -/

theorem replaceWorker_perm {registration a : WorkerRegistration} {workers : List WorkerRegistration}
    (hids : SortedBy (·.id) workers) (ha : a ∈ workers)
    (hid : a.id = registration.id) :
    (replaceWorker registration workers).Perm
      (registration :: workers.filter (·.id ≠ registration.id)) := by
  induction workers with
  | nil => cases ha
  | cons w workers ih =>
    obtain ⟨hw, hids⟩ := List.pairwise_cons.mp hids
    rw [replaceWorker]
    split
    · rename_i hsame
      have hothers : workers.filter (·.id ≠ registration.id) = workers := by
        refine List.filter_eq_self.mpr fun b hb => ?_
        rw [decide_eq_true_eq, ← hsame]
        exact Nat.ne_of_gt (hw b hb)
      rw [List.filter_cons_of_neg (by simpa using hsame), hothers]
    · rename_i hother
      have ha' : a ∈ workers := (List.mem_cons.mp ha).resolve_left fun heq => hother (heq ▸ hid)
      rw [List.filter_cons_of_pos (by simpa using hother)]
      exact ((ih hids ha').cons w).trans (List.Perm.swap ..)

/-- The registration stands in for the worker of its id. -/
theorem admitWorker_perm {m : WorkerMembership} (h : Members m)
    (registration : WorkerRegistration) : (admitWorker m registration).workers.Perm
      (registration :: m.workers.filter (·.id ≠ registration.id)) := by
  unfold admitWorker
  cases hfind : m.workers.find? (·.id = registration.id) with
  | some current =>
    have hid := List.find?_some hfind
    simp only [decide_eq_true_eq] at hid
    exact (List.perm_insertionSort ..).trans
      (replaceWorker_perm h.sorted (List.mem_of_find?_eq_some hfind) hid)
  | none =>
    have hothers : m.workers.filter (·.id ≠ registration.id) = m.workers := by
      refine List.filter_eq_self.mpr fun b hb => ?_
      simpa using List.find?_eq_none.mp hfind b hb
    rw [hothers]
    exact (List.perm_insertionSort ..).trans (List.perm_append_singleton ..)

theorem admitWorker_sorted (m : WorkerMembership) (registration : WorkerRegistration) :
    (admitWorker m registration).workers.Pairwise (fun a b => a.id ≤ b.id) := by
  unfold admitWorker
  cases m.workers.find? (·.id = registration.id) with
  | some current => exact List.pairwise_insertionSort ..
  | none => exact List.pairwise_insertionSort ..

section
variable {m : WorkerMembership} {registration w : WorkerRegistration}

theorem mem_admitWorker (h : Members m) :
    w ∈ (admitWorker m registration).workers ↔
      w = registration ∨ w ∈ m.workers ∧ w.id ≠ registration.id := by
  rw [(admitWorker_perm h registration).mem_iff, List.mem_cons, List.mem_filter, decide_eq_true_eq]

/-- An admitted registration keeps the workers in order and apart. -/
theorem Members.admitWorker (h : Members m) (hadm : Admissible m registration) :
    Members (admitWorker m registration) where
  sorted := by
    have hperm := admitWorker_perm h registration
    have hids : (registration :: m.workers.filter (·.id ≠ registration.id)).Pairwise
        (fun a b => a.id ≠ b.id) := by
      refine List.pairwise_cons.mpr ⟨fun b hb => ?_,
        List.Pairwise.imp Nat.ne_of_lt (h.sorted.filter _)⟩
      have hb := (List.mem_filter.mp hb).2
      rw [decide_eq_true_eq] at hb
      exact Ne.symm hb
    have hapart := (hperm.pairwise_iff Ne.symm).mpr hids
    exact ((admitWorker_sorted m registration).and hapart).imp fun hab =>
      Nat.lt_of_le_of_ne hab.1 hab.2
  endpoints := by
    refine ((admitWorker_perm h registration).pairwise_iff Ne.symm).mpr ?_
    refine List.pairwise_cons.mpr ⟨fun b hb => ?_, h.endpoints.filter _⟩
    obtain ⟨hb, hid⟩ := List.mem_filter.mp hb
    rw [decide_eq_true_eq] at hid
    exact Ne.symm (hadm.endpoint b hb hid)
  valid := by
    intro w hw
    rcases (mem_admitWorker h).mp hw with rfl | ⟨hw, -⟩
    · exact hadm.valid
    · exact h.valid w hw
  epoch_le := by
    unfold FluxFS.admitWorker
    split
    · dsimp only
      split
      · exact saturatingAdd_le_max ..
      · exact h.epoch_le
    · exact saturatingAdd_le_max ..

/-- No lease gets shorter. -/
theorem admitWorker_lease (h : Members m) (hadm : Admissible m registration) (hw : w ∈ m.workers) :
    ∃ w' ∈ (admitWorker m registration).workers, w'.id = w.id ∧
      w.leaseDeadlineMs ≤ w'.leaseDeadlineMs := by
  by_cases hid : w.id = registration.id
  · exact ⟨registration, (mem_admitWorker h).mpr (.inl rfl), hid.symm, hadm.lease w hw hid⟩
  · exact ⟨w, (mem_admitWorker h).mpr (.inr ⟨hw, hid⟩), rfl, Nat.le_refl _⟩

theorem admitWorker_epoch_of_relevant (h : Members m) (hrel : Relevant m registration) :
    (admitWorker m registration).epoch = saturatingAdd m.epoch 1 := by
  unfold admitWorker
  rcases hrel with hnew | ⟨w, hw, hid, hchanged⟩
  · have hfind : m.workers.find? (·.id = registration.id) = none :=
      List.find?_eq_none.mpr fun w hw => by simpa using hnew w hw
    rw [hfind]
  · rw [h.find?_eq hw hid]
    exact if_pos hchanged

/-- A heartbeat that changes the lease only. -/
theorem admitWorker_of_not_relevant (h : Members m) (hadm : Admissible m registration)
    (hrel : ¬ Relevant m registration) :
    (admitWorker m registration).epoch = m.epoch ∧
      (admitWorker m registration).workers.map (·.placement) = m.workers.map (·.placement) := by
  obtain ⟨w, hw, hid, hsame⟩ : ∃ w ∈ m.workers, w.id = registration.id ∧
      w.placement = registration.placement := by
    simp only [Relevant, not_or, not_forall, not_exists, not_and, not_not] at hrel
    obtain ⟨⟨w, hw, hid⟩, hall⟩ := hrel
    exact ⟨w, hw, hid, (placement_eq_iff hid).mpr (hall w hw hid)⟩
  refine ⟨?_, ?_⟩
  · unfold admitWorker
    rw [h.find?_eq hw hid]
    exact if_neg ((placement_eq_iff hid).mp hsame)
  · -- both lists are in id order and have the same workers, leases apart
    have hmembers := h.admitWorker hadm
    have hleft : SortedBy (·.id) ((admitWorker m registration).workers.map (·.placement)) :=
      List.pairwise_map.mpr hmembers.sorted
    have hright : SortedBy (·.id) (m.workers.map (·.placement)) := List.pairwise_map.mpr h.sorted
    refine hleft.eq_of_mem_iff hright fun a => ?_
    simp only [List.mem_map, mem_admitWorker h]
    constructor
    · rintro ⟨b, rfl | ⟨hb, -⟩, rfl⟩
      · exact ⟨w, hw, hsame⟩
      · exact ⟨b, hb, rfl⟩
    · rintro ⟨b, hb, rfl⟩
      by_cases hbid : b.id = registration.id
      · rw [h.sorted.eq_of_key hb hw (hbid.trans hid.symm)]
        exact ⟨registration, .inl rfl, hsame.symm⟩
      · exact ⟨b, .inr ⟨hb, hbid⟩, rfl⟩

end

/-! ## The request -/

/-- A registration is refused and writes nothing, or is admitted. -/
theorem registerWorkerInTxn_cases {s t : Tables} {registration : WorkerRegistration}
    {r : Except FluxError WorkerMembership} (h : Members s.workerMembership)
    (hrun : registerWorkerInTxn registration s = (r, t)) :
    (∃ e, r = .error e ∧ t = s) ∨
      (Admissible s.workerMembership registration ∧
        r = .ok (admitWorker s.workerMembership registration) ∧
        t = { s with workerMembership := admitWorker s.workerMembership registration }) := by
  rw [registerWorkerInTxn, Txn.query_bind_run] at hrun
  cases hvalid : registration.validate with
  | error e =>
    rw [hvalid] at hrun
    cases hrun
    exact .inl ⟨e, rfl, rfl⟩
  | ok _ =>
    simp only [hvalid, Txn.reads_bind_run, Txn.failIf_bind_run] at hrun
    split at hrun
    · cases hrun
      exact .inl ⟨_, rfl, rfl⟩
    · rename_i hendpoint
      have hadm : ∀ hlease : (∀ w ∈ s.workerMembership.workers, w.id = registration.id →
          w.leaseDeadlineMs ≤ registration.leaseDeadlineMs),
          Admissible s.workerMembership registration := by
        refine fun hlease => ⟨hvalid, fun w hw hid heq => hendpoint ?_, hlease⟩
        exact List.any_eq_true.mpr ⟨w, hw, decide_eq_true ⟨hid, heq⟩⟩
      unfold checkDeadline at hrun
      split at hrun
      · rename_i current hfind
        have hid := List.find?_some hfind
        simp only [decide_eq_true_eq] at hid
        rw [Txn.failIf_bind_run] at hrun
        split at hrun
        · cases hrun
          exact .inl ⟨_, rfl, rfl⟩
        · rename_i hlease
          cases hrun
          refine .inr ⟨hadm fun w hw hwid => ?_, rfl, rfl⟩
          rw [h.sorted.eq_of_key hw (List.mem_of_find?_eq_some hfind) (hwid.trans hid.symm)]
          exact Nat.le_of_not_lt hlease
      · rename_i hfind
        cases hrun
        refine .inr ⟨hadm fun w hw hwid => ?_, rfl, rfl⟩
        have := List.find?_eq_none.mp hfind w hw
        simp [hwid] at this

/-- A logged `RegisterWorker` request and the clock when it is applied. -/
structure RegisterRequest where
  now : Clock
  requestId : Option RequestOpId
  ledgerNowUnixMs : Nat
  registration : WorkerRegistration
deriving DecidableEq, Repr

/-- The registration as a request. -/
def RegisterRequest.request (r : RegisterRequest) : MetaRequest :=
  ⟨r.now, ⟨r.requestId, r.ledgerNowUnixMs, .registerWorker r.registration⟩⟩

/-- The request runs, and is answered with a membership. -/
def Accepted (r : RegisterRequest) (s : Tables) : Prop :=
  r.request.req.executes s = true ∧
    ∃ m, (applyRaftRequest r.now r.request.req s).1 = .workerMembership m

theorem performOp_registerWorker {now : Clock} {s : Tables} (h : Members s.workerMembership)
    (registration : WorkerRegistration) :
    (∃ e, performOp now (.registerWorker registration) s = (.error e, s)) ∨
      (Admissible s.workerMembership registration ∧
        performOp now (.registerWorker registration) s =
          (.ok (.workerMembership (admitWorker s.workerMembership registration)),
            { s with workerMembership := admitWorker s.workerMembership registration })) := by
  rcases hrun : registerWorkerInTxn registration s with ⟨r, t⟩
  rcases registerWorkerInTxn_cases h hrun with ⟨e, rfl, rfl⟩ | ⟨hadm, rfl, rfl⟩
  · exact .inl ⟨e, Txn.bind_of_error hrun _⟩
  · exact .inr ⟨hadm, Txn.bind_of_ok hrun _⟩

/-- One request: it admits its registration exactly when it is accepted. -/
theorem register_step {s : Tables} (h : Members s.workerMembership) (r : RegisterRequest) :
    (Accepted r s ∧ Admissible s.workerMembership r.registration ∧
      (applyRaftRequest r.now r.request.req s).2.workerMembership =
        admitWorker s.workerMembership r.registration) ∨
    (¬ Accepted r s ∧
      (applyRaftRequest r.now r.request.req s).2.workerMembership = s.workerMembership) := by
  cases hexec : r.request.req.executes s with
  | false =>
    obtain ⟨ledger, hstate⟩ := applyRaftRequest_of_not_executes r.now hexec
    refine .inr ⟨fun hacc => ?_, by rw [hstate]⟩
    rw [hacc.1] at hexec
    cases hexec
  | true =>
    obtain ⟨before, after, hresponse, hstate⟩ := applyRaftRequest_of_executes r.now hexec
    have hop : r.request.req.op = .registerWorker r.registration := rfl
    rw [hop] at hresponse hstate
    have hmembers : Members { s with clientRequests := before }.workerMembership := h
    rcases performOp_registerWorker hmembers r.registration with ⟨e, hperform⟩ | ⟨hadm, hperform⟩
    · rw [hperform] at hresponse hstate
      refine .inr ⟨?_, by rw [hstate]⟩
      rintro ⟨-, m, hm⟩
      rw [hresponse] at hm
      cases hm
    · rw [hperform] at hresponse hstate
      exact .inl ⟨⟨hexec, _, hresponse⟩, hadm, by rw [hstate]⟩

/-! ## Sequences of requests -/

/-- A fresh store after the first `n` requests. -/
def registerTables (now : Int) (rs : List RegisterRequest) (n : Nat) : Tables :=
  runMeta (Tables.fresh now) ((rs.take n).map RegisterRequest.request)

section
variable {now : Int} {rs : List RegisterRequest} {i j n : Nat}

theorem registerTables_succ {r : RegisterRequest} (hr : rs[n]? = some r) :
    registerTables now rs (n + 1) =
      (applyRaftRequest r.now r.request.req (registerTables now rs n)).2 := by
  rw [registerTables, List.take_add_one, hr, List.map_append, runMeta, List.foldl_append]
  rfl

theorem registerTables_of_length_le (h : rs.length ≤ n) :
    registerTables now rs (n + 1) = registerTables now rs n := by
  rw [registerTables, registerTables, List.take_of_length_le h, List.take_of_length_le (by omega)]

/-- What holds of the fresh store and is kept by every request holds throughout. -/
theorem registerTables_induction {P : Tables → Prop} (hfresh : P (Tables.fresh now))
    (hstep : ∀ s (r : RegisterRequest), P s → P (applyRaftRequest r.now r.request.req s).2)
    (n : Nat) : P (registerTables now rs n) := by
  induction n with
  | zero => exact hfresh
  | succ n ih =>
    cases hr : rs[n]? with
    | none =>
      rw [registerTables_of_length_le (List.getElem?_eq_none_iff.mp hr)]
      exact ih
    | some r =>
      rw [registerTables_succ hr]
      exact hstep _ r ih

theorem registerTables_members (now : Int) (rs : List RegisterRequest) (n : Nat) :
    Members (registerTables now rs n).workerMembership := by
  refine registerTables_induction (P := fun s => Members s.workerMembership)
    ⟨List.Pairwise.nil, List.Pairwise.nil, nofun, Nat.zero_le _⟩ (fun s r h => ?_) n
  rcases register_step h r with ⟨-, hadm, hstate⟩ | ⟨-, hstate⟩
  · rw [hstate]
    exact h.admitWorker hadm
  · rwa [hstate]

/-- From one membership to the next. -/
theorem registerTables_advances (now : Int) (rs : List RegisterRequest) (n : Nat) :
    let m := (registerTables now rs n).workerMembership
    let m' := (registerTables now rs (n + 1)).workerMembership
    (∀ w ∈ m.workers, ∃ w' ∈ m'.workers, w'.id = w.id ∧ w.leaseDeadlineMs ≤ w'.leaseDeadlineMs) ∧
      ((∃ r, rs[n]? = some r ∧ Accepted r (registerTables now rs n) ∧ Relevant m r.registration) ∧
          m'.epoch = saturatingAdd m.epoch 1 ∨
        (¬ ∃ r, rs[n]? = some r ∧ Accepted r (registerTables now rs n) ∧
            Relevant m r.registration) ∧
          m'.epoch = m.epoch ∧ m'.workers.map (·.placement) = m.workers.map (·.placement)) := by
  intro m m'
  have hm : Members m := registerTables_members now rs n
  have hstays : ∀ {u : WorkerMembership}, u = m → ∀ w ∈ m.workers, ∃ w' ∈ u.workers,
      w'.id = w.id ∧ w.leaseDeadlineMs ≤ w'.leaseDeadlineMs := by
    rintro u rfl w hw
    exact ⟨w, hw, rfl, Nat.le_refl _⟩
  cases hr : rs[n]? with
  | none =>
    have hsame : m' = m := by
      simp only [m, m', registerTables_of_length_le (List.getElem?_eq_none_iff.mp hr)]
    refine ⟨hstays hsame, .inr ⟨?_, by rw [hsame], by rw [hsame]⟩⟩
    rintro ⟨r, hr', -⟩
    cases hr'
  | some r =>
    have hnext : m' = (applyRaftRequest r.now r.request.req
        (registerTables now rs n)).2.workerMembership := by
      simp only [m', registerTables_succ hr]
    have hexists : (∃ r', some r = some r' ∧ Accepted r' (registerTables now rs n) ∧
        Relevant m r'.registration) ↔
        Accepted r (registerTables now rs n) ∧ Relevant m r.registration := by
      simp
    rw [hexists]
    rcases register_step hm r with ⟨hacc, hadm, hstate⟩ | ⟨hrefused, hstate⟩
    · have hadmitted : m' = admitWorker m r.registration := hnext.trans hstate
      rw [hadmitted]
      refine ⟨fun w hw => admitWorker_lease hm hadm hw, ?_⟩
      by_cases hrel : Relevant m r.registration
      · exact .inl ⟨⟨hacc, hrel⟩, admitWorker_epoch_of_relevant hm hrel⟩
      · exact .inr ⟨fun h => hrel h.2, admitWorker_of_not_relevant hm hadm hrel⟩
    · have hsame : m' = m := hnext.trans hstate
      exact ⟨hstays hsame, .inr ⟨fun h => hrefused h.1, by rw [hsame], by rw [hsame]⟩⟩

theorem registerTables_epoch_mono (now : Int) (rs : List RegisterRequest) (h : i ≤ j) :
    (registerTables now rs i).workerMembership.epoch ≤
      (registerTables now rs j).workerMembership.epoch := by
  induction h with
  | refl => exact Nat.le_refl _
  | @step j hij ih =>
    refine ih.trans ?_
    rcases (registerTables_advances now rs j).2 with ⟨-, hepoch⟩ | ⟨-, hepoch, -⟩
    · rw [hepoch]
      exact le_saturatingAdd (registerTables_members now rs j).epoch_le
    · exact hepoch.ge

/-- Over every sequence of `RegisterWorker` requests: the workers are valid, in id order
and at endpoints of their own; no lease gets shorter; below the last value the epoch
grows by one exactly at accepted requests that matter to placement; and memberships of
one epoch differ in leases only. -/
theorem membership_invariant (now : Int) (rs : List RegisterRequest) :
    (∀ n, Members (registerTables now rs n).workerMembership ∧
      ∀ w ∈ (registerTables now rs n).workerMembership.workers, w.id ≠ 0) ∧
    (∀ i j, i ≤ j → ∀ w ∈ (registerTables now rs i).workerMembership.workers,
      ∃ w' ∈ (registerTables now rs j).workerMembership.workers,
        w'.id = w.id ∧ w.leaseDeadlineMs ≤ w'.leaseDeadlineMs) ∧
    (∀ n r, rs[n]? = some r → (registerTables now rs n).workerMembership.epoch < u64Max →
      (Accepted r (registerTables now rs n) ∧
          Relevant (registerTables now rs n).workerMembership r.registration →
        (registerTables now rs (n + 1)).workerMembership.epoch =
          (registerTables now rs n).workerMembership.epoch + 1) ∧
      (¬ (Accepted r (registerTables now rs n) ∧
          Relevant (registerTables now rs n).workerMembership r.registration) →
        (registerTables now rs (n + 1)).workerMembership.epoch =
          (registerTables now rs n).workerMembership.epoch)) ∧
    ∀ i j, i ≤ j → (registerTables now rs i).workerMembership.epoch < u64Max →
      (registerTables now rs i).workerMembership.epoch =
        (registerTables now rs j).workerMembership.epoch →
      (registerTables now rs i).workerMembership.workers.map (·.placement) =
        (registerTables now rs j).workerMembership.workers.map (·.placement) := by
  refine ⟨fun n => ?_, fun i j hij => ?_, fun n r hr hmax => ?_, fun i j hij hmax heq => ?_⟩
  · have hm := registerTables_members now rs n
    exact ⟨hm, fun w hw => WorkerRegistration.id_ne_zero (hm.valid w hw)⟩
  · induction hij with
    | refl => exact fun w hw => ⟨w, hw, rfl, Nat.le_refl _⟩
    | @step j hij ih =>
      intro w hw
      obtain ⟨w₁, hw₁, hid₁, hlease₁⟩ := ih w hw
      obtain ⟨w₂, hw₂, hid₂, hlease₂⟩ := (registerTables_advances now rs j).1 w₁ hw₁
      exact ⟨w₂, hw₂, hid₂.trans hid₁, hlease₁.trans hlease₂⟩
  · rcases (registerTables_advances now rs n).2 with ⟨⟨r', hr', hrel⟩, hepoch⟩ | ⟨hnone, hepoch, -⟩
    · rw [hr] at hr'
      cases hr'
      refine ⟨fun _ => ?_, fun hnot => absurd hrel hnot⟩
      rw [hepoch, saturatingAdd_of_lt hmax]
    · exact ⟨fun hrel => absurd ⟨r, hr, hrel⟩ hnone, fun _ => hepoch⟩
  · induction hij with
    | refl => rfl
    | @step j hij ih =>
      have hlow := registerTables_epoch_mono now rs hij
      rcases (registerTables_advances now rs j).2 with ⟨-, hepoch⟩ | ⟨-, hepoch, hsame⟩
      · -- the epoch cannot come back to where it was
        have hbound := (registerTables_epoch_mono now rs (Nat.le_succ j)).trans_lt (heq ▸ hmax)
        have hgrows := Nat.lt_succ_self (registerTables now rs j).workerMembership.epoch
        rw [← Nat.add_one, ← saturatingAdd_of_lt hbound, ← hepoch, ← heq] at hgrows
        exact absurd hgrows (Nat.not_lt.mpr hlow)
      · rw [hsame]
        exact ih (heq.trans hepoch)

end

end FluxFS
