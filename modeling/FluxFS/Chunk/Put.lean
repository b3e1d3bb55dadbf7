import FluxFS.Chunk.Listing
import FluxFS.Chunk.Repair

/-!
# Put — a replicated write

`handle_command` for `Put` of `crates/chunk/src/remote.rs`: a repair if the set of healthy
workers has changed, then the chunk goes to one worker after the other until enough have
answered. Each call may fail, before or after its worker has stored the chunk.
-/

namespace FluxFS

open Kit

/-- The loop variables of `Put`. -/
structure PutLoop where
  stores : Stores
  durableWorkers : List WorkerTargetId
  errors : List String
  overloaded : Bool

section
variable (hash : Bytes → ChunkId) (net : WorkerTargetId → CallFate)

/-- `put_one` over a network that may fail. -/
def putOver (stores : Stores) (worker : WorkerTargetId) (data : Bytes) (expected : ChunkId) :
    Stores × Except FluxError Unit :=
  match net worker with
  | .answered => putOne hash stores worker data expected
  | .refused error => (stores, .error error)
  | .replyLost error => ((putOne hash stores worker data expected).1, .error error)

/-- The loop of `Put` over the healthy workers. -/
def putDurable (selected : List WorkerTargetId) (required : Nat) (data : Bytes)
    (expected : ChunkId) : List WorkerTargetId → PutLoop → PutLoop
  | [], p => p
  | worker :: workers, p =>
    if worker ∉ selected then putDurable selected required data expected workers p
    else
      match putOver hash net p.stores worker data expected with
      | (stores, .ok ()) =>
        let p := { p with stores := stores, durableWorkers := p.durableWorkers ++ [worker] }
        if p.durableWorkers.length = required then p
        else putDurable selected required data expected workers p
      | (stores, .error error) =>
        putDurable selected required data expected workers
          { p with
            stores := stores
            errors := p.errors ++ [error.text]
            overloaded := p.overloaded ∨ error = .busy }

variable (health : WorkerTargetId → Option HealthResponse)
  (repair : List WorkerTargetId → Stores → RepairState × Except FluxError RepairReport)
  (nowMs required : Nat)

/-- The part of `Put` after the repair. -/
def putHealthy (membership : Option WorkerMembership) (healthy : List WorkerTargetId) (data : Bytes)
    (stores : Stores) : Stores × Except FluxError ChunkId :=
  let expected := hash data
  match desiredWorkers hash membership required expected nowMs with
  | .error error => (stores, .error error)
  | .ok selected =>
    let p := putDurable hash net (selected.getD healthy) required data expected healthy
      ⟨stores, [], [], false⟩
    let errors := "; ".intercalate p.errors
    (p.stores,
      if p.durableWorkers.length ≥ required then .ok expected
      else if p.overloaded then .error .busy
      else .error (.io (s!"remote chunk {expected.toHex} reached {p.durableWorkers.length}" ++
        s!"/{required} distinct durable workers: {errors}")))

/-- `handle_command` for `Put`. The calls of the `repair` may fail too. -/
def RpcLoop.put (loop : RpcLoop) (stores : Stores) (data : Bytes) :
    RpcLoop × Stores × Except FluxError ChunkId :=
  match healthyWorkers health ∅ loop.clients with
  | .error error => (loop, stores, .error error)
  | .ok healthy =>
    if healthy ≠ loop.lastHealthy then
      match repair healthy stores with
      | (st, .error error) => ({ loop with repairCursor := st.cursor }, st.stores, .error error)
      | (st, .ok _) =>
        ({ loop with repairCursor := st.cursor, lastHealthy := healthy },
          putHealthy hash net nowMs required loop.membership healthy data st.stores)
    else (loop, putHealthy hash net nowMs required loop.membership healthy data stores)

end

/-! ## An acknowledged put is stored -/

section
variable {hash : Bytes → ChunkId} {net : WorkerTargetId → CallFate} {data : Bytes}
  {stores : Stores} {required : Nat}

/-- At least `required` distinct workers have the chunk. -/
def Replicated (required : Nat) (stores : Stores) (chunk : ChunkId) : Prop :=
  ∃ workers : List WorkerTargetId, workers.Nodup ∧ required ≤ workers.length ∧
    ∀ w ∈ workers, chunk ∈ stores.inventory w

theorem putOver_cases (hash : Bytes → ChunkId) (net : WorkerTargetId → CallFate) (data : Bytes)
    (stores : Stores) (worker : WorkerTargetId) :
    ∃ t result, putOver hash net stores worker data (hash data) = (t, result) ∧ stores.Grows t ∧
      (result = .ok () → hash data ∈ t.inventory worker) := by
  obtain ⟨t, hput, hrepaired⟩ := putOne_ok (rfl : hash data = _) stores worker
  rw [putOver]
  cases net worker with
  | answered =>
    refine ⟨t, _, hput, hrepaired.grows, fun _ => ?_⟩
    exact (hrepaired.stored worker List.mem_cons_self _).mpr (.inr rfl)
  | refused error => exact ⟨stores, _, rfl, fun _ _ _ h => h, nofun⟩
  | replyLost error =>
    rw [hput]
    exact ⟨t, _, rfl, hrepaired.grows, nofun⟩

/-- The workers counted as durable are distinct and have the chunk. -/
theorem putDurable_stored (selected workers : List WorkerTargetId) {p : PutLoop}
    (h : ∀ w ∈ p.durableWorkers, hash data ∈ p.stores.inventory w) :
    let p' := putDurable hash net selected required data (hash data) workers p
    (∃ added, p'.durableWorkers = p.durableWorkers ++ added ∧ added.Sublist workers) ∧
      ∀ w ∈ p'.durableWorkers, hash data ∈ p'.stores.inventory w := by
  induction workers generalizing p with
  | nil => exact ⟨⟨[], by simp [putDurable], .slnil⟩, h⟩
  | cons worker workers ih =>
    rw [putDurable]
    by_cases hselected : worker ∉ selected
    · rw [if_pos hselected]
      obtain ⟨⟨added, hadded, hsub⟩, hstored⟩ := ih h
      exact ⟨⟨added, hadded, hsub.cons worker⟩, hstored⟩
    · rw [if_neg hselected]
      obtain ⟨t, result, hput, hgrows, hworker⟩ := putOver_cases hash net data p.stores worker
      rw [hput]
      have hkept : ∀ w ∈ p.durableWorkers, hash data ∈ t.inventory w :=
        fun w hw => hgrows.mem (h w hw)
      cases result with
      | error error =>
        obtain ⟨⟨added, hadded, hsub⟩, hstored⟩ := ih (p := ⟨t, p.durableWorkers, _, _⟩) hkept
        exact ⟨⟨added, hadded, hsub.cons worker⟩, hstored⟩
      | ok =>
        have hall : ∀ w ∈ p.durableWorkers ++ [worker], hash data ∈ t.inventory w := by
          intro w hw
          rcases List.mem_append.mp hw with hw | hw
          · exact hkept w hw
          · rw [List.mem_singleton.mp hw]
            exact hworker rfl
        dsimp only
        split
        · exact ⟨⟨[worker], rfl, List.singleton_sublist.mpr List.mem_cons_self⟩, hall⟩
        · obtain ⟨⟨added, hadded, hsub⟩, hstored⟩ :=
            ih (p := ⟨t, p.durableWorkers ++ [worker], _, _⟩) hall
          refine ⟨⟨worker :: added, ?_, hsub.cons_cons worker⟩, hstored⟩
          rw [hadded, List.append_assoc]
          rfl

theorem healthyWorkers_nodup {health : WorkerTargetId → Option HealthResponse}
    {clients healthy : List WorkerTargetId} {t : Table WorkerTargetId Unit}
    (h : healthyWorkers health t clients = .ok healthy) : healthy.Nodup := by
  induction clients generalizing t with
  | nil =>
    cases h
    refine List.pairwise_map.mpr (t.distinct_keys_toList.imp fun hne heq => ?_)
    exact hne (Std.LawfulEqOrd.compare_eq_iff_eq.mpr heq)
  | cons client clients ih =>
    rw [healthyWorkers] at h
    split at h
    · exact ih h
    · split_ifs at h
      · exact ih h
      · exact ih h

theorem putHealthy_replicated {membership : Option WorkerMembership} {nowMs : Nat}
    {healthy : List WorkerTargetId} {t : Stores} {chunk : ChunkId} (hhealthy : healthy.Nodup)
    (h : putHealthy hash net nowMs required membership healthy data stores = (t, .ok chunk)) :
    chunk = hash data ∧ Replicated required t chunk := by
  rw [putHealthy] at h
  split at h
  · cases h
  · rename_i selected hselected
    obtain ⟨⟨added, hadded, hsub⟩, hstored⟩ := putDurable_stored (selected.getD healthy) healthy
      (p := ⟨stores, [], [], false⟩) nofun
    obtain ⟨rfl, hreply⟩ := Prod.mk.inj h
    split_ifs at hreply with henough
    cases hreply
    refine ⟨rfl, _, ?_, henough, hstored⟩
    rw [hadded]
    exact hhealthy.sublist hsub

/-- A put that answers `Ok` has the chunk of its data on enough workers. -/
theorem put_replicated {health : WorkerTargetId → Option HealthResponse}
    {repair : List WorkerTargetId → Stores → RepairState × Except FluxError RepairReport}
    {nowMs : Nat} {loop loop' : RpcLoop} {t : Stores} {chunk : ChunkId}
    (h : loop.put hash net health repair nowMs required stores data = (loop', t, .ok chunk)) :
    chunk = hash data ∧ Replicated required t chunk := by
  rw [RpcLoop.put] at h
  split at h
  · cases h
  · rename_i healthy hhealthy
    have hnodup := healthyWorkers_nodup hhealthy
    split_ifs at h
    · split at h
      · cases h
      · exact putHealthy_replicated hnodup (Prod.mk.inj h).2
    · exact putHealthy_replicated hnodup (Prod.mk.inj h).2

end

end FluxFS
