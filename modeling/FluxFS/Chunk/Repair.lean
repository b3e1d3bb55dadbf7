import FluxFS.Chunk.Remote

/-!
# Repair — restoring the replicas of every chunk

`repair_with_health` and the `Put` command of `crates/chunk/src/remote.rs`. `repair`
walks the merged inventories and copies each chunk that has too few holders; the copies
go into the inventories that the walk is still reading. The worker calls of a repair do
not fail. The clock is read once per chunk, the `i`-th reading is `clock i`.
-/

namespace FluxFS

open Kit

/-- What each worker has stored. -/
abbrev Stores := WorkerTargetId → Table ChunkId Bytes

/-- The chunks of a worker, in order. -/
def Stores.inventory (stores : Stores) (worker : WorkerTargetId) : List ChunkId :=
  (stores worker).toList.map Prod.fst

/-- `RepairReport`. -/
structure RepairReport where
  healthyWorkers : List WorkerTargetId
  checkedChunks : Nat
  repairedReplicas : Nat
  more : Bool
deriving DecidableEq, Repr

/-- The replicas that count: all holders, or those among the targets. -/
def placed (desired : Option (List WorkerTargetId)) (holders : List WorkerTargetId) : Nat :=
  match desired with
  | none => holders.length
  | some desired => (holders.filter (· ∈ desired)).length

/-- The loop variables of the copying loop. -/
structure Replicas where
  stores : Stores
  holders : List WorkerTargetId
  repaired : Nat

/-- What a repair changes. -/
structure RepairState where
  stores : Stores
  cursor : Cursors
  /-- The chunks checked so far. -/
  checked : List ChunkId

section
variable (hash : Bytes → ChunkId)

/-- `put_one` to a worker that stores what it has not stored yet and answers. -/
def putOne (stores : Stores) (worker : WorkerTargetId) (data : Bytes) (expected : ChunkId) :
    Stores × Except FluxError Unit :=
  let stores :=
    if (stores worker)[hash data]?.isSome then stores
    else Function.update stores worker ((stores worker).insert (hash data) data)
  if hash data ≠ expected then
    (stores, .error (.io s!"worker {worker} returned mismatched/non-durable chunk"))
  else (stores, .ok ())

/-- The copying loop of `repair_pass_with_health`. -/
def putReplicas (desired : Option (List WorkerTargetId)) (required : Nat) (data : Bytes)
    (chunk : ChunkId) : List WorkerTargetId → Replicas → Replicas × Option FluxError
  | [], r => (r, none)
  | worker :: workers, r =>
    if placed desired r.holders ≥ required then (r, none)
    else if worker ∈ r.holders then putReplicas desired required data chunk workers r
    else if desired.any (worker ∉ ·) then putReplicas desired required data chunk workers r
    else
      match putOne hash r.stores worker data chunk with
      | (stores, .error error) => ({ r with stores := stores }, some error)
      | (stores, .ok ()) =>
        putReplicas desired required data chunk workers
          ⟨stores, r.holders ++ [worker], r.repaired + 1⟩

/-- The targets of a chunk, if there is a membership. -/
def desiredWorkers (membership : Option WorkerMembership) (required : Nat) (chunk : ChunkId)
    (nowMs : Nat) : Except FluxError (Option (List WorkerTargetId)) :=
  match membership with
  | none => .ok none
  | some membership =>
    match selectWorkerTargets hash membership chunk required nowMs with
    | .error error => .error error
    | .ok workers => .ok (some (Table.ordSet (workers.map (·.id))))

variable (membership : Option WorkerMembership) (required : Nat) (healthy : List WorkerTargetId)

/-- One chunk of a page, with the number of replicas it repaired. -/
def repairChunk (nowMs : Nat) (stores : Stores) (chunk : ChunkId) (holders : List WorkerTargetId) :
    Stores × Except FluxError Nat :=
  match desiredWorkers hash membership required chunk nowMs with
  | .error error => (stores, .error error)
  | .ok desired =>
    if placed desired holders ≥ required then (stores, .ok 0)
    else
      match holders.head?.filter (· ∈ healthy) with
      | none => (stores, .error (.io s!"no source replica for {chunk.toHex}"))
      | some source =>
        match (stores source)[chunk]? with
        | none => (stores, .error (.io "chunk not found"))
        | some data =>
          if hash data ≠ chunk then
            (stores, .error (.io s!"repair source checksum mismatch for {chunk.toHex}"))
          else
            match putReplicas hash desired required data chunk healthy
              ⟨stores, holders, 0⟩ with
            | (r, some error) => (r.stores, .error error)
            | (r, none) =>
              if placed desired r.holders < required then
                (r.stores, .error (.io
                  (s!"repair left {chunk.toHex} at {placed desired r.holders}" ++
                    s!"/{required} replicas")))
              else (r.stores, .ok r.repaired)

variable (clock : Nat → Nat)

/-- The loop over the chunks of a page. -/
def repairChunks : List (ChunkId × List WorkerTargetId) → RepairState → Nat →
    RepairState × Except FluxError Nat
  | [], st, repaired => (st, .ok repaired)
  | (chunk, holders) :: rows, st, repaired =>
    match repairChunk hash membership required healthy (clock st.checked.length) st.stores chunk
        holders with
    | (stores, .error error) => ({ st with stores := stores }, .error error)
    | (stores, .ok n) =>
      repairChunks rows { st with stores := stores, checked := st.checked ++ [chunk] }
        (repaired + n)

variable (limit rounds : Nat)

/-- `repair_pass_with_health`. -/
def repairPass (st : RepairState) : Option (RepairState × Except FluxError RepairReport) :=
  if healthy.length < required then
    some (st, .error (.io s!"repair requires {required} healthy workers, found {healthy.length}"))
  else if limit = 0 then some (st, .error (.invalidArg "repair page limit must be non-zero"))
  else
    match inventoryPage (answering st.stores.inventory) limit rounds healthy st.cursor with
    | none => none
    | some (.error error, cursor) => some ({ st with cursor := cursor }, .error error)
    | some (.ok page, cursor) =>
      match repairChunks hash membership required healthy clock page.chunks.toList
          { st with cursor := cursor } 0 with
      | (st, .error error) => some (st, .error error)
      | (st, .ok repaired) => some (st, .ok ⟨healthy, page.chunks.size, repaired, page.more⟩)

/-- The loop of `repair_with_health`, with the counts so far. -/
def repairLoop : Nat → RepairState → Nat → Nat →
    Option (RepairState × Except FluxError RepairReport)
  | 0, _, _, _ => none
  | fuel + 1, st, checkedChunks, repairedReplicas =>
    match repairPass hash membership required healthy clock limit rounds st with
    | none => none
    | some (st, .error error) => some (st, .error error)
    | some (st, .ok page) =>
      let checkedChunks := checkedChunks + page.checkedChunks
      let repairedReplicas := repairedReplicas + page.repairedReplicas
      if page.more then repairLoop fuel st checkedChunks repairedReplicas
      else some (st, .ok ⟨healthy, checkedChunks, repairedReplicas, false⟩)

/-- `repair_with_health` with pages of `limit` chunks. -/
def repairWithHealth (fuel : Nat) (stores : Stores) :
    Option (RepairState × Except FluxError RepairReport) :=
  repairLoop hash membership required healthy clock limit rounds fuel ⟨stores, ∅, []⟩ 0 0

end

/-! ## What a repair adds -/

section
variable {hash : Bytes → ChunkId} {stores t u : Stores} {chunk c : ChunkId} {data : Bytes}
  {desired : Option (List WorkerTargetId)} {required : Nat}
  {worker w : WorkerTargetId} {workers added holders healthy : List WorkerTargetId}

theorem mem_inventory : c ∈ stores.inventory w ↔ ∃ data, (stores w)[c]? = some data :=
  Table.mem_rowKeys ..

theorem inventory_sorted (stores : Stores) (w : WorkerTargetId) :
    SortedBy id (stores.inventory w) :=
  List.pairwise_map.mpr (stores w).ordered_keys_toList

/-- Nothing is lost or replaced. -/
def Stores.Grows (stores t : Stores) : Prop :=
  ∀ (w : WorkerTargetId) (c : ChunkId) (data : Bytes),
    (stores w)[c]? = some data → (t w)[c]? = some data

theorem Stores.Grows.mem (h : stores.Grows t) (hc : c ∈ stores.inventory w) :
    c ∈ t.inventory w := by
  obtain ⟨data, hdata⟩ := mem_inventory.mp hc
  exact mem_inventory.mpr ⟨data, h w c data hdata⟩

/-- The workers `added` got `chunk`, and nothing else has changed. -/
structure Repaired (chunk : ChunkId) (added : List WorkerTargetId) (stores t : Stores) : Prop where
  grows : stores.Grows t
  others : ∀ w, w ∉ added → t w = stores w
  stored : ∀ w ∈ added, ∀ c, c ∈ t.inventory w ↔ c ∈ stores.inventory w ∨ c = chunk

namespace Repaired

theorem refl (chunk : ChunkId) (stores : Stores) : Repaired chunk [] stores stores :=
  ⟨fun _ _ _ h => h, fun _ _ => rfl, nofun⟩

theorem inventory_eq (h : Repaired chunk added stores t) (hw : w ∉ added) :
    t.inventory w = stores.inventory w := by
  rw [Stores.inventory, h.others w hw]
  rfl

theorem mem (h : Repaired chunk added stores t) (hc : c ∈ t.inventory w) :
    c ∈ stores.inventory w ∨ c = chunk ∧ w ∈ added := by
  by_cases hw : w ∈ added
  · exact ((h.stored w hw c).mp hc).imp_right fun heq => ⟨heq, hw⟩
  · rw [h.inventory_eq hw] at hc
    exact .inl hc

/-- One worker first, then others. -/
theorem cons (h : Repaired chunk [worker] stores t) (h' : Repaired chunk added t u)
    (hnew : worker ∉ added) : Repaired chunk (worker :: added) stores u := by
  refine ⟨fun w c data hdata => h'.grows w c data (h.grows w c data hdata), fun w hw => ?_, ?_⟩
  · rw [List.mem_cons, not_or] at hw
    rw [h'.others w hw.2, h.others w (by simpa using hw.1)]
  · intro w hw c
    rcases List.mem_cons.mp hw with rfl | hadded
    · rw [h'.inventory_eq hnew]
      exact h.stored w List.mem_cons_self c
    · have hne : w ∉ [worker] := by
        rw [List.mem_singleton]
        rintro rfl
        exact hnew hadded
      rw [h'.stored w hadded c, h.inventory_eq hne]

end Repaired

theorem putOne_ok (hdata : hash data = chunk) (stores : Stores) (worker : WorkerTargetId) :
    ∃ t, putOne hash stores worker data chunk = (t, .ok ()) ∧ Repaired chunk [worker] stores t := by
  subst hdata
  refine ⟨_, by rw [putOne, if_neg (not_not.mpr rfl)], ?_⟩
  by_cases hstored : (stores worker)[hash data]?.isSome
  · rw [if_pos hstored]
    refine ⟨fun _ _ _ h => h, fun _ _ => rfl, fun w hw c => ?_⟩
    rw [List.mem_singleton.mp hw]
    refine ⟨.inl, fun h => h.elim (fun hc => hc) fun heq => ?_⟩
    rw [heq]
    exact mem_inventory.mpr (Option.isSome_iff_exists.mp hstored)
  · rw [if_neg hstored]
    have hnone : (stores worker)[hash data]? = none := by simpa using hstored
    refine ⟨fun w c old hold => ?_, fun w hw => ?_, fun w hw c => ?_⟩
    · by_cases hw : w = worker
      · subst hw
        rw [Function.update_self, Table.get_insert, if_neg, hold]
        rintro rfl
        rw [hnone] at hold
        cases hold
      · rwa [Function.update_of_ne hw]
    · exact Function.update_of_ne (by simpa using hw) ..
    · rw [List.mem_singleton.mp hw, mem_inventory, mem_inventory, Function.update_self]
      simp only [Table.get_insert]
      by_cases hc : hash data = c
      · simp [hc]
      · simp [hc, Ne.symm hc]

/-- The workers that the copying loop gives a chunk to. -/
def recipients (desired : Option (List WorkerTargetId)) (required : Nat) :
    List WorkerTargetId → List WorkerTargetId → List WorkerTargetId
  | [], _ => []
  | worker :: workers, holders =>
    if placed desired holders ≥ required then []
    else if worker ∈ holders then recipients desired required workers holders
    else if desired.any (worker ∉ ·) then recipients desired required workers holders
    else worker :: recipients desired required workers (holders ++ [worker])

theorem recipients_of_enough (henough : placed desired holders ≥ required)
    (workers : List WorkerTargetId) : recipients desired required workers holders = [] := by
  cases workers with
  | nil => rfl
  | cons worker workers => rw [recipients, if_pos henough]

theorem mem_recipients (hw : w ∈ recipients desired required workers holders) :
    w ∈ workers ∧ w ∉ holders := by
  induction workers generalizing holders with
  | nil => cases hw
  | cons worker workers ih =>
    rw [recipients] at hw
    split at hw
    · cases hw
    · split at hw
      · exact (ih hw).imp_left (List.mem_cons_of_mem worker)
      · rename_i hholder
        split at hw
        · exact (ih hw).imp_left (List.mem_cons_of_mem worker)
        · rcases List.mem_cons.mp hw with rfl | hw
          · exact ⟨List.mem_cons_self, hholder⟩
          · exact (ih hw).imp (List.mem_cons_of_mem worker)
              fun hfresh hmem => hfresh (List.mem_append_left _ hmem)

/-- The copying loop gives the chunk to workers that were not holders, one after the other,
and to no more than are required. -/
theorem putReplicas_ok (desired : Option (List WorkerTargetId)) (required : Nat)
    (workers : List WorkerTargetId) (hdata : hash data = chunk) (r : Replicas) :
    ∃ r' added, putReplicas hash desired required data chunk workers r = (r', none) ∧
      added = recipients desired required workers r.holders ∧ Repaired chunk added r.stores r'.stores ∧ r'.holders = r.holders ++ added ∧
      r'.repaired = r.repaired + added.length ∧ added.Sublist workers ∧
      (∀ w ∈ added, w ∉ r.holders) ∧ added.Nodup ∧
      (desired = none → r'.holders.length ≤ max required r.holders.length) := by
  induction workers generalizing r with
  | nil =>
    exact ⟨r, [], rfl, rfl, .refl .., by simp, rfl, .slnil, nofun, .nil,
      fun _ => le_max_right ..⟩
  | cons worker workers ih =>
    rw [putReplicas, recipients]
    by_cases henough : placed desired r.holders ≥ required
    · rw [if_pos henough, if_pos henough]
      exact ⟨r, [], rfl, rfl, .refl .., by simp, rfl, List.nil_sublist _, nofun, .nil,
        fun _ => le_max_right ..⟩
    · rw [if_neg henough, if_neg henough]
      by_cases hholder : worker ∈ r.holders
      · rw [if_pos hholder, if_pos hholder]
        obtain ⟨r', added, hloop, hadded, hrepaired, hholders, hcount, hsub, hrest⟩ := ih r
        exact ⟨r', added, hloop, hadded, hrepaired, hholders, hcount, hsub.cons worker, hrest⟩
      · rw [if_neg hholder, if_neg hholder]
        by_cases helsewhere : desired.any (worker ∉ ·)
        · rw [if_pos helsewhere, if_pos helsewhere]
          obtain ⟨r', added, hloop, hadded, hrepaired, hholders, hcount, hsub, hrest⟩ := ih r
          exact ⟨r', added, hloop, hadded, hrepaired, hholders, hcount, hsub.cons worker, hrest⟩
        · rw [if_neg helsewhere, if_neg helsewhere]
          obtain ⟨stores, hput, hone⟩ := putOne_ok hdata r.stores worker
          rw [hput]
          obtain ⟨r', added, hloop, hadded, hrepaired, hholders, hcount, hsub, hfresh, hnodup,
            hmax⟩ := ih ⟨stores, r.holders ++ [worker], r.repaired + 1⟩
          have hnew : worker ∉ added := fun hw => hfresh worker hw (by simp)
          refine ⟨r', worker :: added, hloop, congrArg (worker :: ·) hadded,
            hone.cons hrepaired hnew, ?_, ?_, hsub.cons_cons worker, fun w hw => ?_,
            List.nodup_cons.mpr ⟨hnew, hnodup⟩, fun hnone => ?_⟩
          · rw [hholders, List.append_assoc]
            rfl
          · rw [hcount, List.length_cons]
            dsimp only
            omega
          · rcases List.mem_cons.mp hw with rfl | hw
            · exact hholder
            · exact fun hold => hfresh w hw (List.mem_append_left _ hold)
          · have hbound := hmax hnone
            rw [hnone, placed] at henough
            rw [List.length_append, List.length_singleton] at hbound
            omega

/-- What is done about one chunk: the workers `added` got it, and if all went well, enough
of the holders are in place. -/
structure ChunkRepaired (hash : Bytes → ChunkId) (membership : Option WorkerMembership)
    (required : Nat) (healthy : List WorkerTargetId) (nowMs : Nat) (chunk : ChunkId)
    (holders added : List WorkerTargetId) (stores t : Stores) (result : Except FluxError Nat) :
    Prop where
  repaired : Repaired chunk added stores t
  sublist : added.Sublist healthy
  fresh : ∀ w ∈ added, w ∉ holders
  nodup : added.Nodup
  ok : ∀ n, result = .ok n → n = added.length ∧
    ∃ desired, desiredWorkers hash membership required chunk nowMs = .ok desired ∧
      added = recipients desired required healthy holders ∧
      required ≤ placed desired (holders ++ added) ∧
      (desired = none → (holders ++ added).length ≤ max required holders.length)

theorem ChunkRepaired.of_error {membership : Option WorkerMembership} {nowMs : Nat}
    {error : FluxError} : ChunkRepaired hash membership required healthy nowMs chunk holders []
      stores stores (.error error) :=
  ⟨.refl .., List.nil_sublist _, nofun, .nil, nofun⟩

theorem repairChunk_cases {membership : Option WorkerMembership} {nowMs : Nat}
    {result : Except FluxError Nat}
    (h : repairChunk hash membership required healthy nowMs stores chunk holders = (t, result)) :
    ∃ added, ChunkRepaired hash membership required healthy nowMs chunk holders added stores t
      result := by
  rw [repairChunk] at h
  cases hdesired : desiredWorkers hash membership required chunk nowMs with
  | error error =>
    rw [hdesired] at h
    cases h
    exact ⟨[], .of_error⟩
  | ok desired =>
    rw [hdesired] at h
    dsimp only at h
    split at h
    · rename_i henough
      cases h
      refine ⟨[], .refl .., List.nil_sublist _, nofun, .nil, fun n hn => ?_⟩
      cases hn
      exact ⟨rfl, desired, hdesired, (recipients_of_enough henough healthy).symm,
        by simpa using henough, fun _ => by simp⟩
    · split at h
      · cases h
        exact ⟨[], .of_error⟩
      · split at h
        · cases h
          exact ⟨[], .of_error⟩
        · split at h
          · cases h
            exact ⟨[], .of_error⟩
          · rename_i data _ hdata
            obtain ⟨r, added, hloop, hadded, hrepaired, hholders, hcount, hsub, hfresh, hnodup,
              hmax⟩ := putReplicas_ok desired required healthy (not_not.mp hdata)
                ⟨stores, holders, 0⟩
            rw [hloop] at h
            dsimp only at h hholders hcount
            split at h
            · cases h
              exact ⟨added, hrepaired, hsub, hfresh, hnodup, nofun⟩
            · rename_i hplaced
              cases h
              refine ⟨added, hrepaired, hsub, hfresh, hnodup, fun n hn => ?_⟩
              cases hn
              rw [hholders] at hplaced hmax
              exact ⟨by omega, desired, hdesired, hadded, Nat.not_lt.mp hplaced, hmax⟩

/-! ## A page -/

/-- What the loop over the chunks of a page does. -/
inductive RowsRepaired (hash : Bytes → ChunkId) (membership : Option WorkerMembership)
    (required : Nat) (healthy : List WorkerTargetId) (clock : Nat → Nat) :
    List (ChunkId × List WorkerTargetId) → RepairState → RepairState → Except FluxError Nat → Prop
  | nil {st} : RowsRepaired hash membership required healthy clock [] st st (.ok 0)
  | failed {chunk holders added rows st t error} :
      ChunkRepaired hash membership required healthy (clock st.checked.length) chunk holders added
        st.stores t (.error error) →
      RowsRepaired hash membership required healthy clock ((chunk, holders) :: rows) st
        { st with stores := t } (.error error)
  | cons {chunk holders added rows st t st' result} :
      ChunkRepaired hash membership required healthy (clock st.checked.length) chunk holders added
        st.stores t (.ok added.length) →
      RowsRepaired hash membership required healthy clock rows
        { st with stores := t, checked := st.checked ++ [chunk] } st' result →
      RowsRepaired hash membership required healthy clock ((chunk, holders) :: rows) st st'
        (result.map (added.length + ·))

theorem repairChunks_repaired (hash : Bytes → ChunkId) (membership : Option WorkerMembership)
    (required : Nat) (healthy : List WorkerTargetId) (clock : Nat → Nat)
    (rows : List (ChunkId × List WorkerTargetId)) (st : RepairState) (repaired : Nat) :
    ∃ st' result, repairChunks hash membership required healthy clock rows st repaired =
        (st', result.map (repaired + ·)) ∧
      RowsRepaired hash membership required healthy clock rows st st' result := by
  induction rows generalizing st repaired with
  | nil => exact ⟨st, .ok 0, rfl, .nil⟩
  | cons row rows ih =>
    obtain ⟨chunk, holders⟩ := row
    rw [repairChunks]
    obtain ⟨added, hrepaired⟩ := repairChunk_cases (Prod.eta (repairChunk hash membership required
      healthy (clock st.checked.length) st.stores chunk holders)).symm
    generalize repairChunk hash membership required healthy (clock st.checked.length) st.stores
      chunk holders = outcome at hrepaired ⊢
    obtain ⟨t, result⟩ := outcome
    cases result with
    | error error => exact ⟨_, .error error, rfl, .failed hrepaired⟩
    | ok n =>
      obtain ⟨rfl, -⟩ := hrepaired.ok n rfl
      obtain ⟨st', result, hloop, hrows⟩ := ih
        { st with stores := t, checked := st.checked ++ [chunk] } (repaired + added.length)
      refine ⟨st', _, ?_, .cons hrepaired hrows⟩
      dsimp only
      rw [hloop]
      cases result with
      | error error => rfl
      | ok m => simp [Except.map, Nat.add_assoc]

end

end FluxFS
