import FluxFS.Lib.Sorted
import FluxFS.Lib.Spread
import FluxFS.Types

/-!
# Placement — capacity-weighted rendezvous placement

`crates/chunk/src/placement.rs`. The candidates are ranked by score and id; the first
loop takes the first of each failure domain, the second fills up. Together they take
the first `required` of `Kit.spread` (`selectWorkerTargets_eq`), whose general laws
give the properties of the selection. blake3 is a parameter `hash`.
-/

namespace FluxFS

open Kit

/-- `CHUNK_SIZE`, 4 MiB. -/
def chunkSize : Nat := 4 * 1024 * 1024

/-- The workers that may take a chunk: `active_at`, valid, and with room for it. -/
def Eligible (nowMs : Nat) (worker : WorkerRegistration) : Prop :=
  worker.leaseDeadlineMs > nowMs ∧ worker.validate = .ok () ∧ worker.availableBytes ≥ chunkSize

instance (nowMs : Nat) (worker : WorkerRegistration) : Decidable (Eligible nowMs worker) :=
  inferInstanceAs (Decidable (_ ∧ _))

section
variable (hash : Bytes → ChunkId)

/-- `placement_score`. -/
def placementScore (chunk : ChunkId) (worker : WorkerRegistration) : Nat :=
  let digest := hash (chunk.bytes ++ toBeBytes 8 worker.id)
  fromBeBytes (digest.bytes.take 8) * worker.availableBytes

/-- The order of the candidates: by falling score, then by id. -/
def rankedBefore (chunk : ChunkId) (left right : WorkerRegistration) : Prop :=
  placementScore hash chunk right < placementScore hash chunk left ∨
    placementScore hash chunk left = placementScore hash chunk right ∧ left.id ≤ right.id

instance (chunk : ChunkId) : DecidableRel (rankedBefore hash chunk) :=
  fun _ _ => inferInstanceAs (Decidable (_ ∨ _))

/-- The sorted candidates of `select_worker_targets`. -/
def candidates (membership : WorkerMembership) (chunk : ChunkId) (nowMs : Nat) :
    List WorkerRegistration :=
  (membership.workers.filter (Eligible nowMs ·)).insertionSort (rankedBefore hash chunk)

end

/-- The first loop; `inl` where it returns from the function. -/
def firstOfDomains (required : Nat) :
    List WorkerRegistration → List String → List WorkerRegistration →
      List WorkerRegistration ⊕ List WorkerRegistration
  | [], _, selected => .inr selected
  | worker :: workers, domains, selected =>
    if worker.failureDomain ∈ domains then firstOfDomains required workers domains selected
    else
      let selected := selected ++ [worker]
      if selected.length = required then .inl selected
      else firstOfDomains required workers (worker.failureDomain :: domains) selected

/-- The second loop. -/
def fillUp (required : Nat) :
    List WorkerRegistration → List WorkerRegistration → Except FluxError (List WorkerRegistration)
  | [], _ => .error .busy
  | worker :: workers, selected =>
    if selected.any (·.id = worker.id) then fillUp required workers selected
    else
      let selected := selected ++ [worker]
      if selected.length = required then .ok selected
      else fillUp required workers selected

/-- `select_worker_targets`. -/
def selectWorkerTargets (hash : Bytes → ChunkId) (membership : WorkerMembership) (chunk : ChunkId)
    (required nowMs : Nat) : Except FluxError (List WorkerRegistration) :=
  if required = 0 then .error (.invalidArg "replication factor must be non-zero")
  else
    let candidates := candidates hash membership chunk nowMs
    if candidates.length < required then .error .busy
    else
      match firstOfDomains required candidates [] [] with
      | .inl selected => .ok selected
      | .inr selected => fillUp required candidates selected

/-! ## The two loops -/

section
variable {required : Nat} {workers selected targets : List WorkerRegistration}
  {domains : List String}

/-- The first loop takes heads until it has enough. -/
theorem firstOfDomains_eq (hselected : selected.length < required) :
    firstOfDomains required workers domains selected =
      if required ≤ (selected ++ heads (·.failureDomain) domains workers).length then
        .inl ((selected ++ heads (·.failureDomain) domains workers).take required)
      else .inr (selected ++ heads (·.failureDomain) domains workers) := by
  induction workers generalizing domains selected with
  | nil =>
    rw [firstOfDomains, heads, List.append_nil, if_neg (Nat.not_le.mpr hselected)]
  | cons worker workers ih =>
    rw [firstOfDomains, heads]
    by_cases hseen : worker.failureDomain ∈ domains
    · rw [if_pos hseen, if_pos hseen]
      exact ih hselected
    · rw [if_neg hseen, if_neg hseen]
      have hlength : (selected ++ [worker]).length = selected.length + 1 := by simp
      have happend : selected ++ worker :: heads (·.failureDomain)
          (worker.failureDomain :: domains) workers = (selected ++ [worker]) ++
            heads (·.failureDomain) (worker.failureDomain :: domains) workers := by simp
      rw [happend]
      dsimp only
      by_cases hfull : (selected ++ [worker]).length = required
      · have hlong : required ≤ ((selected ++ [worker]) ++ heads (·.failureDomain)
            (worker.failureDomain :: domains) workers).length := by
          rw [List.length_append]
          omega
        rw [if_pos hfull, if_pos hlong, ← hfull, List.take_left]
      · rw [if_neg hfull]
        exact ih (by omega)

/-- The second loop takes the workers that are not selected until it has enough. -/
theorem fillUp_eq (hids : (workers.map (·.id)).Nodup) (hselected : selected.length < required) :
    fillUp required workers selected =
      let more := workers.filter fun worker => ¬ selected.any (·.id = worker.id)
      if required ≤ (selected ++ more).length then .ok ((selected ++ more).take required)
      else .error .busy := by
  induction workers generalizing selected with
  | nil => simp [fillUp, hselected]
  | cons worker workers ih =>
    obtain ⟨hworker, hids⟩ := List.nodup_cons.mp hids
    rw [fillUp]
    by_cases hchosen : selected.any (·.id = worker.id)
    · rw [if_pos hchosen, ih hids hselected, List.filter_cons_of_neg (by simpa using hchosen)]
    · rw [if_neg hchosen, List.filter_cons_of_pos (by simpa using hchosen)]
      -- the others are chosen or not as before
      have hothers : (workers.filter fun other =>
          ¬ (selected ++ [worker]).any (·.id = other.id)) =
            workers.filter fun other => ¬ selected.any (·.id = other.id) := by
        refine List.filter_congr fun other hother => ?_
        have hne : worker.id ≠ other.id := fun h =>
          hworker (List.mem_map.mpr ⟨other, hother, h.symm⟩)
        simp [hne]
      have happend : selected ++ worker :: (workers.filter fun other =>
          ¬ selected.any (·.id = other.id)) = (selected ++ [worker]) ++
            workers.filter fun other => ¬ selected.any (·.id = other.id) := by simp
      dsimp only
      rw [happend]
      have hlength : (selected ++ [worker]).length = selected.length + 1 := by simp
      by_cases hfull : (selected ++ [worker]).length = required
      · have hlong : required ≤ ((selected ++ [worker]) ++ workers.filter fun other =>
            ¬ selected.any (·.id = other.id)).length := by
          rw [List.length_append]
          omega
        rw [if_pos hfull, if_pos hlong, ← hfull, List.take_left]
      · rw [if_neg hfull, ih hids (by omega), hothers]

theorem fillUp_length (h : fillUp required workers selected = .ok targets) :
    targets.length = required := by
  induction workers generalizing selected with
  | nil => cases h
  | cons worker workers ih =>
    rw [fillUp] at h
    split at h
    · exact ih h
    · dsimp only at h
      split at h
      · rename_i hfull
        cases h
        exact hfull
      · exact ih h

/-- A selection has as many targets as are required. -/
theorem selectWorkerTargets_length {hash : Bytes → ChunkId} {membership : WorkerMembership}
    {chunk : ChunkId} {nowMs : Nat}
    (h : selectWorkerTargets hash membership chunk required nowMs = .ok targets) :
    targets.length = required := by
  rw [selectWorkerTargets] at h
  split at h
  · cases h
  · rename_i hzero
    dsimp only at h
    split at h
    · cases h
    · rw [firstOfDomains_eq (show ([] : List WorkerRegistration).length < required from
        Nat.pos_of_ne_zero hzero)] at h
      split_ifs at h with henough
      · cases h
        exact List.length_take_of_le henough
      · exact fillUp_length h

/-- What the second loop adds to the heads. -/
theorem fresh_eq_tails (hids : (workers.map (·.id)).Nodup) :
    (workers.filter fun worker =>
      ¬ (heads (·.failureDomain) [] workers).any (·.id = worker.id)) =
        tails (·.failureDomain) [] workers := by
  rw [tails_eq_filter (List.Nodup.of_map _ hids)]
  refine List.filter_congr fun worker hworker => ?_
  rw [decide_eq_decide, List.any_eq_true]
  refine not_congr ⟨?_, fun h => ⟨worker, h, by simp⟩⟩
  rintro ⟨chosen, hchosen, hid⟩
  have hmem : chosen ∈ workers :=
    (heads_perm_tails [] workers).mem_iff.mp (List.mem_append_left _ hchosen)
  rw [← List.inj_on_of_nodup_map hids hmem hworker (of_decide_eq_true hid)]
  exact hchosen

end

/-! ## The candidates -/

section
variable {hash : Bytes → ChunkId} {membership other : WorkerMembership} {chunk : ChunkId}
  {required nowMs : Nat}

/-- What the candidates are sorted by: falling scores, then ids. -/
def rank (hash : Bytes → ChunkId) (chunk : ChunkId) (worker : WorkerRegistration) : ℕᵒᵈ ×ₗ ℕ :=
  toLex (OrderDual.toDual (placementScore hash chunk worker), worker.id)

theorem rankedBefore_iff {left right : WorkerRegistration} :
    rankedBefore hash chunk left right ↔ rank hash chunk left ≤ rank hash chunk right := by
  rw [rank, rank, Prod.Lex.toLex_le_toLex]
  simp only [OrderDual.toDual_lt_toDual, OrderDual.toDual_inj, rankedBefore]

instance : Std.Total (rankedBefore hash chunk) :=
  ⟨fun left right => by simp only [rankedBefore_iff]; exact le_total _ _⟩

instance : IsTrans WorkerRegistration (rankedBefore hash chunk) :=
  ⟨fun _ _ _ => by simp only [rankedBefore_iff]; exact le_trans⟩

theorem candidates_perm :
    (candidates hash membership chunk nowMs).Perm (membership.workers.filter (Eligible nowMs ·)) :=
  List.perm_insertionSort ..

theorem mem_candidates {worker : WorkerRegistration} :
    worker ∈ candidates hash membership chunk nowMs ↔
      worker ∈ membership.workers ∧ Eligible nowMs worker := by
  rw [candidates_perm.mem_iff, List.mem_filter, decide_eq_true_iff]

theorem candidates_ids (hids : (membership.workers.map (·.id)).Nodup) :
    ((candidates hash membership chunk nowMs).map (·.id)).Nodup := by
  rw [(candidates_perm.map _).nodup_iff]
  exact hids.sublist (List.filter_sublist.map _)

theorem candidates_sorted (hids : (membership.workers.map (·.id)).Nodup) :
    SortedBy (rank hash chunk) (candidates hash membership chunk nowMs) := by
  have hranked : (candidates hash membership chunk nowMs).Pairwise (rankedBefore hash chunk) :=
    List.pairwise_insertionSort ..
  have hdistinct : (candidates hash membership chunk nowMs).Pairwise fun a b => a.id ≠ b.id :=
    List.pairwise_map.mp (candidates_ids hids)
  refine (hranked.and hdistinct).imp ?_
  rintro left right ⟨hle, hne⟩
  refine lt_of_le_of_ne (rankedBefore_iff.mp hle) fun heq => hne ?_
  exact congrArg (fun k => (ofLex k).2) heq

/-- The candidates are a matter of the workers that may take a chunk. -/
theorem candidates_congr (hids : (membership.workers.map (·.id)).Nodup)
    (hids' : (other.workers.map (·.id)).Nodup)
    (h : ∀ worker, Eligible nowMs worker → (worker ∈ membership.workers ↔ worker ∈ other.workers)) :
    candidates hash membership chunk nowMs = candidates hash other chunk nowMs := by
  refine (candidates_sorted hids).eq_of_mem_iff (candidates_sorted hids') fun worker => ?_
  rw [mem_candidates, mem_candidates]
  exact and_congr_left fun heligible => h worker heligible

/-- One candidate less closes the gap. -/
theorem candidates_gap (hash : Bytes → ChunkId) (chunk : ChunkId) {worker : WorkerRegistration}
    (hids : (membership.workers.map (·.id)).Nodup)
    (h : membership.workers.Perm (worker :: other.workers)) (hworker : Eligible nowMs worker) :
    ∃ before after, candidates hash membership chunk nowMs = before ++ worker :: after ∧
      candidates hash other chunk nowMs = before ++ after := by
  have hother : (other.workers.map (·.id)).Nodup :=
    (List.nodup_cons.mp ((h.map _).nodup_iff.mp hids)).2
  have hmem : worker ∈ candidates hash membership chunk nowMs :=
    mem_candidates.mpr ⟨h.mem_iff.mpr List.mem_cons_self, hworker⟩
  obtain ⟨before, after, hsplit⟩ := List.append_of_mem hmem
  have hsorted : SortedBy (rank hash chunk) (before ++ after) := by
    have hall : SortedBy (rank hash chunk) (candidates hash membership chunk nowMs) :=
      candidates_sorted hids
    rw [hsplit] at hall
    exact List.Pairwise.sublist ((List.sublist_cons_self worker after).append_left before) hall
  have hperm : (worker :: (before ++ after)).Perm
      (worker :: other.workers.filter (Eligible nowMs ·)) := by
    have hkept : (worker :: other.workers).filter (Eligible nowMs ·) =
        worker :: other.workers.filter (Eligible nowMs ·) :=
      List.filter_cons_of_pos (decide_eq_true hworker)
    have hall : (before ++ worker :: after).Perm (membership.workers.filter (Eligible nowMs ·)) :=
      hsplit ▸ candidates_perm
    rw [← hkept]
    exact List.perm_middle.symm.trans (hall.trans (h.filter _))
  refine ⟨before, after, hsplit, (candidates_sorted hother).eq_of_mem_iff hsorted fun a => ?_⟩
  rw [candidates_perm.mem_iff, hperm.cons_inv.mem_iff]

/-! ## The selection -/

/-- The two loops take the first of the spread candidates. -/
theorem selectWorkerTargets_eq (hids : (membership.workers.map (·.id)).Nodup)
    (hrequired : 1 ≤ required) :
    selectWorkerTargets hash membership chunk required nowMs =
      if (candidates hash membership chunk nowMs).length < required then .error .busy
      else .ok ((spread (·.failureDomain) (candidates hash membership chunk nowMs)).take
        required) := by
  rw [selectWorkerTargets, if_neg (by omega)]
  dsimp only
  split
  · rfl
  · rename_i henough
    have hunique : ((candidates hash membership chunk nowMs).map (·.id)).Nodup :=
      candidates_ids hids
    generalize candidates hash membership chunk nowMs = workers at henough hunique
    rw [firstOfDomains_eq (by exact hrequired), List.nil_append]
    by_cases hheads : required ≤ (heads (·.failureDomain) [] workers).length
    · rw [if_pos hheads, spread, List.take_append_of_le_length hheads]
    · rw [if_neg hheads]
      dsimp only
      rw [fillUp_eq hunique (by omega), fresh_eq_tails hunique]
      have hlength : (spread (·.failureDomain) workers).length = workers.length :=
        (spread_perm workers).length_eq
      dsimp only
      rw [← spread, if_pos (by omega)]

/-- A selection for `required` replicas among the eligible workers. -/
structure Selection (eligible : List WorkerRegistration) (required : Nat)
    (selected : List WorkerRegistration) : Prop where
  length : selected.length = required
  distinct : (selected.map (·.id)).Nodup
  subset : selected ⊆ eligible
  /-- As many failure domains as there can be. -/
  domains : (selected.map (·.failureDomain)).toFinset.card =
    min required (eligible.map (·.failureDomain)).toFinset.card

theorem selection_take (hids : (membership.workers.map (·.id)).Nodup)
    (henough : required ≤ (candidates hash membership chunk nowMs).length) :
    Selection (membership.workers.filter (Eligible nowMs ·)) required
      ((spread (·.failureDomain) (candidates hash membership chunk nowMs)).take required) := by
  have hperm : (spread (·.failureDomain) (candidates hash membership chunk nowMs)).Perm
      (candidates hash membership chunk nowMs) := spread_perm _
  refine ⟨?_, ?_, ?_, ?_⟩
  · rw [List.length_take, hperm.length_eq, Nat.min_eq_left henough]
  · have hnodup := (hperm.map (·.id)).nodup_iff.mpr (candidates_ids hids)
    exact hnodup.sublist ((List.take_sublist ..).map _)
  · intro worker hworker
    exact candidates_perm.mem_iff.mp (hperm.mem_iff.mp (List.mem_of_mem_take hworker))
  · rw [card_classes_take_spread, List.toFinset_eq_of_perm _ _ (candidates_perm.map _)]

/-- One worker less among the spread candidates. -/
theorem spread_without (hash : Bytes → ChunkId) (chunk : ChunkId) (nowMs : Nat)
    {worker : WorkerRegistration} (hids : (membership.workers.map (·.id)).Nodup)
    (h : membership.workers.Perm (worker :: other.workers)) :
    candidates hash membership chunk nowMs = candidates hash other chunk nowMs ∨
      Displaced worker (spread (·.failureDomain) (candidates hash membership chunk nowMs))
        (spread (·.failureDomain) (candidates hash other chunk nowMs)) := by
  by_cases hworker : Eligible nowMs worker
  · right
    obtain ⟨before, after, hwith, hwithout⟩ := candidates_gap hash chunk hids h hworker
    rw [hwith, hwithout]
    exact spread_displaced (·.failureDomain) worker before after
  · left
    have hother : (other.workers.map (·.id)).Nodup :=
      (List.nodup_cons.mp ((h.map _).nodup_iff.mp hids)).2
    refine candidates_congr hids hother fun a ha => ?_
    rw [h.mem_iff, List.mem_cons]
    exact or_iff_right fun heq => hworker (heq ▸ ha)

/-- Placement is as spread as can be and as stable as can be. -/
theorem selectWorkerTargets_spread_stable (hash : Bytes → ChunkId) (membership : WorkerMembership)
    (chunk : ChunkId) (required nowMs : Nat) (hids : (membership.workers.map (·.id)).Nodup)
    (hrequired : 1 ≤ required) :
    let eligible := membership.workers.filter (Eligible nowMs ·)
    let select := fun membership => selectWorkerTargets hash membership chunk required nowMs
    (select membership = .error .busy ↔ eligible.length < required) ∧
    (∀ other, other.workers.Perm membership.workers → select other = select membership) ∧
    (required ≤ eligible.length → ∃ selected, select membership = .ok selected ∧
      Selection eligible required selected ∧
      (∀ other worker, membership.workers.Perm (worker :: other.workers) → worker ∉ selected →
        select other = .ok selected) ∧
      ∀ other worker, other.workers.Perm (worker :: membership.workers) →
        (other.workers.map (·.id)).Nodup → ∃ selected', select other = .ok selected' ∧
          (selected' = selected ∨
            ∃ old ∈ selected, selected'.Perm (worker :: selected.erase old))) := by
  intro eligible select
  have hlength : (candidates hash membership chunk nowMs).length = eligible.length :=
    candidates_perm.length_eq
  have hselect : ∀ other : WorkerMembership, (other.workers.map (·.id)).Nodup →
      select other = if (candidates hash other chunk nowMs).length < required then .error .busy
        else .ok ((spread (·.failureDomain) (candidates hash other chunk nowMs)).take required) :=
    fun other hother => selectWorkerTargets_eq hother hrequired
  refine ⟨?_, ?_, fun henough => ?_⟩
  · rw [hselect membership hids, ← hlength]
    split <;> simp_all
  · intro other hperm
    have hother := (hperm.map (·.id)).nodup_iff.mpr hids
    rw [hselect other hother, hselect membership hids,
      candidates_congr hother hids fun worker _ => hperm.mem_iff]
  · rw [← hlength] at henough
    refine ⟨_, by rw [hselect membership hids, if_neg (Nat.not_lt.mpr henough)],
      selection_take hids henough, ?_, ?_⟩
    · -- without a worker the choice stays, unless that worker was chosen
      intro other worker hperm hworker
      have hother : (other.workers.map (·.id)).Nodup :=
        (List.nodup_cons.mp ((hperm.map _).nodup_iff.mp hids)).2
      have htake : (spread (·.failureDomain) (candidates hash membership chunk nowMs)).take
        required =
          (spread (·.failureDomain) (candidates hash other chunk nowMs)).take required := by
        rcases spread_without hash chunk nowMs hids hperm with hsame | hdisplaced
        · rw [hsame]
        · exact (hdisplaced.take_cases required).resolve_right fun h => hworker h.1
      have hleft : required ≤ (candidates hash other chunk nowMs).length := by
        have hcount := congrArg List.length htake
        rw [List.length_take, List.length_take, (spread_perm _).length_eq,
          (spread_perm _).length_eq] at hcount
        omega
      rw [hselect other hother, if_neg (Nat.not_lt.mpr hleft), htake]
    · intro other worker hperm hother
      rcases spread_without hash chunk nowMs hother hperm with hsame | hdisplaced
      · exact ⟨_, by rw [hselect other hother, hsame, if_neg (Nat.not_lt.mpr henough)], .inl rfl⟩
      · have hlonger := hdisplaced.length
        rw [(spread_perm _).length_eq, (spread_perm _).length_eq] at hlonger
        refine ⟨_, by rw [hselect other hother, if_neg (by omega)], ?_⟩
        refine hdisplaced.take_exchange ?_ ?_
        · exact (spread_perm _).nodup_iff.mpr (candidates_sorted hother).nodup
        · rwa [(spread_perm _).length_eq]

end

/-- Three workers in two racks, the third one full. -/
def threeWorkers : WorkerMembership where
  epoch := 1
  workers := [⟨1, "a:1", "rack-a", 2 * chunkSize, 2 * chunkSize, 10⟩,
    ⟨2, "b:1", "rack-a", 2 * chunkSize, chunkSize, 10⟩,
    ⟨3, "c:1", "rack-b", 2 * chunkSize, chunkSize - 1, 10⟩]

theorem selectWorkerTargets_spread_stable_threeWorkers :
    (threeWorkers.workers.map (·.id)).Nodup ∧ ∃ selected,
      selectWorkerTargets (fun _ => .ofByte 0) threeWorkers (.ofByte 0) 2 5 = .ok selected ∧
        Selection (threeWorkers.workers.filter (Eligible 5 ·)) 2 selected := by
  refine ⟨by decide, ?_⟩
  obtain ⟨-, -, h⟩ := selectWorkerTargets_spread_stable (fun _ => .ofByte 0) threeWorkers
    (.ofByte 0) 2 5 (by decide) (by decide)
  obtain ⟨selected, hselect, hselection, -⟩ := h (by decide +kernel)
  exact ⟨selected, hselect, hselection⟩

end FluxFS
