import FluxFS.Meta.Runs

/-!
# Ledger — at most one execution per op id

A request that carries an op id is answered from the ledger as long as its
row is there and not expired. Rows leave the ledger only through a prune
whose cutoff has reached their expiry, so within the retention window every
occurrence of an op id after the one that executed is answered with that
one's response and changes nothing.
-/

namespace FluxFS

open Std Kit Txn

/-! ## Rows leave through prunes only -/

/-- The times a request carries: its stamp and, if it prunes, its cutoff. -/
def MetaRaftRequest.carriedTimes (req : MetaRaftRequest) : List Nat :=
  req.ledgerNowUnixMs :: (req.op.prunes?.map Prod.fst).toList

/-- The row of `opId` is as it was, or was dropped because one of the times has
reached its expiry. -/
def PrunedBy (times : List Nat) (opId : RequestOpId) (s t : Tables) : Prop :=
  t.clientRequests[opId]? = s.clientRequests[opId]? ∨
    t.clientRequests[opId]? = none ∧
      ∃ entry, s.clientRequests[opId]? = some entry ∧ ∃ time ∈ times, entry.expiresAtUnixMs ≤ time

section
variable {now : Clock} {s t u : Tables} {opId : RequestOpId} {times : List Nat}

theorem PrunedBy.same (h : t.clientRequests = s.clientRequests) : PrunedBy times opId s t :=
  .inl (by rw [h])

theorem PrunedBy.trans (hst : PrunedBy times opId s t) (htu : PrunedBy times opId t u) :
    PrunedBy times opId s u := by
  rcases htu with htu | ⟨hnone, entry, hentry, hexpired⟩
  · unfold PrunedBy
    rw [htu]
    exact hst
  · rcases hst with hst | ⟨hgone, -⟩
    · exact .inr ⟨hnone, entry, hst ▸ hentry, hexpired⟩
    · rw [hgone] at hentry
      cases hentry

/-- A row that none of the times has reached stays. -/
theorem PrunedBy.row (h : PrunedBy times opId s t) {entry : ClientRequestLedgerEntry}
    (hrow : s.clientRequests[opId]? = some entry)
    (hlive : ∀ time ∈ times, time < entry.expiresAtUnixMs) :
    t.clientRequests[opId]? = some entry := by
  rcases h with h | ⟨-, entry', hrow', time, hmem, hexpired⟩
  · rw [h, hrow]
  · rw [hrow] at hrow'
    cases hrow'
    exact absurd (hlive time hmem) (Nat.not_lt.mpr hexpired)

theorem PrunedBy.no_row (h : PrunedBy times opId s t) (hnone : s.clientRequests[opId]? = none) :
    t.clientRequests[opId]? = none := by
  rcases h with h | ⟨h, -⟩
  · rw [h, hnone]
  · exact h

theorem mem_expiredRequests {cutoff maxToPrune : Nat}
    (h : opId ∈ expiredRequests s cutoff maxToPrune) :
    ∃ entry, s.clientRequests[opId]? = some entry ∧ entry.expiresAtUnixMs ≤ cutoff := by
  obtain ⟨⟨key, entry⟩, hmem, rfl⟩ := List.mem_map.mp h
  have hsorted := List.mem_of_mem_take hmem
  rw [List.mem_insertionSort, List.mem_filter, Table.mem_rows, decide_eq_true_eq] at hsorted
  exact ⟨entry, hsorted⟩

theorem pruneClientRequests_pruned {cutoff : Nat} (maxToPrune : Nat) (hmem : cutoff ∈ times) :
    PrunedBy times opId s (pruneClientRequests s cutoff maxToPrune) := by
  unfold PrunedBy pruneClientRequests
  rw [Table.get_eraseAll]
  split
  · rename_i hexpired
    obtain ⟨entry, hrow, hle⟩ := mem_expiredRequests hexpired
    exact .inr ⟨rfl, entry, hrow, cutoff, hmem, hle⟩
  · exact .inl rfl

theorem Edit.pruned {op : MetaOp} {faulty : Prop} {start : Keyed Inode.id}
    (hcutoff : ∀ p, op.prunes? = some p → p.1 ∈ times) (h : Edit now op faulty False start s t) :
    PrunedBy times opId s t := by
  cases h with
  | aside ledger lease workers hlease hledger =>
    rcases hledger with rfl | hrecorded | ⟨cutoff, maxToPrune, hop, rfl⟩
    · exact .same rfl
    · cases hrecorded
    · exact pruneClientRequests_pruned _ (hcutoff _ hop)
  | closePresence =>
    exact reapAll_keep (P := fun t => PrunedBy times opId s t) (fun _ _ _ ha _ _ _ => ha) _
      (.same rfl)
  | _ => exact .same rfl

theorem performOp_pruned (now : Clock) (op : MetaOp)
    (hcutoff : ∀ p, op.prunes? = some p → p.1 ∈ times) :
    PrunedBy times opId s (performOp now op s).2 :=
  performOp_keeps (fun _ _ ha e => ha.trans (e.pruned hcutoff)) (fun _ h => .same h.ledger)
    (.same rfl)

theorem dispatch_pruned (now : Clock) (op : MetaOp)
    (hcutoff : ∀ p, op.prunes? = some p → p.1 ∈ times) :
    PrunedBy times opId s (dispatch now op s).2 := by
  unfold dispatch
  split
  · exact .same rfl
  · exact performOp_pruned now op hcutoff

theorem cutoff_mem_carriedTimes (req : MetaRaftRequest) (p : Nat × Nat)
    (h : req.op.prunes? = some p) : p.1 ∈ req.carriedTimes := by
  simp [MetaRaftRequest.carriedTimes, h]

/-- The request found no retained response and no room in the ledger. -/
def MetaRaftRequest.turnedAway (req : MetaRaftRequest) (s : Tables) : Bool :=
  match req.opId with
  | none => false
  | some opId =>
    (getClientRequest s opId req.ledgerNowUnixMs).isNone &&
      clientRequestLedgerSoftCap ≤ (pruneClientRequests s req.ledgerNowUnixMs
        clientRequestPruneBatch).clientRequests.size

/-- The store with the response of an executed request retained. -/
def executeRequest (now : Clock) (opId : RequestOpId) (req : MetaRaftRequest) (s : Tables) :
    MetaRaftResponse × Tables :=
  let s := pruneClientRequests s req.ledgerNowUnixMs clientRequestPruneBatch
  let outcome := dispatch now req.op s
  (outcome.1, putClientRequest outcome.2 opId outcome.1 req.ledgerNowUnixMs)

theorem get_putClientRequest (s : Tables) (opId other : RequestOpId) (response : MetaRaftResponse)
    (createdAt : Nat) :
    (putClientRequest s opId response createdAt).clientRequests[other]? =
      if opId = other then
        some ⟨createdAt, saturatingAdd createdAt clientRequestRetentionMs, response⟩
      else s.clientRequests[other]? :=
  Table.get_insert ..

theorem get_executeRequest (now : Clock) (opId : RequestOpId) (req : MetaRaftRequest) (s : Tables) :
    (executeRequest now opId req s).2.clientRequests[opId]? =
      some ⟨req.ledgerNowUnixMs, saturatingAdd req.ledgerNowUnixMs clientRequestRetentionMs,
        (executeRequest now opId req s).1⟩ := by
  unfold executeRequest
  dsimp only
  rw [get_putClientRequest, if_pos rfl]

/-- The three ways a request with an op id ends. -/
theorem applyRaftRequest_cases (now : Clock) (s : Tables) {req : MetaRaftRequest}
    (hid : req.opId = some opId) :
    (∃ cached, getClientRequest s opId req.ledgerNowUnixMs = some cached ∧
      applyRaftRequest now req s = (cached, s)) ∨
    (req.turnedAway s = true ∧ applyRaftRequest now req s =
      (.err .busy, pruneClientRequests s req.ledgerNowUnixMs clientRequestPruneBatch)) ∨
    (getClientRequest s opId req.ledgerNowUnixMs = none ∧ req.turnedAway s = false ∧
      applyRaftRequest now req s = executeRequest now opId req s) := by
  simp only [MetaRaftRequest.turnedAway, applyRaftRequest, executeRequest, hid]
  cases hcached : getClientRequest s opId req.ledgerNowUnixMs with
  | some cached => exact .inl ⟨cached, rfl, rfl⟩
  | none =>
    dsimp only [Option.isNone_none, Bool.true_and]
    split
    · rename_i hfull
      exact .inr (.inl ⟨by simpa using hfull, rfl⟩)
    · rename_i hroom
      exact .inr (.inr ⟨rfl, by simpa using hroom, rfl⟩)

/-- What an applied request does to a row of another op id, or of its own when it
does not execute. -/
theorem applyRaftRequest_pruned {req : MetaRaftRequest}
    (h : req.opId = some opId → req.turnedAway s = true ∨
      (getClientRequest s opId req.ledgerNowUnixMs).isSome = true) :
    PrunedBy req.carriedTimes opId s (applyRaftRequest now req s).2 := by
  have hstamp : PrunedBy req.carriedTimes opId s
      (pruneClientRequests s req.ledgerNowUnixMs clientRequestPruneBatch) :=
    pruneClientRequests_pruned _ List.mem_cons_self
  cases hid : req.opId with
  | none =>
    simp only [applyRaftRequest, hid]
    exact dispatch_pruned now req.op (cutoff_mem_carriedTimes req)
  | some other =>
    rcases applyRaftRequest_cases now s hid with
      ⟨cached, hcached, heq⟩ | ⟨hfull, heq⟩ | ⟨hmiss, hroom, heq⟩
    · rw [heq]
      exact .same rfl
    · rw [heq]
      exact hstamp
    · have hother : other ≠ opId := by
        rintro rfl
        rcases h hid with hfull | hcached
        · rw [hroom] at hfull
          cases hfull
        · rw [hmiss] at hcached
          cases hcached
      rw [heq]
      refine (hstamp.trans (dispatch_pruned now req.op (cutoff_mem_carriedTimes req))).trans
        (.inl ?_)
      exact (get_putClientRequest ..).trans (if_neg hother)

end

/-! ## At most one execution -/

/-- No time a request carries is before one carried earlier in the log. -/
def TimesNonDecreasing (log : List MetaRequest) : Prop :=
  log.Pairwise fun a b => ∀ t ∈ a.req.carriedTimes, ∀ u ∈ b.req.carriedTimes, t ≤ u

/-- A row answers until its expiry. -/
theorem getClientRequest_of_row {s : Tables} {opId : RequestOpId} {nowUnixMs : Nat}
    {entry : ClientRequestLedgerEntry} (hrow : s.clientRequests[opId]? = some entry)
    (hlive : nowUnixMs < entry.expiresAtUnixMs) :
    getClientRequest s opId nowUnixMs = some entry.response := by
  rw [getClientRequest, hrow, Option.bind_some, if_neg (Nat.not_le.mpr hlive)]

/-- Until the row expires, other requests and retries leave it in place. -/
theorem row_survives {opId : RequestOpId} {entry : ClientRequestLedgerEntry}
    (log : List MetaRequest) {s : Tables} (hrow : s.clientRequests[opId]? = some entry)
    (hlive : ∀ r ∈ log, ∀ t ∈ r.req.carriedTimes, t < entry.expiresAtUnixMs) :
    (runMeta s log).clientRequests[opId]? = some entry := by
  induction log generalizing s with
  | nil => exact hrow
  | cons r log ih =>
    obtain ⟨hr, hlog⟩ := List.forall_mem_cons.mp hlive
    refine ih (PrunedBy.row (applyRaftRequest_pruned fun _ => .inr ?_) hrow hr) hlog
    rw [getClientRequest_of_row hrow (hr _ List.mem_cons_self)]
    rfl

/-- An op id whose requests were all turned away has no row. -/
theorem no_row_of_turnedAway {opId : RequestOpId} (log : List MetaRequest) {s : Tables}
    (hnone : s.clientRequests[opId]? = none)
    (haway : Along metaStep (fun s r => r.req.opId = some opId → r.req.turnedAway s = true) s log) :
    (runMeta s log).clientRequests[opId]? = none := by
  induction log generalizing s with
  | nil => exact hnone
  | cons r log ih =>
    refine ih ?_ (haway.2 _ rfl)
    exact (applyRaftRequest_pruned fun hid => .inl (haway.1 hid)).no_row hnone

/-- In a log whose times do not decrease, the first request of an op id that is not
turned away executes, those before it only pruned the ledger, and every later one
stamped within the retention window is answered with its response and leaves the
tables alone. -/
theorem op_id_executes_once (start : Int) (before between : List MetaRequest)
    (first retry : MetaRequest) (opId : RequestOpId)
    (hfirst : first.req.opId = some opId) (hretry : retry.req.opId = some opId)
    (haway : Along metaStep (fun s r => r.req.opId = some opId → r.req.turnedAway s = true)
      (.fresh start) before)
    (hadmitted : first.req.turnedAway (runMeta (.fresh start) before) = false)
    (htimes : TimesNonDecreasing (before ++ first :: between ++ [retry]))
    (hwindow : retry.req.ledgerNowUnixMs < first.req.ledgerNowUnixMs + clientRequestRetentionMs)
    (hclock : retry.req.ledgerNowUnixMs < u64Max) :
    let s₁ := runMeta (.fresh start) before
    let executed := applyRaftRequest first.now first.req s₁
    let s₂ := runMeta executed.2 between
    (∀ pre r post, before = pre ++ r :: post → r.req.opId = some opId →
      applyRaftRequest r.now r.req (runMeta (.fresh start) pre) =
        (.err .busy, pruneClientRequests (runMeta (.fresh start) pre) r.req.ledgerNowUnixMs
          clientRequestPruneBatch)) ∧
    executed = executeRequest first.now opId first.req s₁ ∧
    applyRaftRequest retry.now retry.req s₂ = (executed.1, s₂) := by
  intro s₁ executed s₂
  have hnone : s₁.clientRequests[opId]? = none :=
    no_row_of_turnedAway before (by simp [Tables.fresh]) haway
  have hexecuted : executed = executeRequest first.now opId first.req s₁ := by
    rcases applyRaftRequest_cases first.now s₁ hfirst with
      ⟨cached, hcached, -⟩ | ⟨hfull, -⟩ | ⟨-, -, heq⟩
    · simp [getClientRequest, hnone] at hcached
    · rw [hadmitted] at hfull
      cases hfull
    · exact heq
  refine ⟨?_, hexecuted, ?_⟩
  · rintro pre r post rfl hid
    have hfull := (haway.append.2 _ (exec_metaStep _ pre)).1 hid
    rcases applyRaftRequest_cases r.now (runMeta (.fresh start) pre) hid with
      ⟨cached, hcached, -⟩ | ⟨-, heq⟩ | ⟨-, hroom, -⟩
    · simp [MetaRaftRequest.turnedAway, hid, hcached] at hfull
    · exact heq
    · rw [hroom] at hfull
      cases hfull
  · have hexpiry : retry.req.ledgerNowUnixMs <
        saturatingAdd first.req.ledgerNowUnixMs clientRequestRetentionMs :=
      lt_saturatingAdd hwindow hclock
    have hrow : executed.2.clientRequests[opId]? = some ⟨first.req.ledgerNowUnixMs,
        saturatingAdd first.req.ledgerNowUnixMs clientRequestRetentionMs, executed.1⟩ := by
      rw [hexecuted]
      exact get_executeRequest first.now opId first.req s₁
    have hlive : ∀ r ∈ between, ∀ t ∈ r.req.carriedTimes,
        t < saturatingAdd first.req.ledgerNowUnixMs clientRequestRetentionMs := by
      intro r hr t ht
      have hle := (List.pairwise_append.mp htimes).2.2 r (by simp [hr]) retry (by simp) t ht _
        List.mem_cons_self
      exact Nat.lt_of_le_of_lt hle hexpiry
    have hretained : getClientRequest s₂ opId retry.req.ledgerNowUnixMs = some executed.1 :=
      getClientRequest_of_row (row_survives between hrow hlive) hexpiry
    rcases applyRaftRequest_cases retry.now s₂ hretry with
      ⟨cached, hcached, heq⟩ | ⟨hfull, -⟩ | ⟨hmiss, -⟩
    · rw [hretained] at hcached
      rw [heq, Option.some.inj hcached]
    · simp [MetaRaftRequest.turnedAway, hretry, hretained] at hfull
    · rw [hretained] at hmiss
      cases hmiss

/-- Create the file `a` under an op id. -/
def createRequest (opId : RequestOpId) (stamp : Nat) : MetaRequest :=
  ⟨0, ⟨some opId, stamp, .create rootInode "a" .regular 0o644 0 0 none⟩⟩

/-- An expiry pass, which also prunes the ledger. -/
def expireRequest (stamp cutoff : Nat) : MetaRequest :=
  ⟨0, ⟨some 8, stamp, .expireChunkReservations cutoff 256⟩⟩

theorem op_id_executes_once_createRequest :
    let s₁ := Tables.fresh 0
    let executed := applyRaftRequest 0 (createRequest 7 1000).req s₁
    let s₂ := runMeta executed.2 [expireRequest 2000 2000]
    applyRaftRequest 0 (createRequest 7 3000).req s₂ = (executed.1, s₂) :=
  (op_id_executes_once 0 [] [expireRequest 2000 2000] (createRequest 7 1000) (createRequest 7 3000)
    7 rfl rfl trivial (by decide +kernel) (by unfold TimesNonDecreasing; decide +kernel)
    (by decide +kernel) (by decide +kernel)).2.2

/-- A request stamped with the last `u64` is retained until that very time: its
retry, stamped alike, executes again. -/
theorem last_stamp_executes_twice :
    let first := applyRaftRequest 0 (createRequest 7 u64Max).req (.fresh 0)
    first.1 = .inode (newInode 2 .regular 0o644 0 0 none 0) ∧
    u64Max < u64Max + clientRequestRetentionMs ∧
    (applyRaftRequest 0 (createRequest 7 u64Max).req first.2).1 = .err .alreadyExists := by
  decide +kernel

end FluxFS
