import FluxFS.Meta.RaftTypes

/-!
# RaftLog — the durable raft log

`HeedRaftLogStore`: log entries under their big-endian index, the vote, the
committed and the last purged id as JSON rows. `AbstractLog` says what a
raft log storage is for: the entries in index order and the values last
saved. Every sequence of calls keeps `Refines` between the two, and the
read calls are computed from the abstract side.
-/

namespace FluxFS

open Std Kit

/-- What the log store reports to openraft. -/
inductive StorageError where
  | readLogs (message : String)
  | writeVote (message : String)
deriving DecidableEq, Repr

/-- `std::ops::Bound<u64>`. -/
inductive Bound where
  | included (i : UInt64)
  | excluded (i : UInt64)
  | unbounded
deriving DecidableEq, Repr

/-- The argument of `try_get_log_entries`. -/
structure IndexRange where
  start : Bound
  stop : Bound
deriving DecidableEq, Repr

/-- The rows of `RaftLogStore`. -/
structure RaftLogStore where
  logs : Table Bytes (JsonText Entry)
  vote : Option (JsonText Vote)
  committed : Option (JsonText LogId)
  lastPurged : Option (JsonText LogId)

/-- The answer of `get_log_state`. -/
structure LogState where
  lastPurgedLogId : Option LogId
  lastLogId : Option LogId
deriving DecidableEq, Repr

/-- `index_key`: eight bytes, big-endian. -/
def indexKey (index : UInt64) : Bytes := toBeBytes 8 index.toNat

/-- `u64::from_be_bytes` of an 8-byte key. -/
def keyIndex (key : Bytes) : UInt64 := UInt64.ofNat (fromBeBytes key)

/-- The first index of a range, with the excluded end saturating at `u64::MAX`. -/
def Bound.first : Bound → UInt64
  | .included i => i
  | .excluded i => UInt64.ofNat (saturatingAdd i.toNat 1)
  | .unbounded => 0

/-- The last index of a range; `checked_sub` has no answer for an excluded 0. -/
def Bound.last? : Bound → Option UInt64
  | .included i => some i
  | .excluded i => if i = 0 then none else some (i - 1)
  | .unbounded => none

namespace RaftLogStore

/-- A store that was just created. -/
def empty : RaftLogStore := ⟨∅, none, none, none⟩

/-- The loop of `try_get_log_entries` over the rows in key order. -/
def scan (start : UInt64) (endInclusive : Option UInt64) :
    List (Bytes × JsonText Entry) → Except String (List Entry)
  | [] => .ok []
  | (key, text) :: rows =>
    if key.length ≠ 8 then scan start endInclusive rows
    else if keyIndex key < start then scan start endInclusive rows
    else if endInclusive.any (· < keyIndex key) then .ok []
    else do
      let entry ← text.fromSlice "Entry"
      let rest ← scan start endInclusive rows
      pure (entry :: rest)

/-- `try_get_log_entries`. -/
def tryGetLogEntries (st : RaftLogStore) (range : IndexRange) :
    Except StorageError (List Entry) :=
  (scan range.start.first range.stop.last? st.logs.toList).mapError .readLogs

/-- The loop of `get_log_state`. -/
def lastEntry (last : Option LogId) :
    List (Bytes × JsonText Entry) → Except String (Option LogId)
  | [] => .ok last
  | (_, text) :: rows => do
    let entry ← text.fromSlice "Entry"
    lastEntry (some entry.logId) rows

/-- `get_log_state`. -/
def getLogState (st : RaftLogStore) : Except StorageError LogState := do
  let lastPurged ← (JsonText.readRow "LogId" st.lastPurged).mapError .readLogs
  let last ← (lastEntry none st.logs.toList).mapError .readLogs
  pure ⟨lastPurged, last.or lastPurged⟩

/-- `save_committed`. -/
def saveCommitted (st : RaftLogStore) (committed : Option LogId) : RaftLogStore :=
  { st with committed := some (.ofOption committed) }

/-- `read_committed`. -/
def readCommitted (st : RaftLogStore) : Except StorageError (Option LogId) :=
  (JsonText.readRow "LogId" st.committed).mapError .readLogs

/-- `save_vote`. -/
def saveVote (st : RaftLogStore) (vote : Vote) : RaftLogStore :=
  { st with vote := some (.value vote) }

/-- `read_vote`; the code wraps its errors as write errors. -/
def readVote (st : RaftLogStore) : Except StorageError (Option Vote) :=
  (JsonText.readRow "Vote" st.vote).mapError .writeVote

/-- `append`. -/
def append (st : RaftLogStore) (entries : List Entry) : RaftLogStore :=
  { st with
    logs := entries.foldl (fun logs e => logs.insert (indexKey e.index) (.value e)) st.logs }

/-- The keys whose index a deletion loop collects. -/
def keysWhere (st : RaftLogStore) (drop : UInt64 → Bool) : List Bytes :=
  ((st.logs.toList.map Prod.fst).filter fun key => key.length = 8 ∧ drop (keyIndex key) = true).map
    fun key => indexKey (keyIndex key)

/-- `truncate`. -/
def truncate (st : RaftLogStore) (logId : LogId) : RaftLogStore :=
  { st with logs := Table.eraseAll st.logs (st.keysWhere (logId.index ≤ ·)) }

/-- `purge`. -/
def purge (st : RaftLogStore) (logId : LogId) : RaftLogStore :=
  { st with
    lastPurged := some (.value logId)
    logs := Table.eraseAll st.logs (st.keysWhere (· ≤ logId.index)) }

end RaftLogStore

/-! ## What the storage is for -/

/-- The storage as raft sees it: the entries by index and the values last saved. -/
structure AbstractLog where
  entries : List Entry
  lastPurged : Option LogId
  vote : Option Vote
  /-- `none` before the first save. -/
  committed : Option (Option LogId)
  applied : Option SmAppliedMeta

/-- The log store and the marker rows of the metadata store. -/
structure RaftStorage where
  log : RaftLogStore
  sm : SmRows

/-- The calls openraft makes on the storage. -/
inductive StorageOp where
  | append (entries : List Entry)
  | truncate (logId : LogId)
  | purge (logId : LogId)
  | saveVote (vote : Vote)
  | saveCommitted (committed : Option LogId)
  | putSmMetaRaw (sm : SmAppliedMeta)
  /-- Close and open again: every call above has committed its transaction. -/
  | reopen
deriving DecidableEq, Repr

/-- A storage without rows. -/
def RaftStorage.fresh : RaftStorage := ⟨.empty, .empty⟩

/-- One call. -/
def RaftStorage.perform (st : RaftStorage) : StorageOp → RaftStorage
  | .append entries => { st with log := st.log.append entries }
  | .truncate logId => { st with log := st.log.truncate logId }
  | .purge logId => { st with log := st.log.purge logId }
  | .saveVote vote => { st with log := st.log.saveVote vote }
  | .saveCommitted committed => { st with log := st.log.saveCommitted committed }
  | .putSmMetaRaw sm => { st with sm := .putSmMetaRaw sm }
  | .reopen => st

namespace AbstractLog

/-- A log without entries. -/
def fresh : AbstractLog := ⟨[], none, none, none, none⟩

/-- Store one entry at its index. -/
def putEntry (entries : List Entry) (e : Entry) : List Entry :=
  entries.filter (·.index < e.index) ++ e :: entries.filter (e.index < ·.index)

/-- One call on the log. -/
def perform (log : AbstractLog) : StorageOp → AbstractLog
  | .append entries => { log with entries := entries.foldl putEntry log.entries }
  | .truncate logId => { log with entries := log.entries.filter (·.index < logId.index) }
  | .purge logId =>
    { log with
      entries := log.entries.filter (logId.index < ·.index)
      lastPurged := some logId }
  | .saveVote vote => { log with vote := some vote }
  | .saveCommitted committed => { log with committed := some committed }
  | .putSmMetaRaw sm => { log with applied := some sm }
  | .reopen => log

/-- The id of the last entry, or of the last one purged. -/
def lastLogId (log : AbstractLog) : Option LogId :=
  (log.entries.getLast?.map Entry.logId).or log.lastPurged

end AbstractLog

/-- `RangeBounds::contains`. -/
def IndexRange.contains (range : IndexRange) (i : UInt64) : Bool :=
  (match range.start with
    | .included a => a ≤ i
    | .excluded a => a < i
    | .unbounded => true) &&
  match range.stop with
    | .included b => i ≤ b
    | .excluded b => i < b
    | .unbounded => true

/-- No end of the range is converted at the edge of `u64`. -/
def IndexRange.Convertible (range : IndexRange) : Prop :=
  range.start ≠ .excluded (UInt64.ofNat u64Max) ∧ range.stop ≠ .excluded 0

/-! ## Keys and indexes -/

theorem toNat_lt_key (i : UInt64) : i.toNat < 256 ^ 8 := i.toNat_lt

@[simp] theorem length_indexKey (i : UInt64) : (indexKey i).length = 8 := length_toBeBytes ..

@[simp] theorem keyIndex_indexKey (i : UInt64) : keyIndex (indexKey i) = i := by
  rw [keyIndex, indexKey, fromBeBytes_toBeBytes (toNat_lt_key i), UInt64.ofNat_toNat]

theorem indexKey_inj {i j : UInt64} (h : indexKey i = indexKey j) : i = j := by
  rw [← keyIndex_indexKey i, h, keyIndex_indexKey]

/-- The rows come in index order. -/
theorem compare_indexKey {i j : UInt64} (h : i < j) :
    compare (indexKey i) (indexKey j) = .lt := by
  rw [indexKey, indexKey, compare_toBeBytes (toNat_lt_key i) (toNat_lt_key j)]
  exact Nat.compare_eq_lt.mpr (UInt64.lt_iff_toNat_lt.mp h)

/-- `logs` holds exactly `entries`, which are in index order. -/
structure Holds (logs : Table Bytes (JsonText Entry)) (entries : List Entry) : Prop where
  sorted : entries.Pairwise (·.index < ·.index)
  rows : ∀ (key : Bytes) (text : JsonText Entry), logs[key]? = some text ↔
    ∃ e ∈ entries, key = indexKey e.index ∧ text = .value e

namespace Holds

variable {logs : Table Bytes (JsonText Entry)} {entries : List Entry}

theorem empty : Holds ∅ [] where
  sorted := .nil
  rows key text := by simp

theorem toList (h : Holds logs entries) :
    logs.toList = entries.map (fun e => (indexKey e.index, .value e)) := by
  refine Table.toList_eq ?_ ?_
  · exact List.pairwise_map.mpr (h.sorted.imp compare_indexKey)
  · intro key text
    rw [h.rows key text]
    simp only [List.mem_map, Prod.mk.injEq]
    constructor
    · rintro ⟨e, he, rfl, rfl⟩
      exact ⟨e, he, rfl, rfl⟩
    · rintro ⟨e, he, rfl, rfl⟩
      exact ⟨e, he, rfl, rfl⟩

theorem mem_putEntry {e x : Entry} :
    x ∈ AbstractLog.putEntry entries e ↔ x = e ∨ x ∈ entries ∧ x.index ≠ e.index := by
  simp only [AbstractLog.putEntry, List.mem_append, List.mem_cons, List.mem_filter,
    decide_eq_true_eq]
  grind

theorem putEntry_sorted (h : entries.Pairwise (·.index < ·.index)) (e : Entry) :
    (AbstractLog.putEntry entries e).Pairwise (·.index < ·.index) := by
  refine List.pairwise_append.mpr ⟨h.filter _, List.pairwise_cons.mpr ⟨?_, h.filter _⟩, ?_⟩
  · intro x hx
    simpa using (List.mem_filter.mp hx).2
  · intro x hx y hy
    have hxe : x.index < e.index := by simpa using (List.mem_filter.mp hx).2
    rcases List.mem_cons.mp hy with rfl | hy
    · exact hxe
    · have hey : e.index < y.index := by simpa using (List.mem_filter.mp hy).2
      exact UInt64.lt_trans hxe hey

theorem insert (h : Holds logs entries) (e : Entry) :
    Holds (logs.insert (indexKey e.index) (.value e)) (AbstractLog.putEntry entries e) where
  sorted := putEntry_sorted h.sorted e
  rows key text := by
    rw [Table.get_insert]
    simp only [mem_putEntry]
    split
    · rename_i hkey
      subst hkey
      constructor
      · intro htext
        cases htext
        exact ⟨e, .inl rfl, rfl, rfl⟩
      · rintro ⟨x, rfl | ⟨_, hne⟩, hkey, rfl⟩
        · rfl
        · exact absurd (indexKey_inj hkey).symm hne
    · rename_i hkey
      rw [h.rows key text]
      constructor
      · rintro ⟨x, hx, rfl, rfl⟩
        refine ⟨x, .inr ⟨hx, ?_⟩, rfl, rfl⟩
        exact fun heq => hkey (by rw [heq])
      · rintro ⟨x, rfl | ⟨hx, _⟩, rfl, rfl⟩
        · exact absurd rfl hkey
        · exact ⟨x, hx, rfl, rfl⟩

theorem append (h : Holds logs entries) (es : List Entry) :
    Holds (es.foldl (fun logs e => logs.insert (indexKey e.index) (.value e)) logs)
      (es.foldl AbstractLog.putEntry entries) := by
  induction es generalizing logs entries with
  | nil => exact h
  | cons e es ih => exact ih (h.insert e)

/-- A deletion loop keeps the entries whose index it does not collect. -/
theorem eraseWhere {st : RaftLogStore} (h : Holds st.logs entries) (drop : UInt64 → Bool) :
    Holds (Table.eraseAll st.logs (st.keysWhere drop))
      (entries.filter (fun e => !drop e.index)) where
  sorted := h.sorted.filter _
  rows key text := by
    have hkeys : key ∈ st.keysWhere drop ↔ ∃ e ∈ entries, key = indexKey e.index ∧
        drop e.index = true := by
      simp [RaftLogStore.keysWhere, h.toList]
      grind
    rw [Table.get_eraseAll]
    simp only [hkeys, List.mem_filter]
    split
    · rename_i hdrop
      obtain ⟨e, _, hkey, hdrop⟩ := hdrop
      simp only [reduceCtorEq, false_iff]
      rintro ⟨x, ⟨_, hx⟩, hkey', _⟩
      rw [indexKey_inj (hkey.symm.trans hkey')] at hdrop
      simp [hdrop] at hx
    · rename_i hkeep
      rw [h.rows key text]
      constructor
      · rintro ⟨x, hx, hkey, htext⟩
        refine ⟨x, ⟨hx, ?_⟩, hkey, htext⟩
        by_contra hdrop
        exact hkeep ⟨x, hx, hkey, by simpa using hdrop⟩
      · rintro ⟨x, ⟨hx, _⟩, hkey, htext⟩
        exact ⟨x, hx, hkey, htext⟩

end Holds

/-! ## The range reader -/

/-- The converted start says what the range's start says. -/
theorem first_le_iff {range : IndexRange} (h : range.Convertible) (i : UInt64) :
    range.start.first ≤ i ↔
      match range.start with
      | .included a => a ≤ i
      | .excluded a => a < i
      | .unbounded => True := by
  obtain ⟨hstart, -⟩ := h
  cases hs : range.start with
  | included a => rfl
  | unbounded => simp [Bound.first]
  | excluded a =>
    have hlt : a.toNat < u64Max := by
      have hle := a.toNat_lt
      have hne : a.toNat ≠ u64Max := by
        intro heq
        apply hstart
        rw [hs, ← heq, UInt64.ofNat_toNat]
      unfold u64Max at hne ⊢
      omega
    have hfirst : (UInt64.ofNat (saturatingAdd a.toNat 1)).toNat = a.toNat + 1 := by
      rw [saturatingAdd_of_lt hlt, UInt64.toNat_ofNat', Nat.mod_eq_of_lt]
      unfold u64Max at hlt
      omega
    simp only [Bound.first, UInt64.le_iff_toNat_le, UInt64.lt_iff_toNat_lt, hfirst]
    omega

/-- The converted end says what the range's end says. -/
theorem last_lt_iff {range : IndexRange} (h : range.Convertible) (i : UInt64) :
    range.stop.last?.any (· < i) = true ↔
      match range.stop with
      | .included b => b < i
      | .excluded b => b ≤ i
      | .unbounded => False := by
  obtain ⟨-, hstop⟩ := h
  cases hs : range.stop with
  | included b => simp [Bound.last?]
  | unbounded => simp [Bound.last?]
  | excluded b =>
    have hb : b ≠ 0 := fun h0 => hstop (by rw [hs, h0])
    have hpos : 1 ≤ b := by
      rw [UInt64.le_iff_toNat_le]
      have := mt UInt64.toNat_inj.mp hb
      simp only [UInt64.toNat_one, UInt64.toNat_zero] at this ⊢
      omega
    simp only [Bound.last?, if_neg hb, Option.any_some, decide_eq_true_eq,
      UInt64.lt_iff_toNat_lt, UInt64.le_iff_toNat_le, UInt64.toNat_sub_of_le _ _ hpos,
      UInt64.toNat_one]
    rw [UInt64.le_iff_toNat_le, UInt64.toNat_one] at hpos
    omega

theorem contains_iff {range : IndexRange} (h : range.Convertible) (i : UInt64) :
    range.contains i = true ↔
      range.start.first ≤ i ∧ range.stop.last?.any (· < i) = false := by
  rw [← Bool.not_eq_true, last_lt_iff h, first_le_iff h, IndexRange.contains, Bool.and_eq_true]
  cases range.start <;> cases range.stop <;> simp

/-- The loop over entries in index order returns those inside the range. -/
theorem scan_eq {range : IndexRange} (h : range.Convertible) {entries : List Entry}
    (hsorted : entries.Pairwise (·.index < ·.index)) :
    RaftLogStore.scan range.start.first range.stop.last?
        (entries.map (fun e => (indexKey e.index, .value e))) =
      .ok (entries.filter (fun e => range.contains e.index)) := by
  induction entries with
  | nil => rfl
  | cons e entries ih =>
    obtain ⟨hlater, hrest⟩ := List.pairwise_cons.mp hsorted
    have hcontains := contains_iff h e.index
    simp only [List.map_cons, RaftLogStore.scan, length_indexKey, ne_eq, not_true_eq_false,
      if_false, keyIndex_indexKey, ih hrest]
    split
    · -- before the range
      rename_i hlt
      have hout : ¬ range.contains e.index = true := by
        rw [hcontains]
        exact fun hin => UInt64.not_lt.mpr hin.1 hlt
      rw [List.filter_cons, if_neg hout]
    · split
      · -- behind the range, and so is every later entry
        rename_i hge hbehind
        have hnone : (e :: entries).filter (fun x => range.contains x.index) = [] := by
          rw [List.filter_eq_nil_iff]
          intro x hx hin
          have hlast := ((contains_iff h x.index).mp hin).2
          have hle : e.index ≤ x.index := by
            rcases List.mem_cons.mp hx with rfl | hx
            · exact UInt64.le_refl _
            · exact UInt64.le_of_lt (hlater x hx)
          obtain ⟨b, hb, hlt⟩ := (Option.any_eq_true _ _).mp hbehind
          rw [hb, Option.any_some, decide_eq_false_iff_not] at hlast
          exact hlast (UInt64.lt_of_lt_of_le (of_decide_eq_true hlt) hle)
        rw [hnone]
      · rename_i hge hwithin
        have hin : range.contains e.index = true :=
          hcontains.mpr ⟨UInt64.not_lt.mp hge, Bool.not_eq_true _ ▸ hwithin⟩
        rw [List.filter_cons, if_pos hin]
        rfl

theorem lastEntry_eq (entries : List Entry) (last : Option LogId) :
    RaftLogStore.lastEntry last (entries.map (fun e => (indexKey e.index, .value e))) =
      .ok ((entries.getLast?.map Entry.logId).or last) := by
  induction entries generalizing last with
  | nil => rfl
  | cons e entries ih =>
    show RaftLogStore.lastEntry (some e.logId) _ = _
    rw [ih, List.getLast?_cons]
    cases entries.getLast? <;> rfl

/-! ## Refinement -/

/-- The stored rows are those of the abstract log. -/
structure RaftStorage.Refines (st : RaftStorage) (log : AbstractLog) : Prop where
  entries : Holds st.log.logs log.entries
  lastPurged : st.log.lastPurged = log.lastPurged.map .value
  vote : st.log.vote = log.vote.map .value
  committed : st.log.committed = log.committed.map .ofOption
  applied : st.sm = log.applied.elim .empty .putSmMetaRaw

theorem RaftStorage.Refines.fresh : RaftStorage.fresh.Refines .fresh where
  entries := .empty
  lastPurged := rfl
  vote := rfl
  committed := rfl
  applied := rfl

/-- Every call does to the rows what it does to the abstract log. -/
theorem RaftStorage.Refines.perform {st : RaftStorage} {log : AbstractLog} (h : st.Refines log)
    (op : StorageOp) : (st.perform op).Refines (log.perform op) := by
  cases op with
  | append entries => exact { h with entries := h.entries.append entries }
  | truncate logId =>
    refine { h with entries := ?_ }
    have hkeep := h.entries.eraseWhere (fun i => decide (logId.index ≤ i))
    simp only [← decide_not, UInt64.not_le] at hkeep
    exact hkeep
  | purge logId =>
    refine { h with entries := ?_, lastPurged := rfl }
    have hkeep := h.entries.eraseWhere (fun i => decide (i ≤ logId.index))
    simp only [← decide_not, UInt64.not_le] at hkeep
    exact hkeep
  | saveVote vote => exact { h with vote := rfl }
  | saveCommitted committed => exact { h with committed := rfl }
  | putSmMetaRaw sm => exact { h with applied := rfl }
  | reopen => exact h

theorem RaftStorage.Refines.run {st : RaftStorage} {log : AbstractLog} (h : st.Refines log)
    (ops : List StorageOp) :
    (ops.foldl RaftStorage.perform st).Refines (ops.foldl AbstractLog.perform log) := by
  induction ops generalizing st log with
  | nil => exact h
  | cons op ops ih => exact ih (h.perform op)

theorem RaftStorage.Refines.loadSmMeta {st : RaftStorage} {log : AbstractLog} (h : st.Refines log)
    (hsaved : ∀ sm, log.applied = some sm → sm.lastAppliedLog ≠ none) :
    st.sm.loadSmMeta = .ok (log.applied.getD ⟨none, .default⟩) := by
  rw [h.applied]
  rcases hsm : log.applied with _ | ⟨_ | id, membership⟩
  · rfl
  · exact absurd rfl (hsaved _ hsm)
  · exact SmRows.loadSmMeta_putSmMetaRaw rfl

/-- After every sequence of calls the range reader returns the entries of the
range in order, the log state and the vote are those saved last, and so are the
committed id and the markers unless what was saved last was a missing id. -/
theorem raft_storage_refines_log (ops : List StorageOp) :
    let st := ops.foldl RaftStorage.perform .fresh
    let log := ops.foldl AbstractLog.perform .fresh
    (∀ range : IndexRange, range.Convertible →
      st.log.tryGetLogEntries range =
        .ok (log.entries.filter (fun e => range.contains e.index))) ∧
    st.log.getLogState = .ok ⟨log.lastPurged, log.lastLogId⟩ ∧
    st.log.readVote = .ok log.vote ∧
    (log.committed ≠ some none → st.log.readCommitted = .ok log.committed.join) ∧
    ((∀ sm, log.applied = some sm → sm.lastAppliedLog ≠ none) →
      st.sm.loadSmMeta = .ok (log.applied.getD ⟨none, .default⟩)) := by
  intro st log
  have h : st.Refines log := RaftStorage.Refines.fresh.run ops
  refine ⟨?_, ?_, ?_, ?_, h.loadSmMeta⟩
  · intro range hrange
    rw [RaftLogStore.tryGetLogEntries, h.entries.toList, scan_eq hrange h.entries.sorted]
    rfl
  · rw [RaftLogStore.getLogState, h.entries.toList, lastEntry_eq, h.lastPurged,
      JsonText.readRow_map_value, AbstractLog.lastLogId, Option.or_none]
    rfl
  · rw [RaftLogStore.readVote, h.vote, JsonText.readRow_map_value]
    rfl
  · intro hsaved
    rw [RaftLogStore.readCommitted, h.committed, JsonText.readRow_map_ofOption _ hsaved]
    rfl

/-- An entry without payload, by the first leader. -/
def blankEntry (index : UInt64) : Entry := ⟨⟨1, 1, index⟩, .blank⟩

/-- Three entries, of which one is purged and one truncated, and the saves around them. -/
def sampleCalls : List StorageOp :=
  [.append [blankEntry 1, blankEntry 2, blankEntry 3], .saveVote ⟨1, 1, true⟩,
    .saveCommitted (some ⟨1, 1, 2⟩), .purge ⟨1, 1, 1⟩, .reopen, .truncate ⟨1, 1, 3⟩,
    .putSmMetaRaw ⟨some ⟨1, 1, 2⟩, .default⟩]

theorem raft_storage_refines_log_sampleCalls :
    let st := sampleCalls.foldl RaftStorage.perform .fresh
    st.log.tryGetLogEntries ⟨.included 0, .excluded 9⟩ = .ok [blankEntry 2] ∧
    st.log.getLogState = .ok ⟨some ⟨1, 1, 1⟩, some ⟨1, 1, 2⟩⟩ ∧
    st.log.readVote = .ok (some ⟨1, 1, true⟩) ∧
    st.log.readCommitted = .ok (some ⟨1, 1, 2⟩) ∧
    st.sm.loadSmMeta = .ok ⟨some ⟨1, 1, 2⟩, .default⟩ := by
  obtain ⟨hentries, hstate, hvote, hcommitted, hsm⟩ := raft_storage_refines_log sampleCalls
  exact ⟨hentries _ ⟨by decide, by decide⟩, hstate, hvote, hcommitted (by decide),
    hsm (by rintro _ ⟨⟩; decide)⟩

/-- An excluded end of 0 reads as no end, an excluded start of `u64::MAX` as an
included one, and a missing id that was saved cannot be read back. -/
theorem raft_storage_departs_at_edges :
    (RaftLogStore.empty.append [blankEntry 1]).tryGetLogEntries ⟨.unbounded, .excluded 0⟩ =
      .ok [blankEntry 1] ∧
    (RaftLogStore.empty.append [blankEntry 18446744073709551615]).tryGetLogEntries
        ⟨.excluded 18446744073709551615, .unbounded⟩ =
      .ok [blankEntry 18446744073709551615] ∧
    (RaftLogStore.empty.saveCommitted none).readCommitted =
      .error (.readLogs "invalid type: null, expected struct LogId at line 1 column 4") ∧
    (SmRows.putSmMetaRaw ⟨none, .default⟩).loadSmMeta =
      .error (.metaErr "invalid type: null, expected struct LogId at line 1 column 4") := by
  decide +kernel

end FluxFS
