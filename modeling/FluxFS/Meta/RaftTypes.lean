import FluxFS.Meta.Apply

/-!
# RaftTypes — log ids, entries and the state-machine markers

The records of openraft that FluxFS stores, and the two rows
`HeedMetaStore` keeps about the applied log. Stored values are JSON texts.
`JsonText` is such a text as far as its reader can tell: serde writes a
missing optional as `null`, and a reader that expects the value itself
rejects that text.
-/

namespace FluxFS

open Std Kit

/-- The id of a voter. -/
abbrev NodeId := Nat

/-- `openraft::LogId`. -/
structure LogId where
  /-- `leader_id.term`. -/
  term : Nat
  /-- `leader_id.node_id`. -/
  nodeId : NodeId
  index : UInt64
deriving DecidableEq, Repr

/-- `openraft::Vote`. -/
structure Vote where
  term : Nat
  nodeId : NodeId
  committed : Bool
deriving DecidableEq, Repr

/-- The voter sets and the address of each node. -/
structure Membership where
  configs : List (List NodeId)
  nodes : List (NodeId × String)
deriving DecidableEq, Repr

/-- `openraft::StoredMembership`. -/
structure StoredMembership where
  logId : Option LogId
  membership : Membership
deriving DecidableEq, Repr

/-- `StoredMembership::default`. -/
def StoredMembership.default : StoredMembership := ⟨none, ⟨[], []⟩⟩

/-- `openraft::EntryPayload`. -/
inductive EntryPayload where
  | blank
  | normal (req : MetaRaftRequest)
  | membership (membership : Membership)
deriving DecidableEq, Repr

/-- `openraft::Entry`. -/
structure Entry where
  logId : LogId
  payload : EntryPayload
deriving DecidableEq, Repr

/-- `Entry::get_log_id().index`. -/
def Entry.index (e : Entry) : UInt64 := e.logId.index

/-- `SmAppliedMeta`: how far the state machine has come. -/
structure SmAppliedMeta where
  lastAppliedLog : Option LogId
  lastMembership : StoredMembership
deriving DecidableEq, Repr

/-! ## Stored texts -/

/-- The JSON text of a stored value. -/
inductive JsonText (α : Type) where
  | null
  | value (a : α)
deriving DecidableEq, Repr

namespace JsonText

variable {α : Type}

/-- `serde_json::to_vec` of an optional value. -/
def ofOption : Option α → JsonText α
  | none => null
  | some a => value a

/-- `serde_json::from_slice` into a struct, which has no `null`. -/
def fromSlice (struct : String) : JsonText α → Except String α
  | null => .error s!"invalid type: null, expected struct {struct} at line 1 column 4"
  | value a => .ok a

/-- A row that may be missing, read with `fromSlice` when it is there. -/
def readRow (struct : String) : Option (JsonText α) → Except String (Option α)
  | none => .ok none
  | some text => (text.fromSlice struct).map some

/-- A row that was never written, or written with a value, is read back. -/
theorem readRow_map_value (struct : String) (row : Option α) :
    readRow struct (row.map value) = .ok row := by
  cases row with
  | none => rfl
  | some a => rfl

/-- The text of an optional value is read back unless the value is missing. -/
theorem readRow_map_ofOption (struct : String) {row : Option (Option α)} (h : row ≠ some none) :
    readRow struct (row.map ofOption) = .ok row.join := by
  rcases row with _ | _ | a
  · rfl
  · exact absurd rfl h
  · rfl

end JsonText

/-! ## State-machine markers -/

/-- The two rows under `sm_last_applied` and `sm_last_membership`. -/
structure SmRows where
  lastApplied : Option (JsonText LogId)
  lastMembership : Option (JsonText StoredMembership)
deriving DecidableEq, Repr

namespace SmRows

/-- A store without markers. -/
def empty : SmRows := ⟨none, none⟩

/-- `put_sm_meta_raw`, which overwrites both rows. -/
def putSmMetaRaw (sm : SmAppliedMeta) : SmRows :=
  ⟨some (.ofOption sm.lastAppliedLog), some (.value sm.lastMembership)⟩

/-- `load_sm_meta`. -/
def loadSmMeta (rows : SmRows) : Except FluxError SmAppliedMeta := do
  let lastAppliedLog ← (JsonText.readRow "LogId" rows.lastApplied).mapError .metaErr
  let lastMembership ←
    (JsonText.readRow "StoredMembership" rows.lastMembership).mapError .metaErr
  pure ⟨lastAppliedLog, lastMembership.getD .default⟩

/-- Markers with a last applied entry are read back. -/
theorem loadSmMeta_putSmMetaRaw {sm : SmAppliedMeta} {id : LogId}
    (h : sm.lastAppliedLog = some id) : (putSmMetaRaw sm).loadSmMeta = .ok sm := by
  cases sm
  cases h
  rfl

/-- Markers without one are written as a null that no reader takes for markers. -/
theorem loadSmMeta_putSmMetaRaw_none {sm other : SmAppliedMeta} (h : sm.lastAppliedLog = none) :
    (putSmMetaRaw sm).loadSmMeta ≠ .ok other := by
  cases sm
  cases h
  intro hok
  cases hok

end SmRows
end FluxFS
