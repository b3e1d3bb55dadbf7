import Mathlib

/-!
# Serde — reading records from JSON values

JSON values and the readers that derived decoders are made of. A struct is read from an
object, where unknown fields are ignored and a field may occur once only, or from an array
in field order. A variant with content is an object with one field, its tag.
-/

namespace Kit

/-- A JSON value. A number with a fraction or an exponent keeps its text. -/
inductive Json where
  | null
  | bool (b : Bool)
  | int (n : Int)
  | float (text : String)
  | str (s : String)
  | arr (values : List Json)
  | obj (fields : List (String × Json))

namespace Json

/-- A natural number as a JSON number. -/
def ofNat (n : Nat) : Json := .int n

/-- An unsigned number up to `max`. -/
def readUint (max : Nat) : Json → Option Nat
  | .int n => if 0 ≤ n ∧ n ≤ max then some n.toNat else none
  | _ => none

/-- The visitor of `String`. -/
def readStr : Json → Option String
  | .str s => some s
  | _ => none

/-- The visitor of `Vec<T>`. -/
def readList {α : Type} (read : Json → Option α) : Json → Option (List α)
  | .arr values => values.mapM read
  | _ => none

/-- The value of the one field of this name. -/
def field (fields : List (String × Json)) (name : String) : Option Json :=
  match fields.filter (·.1 = name) with
  | [row] => some row.2
  | _ => none

/-- The fields of a struct that is read from objects only. -/
def readFields (names : List String) : Json → Option (List Json)
  | .obj fields => names.mapM (field fields)
  | _ => none

/-- The visitor of a struct, which also takes the fields as a sequence. -/
def readStruct (names : List String) : Json → Option (List Json)
  | .arr values => if values.length = names.length then some values else none
  | json => readFields names json

/-- A tag and its content. -/
def readVariant : Json → Option (String × Json)
  | .obj [(tag, content)] => some (tag, content)
  | _ => none

section
variable {α : Type} {read : Json → Option α} {max n : Nat} {json : Json} {values : List Json}
  {names : List String} {fields : List (String × Json)}

theorem mapM_eq_some {α β : Type} {f : α → Option β} {xs : List α} {ys : List β} :
    xs.mapM f = some ys ↔ xs.map f = ys.map some := by
  induction xs generalizing ys with
  | nil =>
    cases ys with
    | nil => simp
    | cons y ys => simp
  | cons x xs ih =>
    rw [List.mapM_cons]
    cases ys with
    | nil => simp [Option.bind_eq_some_iff]
    | cons y ys =>
      simp only [Option.bind_eq_bind, Option.bind_eq_some_iff, ih, List.map_cons,
        List.cons.injEq, Option.pure_def, Option.some.injEq]
      constructor
      · rintro ⟨_, hx, _, hxs, rfl, rfl⟩
        exact ⟨hx, hxs⟩
      · rintro ⟨hx, hxs⟩
        exact ⟨y, hx, ys, hxs, rfl, rfl⟩

theorem readUint_eq_some : readUint max json = some n ↔ json = ofNat n ∧ n ≤ max := by
  cases json with
  | int k =>
    rw [readUint, ofNat, Json.int.injEq]
    constructor
    · intro h
      split_ifs at h with hk
      cases h
      omega
    · rintro ⟨rfl, hn⟩
      rw [if_pos (by omega)]
      rfl
  | _ => simp [readUint, ofNat]

theorem readUint_ofNat (h : n ≤ max) : readUint max (ofNat n) = some n :=
  readUint_eq_some.mpr ⟨rfl, h⟩

theorem readList_eq_some {xs : List α} :
    readList read json = some xs ↔ ∃ values, json = .arr values ∧ values.map read =
      xs.map some := by
  cases json with
  | arr values => simp [readList, mapM_eq_some]
  | _ => simp [readList]

/-- A list is read back from what its elements are read back from. -/
theorem readList_map {write : α → Json} {xs : List α} (h : ∀ x ∈ xs, read (write x) = some x) :
    readList read (.arr (xs.map write)) = some xs := by
  refine readList_eq_some.mpr ⟨_, rfl, ?_⟩
  rw [List.map_map]
  exact List.map_congr_left h

end
end Json

end Kit
