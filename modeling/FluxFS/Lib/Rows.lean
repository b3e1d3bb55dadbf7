import Mathlib

/-!
# Rows — ordered tables of rows

An embedded ordered store keeps each database as a finite map iterated in
key order. `Table` is Std's extensional tree map; this module adds the
three rewrite rules in `k = a` form (the library states them through
`compare`), the permutation view of `toList` that counting arguments
need, and bulk deletion.

`Keyed key` is the table whose rows carry their own key: a row can only
sit under `key row`, so "the record stored at `k` says it is `k`" is a
field of the type and never a hypothesis of a theorem.
-/

namespace Kit

open Std

/-- An ordered table, iterated in key order. -/
abbrev Table (K V : Type) [Ord K] : Type := ExtTreeMap K V

section
variable {K V : Type} [Ord K] [TransOrd K] [LawfulEqOrd K]

namespace Table
variable {t : Table K V}

theorem mem_rows (t : Table K V) (k : K) (v : V) :
    (k, v) ∈ t.toList ↔ t[k]? = some v :=
  ExtTreeMap.mem_toList_iff_getElem?_eq_some

theorem mem_rowKeys (t : Table K V) (k : K) :
    k ∈ t.toList.map Prod.fst ↔ ∃ v, t[k]? = some v := by
  simp only [List.mem_map, Prod.exists, mem_rows]
  constructor
  · rintro ⟨_, v, h, rfl⟩
    exact ⟨v, h⟩
  · rintro ⟨v, h⟩
    exact ⟨k, v, h, rfl⟩

theorem rows_nodup (t : Table K V) : t.toList.Nodup := by
  have h := t.distinct_keys_toList
  refine h.imp ?_
  intro a b hab heq
  subst heq
  simp at hab

/-- A table with fewer rows lists a part of the rows. -/
theorem rows_subperm {u : Table K V} (h : ∀ (k : K) (v : V), t[k]? = some v → u[k]? = some v) :
    t.toList.Subperm u.toList := by
  apply List.subperm_of_subset (rows_nodup t)
  rintro ⟨k, v⟩ hrow
  exact (mem_rows u k v).mpr (h k v ((mem_rows t k v).mp hrow))

/-- The listing of a table is the one list in key order that has its rows. -/
theorem toList_eq {rows : List (K × V)}
    (hsorted : rows.Pairwise (fun a b => compare a.1 b.1 = .lt))
    (hmem : ∀ k v, (k, v) ∈ rows ↔ t[k]? = some v) : t.toList = rows := by
  have hnodup : rows.Nodup := by
    refine hsorted.imp ?_
    rintro a _ hlt rfl
    have hself : compare a.1 a.1 = .eq := ReflCmp.compare_self
    rw [hself] at hlt
    cases hlt
  have hperm : t.toList.Perm rows := by
    refine (List.perm_ext_iff_of_nodup (rows_nodup t) hnodup).mpr ?_
    rintro ⟨k, v⟩
    rw [mem_rows, hmem]
  refine hperm.eq_of_pairwise ?_ t.ordered_keys_toList hsorted
  intro a b _ _ hab hba
  exact absurd hba (by rw [OrientedCmp.gt_of_lt hab]; decide)

/-- How many rows hold `v`. -/
def countOf [DecidableEq V] (t : Table K V) (v : V) : Nat := t.toList.countP (·.2 = v)

theorem countOf_pos [DecidableEq V] {v : V} : 0 < countOf t v ↔ ∃ k : K, t[k]? = some v := by
  simp only [countOf, List.countP_pos_iff, Prod.exists, decide_eq_true_eq, mem_rows]
  constructor
  · rintro ⟨k, _, hk, rfl⟩
    exact ⟨k, hk⟩
  · rintro ⟨k, hk⟩
    exact ⟨k, v, hk, rfl⟩

variable [DecidableEq K]

/-- Point read after a write. -/
theorem get_insert (t : Table K V) (k a : K) (v : V) :
    (t.insert k v)[a]? = if k = a then some v else t[a]? := by
  simp [ExtTreeMap.getElem?_insert]

/-- Point read after a delete. -/
theorem get_erase (t : Table K V) (k a : K) :
    (t.erase k)[a]? = if k = a then none else t[a]? := by
  simp [ExtTreeMap.getElem?_erase]

/-- Writing a fresh key adds one row and leaves the others. -/
theorem rows_insert_perm (t : Table K V) {k : K} (h : t[k]? = none) (v : V) :
    (t.insert k v).toList.Perm ((k, v) :: t.toList) := by
  refine (List.perm_ext_iff_of_nodup (rows_nodup _) ?_).mpr ?_
  · refine List.nodup_cons.mpr ⟨?_, rows_nodup t⟩
    simp [h]
  · rintro ⟨a, w⟩
    simp only [mem_rows, get_insert, List.mem_cons, Prod.mk.injEq]
    by_cases hk : k = a
    · subst hk
      simp [h, eq_comm]
    · simp [hk, Ne.symm hk]

/-- Deleting a stored key removes exactly its row. -/
theorem rows_erase_perm (t : Table K V) {k : K} {v : V} (h : t[k]? = some v) :
    t.toList.Perm ((k, v) :: (t.erase k).toList) := by
  refine (List.perm_ext_iff_of_nodup (rows_nodup _) ?_).mpr ?_
  · refine List.nodup_cons.mpr ⟨?_, rows_nodup _⟩
    simp
  · rintro ⟨a, w⟩
    simp only [mem_rows, get_erase, List.mem_cons, Prod.mk.injEq]
    by_cases hk : k = a
    · subst hk
      simp [h, eq_comm]
    · simp [hk, Ne.symm hk]

/-- A write leaves the rows of the other keys and its own. -/
theorem rows_insert_erase_perm (t : Table K V) (k : K) (v : V) :
    (t.insert k v).toList.Perm ((k, v) :: (t.erase k).toList) := by
  have heq : t.insert k v = (t.erase k).insert k v := by
    refine ExtTreeMap.ext_getElem? fun a => ?_
    rw [get_insert, get_insert, get_erase]
    split
    · rfl
    · rfl
  rw [heq]
  exact rows_insert_perm _ (by rw [get_erase, if_pos rfl]) v

/-- Deleting a key that is not there changes nothing. -/
theorem erase_of_none {k : K} (h : t[k]? = none) : t.erase k = t := by
  refine ExtTreeMap.ext_getElem? fun a => ?_
  rw [get_erase]
  split
  · rename_i hk
    rw [← hk, h]
  · rfl

theorem countOf_insert [DecidableEq V] (t : Table K V) {k : K} (h : t[k]? = none) (v w : V) :
    countOf (t.insert k v) w = countOf t w + if v = w then 1 else 0 := by
  rw [countOf, (rows_insert_perm t h v).countP_eq, List.countP_cons, countOf]
  simp

theorem countOf_erase [DecidableEq V] (t : Table K V) {k : K} {v : V} (h : t[k]? = some v) (w : V) :
    countOf t w = countOf (t.erase k) w + if v = w then 1 else 0 := by
  rw [countOf, (rows_erase_perm t h).countP_eq, List.countP_cons, countOf]
  simp

/-- A value that one row holds has one key. -/
theorem key_unique [DecidableEq V] {v : V} (h : countOf t v = 1) {k l : K} (hk : t[k]? = some v)
    (hl : t[l]? = some v) : k = l := by
  by_contra hne
  have hrest := countOf_erase t hk v
  have hother : 0 < countOf (t.erase k) v := by
    rw [countOf_pos]
    refine ⟨l, ?_⟩
    rw [get_erase, if_neg hne, hl]
  simp only [if_true] at hrest
  omega

/-- Delete every key of a list, one after the other. -/
def eraseAll (t : Table K V) (ks : List K) : Table K V := ks.foldl (fun t k => t.erase k) t

theorem get_eraseAll (ks : List K) (t : Table K V) (a : K) :
    (eraseAll t ks)[a]? = if a ∈ ks then none else t[a]? := by
  induction ks generalizing t with
  | nil => simp [eraseAll]
  | cons k ks ih =>
    have hstep : eraseAll t (k :: ks) = eraseAll (t.erase k) ks := rfl
    rw [hstep, ih, get_erase]
    by_cases ha : a ∈ ks
    · simp [ha]
    · by_cases hk : k = a
      · simp [hk]
      · simp [ha, hk, Ne.symm hk]

/-- Write every row of a list, one after the other. -/
def insertAll (t : Table K V) (rows : List (K × V)) : Table K V :=
  rows.foldl (fun t row => t.insert row.1 row.2) t

/-- What a bulk write stored comes from its rows or was there before. -/
theorem of_get_insertAll {rows : List (K × V)} {a : K} {v : V}
    (h : (insertAll t rows)[a]? = some v) : (a, v) ∈ rows ∨ t[a]? = some v := by
  induction rows generalizing t with
  | nil => exact .inr h
  | cons row rows ih =>
    rcases ih h with hmem | hold
    · exact .inl (List.mem_cons_of_mem _ hmem)
    · rw [get_insert] at hold
      split at hold
      · rename_i hk
        cases hold
        exact .inl (by simp [← hk])
      · exact .inr hold

/-- A bulk write leaves only other keys unmapped. -/
theorem of_get_insertAll_none {rows : List (K × V)} {a : K} (h : (insertAll t rows)[a]? = none) :
    a ∉ rows.map Prod.fst ∧ t[a]? = none := by
  induction rows generalizing t with
  | nil => exact ⟨List.not_mem_nil, h⟩
  | cons row rows ih =>
    obtain ⟨hrows, hold⟩ := ih h
    rw [get_insert] at hold
    split at hold
    · cases hold
    · rename_i hk
      refine ⟨?_, hold⟩
      simp only [List.map_cons, List.mem_cons, not_or]
      exact ⟨Ne.symm hk, hrows⟩

/-- A table is the bulk write of its rows. -/
theorem insertAll_toList (t : Table K V) : insertAll ∅ t.toList = t := by
  refine ExtTreeMap.ext_getElem? fun a => ?_
  cases h : (insertAll ∅ t.toList)[a]? with
  | some v =>
    rcases of_get_insertAll h with hmem | hempty
    · exact ((mem_rows t a v).mp hmem).symm
    · simp at hempty
  | none =>
    by_contra hne
    obtain ⟨v, hv⟩ := Option.ne_none_iff_exists'.mp (Ne.symm hne)
    exact (of_get_insertAll_none h).1 ((mem_rowKeys t a).mpr ⟨v, hv⟩)

/-- The table with every value replaced by its image. -/
def mapValues {W : Type} (f : V → W) (t : Table K V) : Table K W :=
  insertAll ∅ (t.toList.map fun row => (row.1, f row.2))

theorem get_mapValues {W : Type} (f : V → W) (t : Table K V) (a : K) :
    (mapValues f t)[a]? = (t[a]?).map f := by
  cases h : (mapValues f t)[a]? with
  | some w =>
    rcases of_get_insertAll h with hmem | hempty
    · obtain ⟨⟨k, v⟩, hrow, heq⟩ := List.mem_map.mp hmem
      cases heq
      rw [(mem_rows t k v).mp hrow]
      rfl
    · simp at hempty
  | none =>
    have hkeys := (of_get_insertAll_none h).1
    rw [List.map_map] at hkeys
    cases hv : t[a]? with
    | none => rfl
    | some v => exact absurd ((mem_rowKeys t a).mpr ⟨v, hv⟩) hkeys

theorem toList_mapValues {W : Type} (f : V → W) (t : Table K V) :
    (mapValues f t).toList = t.toList.map fun row => (row.1, f row.2) := by
  refine toList_eq (List.pairwise_map.mpr t.ordered_keys_toList) fun k w => ?_
  rw [get_mapValues]
  simp only [List.mem_map, Prod.exists, Prod.mk.injEq, mem_rows, Option.map_eq_some_iff]
  constructor
  · rintro ⟨_, v, hv, rfl, rfl⟩
    exact ⟨v, hv, rfl⟩
  · rintro ⟨v, hv, rfl⟩
    exact ⟨k, v, hv, rfl, rfl⟩

/-- Writing the images of rows writes the image of what the rows write. -/
theorem get_insertAll_map {W : Type} (f : V → W) (rows : List (K × V)) {u : Table K W}
    (h : ∀ a : K, u[a]? = (t[a]?).map f) (a : K) :
    (insertAll u (rows.map fun row => (row.1, f row.2)))[a]? = ((insertAll t rows)[a]?).map f := by
  induction rows generalizing t u with
  | nil => exact h a
  | cons row rows ih =>
    refine ih (fun b => ?_)
    rw [get_insert, get_insert, h]
    split
    · rfl
    · rfl

/-- One value for many keys. -/
theorem get_insertAll_const (ks : List K) (v : V) (t : Table K V) (a : K) :
    (insertAll t (ks.map (·, v)))[a]? = if a ∈ ks then some v else t[a]? := by
  induction ks generalizing t with
  | nil => simp [insertAll]
  | cons k ks ih =>
    have hstep : insertAll t ((k :: ks).map (·, v)) =
        insertAll (t.insert k v) (ks.map (·, v)) := rfl
    rw [hstep, ih, get_insert]
    by_cases ha : a ∈ ks
    · simp [ha]
    · by_cases hk : k = a
      · simp [hk]
      · simp [ha, hk, Ne.symm hk]

/-- A row behind all others is listed last. -/
theorem toList_insert_last {k : K} (h : ∀ row ∈ t.toList, compare row.1 k = .lt) (v : V) :
    (t.insert k v).toList = t.toList ++ [(k, v)] := by
  have hnone : t[k]? = none := by
    by_contra hrow
    obtain ⟨w, hw⟩ := Option.ne_none_iff_exists'.mp hrow
    have hlt := h _ ((mem_rows t k w).mpr hw)
    have hself : compare k k = .eq := ReflCmp.compare_self
    rw [hself] at hlt
    cases hlt
  refine toList_eq ?_ fun a w => ?_
  · refine List.pairwise_append.mpr ⟨t.ordered_keys_toList, List.pairwise_singleton .., ?_⟩
    intro row hrow last hlast
    rw [List.mem_singleton.mp hlast]
    exact h row hrow
  · rw [List.mem_append, mem_rows, List.mem_singleton, get_insert]
    by_cases hk : k = a
    · subst hk
      simp [hnone, eq_comm]
    · simp [hk, Ne.symm hk]

/-- The elements of a list in order and without repetition. -/
def ordSet (ks : List K) : List K :=
  (insertAll (∅ : Table K Unit) (ks.map (·, ()))).toList.map Prod.fst

@[simp] theorem mem_ordSet {ks : List K} {a : K} : a ∈ ordSet ks ↔ a ∈ ks := by
  rw [ordSet, mem_rowKeys, get_insertAll_const]
  by_cases ha : a ∈ ks
  · simp [ha]
  · simp [ha]

end Table
end

/-- A field of a record: a getter and a setter that agree. -/
structure Field (σ τ : Type) where
  get : σ → τ
  set : τ → σ → σ
  get_set : ∀ a s, get (set a s) = a := by intros; rfl
  set_set : ∀ a b s, set a (set b s) = set a s := by intros; rfl
  set_get : ∀ s, set (get s) s = s := by intros; rfl

/-- A table whose rows sit under their own key. -/
structure Keyed {K V : Type} [Ord K] [TransOrd K] [LawfulEqOrd K] (key : V → K) where
  table : Table K V
  keyed : ∀ k v, table[k]? = some v → key v = k

namespace Keyed

variable {K V : Type} [Ord K] [TransOrd K] [LawfulEqOrd K] {key : V → K}
variable {t : Keyed key}

/-- No rows. -/
def empty : Keyed key := ⟨∅, by simp⟩

/-- The row under a key. -/
def get? (t : Keyed key) (k : K) : Option V := t.table[k]?

/-- The rows in key order. -/
def rows (t : Keyed key) : List V := t.table.toList.map Prod.snd

@[ext] theorem ext {t u : Keyed key} (h : ∀ k, t.get? k = u.get? k) : t = u := by
  obtain ⟨t, ht⟩ := t
  obtain ⟨u, hu⟩ := u
  have htu : t = u := ExtTreeMap.ext_getElem? h
  subst htu
  rfl

theorem key_of_get? {k : K} {v : V} (h : t.get? k = some v) : key v = k :=
  t.keyed k v h

/-- A stored row is found under its own key. -/
theorem get?_of_get? {k : K} {v : V} (h : t.get? k = some v) : t.get? (key v) = some v := by
  rw [key_of_get? h]
  exact h

@[simp] theorem get?_empty (k : K) : (empty : Keyed key).get? k = none := by
  simp [empty, get?]

theorem mem_rows {v : V} : v ∈ t.rows ↔ t.get? (key v) = some v := by
  simp only [rows, List.mem_map, Prod.exists, exists_eq_right, Table.mem_rows]
  constructor
  · rintro ⟨k, hk⟩
    rw [t.keyed k v hk]
    exact hk
  · exact fun h => ⟨key v, h⟩

theorem mem_rows_of_get? {k : K} {v : V} (h : t.get? k = some v) : v ∈ t.rows := by
  rw [mem_rows]
  exact get?_of_get? h

variable [DecidableEq K]

/-- Store a row under its own key. -/
def put (t : Keyed key) (v : V) : Keyed key where
  table := t.table.insert (key v) v
  keyed := by
    intro k w h
    rw [Table.get_insert] at h
    split at h
    · cases h
      assumption
    · exact t.keyed k w h

/-- Drop the row under a key. -/
def delete (t : Keyed key) (k : K) : Keyed key where
  table := t.table.erase k
  keyed := by
    intro a w h
    rw [Table.get_erase] at h
    split at h
    · cases h
    · exact t.keyed a w h

/-- Delete every key of a list, one after the other. -/
def deleteAll (t : Keyed key) (ks : List K) : Keyed key := ks.foldl delete t

theorem get?_put (t : Keyed key) (v : V) (a : K) :
    (t.put v).get? a = if key v = a then some v else t.get? a :=
  Table.get_insert ..

theorem get?_delete (t : Keyed key) (k a : K) :
    (t.delete k).get? a = if k = a then none else t.get? a :=
  Table.get_erase ..

@[simp] theorem get?_put_self (t : Keyed key) (v : V) : (t.put v).get? (key v) = some v := by
  rw [get?_put, if_pos rfl]

theorem get?_put_of_ne (t : Keyed key) {v : V} {a : K} (h : key v ≠ a) :
    (t.put v).get? a = t.get? a := by
  rw [get?_put, if_neg h]

@[simp] theorem get?_delete_self (t : Keyed key) (k : K) : (t.delete k).get? k = none := by
  rw [get?_delete, if_pos rfl]

theorem get?_delete_of_ne (t : Keyed key) {k a : K} (h : k ≠ a) :
    (t.delete k).get? a = t.get? a := by
  rw [get?_delete, if_neg h]

/-- The later of two rows under one key stays. -/
theorem put_put {v w : V} (h : key v = key w) : (t.put v).put w = t.put w := by
  ext a : 1
  rw [get?_put, get?_put, get?_put, h]
  split
  · rfl
  · rfl

/-- Storing a row again changes nothing. -/
theorem put_of_get? {v : V} (h : t.get? (key v) = some v) : t.put v = t := by
  ext a : 1
  rw [get?_put]
  split
  · rename_i heq
    rw [← heq, h]
  · rfl

theorem get?_deleteAll (ks : List K) (t : Keyed key) (a : K) :
    (t.deleteAll ks).get? a = if a ∈ ks then none else t.get? a := by
  induction ks generalizing t with
  | nil => simp [deleteAll]
  | cons k ks ih =>
    have hstep : t.deleteAll (k :: ks) = (t.delete k).deleteAll ks := rfl
    rw [hstep, ih, get?_delete]
    by_cases ha : a ∈ ks
    · simp [ha]
    · by_cases hk : k = a
      · simp [hk]
      · simp [ha, hk, Ne.symm hk]

/-- The table of a list of rows, later ones replacing earlier ones of the same key. -/
def ofRows (rows : List V) : Keyed key := rows.foldl put empty

theorem table_foldl_put (rows : List V) (t : Keyed key) :
    (rows.foldl put t).table = Table.insertAll t.table (rows.map fun v => (key v, v)) := by
  induction rows generalizing t with
  | nil => rfl
  | cons v rows ih => exact ih (t.put v)

/-- A keyed table is the table of its rows. -/
theorem ofRows_rows (t : Keyed key) : ofRows t.rows = t := by
  have hrows : t.rows.map (fun v => (key v, v)) = t.table.toList := by
    rw [rows, List.map_map]
    refine List.map_congr_left ?_ |>.trans (List.map_id _)
    rintro ⟨k, v⟩ hmem
    exact Prod.ext (t.keyed k v ((Table.mem_rows _ k v).mp hmem)) rfl
  ext a : 1
  rw [get?, get?, ofRows, table_foldl_put, hrows]
  exact congrArg (·[a]?) (Table.insertAll_toList t.table)

end Keyed
end Kit
