import FluxFS.Chunk.Recovery

/-!
# Inventory — listings of the pack store against its reads

`list_chunks` lists an index key when some intact record stands where its entry
points; `contains` and `get` also want the record to be of that key. The two agree
unless a row points at an intact record of another chunk (`inventory_agrees`),
which the roll of a full segment onto itself brings about
(`self_roll_lists_lost_chunk`). `compact` copies what is listed through `get`.
-/

namespace FluxFS
namespace PackStore

open Std Kit

variable {hash : Bytes → ChunkId} {roll : Nat} {s t : PackStore} {id : ChunkId} {data : Bytes}
  {entry : IndexEntry}

/-- `PackStore::contains`. -/
def contains (hash : Bytes → ChunkId) (s : PackStore) (id : ChunkId) : Bool :=
  (getIfValidUnlocked hash s id).isSome

/-- `PackStore::list_chunks`. -/
def listChunks (hash : Bytes → ChunkId) (s : PackStore) : List ChunkId := listChunksUnlocked hash s

/-! ## Listings -/

/-- A row is listed when a record is read where its entry points. -/
theorem mem_listChunks :
    id ∈ listChunks hash s ↔ ∃ entry data, s.index[id]? = some entry ∧
      readRecord hash s entry = .ok data := by
  simp only [listChunks, listChunksUnlocked, List.mem_filterMap, Prod.exists, Table.mem_rows]
  constructor
  · rintro ⟨key, entry, hentry, hread⟩
    cases hrecord : readRecord hash s entry with
    | error e =>
      rw [hrecord] at hread
      cases hread
    | ok data =>
      rw [hrecord] at hread
      cases hread
      exact ⟨entry, data, hentry, hrecord⟩
  · rintro ⟨entry, data, hentry, hread⟩
    exact ⟨id, entry, hentry, by rw [hread]⟩

/-- No row points at an intact record of another chunk. -/
def OwnRecords (hash : Bytes → ChunkId) (s : PackStore) : Prop :=
  ∀ (id : ChunkId) (entry : IndexEntry) (data : Bytes), s.index[id]? = some entry →
    Intact hash s entry data → hash data = id

theorem mem_listChunks_iff (hown : OwnRecords hash s) :
    id ∈ listChunks hash s ↔ ∃ data, getIfValidUnlocked hash s id = some data := by
  rw [mem_listChunks]
  constructor
  · rintro ⟨entry, data, hentry, hread⟩
    have hhash := hown id entry data hentry (intact_of_readRecord hread)
    exact ⟨data, getIfValid_some.mpr ⟨entry, hentry, hread, hhash⟩⟩
  · rintro ⟨data, hvalid⟩
    obtain ⟨entry, hentry, hread, -⟩ := getIfValid_some.mp hvalid
    exact ⟨entry, data, hentry, hread⟩

/-- The rows of the index come in the order of their ids. -/
theorem listChunks_sorted (hash : Bytes → ChunkId) (s : PackStore) :
    (listChunks hash s).Pairwise fun a b => compare a b = .lt := by
  have hrows : s.index.toList.Pairwise fun a b => compare a.1 b.1 = .lt :=
    ExtTreeMap.ordered_keys_toList
  refine hrows.filterMap _ fun a b hab x hx y hy => ?_
  split at hx
  · split at hy
    · cases hx
      cases hy
      exact hab
    · cases hy
  · cases hx

/-! ## Compaction -/

theorem extends_createSegment {segment : Nat} (hfree : s.segments[segment]? = none) :
    Extends s.segments (s.createSegment segment).segments := by
  intro n file hfile
  refine ⟨file, ?_, List.prefix_rfl⟩
  rw [createSegment, Table.get_insert, if_neg, hfile]
  rintro rfl
  rw [hfree] at hfile
  cases hfile

/-- The copy loop finds every chunk that could be read before it. -/
theorem copyLive_answers (target : Nat) {ids : List ChunkId} (acc : List (ChunkId × IndexEntry))
    (hids : ∀ id ∈ ids, ∃ data, getIfValidUnlocked hash s id = some data) :
    ∃ copied t, copyLive hash target ids acc s = (.ok copied, t) := by
  induction ids generalizing s acc with
  | nil => exact ⟨acc, s, rfl⟩
  | cons id ids ih =>
    obtain ⟨data, hdata⟩ := hids id List.mem_cons_self
    obtain ⟨entry, -, hread, -⟩ := getIfValid_some.mp hdata
    obtain ⟨-, -, -, -, -, hmax⟩ := intact_of_readRecord hread
    -- the other chunks are still there behind the appended record
    have hrest : ∀ a ∈ ids, ∃ found,
        getIfValidUnlocked hash (s.appendSegment target (record id data)) a = some found := by
      intro a ha
      obtain ⟨found, hfound⟩ := hids a (List.mem_cons_of_mem _ ha)
      exact ⟨found, getIfValid_extends (extends_appendSegment _ _ _) rfl hfound⟩
    obtain ⟨copied, t, hrun⟩ :=
      ih (acc ++ [(id, ⟨target, s.segmentLen target, data.length⟩)]) hrest
    refine ⟨copied, t, ?_⟩
    rw [copyLive, Txn.query_bind_run, get_ok.mpr hdata]
    simp only [Txn.reads_bind_run, Txn.failIf_bind_run, if_neg (Nat.not_lt.mpr hmax),
      Txn.modify_bind_run, hrun]

/-- A compaction that can read what it lists returns a report. -/
theorem compactInto_answers {target : Nat} (hfree : s.segments[target]? = none)
    (hlive : ∀ id ∈ listChunks hash s, ∃ data, getIfValidUnlocked hash s id = some data) :
    ∃ report t, compactInto hash target s = (.ok report, t) ∧
      t.activeSegment = some target ∧ t.nextSegment = some (saturatingAdd target 1) := by
  have hcreated : ∀ id ∈ listChunks hash s, ∃ data,
      getIfValidUnlocked hash (s.createSegment target) id = some data := by
    intro id hid
    obtain ⟨data, hdata⟩ := hlive id hid
    exact ⟨data, getIfValid_extends (extends_createSegment hfree) rfl hdata⟩
  obtain ⟨copied, u, hcopy⟩ := copyLive_answers target [] hcreated
  let v := replaceIndex target (saturatingAdd target 1) copied u
  refine ⟨⟨copied.length, (obsolete target v).length⟩,
    { v with segments := Table.eraseAll v.segments (obsolete target v) }, ?_, rfl, rfl⟩
  rw [compactInto, Txn.reads_bind_run, Txn.modify_bind_run]
  have hcopy' : copyLive hash target (listChunksUnlocked hash s) [] (s.createSegment target) =
      (.ok copied, u) := hcopy
  rw [Txn.bind_of_ok hcopy', Txn.modify_bind_run, Txn.reads_bind_run, Txn.modify_bind_run]
  rfl

theorem compact_answers {r : Except FluxError CompactReport}
    (hlive : ∀ id ∈ listChunks hash s, ∃ data, getIfValidUnlocked hash s id = some data)
    (h : compact hash s = some (r, t)) :
    (s.nextSegment = none ∧ r = .error (.io "missing pack meta next_segment") ∧ t = s) ∨
      ((∃ report, r = .ok report) ∧ t.activeSegment.isSome ∧ t.nextSegment.isSome) := by
  simp only [compact, readU64Meta, Txn.query_run] at h
  cases hnext : s.nextSegment with
  | none =>
    rw [hnext] at h
    cases h
    exact .inl ⟨rfl, rfl, rfl⟩
  | some nextSeg =>
    simp only [hnext, Option.map_eq_some_iff] at h
    obtain ⟨target, htarget, hinto⟩ := h
    obtain ⟨report, u, hrun, hactive, hnext'⟩ :=
      compactInto_answers (findFree_free htarget) hlive
    rw [hrun] at hinto
    cases hinto
    exact .inr ⟨⟨report, rfl⟩, by simp [hactive], by simp [hnext']⟩

/-! ## Agreement -/

/-- A foreign record is listed under the row's key and not found there. -/
theorem ownRecords_of_contains
    (h : ∀ id, id ∈ listChunks hash s ↔ contains hash s id = true) : OwnRecords hash s := by
  intro id entry data hentry hintact
  have hread := readRecord_of_intact hintact
  have hfound := (h id).mp (mem_listChunks.mpr ⟨entry, data, hentry, hread⟩)
  obtain ⟨found, hvalid⟩ := Option.isSome_iff_exists.mp hfound
  obtain ⟨entry', hentry', hread', hhash⟩ := getIfValid_some.mp hvalid
  rw [hentry] at hentry'
  cases hentry'
  rw [hread] at hread'
  cases hread'
  exact hhash

/-- Whatever the files hold, the listing is in the order of the ids and names what
`contains` and `get` find, and a compaction finds all of it, exactly if no row points at
an intact record of another chunk. -/
theorem inventory_agrees (hash : Bytes → ChunkId) (s : PackStore) :
    ((listChunks hash s).Pairwise (fun a b => compare a b = .lt) ∧
      (∀ id, id ∈ listChunks hash s ↔ contains hash s id = true) ∧
      (∀ id, id ∈ listChunks hash s ↔ ∃ data, get hash s id = .ok data) ∧
      ∀ r t, compact hash s = some (r, t) → r ≠ .error .notFound) ↔ OwnRecords hash s := by
  refine ⟨fun h => ownRecords_of_contains h.2.1, fun hown => ?_⟩
  refine ⟨listChunks_sorted hash s, fun id => ?_, fun id => ?_, fun r t hrun => ?_⟩
  · rw [mem_listChunks_iff hown, contains, Option.isSome_iff_exists]
  · simp only [mem_listChunks_iff hown, get_ok]
  · rcases compact_answers (fun id => (mem_listChunks_iff hown).mp) hrun with
      ⟨-, rfl, -⟩ | ⟨⟨report, rfl⟩, -, -⟩
    · intro heq
      cases heq
    · intro heq
      cases heq

/-- Two chunks, the second torn off by a byte. -/
def tornStore : PackStore :=
  let s := (put sampleHash 1000 [2] (put sampleHash 1000 [1] (openStore emptyDir)).2).2
  { s with segments := Table.mapValues List.dropLast s.segments }

theorem inventory_agrees_tornStore :
    listChunks sampleHash tornStore = [sampleHash [1]] ∧
      (sampleHash [2] ∈ listChunks sampleHash tornStore ↔
        contains sampleHash tornStore (sampleHash [2]) = true) := by
  have hrows : ∀ row ∈ tornStore.index.toList,
      (readRecord sampleHash tornStore row.2).toOption.all (sampleHash · = row.1) := by
    decide +kernel
  have hown : OwnRecords sampleHash tornStore := by
    intro id entry data hentry hintact
    have hrow := hrows (id, entry) ((Table.mem_rows ..).mpr hentry)
    rw [readRecord_of_intact hintact] at hrow
    exact of_decide_eq_true hrow
  exact ⟨by decide +kernel, ((inventory_agrees sampleHash tornStore).mpr hown).2.1 _⟩

/-- The second put rolls the full segment one onto itself and leaves a record of its
own where the row of `[1]` points. -/
def rolledStore : PackStore :=
  (put sampleHash 1 [2] (put sampleHash 1 [1] (openStore emptyDir)).2).2

/-- The chunk is listed, cannot be read, and every compaction fails on it. -/
theorem self_roll_lists_lost_chunk :
    sampleHash [1] ∈ listChunks sampleHash rolledStore ∧
      contains sampleHash rolledStore (sampleHash [1]) = false ∧
      get sampleHash rolledStore (sampleHash [1]) = .error .notFound ∧
      (compact sampleHash rolledStore).map Prod.fst = some (.error .notFound) := by
  decide +kernel

end PackStore
end FluxFS
