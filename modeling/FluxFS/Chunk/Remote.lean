import FluxFS.Chunk.Placement
import FluxFS.Lib.Merge

/-!
# Remote — the replicated store over worker RPCs

`crates/chunk/src/remote.rs`, the paged inventory part. A worker's `list_chunks` pages
its sorted inventory; `inventoryPage` merges the workers' pages, with one cursor per
worker that outlives the page. Loops of the source that have no bound of their own take
`rounds` or `fuel`; `none` means that it was not enough.
-/

namespace FluxFS

open Kit

instance : LinearOrder ChunkId := linearOrderOfOrd ChunkId

/-! ## Pages of one store -/

/-- `ChunkPage`. -/
structure ChunkPage where
  chunks : List ChunkId
  nextCursor : Option ChunkId
deriving DecidableEq, Repr

/-- `PackStore::list_chunks_page` of a store that lists `chunks`. -/
def listChunksPage (chunks : List ChunkId) (cursor : Option ChunkId) (limit : Nat) :
    Except FluxError ChunkPage :=
  if limit = 0 then .error (.invalidArg "chunk inventory page limit must be non-zero")
  else
    let page := (behind cursor chunks).take (saturatingAdd limit 1)
    let hasMore := page.length > limit
    let page := page.take limit
    .ok ⟨page, if hasMore then page.getLast? else none⟩

/-! ## The merge of the workers' pages -/

/-- The answer to `list_chunks`, with the worker's id. -/
structure ListChunksResponse where
  chunkIds : List ChunkId
  workerId : WorkerTargetId
  nextCursor : Option ChunkId

/-- `list_chunks` of a chunk worker with this inventory. -/
def workerListChunks (worker : WorkerTargetId) (chunks : List ChunkId) (after : Option ChunkId)
    (limit : Nat) : Except FluxError ListChunksResponse :=
  if limit = 0 then .error (.invalidArg "inventory limit must be non-zero")
  else
    match listChunksPage chunks after limit with
    | .error error => .error error
    | .ok page => .ok ⟨page.chunks, worker, page.nextCursor⟩

/-- A worker's row of `buffers` and of `may_have_more`. -/
structure Feed where
  worker : WorkerTargetId
  buffer : List ChunkId
  mayHaveMore : Bool
deriving DecidableEq, Repr

/-- The exclusive cursor of each worker; no row is the beginning. -/
abbrev Cursors := Table WorkerTargetId ChunkId

/-- One page of the merged inventory: chunks with the workers that listed them. -/
structure InventoryPage where
  chunks : Table ChunkId (List WorkerTargetId)
  more : Bool

/-- The variables of `inventory_page_with_holders`. -/
structure Scan where
  feeds : List Feed
  cursor : Cursors
  pageChunks : Table ChunkId (List WorkerTargetId)

section
variable (listChunks : WorkerTargetId → Option ChunkId → Nat → Except FluxError ListChunksResponse)
  (limit : Nat)

/-- Fetching into one buffer. -/
def refillFeed (cursor : Cursors) (feed : Feed) : Except FluxError Feed :=
  if ¬ feed.buffer.isEmpty ∨ feed.mayHaveMore = false then .ok feed
  else
    match listChunks feed.worker cursor[feed.worker]? (min limit u32Max) with
    | .error error => .error error
    | .ok response =>
      if response.workerId ≠ feed.worker then
        .error (.io
          s!"inventory worker id mismatch: expected {feed.worker}, got {response.workerId}")
      else
        let buffer := feed.buffer ++ response.chunkIds
        .ok { feed with
          buffer := buffer
          mayHaveMore := if buffer.isEmpty then false else response.nextCursor.isSome }

/-- The loop that fills the empty buffers. -/
def refillBuffers (cursor : Cursors) : List Feed → Except FluxError (List Feed)
  | [] => .ok []
  | feed :: feeds =>
    match refillFeed listChunks limit cursor feed with
    | .error error => .error error
    | .ok feed =>
      match refillBuffers cursor feeds with
      | .error error => .error error
      | .ok feeds => .ok (feed :: feeds)

/-- The least of the buffers' fronts. -/
def minKey (feeds : List Feed) : Option ChunkId := (feeds.filterMap (·.buffer.head?)).min?

/-- Take a key from the front of a feed. -/
def Feed.pop (key : ChunkId) (feed : Feed) : Feed :=
  if feed.buffer.head? = some key then { feed with buffer := feed.buffer.tail } else feed

/-- Taking `key` from the front of every buffer that has it. -/
def Scan.take (scan : Scan) (key : ChunkId) : Scan :=
  let holders := (scan.feeds.filter (·.buffer.head? = some key)).map (·.worker)
  { feeds := scan.feeds.map (Feed.pop key)
    cursor := Table.insertAll scan.cursor (holders.map (·, key))
    pageChunks := scan.pageChunks.insert key holders }

/-- The `while` loop, with the error it stops at. -/
def scanLoop : Nat → Scan → Option (Scan × Option FluxError)
  | 0, _ => none
  | rounds + 1, scan =>
    if scan.pageChunks.size < limit then
      match refillBuffers listChunks limit scan.cursor scan.feeds with
      | .error error => some (scan, some error)
      | .ok feeds =>
        match minKey feeds with
        | none => some ({ scan with feeds := feeds }, none)
        | some key => scanLoop rounds ({ scan with feeds := feeds }.take key)
    else some (scan, none)

/-- `inventory_page_with_holders`, with the cursors it leaves. -/
def inventoryPage (rounds : Nat) (healthy : List WorkerTargetId) (cursor : Cursors) :
    Option (Except FluxError InventoryPage × Cursors) :=
  (scanLoop listChunks limit rounds ⟨healthy.map fun worker => ⟨worker, [], true⟩, cursor, ∅⟩).map
    fun (scan, error) =>
      match error with
      | some error => (.error error, scan.cursor)
      | none =>
        (.ok
          { chunks := scan.pageChunks
            more := scan.pageChunks.size = limit ∧
              (scan.feeds.any (¬ ·.buffer.isEmpty) ∨ scan.feeds.any (·.mayHaveMore)) },
          scan.cursor)

end

/-! ## One page -/

section
variable {lists : WorkerTargetId → List ChunkId} {chunks rest : List ChunkId}
  {cursor : Cursors} {after : Option ChunkId} {limit : Nat} {feed : Feed} {key : ChunkId}

/-- The workers answer from their inventories. -/
def answering (lists : WorkerTargetId → List ChunkId) (worker : WorkerTargetId)
    (after : Option ChunkId) (limit : Nat) : Except FluxError ListChunksResponse :=
  workerListChunks worker (lists worker) after limit

/-- What each worker still has behind its cursor. -/
def unseen (lists : WorkerTargetId → List ChunkId) (cursor : Cursors) (worker : WorkerTargetId) :
    List ChunkId :=
  behind cursor[worker]? (lists worker)

theorem listChunksPage_ok (chunks : List ChunkId) (after : Option ChunkId) (hlimit : 1 ≤ limit)
    (hmax : limit < u64Max) :
    ∃ next, listChunksPage chunks after limit = .ok ⟨(behind after chunks).take limit, next⟩ ∧
      (next.isSome ↔ (behind after chunks).take limit ≠ behind after chunks) := by
  have hsucc : saturatingAdd limit 1 = limit + 1 := by
    rw [saturatingAdd]
    omega
  have htake : ((behind after chunks).take (limit + 1)).take limit =
      (behind after chunks).take limit := by
    rw [List.take_take, Nat.min_eq_left (Nat.le_succ limit)]
  refine ⟨if ((behind after chunks).take (limit + 1)).length > limit then
    ((behind after chunks).take limit).getLast? else none, ?_, ?_⟩
  · rw [listChunksPage, if_neg (by omega), hsucc]
    dsimp only
    rw [htake]
  · rw [List.length_take, ne_eq, List.take_eq_self_iff]
    by_cases hmore : (behind after chunks).length ≤ limit
    · rw [if_neg (by omega)]
      exact iff_of_false (by simp) (not_not.mpr hmore)
    · rw [if_pos (by omega)]
      refine iff_of_true (List.getLast?_isSome.mpr fun hnil => ?_) hmore
      have hlength := congrArg List.length hnil
      rw [List.length_take, List.length_nil] at hlength
      omega

/-- A buffer that shows what its worker still has. -/
structure Feed.Exact (rest : List ChunkId) (feed : Feed) : Prop where
  shows : feed.buffer <+: rest
  more : feed.mayHaveMore = true ↔ feed.buffer ≠ rest

/-- A buffer that was not fetched yet, or shows what its worker still has. -/
def Feed.Ready (rest : List ChunkId) (feed : Feed) : Prop :=
  feed.buffer = [] ∧ feed.mayHaveMore = true ∨ feed.Exact rest

theorem refillFeed_ok (hlimit : 1 ≤ limit) (h : feed.Ready (unseen lists cursor feed.worker)) :
    ∃ feed', refillFeed (answering lists) limit cursor feed = .ok feed' ∧
      feed'.worker = feed.worker ∧ feed'.Exact (unseen lists cursor feed.worker) ∧
      (feed'.buffer = [] → unseen lists cursor feed.worker = []) := by
  by_cases hskip : ¬ feed.buffer.isEmpty ∨ feed.mayHaveMore = false
  · refine ⟨feed, by rw [refillFeed, if_pos hskip], rfl, ?_⟩
    rcases h with ⟨hempty, hmore⟩ | hexact
    · rw [hempty, hmore] at hskip
      simp at hskip
    · refine ⟨hexact, fun hempty => ?_⟩
      have hdone : feed.mayHaveMore = false := hskip.resolve_left (by simp [hempty])
      by_contra hrest
      have hmore := hexact.more.mpr (by rw [hempty]; exact Ne.symm hrest)
      rw [hdone] at hmore
      cases hmore
  · -- the buffer is empty: the answer is the first part of what the worker has
    obtain ⟨hempty, -⟩ := not_or.mp hskip
    have hnil : feed.buffer = [] := by simpa using hempty
    have hasked : 1 ≤ min limit u32Max := by
      rw [u32Max]
      omega
    obtain ⟨next, hpage, hnext⟩ := listChunksPage_ok (lists feed.worker) cursor[feed.worker]?
      hasked (by rw [u64Max, u32Max]; omega)
    have hanswer : answering lists feed.worker cursor[feed.worker]? (min limit u32Max) =
        .ok ⟨(unseen lists cursor feed.worker).take (min limit u32Max), feed.worker, next⟩ := by
      rw [answering, workerListChunks, if_neg (by omega), hpage]
      rfl
    rw [refillFeed, if_neg hskip, hanswer]
    dsimp only
    rw [if_neg (not_not.mpr rfl), hnil, List.nil_append]
    have hnone : (unseen lists cursor feed.worker).take (min limit u32Max) = [] →
        unseen lists cursor feed.worker = [] := by
      intro h
      refine (List.take_eq_nil_iff.mp h).resolve_left ?_
      omega
    refine ⟨_, rfl, rfl, ⟨List.take_prefix .., ?_⟩, hnone⟩
    dsimp only
    split
    · rename_i hisEmpty
      have hnil := List.isEmpty_iff.mp hisEmpty
      rw [hnil, hnone hnil]
      simp
    · exact hnext

/-- The filled buffers show what the workers still have, and are empty only where that
is nothing. -/
theorem refillBuffers_ok (hlimit : 1 ≤ limit) {feeds : List Feed}
    (h : ∀ f ∈ feeds, f.Ready (unseen lists cursor f.worker)) :
    ∃ feeds', refillBuffers (answering lists) limit cursor feeds = .ok feeds' ∧
      feeds'.map (·.worker) = feeds.map (·.worker) ∧
      ∀ f ∈ feeds', f.Exact (unseen lists cursor f.worker) ∧
        (f.buffer = [] → unseen lists cursor f.worker = []) := by
  induction feeds with
  | nil => exact ⟨[], rfl, rfl, nofun⟩
  | cons feed feeds ih =>
    obtain ⟨feed', hfeed, hworker, hexact⟩ := refillFeed_ok hlimit (h feed List.mem_cons_self)
    obtain ⟨feeds', hfeeds, hworkers, hall⟩ := ih fun f hf => h f (List.mem_cons_of_mem _ hf)
    refine ⟨feed' :: feeds', by rw [refillBuffers, hfeed, hfeeds], ?_, ?_⟩
    · rw [List.map_cons, List.map_cons, hworker, hworkers]
    · intro f hf
      rcases List.mem_cons.mp hf with rfl | hf
      · rwa [hworker]
      · exact hall f hf

theorem minKey_none {feeds : List Feed} (h : minKey feeds = none) :
    ∀ f ∈ feeds, f.buffer = [] := by
  intro f hf
  rw [minKey, List.min?_eq_none_iff, List.filterMap_eq_nil_iff] at h
  exact List.head?_eq_none_iff.mp (h f hf)

theorem minKey_some {feeds : List Feed} (h : minKey feeds = some key) :
    (∃ f ∈ feeds, f.buffer.head? = some key) ∧
      ∀ f ∈ feeds, ∀ front ∈ f.buffer.head?, key ≤ front := by
  obtain ⟨hmem, hleast⟩ := List.min?_eq_some_iff.mp h
  refine ⟨List.mem_filterMap.mp hmem, fun f hf front hfront => ?_⟩
  exact hleast front (List.mem_filterMap.mpr ⟨f, hf, hfront⟩)

@[simp] theorem Feed.pop_worker : (feed.pop key).worker = feed.worker := by
  rw [pop]
  split
  · rfl
  · rfl

/-! ## One key -/

/-- Filled buffers of all workers, about to be popped. -/
structure Filled (lists : WorkerTargetId → List ChunkId) (cursor : Cursors) (feeds : List Feed) :
    Prop where
  sorted : ∀ f ∈ feeds, SortedBy id (lists f.worker)
  exact : ∀ f ∈ feeds, f.Exact (unseen lists cursor f.worker)
  empty : ∀ f ∈ feeds, f.buffer = [] → unseen lists cursor f.worker = []

namespace Filled
variable {feeds : List Feed} {f : Feed}

/-- The front of a buffer is the worker's least key. -/
theorem front (h : Filled lists cursor feeds) (hf : f ∈ feeds) {x : ChunkId}
    (hx : x ∈ unseen lists cursor f.worker) :
    ∃ front, f.buffer.head? = some front ∧ front ∈ unseen lists cursor f.worker ∧ front ≤ x := by
  have hsorted : SortedBy id (unseen lists cursor f.worker) := (h.sorted f hf).behind _
  obtain ⟨later, hlater⟩ := (h.exact f hf).shows
  cases hbuffer : f.buffer with
  | nil =>
    rw [h.empty f hf hbuffer] at hx
    cases hx
  | cons front buffer =>
    rw [hbuffer] at hlater
    rw [← hlater] at hsorted hx ⊢
    refine ⟨front, rfl, by simp, ?_⟩
    rcases List.mem_cons.mp hx with rfl | hx
    · exact le_rfl
    · exact ((List.pairwise_cons.mp hsorted).1 x hx).le

theorem least (h : Filled lists cursor feeds) (hkey : minKey feeds = some key) (hf : f ∈ feeds) :
    ∀ x ∈ unseen lists cursor f.worker, key ≤ x := by
  intro x hx
  obtain ⟨front, hfront, -, hle⟩ := h.front hf hx
  exact ((minKey_some hkey).2 f hf front hfront).trans hle

/-- The buffers with the key in front are those of the workers that have it. -/
theorem head_iff (h : Filled lists cursor feeds) (hkey : minKey feeds = some key) (hf : f ∈ feeds) :
    f.buffer.head? = some key ↔ key ∈ unseen lists cursor f.worker := by
  constructor
  · intro hhead
    exact (h.exact f hf).shows.subset (List.mem_of_mem_head? hhead)
  · intro hmem
    obtain ⟨front, hfront, hfrontMem, hle⟩ := h.front hf hmem
    rw [hfront, le_antisymm hle (h.least hkey hf front hfrontMem)]

theorem holders_eq (h : Filled lists cursor feeds) (hkey : minKey feeds = some key) :
    (feeds.filter (·.buffer.head? = some key)).map (·.worker) =
      (feeds.map (·.worker)).filter (key ∈ unseen lists cursor ·) := by
  rw [List.filter_map]
  congr 1
  refine List.filter_congr fun f hf => ?_
  rw [Function.comp_apply, decide_eq_decide]
  exact h.head_iff hkey hf

/-- Taking the key moves the cursors of its holders and of no other worker. -/
theorem unseen_take (h : Filled lists cursor feeds) (hkey : minKey feeds = some key)
    (hf : f ∈ feeds) {holders : List WorkerTargetId}
    (hholders : holders = (feeds.map (·.worker)).filter (key ∈ unseen lists cursor ·)) :
    unseen lists (Table.insertAll cursor (holders.map (·, key))) f.worker =
      (unseen lists cursor f.worker).filter (· ≠ key) := by
  have hiff : f.worker ∈ holders ↔ key ∈ unseen lists cursor f.worker := by
    rw [hholders, List.mem_filter, decide_eq_true_iff]
    exact and_iff_right (List.mem_map_of_mem hf)
  rw [unseen, Table.get_insertAll_const]
  by_cases hmem : key ∈ unseen lists cursor f.worker
  · rw [if_pos (hiff.mpr hmem)]
    exact behind_least (h.least hkey hf) hmem
  · rw [if_neg fun h => hmem (hiff.mp h)]
    refine (List.filter_eq_self.mpr fun x hx => ?_).symm
    rw [decide_eq_true_iff]
    rintro rfl
    exact hmem hx

/-- A popped buffer shows what is left. -/
theorem pop_exact (h : Filled lists cursor feeds) (hkey : minKey feeds = some key)
    (hf : f ∈ feeds) : (f.pop key).Exact ((unseen lists cursor f.worker).filter (· ≠ key)) := by
  obtain ⟨hshows, hmore⟩ := h.exact f hf
  by_cases hhead : f.buffer.head? = some key
  · obtain ⟨buffer, hbuffer⟩ := List.head?_eq_some_iff.mp hhead
    obtain ⟨later, hlater⟩ := hshows
    have hsorted : SortedBy id (unseen lists cursor f.worker) := (h.sorted f hf).behind _
    rw [hbuffer] at hlater hmore
    rw [← hlater] at hsorted hmore ⊢
    have hrest : (key :: (buffer ++ later)).filter (· ≠ key) = buffer ++ later := by
      rw [List.filter_cons_of_neg (by simp)]
      refine List.filter_eq_self.mpr fun x hx => decide_eq_true ?_
      exact ne_of_gt ((List.pairwise_cons.mp hsorted).1 x hx)
    rw [Feed.pop, if_pos hhead, hbuffer, List.cons_append, hrest]
    refine ⟨List.prefix_append .., hmore.trans (not_congr ?_)⟩
    rw [List.cons_append, List.cons_inj_right]
    rfl
  · have hrest : (unseen lists cursor f.worker).filter (· ≠ key) =
      unseen lists cursor f.worker := by
      refine List.filter_eq_self.mpr fun x hx => ?_
      rw [decide_eq_true_iff]
      rintro rfl
      exact hhead ((h.head_iff hkey hf).mpr hx)
    rw [Feed.pop, if_neg hhead, hrest]
    exact ⟨hshows, hmore⟩

end Filled

/-! ## The loop -/

/-- The cursors after the keys of a page were taken. -/
def advance (cursor : Cursors) (taken : List (ChunkId × List WorkerTargetId)) : Cursors :=
  taken.foldl (fun cursor row => Table.insertAll cursor (row.2.map (·, row.1))) cursor

/-- What the loop keeps. -/
structure Scanning (lists : WorkerTargetId → List ChunkId) (healthy : List WorkerTargetId)
    (limit : Nat) (scan : Scan) : Prop where
  workers : scan.feeds.map (·.worker) = healthy
  ready : ∀ f ∈ scan.feeds, f.Ready (unseen lists scan.cursor f.worker)
  full : scan.pageChunks.size = limit →
    ∀ f ∈ scan.feeds, f.Exact (unseen lists scan.cursor f.worker)
  below : ∀ row ∈ scan.pageChunks.toList, ∀ w ∈ healthy, ∀ x ∈ unseen lists scan.cursor w, row.1 < x
  size : scan.pageChunks.size ≤ limit

/-- What the loop has done when it ends. -/
structure Scanned (lists : WorkerTargetId → List ChunkId) (healthy : List WorkerTargetId)
    (limit : Nat) (scan done : Scan) (taken : List (ChunkId × List WorkerTargetId)) : Prop where
  workers : done.feeds.map (·.worker) = healthy
  exact : ∀ f ∈ done.feeds, f.Exact (unseen lists done.cursor f.worker)
  cursor : done.cursor = advance scan.cursor taken
  page : done.pageChunks.toList = scan.pageChunks.toList ++ taken
  drains : Drains healthy (unseen lists scan.cursor) taken (unseen lists done.cursor)
  size : done.pageChunks.size ≤ limit
  rest : done.pageChunks.size < limit → ∀ w ∈ healthy, unseen lists done.cursor w = []

/-- One round takes the least key that is left. -/
theorem Scanning.take {healthy : List WorkerTargetId} {scan : Scan} {feeds : List Feed}
    (h : Scanning lists healthy limit scan) (hmore : scan.pageChunks.size < limit)
    (hworkers : feeds.map (·.worker) = healthy) (hfilled : Filled lists scan.cursor feeds)
    (hkey : minKey feeds = some key) :
    let next := ({ scan with feeds := feeds } : Scan).take key
    let row := (key, healthy.filter (key ∈ unseen lists scan.cursor ·))
    Scanning lists healthy limit next ∧ next.cursor = advance scan.cursor [row] ∧
      next.pageChunks.toList = scan.pageChunks.toList ++ [row] ∧
      Drains healthy (unseen lists scan.cursor) [row] (unseen lists next.cursor) := by
  intro next row
  have hnext : next = ⟨feeds.map (Feed.pop key), Table.insertAll scan.cursor (row.2.map (·, key)),
      scan.pageChunks.insert key row.2⟩ := by
    simp only [next, row, Scan.take, hfilled.holders_eq hkey, hworkers]
  have hunseen : ∀ f ∈ feeds, unseen lists next.cursor f.worker =
      (unseen lists scan.cursor f.worker).filter (· ≠ key) := by
    intro f hf
    rw [hnext]
    exact hfilled.unseen_take hkey hf (by rw [hworkers])
  have hexact : ∀ f ∈ next.feeds, f.Exact (unseen lists next.cursor f.worker) := by
    intro popped hpopped
    rw [hnext] at hpopped
    obtain ⟨f, hf, rfl⟩ := List.mem_map.mp hpopped
    rw [Feed.pop_worker, hunseen f hf]
    exact hfilled.pop_exact hkey hf
  have hleast : ∀ w ∈ healthy, ∀ x ∈ unseen lists scan.cursor w, key ≤ x := by
    intro w hw
    rw [← hworkers] at hw
    obtain ⟨f, hf, rfl⟩ := List.mem_map.mp hw
    exact hfilled.least hkey hf
  have hheld : ∃ w ∈ healthy, key ∈ unseen lists scan.cursor w := by
    obtain ⟨f, hf, hhead⟩ := (minKey_some hkey).1
    exact ⟨f.worker, hworkers ▸ List.mem_map_of_mem hf, (hfilled.head_iff hkey hf).mp hhead⟩
  have hpage : next.pageChunks.toList = scan.pageChunks.toList ++ [row] := by
    obtain ⟨w, hw, hmem⟩ := hheld
    rw [hnext]
    exact Table.toList_insert_last (fun r hr => h.below r hr w hw key hmem) row.2
  have hsize : next.pageChunks.size = scan.pageChunks.size + 1 := by
    rw [← Std.ExtTreeMap.length_toList, hpage, List.length_append, Std.ExtTreeMap.length_toList]
    rfl
  have hmid : ∀ w ∈ healthy, unseen lists next.cursor w =
      (unseen lists scan.cursor w).filter (· ≠ key) := by
    intro w hw
    rw [← hworkers] at hw
    obtain ⟨f, hf, rfl⟩ := List.mem_map.mp hw
    exact hunseen f hf
  refine ⟨⟨?_, fun f hf => .inr (hexact f hf), fun _ => hexact, ?_, by omega⟩,
    by rw [hnext]; rfl, hpage, .cons hleast hheld rfl hmid (.nil fun _ _ => rfl)⟩
  · rw [hnext, ← hworkers, List.map_map]
    exact List.map_congr_left fun f _ => Feed.pop_worker
  · intro r hr w hw x hx
    rw [hmid w hw, List.mem_filter, decide_eq_true_iff] at hx
    rw [hpage, List.mem_append, List.mem_singleton] at hr
    rcases hr with hr | rfl
    · exact h.below r hr w hw x hx.1
    · exact lt_of_le_of_ne (hleast w hw x hx.1) (Ne.symm hx.2)

theorem scanLoop_spec {healthy : List WorkerTargetId} (hlimit : 1 ≤ limit)
    (hsorted : ∀ w ∈ healthy, SortedBy id (lists w)) {rounds : Nat} {scan : Scan}
    (h : Scanning lists healthy limit scan) (hrounds : limit < rounds + scan.pageChunks.size) :
    ∃ done taken, scanLoop (answering lists) limit rounds scan = some (done, none) ∧
      Scanned lists healthy limit scan done taken := by
  induction rounds generalizing scan with
  | zero =>
    have hsize := h.size
    omega
  | succ rounds ih =>
    rw [scanLoop]
    by_cases hmore : scan.pageChunks.size < limit
    · rw [if_pos hmore]
      obtain ⟨feeds, hfeeds, hworkers, hfilled⟩ := refillBuffers_ok hlimit h.ready
      rw [h.workers] at hworkers
      have hfilled : Filled lists scan.cursor feeds :=
        ⟨fun f hf => hsorted _ (hworkers ▸ List.mem_map_of_mem hf), fun f hf => (hfilled f hf).1,
          fun f hf => (hfilled f hf).2⟩
      rw [hfeeds]
      dsimp only
      cases hkey : minKey feeds with
      | none =>
        refine ⟨_, [], rfl, hworkers, hfilled.exact, rfl, by simp, .nil fun _ _ => rfl,
          h.size, ?_⟩
        intro _ w hw
        rw [← hworkers] at hw
        obtain ⟨f, hf, rfl⟩ := List.mem_map.mp hw
        exact hfilled.empty f hf (minKey_none hkey f hf)
      | some key =>
        obtain ⟨hnext, hcursor, hpage, hdrains⟩ := h.take hmore hworkers hfilled hkey
        have hsize := congrArg List.length hpage
        rw [List.length_append, Std.ExtTreeMap.length_toList, Std.ExtTreeMap.length_toList,
          List.length_singleton] at hsize
        obtain ⟨done, taken, hdone, hscanned⟩ := ih hnext (by omega)
        refine ⟨done, _ :: taken, hdone, hscanned.workers, hscanned.exact, ?_, ?_,
          hdrains.append hscanned.drains, hscanned.size, hscanned.rest⟩
        · rw [hscanned.cursor, hcursor]
          rfl
        · rw [hscanned.page, hpage, List.append_assoc]
          rfl
    · rw [if_neg hmore]
      have hsize := h.size
      exact ⟨scan, [], rfl, h.workers, h.full (by omega), rfl, by simp, .nil fun _ _ => rfl,
        h.size,
        fun hlt => absurd hlt hmore⟩

/-- A page of the merged inventories, from `cursor` to `cursor'`. -/
structure PageOf (lists : WorkerTargetId → List ChunkId) (healthy : List WorkerTargetId)
    (limit : Nat) (cursor : Cursors) (page : InventoryPage) (cursor' : Cursors) : Prop where
  moved : cursor' = advance cursor page.chunks.toList
  drains : Drains healthy (unseen lists cursor) page.chunks.toList (unseen lists cursor')
  size : page.chunks.toList.length ≤ limit
  full : page.more = true → page.chunks.toList.length = limit
  more : page.more = true ↔ ∃ w ∈ healthy, unseen lists cursor' w ≠ []

/-- A buffer or its worker has something exactly if something is left behind the cursor. -/
theorem Feed.Exact.some_left (h : feed.Exact rest) :
    (feed.buffer ≠ [] ∨ feed.mayHaveMore = true) ↔ rest ≠ [] := by
  rw [h.more]
  constructor
  · rintro (hbuffer | hmore) rfl
    · exact hbuffer (List.prefix_nil.mp h.shows)
    · exact hmore (List.prefix_nil.mp h.shows)
  · intro hrest
    by_cases hbuffer : feed.buffer = []
    · exact .inr (hbuffer ▸ Ne.symm hrest)
    · exact .inl hbuffer

theorem inventoryPage_spec {healthy : List WorkerTargetId} (hlimit : 1 ≤ limit)
    (hsorted : ∀ w ∈ healthy, SortedBy id (lists w)) {rounds : Nat} (hrounds : limit < rounds)
    (cursor : Cursors) :
    ∃ page cursor', inventoryPage (answering lists) limit rounds healthy cursor =
        some (.ok page, cursor') ∧ PageOf lists healthy limit cursor page cursor' := by
  have hstart : Scanning lists healthy limit
      ⟨healthy.map fun worker => ⟨worker, [], true⟩, cursor, ∅⟩ := by
    refine ⟨?_, fun f hf => ?_, fun hzero => ?_, ?_, ?_⟩
    · rw [List.map_map]
      exact List.map_id healthy
    · obtain ⟨w, _, rfl⟩ := List.mem_map.mp hf
      exact .inl ⟨rfl, rfl⟩
    · rw [Std.ExtTreeMap.size_empty] at hzero
      omega
    · simp
    · simp
  have hbound : limit < rounds + (∅ : Table ChunkId (List WorkerTargetId)).size := by
    rw [Std.ExtTreeMap.size_empty]
    omega
  obtain ⟨done, taken, hdone, h⟩ := scanLoop_spec hlimit hsorted hstart hbound
  have hpage : done.pageChunks.toList = taken := by
    rw [h.page]
    simp
  have hlength : taken.length = done.pageChunks.size := by
    rw [← hpage, Std.ExtTreeMap.length_toList]
  rw [inventoryPage, hdone]
  refine ⟨_, _, rfl, by rw [hpage]; exact h.cursor, by rw [hpage]; exact h.drains, ?_, ?_, ?_⟩
  · rw [hpage, hlength]
    exact h.size
  · intro hmore
    rw [hpage, hlength]
    exact (of_decide_eq_true hmore).1
  · rw [decide_eq_true_iff]
    constructor
    · rintro ⟨-, hsome⟩
      have hfeed : ∃ f ∈ done.feeds, f.buffer ≠ [] ∨ f.mayHaveMore = true := by
        simp only [List.any_eq_true] at hsome
        rcases hsome with ⟨f, hf, hbuffer⟩ | ⟨f, hf, hmore⟩
        · exact ⟨f, hf, .inl (by simpa using hbuffer)⟩
        · exact ⟨f, hf, .inr hmore⟩
      obtain ⟨f, hf, hsome⟩ := hfeed
      exact ⟨f.worker, h.workers ▸ List.mem_map_of_mem hf, (h.exact f hf).some_left.mp hsome⟩
    · rintro ⟨w, hw, hleft⟩
      have hfull : done.pageChunks.size = limit := by
        by_contra hne
        exact hleft (h.rest (lt_of_le_of_ne h.size hne) w hw)
      rw [← h.workers] at hw
      obtain ⟨f, hf, rfl⟩ := List.mem_map.mp hw
      refine ⟨hfull, ?_⟩
      simp only [List.any_eq_true]
      rcases (h.exact f hf).some_left.mpr hleft with hbuffer | hmore
      · exact .inl ⟨f, hf, by simpa using hbuffer⟩
      · exact .inr ⟨f, hf, hmore⟩

end

end FluxFS
