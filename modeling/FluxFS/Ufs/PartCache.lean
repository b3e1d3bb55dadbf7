import FluxFS.Lib.Overlay
import FluxFS.Lib.Rows
import FluxFS.Lib.Run
import FluxFS.Lib.Text
import FluxFS.Types

/-!
# PartCache — the version-aware range cache above the UFS

`UfsReadPath::read` cuts a range into parts of a fixed size, takes each part from a cache or
fetches it, and puts the range together. The cache is keyed by path, version and part. A read
runs beside other reads, their prefetches and evictions: a schedule says in which order the
parts of a read arrive and what happens to the cache in between.

Overflow, underflow and slices out of bounds are `none`.
-/

namespace FluxFS

open Kit

/-- What the backend answers to a range GET: path, start, end, `If-Match`. -/
abbrev Backend := String → Nat → Nat → Option String → Except FluxError Bytes

/-- `Ufs::read_range_pinned`. -/
def readRangePinned (op : Backend) (rel : String) (offset len : Nat) (etag : Option String) :
    Except FluxError Bytes :=
  op rel offset (saturatingAdd offset len) etag

/-- `ReadPathConfig`. -/
structure ReadPathConfig where
  partSize : Nat
  maxCachedParts : Nat
  prefetchParts : Nat
deriving DecidableEq, Repr

/-- An opened read path has parts. -/
structure UfsReadPath where
  config : ReadPathConfig
  part_size_pos : 0 < config.partSize

/-- Parts by key. -/
abbrev UfsPartCache := Table String Bytes

/-- `part_cache_key`. -/
def partCacheKey (rel version : String) (index : Nat) : String := s!"{rel}\x00{version}\x00{index}"

/-- `version_token`. -/
def versionToken (object : UfsObject) : String :=
  let mtime := object.mtimeMs.getD 0
  object.etag.getD s!"size={object.size};mtime={mtime}"

/-- `&data[start..stop]`. -/
def slice? (data : Bytes) (start stop : Nat) : Option Bytes :=
  if start ≤ stop ∧ stop ≤ data.length then some (data.extract start stop) else none

namespace UfsReadPath

/-- `UfsReadPath::open`. -/
def «open» (config : ReadPathConfig) : Except FluxError UfsReadPath :=
  if h : config.partSize = 0 then .error (.invalidArg "UFS part_size must be > 0")
  else if config.maxCachedParts = 0 then .error (.invalidArg "UFS max_cached_parts must be > 0")
  else .ok ⟨config, Nat.pos_of_ne_zero h⟩

variable (path : UfsReadPath)

/-- A range GET that has to bring as many bytes as it asks for. -/
def fetchWhole (op : Backend) (rel : String) (etag : Option String) (start expected : Nat) :
    Except String Bytes :=
  match readRangePinned op rel start expected etag with
  | .error e => .error e.text
  | .ok data =>
    let actual := data.length
    if data.length ≠ expected then
      .error (s!"short UFS range read: path={rel} offset={start} " ++
        s!"expected={expected} actual={actual}")
    else .ok data

/-- The closure that `get_part` gives to `get_or_fetch`. -/
def fetchPart (op : Backend) (rel : String) (object : UfsObject) (index : Nat) :
    Option (Except String Bytes) := do
  let start ← checkedMul index path.config.partSize
  let left ← checkedSub object.size start
  some (fetchWhole op rel object.etag start (min path.config.partSize left))

/-- `get_part`: what is fetched is cached. -/
def getPart (op : Backend) (rel version : String) (object : UfsObject) (index : Nat)
    (cache : UfsPartCache) : Option (Except FluxError Bytes × UfsPartCache) :=
  let key := partCacheKey rel version index
  match cache[key]? with
  | some data => some (.ok data, cache)
  | none => do
    match ← path.fetchPart op rel object index with
    | .error text => some (.error (.ufs s!"foyer get_or_fetch {key}: {text}"), cache)
    | .ok data => some (.ok data, cache.insert key data)

/-- One round of the loop of `read` over the parts. -/
def copyPart (offset stop index : Nat) (part : Bytes) : Option (Except FluxError Bytes) := do
  let partStart ← checkedMul index path.config.partSize
  let copyStart := offset - partStart
  let partEnd ← checkedAdd partStart part.length
  let copyEnd ← checkedSub (min stop partEnd) partStart
  if copyEnd < copyStart ∨ copyEnd > part.length then
    some (.error (.ufs "cached UFS part bounds mismatch"))
  else (slice? part copyStart copyEnd).map .ok

/-- The loop of `read` over the parts. -/
def assemble (offset stop first : Nat) : (position : Nat) → List Bytes →
    Option (Except FluxError Bytes)
  | _, [] => some (.ok [])
  | position, part :: parts => do
    let index ← checkedAdd first position
    match ← path.copyPart offset stop index part with
    | .error e => some (.error e)
    | .ok bytes =>
      let rest ← assemble offset stop first (position + 1) parts
      some (rest.map (bytes ++ ·))

/-- The parts that `spawn_prefetch` asks for. -/
def prefetched (object : UfsObject) (first : Nat) : List Nat :=
  let totalParts := (object.size + path.config.partSize - 1) / path.config.partSize
  let stop := min (saturatingAdd first path.config.prefetchParts) totalParts
  List.range' first (stop - first)

end UfsReadPath

/-! ## Reads -/

/-- A read that has to look at parts. -/
structure PartRead where
  rel : String
  object : UfsObject
  offset : Nat
  stop : Nat
  first : Nat
  last : Nat

/-- What happens while a read is under way. -/
inductive ReadEvent where
  /-- The part at a position of the read arrives. -/
  | own (position : Nat) (op : Backend)
  /-- Another read or a prefetch takes a part. -/
  | other (rel : String) (object : UfsObject) (index : Nat) (op : Backend)
  | evict (key : String)

/-- The cache, and what `try_join_all` has so far. -/
structure PartsArrived where
  cache : UfsPartCache
  parts : List (Option Bytes)
  failed : Option FluxError

/-- No part is there yet. -/
def PartRead.start (r : PartRead) (cache : UfsPartCache) : PartsArrived :=
  ⟨cache, List.replicate (r.last + 1 - r.first) none, none⟩

/-- What a read has come to. -/
inductive ReadEnd where
  | waiting
  | failed (e : FluxError)
  /-- The answer, and the parts that are fetched ahead. -/
  | done (data : Bytes) (ahead : List Nat)
deriving DecidableEq, Repr

namespace UfsReadPath

variable (path : UfsReadPath)

/-- The range that `read` looks at, if any. -/
def plan (rel : String) (object : UfsObject) (offset len : Nat) : Option (Option PartRead) :=
  if len = 0 ∨ offset ≥ object.size then some none
  else do
    let stop := min (saturatingAdd offset len) object.size
    let before ← checkedSub stop 1
    some (some ⟨rel, object, offset, stop, offset / path.config.partSize,
      before / path.config.partSize⟩)

/-- One event while the parts of a read arrive. -/
def arrive (r : PartRead) (st : PartsArrived) : ReadEvent → Option PartsArrived
  | .own position op =>
    match st.failed, st.parts[position]? with
    | none, some none => do
      let (result, cache) ← path.getPart op r.rel (versionToken r.object) r.object
        (r.first + position) st.cache
      match result with
      | .error e => some { st with cache := cache, failed := some e }
      | .ok data => some { st with cache := cache, parts := st.parts.set position (some data) }
    | _, _ => some st
  | .other rel object index op =>
    -- a panic stops the other task, not this one
    match path.getPart op rel (versionToken object) object index st.cache with
    | none => some st
    | some (_, cache) => some { st with cache := cache }
  | .evict key => some { st with cache := st.cache.erase key }

/-- The end of `read`, once `try_join_all` has returned. -/
def answer (r : PartRead) (st : PartsArrived) : Option ReadEnd :=
  match st.failed with
  | some e => some (.failed e)
  | none =>
    if st.parts.all Option.isSome then do
      match ← path.assemble r.offset r.stop r.first 0 st.parts.reduceOption with
      | .error e => some (.failed e)
      | .ok data =>
        let next ← checkedAdd r.last 1
        some (.done data (path.prefetched r.object next))
    else some .waiting

/-- `UfsReadPath::read` under a schedule. -/
def read (rel : String) (object : UfsObject) (offset len : Nat) (schedule : List ReadEvent)
    (cache : UfsPartCache) : Option (ReadEnd × UfsPartCache) := do
  match ← path.plan rel object offset len with
  | none => some (.done [] [], cache)
  | some r =>
    let st ← exec (path.arrive r) (r.start cache) schedule
    let result ← path.answer r st
    some (result, st.cache)

end UfsReadPath

/-! ## Cache keys -/

theorem toList_partCacheKey (rel version : String) (index : Nat) :
    (partCacheKey rel version index).toList =
      rel.toList ++ '\x00' :: (version.toList ++ '\x00' :: Nat.toDigits 10 index) := by
  have hparts : partCacheKey rel version index =
      rel ++ "\x00" ++ version ++ "\x00" ++ toString index := rfl
  have hnul : "\x00".toList = ['\x00'] := by simp
  rw [hparts, Nat.toString_eq_ofList_toDigits]
  simp only [String.toList_append, String.toList_ofList, hnul, List.append_assoc,
    List.cons_append, List.nil_append]

/-- The key of a path and a version without NUL is no other's: a NUL more in the path or the
version of the other would be a NUL more in its key. -/
theorem partCacheKey_inj {rel rel' version version' : String} {index index' : Nat}
    (hrel : '\x00' ∉ rel.toList) (hversion : '\x00' ∉ version.toList)
    (h : partCacheKey rel' version' index' = partCacheKey rel version index) :
    rel' = rel ∧ version' = version ∧ index' = index := by
  have hlist := congrArg String.toList h
  rw [toList_partCacheKey, toList_partCacheKey] at hlist
  have hcount := congrArg (List.count '\x00') hlist
  have hdigits : ∀ n, (Nat.toDigits 10 n).count '\x00' = 0 := fun n =>
    List.count_eq_zero.mpr (not_mem_toDigits (by decide))
  simp only [List.count_append, List.count_cons_self, hdigits, List.count_eq_zero.mpr hrel,
    List.count_eq_zero.mpr hversion] at hcount
  have hrel' : '\x00' ∉ rel'.toList := List.count_eq_zero.mp (by omega)
  have hversion' : '\x00' ∉ version'.toList := List.count_eq_zero.mp (by omega)
  obtain ⟨hfront, hlist⟩ := append_sep_inj hrel' hrel hlist
  obtain ⟨hmiddle, hlist⟩ := append_sep_inj hversion' hversion hlist
  refine ⟨String.toList_inj.mp hfront, String.toList_inj.mp hmiddle, ?_⟩
  have hread := parseUint_toDigits (le_max_left index index')
  rw [← hlist, parseUint_toDigits (le_max_right index index')] at hread
  exact Option.some.inj hread

/-! ## Parts of a version -/

/-- A version of an object is pinned: what the backend answers is from its bytes. -/
def PinnedTo (rel etag : String) (bytes : Bytes) (op : Backend) : Prop :=
  ∀ start stop data, op rel start stop (some etag) = .ok data → data <+: bytes.extract start stop

/-- A task that uses the keys of the version knows the version's size. -/
def SharesVersion (rel etag : String) (bytes : Bytes) (rel' : String) (object : UfsObject) : Prop :=
  rel' = rel → versionToken object = etag → object.etag = some etag ∧ object.size = bytes.length

namespace UfsReadPath

/-- The bytes of a part. -/
def partOf (path : UfsReadPath) (bytes : Bytes) (index : Nat) : Bytes :=
  bytes.extract (index * path.config.partSize) (index * path.config.partSize + path.config.partSize)

/-- The cached parts of a version hold its bytes. -/
def Holds (path : UfsReadPath) (rel etag : String) (bytes : Bytes) (cache : UfsPartCache) : Prop :=
  ∀ index data, cache[partCacheKey rel etag index]? = some data → data = path.partOf bytes index

section
variable {path : UfsReadPath} {rel etag : String} {bytes : Bytes} {object : UfsObject}
  {op : Backend} {index : Nat} {cache cache' : UfsPartCache}

theorem length_partOf (path : UfsReadPath) (bytes : Bytes) (index : Nat) :
    (path.partOf bytes index).length =
      min path.config.partSize (bytes.length - index * path.config.partSize) := by
  rw [partOf, length_extract]
  omega

theorem fetchPart_eq_some {result : Except String Bytes} :
    path.fetchPart op rel object index = some result ↔
      index * path.config.partSize ≤ u64Max ∧ index * path.config.partSize ≤ object.size ∧
        fetchWhole op rel object.etag (index * path.config.partSize)
          (min path.config.partSize (object.size - index * path.config.partSize)) = result := by
  rw [fetchPart, checkedMul]
  by_cases hmax : index * path.config.partSize ≤ u64Max
  · rw [if_pos hmax, Option.bind_eq_bind, Option.bind_some, checkedSub]
    by_cases hsize : index * path.config.partSize ≤ object.size
    · rw [if_pos hsize, Option.bind_some, Option.some.injEq]
      simp only [hmax, hsize, true_and]
    · rw [if_neg hsize]
      simp [hsize]
  · rw [if_neg hmax]
    simp [hmax]

/-- Only a whole part counts as fetched. -/
theorem fetchWhole_ok (hop : PinnedTo rel etag bytes op) {start expected : Nat} {data : Bytes}
    (h : fetchWhole op rel (some etag) start expected = .ok data) :
    data.length = expected ∧ data <+: bytes.extract start (start + expected) := by
  rw [fetchWhole] at h
  split at h
  · cases h
  · rename_i fetched hread
    dsimp only at h
    split at h
    · cases h
    · rename_i hlength
      cases h
      refine ⟨not_not.mp hlength, (hop _ _ _ hread).trans ?_⟩
      have hstop : saturatingAdd start expected - start ≤ start + expected - start :=
        Nat.sub_le_sub_right (Nat.min_le_left ..) start
      exact List.take_prefix_take_left hstop

theorem fetchPart_ok (hop : PinnedTo rel etag bytes op) (hetag : object.etag = some etag)
    (hsize : object.size = bytes.length) {data : Bytes}
    (h : path.fetchPart op rel object index = some (.ok data)) : data =
      path.partOf bytes index := by
  obtain ⟨-, -, hfetch⟩ := fetchPart_eq_some.mp h
  rw [hetag] at hfetch
  obtain ⟨hlength, hfront⟩ := fetchWhole_ok hop hfetch
  have hpart : bytes.extract (index * path.config.partSize) (index * path.config.partSize +
      min path.config.partSize (object.size - index * path.config.partSize)) <+:
      path.partOf bytes index := List.take_prefix_take_left (by omega)
  refine (hfront.trans hpart).eq_of_length_le ?_
  rw [length_partOf, hlength, hsize]

/-- A part is either there, or it is fetched and stored. -/
theorem getPart_eq_some {version : String} {result : Except FluxError Bytes}
    (h : path.getPart op rel version object index cache = some (result, cache')) :
    (∃ data, cache[partCacheKey rel version index]? = some data ∧ result = .ok data ∧ cache' =
      cache) ∨
    (∃ data, path.fetchPart op rel object index = some (.ok data) ∧ result = .ok data ∧
      cache' = cache.insert (partCacheKey rel version index) data) ∨
    (∃ e, result = .error e ∧ cache' = cache) := by
  rw [getPart] at h
  split at h
  · rename_i data hdata
    cases h
    exact .inl ⟨data, hdata, rfl, rfl⟩
  · rw [Option.bind_eq_bind, Option.bind_eq_some_iff] at h
    obtain ⟨fetched, hfetch, h⟩ := h
    cases fetched with
    | error text =>
      cases h
      exact .inr (.inr ⟨_, rfl, rfl⟩)
    | ok data =>
      cases h
      exact .inr (.inl ⟨data, hfetch, rfl, rfl⟩)

/-- A part within the object never overflows. -/
theorem getPart_total (hmax : object.size ≤ u64Max)
    (hindex : index * path.config.partSize ≤ object.size) (op : Backend) (rel version : String)
    (cache : UfsPartCache) :
    ∃ result cache', path.getPart op rel version object index cache = some (result, cache') := by
  rw [getPart]
  split
  · exact ⟨_, _, rfl⟩
  · have hfetch := fetchPart_eq_some.mpr ⟨hindex.trans hmax, hindex, (rfl : fetchWhole op rel .. =
      _)⟩
    rw [hfetch, Option.bind_eq_bind, Option.bind_some]
    split
    · exact ⟨_, _, rfl⟩
    · exact ⟨_, _, rfl⟩

/-- The cached parts of a version stay right whoever takes a part. -/
theorem Holds.getPart (h : path.Holds rel etag bytes cache) (hrel : '\x00' ∉ rel.toList)
    (hversion : '\x00' ∉ etag.toList) {rel' : String} {result : Except FluxError Bytes}
    (hop : PinnedTo rel etag bytes op) (hshares : SharesVersion rel etag bytes rel' object)
    (hget : path.getPart op rel' (versionToken object) object index cache = some (result, cache')) :
    path.Holds rel etag bytes cache' := by
  obtain ⟨data, -, -, rfl⟩ | ⟨data, hfetch, -, rfl⟩ | ⟨e, -, rfl⟩ := getPart_eq_some hget
  · exact h
  · intro index' data' hentry
    rw [Table.get_insert] at hentry
    split at hentry
    · rename_i hkey
      cases hentry
      obtain ⟨rfl, htoken, rfl⟩ := partCacheKey_inj hrel hversion hkey
      obtain ⟨hetag, hsize⟩ := hshares rfl htoken
      exact fetchPart_ok hop hetag hsize hfetch
    · exact h index' data' hentry
  · exact h

theorem Holds.part (h : path.Holds rel etag bytes cache) (hop : PinnedTo rel etag bytes op)
    (hetag : object.etag = some etag) (hsize : object.size = bytes.length) {data : Bytes}
    (hget : path.getPart op rel (versionToken object) object index cache =
      some (.ok data, cache')) :
    data = path.partOf bytes index := by
  have htoken : versionToken object = etag := by rw [versionToken, hetag, Option.getD_some]
  obtain ⟨_, hentry, heq, -⟩ | ⟨_, hfetch, heq, -⟩ | ⟨e, heq, -⟩ := getPart_eq_some hget
  · cases heq
    rw [htoken] at hentry
    exact h index data hentry
  · cases heq
    exact fetchPart_ok hop hetag hsize hfetch
  · cases heq

theorem Holds.evict (h : path.Holds rel etag bytes cache) (key : String) :
    path.Holds rel etag bytes (cache.erase key) := by
  intro index data hentry
  rw [Table.get_erase] at hentry
  split at hentry
  · cases hentry
  · exact h index data hentry

end

/-! ## Putting the range together -/

/-- A planned range of an object with these bytes. -/
structure Fits (path : UfsReadPath) (bytes : Bytes) (r : PartRead) : Prop where
  offset_lt : r.offset < r.stop
  stop_le : r.stop ≤ bytes.length
  first_eq : r.first = r.offset / path.config.partSize
  last_eq : r.last = (r.stop - 1) / path.config.partSize

section
variable {path : UfsReadPath} {bytes : Bytes} {r : PartRead} {index : Nat}

theorem Fits.index_mul_lt (h : path.Fits bytes r) (hindex : index ≤ r.last) :
    index * path.config.partSize < r.stop := by
  rw [h.last_eq, Nat.le_div_iff_mul_le path.part_size_pos] at hindex
  have := h.offset_lt
  omega

theorem Fits.offset_lt_next (h : path.Fits bytes r) (hindex : r.first ≤ index) :
    r.offset < index * path.config.partSize + path.config.partSize := by
  rw [h.first_eq, ← Nat.lt_succ_iff, Nat.div_lt_iff_lt_mul path.part_size_pos, Nat.succ_mul]
    at hindex
  exact hindex

theorem Fits.stop_le_next (h : path.Fits bytes r) (hindex : r.last < index) :
    r.stop ≤ index * path.config.partSize := by
  rw [h.last_eq, Nat.div_lt_iff_lt_mul path.part_size_pos] at hindex
  omega

theorem Fits.copyPart (h : path.Fits bytes r) (hmax : bytes.length ≤ u64Max)
    (hfirst : r.first ≤ index) (hlast : index ≤ r.last) :
    path.copyPart r.offset r.stop index (path.partOf bytes index) =
      some (.ok (bytes.extract (max r.offset (index * path.config.partSize))
        (min r.stop (index * path.config.partSize + path.config.partSize)))) := by
  have hlength := length_partOf path bytes index
  have hstart := h.index_mul_lt hlast
  have hnext := h.offset_lt_next hfirst
  have hoffset := h.offset_lt
  have hstop := h.stop_le
  have hpos := path.part_size_pos
  rw [UfsReadPath.copyPart, checkedMul_of_le (by omega), Option.bind_eq_bind, Option.bind_some,
    checkedAdd_of_le (by omega), Option.bind_some, checkedSub_of_le (by omega), Option.bind_some]
  have hend : min r.stop (index * path.config.partSize + (path.partOf bytes index).length) -
      index * path.config.partSize =
      min r.stop (index * path.config.partSize + path.config.partSize) -
        index * path.config.partSize := by omega
  rw [hend, if_neg (by omega), slice?, if_pos (by omega), Option.map_some, partOf,
    extract_extract _ (by omega)]
  congr 3
  · omega
  · omega

theorem assemble_cons {offset stop first position : Nat} {part data tail : Bytes}
    {parts : List Bytes} (hindex : first + position ≤ u64Max)
    (hcopy : path.copyPart offset stop (first + position) part = some (.ok data))
    (hrest : path.assemble offset stop first (position + 1) parts = some (.ok tail)) :
    path.assemble offset stop first position (part :: parts) = some (.ok (data ++ tail)) := by
  rw [UfsReadPath.assemble, checkedAdd_of_le hindex]
  simp only [Option.bind_eq_bind, Option.bind_some, hcopy, hrest, Except.map]

/-- From a part on, the loop yields what the range has from there on. -/
theorem Fits.assemble (h : path.Fits bytes r) (hmax : bytes.length ≤ u64Max) (n position : Nat)
    (hn : r.first + position + n = r.last + 1) :
    path.assemble r.offset r.stop r.first position
        ((List.range' (r.first + position) n).map (path.partOf bytes)) =
      some (.ok (bytes.extract (max r.offset ((r.first + position) * path.config.partSize))
        r.stop)) := by
  induction n generalizing position with
  | zero =>
    have hstop : r.stop ≤ (r.first + position) * path.config.partSize := h.stop_le_next (by omega)
    rw [List.range'_zero, List.map_nil, UfsReadPath.assemble, extract_of_le _ (by omega)]
  | succ n ih =>
    have hlast : r.first + position ≤ r.last := by omega
    have hstart := h.index_mul_lt hlast
    have hnext : r.offset < (r.first + position) * path.config.partSize + path.config.partSize :=
      h.offset_lt_next (by omega)
    have hoffset := h.offset_lt
    have hstop := h.stop_le
    have hindex : r.first + position ≤ u64Max := by
      have := Nat.le_mul_of_pos_right (r.first + position) path.part_size_pos
      omega
    have hrest := ih (position + 1) (by omega)
    rw [List.range'_succ, List.map_cons, Nat.add_assoc r.first position 1,
      assemble_cons hindex (h.copyPart hmax (by omega) hlast) hrest]
    have hmul : (r.first + (position + 1)) * path.config.partSize =
        (r.first + position) * path.config.partSize + path.config.partSize := by
      rw [← Nat.add_assoc, Nat.succ_mul]
    -- the part ends where the next one begins, or it is the last and ends with the range
    have htail : bytes.extract (max r.offset ((r.first + (position + 1)) * path.config.partSize))
        r.stop = bytes.extract
          (min r.stop ((r.first + position) * path.config.partSize + path.config.partSize))
            r.stop := by
      rw [hmul]
      by_cases hin : (r.first + position) * path.config.partSize + path.config.partSize ≤ r.stop
      · rw [Nat.min_eq_right hin, Nat.max_eq_right hnext.le]
      · rw [extract_of_le _ (by omega), extract_of_le _ (by omega)]
    rw [htail, extract_append_extract _ (by omega) (by omega)]

theorem Fits.whole (h : path.Fits bytes r) (hmax : bytes.length ≤ u64Max) :
    path.assemble r.offset r.stop r.first 0
        ((List.range' r.first (r.last + 1 - r.first)).map (path.partOf bytes)) =
      some (.ok (bytes.extract r.offset r.stop)) := by
  have hfirst : r.first * path.config.partSize ≤ r.offset := by
    rw [h.first_eq]
    exact Nat.div_mul_le_self ..
  have horder : r.first ≤ r.last := by
    rw [h.first_eq, h.last_eq]
    have := h.offset_lt
    exact Nat.div_le_div_right (by omega)
  have hwhole := h.assemble hmax (r.last + 1 - r.first) 0 (by omega)
  rw [Nat.add_zero, Nat.max_eq_left hfirst] at hwhole
  exact hwhole

/-- What is fetched ahead begins within the object. -/
theorem mul_lt_of_prefetched {object : UfsObject} {first : Nat}
    (h : index ∈ path.prefetched object first) : index * path.config.partSize < object.size := by
  rw [prefetched, List.mem_range'_1] at h
  have hpos := path.part_size_pos
  have hparts : index + 1 ≤ (object.size + path.config.partSize - 1) / path.config.partSize :=
    by omega
  rw [Nat.le_div_iff_mul_le hpos, Nat.succ_mul] at hparts
  omega

end

/-! ## Reads under a schedule -/

/-- The events that may happen around a read of a version: backends serve it as it is, and
tasks that use its keys know its size. -/
def Fair (rel etag : String) (bytes : Bytes) : ReadEvent → Prop
  | .own _ op => PinnedTo rel etag bytes op
  | .other rel' object _ op => PinnedTo rel etag bytes op ∧ SharesVersion rel etag bytes rel' object
  | .evict _ => True

/-- The parts that have arrived are the version's. -/
structure Arriving (path : UfsReadPath) (etag : String) (bytes : Bytes) (r : PartRead)
    (st : PartsArrived) : Prop where
  holds : path.Holds r.rel etag bytes st.cache
  length_eq : st.parts.length = r.last + 1 - r.first
  part_eq : ∀ (position : Nat) data, st.parts[position]? = some (some data) →
    data = path.partOf bytes (r.first + position)

/-- The object of a read is a version with these bytes. -/
structure Versioned (etag : String) (bytes : Bytes) (rel : String) (object : UfsObject) : Prop where
  rel_nul : '\x00' ∉ rel.toList
  etag_nul : '\x00' ∉ etag.toList
  etag_eq : object.etag = some etag
  size_eq : object.size = bytes.length
  size_le : object.size ≤ u64Max

section
variable {path : UfsReadPath} {etag : String} {bytes : Bytes} {r : PartRead} {st st' : PartsArrived}
  {cache : UfsPartCache} {event : ReadEvent} {schedule : List ReadEvent} {position : Nat}

theorem Versioned.shares {rel : String} {object : UfsObject}
    (hv : Versioned etag bytes rel object) :
    SharesVersion rel etag bytes rel object := fun _ _ => ⟨hv.etag_eq, hv.size_eq⟩

theorem arriving_start (hcache : path.Holds r.rel etag bytes cache) :
    path.Arriving etag bytes r (r.start cache) where
  holds := hcache
  length_eq := List.length_replicate
  part_eq := by
    intro position data h
    have hmem := List.mem_of_getElem? h
    cases List.eq_of_mem_replicate hmem

/-- No event panics, and what arrives is right. -/
theorem Arriving.step (h : path.Arriving etag bytes r st) (hfits : path.Fits bytes r)
    (hv : Versioned etag bytes r.rel r.object) (hfair : Fair r.rel etag bytes event) :
    ∃ st', path.arrive r st event = some st' ∧ path.Arriving etag bytes r st' := by
  cases event with
  | own position op =>
    rw [arrive]
    split
    · rename_i hfailed hnone
      have hposition : position < st.parts.length := (List.getElem?_eq_some_iff.mp hnone).1
      rw [h.length_eq] at hposition
      have hstop := hfits.stop_le
      have hindex : (r.first + position) * path.config.partSize ≤ r.object.size := by
        have hlt : (r.first + position) * path.config.partSize < r.stop :=
          hfits.index_mul_lt (by omega)
        rw [hv.size_eq]
        omega
      obtain ⟨result, cache', hget⟩ := getPart_total hv.size_le hindex op r.rel
        (versionToken r.object) st.cache
      have hholds := h.holds.getPart hv.rel_nul hv.etag_nul hfair hv.shares hget
      rw [hget, Option.bind_eq_bind, Option.bind_some]
      cases result with
      | error e => exact ⟨_, rfl, hholds, h.length_eq, h.part_eq⟩
      | ok data =>
        refine ⟨_, rfl, hholds, ?_, fun position' data' hpart => ?_⟩
        · rw [List.length_set, h.length_eq]
        · rw [List.getElem?_set] at hpart
          split at hpart
          · rename_i heq
            subst heq
            split at hpart
            · cases hpart
              exact h.holds.part hfair hv.etag_eq hv.size_eq hget
            · cases hpart
          · exact h.part_eq position' data' hpart
    · exact ⟨st, rfl, h⟩
  | other rel' object index op =>
    rw [arrive]
    split
    · exact ⟨st, rfl, h⟩
    · rename_i result cache' hget
      refine ⟨_, rfl, ?_, h.length_eq, h.part_eq⟩
      exact h.holds.getPart hv.rel_nul hv.etag_nul hfair.1 hfair.2 hget
  | evict key => exact ⟨_, rfl, h.holds.evict key, h.length_eq, h.part_eq⟩

theorem Arriving.run (h : path.Arriving etag bytes r st) (hfits : path.Fits bytes r)
    (hv : Versioned etag bytes r.rel r.object)
    (hfair : ∀ event ∈ schedule, Fair r.rel etag bytes event) :
    ∃ st', exec (path.arrive r) st schedule = some st' ∧ path.Arriving etag bytes r st' := by
  induction schedule generalizing st with
  | nil => exact ⟨st, rfl, h⟩
  | cons event schedule ih =>
    obtain ⟨hevent, hschedule⟩ := List.forall_mem_cons.mp hfair
    obtain ⟨mid, hmid, hinv⟩ := h.step hfits hv hevent
    obtain ⟨st', hrun, hinv'⟩ := ih hinv hschedule
    refine ⟨st', ?_, hinv'⟩
    rw [exec_cons, hmid]
    exact hrun

/-- A position is settled when its part is there or the read has failed. -/
def Settled (position : Nat) (st : PartsArrived) : Prop :=
  st.failed ≠ none ∨ ∃ data, st.parts[position]? = some (some data)

theorem Settled.step (h : Settled position st) (hstep : path.arrive r st event = some st') :
    Settled position st' := by
  cases event with
  | own position' op =>
    rw [arrive] at hstep
    split at hstep
    · rename_i hfailed hnone
      rw [Option.bind_eq_bind, Option.bind_eq_some_iff] at hstep
      obtain ⟨⟨result, cache'⟩, -, hstep⟩ := hstep
      cases result with
      | error e =>
        cases hstep
        exact .inl (Option.some_ne_none e)
      | ok data =>
        cases hstep
        obtain hfail | ⟨data', hdata⟩ := h
        · exact absurd hfailed hfail
        · have hne : position' ≠ position := by
            rintro rfl
            rw [hnone] at hdata
            cases hdata
          exact .inr ⟨data', (List.getElem?_set_ne hne).trans hdata⟩
    · cases hstep
      exact h
  | other rel' object index op =>
    rw [arrive] at hstep
    split at hstep
    · cases hstep
      exact h
    · cases hstep
      exact h
  | evict key =>
    cases hstep
    exact h

theorem settled_own {op : Backend} (hposition : position < st.parts.length)
    (hstep : path.arrive r st (.own position op) = some st') : Settled position st' := by
  rw [arrive] at hstep
  split at hstep
  · rw [Option.bind_eq_bind, Option.bind_eq_some_iff] at hstep
    obtain ⟨⟨result, cache'⟩, -, hstep⟩ := hstep
    cases result with
    | error e =>
      cases hstep
      exact .inl (Option.some_ne_none e)
    | ok data =>
      cases hstep
      exact .inr ⟨data, List.getElem?_set_self hposition⟩
  · rename_i hcase
    cases hstep
    by_contra hnot
    obtain ⟨hfailed, hpart⟩ := not_or.mp hnot
    refine hcase (not_not.mp hfailed) ?_
    cases hslot : st.parts[position]? with
    | none => exact absurd (List.getElem?_eq_none_iff.mp hslot) (by omega)
    | some part =>
      cases part with
      | none => rfl
      | some data => exact absurd ⟨data, hslot⟩ hpart

theorem Settled.run (h : Settled position st) (hrun : exec (path.arrive r) st schedule = some st') :
    Settled position st' :=
  exec_invariant (fun _ _ _ h hstep => Settled.step h hstep) schedule st st' h hrun

theorem Arriving.settled (h : path.Arriving etag bytes r st) (hfits : path.Fits bytes r)
    (hv : Versioned etag bytes r.rel r.object)
    (hfair : ∀ event ∈ schedule, Fair r.rel etag bytes event)
    {op : Backend} (hmem : .own position op ∈ schedule)
    (hposition : position < r.last + 1 - r.first)
    (hrun : exec (path.arrive r) st schedule = some st') : Settled position st' := by
  obtain ⟨before, after, rfl⟩ := List.append_of_mem hmem
  obtain ⟨mid, hmid, hinv⟩ := h.run hfits hv fun event he => hfair event (List.mem_append_left _ he)
  rw [exec_append, hmid, Option.bind_some] at hrun
  obtain ⟨next, hown, hrest⟩ := exec_cons_some hrun
  exact (settled_own (hinv.length_eq ▸ hposition) hown).run hrest

/-- Once all parts are there, they are the parts of the version. -/
theorem Arriving.parts_eq (h : path.Arriving etag bytes r st) (hall : st.parts.all Option.isSome) :
    st.parts = ((List.range' r.first (r.last + 1 - r.first)).map (path.partOf bytes)).map some := by
  apply List.ext_getElem?
  intro position
  rw [List.map_map, List.getElem?_map]
  by_cases hposition : position < r.last + 1 - r.first
  · rw [List.getElem?_range' hposition, Option.map_some]
    have hlt : position < st.parts.length := h.length_eq ▸ hposition
    have hslot := List.getElem?_eq_getElem hlt
    have hsome := List.all_eq_true.mp hall _ (List.getElem_mem hlt)
    obtain ⟨data, hdata⟩ := Option.isSome_iff_exists.mp hsome
    rw [hdata] at hslot
    rw [hslot, h.part_eq position data hslot, Nat.one_mul]
    rfl
  · rw [List.getElem?_eq_none (by rw [h.length_eq]; omega),
      List.getElem?_eq_none (by rw [List.length_range']; omega), Option.map_none]

theorem Arriving.answer (h : path.Arriving etag bytes r st) (hfits : path.Fits bytes r)
    (hmax : bytes.length ≤ u64Max) :
    ∃ result, path.answer r st = some result ∧
      (∀ data ahead, result = .done data ahead →
        data = bytes.extract r.offset r.stop ∧ ahead = path.prefetched r.object (r.last + 1)) ∧
      ((∀ position < r.last + 1 - r.first, Settled position st) → result ≠ .waiting) := by
  rw [UfsReadPath.answer]
  cases hfailed : st.failed with
  | some e => exact ⟨_, rfl, nofun, fun _ => nofun⟩
  | none =>
    dsimp only
    split
    · rename_i hall
      have hlast : r.last + 1 ≤ u64Max := by
        have hlt := hfits.index_mul_lt (le_refl r.last)
        have hle := Nat.le_mul_of_pos_right r.last path.part_size_pos
        have hstop := hfits.stop_le
        omega
      have hparts : st.parts.reduceOption =
          (List.range' r.first (r.last + 1 - r.first)).map (path.partOf bytes) := by
        rw [h.parts_eq hall, List.reduceOption, List.filterMap_map]
        exact List.filterMap_some
      rw [hparts, hfits.whole hmax]
      simp only [Option.bind_eq_bind, Option.bind_some, checkedAdd_of_le hlast]
      refine ⟨_, rfl, fun data ahead heq => ?_, fun _ => nofun⟩
      cases heq
      exact ⟨rfl, rfl⟩
    · rename_i hnot
      refine ⟨_, rfl, nofun, fun hsettled => absurd ?_ hnot⟩
      rw [List.all_eq_true]
      intro part hpart
      obtain ⟨position, hposition, rfl⟩ := List.getElem_of_mem hpart
      obtain hfail | ⟨data, hdata⟩ := hsettled position (h.length_eq ▸ hposition)
      · exact absurd hfailed hfail
      · rw [List.getElem?_eq_getElem hposition] at hdata
        rw [Option.some.inj hdata]
        rfl

end

/-! ## The range that is read -/

section
variable {path : UfsReadPath} {rel etag : String} {object : UfsObject} {bytes : Bytes}
  {offset len : Nat}

theorem plan_none (h : len = 0 ∨ offset ≥ object.size) : path.plan rel object offset len =
    some none :=
  if_pos h

theorem plan_some (path : UfsReadPath) (h : ¬ (len = 0 ∨ offset ≥ object.size))
    (hv : Versioned etag bytes rel object) :
    ∃ r, path.plan rel object offset len = some (some r) ∧ path.Fits bytes r ∧ r.rel = rel ∧
      r.object = object ∧ r.offset = offset ∧ r.stop = min (offset + len) object.size := by
  have hstop : min (saturatingAdd offset len) object.size = min (offset + len) object.size := by
    have := hv.size_le
    unfold saturatingAdd
    omega
  rw [plan, if_neg h]
  dsimp only
  rw [checkedSub_of_le (by omega), Option.bind_eq_bind, Option.bind_some, hstop]
  refine ⟨_, rfl, ⟨?_, ?_, rfl, rfl⟩, rfl, rfl, rfl, rfl⟩
  · dsimp only
    omega
  · dsimp only
    rw [← hv.size_eq]
    omega

/-- A read of a version never panics and keeps the cached parts of the version right. If it
returns, it returns the bytes of the range, and what it fetches ahead keeps the cache right as
well; and it does not wait for ever if each of its parts arrives. -/
theorem read_range_exact (path : UfsReadPath) (rel etag : String) (object : UfsObject)
    (bytes : Bytes) (offset len : Nat) (cache : UfsPartCache) (schedule : List ReadEvent)
    (hv : Versioned etag bytes rel object) (hcache : path.Holds rel etag bytes cache)
    (hfair : ∀ event ∈ schedule, Fair rel etag bytes event) :
    ∃ result cache', path.read rel object offset len schedule cache = some (result, cache') ∧
      path.Holds rel etag bytes cache' ∧
      (∀ data ahead, result = .done data ahead →
        data = bytes.extract offset (min (offset + len) object.size) ∧
        ∀ index ∈ ahead, ∀ op, PinnedTo rel etag bytes op →
          ∀ before, path.Holds rel etag bytes before →
          ∃ part after, path.getPart op rel (versionToken object) object index before =
            some (part, after) ∧ path.Holds rel etag bytes after) ∧
      ((∀ r, path.plan rel object offset len = some (some r) →
        ∀ position < r.last + 1 - r.first, ∃ op, .own position op ∈ schedule) →
        result ≠ .waiting) := by
  rw [read]
  by_cases hnothing : len = 0 ∨ offset ≥ object.size
  · rw [plan_none hnothing, Option.bind_eq_bind, Option.bind_some]
    refine ⟨_, _, rfl, hcache, fun data ahead heq => ?_, fun _ => nofun⟩
    cases heq
    rw [extract_of_le _ (by omega)]
    exact ⟨rfl, nofun⟩
  · obtain ⟨r, hplan, hfits, rfl, rfl, rfl, hstop⟩ := plan_some path hnothing hv
    have hmax : bytes.length ≤ u64Max := hv.size_eq ▸ hv.size_le
    obtain ⟨st, hrun, hinv⟩ := (arriving_start hcache).run hfits hv hfair
    obtain ⟨result, hanswer, hdone, hsettled⟩ := hinv.answer hfits hmax
    rw [hplan]
    simp only [Option.bind_eq_bind, Option.bind_some, hrun, hanswer]
    refine ⟨result, st.cache, rfl, hinv.holds, fun data ahead heq => ?_, fun harrive => hsettled ?_⟩
    · obtain ⟨hdata, hahead⟩ := hdone data ahead heq
      rw [← hstop]
      refine ⟨hdata, fun index hindex op hop before hbefore => ?_⟩
      rw [hahead] at hindex
      have hlt := mul_lt_of_prefetched hindex
      obtain ⟨part, after, hget⟩ := getPart_total hv.size_le hlt.le op r.rel
        (versionToken r.object) before
      exact ⟨part, after, hget, hbefore.getPart hv.rel_nul hv.etag_nul hop hv.shares hget⟩
    · intro position hposition
      obtain ⟨op, hmem⟩ := harrive r rfl position hposition
      exact (arriving_start hcache).settled hfits hv hfair hmem hposition hrun

end

/-- A path with parts of four bytes that fetches one part ahead. -/
def fours : UfsReadPath := ⟨⟨4, 16, 1⟩, by decide⟩

/-- Ten bytes. -/
def tenBytes : Bytes := [0, 1, 2, 3, 4, 5, 6, 7, 8, 9]

/-- Their object. -/
def tenObject : UfsObject := ⟨"obj", 10, some "v1", none⟩

/-- A backend that serves ten bytes. -/
def tenBackend : Backend := fun _ start stop _ => .ok (tenBytes.extract start stop)

theorem read_range_exact_ten :
    ∃ cache', fours.read "obj" tenObject 2 5 [.own 1 tenBackend, .evict "x", .own 0 tenBackend] ∅ =
        some (.done [2, 3, 4, 5, 6] [2], cache') ∧ fours.Holds "obj" "v1" tenBytes cache' := by
  have hop : PinnedTo "obj" "v1" tenBytes tenBackend := by
    intro start stop data h
    cases h
    exact List.prefix_rfl
  obtain ⟨result, cache', hread, hholds, -, -⟩ := read_range_exact fours "obj" "v1" tenObject
    tenBytes 2 5 ∅ [.own 1 tenBackend, .evict "x", .own 0 tenBackend]
    ⟨by decide, by decide, rfl, rfl, by decide⟩ (by intro index data h; cases h)
      (by simp [Fair, hop])
  have hresult : (fours.read "obj" tenObject 2 5
      [.own 1 tenBackend, .evict "x", .own 0 tenBackend] ∅).map Prod.fst =
        some (.done [2, 3, 4, 5, 6] [2]) := by decide +kernel
  rw [hread] at hresult
  cases hresult
  exact ⟨cache', hread, hholds⟩

end UfsReadPath

end FluxFS
