import FluxFS.Chunk.Pack

/-!
# PackRefines — the pack store as a map from chunk ids to bytes

`Tracks hash s m` relates a store to the map `m` it stands for: every index
row points at an intact record of `m`'s bytes, in a segment no later than the
active one, and an id without a row is unmapped. Put, delete, compact and
reopen keep it, with one exception: `open` starts both counters at one, so
the first roll of a fresh store picks the active segment itself as the next
one and truncates it (`SelfRoll`).
-/

namespace FluxFS
namespace PackStore

open Std Kit

variable {hash : Bytes → ChunkId} {roll : Nat}
variable {s : PackStore}

/-! ## Records -/

/-- The entry points at a whole record of `data`. -/
def Intact (hash : Bytes → ChunkId) (s : PackStore) (entry : IndexEntry) (data : Bytes) : Prop :=
  ∃ before after, s.segments[entry.segment]? = some (before ++ record (hash data) data ++ after) ∧
    entry.offset = before.length ∧ entry.len = data.length ∧ data.length ≤ u32Max

theorem header_length (id : ChunkId) (data : Bytes) :
    (toLeBytes 4 recordMagic ++ toLeBytes 4 data.length ++ id.bytes).length = headerLen := by
  have hid : id.bytes.length = 32 := id.length_eq
  simp [headerLen, hid]

/-- The header of a record, wherever the record starts. -/
theorem take_header (before after : Bytes) (id : ChunkId) (data : Bytes) :
    ((before ++ record id data ++ after).drop before.length).take headerLen =
      toLeBytes 4 recordMagic ++ toLeBytes 4 data.length ++ id.bytes := by
  rw [List.append_assoc, List.drop_left, record, List.append_assoc _ data after,
    List.take_left' (header_length id data)]

theorem take_payload (before after : Bytes) (id : ChunkId) (data : Bytes) :
    ((before ++ record id data ++ after).drop (before.length + headerLen)).take data.length =
      data := by
  rw [← List.drop_drop, List.append_assoc, List.drop_left, record, List.append_assoc _ data after,
    List.drop_left' (header_length id data), List.take_left]

theorem readRecord_of_intact {entry : IndexEntry} {data : Bytes} (h : Intact hash s entry data) :
    readRecord hash s entry = .ok data := by
  obtain ⟨before, after, hfile, hoffset, hlen, hmax⟩ := h
  have hid : (hash data).bytes.length = 32 := (hash data).length_eq
  have hmagic : fromLeBytes (toLeBytes 4 recordMagic) = recordMagic :=
    fromLeBytes_toLeBytes (by decide)
  have hfit : fromLeBytes (toLeBytes 4 data.length) = data.length :=
    fromLeBytes_toLeBytes (by simp only [u32Max] at hmax; omega)
  simp only [readRecord, hfile, hoffset, take_header]
  -- the three header fields are read back from the header alone
  have htake : (toLeBytes 4 recordMagic ++ toLeBytes 4 data.length ++ (hash data).bytes).take 4
      = toLeBytes 4 recordMagic := by
    rw [List.append_assoc, List.take_left' (length_toLeBytes ..)]
  have hmid : ((toLeBytes 4 recordMagic ++ toLeBytes 4 data.length ++ (hash data).bytes).drop
      4).take 4 = toLeBytes 4 data.length := by
    rw [List.append_assoc, List.drop_left' (length_toLeBytes ..),
      List.take_left' (length_toLeBytes ..)]
  have hdrop : (toLeBytes 4 recordMagic ++ toLeBytes 4 data.length ++ (hash data).bytes).drop 8
      = (hash data).bytes := by
    rw [List.drop_left' (by simp)]
  rw [htake, hmid, hdrop, hmagic, hfit, take_payload]
  simp [hlen, hid, headerLen]

theorem Intact.of_segment_eq {t : PackStore} {entry : IndexEntry} {data : Bytes}
    (h : Intact hash s entry data) (heq : t.segments[entry.segment]? = s.segments[entry.segment]?) :
    Intact hash t entry data := by
  obtain ⟨before, after, hfile, hrest⟩ := h
  exact ⟨before, after, heq.trans hfile, hrest⟩

theorem Intact.appendSegment {entry : IndexEntry} {data : Bytes} (h : Intact hash s entry data)
    (segment : Nat) (bytes : Bytes) : Intact hash (s.appendSegment segment bytes) entry data := by
  obtain ⟨before, after, hfile, hrest⟩ := h
  by_cases hseg : segment = entry.segment
  · refine ⟨before, after ++ bytes, ?_, hrest⟩
    simp [PackStore.appendSegment, hseg, hfile]
  · refine ⟨before, after, ?_, hrest⟩
    simp [PackStore.appendSegment, Table.get_insert, hseg, hfile]

/-- The record just appended is intact at the old end of the file. -/
theorem intact_appended (s : PackStore) (segment : Nat) {data : Bytes}
    (hmax : data.length ≤ u32Max) :
    Intact hash (s.appendSegment segment (record (hash data) data))
      ⟨segment, s.segmentLen segment, data.length⟩ data := by
  refine ⟨s.segments[segment]?.getD [], [], ?_, rfl, rfl, hmax⟩
  simp [PackStore.appendSegment]

/-! ## The map a store stands for -/

/-- The persisted counters, and what they say about the index. -/
structure Counters (s : PackStore) (active nextSeg : Nat) : Prop where
  active_eq : s.activeSegment = some active
  next_eq : s.nextSegment = some nextSeg
  le_next : active ≤ nextSeg
  next_le : nextSeg ≤ u64Max
  segment_le : ∀ (id : ChunkId) (entry : IndexEntry), s.index[id]? = some entry →
    entry.segment ≤ active

/-- `s` stands for the map `m`. -/
structure Tracks (hash : Bytes → ChunkId) (s : PackStore) (m : ChunkId → Option Bytes) :
    Prop where
  counters : ∃ active nextSeg, Counters s active nextSeg
  intact : ∀ (id : ChunkId) (entry : IndexEntry), s.index[id]? = some entry →
    ∃ data, m id = some data ∧ hash data = id ∧ Intact hash s entry data
  absent : ∀ id : ChunkId, s.index[id]? = none → m id = none

theorem tracks_open_emptyDir : Tracks hash (openStore emptyDir) (fun _ => none) where
  counters := by
    refine ⟨1, 1, rfl, rfl, le_rfl, by decide, ?_⟩
    intro id entry h
    simp [openStore, emptyDir] at h
  intact := by
    intro id entry h
    simp [openStore, emptyDir] at h
  absent := fun _ _ => rfl

namespace Tracks
variable {s : PackStore} {m : ChunkId → Option Bytes}

theorem getIfValidUnlocked_eq (h : Tracks hash s m) (id : ChunkId) :
    getIfValidUnlocked hash s id = m id := by
  unfold getIfValidUnlocked
  cases hid : s.index[id]? with
  | none => exact (h.absent id hid).symm
  | some entry =>
    obtain ⟨data, hm, hhash, hintact⟩ := h.intact id entry hid
    simp [readRecord_of_intact hintact, hhash, hm]

theorem get_eq (h : Tracks hash s m) (id : ChunkId) :
    get hash s id = match m id with
      | some data => .ok data
      | none => .error .notFound := by
  unfold get
  cases hm : m id with
  | none => simp only [h.getIfValidUnlocked_eq, hm]
  | some data => simp only [h.getIfValidUnlocked_eq, hm]

theorem hash_of_mapped (h : Tracks hash s m) {id : ChunkId} {data : Bytes}
    (hm : m id = some data) : hash data = id := by
  cases hid : s.index[id]? with
  | none => simp [h.absent id hid] at hm
  | some entry =>
    obtain ⟨data', hm', hhash, -⟩ := h.intact id entry hid
    have hdata : data' = data := Option.some.inj (hm'.symm.trans hm)
    rwa [hdata] at hhash

/-- Only the files that index rows point at matter. -/
theorem of_files (h : Tracks hash s m) {files : Table Nat Bytes}
    (hfiles : ∀ (id : ChunkId) (entry : IndexEntry), s.index[id]? = some entry →
      files[entry.segment]? = s.segments[entry.segment]?) :
    Tracks hash { s with segments := files } m where
  counters := by
    obtain ⟨active, nextSeg, hc⟩ := h.counters
    exact ⟨active, nextSeg, ⟨hc.active_eq, hc.next_eq, hc.le_next, hc.next_le, hc.segment_le⟩⟩
  intact := by
    intro id entry hid
    obtain ⟨data, hm, hhash, hintact⟩ := h.intact id entry hid
    exact ⟨data, hm, hhash, hintact.of_segment_eq (hfiles id entry hid)⟩
  absent := h.absent

/-- An indexed entry's segment file exists. -/
theorem segment_exists (h : Tracks hash s m) {id : ChunkId} {entry : IndexEntry}
    (hid : s.index[id]? = some entry) : s.segments[entry.segment]? ≠ none := by
  obtain ⟨_, -, -, before, after, hfile, -⟩ := h.intact id entry hid
  simp [hfile]

theorem createSegment (h : Tracks hash s m) {segment : Nat}
    (hfree : ∀ (id : ChunkId) (entry : IndexEntry), s.index[id]? = some entry →
      entry.segment ≠ segment) :
    Tracks hash (s.createSegment segment) m := by
  refine h.of_files (fun id entry hid => ?_)
  rw [Table.get_insert, if_neg (hfree id entry hid).symm]

theorem createIfMissing (h : Tracks hash s m) (segment : Nat) :
    Tracks hash (s.createIfMissing segment) m := by
  unfold PackStore.createIfMissing
  split
  · rename_i hmissing
    refine h.createSegment (fun id entry hid heq => ?_)
    exact h.segment_exists hid (heq ▸ hmissing)
  · exact h

theorem appendSegment (h : Tracks hash s m) (segment : Nat) (bytes : Bytes) :
    Tracks hash (s.appendSegment segment bytes) m where
  counters := by
    obtain ⟨active, nextSeg, hc⟩ := h.counters
    exact ⟨active, nextSeg, ⟨hc.active_eq, hc.next_eq, hc.le_next, hc.next_le, hc.segment_le⟩⟩
  intact := by
    intro id entry hid
    obtain ⟨data, hm, hhash, hintact⟩ := h.intact id entry hid
    exact ⟨data, hm, hhash, hintact.appendSegment segment bytes⟩
  absent := h.absent

end Tracks

/-! ## Put -/

/-- A put that rolls a full active segment onto itself: the two counters agree
and chunks are stored. -/
def SelfRoll (hash : Bytes → ChunkId) (roll : Nat) (s : PackStore) (data : Bytes) : Prop :=
  getIfValidUnlocked hash s (hash data) ≠ some data ∧ s.activeSegment = s.nextSegment ∧
    roll ≤ s.segmentLen (s.activeSegment.getD 0) ∧ s.index.isEmpty = false

instance (s : PackStore) (data : Bytes) : Decidable (SelfRoll hash roll s data) := by
  unfold SelfRoll
  infer_instance

theorem segmentLen_createIfMissing (s : PackStore) (segment : Nat) :
    (s.createIfMissing segment).segmentLen segment = s.segmentLen segment := by
  unfold createIfMissing
  split
  · rename_i hmissing
    simp [createSegment, segmentLen, hmissing]
  · rfl

theorem chooseSegment_run (roll active nextSeg : Nat) (s : PackStore) :
    chooseSegment roll active nextSeg s =
      if roll ≤ s.segmentLen active then
        (.ok (nextSeg, saturatingAdd nextSeg 1), (s.createIfMissing active).createSegment nextSeg)
      else (.ok (active, nextSeg), s.createIfMissing active) := by
  unfold chooseSegment
  rw [Txn.modify_bind_run, Txn.reads_bind_run, segmentLen_createIfMissing]
  by_cases hroll : roll ≤ s.segmentLen active
  · rw [if_pos hroll, if_pos hroll]
    rfl
  · rw [if_neg hroll, if_neg hroll]
    rfl

theorem index_createIfMissing (s : PackStore) (segment : Nat) :
    (s.createIfMissing segment).index = s.index := by
  unfold createIfMissing
  split <;> rfl

namespace Tracks
variable {s : PackStore} {m : ChunkId → Option Bytes}

/-- Unless it rolls onto itself, choosing a segment loses no record; the chosen
segment comes after every indexed one. -/
theorem chooseSegment (h : Tracks hash s m) {active nextSeg : Nat} (hc : Counters s active nextSeg)
    {data : Bytes} (hnew : getIfValidUnlocked hash s (hash data) ≠ some data)
    (hself : ¬ SelfRoll hash roll s data) :
    ∃ active' nextSeg' t, PackStore.chooseSegment roll active nextSeg s =
        (.ok (active', nextSeg'), t) ∧
      Tracks hash t m ∧ active' ≤ nextSeg' ∧ nextSeg' ≤ u64Max ∧
      ∀ (id : ChunkId) (entry : IndexEntry), t.index[id]? = some entry →
        entry.segment ≤ active' := by
  rw [chooseSegment_run]
  have hcreated := h.createIfMissing active
  have hindex := index_createIfMissing s active
  by_cases hroll : roll ≤ s.segmentLen active
  · -- the next segment is not the active one, or nothing is indexed yet
    have hfree : ∀ (id : ChunkId) (entry : IndexEntry), s.index[id]? = some entry →
        entry.segment ≠ nextSeg := by
      intro id entry hid heq
      have hle := hc.segment_le id entry hid
      have hsame : active = nextSeg := Nat.le_antisymm hc.le_next (heq ▸ hle)
      refine hself ⟨hnew, ?_, ?_, ?_⟩
      · rw [hc.active_eq, hc.next_eq, hsame]
      · simpa [hc.active_eq] using hroll
      · by_contra hempty
        rw [Bool.not_eq_false, ExtTreeMap.isEmpty_iff] at hempty
        simp [hempty] at hid
    rw [if_pos hroll]
    refine ⟨_, _, _, rfl, ?_, le_saturatingAdd hc.next_le, saturatingAdd_le_max .., ?_⟩
    · refine hcreated.createSegment (fun id entry hid => ?_)
      rw [hindex] at hid
      exact hfree id entry hid
    · intro id entry hid
      change (s.createIfMissing active).index[id]? = some entry at hid
      rw [hindex] at hid
      exact (hc.segment_le id entry hid).trans hc.le_next
  · rw [if_neg hroll]
    refine ⟨_, _, _, rfl, hcreated, hc.le_next, hc.next_le, ?_⟩
    rw [hindex]
    exact hc.segment_le

/-- Indexing the record just appended maps its id to its bytes. -/
theorem indexAppended (h : Tracks hash s m) {active nextSeg : Nat} (hle : active ≤ nextSeg)
    (hmax : nextSeg ≤ u64Max)
    (hsegment : ∀ (id : ChunkId) (entry : IndexEntry), s.index[id]? = some entry →
      entry.segment ≤ active)
    {data : Bytes} (hfit : data.length ≤ u32Max) :
    let t := s.appendSegment active (record (hash data) data)
    Tracks hash
      { t with
        index := t.index.insert (hash data) ⟨active, s.segmentLen active, data.length⟩
        activeSegment := some active
        nextSegment := some nextSeg }
      (Function.update m (hash data) (some data)) := by
  intro t
  refine ⟨⟨active, nextSeg, rfl, rfl, hle, hmax, ?_⟩, ?_, ?_⟩
  · intro id entry hid
    simp only [Table.get_insert] at hid
    split at hid
    · cases hid
      exact le_rfl
    · exact hsegment id entry hid
  · intro id entry hid
    simp only [Table.get_insert] at hid
    split at hid
    · rename_i hsame
      cases hid
      subst hsame
      exact ⟨data, Function.update_self .., rfl, intact_appended s active hfit⟩
    · rename_i hne
      obtain ⟨old, hm, hhash, hintact⟩ := h.intact id entry hid
      refine ⟨old, ?_, hhash, hintact.appendSegment active _⟩
      rw [Function.update_of_ne (Ne.symm hne), hm]
  · intro id hid
    simp only [Table.get_insert] at hid
    split at hid
    · cases hid
    · rename_i hne
      rw [Function.update_of_ne (Ne.symm hne)]
      exact h.absent id hid

/-- A put stores its bytes or fails without changing the map. -/
theorem put (h : Tracks hash s m) {data : Bytes} (hself : ¬ SelfRoll hash roll s data)
    {r : Except FluxError ChunkId} {t : PackStore} (hrun : put hash roll data s = (r, t)) :
    (r = .ok (hash data) ∧ Tracks hash t (Function.update m (hash data) (some data))) ∨
      (∃ e, r = .error e ∧ Tracks hash t m) := by
  unfold PackStore.put putLocked at hrun
  rw [Txn.reads_bind_run] at hrun
  by_cases hdup : getIfValidUnlocked hash s (hash data) = some data
  · rw [if_pos hdup] at hrun
    obtain ⟨rfl, rfl⟩ := Prod.mk.inj hrun
    have hm : m (hash data) = some data := (h.getIfValidUnlocked_eq _).symm.trans hdup
    rw [← hm, Function.update_eq_self]
    exact .inl ⟨rfl, h⟩
  · rw [if_neg hdup] at hrun
    obtain ⟨active, nextSeg, hc⟩ := h.counters
    simp only [readU64Meta, Txn.query_bind_run, hc.active_eq, hc.next_eq] at hrun
    obtain ⟨active', nextSeg', u, hchoose, hu, hle, hmax, hsegment⟩ :=
      h.chooseSegment hc hdup hself
    rw [Txn.bind_of_ok hchoose] at hrun
    simp only [Txn.reads_bind_run, Txn.failIf_bind_run] at hrun
    by_cases hbig : data.length > u32Max
    · rw [if_pos hbig] at hrun
      obtain ⟨rfl, rfl⟩ := Prod.mk.inj hrun
      exact .inr ⟨_, rfl, hu⟩
    · rw [if_neg hbig] at hrun
      obtain ⟨rfl, rfl⟩ := Prod.mk.inj hrun
      exact .inl ⟨rfl, hu.indexAppended hle hmax hsegment (Nat.le_of_not_lt hbig)⟩

/-! ## Delete and reopen -/

theorem delete (h : Tracks hash s m) (id : ChunkId) :
    Tracks hash { s with index := s.index.erase id } (Function.update m id none) := by
  obtain ⟨active, nextSeg, hc⟩ := h.counters
  refine ⟨⟨active, nextSeg, hc.active_eq, hc.next_eq, hc.le_next, hc.next_le, ?_⟩, ?_, ?_⟩
  · intro a entry ha
    simp only [Table.get_erase] at ha
    split at ha
    · cases ha
    · exact hc.segment_le a entry ha
  · intro a entry ha
    simp only [Table.get_erase] at ha
    split at ha
    · cases ha
    · rename_i hne
      rw [Function.update_of_ne (Ne.symm hne)]
      exact h.intact a entry ha
  · intro a ha
    simp only [Table.get_erase] at ha
    split at ha
    · rename_i hsame
      rw [hsame, Function.update_self]
    · rename_i hne
      rw [Function.update_of_ne (Ne.symm hne)]
      exact h.absent a ha

theorem openStore_eq (h : Tracks hash s m) : openStore s = s := by
  obtain ⟨active, nextSeg, hc⟩ := h.counters
  simp [openStore, hc.next_eq]

end Tracks

/-! ## Compaction -/

/-- The search ends at a number in range that no file uses. -/
theorem findFree_spec {fuel start target : Nat} (hstart : start ≤ u64Max)
    (h : findFree s fuel start = some target) :
    start ≤ target ∧ s.segments[target]? = none ∧ target ≤ u64Max := by
  induction fuel generalizing start with
  | zero => cases h
  | succ fuel ih =>
    rw [findFree] at h
    split at h
    · cases h
      exact ⟨Nat.le_refl _, by assumption, hstart⟩
    · obtain ⟨hge, hfree, hmax⟩ := ih (saturatingAdd_le_max ..) h
      exact ⟨(le_saturatingAdd hstart).trans hge, hfree, hmax⟩

theorem mem_segments_keys {n : Nat} : n ∈ s.segments.keys ↔ s.segments[n]? ≠ none := by
  rw [ExtTreeMap.mem_keys, ExtTreeMap.mem_iff_isSome_getElem?, Option.isSome_iff_ne_none]

/-- A search that gives up has seen only taken numbers. -/
theorem taken_of_findFree_none {fuel start n : Nat} (h : findFree s fuel start = none)
    (hn : n ∈ List.range' start fuel) (hmax : n ≤ u64Max) : n ∈ s.segments.keys := by
  induction fuel generalizing start with
  | zero => simp at hn
  | succ fuel ih =>
    rw [findFree] at h
    split at h
    · cases h
    · rename_i htaken
      rw [List.range'_succ, List.mem_cons] at hn
      rcases hn with rfl | hn
      · exact mem_segments_keys.mpr htaken
      · have hlater := (List.mem_range'_1.mp hn).1
        rw [saturatingAdd_of_lt (by omega)] at h
        exact ih h hn

/-- Some segment number from `start` on is not taken. -/
def HasRoom (s : PackStore) (start : Nat) : Prop :=
  ∃ n, start ≤ n ∧ n ≤ u64Max ∧ s.segments[n]? = none

/-- Of one number more than there are files, one is not taken. -/
theorem exists_free (s : PackStore) (start : Nat) :
    ∃ n ∈ List.range' start (s.segments.size + 1), s.segments[n]? = none := by
  by_contra hfull
  have hsub : (List.range' start (s.segments.size + 1)).Subperm s.segments.keys :=
    List.Nodup.subperm List.nodup_range' fun n hn =>
      mem_segments_keys.mpr fun hfree => hfull ⟨n, hn, hfree⟩
  have hle := hsub.length_le
  simp at hle

/-- The search finds a number exactly if one is left. -/
theorem findFree_isSome_iff {start : Nat} (hstart : start ≤ u64Max) :
    (findFree s (s.segments.size + 1) start).isSome ↔ s.HasRoom start := by
  constructor
  · intro h
    obtain ⟨target, htarget⟩ := Option.isSome_iff_exists.mp h
    obtain ⟨hge, hfree, hmax⟩ := findFree_spec hstart htarget
    exact ⟨target, hge, hmax, hfree⟩
  · rintro ⟨n, hge, hmax, hfree⟩
    rw [Option.isSome_iff_ne_none]
    intro hnone
    have htaken : ∀ k ∈ List.range' start (s.segments.size + 1), k ≤ n → s.segments[k]? ≠ none :=
      fun k hk hkn => mem_segments_keys.mp (taken_of_findFree_none hnone hk (hkn.trans hmax))
    -- the probes do not get to `n`, but one of them is free
    obtain ⟨k, hk, hfreek⟩ := exists_free s start
    have hkn : n < k := Nat.lt_of_not_le fun hle => htaken k hk hle hfreek
    have hlast := (List.mem_range'_1.mp hk).2
    exact htaken n (List.mem_range'_1.mpr ⟨hge, by omega⟩) (Nat.le_refl n) hfree

theorem hasRoom_of_lt {start : Nat} (h : start + s.segments.size < u64Max) : s.HasRoom start := by
  obtain ⟨n, hn, hfree⟩ := exists_free s start
  obtain ⟨hge, hlt⟩ := List.mem_range'_1.mp hn
  exact ⟨n, hge, by omega, hfree⟩

/-- Every new entry is an intact copy of its chunk in `target`. -/
def Copied (hash : Bytes → ChunkId) (s : PackStore) (m : ChunkId → Option Bytes) (target : Nat)
    (newEntries : List (ChunkId × IndexEntry)) : Prop :=
  ∀ row ∈ newEntries, row.2.segment = target ∧
    ∃ data, m row.1 = some data ∧ hash data = row.1 ∧ Intact hash s row.2 data

namespace Tracks
variable {s : PackStore} {m : ChunkId → Option Bytes}

theorem listChunksUnlocked_eq (h : Tracks hash s m) :
    listChunksUnlocked hash s = s.index.toList.map Prod.fst := by
  unfold listChunksUnlocked
  rw [← List.filterMap_eq_map]
  refine List.filterMap_congr (fun row hrow => ?_)
  obtain ⟨data, -, -, hintact⟩ := h.intact row.1 row.2 ((Table.mem_rows ..).mp hrow)
  simp [readRecord_of_intact hintact]

/-- The copy loop never fails: it appends each listed chunk's bytes to the
target and leaves every older record alone. -/
theorem copyLive (h : Tracks hash s m) (target : Nat) (ids : List ChunkId)
    (hids : ∀ id ∈ ids, ∃ entry, s.index[id]? = some entry)
    (acc : List (ChunkId × IndexEntry)) (hacc : Copied hash s m target acc) :
    ∃ newEntries t, PackStore.copyLive hash target ids acc s = (.ok newEntries, t) ∧
      Tracks hash t m ∧ t.index = s.index ∧ Copied hash t m target newEntries ∧
      newEntries.map Prod.fst = acc.map Prod.fst ++ ids := by
  -- one iteration re-establishes the hypotheses for the rest of the list
  induction ids generalizing s acc with
  | nil => exact ⟨acc, s, rfl, h, rfl, hacc, by simp⟩
  | cons id ids ih =>
    obtain ⟨entry, hentry⟩ := hids id List.mem_cons_self
    obtain ⟨data, hm, hhash, hintact⟩ := h.intact id entry hentry
    have hget : get hash s id = .ok data := by simp [h.get_eq, hm]
    have hfit : data.length ≤ u32Max := by
      obtain ⟨_, _, -, -, -, hmax⟩ := hintact
      exact hmax
    have hnext := h.appendSegment target (record id data)
    have hcopied : Copied hash (s.appendSegment target (record id data)) m target
        (acc ++ [(id, ⟨target, s.segmentLen target, data.length⟩)]) := by
      intro row hrow
      rcases List.mem_append.mp hrow with hold | hnew
      · obtain ⟨hseg, old, hmold, hhold, hiold⟩ := hacc row hold
        exact ⟨hseg, old, hmold, hhold, hiold.appendSegment target _⟩
      · rw [List.mem_singleton.mp hnew]
        refine ⟨rfl, data, hm, hhash, ?_⟩
        rw [← hhash]
        exact intact_appended s target hfit
    obtain ⟨newEntries, t, hrun, ht, hindex, hnew, hkeys⟩ :=
      ih hnext (fun a ha => hids a (List.mem_cons_of_mem _ ha)) _ hcopied
    refine ⟨newEntries, t, ?_, ht, hindex, hnew, by simp [hkeys]⟩
    rw [PackStore.copyLive, Txn.query_bind_run, hget]
    simp only [Txn.reads_bind_run, Txn.failIf_bind_run, if_neg (Nat.not_lt.mpr hfit),
      Txn.modify_bind_run]
    exact hrun

/-- Replacing the index by the copies and unlinking the other files keeps the map. -/
theorem replaceIndex (h : Tracks hash s m) {target : Nat} (hmax : target ≤ u64Max)
    {newEntries : List (ChunkId × IndexEntry)} (hcopied : Copied hash s m target newEntries)
    (hkeys : newEntries.map Prod.fst = s.index.toList.map Prod.fst) {removed : List Nat}
    (hkeep : target ∉ removed) :
    Tracks hash
      { s.replaceIndex target (saturatingAdd target 1) newEntries with
        segments := Table.eraseAll s.segments removed } m := by
  have hrow : ∀ (id : ChunkId) (entry : IndexEntry),
      (s.replaceIndex target (saturatingAdd target 1) newEntries).index[id]? = some entry →
        (id, entry) ∈ newEntries := by
    intro id entry hid
    rcases Table.of_get_insertAll hid with hmem | hold
    · exact hmem
    · rw [Table.get_eraseAll] at hold
      split at hold
      · cases hold
      · rename_i hnot
        exact absurd (List.mem_map_of_mem ((Table.mem_rows ..).mpr hold)) hnot
  refine ⟨⟨target, _, rfl, rfl, le_saturatingAdd hmax, saturatingAdd_le_max .., ?_⟩, ?_, ?_⟩
  · intro id entry hid
    exact (hcopied _ (hrow id entry hid)).1.le
  · intro id entry hid
    obtain ⟨hseg, data, hm, hhash, hintact⟩ := hcopied _ (hrow id entry hid)
    refine ⟨data, hm, hhash, hintact.of_segment_eq ?_⟩
    have hseg' : entry.segment = target := hseg
    show (Table.eraseAll s.segments removed)[entry.segment]? = s.segments[entry.segment]?
    rw [Table.get_eraseAll, hseg', if_neg hkeep]
  · intro id hid
    obtain ⟨hnot, -⟩ := Table.of_get_insertAll_none hid
    refine h.absent id ?_
    by_contra hsome
    obtain ⟨entry, hentry⟩ := Option.ne_none_iff_exists'.mp hsome
    rw [hkeys] at hnot
    exact hnot (List.mem_map_of_mem ((Table.mem_rows ..).mpr hentry))

theorem compactInto (h : Tracks hash s m) {target : Nat} (hfree : s.segments[target]? = none)
    (hmax : target ≤ u64Max) :
    ∃ report t, PackStore.compactInto hash target s = (.ok report, t) ∧ Tracks hash t m := by
  have hcreated : Tracks hash (s.createSegment target) m := by
    refine h.createSegment (fun id entry hid heq => ?_)
    exact h.segment_exists hid (heq ▸ hfree)
  have hlisted : ∀ id ∈ s.index.toList.map Prod.fst,
      ∃ entry, (s.createSegment target).index[id]? = some entry := by
    intro id hid
    obtain ⟨row, hrow, rfl⟩ := List.mem_map.mp hid
    exact ⟨row.2, (Table.mem_rows ..).mp hrow⟩
  obtain ⟨newEntries, t, hcopy, ht, hindex, hcopied, hkeys⟩ :=
    hcreated.copyLive target _ hlisted [] (by simp [Copied])
  refine ⟨⟨newEntries.length, (obsolete target t).length⟩, _, ?_,
    ht.replaceIndex hmax hcopied ?_ (?_ : target ∉ obsolete target t)⟩
  · unfold PackStore.compactInto
    rw [Txn.reads_bind_run, h.listChunksUnlocked_eq, Txn.modify_bind_run, Txn.bind_of_ok hcopy]
    rfl
  · rw [hkeys, hindex]
    rfl
  · simp [obsolete]

/-- A compaction that returns has succeeded and stands for the same map. -/
theorem compact (h : Tracks hash s m) {r : Except FluxError CompactReport} {t : PackStore}
    (hrun : PackStore.compact hash s = some (r, t)) :
    (∃ report, r = .ok report) ∧ Tracks hash t m := by
  obtain ⟨active, nextSeg, hc⟩ := h.counters
  simp only [PackStore.compact, readU64Meta, Txn.query_run, hc.next_eq,
    Option.map_eq_some_iff] at hrun
  obtain ⟨target, hfind, hinto⟩ := hrun
  obtain ⟨-, hfree, hmax⟩ := findFree_spec hc.next_le hfind
  obtain ⟨report, u, hok, hu⟩ := h.compactInto hfree hmax
  rw [hok] at hinto
  obtain ⟨rfl, rfl⟩ := Prod.mk.inj hinto
  exact ⟨⟨report, rfl⟩, hu⟩

end Tracks

/-! ## Whole runs -/

theorem lastWrite_stored (data : Bytes) (stored : ChunkId) (hist : PackHistory) :
    (fun id => lastWrite id ((.put data, .ok (.stored stored)) :: hist)) =
      Function.update (fun id => lastWrite id hist) stored (some data) := by
  funext id
  simp [lastWrite, Function.update_apply, eq_comm]

theorem lastWrite_deleted (deleted : ChunkId) (reply : PackReply) (hist : PackHistory) :
    (fun id => lastWrite id ((.delete deleted, .ok reply) :: hist)) =
      Function.update (fun id => lastWrite id hist) deleted none := by
  funext id
  simp [lastWrite, Function.update_apply, eq_comm]

/-- No operation is a put that rolls the active segment onto itself. -/
def NoSelfRoll (hash : Bytes → ChunkId) (roll : Nat) (st : PackStore × PackHistory) :
    PackOp → Prop
  | .put data => ¬ SelfRoll hash roll st.1 data
  | _ => True

instance (st : PackStore × PackHistory) : (op : PackOp) → Decidable (NoSelfRoll hash roll st op)
  | .put data => inferInstanceAs (Decidable (¬ SelfRoll hash roll st.1 data))
  | .delete _ | .compact | .reopen => .isTrue trivial

/-- The operation names `id`. -/
def PackOp.Writes (hash : Bytes → ChunkId) (id : ChunkId) : PackOp → Prop
  | .put data => hash data = id
  | .delete deleted => deleted = id
  | _ => False

/-- One operation: the store stands for the last writes again, and only writes
of `id` change what it maps `id` to. -/
theorem packStep_tracks {st st' : PackStore × PackHistory} {op : PackOp}
    (h : Tracks hash st.1 (fun id => lastWrite id st.2)) (hself : NoSelfRoll hash roll st op)
    (hstep : packStep hash roll st op = some st') :
    Tracks hash st'.1 (fun id => lastWrite id st'.2) ∧
      ∀ id, ¬ PackOp.Writes hash id op → lastWrite id st'.2 = lastWrite id st.2 := by
  obtain ⟨s, hist⟩ := st
  cases op with
  | put data =>
    rcases hput : put hash roll data s with ⟨r, t⟩
    simp only [packStep, perform, hput, Option.map_some, Option.some.injEq] at hstep
    subst hstep
    rcases h.put hself hput with ⟨rfl, ht⟩ | ⟨e, rfl, ht⟩
    · refine ⟨?_, fun id hid => if_neg hid⟩
      exact (lastWrite_stored data (hash data) hist) ▸ ht
    · exact ⟨ht, fun _ _ => rfl⟩
  | delete deleted =>
    simp only [packStep, perform, delete, Txn.modify_run, Option.map_some,
      Option.some.injEq] at hstep
    subst hstep
    refine ⟨?_, fun id hid => if_neg hid⟩
    exact (lastWrite_deleted deleted .done hist) ▸ h.delete deleted
  | compact =>
    simp only [packStep, perform, Option.map_map, Option.map_eq_some_iff] at hstep
    obtain ⟨⟨r, t⟩, hcompact, rfl⟩ := hstep
    obtain ⟨⟨report, rfl⟩, ht⟩ := h.compact hcompact
    exact ⟨ht, fun _ _ => rfl⟩
  | reopen =>
    simp only [packStep, perform, Option.map_some, Option.some.injEq] at hstep
    subst hstep
    exact ⟨h.openStore_eq.symm ▸ h, fun _ _ => rfl⟩

/-- While segment numbers last, every operation returns. -/
theorem packStep_isSome {st : PackStore × PackHistory}
    (hroom : st.1.nextSegment.getD 0 + st.1.segments.size < u64Max) (op : PackOp) :
    (packStep hash roll st op).isSome := by
  rw [packStep, Option.isSome_map]
  cases op with
  | put data => rfl
  | delete id => rfl
  | reopen => rfl
  | compact =>
    rw [perform, Option.isSome_map, compact, readU64Meta]
    cases hnext : st.1.nextSegment with
    | none => simp [hnext]
    | some nextSeg =>
      rw [hnext] at hroom
      have hfound := (findFree_isSome_iff (by omega)).mpr (hasRoom_of_lt hroom)
      simpa [hnext] using hfound

/-- In every run in which no put rolls the active segment onto itself, `get`
answers with the last write of its id, a further operation on other ids does
not change that answer, and every operation returns while segment numbers last. -/
theorem pack_refines_map (hash : Bytes → ChunkId) (roll : Nat) (ops : List PackOp)
    (s : PackStore) (hist : PackHistory)
    (hself : Along (packStep hash roll) (NoSelfRoll hash roll) (openStore emptyDir, []) ops)
    (hrun : exec (packStep hash roll) (openStore emptyDir, []) ops = some (s, hist))
    (id : ChunkId) :
    (get hash s id = match lastWrite id hist with
      | some data => .ok data
      | none => .error .notFound) ∧
    (∀ data, lastWrite id hist = some data → hash data = id) ∧
    (∀ op t hist', NoSelfRoll hash roll (s, hist) op →
      packStep hash roll (s, hist) op = some (t, hist') → ¬ PackOp.Writes hash id op →
        get hash t id = get hash s id) ∧
    (s.nextSegment.getD 0 + s.segments.size < u64Max →
      ∀ op, (packStep hash roll (s, hist) op).isSome) := by
  have htracks : Tracks hash s (fun id => lastWrite id hist) :=
    exec_invariant_along
      (I := fun st : PackStore × PackHistory => Tracks hash st.1 (fun id => lastWrite id st.2))
      (fun _ _ _ hI hP hstep => (packStep_tracks hI hP hstep).1) ops _ _ tracks_open_emptyDir
      hself hrun
  refine ⟨htracks.get_eq id, fun _ hm => htracks.hash_of_mapped hm, ?_, ?_⟩
  · intro op t hist' hop hstep hwrites
    obtain ⟨ht, hsame⟩ := packStep_tracks htracks hop hstep
    rw [ht.get_eq, htracks.get_eq, hsame id hwrites]
  · exact fun hroom op => packStep_isSome hroom op

/-- blake3 at the two one-byte inputs the runs below use. -/
def sampleHash (data : Bytes) : ChunkId :=
  if data = [1] then
    ⟨[72, 252, 114, 31, 187, 193, 114, 224, 146, 95, 162, 122, 241, 103, 29, 226,
      37, 186, 146, 113, 52, 128, 41, 152, 177, 10, 21, 104, 161, 136, 101, 43], rfl⟩
  else if data = [2] then
    ⟨[171, 19, 190, 223, 66, 232, 75, 174, 15, 124, 98, 199, 221, 106, 138, 218,
      87, 30, 136, 41, 190, 214, 234, 85, 130, 23, 240, 54, 27, 94, 37, 208], rfl⟩
  else ChunkId.ofByte 0

/-- A run with a delete, a compaction, a roll after it and a reopen. -/
def sampleOps : List PackOp :=
  [.put [1], .delete (sampleHash [1]), .compact, .put [2], .put [1], .reopen]

theorem sampleOps_returns :
    (exec (packStep sampleHash 41) (openStore emptyDir, []) sampleOps).isSome := by
  decide +kernel

/-- The end of the run. -/
def sampleEnd : PackStore × PackHistory := Option.get _ sampleOps_returns

theorem pack_refines_map_sampleOps :
    exec (packStep sampleHash 41) (openStore emptyDir, []) sampleOps = some sampleEnd ∧
      get sampleHash sampleEnd.1 (sampleHash [2]) = .ok [2] := by
  have hrun := (Option.some_get sampleOps_returns).symm
  have hlast : lastWrite (sampleHash [2]) sampleEnd.2 = some [2] := by decide +kernel
  refine ⟨hrun, ?_⟩
  rw [(pack_refines_map sampleHash 41 sampleOps sampleEnd.1 sampleEnd.2 (by decide +kernel) hrun
    (sampleHash [2])).1, hlast]

/-- On a fresh store the second put rolls the full segment one onto itself: the
put of `[1]` was the last write of its id, and the chunk is gone. -/
theorem self_roll_loses_chunk :
    (exec (packStep sampleHash 1) (openStore emptyDir, []) [.put [1], .put [2]]).map
        (fun st => (get sampleHash st.1 (sampleHash [1]), lastWrite (sampleHash [1]) st.2)) =
      some (.error .notFound, some [1]) := by
  decide +kernel

end PackStore
end FluxFS
