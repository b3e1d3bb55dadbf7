import FluxFS.Chunk.Device

/-!
# Recovery — the pack store after faults and crashes

A store is `Secure` on a disk when its files are on stable storage and the disk
has its index. Appends, syncs and files that the store does not have change
nothing about that, and reads only depend on bytes that are still there
(`readRecord_extends`). So an operation keeps the old store secure until its
one index commit, and the store that the commit makes from then on.

`compact` builds its list of live chunks from reads whose errors it drops
(`listRows_run`); a chunk whose read failed there is gone after the commit.
-/

namespace FluxFS

open Std Kit

namespace PackStore

variable {hash : Bytes → ChunkId} {roll : Nat} {s t : PackStore} {id : ChunkId} {data : Bytes}
  {entry : IndexEntry}

/-! ## Reads -/

theorem take_drop_append (xs ys : Bytes) {offset n : Nat} (h : n ≤ (xs.drop offset).length) :
    ((xs ++ ys).drop offset).take n = (xs.drop offset).take n := by
  rw [List.drop_append, List.take_append_of_le_length h]

/-- A record that reads back still does after its file has grown. -/
theorem readRecord_extends (hfiles : Extends s.segments t.segments)
    (h : readRecord hash s entry = .ok data) : readRecord hash t entry = .ok data := by
  unfold readRecord at h ⊢
  cases hfile : s.segments[entry.segment]? with
  | none =>
    rw [hfile] at h
    cases h
  | some file =>
    obtain ⟨file', hfile', rest, rfl⟩ := hfiles _ _ hfile
    rw [hfile] at h
    rw [hfile']
    simp only at h ⊢
    split at h
    · cases h
    · rename_i hheader
      have hlong : headerLen ≤ (file.drop entry.offset).length := by
        rw [List.length_take] at hheader
        omega
      rw [take_drop_append file rest hlong]
      rw [if_neg hheader]
      split at h
      · cases h
      · rename_i hmagic
        rw [if_neg hmagic]
        split at h
        · cases h
        · rename_i hpayload
          have hall : fromLeBytes ((((file.drop entry.offset).take headerLen).drop 4).take 4) ≤
              (file.drop (entry.offset + headerLen)).length := by
            rw [List.length_take] at hpayload
            omega
          rw [take_drop_append file rest hall, if_neg hpayload]
          exact h

/-- A header is made of the three fields it is read as. -/
theorem header_fields {header : Bytes} {len : Nat} (hlong : header.length = headerLen)
    (hmagic : fromLeBytes (header.take 4) = recordMagic)
    (hlen : fromLeBytes ((header.drop 4).take 4) = len) (hid : header.drop 8 = id.bytes) :
    header = toLeBytes 4 recordMagic ++ toLeBytes 4 len ++ id.bytes ∧ len ≤ u32Max := by
  have hfield : ∀ (bs : Bytes) (n : Nat), bs.length = 4 → fromLeBytes bs = n →
      bs = toLeBytes 4 n ∧ n ≤ u32Max := by
    intro bs n hwidth hn
    have hlt := fromLeBytes_lt bs
    rw [hwidth, hn] at hlt
    refine ⟨?_, Nat.le_of_lt_succ hlt⟩
    rw [← hn, ← hwidth, toLeBytes_fromLeBytes]
  obtain ⟨hfront, -⟩ := hfield (header.take 4) recordMagic (by simp [hlong, headerLen]) hmagic
  obtain ⟨hmiddle, hmax⟩ := hfield ((header.drop 4).take 4) len (by simp [hlong, headerLen]) hlen
  refine ⟨?_, hmax⟩
  rw [← hfront, ← hmiddle, ← hid, List.append_assoc, show (8 : Nat) = 4 + 4 from rfl,
    ← List.drop_drop, List.take_append_drop, List.take_append_drop]

/-- Only whole records are read. -/
theorem intact_of_readRecord (h : readRecord hash s entry = .ok data) :
    Intact hash s entry data := by
  unfold readRecord at h
  cases hfile : s.segments[entry.segment]? with
  | none =>
    rw [hfile] at h
    cases h
  | some file =>
    simp only [hfile] at h
    split at h
    · cases h
    rename_i hheader
    split at h
    · cases h
    rename_i hfields
    split at h
    · cases h
    rename_i hpayload
    split at h
    · cases h
    rename_i hid
    rw [not_or, not_not, not_not] at hfields
    obtain ⟨hmagic, hlen⟩ := hfields
    rw [Except.ok.injEq] at h
    rw [h, not_not] at hid
    rw [hlen] at h hpayload
    rw [h] at hpayload
    have hsize : entry.len = data.length := by
      have hle := List.length_take_le entry.len (file.drop (entry.offset + headerLen))
      rw [h] at hle
      omega
    have hlong : ((file.drop entry.offset).take headerLen).length = headerLen := by
      have hle := List.length_take_le headerLen (file.drop entry.offset)
      omega
    have hinside : entry.offset ≤ file.length := by
      rw [List.length_take, List.length_drop, headerLen] at hlong
      omega
    obtain ⟨hrecord, hmax⟩ := header_fields hlong hmagic hlen hid
    refine ⟨file.take entry.offset, (file.drop (entry.offset + headerLen)).drop entry.len, ?_,
      (List.length_take_of_le hinside).symm, hsize, hsize ▸ hmax⟩
    have hrest : record (hash data) data ++
        (file.drop (entry.offset + headerLen)).drop entry.len = file.drop entry.offset := by
      rw [record, ← hsize, ← hrecord, List.append_assoc, ← h, List.take_append_drop,
        ← List.drop_drop, List.take_append_drop]
    rw [List.append_assoc, hrest, List.take_append_drop, hfile]

/-- What `get_if_valid_unlocked` finds. -/
theorem getIfValid_some :
    getIfValidUnlocked hash s id = some data ↔
      ∃ entry, s.index[id]? = some entry ∧ readRecord hash s entry = .ok data ∧ hash data = id := by
  unfold getIfValidUnlocked
  cases hentry : s.index[id]? with
  | none => simp
  | some entry =>
    cases hread : readRecord hash s entry with
    | error e => simp [hread]
    | ok found =>
      simp only [Option.some.injEq, exists_eq_left', hread, Except.ok.injEq]
      split
      · rename_i hhash
        simp only [Option.some.injEq]
        constructor
        · rintro rfl
          exact ⟨rfl, hhash⟩
        · exact And.left
      · rename_i hhash
        constructor
        · intro h
          cases h
        · rintro ⟨rfl, h⟩
          exact absurd h hhash

theorem getIfValid_extends (hfiles : Extends s.segments t.segments) (hindex : t.index = s.index)
    (h : getIfValidUnlocked hash s id = some data) : getIfValidUnlocked hash t id = some data := by
  obtain ⟨entry, hentry, hread, hhash⟩ := getIfValid_some.mp h
  exact getIfValid_some.mpr ⟨entry, hindex ▸ hentry, readRecord_extends hfiles hread, hhash⟩

/-- The search for a target ends at a number that no file has. -/
theorem findFree_free {fuel start target : Nat} (h : findFree s fuel start = some target) :
    s.segments[target]? = none := by
  induction fuel generalizing start with
  | zero => cases h
  | succ fuel ih =>
    rw [findFree] at h
    split at h
    · cases h
      assumption
    · exact ih h

/-! ## Sound stores -/

/-- Every index entry points at an intact record of its own chunk. -/
def Sound (hash : Bytes → ChunkId) (s : PackStore) : Prop :=
  ∀ (id : ChunkId) (entry : IndexEntry), s.index[id]? = some entry →
    ∃ data, readRecord hash s entry = .ok data ∧ hash data = id

theorem Sound.extends (h : Sound hash s) (hfiles : Extends s.segments t.segments)
    (hindex : t.index = s.index) :
    Sound hash t ∧ getIfValidUnlocked hash t = getIfValidUnlocked hash s := by
  constructor
  · intro id entry hentry
    obtain ⟨data, hread, hhash⟩ := h id entry (hindex ▸ hentry)
    exact ⟨data, readRecord_extends hfiles hread, hhash⟩
  · funext id
    cases hentry : s.index[id]? with
    | none => simp [getIfValidUnlocked, hentry, hindex]
    | some entry =>
      obtain ⟨data, hread, hhash⟩ := h id entry hentry
      have hfound := getIfValid_some.mpr ⟨entry, hentry, hread, hhash⟩
      rw [hfound]
      exact getIfValid_extends hfiles hindex hfound

theorem extends_appendSegment (s : PackStore) (segment : Nat) (bytes : Bytes) :
    Extends s.segments (s.appendSegment segment bytes).segments := by
  intro n file hfile
  rw [appendSegment, Table.get_insert]
  split
  · rename_i hn
    subst hn
    exact ⟨_, rfl, by simp [hfile]⟩
  · exact ⟨file, hfile, List.prefix_rfl⟩

theorem getD_createIfMissing (s : PackStore) (segment : Nat) :
    (s.createIfMissing segment).segments[segment]?.getD [] = s.segments[segment]?.getD [] := by
  unfold createIfMissing
  split
  · rename_i hmissing
    simp [createSegment, hmissing]
  · rfl

/-- Index a record that reads back. -/
theorem Sound.insertEntry (h : Sound hash s) (active nextSeg : Nat)
    (hread : readRecord hash s entry = .ok data) :
    let t := { s with
      index := s.index.insert (hash data) entry
      activeSegment := some active
      nextSegment := some nextSeg }
    Sound hash t ∧ getIfValidUnlocked hash t =
      Function.update (getIfValidUnlocked hash s) (hash data) (some data) := by
  intro t
  have hreads : ∀ e, readRecord hash t e = readRecord hash s e := fun _ => rfl
  constructor
  · intro id e he
    rw [hreads]
    simp only [t, Table.get_insert] at he
    split at he
    · rename_i hid
      cases he
      exact ⟨data, hread, hid⟩
    · exact h id e he
  · funext id
    simp only [getIfValidUnlocked, hreads, t, Table.get_insert]
    by_cases hid : hash data = id
    · subst hid
      simp [hread]
    · rw [if_neg hid, Function.update_of_ne (Ne.symm hid)]
      rfl

theorem Sound.eraseEntry (h : Sound hash s) (id : ChunkId) :
    let t := { s with index := s.index.erase id }
    Sound hash t ∧
      getIfValidUnlocked hash t = Function.update (getIfValidUnlocked hash s) id none := by
  intro t
  have hreads : ∀ e, readRecord hash t e = readRecord hash s e := fun _ => rfl
  constructor
  · intro a e he
    rw [hreads]
    simp only [t, Table.get_erase] at he
    split at he
    · cases he
    · exact h a e he
  · funext a
    simp only [getIfValidUnlocked, hreads, t, Table.get_erase]
    by_cases ha : id = a
    · subst ha
      simp
    · rw [if_neg ha, Function.update_of_ne (Ne.symm ha)]
      rfl

end PackStore

/-! ## Stores on stable storage -/

/-- `s` is on stable storage, and the index of the disk is its own. -/
structure Secure (s : PackStore) (d : PackDisk) : Prop where
  files : Holds s.segments d.files
  index_eq : d.index = s.index
  active_eq : d.activeSegment = s.activeSegment
  next_eq : d.nextSegment = s.nextSegment

namespace Secure
variable {hash : Bytes → ChunkId} {s t : PackStore} {d : PackDisk}

theorem durable (s : PackStore) : Secure s (.durable s) := ⟨.durable _, rfl, rfl, rfl⟩

/-- What the process sees. -/
theorem live (h : Secure s d) : Extends s.segments d.store.segments ∧ d.store.index = s.index :=
  ⟨h.files.live, h.index_eq⟩

/-- What is found after a crash. -/
theorem survive (h : Secure s d) (hcrash : d.Survives t) :
    Extends s.segments t.segments ∧ t.index = s.index :=
  ⟨h.files.survive hcrash.files, hcrash.index_eq.trans h.index_eq⟩

theorem onFiles (h : Secure s d) {run : Disk Nat UInt8 → Disk Nat UInt8}
    (hrun : Holds s.segments (run d.files)) : Secure s { d with files := run d.files } :=
  ⟨hrun, h.index_eq, h.active_eq, h.next_eq⟩

end Secure

namespace PackIo

variable {hash : Bytes → ChunkId} {roll : Nat} {s u : PackStore} {id : ChunkId} {data : Bytes}
  {A : PackDisk → Prop} {b b' : PackBench}
variable {live : List ChunkId} {target : Nat} {newEntries : List (ChunkId × IndexEntry)}
  {faults : Nat → Option IoFault}

/-! ## What commands keep -/

/-- A command on the files that keeps `s` safe. -/
theorem always_onFiles {run : Disk Nat UInt8 → Disk Nat UInt8}
    (hrun : ∀ d, Holds s.segments d → Holds s.segments (run d)) :
    Txn.Preserves (Bench.Always (Secure s)) (onFiles run) :=
  .command (fun _ hd => hd.onFiles (hrun _ hd.files)) fun _ _ hd => hd

theorem turned_onFiles {run : Disk Nat UInt8 → Disk Nat UInt8}
    (hrun : ∀ d, Holds u.segments d → Holds u.segments (run d)) :
    Txn.Preserves (Bench.Turned A (Secure u)) (onFiles run) :=
  .command (fun _ hd => hd.onFiles (hrun _ hd.files)) fun _ _ hd => hd

theorem always_append (segment : Nat) (bytes : Bytes) :
    Txn.Preserves (Bench.Always (Secure s)) (append segment bytes) :=
  .command (fun _ hd => hd.onFiles (hd.files.append _ _)) fun _ _ hd =>
    hd.onFiles (hd.files.append _ _)

theorem always_writeRecord (segment : Nat) (id : ChunkId) (data : Bytes) :
    Txn.Preserves (Bench.Always (Secure s)) (writeRecord segment id data) :=
  (always_append _ _).bind fun _ => (always_append _ _).bind fun _ =>
    (always_append _ _).bind fun _ => always_append _ _

theorem always_syncDir : Txn.Preserves (Bench.Always (Secure s)) syncDir :=
  always_onFiles fun _ hd => hd.syncDir

theorem always_create {segment : Nat} (hnew : s.segments[segment]? = none) :
    Txn.Preserves (Bench.Always (Secure s)) (create segment) :=
  always_onFiles fun _ hd => hd.create hnew

theorem spends_writeRecord (segment : Nat) (id : ChunkId) (data : Bytes) :
    Bench.Spends 4 (writeRecord segment id data) :=
  .bind .command fun _ => .bind .command fun _ => .bind .command fun _ => .command

/-- A lookup finds what the store has, or nothing if its read fails. -/
theorem getIfValidUnlocked_run (hash : Bytes → ChunkId) (id : ChunkId) (b : PackBench) :
    ∃ found ticks, getIfValidUnlocked hash id b = (.ok found, { b with ticks := ticks }) ∧
      (found = none ∨ found = PackStore.getIfValidUnlocked hash b.device.store id) := by
  rw [getIfValidUnlocked, Txn.reads_bind_run, PackStore.getIfValidUnlocked]
  cases hentry : b.device.store.index[id]? with
  | none => exact ⟨none, b.ticks, rfl, .inl rfl⟩
  | some entry =>
    have hread : readRecord hash entry b = (.ok _, { b with ticks := b.ticks + 1 }) := rfl
    simp only [Txn.bind_of_ok hread]
    cases hresult : b.readResult (PackStore.readRecord hash ·.store entry) ioError with
    | error e => exact ⟨none, b.ticks + 1, rfl, .inl rfl⟩
    | ok data =>
      refine ⟨_, b.ticks + 1, rfl, .inr ?_⟩
      simp only [Bench.readResult_ok hresult]

/-- A lookup of an indexed chunk is one read. -/
theorem getIfValidUnlocked_indexed {entry : IndexEntry}
    (hentry : b.device.store.index[id]? = some entry) :
    getIfValidUnlocked hash id b =
      (.ok (if b.faults b.ticks = none then PackStore.getIfValidUnlocked hash b.device.store id
        else none), { b with ticks := b.ticks + 1 }) := by
  have hread : readRecord hash entry b = (.ok _, { b with ticks := b.ticks + 1 }) := rfl
  rw [getIfValidUnlocked, Txn.reads_bind_run, hentry]
  simp only [Txn.bind_of_ok hread]
  cases hfault : b.faults b.ticks with
  | some fault => simp [Bench.readResult, hfault]
  | none =>
    rw [Bench.readResult_of_quiet hfault, PackStore.getIfValidUnlocked, hentry]
    cases hresult : PackStore.readRecord hash b.device.store entry with
    | error e => simp [hresult]
    | ok data => simp [hresult]

/-- A command on the files that went through. -/
theorem onFiles_ok (run : Disk Nat UInt8 → Disk Nat UInt8) {v : Unit}
    (h : onFiles run b = (.ok v, b')) :
    b'.device = { b.device with files := run b.device.files } := by
  rw [Bench.command_ok h]
  rfl

/-- A transaction was committed, or failed and wrote nothing. -/
theorem commit_cases (write : PackDisk → PackDisk) {r : Except FluxError Unit}
    (h : commit write b = (r, b')) :
    (r = .ok () ∧ b' = b.next (write b.device)) ∨ ∃ e, r = .error e ∧ b' = b.next b.device := by
  rcases Bench.command_cases h with hok | ⟨fault, hr, hb'⟩
  · exact .inl hok
  · exact .inr ⟨_, hr, hb'⟩

/-- A record whose four writes went through is in its file. -/
theorem writeRecord_ok {segment : Nat} {v : Unit}
    (h : writeRecord segment id data b = (.ok v, b')) :
    b'.device =
      { b.device with files := b.device.files.append segment (PackStore.record id data) } := by
  have hwrite : ∀ {bytes : Bytes} {c c' : PackBench} {w : Unit},
      append segment bytes c = (.ok w, c') →
        c'.device = { c.device with files := c.device.files.append segment bytes } := by
    intro bytes c c' w hc
    rw [Bench.command_ok hc]
    rfl
  rcases Txn.bind_cases h with ⟨_, b₁, h₁, h⟩ | ⟨e, _, he⟩
  · rcases Txn.bind_cases h with ⟨_, b₂, h₂, h⟩ | ⟨e, _, he⟩
    · rcases Txn.bind_cases h with ⟨_, b₃, h₃, h₄⟩ | ⟨e, _, he⟩
      · simp only [hwrite h₄, hwrite h₃, hwrite h₂, hwrite h₁, Disk.append_append,
          PackStore.record, List.append_assoc]
      · cases he
    · cases he
  · cases he

section
variable {α : Type} {P : Except FluxError α × PackBench → Prop}

/-- A file and then its directory are synced: the file is secure as well. -/
theorem outcome_sync {segment : Nat} {file : Bytes} {rest : PackIo α}
    (hb : b.Always (Secure s)) (hlive : b.device.files.live[segment]? = some file)
    (herr : ∀ e b', b'.Always (Secure s) → P (.error e, b'))
    (hok : ∀ b', b'.Always (Secure s) → b'.device.store = b.device.store →
      Holds (s.segments.insert segment file) b'.device.files → P (rest b')) :
    P ((do
      syncFile segment
      syncDir
      rest) b) := by
  refine Txn.outcome_preserved (always_onFiles fun _ hd => hd.syncFile segment) hb herr ?_
  intro _ b₁ h₁ hb₁
  refine Txn.outcome_preserved always_syncDir hb₁ herr ?_
  intro _ b₂ h₂ hb₂
  have hdevice : b₂.device =
      { b.device with files := (b.device.files.syncFile segment).syncDir } := by
    rw [onFiles_ok Disk.syncDir h₂, onFiles_ok (Disk.syncFile segment) h₁]
  refine hok b₂ hb₂ (by rw [hdevice]; rfl) ?_
  rw [hdevice]
  exact hb.device.files.insert hlive

/-- The active segment is there, made if it was missing. -/
theorem outcome_chooseSegment {active nextSeg : Nat} {f : Nat × Nat → PackIo α}
    (hb : b.Always (Secure s)) (hstore : b.device.store = s) (hroll : s.segmentLen active < roll)
    (herr : ∀ e b', b'.Always (Secure s) → P (.error e, b'))
    (hok : ∀ b', b'.Always (Secure s) → b'.device.store = s.createIfMissing active →
      P (f (active, nextSeg) b')) :
    P ((chooseSegment roll active nextSeg >>= f) b) := by
  have hcreated : ∀ b', b'.Always (Secure s) → b'.device.store = s.createIfMissing active →
      P (((do
        let offset ← Txn.reads fun b : PackBench => b.device.store.segmentLen active
        if offset ≥ roll then do
          create nextSeg
          syncDir
          pure (nextSeg, saturatingAdd nextSeg 1)
        else pure (active, nextSeg)) >>= f) b') := by
    intro b' hb' hstore'
    rw [bind_assoc, Txn.reads_bind_run, hstore', PackStore.segmentLen_createIfMissing,
      if_neg (Nat.not_le.mpr hroll)]
    exact hok b' hb' hstore'
  rw [chooseSegment, createIfMissing, bind_assoc, bind_assoc, Txn.reads_bind_run, hstore]
  by_cases hmissing : s.segments[active]? = none
  · rw [if_pos (decide_eq_true hmissing)]
    rw [bind_assoc]
    refine Txn.outcome_preserved (always_create hmissing) hb herr ?_
    intro _ b₁ h₁ hb₁
    refine Txn.outcome_preserved always_syncDir hb₁ herr ?_
    intro _ b₂ h₂ hb₂
    refine hcreated b₂ hb₂ ?_
    rw [onFiles_ok Disk.syncDir h₂, onFiles_ok (Disk.create active) h₁, PackStore.createIfMissing,
      if_pos hmissing, ← hstore]
    rfl
  · rw [if_neg (by simpa using hmissing)]
    refine hcreated b hb ?_
    rw [PackStore.createIfMissing, if_neg hmissing, hstore]

end

/-! ## Put and delete -/

/-- The run kept `s` secure up to a commit, if there was one, and since then a store
with the chunks `m`. -/
def Lands (hash : Bytes → ChunkId) (s : PackStore) (m : ChunkId → Option Bytes) (b : PackBench) :
    Prop :=
  ∃ u, PackStore.Sound hash u ∧ PackStore.getIfValidUnlocked hash u = m ∧
    b.Turned (Secure s) (Secure u)

theorem Lands.stay (hs : PackStore.Sound hash s) (hb : b.Always (Secure s)) :
    Lands hash s (PackStore.getIfValidUnlocked hash s) b :=
  ⟨s, hs, rfl, hb.turned⟩

/-- A put that fails leaves the store secure; one that succeeds has stored its bytes. -/
def PutOutcome (hash : Bytes → ChunkId) (s : PackStore) (data : Bytes)
    (o : Except FluxError ChunkId × PackBench) : Prop :=
  match o.1 with
  | .error _ => o.2.Always (Secure s)
  | .ok id => id = hash data ∧ Lands hash s
      (Function.update (PackStore.getIfValidUnlocked hash s) (hash data) (some data)) o.2

/-- The last part of a put: the record is written, synced and indexed. -/
theorem storeRecord_outcome {active nextSeg : Nat} (hs : PackStore.Sound hash s)
    (hb : b.Always (Secure s)) (hstore : b.device.store = s.createIfMissing active)
    (hfit : data.length ≤ u32Max) :
    PutOutcome hash s data ((do
      writeRecord active (hash data) data
      syncFile active
      syncDir
      commit fun d =>
        { d with
          index := d.index.insert (hash data) ⟨active, s.segmentLen active, data.length⟩
          activeSegment := some active
          nextSegment := some nextSeg }
      pure (hash data) : PackIo ChunkId) b) := by
  have herr : ∀ e (b' : PackBench), b'.Always (Secure s) → PutOutcome hash s data (.error e, b') :=
    fun _ _ hb' => hb'
  refine Txn.outcome_preserved (always_writeRecord active (hash data) data) hb herr ?_
  intro _ b₁ hwrite hb₁
  have hlive : b₁.device.files.live[active]? =
      some (s.segments[active]?.getD [] ++ PackStore.record (hash data) data) := by
    have hfiles : b.device.files.live = (s.createIfMissing active).segments :=
      congrArg PackStore.segments hstore
    rw [writeRecord_ok hwrite]
    simp only [Disk.append, Table.get_insert, if_true, hfiles, PackStore.getD_createIfMissing]
  refine outcome_sync hb₁ hlive herr fun b₂ hb₂ _ hholds => ?_
  -- the store with the record, before it is indexed
  have hextends := PackStore.extends_appendSegment s active (PackStore.record (hash data) data)
  obtain ⟨hsound, hchunks⟩ := hs.extends hextends rfl
  have hread : PackStore.readRecord hash _ _ = .ok data :=
    PackStore.readRecord_of_intact (PackStore.intact_appended s active hfit)
  obtain ⟨hsound', hchunks'⟩ := hsound.insertEntry active nextSeg hread
  refine Txn.outcome_bind (fun e b' hcommit => ?_) (fun _ b' hcommit => ?_)
  · rcases commit_cases _ hcommit with ⟨hr, -⟩ | ⟨_, -, rfl⟩
    · cases hr
    · exact hb₂.next hb₂.device
  · rw [Bench.command_ok hcommit]
    refine ⟨rfl, _, hsound', hchunks'.trans (by rw [hchunks]), hb₂.turn ⟨hholds, ?_, rfl, rfl⟩⟩
    rw [hb₂.device.index_eq]
    rfl

/-- A put that does not find the active segment full, and what it found of its
chunk. -/
theorem put_outcome (hs : PackStore.Sound hash s) (hb : b.Always (Secure s))
    (hstore : b.device.store = s) (hquiet : b.Quiet)
    (hroll : PackStore.getIfValidUnlocked hash s (hash data) ≠ some data →
      ∀ active, s.activeSegment = some active → s.segmentLen active < roll) :
    PutOutcome hash s data (put hash roll data b) := by
  have herr : ∀ e (b' : PackBench), b'.Always (Secure s) → PutOutcome hash s data (.error e, b') :=
    fun _ _ hb' => hb'
  obtain ⟨found, ticks, hlook, -⟩ := getIfValidUnlocked_run hash (hash data) b
  have hfound : found = PackStore.getIfValidUnlocked hash s (hash data) := by
    have hmirror := (getIfValidUnlocked_mirrors hash (hash data) b hquiet).1
    rw [hlook, hstore] at hmirror
    exact Except.ok.inj hmirror
  rw [put, putLocked, Txn.bind_of_ok hlook]
  by_cases hdup : found = some data
  · rw [if_pos hdup]
    have hsame : Function.update (PackStore.getIfValidUnlocked hash s) (hash data) (some data) =
        PackStore.getIfValidUnlocked hash s := by
      rw [← hdup, hfound, Function.update_eq_self]
    exact ⟨rfl, hsame.symm ▸ Lands.stay hs hb⟩
  · rw [if_neg hdup]
    refine Txn.outcome_query (fun e _ => herr e _ hb) fun active hactive => ?_
    refine Txn.outcome_query (fun e _ => herr e _ hb) fun nextSeg _ => ?_
    have hfull : s.segmentLen active < roll := by
      refine hroll (hfound ▸ hdup) active ?_
      simp only [hstore] at hactive
      split at hactive
      · cases hactive
        assumption
      · cases hactive
    refine outcome_chooseSegment hb hstore hfull herr fun b₁ hb₁ hstore₁ => ?_
    refine Txn.outcome_reads (Txn.outcome_failIf (fun _ => herr _ _ hb₁) fun hfit => ?_)
    rw [hstore₁, PackStore.segmentLen_createIfMissing]
    exact storeRecord_outcome hs hb₁ hstore₁ (Nat.le_of_not_lt hfit)

/-- An operation that is one commit. -/
theorem commit_lands (write : PackDisk → PackDisk) {m : ChunkId → Option Bytes}
    (hb : b.Always (Secure s)) (hquiet : b.Quiet) (hu : PackStore.Sound hash u)
    (hm : PackStore.getIfValidUnlocked hash u = m) (hwrite : Secure u (write b.device)) :
    ∃ b', commit write b = (.ok (), b') ∧ Lands hash s m b' := by
  refine ⟨b.next (write b.device), ?_, u, hu, hm, hb.turn hwrite⟩
  rw [commit, Bench.command, hquiet b.ticks]

/-! ## Compaction -/

/-- The ids of the rows that a listing from `tick` on reads without a fault. -/
def readableRows (hash : Bytes → ChunkId) (s : PackStore) (faults : Nat → Option IoFault)
    (rows : List (ChunkId × IndexEntry)) (tick : Nat) : List ChunkId :=
  ((rows.zipIdx tick).filter fun row =>
    (faults row.2).isNone && (PackStore.readRecord hash s row.1.2).isOk).map (·.1.1)

/-- The listing never fails: a row whose read fails is left out. -/
theorem listRows_run (hash : Bytes → ChunkId) (rows : List (ChunkId × IndexEntry)) (b : PackBench) :
    listRows hash rows b = (.ok (readableRows hash b.device.store b.faults rows b.ticks),
      { b with ticks := b.ticks + rows.length }) := by
  induction rows generalizing b with
  | nil => rfl
  | cons row rows ih =>
    have hfirst : readRecord hash row.2 b = (.ok _, { b with ticks := b.ticks + 1 }) := rfl
    have hticks : b.ticks + 1 + rows.length = b.ticks + (rows.length + 1) := by omega
    rw [listRows, Txn.bind_of_ok hfirst, Txn.bind_of_ok (ih _)]
    simp only [hticks, List.length_cons, readableRows, List.zipIdx_cons]
    cases hfault : b.faults b.ticks with
    | some fault => simp [Bench.readResult, hfault]
    | none =>
      rw [Bench.readResult_of_quiet hfault]
      cases hrow : PackStore.readRecord hash b.device.store row.2 with
      | error e => simp [hrow, Except.isOk, Except.toBool]
      | ok data => simp [hrow, hfault, Except.isOk, Except.toBool]

/-- The ids of a listing of `s`. -/
def Listed (hash : Bytes → ChunkId) (s : PackStore) (live : List ChunkId) : Prop :=
  ∀ id ∈ live, ∃ entry data, s.index[id]? = some entry ∧
    PackStore.readRecord hash s entry = .ok data

/-- Every new entry reads back the bytes that `s` has for its id. -/
def Copies (hash : Bytes → ChunkId) (s t : PackStore) (target : Nat)
    (newEntries : List (ChunkId × IndexEntry)) : Prop :=
  ∀ row ∈ newEntries, row.2.segment = target ∧
    ∃ data, PackStore.getIfValidUnlocked hash s row.1 = some data ∧
      PackStore.readRecord hash t row.2 = .ok data

/-- Where the copy loop has got to. -/
structure Copying (hash : Bytes → ChunkId) (s : PackStore) (target : Nat)
    (newEntries : List (ChunkId × IndexEntry)) (b : PackBench) : Prop where
  always : b.Always (Secure s)
  present : ∃ file, b.device.files.live[target]? = some file
  copies : Copies hash s b.device.store target newEntries

/-- A listed chunk that is found while copying was found in `s`. -/
theorem Listed.found {t : PackStore} (h : Listed hash s live) (hid : id ∈ live)
    (hfiles : Extends s.segments t.segments) (hindex : t.index = s.index)
    (hfound : PackStore.getIfValidUnlocked hash t id = some data) :
    PackStore.getIfValidUnlocked hash s id = some data := by
  obtain ⟨entry, listed, hentry, hread⟩ := h id hid
  obtain ⟨entry', hentry', hread', hhash⟩ := PackStore.getIfValid_some.mp hfound
  rw [hindex, hentry] at hentry'
  cases hentry'
  rw [PackStore.readRecord_extends hfiles hread] at hread'
  cases hread'
  exact PackStore.getIfValid_some.mpr ⟨entry, hentry, hread, hhash⟩

/-- While copying, a listed chunk is found exactly as in `s`. -/
theorem Listed.lookup_eq {t : PackStore} (h : Listed hash s live) (hid : id ∈ live)
    (hfiles : Extends s.segments t.segments) (hindex : t.index = s.index) :
    PackStore.getIfValidUnlocked hash t id = PackStore.getIfValidUnlocked hash s id := by
  ext data
  exact ⟨h.found hid hfiles hindex, PackStore.getIfValid_extends hfiles hindex⟩

/-- One more record in the target. -/
theorem Copying.append {v : Unit} (h : Copying hash s target newEntries b)
    (hb' : b'.Always (Secure s)) (hvalid : PackStore.getIfValidUnlocked hash s id = some data)
    (hfit : data.length ≤ u32Max) (hwrite : writeRecord target id data b = (.ok v, b')) :
    Copying hash s target
      (newEntries ++ [(id, ⟨target, b.device.store.segmentLen target, data.length⟩)]) b' := by
  have hstore : b'.device.store =
      b.device.store.appendSegment target (PackStore.record id data) := by
    rw [writeRecord_ok hwrite]
    rfl
  obtain ⟨file, hfile⟩ := h.present
  refine ⟨hb', ⟨file ++ PackStore.record id data, ?_⟩, fun row hrow => ?_⟩
  · rw [writeRecord_ok hwrite]
    simp [Disk.append, hfile]
  · rw [hstore]
    rcases List.mem_append.mp hrow with hold | hnew
    · obtain ⟨hsegment, old, hvalid, hread⟩ := h.copies row hold
      exact ⟨hsegment, old, hvalid,
        PackStore.readRecord_extends (PackStore.extends_appendSegment _ _ _) hread⟩
    · rw [List.mem_singleton.mp hnew]
      obtain ⟨-, -, -, hhash⟩ := PackStore.getIfValid_some.mp hvalid
      refine ⟨rfl, data, hvalid, ?_⟩
      rw [← hhash]
      exact PackStore.readRecord_of_intact (PackStore.intact_appended _ target hfit)

/-- The loop failed, or has copied all of `ids`. -/
def CopyOutcome (hash : Bytes → ChunkId) (s : PackStore) (target : Nat) (ids : List ChunkId)
    (o : Except FluxError (List (ChunkId × IndexEntry)) × PackBench) : Prop :=
  match o.1 with
  | .error _ => o.2.Always (Secure s)
  | .ok copied => Copying hash s target copied o.2 ∧ copied.map Prod.fst = ids

theorem copyLive_outcome {ids : List ChunkId} (hids : Listed hash s ids)
    (h : Copying hash s target newEntries b) :
    CopyOutcome hash s target (newEntries.map Prod.fst ++ ids)
      (copyLive hash target ids newEntries b) := by
  induction ids generalizing newEntries b with
  | nil => exact ⟨h, by simp⟩
  | cons id ids ih =>
    obtain ⟨found, ticks, hlook, hfound⟩ := getIfValidUnlocked_run hash id b
    simp only [copyLive, Txn.bind_of_ok hlook]
    cases hdata : found with
    | none => exact h.always
    | some data =>
      have hlive := h.always.device.live
      have hvalid : PackStore.getIfValidUnlocked hash s id = some data := by
        rcases hfound with hnone | hsome
        · rw [hnone] at hdata
          cases hdata
        · exact hids.found List.mem_cons_self hlive.1 hlive.2 (hsome.symm.trans hdata)
      -- the lookup has used a tick
      have hcopying : Copying hash s target newEntries { b with ticks := ticks } :=
        ⟨h.always, h.present, h.copies⟩
      have herr : ∀ e (b' : PackBench), b'.Always (Secure s) →
          CopyOutcome hash s target (newEntries.map Prod.fst ++ id :: ids) (.error e, b') :=
        fun _ _ hb' => hb'
      refine Txn.outcome_reads (Txn.outcome_failIf (fun _ => herr _ _ hcopying.always) ?_)
      intro hfit
      refine Txn.outcome_preserved (always_writeRecord target id data) hcopying.always herr ?_
      intro _ b' hwrite hb'
      have hnext := hcopying.append hb' hvalid (Nat.le_of_not_lt hfit) hwrite
      have hrest := ih (fun a ha => hids a (List.mem_cons_of_mem _ ha)) hnext
      rw [List.map_append, List.append_assoc] at hrest
      exact hrest

/-- The loop takes a read and four writes for each chunk, and gets through exactly if each
is a chunk of `s` and no fault hits it. -/
theorem copyLive_spends (target : Nat) {ids : List ChunkId}
    (newEntries : List (ChunkId × IndexEntry)) (hids : Listed hash s ids)
    (hb : b.Always (Secure s)) (n : Nat) :
    ((∀ id ∈ ids, PackStore.getIfValidUnlocked hash s id ≠ none) ∧
        b.Clear (n + 5 * ids.length)) ↔
      (copyLive hash target ids newEntries b).1.isOk ∧
        (copyLive hash target ids newEntries b).2.Clear n := by
  induction ids generalizing newEntries b with
  | nil => simp [copyLive, Except.isOk, Except.toBool]
  | cons id ids ih =>
    have hlive := hb.device.live
    obtain ⟨entry, _, hentry, _⟩ := hids id List.mem_cons_self
    have hlook : getIfValidUnlocked hash id b = _ :=
      getIfValidUnlocked_indexed ((congrArg (·[id]?) hlive.2).trans hentry)
    rw [hids.lookup_eq List.mem_cons_self hlive.1 hlive.2] at hlook
    have hcount : n + 5 * (id :: ids).length = n + 5 * ids.length + 4 + 1 := by
      rw [List.length_cons]
      omega
    have hread := Bench.clear_succ (b := b) (c := { b with ticks := b.ticks + 1 }) rfl rfl
      (n + 5 * ids.length + 4)
    simp only [copyLive, Txn.bind_of_ok hlook]
    rw [hcount, hread, List.forall_mem_cons]
    by_cases hquiet : b.faults b.ticks = none
    · rw [if_pos hquiet]
      cases hvalid : PackStore.getIfValidUnlocked hash s id with
      | none => simp [Except.isOk, Except.toBool]
      | some data =>
        obtain ⟨_, -, hrecord, -⟩ := PackStore.getIfValid_some.mp hvalid
        obtain ⟨-, -, -, -, -, hmax⟩ := PackStore.intact_of_readRecord hrecord
        have hfit : ¬ data.length > u32Max := Nat.not_lt.mpr hmax
        have hwrites := spends_writeRecord target id data { b with ticks := b.ticks + 1 }
          (n + 5 * ids.length)
        have hkept := always_writeRecord target id data { b with ticks := b.ticks + 1 } hb
        simp only [Txn.reads_bind_run, Txn.failIf_bind_run, if_neg hfit, hwrites]
        rcases hwrite : writeRecord target id data { b with ticks := b.ticks + 1 } with
          ⟨e | _, b'⟩
        · simp [Txn.bind_of_error hwrite, Except.isOk, Except.toBool]
        · rw [hwrite] at hkept
          rw [Txn.bind_of_ok hwrite, ← ih _ (fun a ha => hids a (List.mem_cons_of_mem _ ha)) hkept]
          simp [hquiet, Except.isOk, Except.toBool]
    · rw [if_neg hquiet]
      simp [hquiet, Except.isOk, Except.toBool]

/-- `u` has the listed chunks of `s` and no others. -/
structure Rewrites (hash : Bytes → ChunkId) (s : PackStore) (live : List ChunkId) (u : PackStore) :
    Prop where
  reads : ∀ (id : ChunkId) (entry : IndexEntry), u.index[id]? = some entry →
    id ∈ live ∧ ∃ data, PackStore.getIfValidUnlocked hash s id = some data ∧
      PackStore.readRecord hash u entry = .ok data
  listed : ∀ id ∈ live, ∃ entry, u.index[id]? = some entry

/-- The store of the copies alone, as the index transaction makes it. -/
def copiedStore (s : PackStore) (target : Nat) (file : Bytes)
    (newEntries : List (ChunkId × IndexEntry)) : PackStore where
  segments := (∅ : Table Nat Bytes).insert target file
  index := Table.insertAll (Table.eraseAll s.index (s.index.toList.map Prod.fst)) newEntries
  activeSegment := some target
  nextSegment := some (saturatingAdd target 1)

theorem copiedStore_segments {segment : Nat} {file : Bytes} (h : segment ≠ target) :
    (copiedStore s target file newEntries).segments[segment]? = none := by
  rw [copiedStore, Table.get_insert, if_neg (Ne.symm h)]
  simp

/-- The index transaction drops every old row. -/
theorem copiedStore_rewrites {file : Bytes} (h : Copying hash s target newEntries b)
    (hfile : b.device.files.live[target]? = some file) :
    Rewrites hash s (newEntries.map Prod.fst) (copiedStore s target file newEntries) where
  reads id entry hentry := by
    rcases Table.of_get_insertAll hentry with hnew | hold
    · obtain ⟨hsegment, data, hvalid, hread⟩ := h.copies _ hnew
      refine ⟨List.mem_map_of_mem hnew, data, hvalid, ?_⟩
      have hsame : (copiedStore s target file newEntries).segments[entry.segment]? =
          b.device.store.segments[entry.segment]? := by
        rw [show entry.segment = target from hsegment, copiedStore, Table.get_insert, if_pos rfl]
        exact hfile.symm
      unfold PackStore.readRecord at hread ⊢
      rw [hsame]
      exact hread
    · rw [Table.get_eraseAll] at hold
      split at hold
      · cases hold
      · rename_i hnot
        exact absurd (List.mem_map_of_mem ((Table.mem_rows ..).mpr hold)) hnot
  listed id hid := by
    by_contra hnone
    rw [not_exists, ← Option.eq_none_iff_forall_ne_some] at hnone
    exact (Table.of_get_insertAll_none hnone).1 hid

/-- A compaction keeps the old store secure up to its commit and the copies since; it
commits exactly if `commits` holds. -/
def CompactOutcome (hash : Bytes → ChunkId) (s : PackStore) (live : List ChunkId) (commits : Prop)
    (b : PackBench) : Prop :=
  (b.Always (Secure s) ∧ ¬ commits) ∨
    (∃ u, Rewrites hash s live u ∧ b.Turned (Secure s) (Secure u)) ∧ commits

theorem CompactOutcome.congr {c c' : Prop} (hc : c ↔ c') (h : CompactOutcome hash s live c b) :
    CompactOutcome hash s live c' b := propext hc ▸ h

/-- One command on the way to the commit. -/
theorem compactOutcome_step {c : Prop} {n : Nat} {x : PackIo Unit}
    {f : Unit → PackIo CompactReport} (hkeeps : Txn.Preserves (Bench.Always (Secure s)) x)
    (hspends : Bench.Spends 1 x) (hb : b.Always (Secure s))
    (hok : ∀ b', x b = (.ok (), b') → b'.Always (Secure s) →
      CompactOutcome hash s live (c ∧ b'.Clear n) (f () b').2) :
    CompactOutcome hash s live (c ∧ b.Clear (n + 1)) ((x >>= f) b).2 := by
  have hspent := hspends b n
  have hb' := hkeeps b hb
  refine Txn.outcome_bind (P := fun o => CompactOutcome hash s live _ o.2) (fun e b' hrun => ?_)
    (fun _ b' hrun => ?_)
  · rw [hrun] at hspent hb'
    refine .inl ⟨hb', fun hclear => ?_⟩
    cases (hspent.mp hclear.2).1
  · rw [hrun] at hspent hb'
    refine (hok b' hrun hb').congr ?_
    rw [hspent]
    simp [Except.isOk, Except.toBool]

/-- The commit of a compaction and the unlinks behind it. -/
theorem finish_outcome {file : Bytes}
    (hrewrites : Rewrites hash s live (copiedStore s target file newEntries))
    (hb : b.Always (Secure s)) (hholds : Holds (s.segments.insert target file) b.device.files) :
    CompactOutcome hash s live (b.Clear 1) ((do
      replaceIndex target (saturatingAdd target 1) newEntries
      let removed ← Txn.reads fun b => PackStore.obsolete target b.device.store
      Txn.forEach (fun segment => Bench.ignore (unlink segment)) removed
      syncDir
      pure (⟨newEntries.length, removed.length⟩ : CompactReport) : PackIo CompactReport) b).2 := by
  have hspent : b.Clear 1 ↔ (replaceIndex target (saturatingAdd target 1) newEntries b).1.isOk ∧
      (replaceIndex target (saturatingAdd target 1) newEntries b).2.Clear 0 :=
    Bench.Spends.command b 0
  refine Txn.outcome_bind (P := fun o => CompactOutcome hash s live _ o.2) (fun e b' hcommit => ?_)
    (fun _ b' hcommit => ?_)
  · rcases commit_cases _ hcommit with ⟨hr, -⟩ | ⟨_, -, rfl⟩
    · cases hr
    · refine .inl ⟨hb.next hb.device, fun hclear => ?_⟩
      have hok := (hspent.mp hclear).1
      rw [hcommit] at hok
      cases hok
  · have hcopied : Extends (copiedStore s target file newEntries).segments
        (s.segments.insert target file) := by
      intro n found hfound
      by_cases hn : n = target
      · subst hn
        rw [copiedStore, Table.get_insert, if_pos rfl] at hfound
        exact ⟨found, by rw [Table.get_insert, if_pos rfl, hfound], List.prefix_rfl⟩
      · rw [copiedStore_segments hn] at hfound
        cases hfound
    have hturned : b'.Turned (Secure s) (Secure (copiedStore s target file newEntries)) := by
      rcases commit_cases _ hcommit with ⟨-, rfl⟩ | ⟨_, hr, -⟩
      · refine hb.turn ⟨hholds.mono hcopied, ?_, rfl, rfl⟩
        simp only [hb.device.index_eq]
        rfl
      · cases hr
    have hclear : b.Clear 1 := by
      refine hspent.mpr ⟨?_, Bench.clear_zero _⟩
      rw [hcommit]
      rfl
    refine .inr ⟨⟨_, hrewrites, ?_⟩, hclear⟩
    rw [Txn.reads_bind_run]
    -- every file but the target may go now
    have hunlinks : Txn.Preserves
        (Bench.Turned (Secure s) (Secure (copiedStore s target file newEntries)))
        (Txn.forEach (fun segment => Bench.ignore (unlink segment))
          (PackStore.obsolete target b'.device.store)) := by
      refine .forEach _ fun segment hsegment => Bench.preserves_ignore ?_
      have hne : segment ≠ target := by
        simpa using (List.mem_filter.mp hsegment).2
      exact turned_onFiles fun d hd => hd.unlink (copiedStore_segments hne)
    have hsync : Txn.Preserves
        (Bench.Turned (Secure s) (Secure (copiedStore s target file newEntries))) syncDir :=
      turned_onFiles fun d hd => hd.syncDir
    refine (hunlinks.bind fun _ => hsync.bind fun _ => ?_) b' hturned
    exact fun _ h => h

/-- What the copy needs to get to its commit. -/
def CopyCommits (hash : Bytes → ChunkId) (s : PackStore) (live : List ChunkId) (b : PackBench) :
    Prop :=
  (∀ id ∈ live, PackStore.getIfValidUnlocked hash s id ≠ none) ∧ b.Clear (5 * live.length + 5)

theorem compactInto_outcome (hlive : Listed hash s live) (hfree : s.segments[target]? = none)
    (hb : b.Always (Secure s)) :
    CompactOutcome hash s live (CopyCommits hash s live b) (compactInto hash target live b).2 := by
  have hcount : 5 * live.length + 5 = 3 + 5 * live.length + 1 + 1 := by omega
  rw [CopyCommits, hcount]
  refine compactOutcome_step (always_create hfree) .command hb fun b₁ hcreate hb₁ => ?_
  refine compactOutcome_step always_syncDir .command hb₁ fun b₂ hsync hb₂ => ?_
  have hstart : Copying hash s target [] b₂ := by
    refine ⟨hb₂, ⟨[], ?_⟩, by simp [Copies]⟩
    rw [onFiles_ok Disk.syncDir hsync, onFiles_ok (Disk.create target) hcreate]
    simp [Disk.syncDir, Disk.create]
  have hcopy := copyLive_outcome hlive hstart
  have hspent := copyLive_spends target [] hlive hb₂ 3
  refine Txn.outcome_bind (P := fun o => CompactOutcome hash s live _ o.2) (fun e b₃ hrun => ?_)
    (fun copied b₃ hrun => ?_)
  · rw [hrun] at hcopy hspent
    refine .inl ⟨hcopy, fun hclear => ?_⟩
    cases (hspent.mp hclear).1
  · rw [hrun] at hcopy hspent
    obtain ⟨hcopying, hkeys⟩ := hcopy
    obtain ⟨file, hfile⟩ := hcopying.present
    have hrewrites := copiedStore_rewrites hcopying hfile
    rw [hkeys, List.map_nil, List.nil_append] at hrewrites
    refine .congr (c := True ∧ b₃.Clear (1 + 1 + 1)) ?_ ?_
    · rw [hspent]
      simp [Except.isOk, Except.toBool]
    refine compactOutcome_step (always_onFiles fun _ hd => hd.syncFile target) .command
      hcopying.always fun b₄ hfileSync hb₄ => ?_
    refine compactOutcome_step always_syncDir .command hb₄ fun b₅ hdirSync hb₅ => ?_
    have hdevice : b₅.device =
        { b₃.device with files := (b₃.device.files.syncFile target).syncDir } := by
      rw [onFiles_ok Disk.syncDir hdirSync, onFiles_ok (Disk.syncFile target) hfileSync]
    refine (finish_outcome hrewrites hb₅ ?_).congr (iff_of_eq (true_and _)).symm
    rw [hdevice]
    exact hcopying.always.device.files.insert hfile

/-- The chunks that `compact` takes to be alive. -/
def listed (hash : Bytes → ChunkId) (s : PackStore) (faults : Nat → Option IoFault) :
    List ChunkId := readableRows hash s faults s.index.toList 0

theorem mem_listed :
    id ∈ listed hash s faults ↔ ∃ i entry data, s.index.toList[i]? = some (id, entry) ∧
      faults i = none ∧ PackStore.readRecord hash s entry = .ok data := by
  simp only [listed, readableRows, List.mem_map, List.mem_filter, Prod.exists,
    List.mk_mem_zipIdx_iff_getElem?, Bool.and_eq_true, Option.isNone_iff_eq_none]
  constructor
  · rintro ⟨_, entry, i, ⟨hrow, hquiet, hok⟩, rfl⟩
    cases hdata : PackStore.readRecord hash s entry with
    | error e =>
      rw [hdata] at hok
      cases hok
    | ok data => exact ⟨i, entry, data, hrow, hquiet, hdata⟩
  · rintro ⟨i, entry, data, hrow, hquiet, hdata⟩
    refine ⟨id, entry, i, ⟨hrow, hquiet, ?_⟩, rfl⟩
    rw [hdata]
    rfl

theorem listed_listed (hash : Bytes → ChunkId) (s : PackStore) (faults : Nat → Option IoFault) :
    Listed hash s (listed hash s faults) := by
  intro id hid
  obtain ⟨i, entry, data, hrow, -, hdata⟩ := mem_listed.mp hid
  exact ⟨entry, data, (Table.mem_rows ..).mp (List.mem_of_getElem? hrow), hdata⟩

/-- A chunk that can be read is listed exactly if no fault hits the read of its row. -/
theorem listed_iff_quiet {i : Nat} {entry : IndexEntry}
    (hrow : s.index.toList[i]? = some (id, entry))
    (hvalid : PackStore.getIfValidUnlocked hash s id ≠ none) :
    id ∈ listed hash s faults ↔ faults i = none := by
  constructor
  · intro hid
    obtain ⟨j, other, _, hother, hquiet, -⟩ := mem_listed.mp hid
    have hentry := (Table.mem_rows ..).mp (List.mem_of_getElem? hrow)
    rw [(Table.mem_rows ..).mp (List.mem_of_getElem? hother)] at hentry
    cases hentry
    obtain ⟨hlt, -⟩ := List.getElem?_eq_some_iff.mp hother
    rwa [← (List.getElem?_inj hlt (Table.rows_nodup s.index)).mp (hother.trans hrow.symm)]
  · intro hquiet
    obtain ⟨data, hdata⟩ := Option.ne_none_iff_exists'.mp hvalid
    obtain ⟨entry', hentry', hread, -⟩ := PackStore.getIfValid_some.mp hdata
    rw [(Table.mem_rows ..).mp (List.mem_of_getElem? hrow)] at hentry'
    cases hentry'
    exact mem_listed.mpr ⟨i, entry, data, hrow, hquiet, hread⟩

/-- A compaction of `s` gets to its index transaction and commits it: it finds its
counter, every chunk it has listed is there for the copy, and no fault hits a step from
the creation of the target to the commit. -/
structure Commits (hash : Bytes → ChunkId) (s : PackStore) (faults : Nat → Option IoFault) :
    Prop where
  counter : s.nextSegment ≠ none
  valid : ∀ id ∈ listed hash s faults, PackStore.getIfValidUnlocked hash s id ≠ none
  quiet : ∀ i < 5 * (listed hash s faults).length + 5,
    faults (s.index.toList.length + i) = none

/-- A compaction of a store on stable storage: whether it commits and what it leaves. -/
theorem compact_outcome {o : Except FluxError CompactReport × PackBench}
    (h : compact hash (.start (.durable s) faults) = some o) :
    CompactOutcome hash s (listed hash s faults) (Commits hash s faults) o.2 := by
  have hlist : listChunksUnlocked hash (.start (.durable s) faults) = (.ok (listed hash s faults),
      ⟨.durable s, faults, 0 + s.index.toList.length, []⟩) := listRows_run hash s.index.toList _
  have hb : Bench.Always (Secure s)
      (⟨.durable s, faults, 0 + s.index.toList.length, []⟩ : PackBench) := by
    intro d hd
    rw [List.mem_singleton.mp hd]
    exact .durable s
  have hstore : (PackDisk.durable s).store = s := rfl
  simp only [compact, hlist, readU64Meta, Txn.query_run, hstore] at h
  cases hnext : s.nextSegment with
  | none =>
    simp only [hnext] at h
    cases h
    exact .inl ⟨hb, fun hcommits => hcommits.counter hnext⟩
  | some nextSeg =>
    simp only [hnext, Option.map_eq_some_iff] at h
    obtain ⟨target, htarget, rfl⟩ := h
    refine (compactInto_outcome (listed_listed hash s faults)
      (PackStore.findFree_free htarget) hb).congr ⟨fun hcopy => ?_, fun hcommits => ?_⟩
    · refine ⟨by simp [hnext], hcopy.1, fun i hi => ?_⟩
      simpa using hcopy.2 i hi
    · refine ⟨hcommits.valid, fun i hi => ?_⟩
      simpa using hcommits.quiet i hi

/-- A compaction returns exactly if it has no counter to start from or finds a segment
number that is not taken. -/
theorem compact_isSome_iff (hnext : s.nextSegment.getD 0 ≤ u64Max) :
    (compact hash (.start (.durable s) faults)).isSome ↔
      ∀ nextSeg, s.nextSegment = some nextSeg → s.HasRoom nextSeg := by
  have hlist : listChunksUnlocked hash (.start (.durable s) faults) =
      (.ok (listed hash s faults), ⟨.durable s, faults, 0 + s.index.toList.length, []⟩) :=
    listRows_run hash s.index.toList _
  have hstore : (PackDisk.durable s).store = s := rfl
  simp only [compact, hlist, readU64Meta, Txn.query_run, hstore]
  cases hcounter : s.nextSegment with
  | none => simp
  | some nextSeg =>
    rw [hcounter] at hnext
    have hsearch := PackStore.findFree_isSome_iff (s := s) hnext
    simpa [hstore] using hsearch

/-- A compaction keeps a chunk that it listed, and any chunk if it does not commit. -/
theorem CompactOutcome.valid {c : Prop} (h : CompactOutcome hash s live c b)
    (hlive : c → id ∈ live) (hvalid : PackStore.getIfValidUnlocked hash s id = some data) :
    PackStore.getIfValidUnlocked hash b.device.store id = some data := by
  rcases h with ⟨hsame, -⟩ | ⟨⟨u, hrewrites, hturned⟩, hc⟩
  · have hlive := hsame.device.live
    exact PackStore.getIfValid_extends hlive.1 hlive.2 hvalid
  · have hnew := hturned.now.live
    refine PackStore.getIfValid_extends hnew.1 hnew.2 ?_
    obtain ⟨entry, hentry⟩ := hrewrites.listed id (hlive hc)
    obtain ⟨-, found, hfound, hread⟩ := hrewrites.reads id entry hentry
    rw [hvalid] at hfound
    cases hfound
    obtain ⟨-, -, -, hhash⟩ := PackStore.getIfValid_some.mp hvalid
    exact PackStore.getIfValid_some.mpr ⟨entry, hentry, hread, hhash⟩

/-- What a compaction that commits leaves was listed. -/
theorem CompactOutcome.listed {c : Prop} (h : CompactOutcome hash s live c b) (hc : c)
    (hfound : PackStore.getIfValidUnlocked hash b.device.store id = some data) : id ∈ live := by
  rcases h with ⟨-, hnot⟩ | ⟨⟨u, hrewrites, hturned⟩, -⟩
  · exact absurd hc hnot
  · obtain ⟨entry, hentry, -⟩ := PackStore.getIfValid_some.mp hfound
    rw [hturned.now.live.2] at hentry
    exact (hrewrites.reads id entry hentry).1

end PackIo

namespace PackStore

theorem get_ok {hash : Bytes → ChunkId} {s : PackStore} {id : ChunkId} {data : Bytes} :
    get hash s id = .ok data ↔ getIfValidUnlocked hash s id = some data := by
  unfold get
  cases getIfValidUnlocked hash s id with
  | none => simp
  | some found => simp

/-- A compaction returns and every chunk that could be read before it can be read after it
with the same bytes, whatever faults hit it, exactly if the search for a segment number
ends and, where the compaction commits, no fault hits the listing's read of a chunk that
could be read. -/
theorem compact_keeps_chunks (hash : Bytes → ChunkId) (s : PackStore)
    (faults : Nat → Option IoFault) (hnext : s.nextSegment.getD 0 ≤ u64Max) :
    (∃ r b, PackIo.compact hash (.start (.durable s) faults) = some (r, b) ∧
      ∀ id data, get hash s id = .ok data → get hash b.device.store id = .ok data) ↔
    (∀ nextSeg, s.nextSegment = some nextSeg → s.HasRoom nextSeg) ∧
      (PackIo.Commits hash s faults → ∀ i id entry, s.index.toList[i]? = some (id, entry) →
        getIfValidUnlocked hash s id ≠ none → faults i = none) := by
  simp only [get_ok]
  constructor
  · rintro ⟨r, b, hrun, hkept⟩
    refine ⟨(PackIo.compact_isSome_iff hnext).mp (Option.isSome_of_eq_some hrun), ?_⟩
    intro hcommits i id entry hrow hvalid
    obtain ⟨data, hdata⟩ := Option.ne_none_iff_exists'.mp hvalid
    exact (PackIo.listed_iff_quiet hrow hvalid).mp
      ((PackIo.compact_outcome hrun).listed hcommits (hkept id data hdata))
  · rintro ⟨hroom, hlisting⟩
    have hsome : (PackIo.compact hash (.start (.durable s) faults)).isSome :=
      (PackIo.compact_isSome_iff hnext).mpr hroom
    obtain ⟨⟨r, b⟩, hrun⟩ := Option.isSome_iff_exists.mp hsome
    refine ⟨r, b, hrun, fun id data hget => ?_⟩
    refine (PackIo.compact_outcome hrun).valid (fun hcommits => ?_) hget
    obtain ⟨entry, hentry, -⟩ := getIfValid_some.mp hget
    obtain ⟨i, hi⟩ := List.mem_iff_getElem?.mp ((Table.mem_rows s.index id entry).mpr hentry)
    have hvalid : getIfValidUnlocked hash s id ≠ none := by simp [hget]
    exact (PackIo.listed_iff_quiet hi hvalid).mpr (hlisting hcommits i id entry hi hvalid)

/-- One chunk in a fresh store. -/
def sampleStore : PackStore := (put sampleHash 1000 [1] (openStore emptyDir)).2

/-- The write of the copy's payload stops after no byte. -/
def writeFault : Nat → Option IoFault := fun i => if i = 7 then some ⟨0, "EIO"⟩ else none

theorem compact_keeps_chunks_writeFault :
    ∃ r b, PackIo.compact sampleHash (.start (.durable sampleStore) writeFault) = some (r, b) ∧
      get sampleHash b.device.store (sampleHash [1]) = .ok [1] := by
  have hroom : ∀ nextSeg, sampleStore.nextSegment = some nextSeg →
      sampleStore.HasRoom nextSeg := by
    intro nextSeg hcounter
    have hlow : nextSeg ≤ 2 := by
      have hlow : sampleStore.nextSegment.getD 0 ≤ 2 := by decide +kernel
      rwa [hcounter] at hlow
    exact ⟨2, hlow, by decide, by decide +kernel⟩
  have hlisting : PackIo.Commits sampleHash sampleStore writeFault → ∀ i id entry,
      sampleStore.index.toList[i]? = some (id, entry) →
        getIfValidUnlocked sampleHash sampleStore id ≠ none → writeFault i = none := by
    intro _ i id entry hrow _
    have hshort : sampleStore.index.toList.length = 1 := by decide +kernel
    obtain ⟨hlt, -⟩ := List.getElem?_eq_some_iff.mp hrow
    have hi : i = 0 := by omega
    rw [hi]
    rfl
  obtain ⟨r, b, hrun, hkept⟩ :=
    (compact_keeps_chunks sampleHash sampleStore writeFault (by decide +kernel)).mpr
      ⟨hroom, hlisting⟩
  exact ⟨r, b, hrun, hkept _ _ (by decide +kernel)⟩

/-- The one read of the listing fails: the compaction reports success, and the chunk
is gone. -/
theorem listing_fault_loses_chunk :
    get sampleHash sampleStore (sampleHash [1]) = .ok [1] ∧
      (PackIo.compact sampleHash (.start (.durable sampleStore)
        fun i => if i = 0 then some ⟨0, "EIO"⟩ else none)).map
          (fun o => (o.1, get sampleHash o.2.device.store (sampleHash [1]))) =
        some (.ok ⟨0, 1⟩, .error .notFound) := by
  decide +kernel

end PackStore

end FluxFS
