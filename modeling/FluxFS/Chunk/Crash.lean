import FluxFS.Chunk.Inventory

/-!
# Crash — the pack store is found before or after an operation

`perform_lands`: a run without faults keeps the old store secure up to one index
commit and the new one since, and the commit makes of the chunks what the outcome
says (`effect`). A store that extends a secure one serves the same chunks
(`Sound.extends`), whatever a crash left behind in its files, so both the
reopened store and every later run come from the same step lemma.
-/

namespace FluxFS

open Std Kit

/-- What an operation with its outcome makes of the chunks. -/
def effect (m : ChunkId → Option Bytes) : PackOp × PackOutcome → ChunkId → Option Bytes
  | (.put data, .ok (.stored id)) => Function.update m id (some data)
  | (.delete id, .ok _) => Function.update m id none
  | _ => m

/-- The chunks after a history that began with `m`. -/
def served (m : ChunkId → Option Bytes) (hist : PackHistory) : ChunkId → Option Bytes :=
  hist.foldr (fun row m => effect m row) m

namespace PackStore

variable {hash : Bytes → ChunkId} {roll : Nat} {s t u : PackStore} {op : PackOp}
  {outcome : PackOutcome}

/-- A put that finds the active segment full. -/
def Rolls (hash : Bytes → ChunkId) (roll : Nat) (s : PackStore) : PackOp → Prop
  | .put data => getIfValidUnlocked hash s (hash data) ≠ some data ∧
      ∃ active, s.activeSegment = some active ∧ roll ≤ s.segmentLen active
  | _ => False

/-- The chunk-to-bytes map of a store. -/
def chunkMap (hash : Bytes → ChunkId) (s : PackStore) (id : ChunkId) : Option Bytes :=
  (get hash s id).toOption

theorem chunkMap_eq (hash : Bytes → ChunkId) (s : PackStore) :
    chunkMap hash s = getIfValidUnlocked hash s := by
  funext id
  unfold chunkMap get
  cases getIfValidUnlocked hash s id with
  | none => rfl
  | some data => rfl

/-- Opening a store changes counters only. -/
theorem Sound.openStore (h : Sound hash s) :
    Sound hash (openStore s) ∧ getIfValidUnlocked hash (openStore s) =
      getIfValidUnlocked hash s := by
  unfold PackStore.openStore
  split
  · exact h.extends (Extends.refl _) rfl
  · exact ⟨h, rfl⟩

end PackStore

namespace PackIo

variable {hash : Bytes → ChunkId} {roll : Nat} {s u : PackStore} {b : PackBench}

/-! ## One operation -/

/-- The copies have their own chunks. -/
theorem Rewrites.sound {live : List ChunkId} (h : Rewrites hash s live u) :
    PackStore.Sound hash u := by
  intro id entry hentry
  obtain ⟨-, data, hvalid, hread⟩ := h.reads id entry hentry
  obtain ⟨-, -, -, hhash⟩ := PackStore.getIfValid_some.mp hvalid
  exact ⟨data, hread, hhash⟩

/-- Copies of everything that could be read are the same chunks. -/
theorem Rewrites.chunks {live : List ChunkId} (h : Rewrites hash s live u)
    (hall : ∀ id data, PackStore.getIfValidUnlocked hash s id = some data → id ∈ live) :
    PackStore.getIfValidUnlocked hash u = PackStore.getIfValidUnlocked hash s := by
  funext id
  cases hvalid : PackStore.getIfValidUnlocked hash s id with
  | some data =>
    obtain ⟨entry, hentry⟩ := h.listed id (hall id data hvalid)
    obtain ⟨-, found, hfound, hread⟩ := h.reads id entry hentry
    rw [hvalid] at hfound
    cases hfound
    obtain ⟨-, -, -, hhash⟩ := PackStore.getIfValid_some.mp hvalid
    exact PackStore.getIfValid_some.mpr ⟨entry, hentry, hread, hhash⟩
  | none =>
    rw [Option.eq_none_iff_forall_ne_some]
    intro data hdata
    obtain ⟨entry, hentry, -, -⟩ := PackStore.getIfValid_some.mp hdata
    obtain ⟨-, found, hfound, -⟩ := h.reads id entry hentry
    rw [hvalid] at hfound
    cases hfound

/-- A compaction without faults keeps the chunks on both sides of its commit. -/
theorem compact_lands {o : Except FluxError CompactReport × PackBench}
    (hs : PackStore.Sound hash s)
    (h : compact hash (.start (.durable s) fun _ => none) = some o) :
    Lands hash s (PackStore.getIfValidUnlocked hash s) o.2 := by
  rcases compact_outcome h with ⟨hsame, -⟩ | ⟨⟨u, hrewrites, hturned⟩, -⟩
  · exact .stay hs hsame
  · refine ⟨u, hrewrites.sound, hrewrites.chunks fun id data hvalid => ?_, hturned⟩
    obtain ⟨entry, hentry, hread, -⟩ := PackStore.getIfValid_some.mp hvalid
    obtain ⟨i, hi⟩ := List.mem_iff_getElem?.mp ((Table.mem_rows s.index id entry).mpr hentry)
    exact mem_listed.mpr ⟨i, entry, data, hi, rfl, hread⟩

/-- An operation on a sound store that is all on stable storage. -/
theorem perform_lands {op : PackOp} {outcome : PackOutcome} (hs : PackStore.Sound hash s)
    (hroll : ¬ PackStore.Rolls hash roll s op)
    (h : perform hash roll (.start (.durable s) fun _ => none) op = some (outcome, b)) :
    Lands hash s (effect (PackStore.getIfValidUnlocked hash s) (op, outcome)) b := by
  have hb : Bench.Always (Secure s) (.start (.durable s) fun _ => none : PackBench) := by
    intro d hd
    rw [List.mem_singleton.mp hd]
    exact .durable s
  have hquiet : Bench.Quiet (.start (.durable s) fun _ => none : PackBench) := fun _ => rfl
  cases op with
  | put data =>
    have hfull : PackStore.getIfValidUnlocked hash s (hash data) ≠ some data →
        ∀ active, s.activeSegment = some active → s.segmentLen active < roll := by
      intro hnew active hactive
      by_contra hfull
      exact hroll ⟨hnew, active, hactive, Nat.le_of_not_lt hfull⟩
    have hput : PutOutcome hash s data (put hash roll data (.start (.durable s) fun _ => none)) :=
      put_outcome hs hb rfl hquiet hfull
    rcases hrun : put hash roll data (.start (.durable s) fun _ => none) with ⟨r, b'⟩
    rw [hrun] at hput
    simp only [perform, hrun, Option.some.injEq, Prod.mk.injEq] at h
    obtain ⟨rfl, rfl⟩ := h
    cases r with
    | error e => exact .stay hs hput
    | ok id =>
      obtain ⟨rfl, hlands⟩ := hput
      exact hlands
  | delete id =>
    obtain ⟨hsound, hchunks⟩ := hs.eraseEntry id
    obtain ⟨b', hrun, hlands⟩ := commit_lands (fun d => { d with index := d.index.erase id }) hb
      hquiet hsound hchunks ⟨.durable _, rfl, rfl, rfl⟩
    have hdelete : delete id (.start (.durable s) fun _ => none) = (.ok (), b') := hrun
    simp only [perform, hdelete, Option.some.injEq, Prod.mk.injEq] at h
    obtain ⟨rfl, rfl⟩ := h
    exact hlands
  | compact =>
    simp only [perform, Option.map_eq_some_iff] at h
    obtain ⟨⟨r, b'⟩, hrun, hsame⟩ := h
    cases hsame
    exact compact_lands hs hrun
  | reopen =>
    have hsame : effect (PackStore.getIfValidUnlocked hash s) (.reopen, outcome) =
        PackStore.getIfValidUnlocked hash s := rfl
    rw [hsame]
    simp only [perform, openStore, Txn.reads_bind_run, Option.some.injEq, Prod.mk.injEq] at h
    obtain ⟨-, rfl⟩ := h
    by_cases hfresh : s.nextSegment = none
    · obtain ⟨hsound, hchunks⟩ := hs.openStore
      rw [PackStore.openStore, if_pos hfresh] at hsound hchunks
      obtain ⟨b', hrun, hlands⟩ :=
        commit_lands (fun d => { d with nextSegment := some 1, activeSegment := some 1 }) hb
          hquiet hsound hchunks ⟨.durable _, rfl, rfl, rfl⟩
      have hset : decide ((Bench.start (PackDisk.durable s) fun _ => none :
          PackBench).device.store.nextSegment = none) = true := decide_eq_true hfresh
      rw [if_pos hset, hrun]
      exact hlands
    · have hkept : ¬ decide ((Bench.start (PackDisk.durable s) fun _ => none :
          PackBench).device.store.nextSegment = none) = true := by
        rw [decide_eq_true_eq]
        exact hfresh
      rw [if_neg hkept]
      exact .stay hs hb

end PackIo

namespace PackStore

variable {hash : Bytes → ChunkId} {roll : Nat} {s t u : PackStore} {op : PackOp}
  {outcome : PackOutcome}

/-- An operation of `Pack` is the run of its commands. -/
theorem perform_eq_run (hash : Bytes → ChunkId) (roll : Nat) (s : PackStore) (op : PackOp) :
    (PackIo.perform hash roll (.start (.durable s) fun _ => none) op).map
      (fun o => (o.1, o.2.device.store)) = perform hash roll s op :=
  PackIo.perform_mirrors hash roll (.start (.durable s) fun _ => none) (fun _ => rfl) op

/-- What one operation that rolls no segment makes of a sound store. -/
theorem perform_sound (hs : Sound hash s) (hroll : ¬ Rolls hash roll s op)
    (h : perform hash roll s op = some (outcome, t)) :
    Sound hash t ∧ chunkMap hash t = effect (chunkMap hash s) (op, outcome) := by
  rw [← perform_eq_run, Option.map_eq_some_iff] at h
  obtain ⟨⟨outcome', b⟩, hrun, hsame⟩ := h
  cases hsame
  obtain ⟨u, hu, hchunks, hturned⟩ := PackIo.perform_lands hs hroll hrun
  obtain ⟨hfiles, hindex⟩ := hturned.now.live
  obtain ⟨hsound, hsame⟩ := hu.extends hfiles hindex
  refine ⟨hsound, ?_⟩
  rw [chunkMap_eq, chunkMap_eq, hsame, hchunks]

/-! ## Answers -/

/-- Both counters are there. -/
def Counted (s : PackStore) : Prop := s.activeSegment.isSome ∧ s.nextSegment.isSome

/-- The counters were left alone, or both set. -/
def KeepsCounters (s t : PackStore) : Prop :=
  t.activeSegment = s.activeSegment ∧ t.nextSegment = s.nextSegment ∨ Counted t

instance : Std.Refl KeepsCounters := ⟨fun _ => .inl ⟨rfl, rfl⟩⟩

theorem KeepsCounters.counted (h : KeepsCounters s t) (hc : Counted s) : Counted t := by
  rcases h with ⟨hactive, hnext⟩ | hset
  · rw [Counted, hactive, hnext]
    exact hc
  · exact hset

instance : IsTrans PackStore KeepsCounters where
  trans s t u hst htu := by
    rcases hst with ⟨hactive, hnext⟩ | hset
    · rw [KeepsCounters, ← hactive, ← hnext]
      exact htu
    · exact .inr (htu.counted hset)

theorem Sound.listed_valid (hs : Sound hash s) :
    ∀ id ∈ listChunks hash s, ∃ data, getIfValidUnlocked hash s id = some data := by
  intro id hid
  obtain ⟨entry, _, hentry, -⟩ := mem_listChunks.mp hid
  obtain ⟨data, hread, hhash⟩ := hs id entry hentry
  exact ⟨data, getIfValid_some.mpr ⟨entry, hentry, hread, hhash⟩⟩

theorem createIfMissing_keepsCounters (segment : Nat) (s : PackStore) :
    KeepsCounters s (s.createIfMissing segment) := by
  unfold createIfMissing
  split
  · exact .inl ⟨rfl, rfl⟩
  · exact .inl ⟨rfl, rfl⟩

theorem chooseSegment_keepsCounters (roll active nextSeg : Nat) :
    Txn.Keeps KeepsCounters (chooseSegment roll active nextSeg) := by
  refine .modify_bind (createIfMissing_keepsCounters active) fun _ => .reads_bind fun offset => ?_
  split
  · exact .modify_bind (fun _ => .inl ⟨rfl, rfl⟩) fun _ => .pure _
  · exact .pure _

theorem put_keepsCounters (hash : Bytes → ChunkId) (roll : Nat) (data : Bytes) :
    Txn.Keeps KeepsCounters (put hash roll data) := by
  refine .reads_bind fun existing => ?_
  split
  · exact .pure _
  · refine .query_bind fun active => .query_bind fun nextSeg => ?_
    refine (chooseSegment_keepsCounters roll active nextSeg).bind fun p => ?_
    refine .reads_bind fun offset => .failIf_bind fun _ => ?_
    refine .modify_bind (fun _ => .inl ⟨rfl, rfl⟩) fun _ => ?_
    exact .modify_bind (fun _ => .inr ⟨rfl, rfl⟩) fun _ => .pure _

/-- With its counters there, a put of a chunk that fits answers with its id. -/
theorem put_answers (hc : Counted s) {data : Bytes} (hfit : data.length ≤ u32Max) :
    (put hash roll data s).1 = .ok (hash data) := by
  obtain ⟨active, hactive⟩ := Option.isSome_iff_exists.mp hc.1
  obtain ⟨nextSeg, hnext⟩ := Option.isSome_iff_exists.mp hc.2
  obtain ⟨p, u, hchoose⟩ : ∃ p u, chooseSegment roll active nextSeg s = (.ok p, u) := by
    rw [chooseSegment_run]
    split
    · exact ⟨_, _, rfl⟩
    · exact ⟨_, _, rfl⟩
  rw [put, putLocked, Txn.reads_bind_run]
  split
  · rfl
  · simp only [readU64Meta, Txn.query_bind_run, hactive, hnext]
    rw [Txn.bind_of_ok hchoose]
    simp only [Txn.reads_bind_run, Txn.failIf_bind_run, if_neg (Nat.not_lt.mpr hfit)]
    rfl

/-- What one operation does to the counters. -/
theorem perform_keepsCounters (hs : Sound hash s) (h : perform hash roll s op = some (outcome, t)) :
    KeepsCounters s t := by
  cases op with
  | put data =>
    simp only [perform, Option.some.injEq, Prod.mk.injEq] at h
    obtain ⟨-, rfl⟩ := h
    exact put_keepsCounters hash roll data s
  | delete id =>
    simp only [perform, Option.some.injEq, Prod.mk.injEq] at h
    obtain ⟨-, rfl⟩ := h
    exact .inl ⟨rfl, rfl⟩
  | compact =>
    simp only [perform, Option.map_eq_some_iff] at h
    obtain ⟨⟨r, u⟩, hrun, hsame⟩ := h
    cases hsame
    rcases compact_answers hs.listed_valid hrun with ⟨-, -, rfl⟩ | ⟨-, hset⟩
    · exact .inl ⟨rfl, rfl⟩
    · exact .inr hset
  | reopen =>
    simp only [perform, Option.some.injEq, Prod.mk.injEq] at h
    obtain ⟨-, rfl⟩ := h
    unfold PackStore.openStore
    split
    · exact .inr ⟨rfl, rfl⟩
    · exact .inl ⟨rfl, rfl⟩

/-- With the counters there only a put of too long a chunk fails. -/
theorem perform_answers {e : FluxError} (hs : Sound hash s) (hc : Counted s)
    (h : perform hash roll s op = some (.error e, t)) :
    ∃ data, op = .put data ∧ u32Max < data.length := by
  cases op with
  | put data =>
    refine ⟨data, rfl, ?_⟩
    by_contra hfit
    simp only [perform, put_answers hc (Nat.le_of_not_lt hfit), Option.some.injEq,
      Prod.mk.injEq] at h
    cases h.1
  | delete id =>
    simp only [perform, Option.some.injEq, Prod.mk.injEq] at h
    cases h.1
  | compact =>
    simp only [perform, Option.map_eq_some_iff] at h
    obtain ⟨⟨r, u⟩, hrun, hsame⟩ := h
    rcases compact_answers hs.listed_valid hrun with ⟨hnext, -, -⟩ | ⟨⟨report, rfl⟩, -⟩
    · have hsome := hc.2
      rw [hnext] at hsome
      cases hsome
    · cases hsame
  | reopen =>
    simp only [perform, Option.some.injEq, Prod.mk.injEq] at h
    cases h.1

/-! ## Runs -/

/-- Where a run from `s` has got to: the chunks are those of the history, and with the
counters there only puts of too long a chunk have failed. -/
structure Serves (hash : Bytes → ChunkId) (s : PackStore) (st : PackStore × PackHistory) :
    Prop where
  sound : Sound hash st.1
  chunks : chunkMap hash st.1 = served (chunkMap hash s) st.2
  answers : Counted s → Counted st.1 ∧ ∀ op e, (op, .error e) ∈ st.2 →
    ∃ data, op = .put data ∧ u32Max < data.length

theorem Serves.step {st st' : PackStore × PackHistory} (h : Serves hash s st)
    (hroll : ¬ Rolls hash roll st.1 op) (hstep : packStep hash roll st op = some st') :
    Serves hash s st' := by
  obtain ⟨t, hist⟩ := st
  simp only [packStep, Option.map_eq_some_iff] at hstep
  obtain ⟨⟨outcome, t'⟩, hperform, rfl⟩ := hstep
  obtain ⟨hsound, hchunks⟩ := perform_sound h.sound hroll hperform
  refine ⟨hsound, ?_, fun hc => ?_⟩
  · rw [hchunks, h.chunks]
    rfl
  · obtain ⟨hcounted, hfailed⟩ := h.answers hc
    refine ⟨(perform_keepsCounters h.sound hperform).counted hcounted, fun op' e hmem => ?_⟩
    rcases List.mem_cons.mp hmem with heq | hold
    · cases heq
      exact perform_answers h.sound hcounted hperform
    · exact hfailed op' e hold

/-- A run that rolls no segment. -/
theorem run_serves {ops : List PackOp} {st : PackStore × PackHistory} (hs : Sound hash s)
    (hroll : Along (packStep hash roll) (fun st op => ¬ Rolls hash roll st.1 op) (s, []) ops)
    (hrun : exec (packStep hash roll) (s, []) ops = some st) : Serves hash s st :=
  exec_invariant_along (I := Serves hash s) (fun _ _ _ hI hP hstep => hI.step hP hstep) ops _ _
    ⟨hs, rfl, fun hc => ⟨hc, by simp⟩⟩ hroll hrun

/-! ## Crashes -/

/-- What is left of a store by a crash between two commands of an operation. -/
theorem crash_cases {d : PackDisk} (hs : Sound hash s) (hroll : ¬ Rolls hash roll s op)
    (hd : d ∈ PackIo.crashPoints hash roll s op) (hcrash : d.Survives t) :
    Sound hash t ∧ KeepsCounters s t ∧ (chunkMap hash t = chunkMap hash s ∨
      ∃ outcome s', perform hash roll s op = some (outcome, s') ∧
        chunkMap hash t = chunkMap hash s') := by
  -- a crash in a state that holds `v` leaves the chunks and the counters of `v`
  have hfound : ∀ {v : PackStore}, Sound hash v → Secure v d →
      Sound hash t ∧ chunkMap hash t = chunkMap hash v ∧
        t.activeSegment = v.activeSegment ∧ t.nextSegment = v.nextSegment := by
    intro v hv hsecure
    obtain ⟨hfiles, hindex⟩ := hsecure.survive hcrash
    obtain ⟨hsound, hchunks⟩ := hv.extends hfiles hindex
    exact ⟨hsound, by rw [chunkMap_eq, chunkMap_eq, hchunks],
      hcrash.active_eq.trans hsecure.active_eq, hcrash.next_eq.trans hsecure.next_eq⟩
  by_cases hbefore : Secure s d
  · obtain ⟨hsound, hchunks, hactive, hnext⟩ := hfound hs hbefore
    exact ⟨hsound, .inl ⟨hactive, hnext⟩, .inl hchunks⟩
  unfold PackIo.crashPoints at hd
  cases hrun : PackIo.perform hash roll (.start (.durable s) fun _ => none) op with
  | none =>
    rw [hrun] at hd
    rw [List.mem_singleton.mp hd] at hbefore
    exact absurd (.durable s) hbefore
  | some o =>
    obtain ⟨outcome, b⟩ := o
    rw [hrun] at hd
    obtain ⟨u, hu, hchunks, hturned⟩ := PackIo.perform_lands hs hroll hrun
    have hperform : perform hash roll s op = some (outcome, b.device.store) := by
      rw [← perform_eq_run, hrun]
      rfl
    rcases hturned.always d hd with hold | hnew
    · exact absurd hold hbefore
    · obtain ⟨hsound, hsame, hactive, hnext⟩ := hfound hu hnew
      obtain ⟨-, hafter⟩ := perform_sound hs hroll hperform
      refine ⟨hsound, ?_, .inr ⟨outcome, _, hperform, ?_⟩⟩
      · have hkeeps := perform_keepsCounters hs hperform
        have hactive' : b.device.store.activeSegment = u.activeSegment := hturned.now.active_eq
        have hnext' : b.device.store.nextSegment = u.nextSegment := hturned.now.next_eq
        rw [KeepsCounters, Counted, hactive, hnext, ← hactive', ← hnext']
        exact hkeeps
      · rw [hsame, hafter, chunkMap_eq, chunkMap_eq, hchunks]

theorem KeepsCounters.openStore (h : KeepsCounters s t)
    (hpaired : s.nextSegment.isSome → s.activeSegment.isSome) : Counted (openStore t) := by
  unfold PackStore.openStore
  split
  · exact ⟨rfl, rfl⟩
  · rename_i hnext
    rcases h with ⟨hactive, hsame⟩ | hset
    · have hsome : t.nextSegment.isSome := Option.isSome_iff_ne_none.mpr hnext
      exact ⟨hactive ▸ hpaired (hsame ▸ hsome), hsome⟩
    · exact hset

/-- A store found after a crash inside an operation that rolls no segment has the
chunks from before the operation or those from after it. Every later run that rolls
no segment serves them, changed as the run's history says; in it only puts of too
long a chunk fail, if `open` wrote the counters, and every operation returns while
segment numbers last. -/
theorem pack_crash_atomic (hash : Bytes → ChunkId) (roll : Nat) (s : PackStore) (op : PackOp)
    (d : PackDisk) (t : PackStore) (hs : Sound hash s) (hroll : ¬ Rolls hash roll s op)
    (hd : d ∈ PackIo.crashPoints hash roll s op) (hcrash : d.Survives t) :
    (chunkMap hash (openStore t) = chunkMap hash s ∨
      ∃ outcome s', perform hash roll s op = some (outcome, s') ∧
        chunkMap hash (openStore t) = chunkMap hash s') ∧
    ∀ ops u hist,
      Along (packStep hash roll) (fun st op => ¬ Rolls hash roll st.1 op) (openStore t, []) ops →
      exec (packStep hash roll) (openStore t, []) ops = some (u, hist) →
      chunkMap hash u = served (chunkMap hash (openStore t)) hist ∧
      ((s.nextSegment.isSome → s.activeSegment.isSome) → ∀ op e, (op, .error e) ∈ hist →
        ∃ data, op = .put data ∧ u32Max < data.length) ∧
      (u.nextSegment.getD 0 + u.segments.size < u64Max →
        ∀ op, (packStep hash roll (u, hist) op).isSome) := by
  obtain ⟨hsound, hcounters, hchunks⟩ := crash_cases hs hroll hd hcrash
  obtain ⟨hopened, hsame⟩ := hsound.openStore
  have hmap : chunkMap hash (openStore t) = chunkMap hash t := by
    rw [chunkMap_eq, chunkMap_eq, hsame]
  rw [hmap]
  refine ⟨hchunks, fun ops u hist hops hrun => ?_⟩
  have hserves := run_serves hopened hops hrun
  refine ⟨hmap ▸ hserves.chunks, fun hpaired => ?_, fun hroom op => packStep_isSome hroom op⟩
  exact (hserves.answers (hcounters.openStore hpaired)).2

/-- The store once its chunk is deleted, with the torn start of an append behind the
record. -/
def crashedStore : PackStore :=
  { sampleStore with
    segments := Table.mapValues (· ++ [0x31, 0x4b]) sampleStore.segments
    index := sampleStore.index.erase (sampleHash [1]) }

theorem pack_crash_atomic_crashedStore :
    (chunkMap sampleHash (openStore crashedStore) = chunkMap sampleHash sampleStore ∨
      ∃ outcome s', perform sampleHash 1000 sampleStore (.delete (sampleHash [1])) =
        some (outcome, s') ∧
        chunkMap sampleHash (openStore crashedStore) = chunkMap sampleHash s') ∧
    chunkMap sampleHash sampleStore (sampleHash [1]) = some [1] ∧
    chunkMap sampleHash (openStore crashedStore) (sampleHash [1]) = none := by
  have hrows : ∀ row ∈ sampleStore.index.toList,
      (readRecord sampleHash sampleStore row.2).toOption.any (sampleHash · = row.1) := by
    decide +kernel
  have hs : Sound sampleHash sampleStore := by
    intro id entry hentry
    have hrow := hrows (id, entry) ((Table.mem_rows ..).mpr hentry)
    cases hread : readRecord sampleHash sampleStore entry with
    | error e =>
      rw [hread] at hrow
      cases hrow
    | ok data =>
      rw [hread] at hrow
      exact ⟨data, rfl, of_decide_eq_true hrow⟩
  let d : PackDisk :=
    { PackDisk.durable sampleStore with index := sampleStore.index.erase (sampleHash [1]) }
  have hcrash : d.Survives crashedStore := by
    refine ⟨⟨fun i _ hlive => ?_, fun i hfile => ?_, fun i file hfile => ?_⟩, rfl, rfl, rfl⟩
    · rw [crashedStore, Table.get_mapValues, Option.isSome_map]
      exact hlive
    · rw [crashedStore, Table.get_mapValues, Option.isSome_map] at hfile
      exact .inl hfile
    · rw [crashedStore, Table.get_mapValues, Option.map_eq_some_iff] at hfile
      obtain ⟨old, hold, rfl⟩ := hfile
      have hsynced : d.files.synced i = old := by simp [d, PackDisk.durable, Disk.durable, hold]
      rw [hsynced]
      exact List.prefix_append ..
  exact ⟨(pack_crash_atomic sampleHash 1000 sampleStore (.delete (sampleHash [1])) d crashedStore hs
    id List.mem_cons_self hcrash).1, by decide +kernel, by decide +kernel⟩

end PackStore
end FluxFS
