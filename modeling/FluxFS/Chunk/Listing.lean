import FluxFS.Chunk.Walk
import FluxFS.Lib.Run

/-!
# Listing — walkers of one remote store

`rpc_loop` of `crates/chunk/src/remote.rs` serves `list_chunks_page` for all callers
with one set of worker cursors. A call without a cursor clears them, a call with one
goes on from wherever they are, and a refresh that rebuilds the routing clears them too.
-/

namespace FluxFS

open Kit

/-! ## The serving loop -/

/-- What `rpc_loop` keeps between commands. -/
structure RpcLoop where
  clients : List WorkerTargetId
  membership : Option WorkerMembership
  lastHealthy : List WorkerTargetId
  repairCursor : Cursors
  listCursor : Cursors

/-- The answer to a health probe. -/
structure HealthResponse where
  workerId : WorkerTargetId
  ready : Bool

/-- `healthy_workers`, over the clients that are left; `none` is a failed health call. -/
def healthyWorkers (health : WorkerTargetId → Option HealthResponse) :
    Table WorkerTargetId Unit → List WorkerTargetId → Except FluxError (List WorkerTargetId)
  | healthy, [] => .ok (healthy.toList.map Prod.fst)
  | healthy, client :: clients =>
    match health client with
    | none => healthyWorkers health healthy clients
    | some response =>
      if response.ready ∧ response.workerId ≠ client then
        .error (.invalidArg s!"configured worker id {client} answered as {response.workerId}")
      else if response.ready ∧ healthy[response.workerId]?.isSome then
        .error (.invalidArg s!"duplicate remote worker id {response.workerId}")
      else if response.ready then
        healthyWorkers health (healthy.insert response.workerId ()) clients
      else healthyWorkers health healthy clients

section
variable (listChunks : WorkerTargetId → Option ChunkId → Nat → Except FluxError ListChunksResponse)
  (health : WorkerTargetId → Option HealthResponse) (rounds : Nat)

/-- `all_chunks_page`, with the cursors it leaves. -/
def allChunksPage (clients : List WorkerTargetId) (listCursor : Cursors) (limit : Nat) :
    Option (Except FluxError ChunkPage × Cursors) :=
  if limit = 0 then
    some (.error (.invalidArg "chunk inventory page limit must be non-zero"), listCursor)
  else
    match healthyWorkers health ∅ clients with
    | .error error => some (.error error, listCursor)
    | .ok healthy =>
      match inventoryPage listChunks limit rounds healthy listCursor with
      | none => none
      | some (.error error, listCursor) => some (.error error, listCursor)
      | some (.ok page, listCursor) =>
        let chunks := page.chunks.toList.map Prod.fst
        some (.ok ⟨chunks, if page.more then chunks.getLast? else none⟩, listCursor)

/-- `handle_command` for `ListChunksPage`. -/
def RpcLoop.listChunksPage (loop : RpcLoop) (cursor : Option ChunkId) (limit : Nat) :
    Option (Except FluxError ChunkPage × RpcLoop) :=
  let listCursor := if cursor.isNone then ∅ else loop.listCursor
  (allChunksPage listChunks health rounds loop.clients listCursor limit).map
    fun (reply, listCursor) => (reply, { loop with listCursor := listCursor })

end

/-- The ids of `active_at`. -/
def WorkerMembership.activeIds (membership : WorkerMembership) (nowMs : Nat) :
    List WorkerTargetId :=
  (membership.workers.filter (·.leaseDeadlineMs > nowMs)).map (·.id)

/-- `routing_changed` of `apply_membership_refresh`. -/
def RpcLoop.routingChanged (loop : RpcLoop) (refreshed : WorkerMembership) (nowMs : Nat) : Prop :=
  (loop.membership.all (·.epoch ≠ refreshed.epoch)) = true ∨
    Table.ordSet (refreshed.activeIds nowMs) ≠ Table.ordSet loop.clients

instance (loop : RpcLoop) (refreshed : WorkerMembership) (nowMs : Nat) :
    Decidable (loop.routingChanged refreshed nowMs) := inferInstanceAs (Decidable (_ ∨ _))

/-- A refresh of the membership: `apply_membership_refresh` and what `rpc_loop` clears after
it. The channels are built at `buildMs`, and `built` says whether that succeeded. -/
def RpcLoop.refresh (loop : RpcLoop) (refreshed : WorkerMembership) (nowMs buildMs : Nat)
    (built : Bool) : RpcLoop :=
  if ¬ loop.routingChanged refreshed nowMs then { loop with membership := some refreshed }
  else if ¬ built then loop
  else ⟨refreshed.activeIds buildMs, some refreshed, [], ∅, ∅⟩

/-! ## Walkers -/

/-- How far a walker has come. -/
inductive WalkerState where
  | fresh
  | waiting (cursor : ChunkId)
  | finished
deriving DecidableEq

/-- The cursor of a walker's next request. -/
def WalkerState.cursor : WalkerState → Option ChunkId
  | .waiting cursor => some cursor
  | _ => none

/-- A page a walker has been given. -/
structure PageReply where
  walker : Nat
  cursor : Option ChunkId
  page : ChunkPage
deriving DecidableEq, Repr

/-- One store, its walkers, and the pages it has returned. -/
structure Listing where
  loop : RpcLoop
  walkers : Nat → WalkerState
  replies : List PageReply

/-- An event at the client: a walker asks for a page, or the membership is refreshed. -/
inductive ListEvent where
  | page (walker limit : Nat)
  | refresh (refreshed : WorkerMembership) (nowMs buildMs : Nat) (built : Bool)

/-- Every worker answers its health call. -/
def allHealthy (worker : WorkerTargetId) : Option HealthResponse := some ⟨worker, true⟩

/-- A walker asks for its next page until the cursor it gets is `None`. -/
def Listing.step (lists : WorkerTargetId → List ChunkId) (rounds : Nat) (s : Listing) :
    ListEvent → Option Listing
  | .refresh refreshed nowMs buildMs built =>
    some { s with loop := s.loop.refresh refreshed nowMs buildMs built }
  | .page walker limit =>
    if s.walkers walker = .finished then some s
    else
      let cursor := (s.walkers walker).cursor
      match s.loop.listChunksPage (answering lists) allHealthy rounds cursor limit with
      | none => none
      | some (.error _, loop) => some { s with loop := loop }
      | some (.ok page, loop) =>
        some
          { loop := loop
            walkers := Function.update s.walkers walker
              (page.nextCursor.elim .finished .waiting)
            replies := s.replies ++ [⟨walker, cursor, page⟩] }

/-! ## An undisturbed walk -/

section
variable {lists : WorkerTargetId → List ChunkId} {clients : List WorkerTargetId}
  {rounds limit : Nat} {cursor : Cursors}

theorem healthyWorkers_all {healthy : Table WorkerTargetId Unit} (hclients : clients.Nodup)
    (hnew : ∀ w ∈ clients, healthy[w]? = none) :
    healthyWorkers allHealthy healthy clients =
      .ok ((Table.insertAll healthy (clients.map (·, ()))).toList.map Prod.fst) := by
  induction clients generalizing healthy with
  | nil => rfl
  | cons client clients ih =>
    obtain ⟨hclient, hclients⟩ := List.nodup_cons.mp hclients
    rw [healthyWorkers, allHealthy]
    dsimp only
    rw [if_neg (by simp), if_neg (by simp [hnew client List.mem_cons_self]), if_pos rfl]
    refine ih hclients fun w hw => ?_
    have hne : client ≠ w := fun heq => hclient (heq ▸ hw)
    rw [Table.get_insert, if_neg hne]
    exact hnew w (List.mem_cons_of_mem _ hw)

/-- A reply that returns the chunks behind `cursor` up to `cursor'`. -/
structure Served (lists : WorkerTargetId → List ChunkId) (healthy : List WorkerTargetId)
    (cursor : Cursors) (page : ChunkPage) (cursor' : Cursors) : Prop where
  drains : ∃ rows, Drains healthy (unseen lists cursor) rows (unseen lists cursor') ∧
    rows.map Prod.fst = page.chunks
  next : ∀ c ∈ page.nextCursor, c ∈ page.chunks
  done : page.nextCursor = none → ∀ w ∈ healthy, unseen lists cursor' w = []

theorem allChunksPage_ok (hclients : clients.Nodup) (hsorted : ∀ w ∈ clients, SortedBy id (lists w))
    (hlimit : 1 ≤ limit) (hrounds : limit < rounds) (cursor : Cursors) :
    ∃ page cursor', allChunksPage (answering lists) allHealthy rounds clients cursor limit =
      some (.ok page, cursor') ∧ Served lists (Table.ordSet clients) cursor page cursor' := by
  have hhealthy : healthyWorkers allHealthy ∅ clients = .ok (Table.ordSet clients) :=
    healthyWorkers_all hclients fun w _ => by simp
  obtain ⟨page, cursor', hpage, hpageOf⟩ := inventoryPage_spec hlimit
    (fun w hw => hsorted w (Table.mem_ordSet.mp hw)) hrounds cursor
  rw [allChunksPage, if_neg (by omega), hhealthy]
  dsimp only
  rw [hpage]
  refine ⟨_, _, rfl, ⟨_, hpageOf.drains, rfl⟩, fun c hc => ?_, fun hnone w hw => ?_⟩
  · dsimp only at hc
    split at hc
    · exact List.mem_of_getLast? hc
    · cases hc
  · -- a page with more to come is full, so it has a last key
    by_contra hleft
    have hmore := hpageOf.more.mpr ⟨w, hw, hleft⟩
    dsimp only at hnone
    rw [if_pos hmore, List.getLast?_eq_none_iff, List.map_eq_nil_iff] at hnone
    have hfull := hpageOf.full hmore
    rw [hnone, List.length_nil] at hfull
    omega

/-- No other walker's request, and no refresh that rebuilds the routing. -/
def Listing.Quiet (walker rounds : Nat) (s : Listing) : ListEvent → Prop
  | .page other limit => other = walker ∧ 1 ≤ limit ∧ limit < rounds
  | .refresh refreshed nowMs _ built => ¬ (s.loop.routingChanged refreshed nowMs ∧ built = true)

instance (walker rounds : Nat) (s : Listing) (e : ListEvent) :
    Decidable (s.Quiet walker rounds e) :=
  match e with
  | .page _ _ => inferInstanceAs (Decidable (_ ∧ _))
  | .refresh _ _ _ _ => inferInstanceAs (Decidable (¬ _))

/-- The event is a walker's. -/
def ListEvent.isPage : ListEvent → Bool
  | .page _ _ => true
  | .refresh _ _ _ _ => false

/-- The cursors the walker's next request starts from. -/
def Listing.start (s : Listing) (walker : Nat) : Cursors :=
  if (s.walkers walker).cursor.isNone then ∅ else s.loop.listCursor

/-- A walk that has got `replies` with `asked` requests. -/
structure Walking (lists : WorkerTargetId → List ChunkId) (clients : List WorkerTargetId)
    (walker asked : Nat) (s : Listing) (replies : List PageReply) : Prop where
  routed : s.loop.clients = clients
  contract : ∀ r ∈ replies, r.walker = walker ∧ ∀ c ∈ r.cursor, ∀ chunk ∈ r.page.chunks, c < chunk
  /-- What is not returned yet lies behind the cursors. -/
  going : s.walkers walker ≠ .finished → ∃ taken,
    Drains (Table.ordSet clients) lists taken (unseen lists (s.start walker)) ∧
      taken.map Prod.fst = replies.flatMap (·.page.chunks) ∧
      (∀ c ∈ (s.walkers walker).cursor, c ∈ taken.map Prod.fst) ∧
      asked + unseenCount lists (Table.ordSet clients) (s.start walker) ≤
        unseenCount lists (Table.ordSet clients) ∅
  finished : s.walkers walker = .finished → ∃ taken cursor,
    Drains (Table.ordSet clients) lists taken (unseen lists cursor) ∧
      taken.map Prod.fst = replies.flatMap (·.page.chunks) ∧
      ∀ w ∈ Table.ordSet clients, unseen lists cursor w = []

variable {walker asked : Nat} {s : Listing} {replies : List PageReply} {e : ListEvent}

/-- What is not finished has a page more. -/
theorem Walking.page (hclients : clients.Nodup) (hsorted : ∀ w ∈ clients, SortedBy id (lists w))
    (h : Walking lists clients walker asked s replies) (hgoing : s.walkers walker ≠ .finished)
    (hlimit : 1 ≤ limit) (hrounds : limit < rounds) :
    ∃ t reply, s.step lists rounds (.page walker limit) = some t ∧
      t.replies = s.replies ++ [reply] ∧
      Walking lists clients walker (asked + 1) t (replies ++ [reply]) := by
  obtain ⟨page, cursor', hpage, hserved⟩ := allChunksPage_ok hclients hsorted hlimit hrounds
    (s.start walker)
  obtain ⟨rows, hrows, hchunks⟩ := hserved.drains
  obtain ⟨taken, hdrains, hkeys, hcursor, hasked⟩ := h.going hgoing
  have hreply : s.loop.listChunksPage (answering lists) allHealthy rounds (s.walkers walker).cursor
      limit = some (.ok page, { s.loop with listCursor := cursor' }) := by
    rw [← h.routed, Listing.start] at hpage
    rw [RpcLoop.listChunksPage, hpage]
    rfl
  have hflat : (taken ++ rows).map Prod.fst =
      (replies ++ [PageReply.mk walker (s.walkers walker).cursor page]).flatMap
        (·.page.chunks) := by
    rw [List.map_append, List.flatMap_append, hkeys, hchunks]
    simp
  rw [Listing.step, if_neg hgoing]
  dsimp only
  rw [hreply]
  refine ⟨_, _, rfl, rfl, h.routed, fun r hr => ?_, fun hmore => ?_, fun hdone => ?_⟩
  · rcases List.mem_append.mp hr with hr | hr
    · exact h.contract r hr
    · rw [List.mem_singleton.mp hr]
      refine ⟨rfl, fun c hc chunk hchunk => ?_⟩
      rw [← hchunks] at hchunk
      obtain ⟨row, hrow, rfl⟩ := List.mem_map.mp hchunk
      obtain ⟨-, w, hw, hmem⟩ := hrows.holders (show (row.1, row.2) ∈ _ from hrow)
      obtain ⟨old, hold, rfl⟩ := List.mem_map.mp (hcursor c hc)
      exact hdrains.sorted.2 old hold w hw row.1 hmem
  · cases hnext : page.nextCursor with
    | none =>
      rw [hnext] at hmore
      simp at hmore
    | some last =>
      have hlast : last ∈ page.chunks := hserved.next last hnext
      have hsome : rows ≠ [] := by
        rintro rfl
        rw [← hchunks] at hlast
        cases hlast
      have hless := hrows.length_lt hsome
      simp only [Listing.start, Function.update_self, Option.elim_some, WalkerState.cursor,
        Option.isNone_some, Bool.false_eq_true, if_false]
      refine ⟨_, hdrains.append hrows, hflat, fun c hc => ?_, ?_⟩
      · cases hc
        rw [List.map_append, hchunks]
        exact List.mem_append_right _ hlast
      · rw [unseenCount] at hasked ⊢
        omega
  · cases hnext : page.nextCursor with
    | none => exact ⟨_, cursor', hdrains.append hrows, hflat, hserved.done hnext⟩
    | some last =>
      rw [hnext] at hdone
      simp at hdone

/-- A refresh that does not rebuild the routing keeps what the listing uses. -/
theorem refresh_quiet {loop : RpcLoop} {refreshed : WorkerMembership} {nowMs : Nat}
    (buildMs : Nat) {built : Bool} (h : ¬ (loop.routingChanged refreshed nowMs ∧ built = true)) :
    (loop.refresh refreshed nowMs buildMs built).clients = loop.clients ∧
      (loop.refresh refreshed nowMs buildMs built).listCursor = loop.listCursor := by
  rw [RpcLoop.refresh]
  by_cases hchanged : loop.routingChanged refreshed nowMs
  · rw [if_neg (not_not.mpr hchanged), if_pos fun hbuilt => h ⟨hchanged, hbuilt⟩]
    exact ⟨rfl, rfl⟩
  · rw [if_pos hchanged]
    exact ⟨rfl, rfl⟩

theorem Walking.step (hclients : clients.Nodup) (hsorted : ∀ w ∈ clients, SortedBy id (lists w))
    (h : Walking lists clients walker asked s replies) (hquiet : s.Quiet walker rounds e) :
    ∃ t more, s.step lists rounds e = some t ∧ t.replies = s.replies ++ more ∧
      Walking lists clients walker (asked + if e.isPage then 1 else 0) t (replies ++ more) := by
  cases e with
  | page other limit =>
    obtain ⟨rfl, hlimit, hrounds⟩ := hquiet
    by_cases hgoing : s.walkers other = .finished
    · refine ⟨s, [], by rw [Listing.step, if_pos hgoing], by simp, ?_⟩
      rw [List.append_nil]
      exact ⟨h.routed, h.contract, fun hne => absurd hgoing hne, h.finished⟩
    · obtain ⟨t, reply, hstep, hreplies, hwalking⟩ := h.page hclients hsorted hgoing hlimit
        hrounds
      exact ⟨t, [reply], hstep, hreplies, hwalking⟩
  | refresh refreshed nowMs buildMs built =>
    obtain ⟨hkept, hcursor⟩ := refresh_quiet buildMs hquiet
    refine ⟨_, [], rfl, by simp, hkept.trans h.routed, by simpa using h.contract, ?_, ?_⟩
    · simpa [Listing.start, hcursor, ListEvent.isPage] using h.going
    · simpa using h.finished

theorem Walking.exec (hclients : clients.Nodup) (hsorted : ∀ w ∈ clients, SortedBy id (lists w))
    {events : List ListEvent} (h : Walking lists clients walker asked s replies)
    (hquiet : Along (Listing.step lists rounds) (Listing.Quiet walker rounds) s events) :
    ∃ t more, exec (Listing.step lists rounds) s events = some t ∧ t.replies = s.replies ++ more ∧
      Walking lists clients walker (asked + (events.filter (·.isPage)).length) t
        (replies ++ more) := by
  induction events generalizing s asked replies with
  | nil => exact ⟨s, [], rfl, by simp, by simpa using h⟩
  | cons e events ih =>
    obtain ⟨hfirst, hrest⟩ := hquiet
    obtain ⟨t, more, hstep, hreplies, hwalking⟩ := h.step hclients hsorted hfirst
    obtain ⟨u, later, hexec, hreplies', hwalking'⟩ := ih hwalking (hrest t hstep)
    refine ⟨u, more ++ later, ?_, ?_, ?_⟩
    · rw [exec_cons, hstep]
      exact hexec
    · rw [hreplies', hreplies, List.append_assoc]
    · rw [List.append_assoc] at hwalking'
      convert hwalking' using 1
      cases e with
      | page => simp [ListEvent.isPage]; omega
      | refresh => simp [ListEvent.isPage]

end

/-- A walk that no other walker's request and no routing rebuild comes into keeps the paging
contract: it returns every chunk once and in order, pages after a cursor lie behind it, and
it is finished when more pages were asked for than there are chunks on the workers. -/
theorem undisturbed_walk_exact (lists : WorkerTargetId → List ChunkId) (walker rounds : Nat)
    (s : Listing) (events : List ListEvent) (hclients : s.loop.clients.Nodup)
    (hsorted : ∀ w ∈ s.loop.clients, SortedBy id (lists w)) (hfresh : s.walkers walker = .fresh)
    (hquiet : Along (Listing.step lists rounds) (Listing.Quiet walker rounds) s events) :
    ∃ t replies, exec (Listing.step lists rounds) s events = some t ∧
      t.replies = s.replies ++ replies ∧
      (∀ r ∈ replies, r.walker = walker ∧ ∀ c ∈ r.cursor, ∀ chunk ∈ r.page.chunks, c < chunk) ∧
      SortedBy id (replies.flatMap (·.page.chunks)) ∧
      (∀ chunk ∈ replies.flatMap (·.page.chunks), ∃ w ∈ s.loop.clients, chunk ∈ lists w) ∧
      (t.walkers walker = .finished → ∀ w ∈ s.loop.clients, ∀ chunk ∈ lists w,
        chunk ∈ replies.flatMap (·.page.chunks)) ∧
      (unseenCount lists (Table.ordSet s.loop.clients) ∅ < (events.filter (·.isPage)).length →
        t.walkers walker = .finished) := by
  have hstart : Walking lists s.loop.clients walker 0 s [] := by
    refine ⟨rfl, nofun, fun _ => ⟨[], ?_, rfl, ?_, ?_⟩, fun h => ?_⟩
    · rw [Listing.start, hfresh]
      exact .nil fun w _ => by simp [WalkerState.cursor, unseen_empty]
    · rw [hfresh]
      exact nofun
    · rw [Listing.start, hfresh]
      simp [WalkerState.cursor]
    · rw [hfresh] at h
      cases h
  obtain ⟨t, replies, hexec, hreplies, h⟩ := hstart.exec hclients hsorted hquiet
  rw [Nat.zero_add, List.nil_append] at h
  -- finished or not, the replies are what was drained
  have hdrained : ∃ taken rest, Drains (Table.ordSet s.loop.clients) lists taken rest ∧
      taken.map Prod.fst = replies.flatMap (·.page.chunks) := by
    by_cases hdone : t.walkers walker = .finished
    · obtain ⟨taken, cursor, hdrains, hkeys, _⟩ := h.finished hdone
      exact ⟨taken, _, hdrains, hkeys⟩
    · obtain ⟨taken, hdrains, hkeys, _⟩ := h.going hdone
      exact ⟨taken, _, hdrains, hkeys⟩
  obtain ⟨taken, rest, hdrains, hkeys⟩ := hdrained
  refine ⟨t, replies, hexec, hreplies, h.contract, ?_, fun chunk hchunk => ?_, fun hdone => ?_, ?_⟩
  · rw [← hkeys]
    exact List.pairwise_map.mpr hdrains.sorted.1
  · rw [← hkeys] at hchunk
    obtain ⟨row, hrow, rfl⟩ := List.mem_map.mp hchunk
    obtain ⟨-, w, hw, hmem⟩ := hdrains.holders (show (row.1, row.2) ∈ _ from hrow)
    exact ⟨w, Table.mem_ordSet.mp hw, hmem⟩
  · intro w hw chunk hchunk
    obtain ⟨taken, cursor, hdrains, hkeys, hnone⟩ := h.finished hdone
    rw [← hkeys]
    exact hdrains.nothing_left_iff.mp hnone w (Table.mem_ordSet.mpr hw) chunk hchunk
  · intro hasked
    by_contra hgoing
    obtain ⟨_, _, _, _, hbound⟩ := h.going hgoing
    omega

/-! ## Disturbed walks -/

/-- One worker with three chunks. -/
def threeChunks (worker : WorkerTargetId) : List ChunkId :=
  if worker = 1 then [.ofByte 1, .ofByte 2, .ofByte 3] else []

/-- A store that has served nobody yet. -/
def idleListing : Listing :=
  ⟨⟨[1], some ⟨1, [⟨1, "a:1", "rack-a", chunkSize, chunkSize, 10⟩]⟩, [], ∅, ∅⟩, fun _ => .fresh, []⟩

/-- Four requests around a refresh that only extends a lease. -/
def quietEvents : List ListEvent :=
  [.page 0 2, .refresh ⟨1, [⟨1, "a:1", "rack-a", chunkSize, chunkSize, 20⟩]⟩ 5 5 true, .page 0 2,
    .page 0 2, .page 0 2]

theorem undisturbed_walk_exact_idleListing :
    ∃ t replies, exec (Listing.step threeChunks 3) idleListing quietEvents = some t ∧
      t.replies = [] ++ replies ∧ t.walkers 0 = .finished ∧
      ∀ chunk ∈ threeChunks 1, chunk ∈ replies.flatMap (·.page.chunks) := by
  have hsorted : ∀ w ∈ idleListing.loop.clients, SortedBy id (threeChunks w) := by
    unfold SortedBy
    decide
  obtain ⟨t, replies, hexec, hreplies, _, _, _, hall, hfinished⟩ :=
    undisturbed_walk_exact threeChunks 0 3 idleListing quietEvents (by decide) hsorted rfl
      (by decide +kernel)
  have hdone := hfinished (by decide +kernel)
  exact ⟨t, replies, hexec, hreplies, hdone, hall hdone 1 (by decide)⟩

/-- Two walkers share the cursors: each misses what the other was given. A refresh with a new
epoch clears them: the page after a cursor starts again below it. -/
theorem shared_cursor_breaks_paging :
    (exec (Listing.step threeChunks 2) idleListing
        [.page 0 1, .page 1 1, .page 0 1, .page 1 1, .page 0 1]).map
      (fun t => (t.walkers 0, t.walkers 1, t.replies.map fun r => (r.walker, r.page.chunks))) =
        some (.finished, .finished, [(0, [.ofByte 1]), (1, [.ofByte 1]), (0, [.ofByte 2]),
          (1, [.ofByte 3]), (0, [])]) ∧
    (exec (Listing.step threeChunks 2) idleListing
        [.page 0 1, .refresh ⟨2, [⟨1, "a:1", "rack-a", chunkSize, chunkSize, 20⟩]⟩ 5 5 true,
          .page 0 1]).map
      (fun t => t.replies.map fun r => (r.cursor, r.page.chunks)) =
        some [(none, [.ofByte 1]), (some (.ofByte 1), [.ofByte 1])] := by
  decide +kernel

end FluxFS
