import FluxFS.Chunk.Remote

/-!
# Walk — the whole inventory, page by page

A caller of `inventory_page_with_holders` goes on until `more` is false. Over
inventories that do not change, the pages drain the workers' lists.
-/

namespace FluxFS

open Kit

/-- Calling `inventory_page_with_holders` until `more` is false. -/
def inventoryWalk
    (listChunks : WorkerTargetId → Option ChunkId → Nat → Except FluxError ListChunksResponse)
    (limit rounds : Nat) (healthy : List WorkerTargetId) :
    Nat → Cursors → Option (Except FluxError (List InventoryPage))
  | 0, _ => none
  | fuel + 1, cursor =>
    match inventoryPage listChunks limit rounds healthy cursor with
    | none => none
    | some (.error error, _) => some (.error error)
    | some (.ok page, cursor) =>
      if page.more then
        (inventoryWalk listChunks limit rounds healthy fuel cursor).map (·.map (page :: ·))
      else some (.ok [page])

section
variable {lists : WorkerTargetId → List ChunkId} {healthy : List WorkerTargetId} {limit : Nat}
  {cursor : Cursors} {pages : List InventoryPage}

/-- The pages of a finished walk. -/
inductive Walked (lists : WorkerTargetId → List ChunkId) (healthy : List WorkerTargetId)
    (limit : Nat) : Cursors → List InventoryPage → Prop
  | last {cursor page cursor'} : PageOf lists healthy limit cursor page cursor' →
      page.more = false → Walked lists healthy limit cursor [page]
  | more {cursor page cursor' pages} : PageOf lists healthy limit cursor page cursor' →
      page.more = true → Walked lists healthy limit cursor' pages →
        Walked lists healthy limit cursor (page :: pages)

/-- The keys and holders of some pages. -/
def inventoryRows (pages : List InventoryPage) : List (ChunkId × List WorkerTargetId) :=
  pages.flatMap (·.chunks.toList)

/-- How much the workers still have behind their cursors. -/
def unseenCount (lists : WorkerTargetId → List ChunkId) (healthy : List WorkerTargetId)
    (cursor : Cursors) : Nat :=
  (healthy.map fun w => (unseen lists cursor w).length).sum

theorem inventoryWalk_walked (hlimit : 1 ≤ limit) (hsorted : ∀ w ∈ healthy, SortedBy id (lists w))
    {rounds fuel : Nat} (hrounds : limit < rounds)
    (hfuel : unseenCount lists healthy cursor < fuel) :
    ∃ pages, inventoryWalk (answering lists) limit rounds healthy fuel cursor = some (.ok pages) ∧
      Walked lists healthy limit cursor pages := by
  induction fuel generalizing cursor with
  | zero => exact absurd hfuel (Nat.not_lt_zero _)
  | succ fuel ih =>
    obtain ⟨page, cursor', hpage, hpageOf⟩ := inventoryPage_spec hlimit hsorted hrounds cursor
    rw [inventoryWalk, hpage]
    cases hmore : page.more with
    | false => exact ⟨[page], by simp [hmore], .last hpageOf hmore⟩
    | true =>
      -- a full page has taken something
      have hsome : page.chunks.toList ≠ [] := by
        intro hnil
        have hfull := hpageOf.full hmore
        rw [hnil, List.length_nil] at hfull
        omega
      have hless : unseenCount lists healthy cursor' < unseenCount lists healthy cursor :=
        hpageOf.drains.length_lt hsome
      obtain ⟨pages, hpages, hwalked⟩ :=
        ih (show unseenCount lists healthy cursor' < fuel by omega)
      refine ⟨page :: pages, ?_, .more hpageOf hmore hwalked⟩
      dsimp only
      rw [hmore, hpages]
      rfl

/-- The pages up to any one of a walk drain the lists, and that one says whether
something is left. -/
theorem Walked.upTo (h : Walked lists healthy limit cursor pages)
    {before after : List InventoryPage} {page : InventoryPage}
    (hsplit : pages = before ++ page :: after) :
    ∃ cursor', Drains healthy (unseen lists cursor) (inventoryRows (before ++ [page]))
      (unseen lists cursor') ∧ (page.more = true ↔ ∃ w ∈ healthy, unseen lists cursor' w ≠ []) := by
  induction h generalizing before with
  | @last cursor first cursor' hpage hmore =>
    have hnil : before = [] := by
      cases before with
      | nil => rfl
      | cons b before => simp at hsplit
    subst hnil
    cases hsplit
    exact ⟨cursor', by simpa [inventoryRows] using hpage.drains, hpage.more⟩
  | @more cursor first cursor' pages hpage hmore _ ih =>
    cases before with
    | nil =>
      cases hsplit
      exact ⟨cursor', by simpa [inventoryRows] using hpage.drains, hpage.more⟩
    | cons b before =>
      cases hsplit
      obtain ⟨cursor'', hdrains, hiff⟩ := ih rfl
      exact ⟨cursor'', hpage.drains.append hdrains, hiff⟩

/-- A walk ends with nothing left. -/
theorem Walked.drains (h : Walked lists healthy limit cursor pages) :
    ∃ cursor', Drains healthy (unseen lists cursor) (inventoryRows pages) (unseen lists cursor') ∧
      ∀ w ∈ healthy, unseen lists cursor' w = [] := by
  induction h with
  | @last cursor page cursor' hpage hmore =>
    refine ⟨cursor', by simpa [inventoryRows] using hpage.drains, fun w hw => ?_⟩
    by_contra hleft
    have htrue := hpage.more.mpr ⟨w, hw, hleft⟩
    rw [hmore] at htrue
    cases htrue
  | more hpage _ _ ih =>
    obtain ⟨cursor'', hdrains, hnone⟩ := ih
    exact ⟨cursor'', hpage.drains.append hdrains, hnone⟩

theorem unseen_empty (lists : WorkerTargetId → List ChunkId) : unseen lists ∅ = lists := by
  funext w
  rw [unseen]
  simp

/-- The walk from empty cursors ends, lists every chunk of every worker once and in order,
each with the workers that hold it, and `more` is false exactly on the page after which
nothing is left. -/
theorem inventoryWalk_exact (lists : WorkerTargetId → List ChunkId)
    (healthy : List WorkerTargetId) (limit rounds fuel : Nat) (hlimit : 1 ≤ limit)
    (hsorted : ∀ w ∈ healthy, SortedBy id (lists w)) (hrounds : limit < rounds)
    (hfuel : (healthy.map fun w => (lists w).length).sum < fuel) :
    ∃ pages, inventoryWalk (answering lists) limit rounds healthy fuel ∅ = some (.ok pages) ∧
      SortedBy Prod.fst (inventoryRows pages) ∧
      (∀ chunk, chunk ∈ (inventoryRows pages).map Prod.fst ↔ ∃ w ∈ healthy, chunk ∈ lists w) ∧
      (∀ row ∈ inventoryRows pages, row.2 = healthy.filter (row.1 ∈ lists ·)) ∧
      ∀ before page after, pages = before ++ page :: after →
        (page.more = false ↔ ∀ w ∈ healthy, ∀ chunk ∈ lists w,
          chunk ∈ (inventoryRows (before ++ [page])).map Prod.fst) := by
  have hcount : unseenCount lists healthy ∅ < fuel := by
    rwa [unseenCount, unseen_empty]
  obtain ⟨pages, hwalk, hwalked⟩ := inventoryWalk_walked hlimit hsorted hrounds hcount
  obtain ⟨cursor, hdrains, hnone⟩ := hwalked.drains
  rw [unseen_empty] at hdrains
  refine ⟨pages, hwalk, hdrains.sorted.1, fun chunk => ⟨fun h => ?_, ?_⟩,
    fun row hrow => (hdrains.holders hrow).1, fun before page after hsplit => ?_⟩
  · obtain ⟨row, hrow, rfl⟩ := List.mem_map.mp h
    exact (hdrains.holders hrow).2
  · rintro ⟨w, hw, hmem⟩
    exact hdrains.nothing_left_iff.mp hnone w hw chunk hmem
  · obtain ⟨cursor', hupTo, hmore⟩ := hwalked.upTo hsplit
    rw [unseen_empty] at hupTo
    rw [← hupTo.nothing_left_iff, ← Bool.not_eq_true, hmore]
    simp only [not_exists, not_and, not_not]

end

/-- Two workers that share a chunk. -/
def sharedLists (worker : WorkerTargetId) : List ChunkId :=
  if worker = 1 then [.ofByte 1, .ofByte 3] else if worker = 2 then [.ofByte 1, .ofByte 2] else []

theorem inventoryWalk_exact_sharedLists :
    ∃ pages, inventoryWalk (answering sharedLists) 1 2 [1, 2] 5 ∅ = some (.ok pages) ∧
      ∀ row ∈ inventoryRows pages, row.2 = [1, 2].filter (row.1 ∈ sharedLists ·) := by
  have hsorted : ∀ w ∈ [1, 2], SortedBy id (sharedLists w) := by
    unfold SortedBy
    decide
  obtain ⟨pages, hpages, _, _, hholders, _⟩ := inventoryWalk_exact sharedLists [1, 2] 1 2 5
    (by decide) hsorted (by decide) (by decide)
  exact ⟨pages, hpages, hholders⟩

end FluxFS
