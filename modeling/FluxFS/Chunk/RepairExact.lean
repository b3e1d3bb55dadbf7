import FluxFS.Chunk.RepairRun

/-!
# RepairExact — which replicas a repair creates

The merged walk reads inventories that the repair itself adds to. A copy that lands in
front of its worker's cursor turns up again on a later page, and the holders of that page
are not all holders. Where no copy does, the pages are those of the inventories at the
start: every chunk is checked once, and exactly the missing replicas are created.
-/

namespace FluxFS

open Kit

/-- The chunks of the healthy workers, in order. -/
def chunkUnion (healthy : List WorkerTargetId) (stores : Stores) : List ChunkId :=
  Table.ordSet (healthy.flatMap stores.inventory)

/-- The workers that hold a chunk. -/
def holdersOf (healthy : List WorkerTargetId) (stores : Stores) (chunk : ChunkId) :
    List WorkerTargetId :=
  healthy.filter (chunk ∈ stores.inventory ·)

/-- The pairs of a worker and a chunk that came to be. -/
def gained (healthy : List WorkerTargetId) (stores t : Stores) : Nat :=
  (healthy.map fun w => ((t.inventory w).filter (· ∉ stores.inventory w)).length).sum

/-- The page follows the chunks `before`. Each worker that gets a chunk of the page has a
later chunk of the page at the start. The `i`-th chunk of all is checked at the `i`-th
clock reading. -/
def PageStaysBehind (hash : Bytes → ChunkId) (membership : Option WorkerMembership)
    (required : Nat) (healthy : List WorkerTargetId) (clock : Nat → Nat) (stores : Stores)
    (before page : List ChunkId) : Prop :=
  ∀ i c desired, page[i]? = some c →
    desiredWorkers hash membership required c (clock (before.length + i)) = .ok desired →
    ∀ w ∈ recipients desired required healthy (holdersOf healthy stores c),
      ∃ x ∈ page, c < x ∧ x ∈ stores.inventory w

/-- Cut the chunks at the start into pages. What the pages but the last copy stays behind
the cursors of the workers that get it. -/
def CopiesStayBehind (hash : Bytes → ChunkId) (membership : Option WorkerMembership)
    (required : Nat) (healthy : List WorkerTargetId) (clock : Nat → Nat) (limit : Nat)
    (stores : Stores) : Prop :=
  ∀ before page after : List ChunkId, chunkUnion healthy stores = before ++ page ++ after →
    limit ∣ before.length → page.length = limit → after ≠ [] →
      PageStaysBehind hash membership required healthy clock stores before page

section
variable {hash : Bytes → ChunkId} {membership : Option WorkerMembership} {required : Nat}
  {healthy holders added : List WorkerTargetId} {clock : Nat → Nat} {limit nowMs : Nat}
  {stores t u : Stores} {st mid st' : RepairState} {chunk c : ChunkId} {w : WorkerTargetId}
  {taken rows : List (ChunkId × List WorkerTargetId)} {cursor cursor' : Cursors}
  {page : InventoryPage}

theorem mem_chunkUnion : c ∈ chunkUnion healthy stores ↔ ∃ w ∈ healthy, c ∈ stores.inventory w := by
  rw [chunkUnion, Table.mem_ordSet, List.mem_flatMap]

theorem chunkUnion_sorted : SortedBy id (chunkUnion healthy stores) :=
  List.pairwise_map.mpr Std.ExtTreeMap.ordered_keys_toList

theorem mem_holdersOf : w ∈ holdersOf healthy stores c ↔ w ∈ healthy ∧ c ∈ stores.inventory w := by
  rw [holdersOf, List.mem_filter, decide_eq_true_iff]

/-! ## Counting the new replicas -/

theorem gained_self : gained healthy stores stores = 0 := by
  rw [gained, List.sum_eq_zero_iff]
  intro n hn
  obtain ⟨w, -, rfl⟩ := List.mem_map.mp hn
  simp

/-- Workers that get a chunk they do not have gain one replica each. -/
theorem gained_repaired (h : Repaired chunk added t u) (hhealthy : healthy.Nodup)
    (hadded : added.Sublist healthy)
    (hnew : ∀ w ∈ added, chunk ∉ stores.inventory w ∧ chunk ∉ t.inventory w) :
    gained healthy stores u = gained healthy stores t + added.length := by
  have hone : ∀ w, ((u.inventory w).filter (· ∉ stores.inventory w)).length =
      ((t.inventory w).filter (· ∉ stores.inventory w)).length +
        if w ∈ added then 1 else 0 := by
    intro w
    by_cases hw : w ∈ added
    · rw [if_pos hw, ← List.length_cons (a := chunk)]
      refine List.Perm.length_eq ((List.perm_ext_iff_of_nodup ?_ ?_).mpr fun c => ?_)
      · exact (inventory_sorted u w).nodup.filter _
      · refine List.nodup_cons.mpr ⟨fun hmem => ?_, (inventory_sorted t w).nodup.filter _⟩
        exact (hnew w hw).2 (List.mem_of_mem_filter hmem)
      · rw [List.mem_cons, List.mem_filter, List.mem_filter, h.stored w hw, decide_eq_true_iff]
        constructor
        · rintro ⟨hc | rfl, hstart⟩
          · exact .inr ⟨hc, hstart⟩
          · exact .inl rfl
        · rintro (rfl | ⟨hc, hstart⟩)
          · exact ⟨.inr rfl, (hnew w hw).1⟩
          · exact ⟨.inl hc, hstart⟩
    · rw [if_neg hw, h.inventory_eq hw, Nat.add_zero]
  have hcount : (healthy.filter (· ∈ added)).length = added.length := by
    refine List.Perm.length_eq ((List.perm_ext_iff_of_nodup (hhealthy.filter _)
      (hhealthy.sublist hadded)).mpr fun w => ?_)
    rw [List.mem_filter, decide_eq_true_iff]
    exact ⟨fun hw => hw.2, fun hw => ⟨hadded.subset hw, hw⟩⟩
  rw [gained, List.map_congr_left fun w _ => hone w, List.sum_map_add, List.sum_map_ite]
  simp [hcount, gained]

/-! ## One page -/

/-- What a repair has done after it has checked the chunks `taken`. -/
structure ExactRepair (membership : Option WorkerMembership) (required : Nat)
    (healthy : List WorkerTargetId) (stores : Stores)
    (taken : List (ChunkId × List WorkerTargetId)) (repaired : Nat) (st : RepairState) : Prop where
  grows : stores.Grows st.stores
  checked : st.checked = taken.map Prod.fst
  copied : ∀ w c, c ∈ st.stores.inventory w → c ∈ stores.inventory w ∨ c ∈ taken.map Prod.fst
  others : ∀ w, w ∉ healthy → st.stores w = stores w
  count : repaired = gained healthy stores st.stores
  bound : membership = none → ∀ c, (holdersOf healthy st.stores c).length ≤
    max required (holdersOf healthy stores c).length

/-- A chunk that was found with all its holders, and for the first time. -/
theorem ExactRepair.check {repaired n : Nat}
    (h : ExactRepair membership required healthy stores taken repaired st)
    (hhealthy : healthy.Nodup) (hchunk : ChunkRepaired hash membership required healthy nowMs chunk
      (holdersOf healthy stores chunk) added st.stores t (.ok n))
    (hnew : chunk ∉ taken.map Prod.fst) :
    ExactRepair membership required healthy stores
      (taken ++ [(chunk, holdersOf healthy stores chunk)])
      (repaired + added.length) { st with stores := t, checked := st.checked ++ [chunk] } := by
  obtain ⟨-, desired, hdesired, -, -, hmax⟩ := hchunk.ok n rfl
  have hrepaired := hchunk.repaired
  have hmissing : ∀ w ∈ added, chunk ∉ stores.inventory w ∧ chunk ∉ st.stores.inventory w := by
    intro w hw
    have hstart : chunk ∉ stores.inventory w := fun hmem =>
      hchunk.fresh w hw (mem_holdersOf.mpr ⟨hchunk.sublist.subset hw, hmem⟩)
    exact ⟨hstart, fun hmem => (h.copied w chunk hmem).elim hstart hnew⟩
  refine ⟨fun w c data hdata => hrepaired.grows w c data (h.grows w c data hdata), ?_, ?_, ?_,
    ?_, ?_⟩
  · rw [List.map_append, ← h.checked]
    rfl
  · intro w c hc
    rw [List.map_append, List.mem_append]
    rcases hrepaired.mem hc with hold | ⟨rfl, -⟩
    · exact (h.copied w c hold).imp_right .inl
    · exact .inr (.inr List.mem_cons_self)
  · intro w hw
    rw [← h.others w hw]
    exact hrepaired.others w fun hadded => hw (hchunk.sublist.subset hadded)
  · rw [h.count]
    exact (gained_repaired hrepaired hhealthy hchunk.sublist hmissing).symm
  · intro hnone c
    by_cases hc : c = chunk
    · subst hc
      subst hnone
      cases hdesired
      refine le_trans ((hhealthy.filter _).subperm fun w hw => ?_).length_le (hmax rfl)
      obtain ⟨hw, hmem⟩ := mem_holdersOf.mp hw
      rw [List.mem_append, mem_holdersOf]
      rcases hrepaired.mem hmem with hold | ⟨-, hadded⟩
      · exact .inl ⟨hw, (h.copied w c hold).resolve_right hnew⟩
      · exact .inr hadded
    · have hsame : holdersOf healthy t c = holdersOf healthy st.stores c := by
        refine List.filter_congr fun w _ => ?_
        rw [decide_eq_decide]
        exact ⟨fun hmem => (hrepaired.mem hmem).resolve_right fun h => hc h.1, hrepaired.grows.mem⟩
      rw [hsame]
      exact h.bound hnone c

/-- A page whose rows are complete, none of them for a second time. -/
theorem RowsRepaired.exact {result : Except FluxError Nat} {n repaired : Nat}
    (hrows : RowsRepaired hash membership required healthy clock rows st st' result)
    (hok : result = .ok n) (hhealthy : healthy.Nodup)
    (h : ExactRepair membership required healthy stores taken repaired st)
    (hholders : ∀ row ∈ rows, row.2 = holdersOf healthy stores row.1)
    (hnodup : ((taken ++ rows).map Prod.fst).Nodup) :
    ExactRepair membership required healthy stores (taken ++ rows) (repaired + n) st' := by
  induction hrows generalizing n taken repaired with
  | nil =>
    cases hok
    simpa using h
  | failed => cases hok
  | @cons chunk holders added rows st t st' result hchunk hrest ih =>
    cases result with
    | error error => cases hok
    | ok m =>
      cases hok
      have hfound : holders = holdersOf healthy stores chunk := hholders _ List.mem_cons_self
      subst hfound
      have hnew : chunk ∉ taken.map Prod.fst := by
        intro hmem
        rw [List.map_append, List.map_cons] at hnodup
        exact (List.nodup_append.mp hnodup).2.2 _ hmem _ List.mem_cons_self rfl
      have hnext := ih rfl (h.check hhealthy hchunk hnew)
        (fun row hrow => hholders row (List.mem_cons_of_mem _ hrow)) (by simpa using hnodup)
      rw [List.append_assoc, Nat.add_assoc] at hnext
      exact hnext

/-- Where the copies of a page go. -/
theorem RowsRepaired.copies {result : Except FluxError Nat} {n : Nat}
    (hrows : RowsRepaired hash membership required healthy clock rows st st' result)
    (hok : result = .ok n) : c ∈ st'.stores.inventory w ↔
      c ∈ st.stores.inventory w ∨ ∃ i row desired, rows[i]? = some row ∧ row.1 = c ∧
        desiredWorkers hash membership required c (clock (st.checked.length + i)) = .ok desired ∧
        w ∈ recipients desired required healthy row.2 := by
  induction hrows generalizing n with
  | nil => simp
  | failed => cases hok
  | @cons chunk holders added rows st t st' result hchunk hrest ih =>
    cases result with
    | error error => cases hok
    | ok m =>
      obtain ⟨-, desired, hdesired, rfl, -⟩ := hchunk.ok _ rfl
      have hlength (i : Nat) : (st.checked ++ [chunk]).length + i = st.checked.length + (i + 1) := by
        rw [List.length_append, List.length_singleton]
        omega
      rw [ih rfl]
      constructor
      · rintro (hmid | ⟨i, row, wanted, hrow, hc, hwanted, hw⟩)
        · refine (hchunk.repaired.mem hmid).imp_right ?_
          rintro ⟨rfl, hadded⟩
          exact ⟨0, _, desired, rfl, rfl, hdesired, hadded⟩
        · exact .inr ⟨i + 1, row, wanted, hrow, hc, by rwa [hlength] at hwanted, hw⟩
      · rintro (hold | ⟨i, row, wanted, hrow, hc, hwanted, hw⟩)
        · exact .inl (hchunk.repaired.grows.mem hold)
        · cases i with
          | zero =>
            cases hrow
            subst hc
            cases hdesired.symm.trans hwanted
            exact .inl ((hchunk.repaired.stored w hw _).mpr (.inr rfl))
          | succ i => exact .inr ⟨i, row, wanted, hrow, hc, by rwa [hlength], hw⟩

/-! ## The pages -/

/-- No copy lies in front of its worker's cursor. -/
def Hidden (healthy : List WorkerTargetId) (stores t : Stores) (cursor : Cursors) : Prop :=
  ∀ w ∈ healthy, ∀ c ∈ t.inventory w, c ∈ stores.inventory w ∨ ¬ ∀ x ∈ cursor[w]?, x < c

theorem Hidden.unseen_eq (h : Hidden healthy stores t cursor) (hgrows : stores.Grows t) :
    ∀ w ∈ healthy, unseen t.inventory cursor w = unseen stores.inventory cursor w := by
  intro w hw
  refine ((inventory_sorted t w).behind _).eq_of_mem_iff ((inventory_sorted stores w).behind _) ?_
  intro c
  rw [unseen, mem_behind, mem_behind]
  constructor
  · rintro ⟨hc, hfront⟩
    exact ⟨(h w hw c hc).resolve_right fun hback => hback hfront, hfront⟩
  · rintro ⟨hc, hfront⟩
    exact ⟨hgrows.mem hc, hfront⟩

theorem Hidden.turn (h : Hidden healthy stores t cursor)
    (hpage : PageOf t.inventory healthy limit cursor page cursor') :
    Hidden healthy stores t cursor' := by
  intro w hw c hc
  exact (h w hw c hc).imp_right fun hback hfront => hback (hpage.passed hfront).1

/-- Where no copy is in front, a page is one of the inventories at the start. -/
theorem Hidden.drains (h : Hidden healthy stores t cursor) (hgrows : stores.Grows t)
    (hpage : PageOf t.inventory healthy limit cursor page cursor')
    (htaken : Drains healthy stores.inventory taken (unseen stores.inventory cursor)) :
    Drains healthy stores.inventory (taken ++ page.chunks.toList)
      (unseen stores.inventory cursor') := by
  refine htaken.append ((hpage.drains.congr_left fun w hw => ?_).congr_right fun w hw => ?_)
  · exact (h.unseen_eq hgrows w hw).symm
  · exact ((h.turn hpage).unseen_eq hgrows w hw).symm

/-- What the walk has come to before a page: the pages so far are those of the
inventories at the start. -/
structure AtPage (membership : Option WorkerMembership) (required : Nat)
    (healthy : List WorkerTargetId) (limit : Nat) (stores : Stores)
    (taken : List (ChunkId × List WorkerTargetId)) (repaired : Nat) (st : RepairState) : Prop where
  exact : ExactRepair membership required healthy stores taken repaired st
  hidden : Hidden healthy stores st.stores st.cursor
  whole : limit ∣ taken.length
  drains : Drains healthy stores.inventory taken (unseen stores.inventory st.cursor)
  /-- A cursor is at a chunk that was taken. -/
  passed : ∀ (w : WorkerTargetId) (x : ChunkId), st.cursor[w]? = some x → x ∈ taken.map Prod.fst

namespace AtPage
variable {n repaired : Nat}

theorem start : AtPage membership required healthy limit stores [] 0 ⟨stores, ∅, []⟩ := by
  refine ⟨⟨fun _ _ _ h => h, rfl, fun _ _ h => .inl h, fun _ _ => rfl, gained_self.symm,
    fun _ _ => le_max_right ..⟩, fun _ _ _ h => .inl h, dvd_zero limit, ?_, fun w x hx => ?_⟩
  · rw [unseen_empty]
    exact .nil fun _ _ => rfl
  · simp at hx

variable (h : AtPage membership required healthy limit stores taken repaired st)
  (hpage : PageOf st.stores.inventory healthy limit st.cursor page cursor')
  (hrows : RowsRepaired hash membership required healthy clock page.chunks.toList
    { st with cursor := cursor' } mid (.ok n))
include h hpage

theorem drains_page : Drains healthy stores.inventory (taken ++ page.chunks.toList)
    (unseen stores.inventory cursor') :=
  h.hidden.drains h.exact.grows hpage h.drains

theorem holders_page {row : ChunkId × List WorkerTargetId} (hrow : row ∈ page.chunks.toList) :
    row.2 = holdersOf healthy stores row.1 :=
  ((h.drains_page hpage).holders (List.mem_append_right _ hrow)).1

theorem sorted_page : SortedBy id ((taken ++ page.chunks.toList).map Prod.fst) :=
  List.pairwise_map.mpr (h.drains_page hpage).sorted.1

/-- What is left for the pages after this one. -/
theorem union_eq : ∃ after, chunkUnion healthy stores =
      taken.map Prod.fst ++ page.chunks.toList.map Prod.fst ++ after ∧
    (page.more = true → after ≠ []) ∧ (page.more = false → after = []) := by
  have hdrains := h.drains_page hpage
  obtain ⟨after, hafter⟩ := hdrains.isPrefix chunkUnion_sorted fun x => mem_chunkUnion
  have hleft : page.more = true ↔
      ∃ w ∈ healthy, ∃ x ∈ stores.inventory w, x ∉ (taken ++ page.chunks.toList).map Prod.fst := by
    rw [hpage.more]
    refine exists_congr fun w => and_congr_right fun hw => ?_
    rw [(h.hidden.turn hpage).unseen_eq h.exact.grows w hw, hdrains.rest_eq hw]
    simp [List.filter_eq_nil_iff]
  refine ⟨after, by rw [← hafter, List.map_append], fun hmore => ?_, fun hmore => ?_⟩
  · rintro rfl
    obtain ⟨w, hw, x, hx, hnew⟩ := hleft.mp hmore
    rw [List.append_nil] at hafter
    rw [hafter] at hnew
    exact hnew (mem_chunkUnion.mpr ⟨w, hw, hx⟩)
  · by_contra hsome
    obtain ⟨x, hx⟩ := List.exists_mem_of_ne_nil _ hsome
    have hunion : x ∈ chunkUnion healthy stores := by
      rw [← hafter]
      exact List.mem_append_right _ hx
    obtain ⟨w, hw, hheld⟩ := mem_chunkUnion.mp hunion
    have hnew : x ∉ (taken ++ page.chunks.toList).map Prod.fst := by
      have hnodup : (chunkUnion healthy stores).Nodup := chunkUnion_sorted.nodup
      rw [← hafter] at hnodup
      exact fun hmem => (List.nodup_append.mp hnodup).2.2 x hmem x hx rfl
    rw [hleft.mpr ⟨w, hw, x, hheld, hnew⟩] at hmore
    cases hmore

include hrows

theorem exact_page (hhealthy : healthy.Nodup) :
    ExactRepair membership required healthy stores (taken ++ page.chunks.toList) (repaired + n)
      mid :=
  hrows.exact rfl hhealthy ⟨h.exact.grows, h.exact.checked, h.exact.copied, h.exact.others,
    h.exact.count, h.exact.bound⟩ (fun _ hrow => h.holders_page hpage hrow)
    (h.sorted_page hpage).nodup

/-- After a page whose copies stay behind, the walk goes on as at the start. -/
theorem next (hhealthy : healthy.Nodup) (hmore : page.more = true)
    (hhidden : Hidden healthy stores mid.stores mid.cursor) :
    AtPage membership required healthy limit stores (taken ++ page.chunks.toList) (repaired + n)
      mid := by
  refine ⟨h.exact_page hpage hrows hhealthy, hhidden, ?_, ?_, fun w x hx => ?_⟩
  · rw [List.length_append, hpage.full hmore]
    exact dvd_add h.whole (dvd_refl limit)
  · rw [hrows.cursor_eq]
    exact h.drains_page hpage
  · rw [hrows.cursor_eq, hpage.moved, advance_get, Option.or_eq_some_iff] at hx
    rw [List.map_append, List.mem_append]
    rcases hx with hlast | ⟨-, hold⟩
    · obtain ⟨row, hrow, rfl⟩ := List.mem_map.mp (List.mem_of_getLast? hlast)
      exact .inr (List.mem_map_of_mem (List.mem_of_mem_filter hrow))
    · exact .inl (h.passed w x hold)

/-- The copies of a page are not in front exactly if they stay behind a later chunk of the
page. -/
theorem hidden_iff : Hidden healthy stores mid.stores mid.cursor ↔
    PageStaysBehind hash membership required healthy clock stores (taken.map Prod.fst)
      (page.chunks.toList.map Prod.fst) := by
  have hchecked : (taken.map Prod.fst).length = st.checked.length := by rw [h.exact.checked]
  constructor
  · intro hhidden i c desired hi hdesired w hw
    rw [List.getElem?_map, Option.map_eq_some_iff] at hi
    obtain ⟨row, hrow, rfl⟩ := hi
    have hmem : row ∈ page.chunks.toList := List.mem_of_getElem? hrow
    have hholders := h.holders_page hpage hmem
    rw [hchecked] at hdesired
    have hcopied : row.1 ∈ mid.stores.inventory w :=
      (hrows.copies rfl).mpr (.inr ⟨i, row, desired, hrow, rfl, hdesired, by rwa [hholders]⟩)
    obtain ⟨hhealthy, hfresh⟩ := mem_recipients hw
    have hnew : row.1 ∉ stores.inventory w := fun hheld =>
      hfresh (mem_holdersOf.mpr ⟨hhealthy, hheld⟩)
    have hback := (hhidden w hhealthy row.1 hcopied).resolve_left hnew
    rw [hrows.cursor_eq, hpage.moved, advance_get] at hback
    push Not at hback
    obtain ⟨x, hx, hle⟩ := hback
    rcases Option.or_eq_some_iff.mp hx with hlast | ⟨-, hold⟩
    · obtain ⟨later, hlater, rfl⟩ := List.mem_map.mp (List.mem_of_getLast? hlast)
      obtain ⟨hlaterRow, hholder⟩ := List.mem_filter.mp hlater
      rw [decide_eq_true_iff, h.holders_page hpage hlaterRow, mem_holdersOf] at hholder
      refine ⟨later.1, List.mem_map_of_mem hlaterRow, lt_of_le_of_ne hle ?_, hholder.2⟩
      intro heq
      exact hnew (heq ▸ hholder.2)
    · -- the chunks of earlier pages come before this one
      have hsorted := h.sorted_page hpage
      rw [List.map_append, SortedBy, List.pairwise_append] at hsorted
      exact absurd (hsorted.2.2 x (h.passed w x hold) row.1 (List.mem_map_of_mem hmem))
        (not_lt.mpr hle)
  · intro hcover w hw c hc
    rw [hrows.cursor_eq]
    rcases (hrows.copies rfl).mp hc with hold | ⟨i, row, desired, hrow, rfl, hdesired, hcopied⟩
    · exact h.hidden.turn hpage w hw c hold
    · -- the worker's cursor has passed a later chunk of the page
      right
      intro hfront
      have hmem : row ∈ page.chunks.toList := List.mem_of_getElem? hrow
      rw [h.holders_page hpage hmem] at hcopied
      obtain ⟨x, hx, hlater, hheld⟩ := hcover i row.1 desired
        (by rw [List.getElem?_map, hrow, Option.map_some]) (by rwa [hchecked]) w hcopied
      obtain ⟨later, hlaterRow, rfl⟩ := List.mem_map.mp hx
      have hholder : w ∈ later.2 := by
        rw [h.holders_page hpage hlaterRow]
        exact mem_holdersOf.mpr ⟨hw, hheld⟩
      exact lt_asymm hlater ((hpage.passed hfront).2 later hlaterRow hholder)

/-- A copy in front is a chunk that is checked again. -/
theorem hidden_of_nodup {result : Except FluxError (Nat × Nat)} {counts : Nat × Nat}
    (hrest : RepairRun hash membership required healthy clock limit mid st' result)
    (hok : result = .ok counts) (hnodup : st'.checked.Nodup) :
    Hidden healthy stores mid.stores mid.cursor := by
  intro w hw c hc
  rcases hrows.mem hc with hold | hkey
  · rw [hrows.cursor_eq]
    exact h.hidden.turn hpage w hw c hold
  · right
    intro hfront
    obtain ⟨more, hmore, hagain⟩ := hrest.checks hok hw (mem_behind.mpr ⟨hc, hfront⟩)
    rw [hmore, hrows.checked_eq rfl, List.append_assoc, List.nodup_append] at hnodup
    exact (List.nodup_append.mp hnodup.2.1).2.2 c hkey c hagain rfl

end AtPage

/-- A whole repair in which no copy comes in front. -/
theorem RepairRun.exact {result : Except FluxError (Nat × Nat)} {counts : Nat × Nat}
    {repaired : Nat} (hrun : RepairRun hash membership required healthy clock limit st st' result)
    (hok : result = .ok counts) (hhealthy : healthy.Nodup)
    (hcover : CopiesStayBehind hash membership required healthy clock limit stores)
    (h : AtPage membership required healthy limit stores taken repaired st) :
    ∃ all, all.map Prod.fst = chunkUnion healthy stores ∧ taken.length + counts.1 = all.length ∧
      ExactRepair membership required healthy stores all (repaired + counts.2) st' := by
  induction hrun generalizing counts taken repaired with
  | failed => cases hok
  | @last st page cursor' st' n hpage hrows hmore =>
    cases hok
    obtain ⟨after, hunion, -, hnone⟩ := h.union_eq hpage
    refine ⟨taken ++ page.chunks.toList, ?_, by simp, h.exact_page hpage hrows hhealthy⟩
    rw [hunion, hnone hmore, List.append_nil, List.map_append]
  | @more st page cursor' mid n st' result hpage hrows hmore _ ih =>
    cases result with
    | error error => cases hok
    | ok rest =>
      cases hok
      obtain ⟨after, hunion, hsome, -⟩ := h.union_eq hpage
      have hbehind := hcover _ _ after hunion (by simpa using h.whole)
        (by simpa using hpage.full hmore) (hsome hmore)
      obtain ⟨all, hall, hlength, hexact⟩ := ih rfl
        (h.next hpage hrows hhealthy hmore ((h.hidden_iff hpage hrows).mpr hbehind))
      refine ⟨all, hall, ?_, by rwa [Nat.add_assoc] at hexact⟩
      rw [← hlength, List.length_append, Std.ExtTreeMap.length_toList]
      exact (Nat.add_assoc ..).symm

/-- A repair that checks no chunk twice has made no copy that comes in front. -/
theorem RepairRun.behind {result : Except FluxError (Nat × Nat)} {counts : Nat × Nat}
    {repaired : Nat} (hrun : RepairRun hash membership required healthy clock limit st st' result)
    (hok : result = .ok counts) (hhealthy : healthy.Nodup) (hnodup : st'.checked.Nodup)
    (h : AtPage membership required healthy limit stores taken repaired st)
    {before keys after : List ChunkId} (hsplit : chunkUnion healthy stores = before ++ keys ++ after)
    (hwhole : limit ∣ before.length) (hfull : keys.length = limit) (hmoreKeys : after ≠ [])
    (hlater : taken.length ≤ before.length) :
    PageStaysBehind hash membership required healthy clock stores before keys := by
  induction hrun generalizing counts taken repaired with
  | failed => cases hok
  | @last st page cursor' st' n hpage hrows hmore =>
    -- the last page leaves nothing for a page after `keys`
    obtain ⟨rest, hunion, -, hnone⟩ := h.union_eq hpage
    have hlength := congrArg List.length (hsplit.symm.trans hunion)
    rw [hnone hmore] at hlength
    simp only [List.length_append, List.length_map, List.length_nil] at hlength
    have hpos := List.length_pos_iff.mpr hmoreKeys
    have hsize := hpage.size
    omega
  | @more st page cursor' mid n st' result hpage hrows hmore hrest ih =>
    cases result with
    | error error => cases hok
    | ok counts =>
      have hhidden := h.hidden_of_nodup hpage hrows hrest rfl hnodup
      have hpageFull := hpage.full hmore
      rcases Nat.eq_or_lt_of_le hlater with hhere | hbeyond
      · -- the page is this one
        obtain ⟨rest, hunion, -, -⟩ := h.union_eq hpage
        rw [hsplit, List.append_assoc, List.append_assoc] at hunion
        obtain ⟨rfl, hrestEq⟩ := List.append_inj hunion (by simp [hhere])
        obtain ⟨rfl, -⟩ := List.append_inj hrestEq (by rw [hfull, List.length_map, hpageFull])
        exact (h.hidden_iff hpage hrows).mp hhidden
      · refine ih rfl hnodup (h.next hpage hrows hhealthy hmore hhidden) ?_
        rw [List.length_append, hpageFull]
        obtain ⟨k, hk⟩ := h.whole
        obtain ⟨m, hm⟩ := hwhole
        rw [hk, hm] at hbeyond ⊢
        have hlt : k < m := lt_of_mul_lt_mul_left hbeyond (Nat.zero_le limit)
        calc limit * k + limit = limit * (k + 1) := (Nat.mul_succ limit k).symm
          _ ≤ limit * m := Nat.mul_le_mul_left limit hlt

end

/-! ## The whole repair -/

/-- A repair that ends well checks each chunk once, leaves no chunk with more holders than
it had or needs, and counts exactly the replicas that came to be, if and only if the copies
of the pages but the last stay behind the cursors. -/
theorem repair_creates_missing (hash : Bytes → ChunkId) (membership : Option WorkerMembership)
    (required : Nat) (healthy : List WorkerTargetId) (clock : Nat → Nat) (limit rounds fuel : Nat)
    (stores : Stores) (st : RepairState) (report : RepairReport) (hhealthy : healthy.Nodup)
    (hrounds : limit < rounds)
    (hfuel : healthy.length * (healthy.flatMap stores.inventory).length < fuel)
    (hok : repairWithHealth hash membership required healthy clock limit rounds fuel stores =
      some (st, .ok report)) :
    ((membership = none → ∀ c, (holdersOf healthy st.stores c).length ≤
        max required (holdersOf healthy stores c).length) ∧
      st.checked = chunkUnion healthy stores ∧
      report.checkedChunks = (chunkUnion healthy stores).length ∧
      report.repairedReplicas = gained healthy stores st.stores ∧
      ∀ w, w ∉ healthy → st.stores w = stores w) ↔
    CopiesStayBehind hash membership required healthy clock limit stores := by
  by_cases hrefused : healthy.length < required ∨ limit = 0
  · obtain ⟨error, hloop⟩ := repairWithHealth_refused hash membership clock stores hrefused
      (Nat.zero_lt_of_lt hfuel)
    rw [hloop] at hok
    cases hok
  · obtain ⟨hcount, hlimit⟩ := not_or.mp hrefused
    obtain ⟨st', result, hloop, hrun⟩ := repairWithHealth_run hash membership clock stores
      (Nat.not_lt.mp hcount) (Nat.pos_of_ne_zero hlimit) hrounds hfuel
    rw [hloop] at hok
    cases result with
    | error error => cases hok
    | ok counts =>
      cases hok
      constructor
      · rintro ⟨-, hchecked, -⟩ before keys after hsplit hwhole hfull hmore
        refine hrun.behind rfl hhealthy ?_ .start hsplit hwhole hfull hmore (Nat.zero_le _)
        rw [hchecked]
        exact chunkUnion_sorted.nodup
      · intro hcover
        obtain ⟨all, hall, hlength, hexact⟩ := hrun.exact rfl hhealthy hcover .start
        refine ⟨hexact.bound, by rw [hexact.checked, hall], ?_, ?_, hexact.others⟩
        · rw [← hall, List.length_map, ← hlength, List.length_nil, Nat.zero_add]
        · rw [← hexact.count, Nat.zero_add]

/-- Worker 3 has three chunks, worker 1 has the second of them. -/
def coveredStores : Stores :=
  Function.update (Function.update (fun _ => ∅) 3
    (Table.insertAll ∅ [(.ofByte 1, [1]), (.ofByte 2, [2]), (.ofByte 3, [3])])) 1
    (Table.insertAll ∅ [(.ofByte 2, [2])])

/-- The copy of chunk 1 goes to worker 1, whose cursor passes chunk 2 on the same page.
Worker 2 has nothing and gets nothing. -/
theorem coveredStores_behind :
    CopiesStayBehind firstByte none 2 [1, 2, 3] (fun _ => 0) 2 coveredStores := by
  intro before page after hunion hwhole hpage hafter
  have hchunks : chunkUnion [1, 2, 3] coveredStores = [.ofByte 1, .ofByte 2, .ofByte 3] := by
    decide +kernel
  rw [hchunks] at hunion
  have hlength := congrArg List.length hunion
  have hpos := List.length_pos_iff.mpr hafter
  simp only [List.length_append, List.length_cons, List.length_nil, hpage] at hlength
  obtain rfl : before = [] := List.length_eq_zero_iff.mp (by omega)
  have hfirst : page = [.ofByte 1, .ofByte 2] := by
    have htake := congrArg (List.take 2) hunion
    rw [List.nil_append, ← hpage, List.take_left, hpage] at htake
    exact htake.symm
  subst hfirst
  intro i c desired hi hdesired w hw
  cases hdesired
  rcases i with _ | _ | i
  · cases hi
    have hone : recipients none 2 [1, 2, 3] (holdersOf [1, 2, 3] coveredStores (.ofByte 1)) = [1] :=
      by decide +kernel
    rw [hone, List.mem_singleton] at hw
    subst hw
    exact ⟨.ofByte 2, by simp, by decide +kernel, by decide +kernel⟩
  · cases hi
    have hnone : recipients none 2 [1, 2, 3] (holdersOf [1, 2, 3] coveredStores (.ofByte 2)) = [] :=
      by decide +kernel
    rw [hnone] at hw
    cases hw
  · cases hi

theorem repair_creates_missing_coveredStores :
    ∃ st report, repairWithHealth firstByte none 2 [1, 2, 3] (fun _ => 0) 2 3 20 coveredStores =
        some (st, .ok report) ∧
      st.checked = chunkUnion [1, 2, 3] coveredStores ∧
      report.repairedReplicas = gained [1, 2, 3] coveredStores st.stores := by
  have hresult : (repairWithHealth firstByte none 2 [1, 2, 3] (fun _ => 0) 2 3 20
      coveredStores).map Prod.snd = some (.ok ⟨[1, 2, 3], 3, 2, false⟩) := by decide +kernel
  obtain ⟨⟨st, result⟩, hloop, rfl⟩ := Option.map_eq_some_iff.mp hresult
  obtain ⟨-, hchecked, -, hcount, -⟩ := (repair_creates_missing firstByte none 2 [1, 2, 3]
    (fun _ => 0) 2 3 20 coveredStores st _ (by decide) (by decide) (by decide +kernel) hloop).mpr
    coveredStores_behind
  exact ⟨st, _, hloop, hchecked, hcount⟩

/-- With a page for each chunk, the copy of chunk 1 on worker 1 is a page of its own, and
chunk 1 gets a third replica there. -/
theorem repair_copies_again :
    ∃ st report, repairWithHealth firstByte none 2 [1, 2, 3] (fun _ => 0) 1 2 20 oneSidedStores =
        some (st, .ok report) ∧
      (holdersOf [1, 2, 3] st.stores (.ofByte 1)).length = 3 ∧
      max 2 (holdersOf [1, 2, 3] oneSidedStores (.ofByte 1)).length = 2 ∧
      st.checked = [.ofByte 1, .ofByte 1, .ofByte 1, .ofByte 2] ∧
      report.repairedReplicas = 4 ∧ gained [1, 2, 3] oneSidedStores st.stores = 3 := by
  have hresult : (repairWithHealth firstByte none 2 [1, 2, 3] (fun _ => 0) 1 2 20
      oneSidedStores).map (fun p => (p.2, p.1.checked,
        (holdersOf [1, 2, 3] p.1.stores (.ofByte 1)).length,
        gained [1, 2, 3] oneSidedStores p.1.stores)) =
      some (.ok ⟨[1, 2, 3], 4, 4, false⟩, [.ofByte 1, .ofByte 1, .ofByte 1, .ofByte 2], 3, 3) := by
    decide +kernel
  obtain ⟨⟨st, result⟩, hloop, heq⟩ := Option.map_eq_some_iff.mp hresult
  obtain ⟨rfl, hchecked, hholders, hgained⟩ := by simpa only [Prod.mk.injEq] using heq
  exact ⟨st, _, hloop, hholders, by decide +kernel, hchecked, rfl, hgained⟩

end FluxFS
