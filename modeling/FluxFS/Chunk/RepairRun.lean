import FluxFS.Chunk.Put
import FluxFS.Chunk.Walk

/-!
# RepairRun — a whole repair

A repair that runs while nothing else happens ends: each full page moves a worker's cursor
over a chunk, and the copies are of chunks that were there before. When it ends well, every
chunk was on some page, and a chunk on a page is restored.
-/

namespace FluxFS

open Kit

section
variable {hash : Bytes → ChunkId} {membership : Option WorkerMembership} {required : Nat}
  {healthy holders added : List WorkerTargetId} {clock : Nat → Nat} {limit nowMs : Nat}
  {stores t : Stores} {st mid st' : RepairState} {chunk c : ChunkId} {w : WorkerTargetId}
  {rows : List (ChunkId × List WorkerTargetId)} {cursor cursor' : Cursors} {page : InventoryPage}

/-! ## A restored chunk -/

/-- The chunk is on all its targets, or on enough healthy workers where there are no
targets. The targets are those at the clock reading made for this chunk. -/
def Restored (hash : Bytes → ChunkId) (membership : Option WorkerMembership) (required : Nat)
    (healthy : List WorkerTargetId) (clock : Nat → Nat) (st : RepairState) (chunk : ChunkId) :
      Prop :=
  match membership with
  | none => required ≤ (healthy.filter (chunk ∈ st.stores.inventory ·)).length
  | some membership => ∃ i targets, st.checked[i]? = some chunk ∧
      selectWorkerTargets hash membership chunk required (clock i) = .ok targets ∧
      ∀ target ∈ targets, chunk ∈ st.stores.inventory target.id

/-- Nothing was lost, and more was checked. -/
structure RepairState.Later (st st' : RepairState) : Prop where
  grows : st.stores.Grows st'.stores
  checked : st.checked <+: st'.checked

theorem RepairState.Later.refl (st : RepairState) : st.Later st :=
    ⟨fun _ _ _ h => h, List.prefix_rfl⟩

theorem RepairState.Later.trans (h : st.Later mid) (h' : mid.Later st') : st.Later st' :=
  ⟨fun w c data hdata => h'.grows w c data (h.grows w c data hdata), h.checked.trans h'.checked⟩

theorem Restored.later (h : Restored hash membership required healthy clock st c)
    (hlater : st.Later st') : Restored hash membership required healthy clock st' c := by
  cases membership with
  | none =>
    refine le_trans h (List.Sublist.length_le ?_)
    refine List.monotone_filter_right healthy fun w hw => ?_
    rw [decide_eq_true_iff] at hw ⊢
    exact hlater.grows.mem hw
  | some membership =>
    obtain ⟨i, targets, hi, hselect, hheld⟩ := h
    obtain ⟨more, hmore⟩ := hlater.checked
    refine ⟨i, targets, ?_, hselect, fun target ht => hlater.grows.mem (hheld target ht)⟩
    obtain ⟨hlt, -⟩ := List.getElem?_eq_some_iff.mp hi
    rw [← hmore, List.getElem?_append_left hlt, hi]

/-- Enough distinct targets among the holders are all the targets. -/
theorem targets_subset {ids : List WorkerTargetId} (hholders : holders.Nodup)
    (hids : ids.length = required) (h : required ≤ placed (some (Table.ordSet ids)) holders) :
    ids ⊆ holders := by
  have hsubset : holders.filter (· ∈ Table.ordSet ids) ⊆ ids := by
    intro w hw
    simpa using (List.mem_filter.mp hw).2
  have hperm := ((hholders.filter _).subperm hsubset).perm_of_length_le (by rwa [hids])
  intro w hw
  exact List.mem_of_mem_filter (hperm.mem_iff.mpr hw)

theorem ChunkRepaired.held {result : Except FluxError Nat}
    (h : ChunkRepaired hash membership required healthy nowMs chunk holders added stores t result)
    (hheld : ∀ w ∈ holders, chunk ∈ stores.inventory w) :
    ∀ w ∈ holders ++ added, chunk ∈ t.inventory w := by
  intro w hw
  rcases List.mem_append.mp hw with hw | hw
  · exact h.repaired.grows.mem (hheld w hw)
  · exact (h.repaired.stored w hw chunk).mpr (.inr rfl)

/-- A chunk whose holders were found among the healthy workers is restored. -/
theorem ChunkRepaired.restored {n : Nat}
    (h : ChunkRepaired hash membership required healthy (clock st.checked.length) chunk holders
      added st.stores t (.ok n))
    (hholders : holders.Nodup) (hsubset : holders ⊆ healthy)
    (hheld : ∀ w ∈ holders, chunk ∈ st.stores.inventory w) :
    Restored hash membership required healthy clock
      { st with stores := t, checked := st.checked ++ [chunk] } chunk := by
  obtain ⟨-, desired, hdesired, -, hplaced, -⟩ := h.ok n rfl
  have hnodup : (holders ++ added).Nodup :=
    List.nodup_append.mpr ⟨hholders, h.nodup, fun a ha b hb heq => h.fresh b hb (heq ▸ ha)⟩
  have hall := h.held hheld
  cases membership with
  | none =>
    cases hdesired
    refine le_trans hplaced (hnodup.subperm fun w hw => ?_).length_le
    rw [List.mem_filter, decide_eq_true_iff]
    refine ⟨?_, hall w hw⟩
    rcases List.mem_append.mp hw with hw | hw
    · exact hsubset hw
    · exact h.sublist.subset hw
  | some membership =>
    rw [desiredWorkers] at hdesired
    split at hdesired
    · cases hdesired
    · rename_i targets hselect
      cases hdesired
      refine ⟨st.checked.length, targets, by simp, hselect, fun target htarget => ?_⟩
      have hlength := selectWorkerTargets_length hselect
      exact hall _ (targets_subset hnodup (by simpa using hlength) hplaced
        (List.mem_map_of_mem htarget))

/-! ## A page -/

namespace RowsRepaired
variable {result : Except FluxError Nat} {n : Nat}

theorem cursor_eq (h : RowsRepaired hash membership required healthy clock rows st st' result) :
    st'.cursor = st.cursor := by
  induction h with
  | nil => rfl
  | failed => rfl
  | cons _ _ ih => exact ih

theorem later (h : RowsRepaired hash membership required healthy clock rows st st' result) :
    st.Later st' := by
  induction h with
  | nil => exact .refl _
  | failed hchunk => exact ⟨hchunk.repaired.grows, List.prefix_rfl⟩
  | cons hchunk _ ih =>
    exact RepairState.Later.trans ⟨hchunk.repaired.grows, List.prefix_append ..⟩ ih

theorem checked_eq (h : RowsRepaired hash membership required healthy clock rows st st' result)
    (hok : result = .ok n) : st'.checked = st.checked ++ rows.map Prod.fst := by
  induction h generalizing n with
  | nil => simp
  | failed => cases hok
  | @cons chunk holders added rows st t st' result _ _ ih =>
    cases result with
    | error error => cases hok
    | ok m => simp [ih rfl]

/-- Only chunks of the page are copied. -/
theorem mem (h : RowsRepaired hash membership required healthy clock rows st st' result)
    (hc : c ∈ st'.stores.inventory w) : c ∈ st.stores.inventory w ∨ c ∈ rows.map Prod.fst := by
  induction h with
  | nil => exact .inl hc
  | failed hchunk =>
    refine (hchunk.repaired.mem hc).imp_right fun h => ?_
    rw [h.1]
    exact List.mem_cons_self
  | cons hchunk _ ih =>
    rcases ih hc with hmid | hrow
    · refine (hchunk.repaired.mem hmid).imp_right fun h => ?_
      rw [h.1]
      exact List.mem_cons_self
    · exact .inr (List.mem_cons_of_mem _ hrow)

theorem restored (h : RowsRepaired hash membership required healthy clock rows st st' result)
    (hok : result = .ok n)
    (hrows : ∀ row ∈ rows, row.2.Nodup ∧ row.2 ⊆ healthy ∧
      ∀ w ∈ row.2, row.1 ∈ st.stores.inventory w) :
    ∀ row ∈ rows, Restored hash membership required healthy clock st' row.1 := by
  induction h generalizing n with
  | nil => nofun
  | failed => cases hok
  | @cons chunk holders added rows st t st' result hchunk hrest ih =>
    have hgrows := hchunk.repaired.grows
    intro row hrow
    rcases List.mem_cons.mp hrow with rfl | hrow
    · obtain ⟨hnodup, hsubset, hheld⟩ := hrows _ List.mem_cons_self
      exact (hchunk.restored hnodup hsubset hheld).later hrest.later
    · cases result with
      | error error => cases hok
      | ok m =>
        refine ih rfl (fun row hrow => ?_) row hrow
        obtain ⟨hnodup, hsubset, hheld⟩ := hrows row (List.mem_cons_of_mem _ hrow)
        exact ⟨hnodup, hsubset, fun w hw => hgrows.mem (hheld w hw)⟩

end RowsRepaired

/-- A worker's cursor is at the last key that it holds. -/
theorem advance_get (cursor : Cursors) (rows : List (ChunkId × List WorkerTargetId))
    (w : WorkerTargetId) : (advance cursor rows)[w]? =
      ((rows.filter (w ∈ ·.2)).map Prod.fst).getLast?.or cursor[w]? := by
  induction rows generalizing cursor with
  | nil => rfl
  | cons row rows ih =>
    have hstep : advance cursor (row :: rows) =
        advance (Table.insertAll cursor (row.2.map (·, row.1))) rows := rfl
    rw [hstep, ih, Table.get_insertAll_const]
    by_cases hw : w ∈ row.2
    · rw [if_pos hw, List.filter_cons_of_pos (by simpa using hw), List.map_cons,
        List.getLast?_cons]
      cases ((rows.filter (w ∈ ·.2)).map Prod.fst).getLast? with
      | none => rfl
      | some last => rfl
    · rw [if_neg hw, List.filter_cons_of_neg (by simpa using hw)]

namespace PageOf
variable {lists : WorkerTargetId → List ChunkId}

/-- The holders on a page are the workers that have the chunk in front of them. -/
theorem mem_holders (h : PageOf lists healthy limit cursor page cursor')
    {row : ChunkId × List WorkerTargetId} (hrow : row ∈ page.chunks.toList) :
    w ∈ row.2 ↔ w ∈ healthy ∧ row.1 ∈ unseen lists cursor w := by
  rw [(h.drains.holders (show (row.1, row.2) ∈ _ from hrow)).1, List.mem_filter, decide_eq_true_iff]

/-- What lies behind a worker's cursor after the page lay behind it before, and behind
all that the page has of this worker. -/
theorem passed (h : PageOf lists healthy limit cursor page cursor')
    (hc : ∀ x ∈ cursor'[w]?, x < c) : (∀ x ∈ cursor[w]?, x < c) ∧
      ∀ row ∈ page.chunks.toList, w ∈ row.2 → row.1 < c := by
  rw [h.moved, advance_get] at hc
  cases hlast : ((page.chunks.toList.filter (w ∈ ·.2)).map Prod.fst).getLast? with
  | none =>
    rw [hlast] at hc
    refine ⟨hc, fun row hrow hw => ?_⟩
    rw [List.getLast?_eq_none_iff, List.map_eq_nil_iff, List.filter_eq_nil_iff] at hlast
    exact absurd hw (by simpa using hlast row hrow)
  | some last =>
    rw [hlast] at hc
    have hlt : last < c := hc last rfl
    obtain ⟨keys, hkeys⟩ := List.getLast?_eq_some_iff.mp hlast
    have hsorted : SortedBy id (keys ++ [last]) := by
      rw [← hkeys]
      exact List.pairwise_map.mpr (h.drains.sorted.1.filter _)
    constructor
    · have hmem : last ∈ (page.chunks.toList.filter (w ∈ ·.2)).map Prod.fst := by simp [hkeys]
      obtain ⟨row, hrow, rfl⟩ := List.mem_map.mp hmem
      rw [List.mem_filter, decide_eq_true_iff] at hrow
      intro x hx
      exact ((mem_behind.mp ((h.mem_holders hrow.1).mp hrow.2).2).2 x hx).trans hlt
    · intro row hrow hw
      have hmem : row.1 ∈ keys ++ [last] := by
        rw [← hkeys]
        exact List.mem_map_of_mem (List.mem_filter.mpr ⟨hrow, decide_eq_true hw⟩)
      rcases List.mem_append.mp hmem with hkey | hkey
      · exact ((List.pairwise_append.mp hsorted).2.2 _ hkey last (by simp)).trans hlt
      · rwa [List.mem_singleton.mp hkey]

/-- A full page moves over some chunk that is there. -/
theorem unseenCount_lt (h : PageOf lists healthy limit cursor page cursor') {all : List ChunkId}
    (hall : ∀ w ∈ healthy, ∀ c ∈ lists w, c ∈ all) (hpage : page.chunks.toList ≠ []) :
    unseenCount (fun _ => all) healthy cursor' < unseenCount (fun _ => all) healthy cursor := by
  have hfilter : ∀ w : WorkerTargetId, behind cursor'[w]? all =
      (behind cursor[w]? all).filter fun c => decide (∀ x ∈ cursor'[w]?, x < c) := by
    intro w
    rw [behind, behind, List.filter_filter]
    refine List.filter_congr fun c _ => ?_
    rw [← Bool.decide_and, decide_eq_decide]
    exact ⟨fun hc => ⟨hc, (h.passed hc).1⟩, fun hc => hc.1⟩
  obtain ⟨row, hrow⟩ := List.exists_mem_of_ne_nil _ hpage
  obtain ⟨-, w, hw, hmem⟩ := h.drains.holders (show (row.1, row.2) ∈ _ from hrow)
  obtain ⟨hmem, hbehind⟩ := mem_behind.mp hmem
  refine List.sum_lt_sum _ _ (fun v _ => ?_) ⟨w, hw, ?_⟩
  · rw [unseen, hfilter]
    exact List.length_filter_le ..
  · rw [unseen, hfilter]
    refine List.length_filter_lt_length_iff_exists.mpr
      ⟨row.1, mem_behind.mpr ⟨hall w hw _ hmem, hbehind⟩, fun hc => ?_⟩
    have hholder : w ∈ row.2 := (h.mem_holders hrow).mpr ⟨hw, mem_behind.mpr ⟨hmem, hbehind⟩⟩
    exact lt_irrefl _ ((h.passed (of_decide_eq_true hc)).2 row hrow hholder)

end PageOf

/-! ## The loop over the pages -/

/-- What a repair does, with the number of checked chunks and of new replicas. -/
inductive RepairRun (hash : Bytes → ChunkId) (membership : Option WorkerMembership)
    (required : Nat) (healthy : List WorkerTargetId) (clock : Nat → Nat) (limit : Nat) :
    RepairState → RepairState → Except FluxError (Nat × Nat) → Prop
  | failed {st page cursor' st' error} :
      PageOf st.stores.inventory healthy limit st.cursor page cursor' →
      RowsRepaired hash membership required healthy clock page.chunks.toList
        { st with cursor := cursor' } st' (.error error) →
      RepairRun hash membership required healthy clock limit st st' (.error error)
  | last {st page cursor' st' n} :
      PageOf st.stores.inventory healthy limit st.cursor page cursor' →
      RowsRepaired hash membership required healthy clock page.chunks.toList
        { st with cursor := cursor' } st' (.ok n) →
      page.more = false →
      RepairRun hash membership required healthy clock limit st st' (.ok (page.chunks.size, n))
  | more {st page cursor' mid n st' result} :
      PageOf st.stores.inventory healthy limit st.cursor page cursor' →
      RowsRepaired hash membership required healthy clock page.chunks.toList
        { st with cursor := cursor' } mid (.ok n) →
      page.more = true →
      RepairRun hash membership required healthy clock limit mid st' result →
      RepairRun hash membership required healthy clock limit st st'
        (result.map fun counts => (page.chunks.size + counts.1, n + counts.2))

theorem repairPass_repaired (hash : Bytes → ChunkId) (membership : Option WorkerMembership)
    (clock : Nat → Nat) (hcount : required ≤ healthy.length) (hlimit : 1 ≤ limit) {rounds : Nat}
    (hrounds : limit < rounds) (st : RepairState) :
    ∃ page cursor' st' result,
      repairPass hash membership required healthy clock limit rounds st =
        some (st', result.map fun n => ⟨healthy, page.chunks.size, n, page.more⟩) ∧
      PageOf st.stores.inventory healthy limit st.cursor page cursor' ∧
      RowsRepaired hash membership required healthy clock page.chunks.toList
        { st with cursor := cursor' } st' result := by
  have hsorted : ∀ w ∈ healthy, SortedBy id (st.stores.inventory w) :=
    fun w _ => inventory_sorted st.stores w
  obtain ⟨page, cursor', hpage, hpageOf⟩ := inventoryPage_spec hlimit hsorted hrounds st.cursor
  obtain ⟨st', result, hloop, hrows⟩ := repairChunks_repaired hash membership required healthy clock
    page.chunks.toList { st with cursor := cursor' } 0
  refine ⟨page, cursor', st', result, ?_, hpageOf, hrows⟩
  rw [repairPass, if_neg (by omega), if_neg (by omega), hpage]
  dsimp only
  rw [hloop]
  cases result with
  | error error => rfl
  | ok n => simp [Except.map]

/-- The loop ends, since a page that is not the last moves a cursor over a chunk, and no
chunk is new. -/
theorem repairLoop_run (hash : Bytes → ChunkId) (membership : Option WorkerMembership)
    (clock : Nat → Nat) (hcount : required ≤ healthy.length) (hlimit : 1 ≤ limit) {rounds : Nat}
    (hrounds : limit < rounds) {all : List ChunkId} {fuel : Nat}
    (hall : ∀ w ∈ healthy, ∀ c ∈ st.stores.inventory w, c ∈ all)
    (hfuel : unseenCount (fun _ => all) healthy st.cursor < fuel) (checked repaired : Nat) :
    ∃ st' result,
      repairLoop hash membership required healthy clock limit rounds fuel st checked repaired =
        some (st', result.map fun counts =>
          ⟨healthy, checked + counts.1, repaired + counts.2, false⟩) ∧
      RepairRun hash membership required healthy clock limit st st' result := by
  induction fuel generalizing st checked repaired with
  | zero => exact absurd hfuel (Nat.not_lt_zero _)
  | succ fuel ih =>
    obtain ⟨page, cursor', mid, result, hpass, hpage, hrows⟩ :=
      repairPass_repaired hash membership clock hcount hlimit hrounds st
    rw [repairLoop, hpass]
    cases result with
    | error error => exact ⟨mid, .error error, rfl, .failed hpage hrows⟩
    | ok n =>
      cases hmore : page.more with
      | false => exact ⟨mid, .ok (page.chunks.size, n), by simp [Except.map],
          .last hpage hrows hmore⟩
      | true =>
        have hsome : page.chunks.toList ≠ [] := by
          intro hnil
          have hfull := hpage.full hmore
          rw [hnil, List.length_nil] at hfull
          omega
        have hless := hpage.unseenCount_lt hall hsome
        have hmid : ∀ w ∈ healthy, ∀ c ∈ mid.stores.inventory w, c ∈ all := by
          intro w hw c hc
          rcases hrows.mem hc with hold | hkey
          · exact hall w hw c hold
          · obtain ⟨row, hrow, rfl⟩ := List.mem_map.mp hkey
            obtain ⟨-, v, hv, hmem⟩ :=
              hpage.drains.holders (show (row.1, row.2) ∈ _ from hrow)
            exact hall v hv _ (mem_behind.mp hmem).1
        obtain ⟨st', result, hloop, hrun⟩ := ih hmid
          (by rw [hrows.cursor_eq]; dsimp only; omega)
          (checked + page.chunks.size) (repaired + n)
        refine ⟨st', _, ?_, .more hpage hrows hmore hrun⟩
        simp only [Except.map, if_true, hloop]
        cases result with
        | error error => rfl
        | ok counts => simp [Nat.add_assoc]

namespace RepairRun
variable {result : Except FluxError (Nat × Nat)} {counts : Nat × Nat}

theorem later (h : RepairRun hash membership required healthy clock limit st st' result) :
    st.Later st' := by
  induction h with
  | failed _ hrows => exact ⟨hrows.later.grows, hrows.later.checked⟩
  | last _ hrows => exact ⟨hrows.later.grows, hrows.later.checked⟩
  | more _ hrows _ _ ih => exact RepairState.Later.trans ⟨hrows.later.grows, hrows.later.checked⟩ ih

/-- A chunk in front of a worker is restored when the repair has ended well. -/
theorem restored (h : RepairRun hash membership required healthy clock limit st st' result)
    (hok : result = .ok counts) (hhealthy : healthy.Nodup) (hw : w ∈ healthy)
    (hc : c ∈ unseen st.stores.inventory st.cursor w) :
    Restored hash membership required healthy clock st' c := by
  -- a chunk of the page is restored by it, any other is in front of the next page
  have hpageRows : ∀ {st st' : RepairState} {page : InventoryPage} {cursor' : Cursors} {n : Nat},
      PageOf st.stores.inventory healthy limit st.cursor page cursor' →
      RowsRepaired hash membership required healthy clock page.chunks.toList
        { st with cursor := cursor' } st' (.ok n) →
      c ∈ page.chunks.toList.map Prod.fst → Restored hash membership required healthy clock st'
        c := by
    intro st st' page cursor' n hpage hrows hc
    obtain ⟨row, hrow, rfl⟩ := List.mem_map.mp hc
    refine hrows.restored rfl (fun row hrow => ⟨?_, ?_, ?_⟩) row hrow
    · rw [(hpage.drains.holders (show (row.1, row.2) ∈ _ from hrow)).1]
      exact hhealthy.filter _
    · exact fun w hw => ((hpage.mem_holders hrow).mp hw).1
    · exact fun w hw => (mem_behind.mp ((hpage.mem_holders hrow).mp hw).2).1
  induction h generalizing counts with
  | failed => cases hok
  | last hpage hrows hmore =>
    rcases hpage.drains.mem_or hw hc with htaken | hleft
    · exact hpageRows hpage hrows htaken
    · have htrue := hpage.more.mpr ⟨w, hw, List.ne_nil_of_mem hleft⟩
      rw [hmore] at htrue
      cases htrue
  | @more st page cursor' mid n st' result hpage hrows hmore hrest ih =>
    cases result with
    | error error => cases hok
    | ok counts =>
      rcases hpage.drains.mem_or hw hc with htaken | hleft
      · exact (hpageRows hpage hrows htaken).later hrest.later
      · refine ih rfl ?_
        obtain ⟨hmem, hbehind⟩ := mem_behind.mp hleft
        rw [unseen, hrows.cursor_eq]
        exact mem_behind.mpr ⟨hrows.later.grows.mem hmem, hbehind⟩

/-- A chunk in front of a worker is checked from here on. -/
theorem checks (h : RepairRun hash membership required healthy clock limit st st' result)
    (hok : result = .ok counts) (hw : w ∈ healthy)
    (hc : c ∈ unseen st.stores.inventory st.cursor w) :
    ∃ more, st'.checked = st.checked ++ more ∧ c ∈ more := by
  induction h generalizing counts with
  | failed => cases hok
  | @last st page cursor' st' n hpage hrows hmore =>
    refine ⟨page.chunks.toList.map Prod.fst, hrows.checked_eq rfl, ?_⟩
    refine (hpage.drains.mem_or hw hc).resolve_right fun hleft => ?_
    have htrue := hpage.more.mpr ⟨w, hw, List.ne_nil_of_mem hleft⟩
    rw [hmore] at htrue
    cases htrue
  | @more st page cursor' mid n st' result hpage hrows hmore hrest ih =>
    cases result with
    | error error => cases hok
    | ok counts =>
      obtain ⟨rest, hrestChecked⟩ := hrest.later.checked
      have hchecked : st'.checked = st.checked ++ (page.chunks.toList.map Prod.fst ++ rest) := by
        rw [← hrestChecked, hrows.checked_eq rfl, List.append_assoc]
      refine ⟨_, hchecked, List.mem_append.mpr ?_⟩
      refine (hpage.drains.mem_or hw hc).imp_right fun hleft => ?_
      obtain ⟨hmem, hbehind⟩ := mem_behind.mp hleft
      obtain ⟨more, hmoreChecked, hcmore⟩ := ih rfl (by
        rw [unseen, hrows.cursor_eq]
        exact mem_behind.mpr ⟨hrows.later.grows.mem hmem, hbehind⟩)
      rw [← hrestChecked, List.append_cancel_left_eq] at hmoreChecked
      rwa [hmoreChecked]

end RepairRun

/-- How a repair with enough workers runs. -/
theorem repairWithHealth_run (hash : Bytes → ChunkId) (membership : Option WorkerMembership)
    (clock : Nat → Nat) (stores : Stores) (hcount : required ≤ healthy.length) (hlimit : 1 ≤ limit)
    {rounds fuel : Nat} (hrounds : limit < rounds)
    (hfuel : healthy.length * (healthy.flatMap stores.inventory).length < fuel) :
    ∃ st result, repairWithHealth hash membership required healthy clock limit rounds fuel stores =
        some (st, result.map fun counts => ⟨healthy, counts.1, counts.2, false⟩) ∧
      RepairRun hash membership required healthy clock limit ⟨stores, ∅, []⟩ st result := by
  have hall : ∀ w ∈ healthy, ∀ c ∈ (RepairState.mk stores ∅ []).stores.inventory w,
      c ∈ healthy.flatMap stores.inventory :=
    fun w hw c hc => List.mem_flatMap.mpr ⟨w, hw, hc⟩
  have hunseen : unseenCount (fun _ => healthy.flatMap stores.inventory) healthy ∅ < fuel := by
    rw [unseenCount, unseen_empty]
    simpa using hfuel
  obtain ⟨st, result, hloop, hrun⟩ := repairLoop_run hash membership clock hcount hlimit hrounds
    hall hunseen 0 0
  refine ⟨st, result, ?_, hrun⟩
  rw [repairWithHealth, hloop]
  simp only [Nat.zero_add]

/-- With too few workers, or an empty page, the first page is refused. -/
theorem repairWithHealth_refused (hash : Bytes → ChunkId) (membership : Option WorkerMembership)
    (clock : Nat → Nat) (stores : Stores) (hrefused : healthy.length < required ∨ limit = 0)
    {rounds fuel : Nat} (hfuel : 0 < fuel) :
    ∃ error, repairWithHealth hash membership required healthy clock limit rounds fuel stores =
      some (⟨stores, ∅, []⟩, .error error) := by
  have hpass : ∃ error, repairPass hash membership required healthy clock limit rounds
      ⟨stores, ∅, []⟩ = some (⟨stores, ∅, []⟩, .error error) := by
    rw [repairPass]
    split_ifs with hfew hzero
    · exact ⟨_, rfl⟩
    · exact ⟨_, rfl⟩
    · exact absurd hrefused (not_or.mpr ⟨hfew, hzero⟩)
  obtain ⟨error, hpass⟩ := hpass
  obtain ⟨fuel, rfl⟩ := Nat.exists_eq_succ_of_ne_zero (Nat.ne_zero_of_lt hfuel)
  exact ⟨error, by rw [repairWithHealth, repairLoop, hpass]⟩

/-- A repair ends, whatever the inventories are. No worker loses a chunk, and after a
repair that ends well each chunk of a healthy worker is restored. A put that is answered
`Ok` has stored its chunk on enough workers. -/
theorem repair_restores (hash : Bytes → ChunkId) (membership : Option WorkerMembership)
    (required : Nat) (healthy : List WorkerTargetId) (clock : Nat → Nat) (limit rounds fuel : Nat)
    (stores : Stores) (hhealthy : healthy.Nodup) (hrounds : limit < rounds)
    (hfuel : healthy.length * (healthy.flatMap stores.inventory).length < fuel) :
    (∃ st result,
      repairWithHealth hash membership required healthy clock limit rounds fuel stores =
        some (st, result) ∧
      stores.Grows st.stores ∧
      ∀ report, result = .ok report → ∀ w ∈ healthy, ∀ c ∈ stores.inventory w,
        Restored hash membership required healthy clock st c) ∧
    ∀ (net : WorkerTargetId → CallFate) (health : WorkerTargetId → Option HealthResponse)
      (repair : List WorkerTargetId → Stores → RepairState × Except FluxError RepairReport)
      (nowMs : Nat) (loop loop' : RpcLoop) (before after : Stores) (data : Bytes) (chunk : ChunkId),
      loop.put hash net health repair nowMs required before data = (loop', after, .ok chunk) →
        chunk = hash data ∧ Replicated required after chunk := by
  refine ⟨?_, fun _ _ _ _ _ _ _ _ _ _ h => put_replicated h⟩
  by_cases hrefused : healthy.length < required ∨ limit = 0
  · obtain ⟨error, hloop⟩ := repairWithHealth_refused hash membership clock stores hrefused
      (Nat.zero_lt_of_lt hfuel)
    exact ⟨_, _, hloop, fun _ _ _ h => h, nofun⟩
  · obtain ⟨hcount, hlimit⟩ := not_or.mp hrefused
    obtain ⟨st, result, hloop, hrun⟩ := repairWithHealth_run hash membership clock stores
      (Nat.not_lt.mp hcount) (Nat.pos_of_ne_zero hlimit) hrounds hfuel
    refine ⟨st, _, hloop, hrun.later.grows, fun report hok w hw c hc => ?_⟩
    cases result with
    | error error => cases hok
    | ok counts =>
      refine hrun.restored rfl hhealthy hw ?_
      rw [unseen_empty]
      exact hc

end

/-- Worker 3 has two chunks that nobody else has. -/
def oneSidedStores : Stores :=
  Function.update (fun _ => ∅) 3 (Table.insertAll ∅ [(.ofByte 1, [1]), (.ofByte 2, [2])])

theorem repair_restores_oneSidedStores :
    ∃ st report, repairWithHealth firstByte none 2 [1, 2, 3] (fun _ => 0) 1 2 20
        oneSidedStores = some (st, .ok report) ∧
      ∀ w ∈ [1, 2, 3], ∀ c ∈ oneSidedStores.inventory w,
        Restored firstByte none 2 [1, 2, 3] (fun _ => 0) st c := by
  obtain ⟨⟨st, result, hloop, -, hrestored⟩, -⟩ := repair_restores firstByte none 2
    [1, 2, 3] (fun _ => 0) 1 2 20 oneSidedStores (by decide) (by decide) (by decide +kernel)
  have hresult : (repairWithHealth firstByte none 2 [1, 2, 3] (fun _ => 0) 1 2 20
      oneSidedStores).map Prod.snd = some (.ok ⟨[1, 2, 3], 4, 4, false⟩) := by decide +kernel
  rw [hloop] at hresult
  cases hresult
  exact ⟨st, _, hloop, hrestored _ rfl⟩

end FluxFS
