import FluxFS.Client.ReadPath
import Mathlib.Tactic.MkIffOfInductiveProp

/-!
# Extents — the overlap query and replacing a range of a manifest

`ExtentTree::overlapping` and `Manifest::replace_range` of `crates/types`. On extents
that do not overlap, the query finds what a scan of all extents finds
(`extentsInRange_eq_filter`), except at the last offset of `u64`, where it panics
unless there is no extent at all.
A replacement takes the extents that reach into the new one out, puts back what lies
outside of it and adds the new extent: it changes where the bytes of the new range
come from and nothing else (`replaceRange_overlays`), and it fails only on a Local
extent that sticks out.
-/

namespace FluxFS

open Kit

namespace ExtentTree

/-- `ExtentTree::overlapping`: the last extent that starts at or before `offset`, if it
reaches past it, and those that start inside the range. `none` is the panic of
`BTreeMap::range` for two excluded bounds that are equal; in a map without entries there is
nothing to search, and the bounds are not compared. -/
def overlapping (t : ExtentTree) (offset len : Nat) : Option (List Extent) :=
  if len = 0 then some []
  else
    let stop := saturatingAdd offset len
    let before := (t.extents.filter (·.offset ≤ offset)).getLast?
    let hits := (before.filter fun e => e.offset < stop ∧ offset < e.stop).toList
    if offset = stop ∧ t.extents ≠ [] then none
    else some (hits ++ t.extents.filter fun e => offset < e.offset ∧ e.offset < stop)

/-- `ExtentTree::remove`. -/
def remove (t : ExtentTree) (offset : Nat) : ExtentTree :=
  ⟨t.extents.filter (·.offset ≠ offset), t.sorted.filter _⟩

/-- `ExtentTree::insert`, which refuses an offset that is taken. -/
def insertNew (t : ExtentTree) (e : Extent) : Except FluxError ExtentTree :=
  if t.hasOffset e.offset then .error (.invalidArg s!"duplicate extent offset {e.offset}")
  else .ok (t.insert e)

end ExtentTree

namespace Manifest

/-- One round of the loop of `replace_range`. -/
def cutExtent (newStart newEnd : Nat) (result : ExtentTree) (existing : Extent) :
    Except FluxError ExtentTree :=
  match checkedAdd existing.offset existing.len with
  | none => .error (.invalidArg "existing extent len overflow")
  | some exEnd =>
    let result := result.remove existing.offset
    match existing with
    | .ufsRange exStart _ key version objBase => do
      let result ←
        if exStart < newStart then
          result.insertNew (.ufsRange exStart (newStart - exStart) key version objBase)
        else .ok result
      if exEnd > newEnd then
        result.insertNew
          (.ufsRange newEnd (exEnd - newEnd) key version (objBase + (newEnd - exStart)))
      else .ok result
    | .local exStart _ _ =>
      if newStart ≤ exStart ∧ newEnd ≥ exEnd then .ok result
      else
        .error (.invalidArg (s!"Local extent [{exStart},{exEnd}) partially overlapped by " ++
          s!"new [{newStart},{newEnd}); caller must RMW to produce a fresh chunk"))

/-- The loop of `replace_range`. -/
def cutExtents (newStart newEnd : Nat) :
    List Extent → ExtentTree → Except FluxError ExtentTree
  | [], result => .ok result
  | existing :: rest, result => do
    let result ← cutExtent newStart newEnd result existing
    cutExtents newStart newEnd rest result

/-- `Manifest::extents_in_range`. -/
def extentsInRange (m : Manifest) (offset len : Nat) : Option (List Extent) :=
  m.extents.overlapping offset len

/-- The end of `replace_range`: the new extent comes in and the result is checked. -/
def addExtent (m : Manifest) (newExtent : Extent) (newEnd : Nat) (newGen : DataGen)
    (result : ExtentTree) : Except FluxError Manifest := do
  let result ← result.insertNew newExtent
  let next : Manifest := ⟨m.inode, newGen, max m.size newEnd, result⟩
  next.validate
  pure next

/-- `Manifest::replace_range`; `none` if the overlap query panics. -/
def replaceRange (m : Manifest) (newExtent : Extent) (newGen : DataGen) :
    Option (Except FluxError Manifest) :=
  if newExtent.len = 0 then some (.error (.invalidArg "replace_range: new_extent has len=0"))
  else
    match checkedAdd newExtent.offset newExtent.len with
    | none => some (.error (.invalidArg "new_extent len overflow"))
    | some newEnd =>
      (m.extents.overlapping newExtent.offset newExtent.len).map fun overlapping => do
        let result ← cutExtents newExtent.offset newEnd overlapping m.extents
        m.addExtent newExtent newEnd newGen result

end Manifest

/-! ## Extents that do not overlap -/

/-- Non-empty extents within `u64`, none of which reaches into a later one. -/
@[mk_iff]
structure Laid (extents : List Extent) : Prop where
  nonempty : ∀ e ∈ extents, 0 < e.len
  within : ∀ e ∈ extents, e.offset + e.len ≤ u64Max
  apart : ∀ a ∈ extents, ∀ b ∈ extents, a.offset < b.offset → a.offset + a.len ≤ b.offset

instance (extents : List Extent) : Decidable (Laid extents) := decidable_of_iff _ (laid_iff _).symm

namespace ExtentTree
variable {t : ExtentTree} {e x : Extent}

theorem eq_of_offset (he : e ∈ t.extents) (hx : x ∈ t.extents) (h : e.offset = x.offset) :
    e = x := by
  have hnodup : (t.extents.map Extent.offset).Nodup :=
    List.pairwise_map.mpr (t.sorted.imp Nat.ne_of_lt)
  exact List.inj_on_of_nodup_map hnodup he hx h

theorem mem_remove {offset : Nat} :
    x ∈ (t.remove offset).extents ↔ x ∈ t.extents ∧ x.offset ≠ offset := by
  simp [remove]

theorem mem_insertByOffset_iff {xs : List Extent} (h : ∀ y ∈ xs, y.offset ≠ e.offset) :
    x ∈ insertByOffset e xs ↔ x = e ∨ x ∈ xs := by
  induction xs with
  | nil => simp [insertByOffset]
  | cons y ys ih =>
    obtain ⟨hy, hys⟩ := List.forall_mem_cons.mp h
    rw [insertByOffset, if_neg (Ne.symm hy)]
    split
    · simp
    · rw [List.mem_cons, ih hys, List.mem_cons]
      tauto

theorem hasOffset_eq_false {offset : Nat} :
    t.hasOffset offset = false ↔ ∀ y ∈ t.extents, y.offset ≠ offset := by
  simp [hasOffset]

theorem insertNew_ok (h : ∀ y ∈ t.extents, y.offset ≠ e.offset) :
    ∃ t', t.insertNew e = .ok t' ∧ ∀ x, x ∈ t'.extents ↔ x = e ∨ x ∈ t.extents := by
  refine ⟨t.insert e, ?_, fun x => mem_insertByOffset_iff h⟩
  rw [insertNew, hasOffset_eq_false.mpr h]
  rfl

/-- A piece that is only there under a condition. -/
theorem insertNew_if {c : Prop} [Decidable c] (h : c → ∀ y ∈ t.extents, y.offset ≠ e.offset) :
    ∃ t', (if c then t.insertNew e else .ok t) = .ok t' ∧
      ∀ x, x ∈ t'.extents ↔ (c ∧ x = e) ∨ x ∈ t.extents := by
  by_cases hc : c
  · obtain ⟨t', ht', hmem⟩ := insertNew_ok (h hc)
    exact ⟨t', by rw [if_pos hc, ht'], fun x => by rw [hmem]; simp [hc]⟩
  · exact ⟨t, by rw [if_neg hc], fun x => by simp [hc]⟩

/-- An extent that reaches past `offset` is the last that starts at or before it. -/
theorem getLast?_of_reach (hlaid : Laid t.extents) {offset : Nat} (he : e ∈ t.extents)
    (hbefore : e.offset ≤ offset) (hreach : offset < e.offset + e.len) :
    (t.extents.filter (·.offset ≤ offset)).getLast? = some e := by
  have hmem : e ∈ t.extents.filter (·.offset ≤ offset) := by simp [he, hbefore]
  cases hlast : (t.extents.filter (·.offset ≤ offset)).getLast? with
  | none =>
    rw [List.getLast?_eq_none_iff.mp hlast] at hmem
    cases hmem
  | some l =>
    obtain ⟨hl, hle⟩ := List.mem_filter.mp (List.mem_of_getLast? hlast)
    obtain ⟨init, hinit⟩ := List.getLast?_eq_some_iff.mp hlast
    have hsorted := t.sorted.filter (·.offset ≤ offset)
    rw [hinit] at hmem hsorted
    rcases List.mem_append.mp hmem with hearlier | hsame
    · have hlt := (List.pairwise_append.mp hsorted).2.2 e hearlier l (List.mem_singleton_self l)
      have hpast := hlaid.apart e he l hl hlt
      have hle := of_decide_eq_true hle
      omega
    · rw [List.mem_singleton.mp hsame]

/-- The extents that the two scans of the query find. -/
theorem mem_hits (hlaid : Laid t.extents) (offset stop : Nat) :
    e ∈ ((t.extents.filter (·.offset ≤ offset)).getLast?.filter
        fun e => e.offset < stop ∧ offset < e.stop).toList ++
          t.extents.filter (fun e => offset < e.offset ∧ e.offset < stop) ↔
      e ∈ t.extents ∧ e.offset < stop ∧ offset < e.offset + e.len := by
  have hend (he : e ∈ t.extents) : e.stop = e.offset + e.len :=
    saturatingAdd_of_le (hlaid.within e he)
  simp only [List.mem_append, Option.mem_toList, Option.filter_eq_some_iff, List.mem_filter,
    decide_eq_true_eq]
  constructor
  · rintro (⟨hlast, hstart, hreach⟩ | ⟨he, hafter, hstart⟩)
    · have he := (List.mem_filter.mp (List.mem_of_getLast? hlast)).1
      exact ⟨he, hstart, hend he ▸ hreach⟩
    · exact ⟨he, hstart, by omega⟩
  · rintro ⟨he, hstart, hreach⟩
    by_cases hbefore : e.offset ≤ offset
    · exact .inl ⟨getLast?_of_reach hlaid he hbefore hreach, hstart, (hend he).symm ▸ hreach⟩
    · exact .inr ⟨he, by omega, hstart⟩

/-- The one extent of the first scan starts before those of the second. -/
theorem hits_sorted (t : ExtentTree) (offset stop : Nat) :
    (((t.extents.filter (·.offset ≤ offset)).getLast?.filter
        fun e => e.offset < stop ∧ offset < e.stop).toList ++
          t.extents.filter (fun e => offset < e.offset ∧ e.offset < stop)).Pairwise
      (fun a b => a.offset < b.offset) := by
  refine List.pairwise_append.mpr ⟨?_, t.sorted.filter _, ?_⟩
  · cases (t.extents.filter (·.offset ≤ offset)).getLast?.filter
      (fun e => e.offset < stop ∧ offset < e.stop) with
    | none => exact List.Pairwise.nil
    | some a => exact List.pairwise_singleton ..
  · intro a ha b hb
    rw [Option.mem_toList, Option.filter_eq_some_iff] at ha
    have hle := (List.mem_filter.mp (List.mem_of_getLast? ha.1)).2
    have hlt := (List.mem_filter.mp hb).2
    simp only [decide_eq_true_eq] at hle hlt
    omega

/-- Away from the last offset of `u64` the query is the filter of all extents. -/
theorem overlapping_eq_filter (hlaid : Laid t.extents) {offset len : Nat} (hlen : 0 < len)
    (hoffset : offset < u64Max) :
    t.overlapping offset len = some (t.extents.filter fun e =>
      e.offset < saturatingAdd offset len ∧ offset < e.offset + e.len) := by
  have hstop : offset < saturatingAdd offset len := lt_saturatingAdd (by omega) hoffset
  rw [overlapping, if_neg (Nat.ne_of_gt hlen), if_neg fun h => Nat.ne_of_lt hstop h.1,
    Option.some.injEq]
  -- two lists in offset order with the same members
  have hsorted := hits_sorted t offset (saturatingAdd offset len)
  have hfilter := t.sorted.filter fun e =>
    decide (e.offset < saturatingAdd offset len ∧ offset < e.offset + e.len)
  refine List.Perm.eq_of_pairwise (fun a b _ _ hab hba => absurd hab (Nat.lt_asymm hba)) hsorted
    hfilter ?_
  refine (List.perm_ext_iff_of_nodup (hsorted.imp fun h => ?_) (hfilter.imp fun h => ?_)).mpr ?_
  · rintro rfl
    exact Nat.lt_irrefl _ h
  · rintro rfl
    exact Nat.lt_irrefl _ h
  · intro e
    rw [mem_hits hlaid]
    simp

end ExtentTree

/-- The extent shares a byte with `[offset, stop)`. -/
def Extent.Shares (offset stop : Nat) (e : Extent) : Prop :=
  ∃ pos, (e.offset ≤ pos ∧ pos < e.offset + e.len) ∧ offset ≤ pos ∧ pos < stop

theorem Extent.shares_iff {offset stop : Nat} {e : Extent} :
    e.Shares offset stop ↔ max offset e.offset < min stop (e.offset + e.len) := by
  constructor
  · rintro ⟨pos, hextent, hrange⟩
    omega
  · intro h
    exact ⟨max offset e.offset, by omega, by omega⟩

instance (offset stop : Nat) (e : Extent) : Decidable (e.Shares offset stop) :=
  decidable_of_iff _ Extent.shares_iff.symm

/-- At the last offset of `u64` the end of the range saturates to its start. -/
theorem ExtentTree.overlapping_max (t : ExtentTree) {len : Nat} (hlen : len ≠ 0) :
    t.overlapping u64Max len = if t.extents = [] then some [] else none := by
  have hstop : saturatingAdd u64Max len = u64Max := Nat.min_eq_right (Nat.le_add_right ..)
  rw [ExtentTree.overlapping, if_neg hlen, hstop]
  by_cases hempty : t.extents = []
  · simp [hempty]
  · simp [hempty]

/-- The query returns the extents that share a byte with the range, in offset order, exactly
if it does not start at the last offset of `u64` or there is nothing to find. -/
theorem extentsInRange_eq_filter (m : Manifest) (hlaid : Laid m.extents.extents) (offset len : Nat)
    (hoffset : offset ≤ u64Max) :
    (m.extentsInRange offset len =
        some (m.extents.extents.filter fun e => e.Shares offset (min (offset + len) u64Max)) ↔
      len = 0 ∨ offset < u64Max ∨ m.extents.extents = []) ∧
      (m.extents.extents.filter fun e => e.Shares offset (min (offset + len) u64Max)).Pairwise
        (fun a b => a.offset < b.offset) := by
  refine ⟨?_, m.extents.sorted.filter _⟩
  by_cases hlen : len = 0
  · refine iff_of_true ?_ (.inl hlen)
    rw [Manifest.extentsInRange, ExtentTree.overlapping, if_pos hlen, Option.some.injEq, eq_comm,
      List.filter_eq_nil_iff]
    intro e _
    rw [decide_eq_true_eq, Extent.shares_iff]
    omega
  · rcases Nat.lt_or_eq_of_le hoffset with hbelow | rfl
    · refine iff_of_true ?_ (.inr (.inl hbelow))
      rw [Manifest.extentsInRange,
        ExtentTree.overlapping_eq_filter hlaid (Nat.pos_of_ne_zero hlen) hbelow, Option.some.injEq]
      refine List.filter_congr fun e he => ?_
      have hpos := hlaid.nonempty e he
      rw [decide_eq_decide, Extent.shares_iff, saturatingAdd]
      omega
    · rw [Manifest.extentsInRange, ExtentTree.overlapping_max _ hlen]
      by_cases hempty : m.extents.extents = []
      · simp [hempty]
      · simp [hempty, hlen]

/-- A byte, a hole and the two last bytes of `u64`. -/
def edgeManifest : Manifest :=
  ⟨1, 1, u64Max, ⟨[.local 0 1 (.ofByte 1), .local (u64Max - 2) 2 (.ofByte 2)], by decide⟩⟩

theorem extentsInRange_eq_filter_edgeManifest :
    edgeManifest.extentsInRange (u64Max - 1) u64Max = some [.local (u64Max - 2) 2 (.ofByte 2)] := by
  have hlaid : Laid edgeManifest.extents.extents := ⟨by decide, by decide, by decide⟩
  rw [(extentsInRange_eq_filter edgeManifest hlaid (u64Max - 1) u64Max (by decide)).1.mpr
    (by decide)]
  decide

/-- At the last offset of `u64` the end of the range saturates to its start, and the
query panics instead of finding nothing. -/
theorem extentsInRange_panics_at_max :
    Laid edgeManifest.extents.extents ∧ edgeManifest.extentsInRange u64Max 1 = none := by
  exact ⟨⟨by decide, by decide, by decide⟩, by decide⟩

/-! ## Where the bytes of a file come from -/

/-- A byte of a chunk, or of a pinned object. -/
inductive ByteSource where
  | chunk (chunk : ChunkId) (offset : Nat)
  | object (key : String) (version : UfsVersion) (offset : Nat)
deriving DecidableEq, Repr

/-- The source of a file position that the extent covers. -/
def Extent.sourceAt (pos : Nat) : Extent → ByteSource
  | .local offset _ chunk => .chunk chunk (pos - offset)
  | .ufsRange offset _ key version offsetInObject =>
    .object key version (offsetInObject + (pos - offset))

/-- The source of a file position; `none` in a hole. -/
def Manifest.sourceAt (m : Manifest) (pos : Nat) : Option ByteSource :=
  (m.extents.extents.find? fun e => e.offset ≤ pos ∧ pos < e.offset + e.len).map
    (Extent.sourceAt pos)

namespace Laid
variable {m : Manifest} {e x : Extent} {pos : Nat}

/-- Two extents do not cover one position. -/
theorem eq_of_covers (h : Laid m.extents.extents) (he : e ∈ m.extents.extents)
    (hx : x ∈ m.extents.extents) (hecover : e.offset ≤ pos ∧ pos < e.offset + e.len)
    (hxcover : x.offset ≤ pos ∧ pos < x.offset + x.len) : e = x := by
  refine ExtentTree.eq_of_offset he hx ?_
  rcases Nat.lt_trichotomy e.offset x.offset with hlt | heq | hgt
  · have := h.apart e he x hx hlt
    omega
  · exact heq
  · have := h.apart x hx e he hgt
    omega

theorem sourceAt_of_mem (h : Laid m.extents.extents) (he : e ∈ m.extents.extents)
    (hcover : e.offset ≤ pos ∧ pos < e.offset + e.len) :
    m.sourceAt pos = some (e.sourceAt pos) := by
  unfold Manifest.sourceAt
  cases hfind : m.extents.extents.find? (fun e => e.offset ≤ pos ∧ pos < e.offset + e.len) with
  | none =>
    have := List.find?_eq_none.mp hfind e he
    simp [hcover] at this
  | some x =>
    have hx := List.mem_of_find?_eq_some hfind
    have hxcover := List.find?_some hfind
    simp only [decide_eq_true_eq] at hxcover
    rw [h.eq_of_covers he hx hcover hxcover]
    rfl

end Laid

theorem Manifest.sourceAt_eq_none {m : Manifest} {pos : Nat}
    (h : ∀ e ∈ m.extents.extents, ¬ (e.offset ≤ pos ∧ pos < e.offset + e.len)) :
    m.sourceAt pos = none := by
  have hfind : m.extents.extents.find? (fun e => e.offset ≤ pos ∧ pos < e.offset + e.len) = none :=
    List.find?_eq_none.mpr fun e he => by simpa using h e he
  rw [Manifest.sourceAt, hfind]
  rfl

/-! ## What a replacement leaves of an extent -/

namespace Extent
variable {newStart newEnd : Nat} {e x : Extent}

/-- The extent has a position in `[newStart, newEnd)`. -/
def Meets (newStart newEnd : Nat) (e : Extent) : Prop :=
  e.offset < newEnd ∧ newStart < e.offset + e.len

instance : Decidable (e.Meets newStart newEnd) := inferInstanceAs (Decidable (_ ∧ _))

/-- The pieces one round of the loop puts back. -/
def pieces (newStart newEnd : Nat) : Extent → List Extent
  | .ufsRange offset len key version objBase =>
    (if offset < newStart then [.ufsRange offset (newStart - offset) key version objBase]
      else []) ++
    if offset + len > newEnd then
      [.ufsRange newEnd (offset + len - newEnd) key version (objBase + (newEnd - offset))]
    else []
  | .local .. => []

/-- What is left of the extent. -/
def parts (newStart newEnd : Nat) (e : Extent) : List Extent :=
  if e.Meets newStart newEnd then e.pieces newStart newEnd else [e]

/-- A Local extent that meets the new one lies inside it. -/
def Replaceable (newStart newEnd : Nat) (e : Extent) : Prop :=
  e.localChunk?.isSome = true → e.Meets newStart newEnd →
    newStart ≤ e.offset ∧ e.offset + e.len ≤ newEnd

/-- `x` is a part of `e` outside of `[newStart, newEnd)`. -/
structure PartOf (newStart newEnd : Nat) (e x : Extent) : Prop where
  nonempty : 0 < x.len
  lower : e.offset ≤ x.offset
  upper : x.offset + x.len ≤ e.offset + e.len
  avoids : x.offset + x.len ≤ newStart ∨ newEnd ≤ x.offset
  whole : x.localChunk?.isSome = true → x = e
  source : ∀ pos, x.offset ≤ pos → x.sourceAt pos = e.sourceAt pos
  inObject : e.InObject → x.InObject

theorem mem_pieces_ufsRange {offset len objBase : Nat} {key : String} {version : UfsVersion} :
    x ∈ pieces newStart newEnd (.ufsRange offset len key version objBase) ↔
      (offset < newStart ∧ x = .ufsRange offset (newStart - offset) key version objBase) ∨
      (offset + len > newEnd ∧ x = .ufsRange newEnd (offset + len - newEnd) key version
        (objBase + (newEnd - offset))) := by
  rw [pieces, List.mem_append]
  by_cases hhead : offset < newStart
  · by_cases htail : offset + len > newEnd
    · simp [hhead, htail]
    · simp [hhead, htail]
  · by_cases htail : offset + len > newEnd
    · simp [hhead, htail]
    · simp [hhead, htail]

/-- A piece keeps the start or the end of the extent. -/
theorem of_mem_pieces (h : x ∈ e.pieces newStart newEnd) :
    x.offset = e.offset ∧ e.offset < newStart ∨ x.offset = newEnd ∧ newEnd < e.offset + e.len := by
  cases e with
  | «local» => cases h
  | ufsRange offset len key version objBase =>
    rcases mem_pieces_ufsRange.mp h with ⟨hhead, rfl⟩ | ⟨htail, rfl⟩
    · exact .inl ⟨rfl, hhead⟩
    · exact .inr ⟨rfl, htail⟩

theorem partOf_of_mem_pieces (hmeets : e.Meets newStart newEnd)
    (h : x ∈ e.pieces newStart newEnd) : PartOf newStart newEnd e x := by
  cases e with
  | «local» => cases h
  | ufsRange offset len key version objBase =>
    simp only [Meets, Extent.offset, Extent.len] at hmeets
    rcases mem_pieces_ufsRange.mp h with ⟨hhead, rfl⟩ | ⟨htail, rfl⟩
    · refine ⟨?_, ?_, ?_, ?_, fun hlocal => (by cases hlocal), fun _ _ => rfl, fun hobject => ?_⟩
      any_goals simp only [Extent.offset, Extent.len]; omega
      simp only [InObject] at hobject ⊢
      omega
    · refine ⟨?_, ?_, ?_, ?_, fun hlocal => (by cases hlocal), fun pos hpos => ?_,
        fun hobject => ?_⟩
      any_goals simp only [Extent.offset, Extent.len]; omega
      · simp only [Extent.offset] at hpos
        have hshift : objBase + (newEnd - offset) + (pos - newEnd) =
          objBase + (pos - offset) := by
          omega
        simp only [sourceAt, hshift]
      · simp only [InObject] at hobject ⊢
        omega

theorem partOf_of_mem_parts (hnonempty : 0 < e.len) (h : x ∈ e.parts newStart newEnd) :
    PartOf newStart newEnd e x := by
  unfold parts at h
  split at h
  · rename_i hmeets
    exact partOf_of_mem_pieces hmeets h
  · rename_i hmeets
    rw [List.mem_singleton.mp h]
    refine ⟨hnonempty, le_rfl, le_rfl, ?_, fun _ => rfl, fun _ _ => rfl, id⟩
    unfold Meets at hmeets
    omega

/-- What lies outside of the new range is in a part. -/
theorem exists_part (hreplaceable : e.Replaceable newStart newEnd) {pos : Nat}
    (hlow : e.offset ≤ pos) (hhigh : pos < e.offset + e.len)
    (hout : ¬ (newStart ≤ pos ∧ pos < newEnd)) :
    ∃ x ∈ e.parts newStart newEnd, x.offset ≤ pos ∧ pos < x.offset + x.len := by
  by_cases hmeets : e.Meets newStart newEnd
  · rw [parts, if_pos hmeets]
    cases e with
    | «local» offset len chunk =>
      have hinside := hreplaceable rfl hmeets
      simp only [Extent.offset, Extent.len] at hinside hlow hhigh
      omega
    | ufsRange offset len key version objBase =>
      simp only [Meets, Extent.offset, Extent.len] at hmeets hlow hhigh
      by_cases hpos : pos < newStart
      · refine ⟨.ufsRange offset (newStart - offset) key version objBase, ?_, hlow, ?_⟩
        · exact mem_pieces_ufsRange.mpr (.inl ⟨by omega, rfl⟩)
        · simp only [Extent.offset, Extent.len]
          omega
      · refine ⟨.ufsRange newEnd (offset + len - newEnd) key version
          (objBase + (newEnd - offset)), ?_, ?_, ?_⟩
        · exact mem_pieces_ufsRange.mpr (.inr ⟨by omega, rfl⟩)
        all_goals simp only [Extent.offset, Extent.len]; omega
  · rw [parts, if_neg hmeets]
    exact ⟨e, List.mem_singleton_self e, hlow, hhigh⟩

end Extent

/-! ## The loop -/

namespace Manifest
variable {t r : ExtentTree} {newStart newEnd : Nat} {existing : Extent} {done todo : List Extent}

/-- The loop has replaced the extents `done` by their pieces. -/
def Cut (t : ExtentTree) (newStart newEnd : Nat) (done : List Extent) (r : ExtentTree) : Prop :=
  ∀ x, x ∈ r.extents ↔
    (x ∈ t.extents ∧ x ∉ done) ∨ ∃ e ∈ done, x ∈ e.pieces newStart newEnd

/-- What the loop still has to do is made of extents of the tree that meet the range. -/
def Meeting (t : ExtentTree) (newStart newEnd : Nat) (extents : List Extent) : Prop :=
  ∀ e ∈ extents, e ∈ t.extents ∧ e.Meets newStart newEnd

/-- Taking an extent out by its offset takes out no other. -/
theorem Cut.remove (hr : Cut t newStart newEnd done r) (hdone : Meeting t newStart newEnd done)
    (hexisting : existing ∈ t.extents) (hmeets : existing.Meets newStart newEnd)
    (hnew : existing ∉ done) (x : Extent) :
    x ∈ (r.remove existing.offset).extents ↔
      (x ∈ t.extents ∧ x ∉ existing :: done) ∨ ∃ e ∈ done, x ∈ e.pieces newStart newEnd := by
  rw [ExtentTree.mem_remove, hr x]
  constructor
  · rintro ⟨⟨hx, hxdone⟩ | hpiece, hoffset⟩
    · refine .inl ⟨hx, fun hmem => ?_⟩
      rcases List.mem_cons.mp hmem with rfl | hmem
      · exact hoffset rfl
      · exact hxdone hmem
    · exact .inr hpiece
  · rintro (⟨hx, hxdone⟩ | ⟨e, he, hpiece⟩)
    · refine ⟨.inl ⟨hx, fun hmem => hxdone (List.mem_cons_of_mem _ hmem)⟩, fun hoffset => ?_⟩
      rw [ExtentTree.eq_of_offset hx hexisting hoffset] at hxdone
      exact hxdone List.mem_cons_self
    · refine ⟨.inr ⟨e, he, hpiece⟩, fun hoffset => ?_⟩
      rcases Extent.of_mem_pieces hpiece with ⟨hstart, -⟩ | ⟨hstart, -⟩
      · have hsame := ExtentTree.eq_of_offset (hdone e he).1 hexisting (hstart.symm.trans hoffset)
        exact hnew (hsame ▸ he)
      · have := hmeets.1
        omega

/-- No other extent starts at the end of the range, where the tail goes. -/
theorem Cut.tail_free (hlaid : Laid t.extents) (hdone : Meeting t newStart newEnd done)
    (hexisting : existing ∈ t.extents) (hmeets : existing.Meets newStart newEnd)
    (hnew : existing ∉ done) (htail : newEnd < existing.offset + existing.len) {x : Extent}
    (hx : (x ∈ t.extents ∧ x ∉ existing :: done) ∨ ∃ e ∈ done, x ∈ e.pieces newStart newEnd) :
    x.offset ≠ newEnd := by
  intro hoffset
  have hlt := hmeets.1
  rcases hx with ⟨hx, hxdone⟩ | ⟨e, he, hpiece⟩
  · have := hlaid.apart existing hexisting x hx (by omega)
    omega
  · obtain ⟨hmem, hemeets⟩ := hdone e he
    have hbefore := hemeets.1
    rcases Extent.of_mem_pieces hpiece with ⟨hstart, hhead⟩ | ⟨-, hend⟩
    · omega
    · -- both would cover the end of the range
      rcases Nat.lt_trichotomy e.offset existing.offset with hlt' | heq | hgt
      · have := hlaid.apart e hmem existing hexisting hlt'
        omega
      · exact hnew (ExtentTree.eq_of_offset hmem hexisting heq ▸ he)
      · have := hlaid.apart existing hexisting e hmem hgt
        omega

/-- One round on an extent that may be replaced. -/
theorem cutExtent_ok (hlaid : Laid t.extents) (hr : Cut t newStart newEnd done r)
    (hdone : Meeting t newStart newEnd done) (hexisting : existing ∈ t.extents)
    (hmeets : existing.Meets newStart newEnd) (hnew : existing ∉ done)
    (hrep : existing.Replaceable newStart newEnd) :
    ∃ r', cutExtent newStart newEnd r existing = .ok r' ∧
      Cut t newStart newEnd (existing :: done) r' := by
  have hremoved := hr.remove hdone hexisting hmeets hnew
  have hcheck := checkedAdd_of_le (hlaid.within existing hexisting)
  have hfree := fun htail => @Cut.tail_free t newStart newEnd existing done hlaid hdone hexisting
    hmeets hnew htail
  cases existing with
  | «local» offset len chunk =>
    have hinside := hrep rfl hmeets
    refine ⟨_, ?_, fun x => (hremoved x).trans ?_⟩
    · simp only [cutExtent, hcheck]
      exact if_pos hinside
    · simp [Extent.pieces]
  | ufsRange offset len key version objBase =>
    -- the head goes where the extent was
    obtain ⟨r₁, hhead, hmem₁⟩ := ExtentTree.insertNew_if (t := r.remove offset)
      (e := .ufsRange offset (newStart - offset) key version objBase) (c := offset < newStart)
      fun _ y hy => (ExtentTree.mem_remove.mp hy).2
    obtain ⟨r₂, htail, hmem₂⟩ := ExtentTree.insertNew_if (t := r₁)
      (e := .ufsRange newEnd (offset + len - newEnd) key version (objBase + (newEnd - offset)))
      (c := offset + len > newEnd) fun hlong y hy => by
        rcases (hmem₁ y).mp hy with ⟨hbefore, rfl⟩ | hold
        · have := hmeets.1
          simp only [Extent.offset] at this ⊢
          omega
        · exact hfree hlong ((hremoved y).mp hold)
    refine ⟨r₂, ?_, fun x => ?_⟩
    · simp only [cutExtent, hcheck]
      simp only [Extent.offset, Extent.len]
      by_cases hbefore : offset < newStart
      · rw [if_pos hbefore] at hhead ⊢
        rw [hhead]
        exact htail
      · rw [if_neg hbefore] at hhead ⊢
        cases hhead
        exact htail
    · have hx : x ∈ (r.remove offset).extents ↔ _ := hremoved x
      rw [hmem₂ x, hmem₁ x, hx]
      simp only [List.exists_mem_cons_iff, Extent.mem_pieces_ufsRange]
      rw [← or_assoc, or_comm (a := _ ∧ x = _), or_left_comm]

/-- One round on a Local extent that sticks out of the range. -/
theorem cutExtent_error (hexisting : existing.offset + existing.len ≤ u64Max)
    (hrep : ¬ existing.Replaceable newStart newEnd) :
    ∃ err, cutExtent newStart newEnd r existing = .error err := by
  have hcheck := checkedAdd_of_le hexisting
  cases existing with
  | ufsRange => exact absurd nofun hrep
  | «local» offset len chunk =>
    have hout : ¬ (newStart ≤ offset ∧ newEnd ≥ offset + len) := fun hinside =>
      hrep fun _ _ => hinside
    simp only [cutExtent, hcheck]
    exact ⟨_, if_neg hout⟩

/-- The whole loop, from where it has replaced `done`. -/
theorem cutExtents_cases (hlaid : Laid t.extents) (hr : Cut t newStart newEnd done r)
    (hdone : Meeting t newStart newEnd done) (htodo : Meeting t newStart newEnd todo)
    (hdistinct : (todo ++ done).Nodup) :
    ((∀ e ∈ todo, e.Replaceable newStart newEnd) ∧
      ∃ r', cutExtents newStart newEnd todo r = .ok r' ∧
        Cut t newStart newEnd (todo.reverse ++ done) r') ∨
    ((∃ e ∈ todo, ¬ e.Replaceable newStart newEnd) ∧
      ∃ err, cutExtents newStart newEnd todo r = .error err) := by
  induction todo generalizing r done with
  | nil => exact .inl ⟨by simp, r, rfl, hr⟩
  | cons existing todo ih =>
    obtain ⟨⟨hexisting, hmeets⟩, htodo⟩ := List.forall_mem_cons.mp htodo
    rw [List.cons_append, List.nodup_cons] at hdistinct
    by_cases hrep : existing.Replaceable newStart newEnd
    · have hnew : existing ∉ done := fun hmem =>
        hdistinct.1 (List.mem_append_right _ hmem)
      obtain ⟨r₁, hcut, hr₁⟩ := cutExtent_ok hlaid hr hdone hexisting hmeets hnew hrep
      have hdone' : Meeting t newStart newEnd (existing :: done) :=
        List.forall_mem_cons.mpr ⟨⟨hexisting, hmeets⟩, hdone⟩
      have hdistinct' : (todo ++ existing :: done).Nodup :=
        List.nodup_middle.mpr (List.nodup_cons.mpr hdistinct)
      rcases ih hr₁ hdone' htodo hdistinct' with ⟨hall, r', hrun, hr'⟩ | ⟨⟨e, he, hbad⟩, err,
        hrun⟩
      · refine .inl ⟨List.forall_mem_cons.mpr ⟨hrep, hall⟩, r', ?_, ?_⟩
        · rw [cutExtents, hcut]
          exact hrun
        · rw [List.reverse_cons, List.append_assoc]
          exact hr'
      · refine .inr ⟨⟨e, List.mem_cons_of_mem _ he, hbad⟩, err, ?_⟩
        rw [cutExtents, hcut]
        exact hrun
    · obtain ⟨err, hcut⟩ := cutExtent_error (hlaid.within existing hexisting) hrep
      refine .inr ⟨⟨existing, List.mem_cons_self, hrep⟩, err, ?_⟩
      rw [cutExtents, hcut]
      rfl

/-- After the loop every extent is left in its parts. -/
theorem mem_of_cut_all {todo : List Extent} (hr : Cut t newStart newEnd todo.reverse r)
    (htodo : ∀ e, e ∈ todo ↔ e ∈ t.extents ∧ e.Meets newStart newEnd) (x : Extent) :
    x ∈ r.extents ↔ ∃ e ∈ t.extents, x ∈ e.parts newStart newEnd := by
  rw [hr x]
  simp only [List.mem_reverse, htodo, Extent.parts]
  constructor
  · rintro (⟨hx, hnot⟩ | ⟨e, ⟨he, hmeets⟩, hpiece⟩)
    · refine ⟨x, hx, ?_⟩
      rw [if_neg fun hmeets => hnot ⟨hx, hmeets⟩]
      exact List.mem_singleton_self x
    · exact ⟨e, he, by rwa [if_pos hmeets]⟩
  · rintro ⟨e, he, hpart⟩
    split at hpart
    · rename_i hmeets
      exact .inr ⟨e, ⟨he, hmeets⟩, hpart⟩
    · rename_i hmeets
      rw [List.mem_singleton.mp hpart]
      exact .inl ⟨he, fun h => hmeets h.2⟩

/-! ## The result -/

/-- `r` has the new extent and what is left of the extents of `t`. -/
def Overlaid (t : ExtentTree) (newExtent : Extent) (r : ExtentTree) : Prop :=
  ∀ x, x ∈ r.extents ↔ x = newExtent ∨ ∃ e ∈ t.extents,
    x ∈ e.parts newExtent.offset (newExtent.offset + newExtent.len)

variable {newExtent : Extent}

/-- Parts of two extents, or two parts of one, do not overlap. -/
theorem parts_apart (hlaid : Laid t.extents) (hrange : newStart ≤ newEnd) {a b x y : Extent}
    (ha : a ∈ t.extents) (hb : b ∈ t.extents) (hx : x ∈ a.parts newStart newEnd)
    (hy : y ∈ b.parts newStart newEnd) (hlt : x.offset < y.offset) :
    x.offset + x.len ≤ y.offset := by
  have hxpart := Extent.partOf_of_mem_parts (hlaid.nonempty a ha) hx
  have hypart := Extent.partOf_of_mem_parts (hlaid.nonempty b hb) hy
  have hxlower := hxpart.lower
  have hxupper := hxpart.upper
  have hylower := hypart.lower
  have hyupper := hypart.upper
  have hynonempty := hypart.nonempty
  rcases Nat.lt_trichotomy a.offset b.offset with hab | hab | hab
  · have := hlaid.apart a ha b hb hab
    omega
  · -- the head and the tail of one extent
    rw [← ExtentTree.eq_of_offset ha hb hab] at hy
    unfold Extent.parts at hx hy
    split at hx
    · rename_i hmeets
      rw [if_pos hmeets] at hy
      have hxavoids := hxpart.avoids
      rcases Extent.of_mem_pieces hx with ⟨hxs, hxhead⟩ | ⟨hxs, hxtail⟩
      · rcases Extent.of_mem_pieces hy with ⟨hys, hyhead⟩ | ⟨hys, hytail⟩
        · omega
        · omega
      · rcases Extent.of_mem_pieces hy with ⟨hys, hyhead⟩ | ⟨hys, hytail⟩
        · omega
        · omega
    · rename_i hmeets
      rw [if_neg hmeets] at hy
      rw [List.mem_singleton.mp hx, List.mem_singleton.mp hy] at hlt
      omega
  · have := hlaid.apart b hb a ha hab
    omega

/-- The result is laid out as the extents were. -/
theorem Overlaid.laid (h : Overlaid t newExtent r) (hlaid : Laid t.extents)
    (hlen : 0 < newExtent.len) (hmax : newExtent.offset + newExtent.len ≤ u64Max) :
    Laid r.extents where
  nonempty x hx := by
    rcases (h x).mp hx with rfl | ⟨e, he, hpart⟩
    · exact hlen
    · exact (Extent.partOf_of_mem_parts (hlaid.nonempty e he) hpart).nonempty
  within x hx := by
    rcases (h x).mp hx with rfl | ⟨e, he, hpart⟩
    · exact hmax
    · exact (Extent.partOf_of_mem_parts (hlaid.nonempty e he) hpart).upper.trans (hlaid.within e he)
  apart x hx y hy hlt := by
    rcases (h x).mp hx with rfl | ⟨a, ha, hxpart⟩
    · rcases (h y).mp hy with rfl | ⟨b, hb, hypart⟩
      · omega
      · have hpart := Extent.partOf_of_mem_parts (hlaid.nonempty b hb) hypart
        have havoids := hpart.avoids
        have hnonempty := hpart.nonempty
        omega
    · rcases (h y).mp hy with rfl | ⟨b, hb, hypart⟩
      · have hpart := Extent.partOf_of_mem_parts (hlaid.nonempty a ha) hxpart
        have havoids := hpart.avoids
        omega
      · exact parts_apart hlaid (Nat.le_add_right ..) ha hb hxpart hypart hlt

/-- The loop of `validate` on extents that do not overlap. -/
theorem checkOverlap_ok {prevEnd : Option Nat} {es : List Extent}
    (hsorted : es.Pairwise (fun a b => a.offset < b.offset))
    (hapart : ∀ a ∈ es, ∀ b ∈ es, a.offset < b.offset → a.offset + a.len ≤ b.offset)
    (hprev : ∀ pe, prevEnd = some pe → ∀ e ∈ es, pe ≤ e.offset) :
    checkOverlap prevEnd es = .ok () := by
  induction es generalizing prevEnd with
  | nil => rfl
  | cons e es ih =>
    obtain ⟨he, hes⟩ := List.pairwise_cons.mp hsorted
    have hrest : checkOverlap (some (e.offset + e.len)) es = .ok () := by
      refine ih hes (fun a ha b hb => hapart a (List.mem_cons_of_mem _ ha) b
        (List.mem_cons_of_mem _ hb)) ?_
      intro pe hpe x hx
      cases hpe
      exact hapart e List.mem_cons_self x (List.mem_cons_of_mem _ hx) (he x hx)
    cases hprevEnd : prevEnd with
    | none => exact hrest
    | some pe =>
      have hle := hprev pe hprevEnd e List.mem_cons_self
      simp only [checkOverlap]
      rw [if_neg (by omega)]
      exact hrest

theorem validate_of_laid {m : Manifest} (h : Laid m.extents.extents) : m.validate = .ok () :=
  checkOverlap_ok m.extents.sorted h.apart nofun

/-- Laid out extents whose object ranges are within `u64`. -/
structure WellFormed (m : Manifest) : Prop where
  laid : Laid m.extents.extents
  objects : ∀ e ∈ m.extents.extents, e.InObject

/-- The new extent overlaps no Local extent partially. -/
def Admits (m : Manifest) (newExtent : Extent) : Prop :=
  ∀ e ∈ m.extents.extents, e.Replaceable newExtent.offset (newExtent.offset + newExtent.len)

/-- The last part of a replacement. -/
theorem addExtent_ok {m : Manifest} {newEnd : Nat} (newGen : DataGen)
    (hlaid : Laid m.extents.extents)
    (hlen : 0 < newExtent.len) (hmax : newExtent.offset + newExtent.len ≤ u64Max)
    (hr : ∀ x, x ∈ r.extents ↔ ∃ e ∈ m.extents.extents,
      x ∈ e.parts newExtent.offset (newExtent.offset + newExtent.len)) :
    ∃ result, Overlaid m.extents newExtent result ∧
      m.addExtent newExtent newEnd newGen r = .ok ⟨m.inode, newGen, max m.size newEnd, result⟩ := by
  have hfree : ∀ y ∈ r.extents, y.offset ≠ newExtent.offset := by
    intro y hy
    obtain ⟨e, he, hpart⟩ := (hr y).mp hy
    have hpartOf := Extent.partOf_of_mem_parts (hlaid.nonempty e he) hpart
    have hnonempty := hpartOf.nonempty
    rcases hpartOf.avoids with havoids | havoids
    · omega
    · omega
  obtain ⟨result, hinsert, hmem⟩ := ExtentTree.insertNew_ok hfree
  have hover : Overlaid m.extents newExtent result := by
    intro x
    rw [hmem x, hr x]
  refine ⟨result, hover, ?_⟩
  have hvalid := validate_of_laid (m := ⟨m.inode, newGen, max m.size newEnd, result⟩)
    (hover.laid hlaid hlen hmax)
  rw [addExtent, hinsert]
  simp only [bind, Except.bind, hvalid]
  rfl

/-- A replacement of a non-empty range within `u64`. -/
theorem replaceRange_cases (m : Manifest) (newExtent : Extent) (newGen : DataGen)
    (hlaid : Laid m.extents.extents) (hlen : 0 < newExtent.len)
    (hmax : newExtent.offset + newExtent.len ≤ u64Max) :
    (m.Admits newExtent ∧ ∃ result, Overlaid m.extents newExtent result ∧
      m.replaceRange newExtent newGen = some (.ok
        ⟨m.inode, newGen, max m.size (newExtent.offset + newExtent.len), result⟩)) ∨
    (¬ m.Admits newExtent ∧ ∃ err, m.replaceRange newExtent newGen = some (.error err)) := by
  have hstop : saturatingAdd newExtent.offset newExtent.len = newExtent.offset + newExtent.len :=
    saturatingAdd_of_le hmax
  have hbelow : newExtent.offset < u64Max := by omega
  have hquery : m.extents.overlapping newExtent.offset newExtent.len = some _ :=
    ExtentTree.overlapping_eq_filter hlaid hlen hbelow
  rw [hstop] at hquery
  -- the query finds the extents that meet the new one
  generalize htodo : (m.extents.extents.filter fun e =>
    e.offset < newExtent.offset + newExtent.len ∧ newExtent.offset < e.offset + e.len) =
      todo at hquery
  have hmeeting : ∀ e, e ∈ todo ↔ e ∈ m.extents.extents ∧
      e.Meets newExtent.offset (newExtent.offset + newExtent.len) := by
    intro e
    simp [← htodo, Extent.Meets]
  have hdistinct : todo.Nodup := by
    rw [← htodo]
    refine List.Nodup.filter _ (m.extents.sorted.imp fun h => ?_)
    rintro rfl
    exact Nat.lt_irrefl _ h
  have hstart : Cut m.extents newExtent.offset (newExtent.offset + newExtent.len) [] m.extents := by
    intro x
    simp
  have hadmits : m.Admits newExtent ↔ ∀ e ∈ todo,
      e.Replaceable newExtent.offset (newExtent.offset + newExtent.len) := by
    constructor
    · exact fun h e he => h e ((hmeeting e).mp he).1
    · exact fun h e he hlocal hmeets => h e ((hmeeting e).mpr ⟨he, hmeets⟩) hlocal hmeets
  have hloop := cutExtents_cases hlaid hstart (by simp [Meeting]) (fun e => (hmeeting e).mp)
    (by rwa [List.append_nil])
  simp only [replaceRange, if_neg (Nat.ne_of_gt hlen), checkedAdd_of_le hmax, hquery,
    Option.map_some]
  rcases hloop with ⟨hall, r, hrun, hr⟩ | ⟨⟨e, he, hbad⟩, err, hrun⟩
  · rw [List.append_nil] at hr
    obtain ⟨result, hover, hadd⟩ := addExtent_ok newGen hlaid hlen hmax (mem_of_cut_all hr hmeeting)
    refine .inl ⟨hadmits.mpr hall, result, hover, ?_⟩
    rw [hrun]
    exact congrArg some hadd
  · refine .inr ⟨fun h => hbad (hadmits.mp h e he), err, ?_⟩
    rw [hrun]
    rfl

/-- Where the bytes come from after a replacement. -/
theorem Overlaid.sourceAt {m m' : Manifest} (h : Overlaid m.extents newExtent m'.extents)
    (hlaid : Laid m.extents.extents) (hlaid' : Laid m'.extents.extents)
    (hadmits : m.Admits newExtent) (pos : Nat) :
    m'.sourceAt pos =
      if newExtent.offset ≤ pos ∧ pos < newExtent.offset + newExtent.len then
        some (newExtent.sourceAt pos)
      else m.sourceAt pos := by
  split
  · rename_i hinside
    exact hlaid'.sourceAt_of_mem ((h newExtent).mpr (.inl rfl)) hinside
  · rename_i hout
    by_cases hcovered : ∃ e ∈ m.extents.extents, e.offset ≤ pos ∧ pos < e.offset + e.len
    · obtain ⟨e, he, hcover⟩ := hcovered
      obtain ⟨x, hx, hxcover⟩ := Extent.exists_part (hadmits e he) hcover.1 hcover.2 hout
      have hpart := Extent.partOf_of_mem_parts (hlaid.nonempty e he) hx
      rw [hlaid'.sourceAt_of_mem ((h x).mpr (.inr ⟨e, he, hx⟩)) hxcover,
        hlaid.sourceAt_of_mem he hcover, hpart.source pos hxcover.1]
    · have hhole : ∀ e ∈ m.extents.extents, ¬ (e.offset ≤ pos ∧ pos < e.offset + e.len) :=
        fun e he hcover => hcovered ⟨e, he, hcover⟩
      rw [Manifest.sourceAt_eq_none hhole]
      refine Manifest.sourceAt_eq_none fun x hx hcover => ?_
      rcases (h x).mp hx with rfl | ⟨e, he, hpart⟩
      · exact hout hcover
      · have hpartOf := Extent.partOf_of_mem_parts (hlaid.nonempty e he) hpart
        have hlower := hpartOf.lower
        have hupper := hpartOf.upper
        exact hhole e he (by omega)

/-- Object ranges stay within `u64` if that of the new extent is. -/
theorem Overlaid.objects_iff {m : Manifest} (h : Overlaid m.extents newExtent r)
    (hm : m.WellFormed) : (∀ x ∈ r.extents, x.InObject) ↔ newExtent.InObject := by
  constructor
  · exact fun hall => hall newExtent ((h newExtent).mpr (.inl rfl))
  · intro hnew x hx
    rcases (h x).mp hx with rfl | ⟨e, he, hpart⟩
    · exact hnew
    · exact (Extent.partOf_of_mem_parts (hm.laid.nonempty e he) hpart).inObject (hm.objects e he)

/-- A replacement never panics. It succeeds exactly on a non-empty extent within `u64`
that overlaps no Local extent partially. The result is laid out again, grows to the
end of the new extent, takes the bytes of the new range from the new extent and all
others from where they came from, and is well formed exactly if the object range of
the new extent is within `u64`. -/
theorem replaceRange_overlays (m : Manifest) (newExtent : Extent) (newGen : DataGen)
    (hm : m.WellFormed) :
    ∃ outcome, m.replaceRange newExtent newGen = some outcome ∧
      ((∃ m', outcome = .ok m') ↔ newExtent.len ≠ 0 ∧
        newExtent.offset + newExtent.len ≤ u64Max ∧ m.Admits newExtent) ∧
      ∀ m', outcome = .ok m' →
        Laid m'.extents.extents ∧ (m'.WellFormed ↔ newExtent.InObject) ∧
        m'.size = max m.size (newExtent.offset + newExtent.len) ∧
        ∀ pos, m'.sourceAt pos =
          if newExtent.offset ≤ pos ∧ pos < newExtent.offset + newExtent.len then
            some (newExtent.sourceAt pos)
          else m.sourceAt pos := by
  by_cases hempty : newExtent.len = 0
  · refine ⟨.error (.invalidArg "replace_range: new_extent has len=0"), ?_, ?_, nofun⟩
    · rw [replaceRange, if_pos hempty]
    · simp [hempty]
  by_cases hmax : newExtent.offset + newExtent.len ≤ u64Max
  · have hlen := Nat.pos_of_ne_zero hempty
    rcases replaceRange_cases m newExtent newGen hm.laid hlen hmax with
      ⟨hadmits, result, hover, hrun⟩ | ⟨hbad, err, hrun⟩
    · refine ⟨_, hrun, ?_, fun m' hm' => ?_⟩
      · simp [hempty, hmax, hadmits]
      · cases hm'
        have hlaid := hover.laid hm.laid hlen hmax
        refine ⟨hlaid, ?_, rfl, hover.sourceAt hm.laid hlaid hadmits⟩
        rw [← hover.objects_iff hm]
        exact ⟨fun h => h.objects, fun h => ⟨hlaid, h⟩⟩
    · refine ⟨_, hrun, ?_, nofun⟩
      simp [hbad]
  · have hcheck : checkedAdd newExtent.offset newExtent.len = none := if_neg hmax
    refine ⟨.error (.invalidArg "new_extent len overflow"), ?_, ?_, nofun⟩
    · rw [replaceRange, if_neg hempty, hcheck]
    · simp [hmax]

/-- Ten bytes of an object and a chunk behind a hole. -/
def mixedManifest : Manifest :=
  ⟨1, 1, 24, ⟨[.ufsRange 0 10 "k" "v" 100, .local 20 4 (.ofByte 1)], by decide⟩⟩

/-- A write into the middle of the object's bytes. -/
theorem replaceRange_overlays_mixedManifest :
    ∃ m', mixedManifest.replaceRange (.local 4 4 (.ofByte 2)) 2 = some (.ok m') ∧
      m'.sourceAt 9 = some (.object "k" "v" 109) ∧ m'.sourceAt 5 = some (.chunk (.ofByte 2) 1) := by
  have hm : mixedManifest.WellFormed := ⟨⟨by decide, by decide, by decide⟩, by decide⟩
  obtain ⟨outcome, hrun, hok, hresult⟩ :=
    replaceRange_overlays mixedManifest (.local 4 4 (.ofByte 2)) 2 hm
  have hadmits : mixedManifest.Admits (.local 4 4 (.ofByte 2)) := by
    intro e he hlocal hmeets
    revert e
    decide
  obtain ⟨m', rfl⟩ := hok.mpr ⟨by decide, by decide, hadmits⟩
  obtain ⟨-, -, -, hsource⟩ := hresult m' rfl
  refine ⟨m', hrun, ?_, ?_⟩
  · rw [hsource]
    decide
  · rw [hsource]
    decide

/-- Nothing checks the object range of a new extent: two bytes at the last object
offset are taken into an empty file. -/
theorem replaceRange_takes_object_overflow :
    (Manifest.empty 1 1).WellFormed ∧
      ∃ m', (Manifest.empty 1 1).replaceRange (.ufsRange 0 2 "k" "v" u64Max) 2 = some (.ok m') ∧
        ¬ m'.WellFormed := by
  refine ⟨⟨⟨nofun, nofun, nofun⟩, nofun⟩,
    ⟨1, 2, 2, ⟨[.ufsRange 0 2 "k" "v" u64Max], by decide⟩⟩, by decide, fun h => ?_⟩
  have hobject := h.objects (.ufsRange 0 2 "k" "v" u64Max) (by simp)
  exact absurd hobject (by decide)

end Manifest

end FluxFS
