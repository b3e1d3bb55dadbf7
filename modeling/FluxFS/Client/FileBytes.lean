import FluxFS.Client.DataPath
import FluxFS.Wire.ExtentJson

/-!
# FileBytes — what a planned write or truncation does to the bytes

A manifest is a description of a function from positions to bytes
(`fileByte`). `Manifest.Sound` is the invariant that writes and truncations
rely on and keep: the extents are laid out, lie inside the file, and every
Local extent starts on a window boundary and stays in its window. Alignment
is what lets a window replace the Local extent in it as a whole.
-/

namespace FluxFS

open Kit

/-! ## Bytes by source -/

/-- The byte a source stands for. -/
def ByteSource.byte (contents : Contents) (ufs : Option UfsObject) : ByteSource → UInt8
  | .chunk c offset => (contents.chunk c)[offset]?.getD 0
  | .object key _ offset => ufs.elim 0 fun object => contents.object key object offset

theorem Extent.byte_eq (contents : Contents) (ufs : Option UfsObject) (pos : Nat) (e : Extent) :
    e.byte contents ufs pos = (e.sourceAt pos).byte contents ufs := by
  cases e <;> rfl

theorem Extent.covers_iff {e : Extent} (hwithin : e.offset + e.len ≤ u64Max) (pos : Nat) :
    e.covers pos = true ↔ e.offset ≤ pos ∧ pos < e.offset + e.len := by
  rw [Extent.covers, Extent.stop, saturatingAdd_of_le hwithin]
  exact decide_eq_true_iff

section
variable {contents : Contents} {ufs : Option UfsObject} {extents : List Extent} {pos : Nat}

/-- A position that no extent covers reads as zero. -/
theorem fileByte_of_hole (hwithin : ∀ e ∈ extents, e.offset + e.len ≤ u64Max)
    (h : ∀ e ∈ extents, ¬ (e.offset ≤ pos ∧ pos < e.offset + e.len)) :
    fileByte contents ufs extents pos = 0 := by
  apply foldl_override_of_none
  intro e he
  rw [Bool.eq_false_iff, Ne, Extent.covers_iff (hwithin e he)]
  exact h e he

/-- A position that one extent covers reads as that extent says. -/
theorem fileByte_of_mem {m : Manifest} (hlaid : Laid m.extents.extents) {e : Extent}
    (he : e ∈ m.extents.extents) (hcover : e.offset ≤ pos ∧ pos < e.offset + e.len) :
    fileByte contents ufs m.extents.extents pos = e.byte contents ufs pos := by
  apply foldl_override_of_agree
  · intro x hx hxcover
    rw [Extent.covers_iff (hlaid.within x hx)] at hxcover
    rw [hlaid.eq_of_covers he hx hcover hxcover]
  · exact .inr ⟨e, he, (Extent.covers_iff (hlaid.within e he) pos).mpr hcover⟩

theorem fileByte_eq_source {m : Manifest} (hlaid : Laid m.extents.extents) :
    fileByte contents ufs m.extents.extents pos =
      (m.sourceAt pos).elim 0 (ByteSource.byte contents ufs) := by
  by_cases hcovered : ∃ e ∈ m.extents.extents, e.offset ≤ pos ∧ pos < e.offset + e.len
  · obtain ⟨e, he, hcover⟩ := hcovered
    rw [fileByte_of_mem hlaid he hcover, hlaid.sourceAt_of_mem he hcover, Extent.byte_eq]
    rfl
  · have hhole : ∀ e ∈ m.extents.extents, ¬ (e.offset ≤ pos ∧ pos < e.offset + e.len) :=
      fun e he hcover => hcovered ⟨e, he, hcover⟩
    rw [fileByte_of_hole hlaid.within hhole, Manifest.sourceAt_eq_none hhole]
    rfl

/-- The first of several extents in order is read apart from the others. -/
theorem fileByte_cons {e : Extent} (hwithin : ∀ x ∈ e :: extents, x.offset + x.len ≤ u64Max)
    (hafter : ∀ x ∈ extents, e.offset + e.len ≤ x.offset) :
    fileByte contents ufs (e :: extents) pos =
      if e.offset ≤ pos ∧ pos < e.offset + e.len then e.byte contents ufs pos
      else fileByte contents ufs extents pos := by
  obtain ⟨he, hrest⟩ := List.forall_mem_cons.mp hwithin
  rw [fileByte, fileByteFrom, List.foldl_cons]
  by_cases hcover : e.offset ≤ pos ∧ pos < e.offset + e.len
  · rw [if_pos hcover, if_pos ((Extent.covers_iff he pos).mpr hcover)]
    apply foldl_override_of_none
    intro x hx
    rw [Bool.eq_false_iff, Ne, Extent.covers_iff (hrest x hx)]
    have := hafter x hx
    omega
  · rw [if_neg hcover, if_neg (mt (Extent.covers_iff he pos).mp hcover)]
    rfl

end

/-- The staged bytes are what the chunk ids stand for. -/
def Contents.Holds (contents : Contents) (rows : List (ChunkId × Bytes)) : Prop :=
  ∀ row ∈ rows, contents.chunk row.1 = row.2

instance (contents : Contents) (rows : List (ChunkId × Bytes)) : Decidable (contents.Holds rows) :=
  inferInstanceAs (Decidable (∀ row ∈ rows, _))

theorem Contents.Holds.left {contents : Contents} {rows later : List (ChunkId × Bytes)}
    (h : contents.Holds (rows ++ later)) : contents.Holds rows :=
  fun row hrow => h row (List.mem_append_left _ hrow)

theorem Contents.Holds.right {contents : Contents} {rows later : List (ChunkId × Bytes)}
    (h : contents.Holds (rows ++ later)) : contents.Holds later :=
  fun row hrow => h row (List.mem_append_right _ hrow)

/-! ## Sound manifests -/

/-- A Local extent lies in one window, from its start on. -/
def Extent.InWindow : Extent → Prop
  | .local offset len _ => chunkSize ∣ offset ∧ len ≤ chunkSize
  | .ufsRange .. => True

instance (e : Extent) : Decidable e.InWindow :=
  match e with
  | .local .. => inferInstanceAs (Decidable (_ ∧ _))
  | .ufsRange .. => .isTrue trivial

/-- The layout that the client's writes and truncations keep. -/
@[mk_iff]
structure Manifest.Sound (m : Manifest) : Prop where
  laid : Laid m.extents.extents
  objects : ∀ e ∈ m.extents.extents, e.InObject
  windows : ∀ e ∈ m.extents.extents, e.InWindow
  inside : ∀ e ∈ m.extents.extents, e.offset + e.len ≤ m.size
  bounded : m.size ≤ u64Max

instance (m : Manifest) : Decidable m.Sound := decidable_of_iff _ m.sound_iff.symm

/-- The manifest is sound as one of a file of this size. -/
def Manifest.SoundAt (size : Nat) (m : Manifest) : Prop := { m with size := size }.Sound

theorem Manifest.Sound.empty (id : InodeId) (gen : DataGen) : (Manifest.empty id gen).Sound := by
  refine ⟨⟨?_, ?_, ?_⟩, ?_, ?_, ?_, Nat.zero_le _⟩
  all_goals
    intro e he
    cases he

theorem Manifest.Sound.at {m : Manifest} {size : Nat} (h : m.Sound) (hsize : m.size = size) :
    m.SoundAt size := by
  subst hsize
  exact h

/-- Behind the end of the file there is nothing. -/
theorem Manifest.SoundAt.zero {m : Manifest} {size : Nat} (h : m.SoundAt size) (contents : Contents)
    (ufs : Option UfsObject) {pos : Nat} (hpos : size ≤ pos) :
    fileByte contents ufs m.extents.extents pos = 0 := by
  apply fileByte_of_hole h.laid.within
  intro e he
  have hinside : e.offset + e.len ≤ size := h.inside e he
  omega

/-! ## Edits as functions of the position -/

namespace FileEdit

/-- The size of the file after the edit. -/
def newSize (size : Nat) : FileEdit → Nat
  | .write offset data _ => max size (offset + data.length)
  | .truncate size .. => size

/-- The byte at `pos` after the edit of a file with the bytes `old`. -/
def byteAt (old : Nat → UInt8) (pos : Nat) : FileEdit → UInt8
  | .write offset data _ =>
    if offset ≤ pos ∧ pos < offset + data.length then data[pos - offset]?.getD 0 else old pos
  | .truncate size .. => if pos < size then old pos else 0

/-- An edit of the bytes as a list is the edit position by position. -/
theorem apply_map_range (edit : FileEdit) {size : Nat} {old : Nat → UInt8}
    (hzero : ∀ pos, size ≤ pos → old pos = 0) :
    edit.apply ((List.range size).map old) =
      (List.range (edit.newSize size)).map fun pos => edit.byteAt old pos := by
  have hold : ∀ i, ((List.range size).map old)[i]?.getD 0 = old i := by
    intro i
    by_cases hi : i < size
    · simp [List.getElem?_range hi]
    · rw [List.getElem?_eq_none (by simp; omega), hzero i (by omega)]
      rfl
  cases edit with
  | write offset data hdata =>
    have hfit : offset + data.length ≤
        (resize ((List.range size).map old) (max size (offset + data.length)) 0).length := by
      rw [length_resize]
      exact Nat.le_max_right ..
    simp only [apply, newSize, List.length_map, List.length_range]
    apply eq_map_range
    · rw [length_splice hfit, length_resize]
    · intro i hi
      rw [getElem?_splice hfit, getElem?_resize, if_pos hi, hold, byteAt]
      split
      · rename_i hin
        rw [List.getElem?_eq_getElem (by omega), Option.getD_some]
      · rfl
  | truncate n hn attrs =>
    simp only [apply, newSize]
    apply eq_map_range (length_resize ..)
    intro i hi
    rw [getElem?_resize, if_pos hi, hold, byteAt, if_pos hi]

end FileEdit

/-! ## Reads -/

theorem fileRange_zero (contents : Contents) (ufs : Option UfsObject) (extents : List Extent)
    (size : Nat) :
    fileRange contents ufs extents 0 size = (List.range size).map
      (fileByte contents ufs extents) := by
  simp only [fileRange, Nat.sub_zero, Nat.zero_add]

theorem fileRange_extract (contents : Contents) (ufs : Option UfsObject) (extents : List Extent)
    (size offset stop : Nat) :
    (fileRange contents ufs extents 0 size).extract offset stop =
      fileRange contents ufs extents offset (min stop size) := by
  rw [fileRange_zero]
  apply eq_map_range
  · rw [length_extract, List.length_map, List.length_range]
  · intro k hk
    rw [List.extract_eq_take_drop, List.getElem?_take_of_lt (by omega), List.getElem?_drop,
      List.getElem?_map, List.getElem?_range (by omega)]
    rfl

/-- A read that does not end early has loaded the manifest. -/
theorem readInodeRange_loads {src : ReadSource}
    {getManifest : ManifestId → Except FluxError Manifest} {inode : Inode} {offset len : Nat}
    {bytes : Bytes} (hsome : ¬ readsNothing inode offset len)
    (h : readInodeRange src getManifest inode offset len = .ok bytes) :
    ∃ mid m, inode.manifestId = some mid ∧ getManifest mid = .ok m := by
  rw [readInodeRange] at h
  split at h
  · cases h
  · split at h
    · rename_i hmid
      exact absurd (.inr (.inr hmid)) hsome
    · rename_i mid hmid
      cases hget : getManifest mid with
      | error e =>
        rw [hget] at h
        cases h
      | ok m => exact ⟨mid, m, hmid, hget⟩

/-- A read returns a part of the bytes of the file. -/
theorem readInodeRange_eq_extract {contents : Contents} {src : ReadSource}
    {getManifest : ManifestId → Except FluxError Manifest} {inode : Inode} {old : Manifest}
    (hsrc : src.Sound contents) (hold : old.SoundAt inode.size)
    (hcurrent : currentManifest getManifest inode = .ok old)
    (hempty : inode.manifestId = none → inode.size = 0) {offset len : Nat} {bytes : Bytes}
    (h : readInodeRange src getManifest inode offset len = .ok bytes) :
    bytes = (fileRange contents inode.ufs old.extents.extents 0 inode.size).extract offset
      (offset + len) := by
  have hbound : inode.size ≤ u64Max := hold.bounded
  have hstop : readEnd inode offset len = min (offset + len) inode.size := by
    unfold readEnd saturatingAdd
    omega
  rw [fileRange_extract, ← hstop]
  rw [readInodeRange] at h
  split at h
  · cases h
  · split at h
    · rename_i hnothing
      cases h
      have hnone : readEnd inode offset len - offset = 0 := by
        rcases hnothing with hzero | hbehind | hnone
        · omega
        · omega
        · have := hempty hnone
          omega
      rw [fileRange, hnone]
      rfl
    · split at h
      · rename_i hsome _ hnone
        exact absurd (.inr (.inr hnone)) hsome
      · rename_i mid hmid
        rw [currentManifest, hmid] at hcurrent
        dsimp only at hcurrent
        rw [hcurrent] at h
        exact copyExtents_eq hsrc hold.objects h

/-! ## One window of a write -/

section
variable {contents : Contents} {ufs : Option UfsObject} {src : ReadSource}
  {getManifest : ManifestId → Except FluxError Manifest} {inode : Inode} {old : Manifest}

/-- A read of `[offset, offset + len)` of the file has its bytes and no others, up to
zeros that are left out. -/
theorem readInodeRange_getD (hsrc : src.Sound contents) (hold : old.SoundAt inode.size)
    (hcurrent : currentManifest getManifest inode = .ok old)
    {offset len : Nat} (hlen : 0 < len) (hend : offset + len ≤ inode.size) {bytes : Bytes}
    (h : readInodeRange src getManifest inode offset len = .ok bytes) (i : Nat) :
    bytes[i]?.getD 0 =
      if i < len then fileByte contents inode.ufs old.extents.extents (offset + i) else 0 := by
  rw [readInodeRange] at h
  split at h
  · cases h
  · split at h
    · rename_i hnothing
      cases h
      -- only a file without a manifest reads as nothing here, and it has no extents
      have hnone : inode.manifestId = none := by
        rcases hnothing with hzero | hbehind | hnone
        · omega
        · omega
        · exact hnone
      rw [currentManifest, hnone, Except.ok.injEq] at hcurrent
      rw [← hcurrent]
      exact (ite_self _).symm
    · split at h
      · rename_i hsome _ hnone
        exact absurd (.inr (.inr hnone)) hsome
      · rename_i mid hmid
        rw [currentManifest, hmid] at hcurrent
        dsimp only at hcurrent
        rw [hcurrent] at h
        have hbytes := copyExtents_eq hsrc hold.objects h
        have hstop : readEnd inode offset len = offset + len := by
          have hbound : inode.size ≤ u64Max := hold.bounded
          rw [readEnd, saturatingAdd_of_le (by omega)]
          omega
        rw [hbytes, hstop, fileRange, List.getElem?_map, Nat.add_sub_cancel_left]
        by_cases hi : i < len
        · rw [List.getElem?_range hi, if_pos hi]
          rfl
        · rw [List.getElem?_eq_none (by simp; omega), if_neg hi]
          rfl

/-- The old bytes of a window, as `write_chunked` gets them. -/
theorem readWindow_getD (hsrc : src.Sound contents) (hold : old.SoundAt inode.size)
    (hcurrent : currentManifest getManifest inode = .ok old)
    {windowStart windowEnd : Nat} {bytes : Bytes}
    (h : (readWindow (readInodeRange src getManifest inode) inode.size windowStart
      windowEnd).run = some (.ok bytes)) {i : Nat} (hi : i < windowEnd - windowStart) :
    bytes[i]?.getD 0 = fileByte contents inode.ufs old.extents.extents (windowStart + i) := by
  have hzero : inode.size ≤ windowStart + i →
      fileByte contents inode.ufs old.extents.extents (windowStart + i) = 0 :=
    fun hpos => hold.zero contents inode.ufs hpos
  unfold readWindow at h
  dsimp only at h
  split at h
  · rename_i hstart
    have hbyte := readInodeRange_getD hsrc hold hcurrent (by omega) (by omega)
      (Option.some.inj h) i
    rw [hbyte]
    split
    · rfl
    · rw [hzero (by omega)]
  · rename_i hstart
    cases h
    rw [hzero (by omega)]
    rfl

/-- The window has the bytes of the file after the write. -/
theorem windowBytes_spec {offset : Nat} {data : Bytes} (hdata : data ≠ []) {bytes : Bytes}
    {windowStart windowEnd : Nat} {B : Nat → UInt8}
    (hbytes : ∀ i < windowEnd - windowStart, bytes[i]?.getD 0 = B (windowStart + i))
    (hmeets : offset < windowEnd ∧ windowStart < offset + data.length)
    (hlt : windowStart < windowEnd) :
    (windowBytes bytes offset data windowStart windowEnd).length = windowEnd - windowStart ∧
    ∀ i < windowEnd - windowStart, (windowBytes bytes offset data windowStart windowEnd)[i]? =
      some ((FileEdit.write offset data hdata).byteAt B (windowStart + i)) := by
  have hpart : (data.extract (max offset windowStart - offset)
      (min (offset + data.length) windowEnd - offset)).length =
        min (offset + data.length) windowEnd - max offset windowStart := by
    rw [length_extract]
    omega
  have hfit : max offset windowStart - windowStart +
      (data.extract (max offset windowStart - offset)
        (min (offset + data.length) windowEnd - offset)).length ≤
      (resize bytes (windowEnd - windowStart) 0).length := by
    rw [hpart, length_resize]
    omega
  refine ⟨?_, fun i hi => ?_⟩
  · rw [windowBytes, length_splice hfit, length_resize]
  · rw [windowBytes, getElem?_splice hfit, getElem?_resize, if_pos hi, hbytes i hi, FileEdit.byteAt,
      hpart]
    by_cases hin : offset ≤ windowStart + i ∧ windowStart + i < offset + data.length
    · rw [if_pos (by omega), if_pos hin, List.extract_eq_take_drop, List.getElem?_take_of_lt
        (by omega),
        List.getElem?_drop]
      have hpos : max offset windowStart - offset + (i - (max offset windowStart - windowStart)) =
          windowStart + i - offset := by omega
      rw [hpos, List.getElem?_eq_getElem (by omega), Option.getD_some]
    · rw [if_neg (by omega), if_neg hin]

end

/-! ## Replacing a window -/

/-- A window of a file of `size` bytes: from a boundary to the next or to the end. -/
structure IsWindow (size windowStart windowEnd : Nat) : Prop where
  boundary : chunkSize ∣ windowStart
  nonempty : windowStart < windowEnd
  stop : windowEnd = min (windowStart + chunkSize) size

section
variable {m : Manifest} {size windowStart windowEnd : Nat} {c : ChunkId}

/-- A Local extent that meets a window lies in it: both start at the same boundary. -/
theorem IsWindow.admits (hwindow : IsWindow size windowStart windowEnd)
    (hm : m.SoundAt size) :
    m.Admits (.local windowStart (windowEnd - windowStart) c) := by
  obtain ⟨⟨k, rfl⟩, hnonempty, hstop⟩ := hwindow
  intro e he hlocal hmeets
  have hinside := hm.inside e he
  have hin := hm.windows e he
  cases e with
  | ufsRange => cases hlocal
  | «local» offset len chunk =>
    obtain ⟨⟨j, rfl⟩, hlen⟩ := hin
    simp only [Extent.Meets, Extent.offset, Extent.len] at hmeets hinside ⊢
    have hjk : j = k := by
      have hlow : chunkSize * j < chunkSize * (k + 1) := by
        rw [Nat.mul_succ]
        omega
      have hhigh : chunkSize * k < chunkSize * (j + 1) := by
        rw [Nat.mul_succ]
        omega
      have h1 := Nat.lt_of_mul_lt_mul_left hlow
      have h2 := Nat.lt_of_mul_lt_mul_left hhigh
      omega
    subst hjk
    omega

/-- A window can always be replaced; the manifest stays sound, keeps its other Local
extents and reads the window from the new chunk. -/
theorem IsWindow.replace (hwindow : IsWindow size windowStart windowEnd)
    (hm : m.SoundAt size) (gen : DataGen) :
    ∃ m', m.replaceRange (.local windowStart (windowEnd - windowStart) c) gen = some (.ok m') ∧
      m'.inode = m.inode ∧ m'.gen = gen ∧
      (∀ e ∈ m'.extents.extents, e.localChunk?.isSome = true →
        e = .local windowStart (windowEnd - windowStart) c ∨ e ∈ m.extents.extents) ∧
      m'.SoundAt size ∧
      ∀ contents ufs pos, fileByte contents ufs m'.extents.extents pos =
        if windowStart ≤ pos ∧ pos < windowEnd then (contents.chunk c)[pos - windowStart]?.getD 0
        else fileByte contents ufs m.extents.extents pos := by
  have hbounded : size ≤ u64Max := hm.bounded
  have hnonempty := hwindow.nonempty
  have hstop := hwindow.stop
  have hlaid : Laid m.extents.extents := hm.laid
  have hlen : 0 < (Extent.local windowStart (windowEnd - windowStart) c).len := by
    show 0 < windowEnd - windowStart
    omega
  have hmax : (Extent.local windowStart (windowEnd - windowStart) c).offset +
      (Extent.local windowStart (windowEnd - windowStart) c).len ≤ u64Max := by
    show windowStart + (windowEnd - windowStart) ≤ u64Max
    omega
  rcases Manifest.replaceRange_cases m _ gen hlaid hlen hmax with
    ⟨hadmits, result, hover, hrun⟩ | ⟨hbad, -⟩
  · have hlaid' : Laid result.extents := hover.laid hlaid hlen hmax
    have hpart : ∀ x ∈ result.extents, x = .local windowStart (windowEnd - windowStart) c ∨
        ∃ e ∈ m.extents.extents, Extent.PartOf windowStart
          (windowStart + (windowEnd - windowStart)) e x := by
      intro x hx
      rcases (hover x).mp hx with rfl | ⟨e, he, hx⟩
      · exact .inl rfl
      · exact .inr ⟨e, he, Extent.partOf_of_mem_parts (hlaid.nonempty e he) hx⟩
    refine ⟨_, hrun, rfl, rfl, fun x hx hlocal => ?_, ⟨hlaid', ?_, ?_, ?_, hbounded⟩, ?_⟩
    · rcases hpart x hx with hnew | ⟨e, he, hpartOf⟩
      · exact .inl hnew
      · exact .inr (hpartOf.whole hlocal ▸ he)
    · exact (hover.objects_iff ⟨hlaid, hm.objects⟩).mpr trivial
    · intro x hx
      rcases hpart x hx with rfl | ⟨e, he, hpartOf⟩
      · exact ⟨hwindow.boundary, by omega⟩
      · cases x with
        | ufsRange => trivial
        | «local» => exact hpartOf.whole rfl ▸ hm.windows e he
    · intro x hx
      rcases hpart x hx with rfl | ⟨e, he, hpartOf⟩
      · show windowStart + (windowEnd - windowStart) ≤ size
        omega
      · exact hpartOf.upper.trans (hm.inside e he)
    · intro contents ufs pos
      have hsource : (Manifest.mk m.inode gen size result).sourceAt pos = _ :=
        hover.sourceAt hlaid hlaid' hadmits pos
      have hbyte : fileByte contents ufs result.extents pos = _ :=
        fileByte_eq_source (m := ⟨m.inode, gen, size, result⟩) hlaid'
      rw [hbyte, hsource, fileByte_eq_source hlaid]
      have hrange : windowStart + (windowEnd - windowStart) = windowEnd := by omega
      simp only [Extent.offset, Extent.len, hrange]
      split
      · rfl
      · rfl
  · exact absurd (hwindow.admits hm) hbad

end

/-! ## The loop over the windows -/

/-- The part of the file from `lo` to `hi` has been copied up. -/
structure CopiedUp (hash : Bytes → ChunkId) (contents : Contents) (ufs : Option UfsObject)
    (old : Manifest) (edit : FileEdit) (size lo hi : Nat) (acc : Staging) : Prop where
  sound : acc.manifest.SoundAt size
  staged : ∀ row ∈ acc.staged, row.1 = hash row.2
  chunks : ∀ e ∈ acc.manifest.extents.extents, e.localChunk?.isSome = true →
    e ∈ old.extents.extents ∨
      ∃ row ∈ acc.staged, e.localChunk? = some row.1 ∧ row.2.length = e.len
  bytes : contents.Holds acc.staged → ∀ pos,
    fileByte contents ufs acc.manifest.extents.extents pos =
    if lo ≤ pos ∧ pos < hi ∧ pos < size then
      edit.byteAt (fileByte contents ufs old.extents.extents) pos
    else fileByte contents ufs old.extents.extents pos

theorem chunkSize_pos : 0 < chunkSize := by norm_num [chunkSize]

theorem eq_of_checkedMul {a b c : Nat} (h : checkedMul a b = some c) : a * b = c := by
  unfold checkedMul at h
  split at h
  · exact Option.some.inj h
  · cases h

/-- The windows of a write lie between its ends. -/
theorem window_bounds {offset len k : Nat} (hlen : 0 < len) (hfirst : offset / chunkSize ≤ k)
    (hlast : k ≤ (offset + len - 1) / chunkSize) :
    offset < k * chunkSize + chunkSize ∧ k * chunkSize < offset + len := by
  have hlow : offset < (k + 1) * chunkSize :=
    (Nat.div_lt_iff_lt_mul chunkSize_pos).mp (Nat.lt_succ_of_le hfirst)
  have hhigh : k * chunkSize ≤ offset + len - 1 := (Nat.le_div_iff_mul_le chunkSize_pos).mp hlast
  rw [Nat.add_mul, Nat.one_mul] at hlow
  omega

section
variable {hash : Bytes → ChunkId} {contents : Contents} {src : ReadSource}
  {getManifest : ManifestId → Except FluxError Manifest} {inode : Inode} {old : Manifest}
  {offset : Nat} {data : Bytes} {gen : DataGen} {acc acc' : Staging}

/-- What a round of the loop has done when it returns. -/
theorem writeWindow_ok {read : Nat → Nat → Except FluxError Bytes} {size k : Nat}
    (h : (writeWindow hash read size offset data gen acc k).run = some (.ok acc')) :
    ∃ windowEnd bytes manifest,
      windowEnd = min (k * chunkSize + chunkSize) (max size (offset + data.length)) ∧
      (readWindow read size (k * chunkSize) windowEnd).run = some (.ok bytes) ∧
      acc.manifest.replaceRange (.local (k * chunkSize) (windowEnd - k * chunkSize)
        (hash (windowBytes bytes offset data (k * chunkSize) windowEnd))) gen =
          some (.ok manifest) ∧
      acc' = ⟨manifest, acc.staged ++ [(hash (windowBytes bytes offset data (k * chunkSize)
        windowEnd), windowBytes bytes offset data (k * chunkSize) windowEnd)]⟩ := by
  unfold writeWindow at h
  obtain ⟨windowStart, hstart, h⟩ := ClientM.bind_eq_ok h
  obtain ⟨windowStop, hstop, h⟩ := ClientM.bind_eq_ok h
  obtain ⟨bytes, hbytes, h⟩ := ClientM.bind_eq_ok h
  obtain ⟨manifest, hmanifest, h⟩ := ClientM.bind_eq_ok h
  have hmul : k * chunkSize = windowStart := eq_of_checkedMul (ClientM.okOr_eq_ok hstart)
  have hadd : windowStart + chunkSize = windowStop :=
    (checkedAdd_eq_some.mp (ClientM.okOr_eq_ok hstop)).1
  refine ⟨min windowStop (max size (offset + data.length)), bytes, manifest, ?_, ?_, ?_, ?_⟩
  · rw [hmul, hadd]
  · rw [hmul]
    exact hbytes
  · rw [hmul]
    exact hmanifest
  · rw [hmul]
    exact (Except.ok.inj (Option.some.inj h)).symm

theorem exists_staged_last {staged : List (ChunkId × Bytes)} {offset len : Nat} {c : ChunkId}
    {bytes : Bytes} (h : bytes.length = len) :
    ∃ row ∈ staged ++ [(c, bytes)], (Extent.local offset len c).localChunk? = some row.1 ∧
      row.2.length = (Extent.local offset len c).len :=
  ⟨(c, bytes), List.mem_append_right _ (List.mem_singleton_self _), rfl, h⟩

/-- A round copies up one more window. -/
theorem writeWindow_spec (hsrc : src.Sound contents) (hold : old.SoundAt inode.size)
    (hcurrent : currentManifest getManifest inode = .ok old)
    (hdata : data ≠ []) {k : Nat} (hfirst : offset / chunkSize ≤ k)
    (hlast : k ≤ (offset + data.length - 1) / chunkSize)
    (hinv : CopiedUp hash contents inode.ufs old (.write offset data hdata)
      (max inode.size (offset + data.length)) (offset / chunkSize * chunkSize) (k * chunkSize) acc)
    (h : (writeWindow hash (readInodeRange src getManifest inode) inode.size offset data gen acc
      k).run = some (.ok acc')) :
    CopiedUp hash contents inode.ufs old (.write offset data hdata)
        (max inode.size (offset + data.length)) (offset / chunkSize * chunkSize)
        ((k + 1) * chunkSize) acc' ∧
      acc'.manifest.inode = acc.manifest.inode ∧ acc'.manifest.gen = gen := by
  obtain ⟨windowEnd, bytes, manifest, hend, hread, hreplace, rfl⟩ := writeWindow_ok h
  have hbounds := window_bounds (List.length_pos_of_ne_nil hdata) hfirst hlast
  have hlen := List.length_pos_of_ne_nil hdata
  have hbelow : offset / chunkSize * chunkSize ≤ k * chunkSize := Nat.mul_le_mul_right _ hfirst
  have hnext : (k + 1) * chunkSize = k * chunkSize + chunkSize := by rw [Nat.add_mul, Nat.one_mul]
  have hboundary : chunkSize ∣ k * chunkSize := Nat.dvd_mul_left _ _
  have hpos := chunkSize_pos
  rw [hnext]
  clear hnext hfirst hlast
  generalize k * chunkSize = windowStart at *
  have hisWindow : IsWindow (max inode.size (offset + data.length)) windowStart windowEnd :=
    ⟨hboundary, by omega, hend⟩
  have hmeets : offset < windowEnd ∧ windowStart < offset + data.length := by omega
  obtain ⟨hlength, hbytes⟩ := windowBytes_spec hdata
    (fun i hi => readWindow_getD hsrc hold hcurrent hread hi) hmeets hisWindow.nonempty
  obtain ⟨m', hrun, hinode, hgen, hlocals, hsound, hafter⟩ := hisWindow.replace
    (c := hash (windowBytes bytes offset data windowStart windowEnd)) hinv.sound gen
  rw [hreplace] at hrun
  cases hrun
  refine ⟨⟨hsound, ?_, ?_, ?_⟩, hinode, hgen⟩
  · intro row hrow
    rcases List.mem_append.mp hrow with hrow | hrow
    · exact hinv.staged row hrow
    · rw [List.mem_singleton.mp hrow]
  · intro e he hlocal
    rcases hlocals e he hlocal with rfl | hkept
    · exact .inr (exists_staged_last hlength)
    · rcases hinv.chunks e hkept hlocal with hold | ⟨row, hrow, hchunks⟩
      · exact .inl hold
      · exact .inr ⟨row, List.mem_append_left _ hrow, hchunks⟩
  · intro hholds pos
    have hchunk : contents.chunk (hash (windowBytes bytes offset data windowStart windowEnd)) =
        windowBytes bytes offset data windowStart windowEnd :=
      hholds.right _ (List.mem_singleton_self _)
    rw [hafter, hinv.bytes hholds.left, hchunk]
    by_cases hin : windowStart ≤ pos ∧ pos < windowEnd
    · have hbyte := hbytes (pos - windowStart) (by omega)
      rw [Nat.add_sub_of_le hin.1] at hbyte
      rw [if_pos hin, if_pos (by omega), hbyte, Option.getD_some]
    · rw [if_neg hin]
      by_cases hdone : offset / chunkSize * chunkSize ≤ pos ∧ pos < windowStart ∧
        pos < max inode.size (offset + data.length)
      · rw [if_pos hdone, if_pos (by omega)]
      · rw [if_neg hdone, if_neg (by omega)]

/-- The loop from window `k` on, `n` windows long. -/
theorem writeWindows_spec (hsrc : src.Sound contents) (hold : old.SoundAt inode.size)
    (hcurrent : currentManifest getManifest inode = .ok old)
    (hdata : data ≠ []) {k n : Nat} (hfirst : offset / chunkSize ≤ k)
    (hlast : k + n ≤ (offset + data.length - 1) / chunkSize + 1)
    (hinv : CopiedUp hash contents inode.ufs old (.write offset data hdata)
      (max inode.size (offset + data.length)) (offset / chunkSize * chunkSize) (k * chunkSize) acc)
    (hgen : n = 0 → acc.manifest.gen = gen)
    (h : (writeWindows hash (readInodeRange src getManifest inode) inode.size offset data gen
      (List.range' k n) acc).run = some (.ok acc')) :
    CopiedUp hash contents inode.ufs old (.write offset data hdata)
        (max inode.size (offset + data.length)) (offset / chunkSize * chunkSize)
        ((k + n) * chunkSize) acc' ∧
      acc'.manifest.inode = acc.manifest.inode ∧ acc'.manifest.gen = gen := by
  induction n generalizing k acc with
  | zero =>
    have hacc : acc = acc' := Except.ok.inj (Option.some.inj h)
    rw [← hacc]
    exact ⟨hinv, rfl, hgen rfl⟩
  | succ n ih =>
    rw [List.range'_succ] at h
    obtain ⟨next, hnext, h⟩ := ClientM.bind_eq_ok h
    obtain ⟨hinv', hinode, hgen'⟩ := writeWindow_spec hsrc hold hcurrent hdata hfirst
      (by omega) hinv hnext
    obtain ⟨hdone, hinode', hgen⟩ := ih (by omega) (by omega) hinv' (fun _ => hgen') h
    have hcount : k + 1 + n = k + (n + 1) := by omega
    rw [hcount] at hdone
    exact ⟨hdone, hinode'.trans hinode, hgen⟩

end

/-! ## The planned manifest -/

/-- What a planned edit hands to the commit: a sound manifest of the edited file whose new
chunks are staged under their hashes. -/
structure Planned (hash : Bytes → ChunkId) (contents : Contents) (basis : Inode) (old : Manifest)
    (edit : FileEdit) (staging : Staging) : Prop where
  sound : staging.manifest.Sound
  inode : staging.manifest.inode = basis.id
  size : staging.manifest.size = edit.newSize basis.size
  gen : staging.manifest.gen = saturatingAdd basis.headGen 1
  staged : ∀ row ∈ staging.staged, row.1 = hash row.2
  chunks : ∀ e ∈ staging.manifest.extents.extents, e.localChunk?.isSome = true →
    e ∈ old.extents.extents ∨
      ∃ row ∈ staging.staged, e.localChunk? = some row.1 ∧ row.2.length = e.len
  bytes : contents.Holds staging.staged → ∀ pos,
    fileByte contents basis.ufs staging.manifest.extents.extents pos =
    edit.byteAt (fileByte contents basis.ufs old.extents.extents) pos

/-- The windows of a write reach from before its first to behind its last byte. -/
theorem windowIndices_cover (offset : Nat) {len : Nat} (hlen : 0 < len) :
    offset / chunkSize ≤ (offset + len - 1) / chunkSize ∧
      offset / chunkSize * chunkSize ≤ offset ∧
      offset + len ≤ ((offset + len - 1) / chunkSize + 1) * chunkSize := by
  refine ⟨Nat.div_le_div_right (by omega), Nat.div_mul_le_self _ _, ?_⟩
  have hlt : offset + len - 1 < ((offset + len - 1) / chunkSize + 1) * chunkSize :=
    Nat.lt_mul_of_div_lt (Nat.lt_succ_self _) chunkSize_pos
  omega

section
variable {hash : Bytes → ChunkId} {contents : Contents} {src : ReadSource}
  {getManifest : ManifestId → Except FluxError Manifest} {inode : Inode} {old : Manifest}
  {staging : Staging}

theorem planWrite_spec {offset : Nat} {data : Bytes} (hdata : data ≠ []) (hsrc : src.Sound contents)
    (hold : old.SoundAt inode.size) (hcurrent : currentManifest getManifest inode = .ok old)
    (hinode : old.inode = inode.id)
    (h : (planWrite hash src getManifest inode offset data).run = some (.ok staging)) :
    Planned hash contents inode old (.write offset data hdata) staging := by
  have hlen := List.length_pos_of_ne_nil hdata
  unfold planWrite at h
  split at h
  · cases h
  split at h
  · cases h
  split at h
  · cases h
  rename_i hmax
  obtain ⟨current, hget, h⟩ := ClientM.bind_eq_ok h
  have hsame : old = current := by
    rw [ClientM.ofExcept, hcurrent] at hget
    exact Except.ok.inj (Option.some.inj hget)
  subst hsame
  obtain ⟨acc, hloop, h⟩ := ClientM.bind_eq_ok h
  have hstaging := Except.ok.inj (Option.some.inj h)
  subst hstaging
  have hbounded : max inode.size (offset + data.length) ≤ u64Max := by
    have hbound : inode.size ≤ u64Max := hold.bounded
    omega
  have hstart : CopiedUp hash contents inode.ufs old (.write offset data hdata)
      (max inode.size (offset + data.length)) (offset / chunkSize * chunkSize)
      (offset / chunkSize * chunkSize) ⟨old, []⟩ := by
    refine ⟨⟨hold.laid, hold.objects, hold.windows, fun e he => ?_, hbounded⟩, ?_, ?_, ?_⟩
    · exact Nat.le_trans (hold.inside e he) (Nat.le_max_left ..)
    · intro row hrow
      cases hrow
    · exact fun e he _ => .inl he
    · intro _ pos
      rw [if_neg (by omega)]
  obtain ⟨hfirst, hlow, hhigh⟩ := windowIndices_cover offset hlen
  obtain ⟨hdone, hinode', hgen⟩ := writeWindows_spec hsrc hold hcurrent hdata (Nat.le_refl _)
    (by omega) hstart (fun hnone => absurd hnone (by omega)) hloop
  have hcount : offset / chunkSize +
      ((offset + data.length - 1) / chunkSize + 1 - offset / chunkSize) =
        (offset + data.length - 1) / chunkSize + 1 := by omega
  rw [hcount] at hdone
  generalize ((offset + data.length - 1) / chunkSize + 1) * chunkSize = hi at *
  generalize offset / chunkSize * chunkSize = lo at *
  refine ⟨hdone.sound, hinode'.trans hinode, rfl, hgen, hdone.staged, hdone.chunks,
    fun hholds pos => ?_⟩
  refine (hdone.bytes hholds pos).trans ?_
  split
  · rfl
  · rename_i hout
    rw [FileEdit.byteAt, if_neg (by omega)]

end

/-! ## Truncations -/

/-- Each extent ends before the next one starts. -/
abbrev InOrder (extents : List Extent) : Prop :=
  extents.Pairwise fun a b => a.offset + a.len ≤ b.offset

theorem Laid.inOrder {t : ExtentTree} (h : Laid t.extents) : InOrder t.extents :=
  t.sorted.imp_of_mem fun ha hb hlt => h.apart _ ha _ hb hlt

/-- `kept` is the part of `e` in front of `size`. -/
structure KeptPart (hash : Bytes → ChunkId) (contents : Contents) (size : Nat) (e kept : Extent)
    (rows : List (ChunkId × Bytes)) : Prop where
  offset : kept.offset = e.offset
  len : kept.len = min e.len (size - e.offset)
  object : kept.InObject
  window : kept.InWindow
  staged : ∀ row ∈ rows, row.1 = hash row.2
  chunk : kept.localChunk?.isSome = true → kept = e ∨
    ∃ row ∈ rows, kept.localChunk? = some row.1 ∧ row.2.length = kept.len
  byte : contents.Holds rows → ∀ ufs pos, kept.offset ≤ pos → pos < kept.offset + kept.len →
    kept.byte contents ufs pos = e.byte contents ufs pos

section
variable {hash : Bytes → ChunkId} {contents : Contents}
  {getChunk : ChunkId → Except FluxError Bytes} {size : Nat}

/-- An extent in front of `size` is kept as it is. -/
theorem KeptPart.whole {e : Extent} (hobject : e.InObject) (hwindow : e.InWindow)
    (hend : e.offset + e.len ≤ size) : KeptPart hash contents size e e [] where
  offset := rfl
  len := by omega
  object := hobject
  window := hwindow
  staged row hrow := by cases hrow
  chunk _ := .inl rfl
  byte _ _ _ _ _ := rfl

/-- An extent that crosses `size` is cut there. -/
theorem cutAt_spec (hget : ∀ c data, getChunk c = .ok data → data = contents.chunk c)
    {e kept : Extent} {staged : List (ChunkId × Bytes)} (hobject : e.InObject)
    (hwindow : e.InWindow) (hcross : size < e.offset + e.len)
    (h : cutAt hash getChunk (size - e.offset) e = .ok (kept, staged)) :
    KeptPart hash contents size e kept staged := by
  cases e with
  | «local» start len c =>
    simp only [Extent.offset, Extent.len] at hcross h
    have hmin : size - start = min len (size - start) := by omega
    cases hchunk : getChunk c with
    | error err =>
      rw [cutAt, hchunk] at h
      cases h
    | ok bytes =>
      rw [cutAt, hchunk] at h
      change (if bytes.length < size - start then _ else _) = _ at h
      split at h
      · cases h
      · rename_i hlong
        cases h
        have hbytes := hget c bytes hchunk
        have hlen : (bytes.take (size - start)).length = size - start := by
          rw [List.length_take]
          omega
        refine ⟨rfl, hmin, trivial, ⟨hwindow.1, ?_⟩, ?_, fun _ => .inr ?_, ?_⟩
        · have := hwindow.2
          omega
        · intro row hrow
          rw [List.mem_singleton.mp hrow]
        · exact ⟨_, List.mem_singleton_self _, rfl, hlen⟩
        · intro hholds ufs pos hlow hhigh
          have hcut : contents.chunk (hash (bytes.take (size - start))) =
              bytes.take (size - start) := hholds _ (List.mem_singleton_self _)
          simp only [Extent.offset, Extent.len] at hlow hhigh
          rw [Extent.byte, Extent.byte, hcut, ← hbytes, List.getElem?_take_of_lt (by omega)]
  | ufsRange start len key version offsetInObject =>
    simp only [Extent.offset, Extent.len] at hcross h
    cases h
    refine ⟨rfl, ?_, ?_, trivial, ?_, ?_, fun _ _ _ _ _ => rfl⟩
    · show size - start = min len (size - start)
      omega
    · simp only [Extent.InObject] at hobject ⊢
      omega
    · intro row hrow
      cases hrow
    · intro hlocal
      cases hlocal

/-- What the loop of `truncate_locked` keeps of the extents. -/
structure Clipped (hash : Bytes → ChunkId) (contents : Contents) (size : Nat)
    (old extents : List Extent) (rows : List (ChunkId × Bytes)) : Prop where
  inOrder : InOrder extents
  sound : ∀ x ∈ extents, 0 < x.len ∧ x.InObject ∧ x.InWindow ∧ x.offset + x.len ≤ size
  within : ∀ x ∈ extents, ∃ e ∈ old, x.offset = e.offset ∧ x.len ≤ e.len
  staged : ∀ row ∈ rows, row.1 = hash row.2
  chunks : ∀ x ∈ extents, x.localChunk?.isSome = true →
    x ∈ old ∨ ∃ row ∈ rows, x.localChunk? = some row.1 ∧ row.2.length = x.len
  bytes : contents.Holds rows → ∀ ufs pos, fileByte contents ufs extents pos =
    if pos < size then fileByte contents ufs old pos else 0

/-- Extents that start behind `size` are dropped. -/
theorem Clipped.nil {old : List Extent} (hwithin : ∀ e ∈ old, e.offset + e.len ≤ u64Max)
    (hbehind : ∀ e ∈ old, size ≤ e.offset) : Clipped hash contents size old [] [] := by
  refine ⟨.nil, ?_, ?_, ?_, ?_, fun _ ufs pos => ?_⟩
  iterate 4
    · intro x hx
      cases hx
  · have hhole : pos < size → fileByte contents ufs old pos = 0 := by
      intro hpos
      apply fileByte_of_hole hwithin
      intro e he
      have := hbehind e he
      omega
    split
    · rename_i hpos
      rw [hhole hpos]
      rfl
    · rfl

/-- The kept part of an extent in front of what is kept of the later ones. -/
theorem Clipped.cons {e kept : Extent} {old extents : List Extent}
    {rows later : List (ChunkId × Bytes)} (hbefore : e.offset < size) (hlen : 0 < e.len)
    (hwithin : ∀ x ∈ e :: old, x.offset + x.len ≤ u64Max)
    (hafter : ∀ x ∈ old, e.offset + e.len ≤ x.offset)
    (hkept : KeptPart hash contents size e kept rows)
    (hrest : Clipped hash contents size old extents later) :
    Clipped hash contents size (e :: old) (kept :: extents) (rows ++ later) := by
  have hoffset := hkept.offset
  have hkeep := hkept.len
  have hapart : ∀ x ∈ extents, kept.offset + kept.len ≤ x.offset := by
    intro x hx
    obtain ⟨y, hy, hxy, -⟩ := hrest.within x hx
    have := hafter y hy
    omega
  have hmax : ∀ x ∈ kept :: extents, x.offset + x.len ≤ u64Max := by
    refine List.forall_mem_cons.mpr ⟨?_, fun x hx => ?_⟩
    · have := hwithin e List.mem_cons_self
      omega
    · obtain ⟨y, hy, hxy, hle⟩ := hrest.within x hx
      have := hwithin y (List.mem_cons_of_mem _ hy)
      omega
  refine ⟨List.pairwise_cons.mpr ⟨hapart, hrest.inOrder⟩, ?_, ?_, ?_, ?_,
    fun hholds ufs pos => ?_⟩
  · refine List.forall_mem_cons.mpr ⟨⟨?_, hkept.object, hkept.window, ?_⟩, hrest.sound⟩
    · omega
    · omega
  · refine List.forall_mem_cons.mpr ⟨⟨e, List.mem_cons_self, hoffset, by omega⟩, fun x hx => ?_⟩
    obtain ⟨y, hy, hxy⟩ := hrest.within x hx
    exact ⟨y, List.mem_cons_of_mem _ hy, hxy⟩
  · intro row hrow
    exact (List.mem_append.mp hrow).elim (hkept.staged row) (hrest.staged row)
  · refine List.forall_mem_cons.mpr ⟨fun hlocal => ?_, fun x hx hlocal => ?_⟩
    · rcases hkept.chunk hlocal with heq | ⟨row, hrow, hchunk⟩
      · exact .inl (heq ▸ List.mem_cons_self)
      · exact .inr ⟨row, List.mem_append_left _ hrow, hchunk⟩
    · rcases hrest.chunks x hx hlocal with hsame | ⟨row, hrow, hchunk⟩
      · exact .inl (List.mem_cons_of_mem _ hsame)
      · exact .inr ⟨row, List.mem_append_right _ hrow, hchunk⟩
  · rw [fileByte_cons hmax hapart, fileByte_cons hwithin hafter, hrest.bytes hholds.right]
    by_cases hin : kept.offset ≤ pos ∧ pos < kept.offset + kept.len
    · rw [if_pos hin, if_pos (by omega), if_pos (by omega), hkept.byte hholds.left ufs pos hin.1
        hin.2]
    · rw [if_neg hin]
      by_cases hpos : pos < size
      · rw [if_pos hpos, if_pos hpos, if_neg (by omega)]
      · rw [if_neg hpos, if_neg hpos]

theorem truncateExtents_spec (hget : ∀ c data, getChunk c = .ok data → data = contents.chunk c)
    {old extents : List Extent} {rows : List (ChunkId × Bytes)} (horder : InOrder old)
    (hold : ∀ e ∈ old, 0 < e.len ∧ e.offset + e.len ≤ u64Max ∧ e.InObject ∧ e.InWindow)
    (h : truncateExtents hash getChunk size old = .ok (extents, rows)) :
    Clipped hash contents size old extents rows := by
  induction old generalizing extents rows with
  | nil =>
    cases h
    exact Clipped.nil (fun _ he => by cases he) (fun _ he => by cases he)
  | cons e old ih =>
    obtain ⟨hafter, horder⟩ := List.pairwise_cons.mp horder
    obtain ⟨⟨hlen, hmax, hobject, hwindow⟩, hrest⟩ := List.forall_mem_cons.mp hold
    have hwithin : ∀ x ∈ e :: old, x.offset + x.len ≤ u64Max := fun x hx => (hold x hx).2.1
    rw [truncateExtents] at h
    split at h
    · rename_i hbehind
      cases h
      apply Clipped.nil hwithin
      intro x hx
      rcases List.mem_cons.mp hx with rfl | hx
      · exact hbehind
      · have := hafter x hx
        omega
    · rename_i hbefore
      rw [checkedAdd_of_le hmax] at h
      obtain ⟨⟨kept, first⟩, hkept, h⟩ := except_bind_eq_ok h
      obtain ⟨⟨tail, later⟩, htail, h⟩ := except_bind_eq_ok h
      cases h
      refine Clipped.cons (Nat.not_le.mp hbefore) hlen hwithin hafter ?_ (ih horder hrest htail)
      unfold keepExtent at hkept
      split at hkept
      · rename_i hend
        cases hkept
        exact .whole hobject hwindow hend
      · rename_i hcross
        exact cutAt_spec hget hobject hwindow (Nat.not_le.mp hcross) hkept

theorem Manifest.SoundAt.each {m : Manifest} {size : Nat} (h : m.SoundAt size) :
    ∀ e ∈ m.extents.extents, 0 < e.len ∧ e.offset + e.len ≤ u64Max ∧ e.InObject ∧ e.InWindow :=
  fun e he => ⟨h.laid.nonempty e he, h.laid.within e he, h.objects e he, h.windows e he⟩

/-- What is kept can be made into a tree again, in the order it has. -/
theorem Clipped.tryFrom {old extents : List Extent} {rows : List (ChunkId × Bytes)}
    (h : Clipped hash contents size old extents rows) (hsize : size ≤ u64Max) :
    ∃ tree, ExtentTree.tryFrom extents = .ok tree ∧ tree.extents = extents := by
  have hsorted : extents.Pairwise fun a b => a.offset < b.offset := by
    refine h.inOrder.imp_of_mem fun {a b} ha _ hle => ?_
    have := (h.sound a ha).1
    omega
  have hlaid : Laid extents := by
    refine ⟨fun e he => (h.sound e he).1, fun e he => ?_, ?_⟩
    · exact Nat.le_trans (h.sound e he).2.2.2 hsize
    · -- of two extents at different offsets the first comes first
      intro a ha b hb hlt
      obtain ⟨i, hi, rfl⟩ := List.getElem_of_mem ha
      obtain ⟨j, hj, rfl⟩ := List.getElem_of_mem hb
      rcases Nat.lt_trichotomy i j with hij | rfl | hji
      · exact List.pairwise_iff_getElem.mp h.inOrder i j hi hj hij
      · omega
      · have := List.pairwise_iff_getElem.mp hsorted j i hj hi hji
        omega
  have hnodup : (extents.map Extent.offset).Nodup :=
    List.pairwise_map.mpr (hsorted.imp Nat.ne_of_lt)
  exact ⟨⟨extents, hsorted⟩, ExtentTree.tryFrom_eq_ok.mpr ⟨hnodup, hlaid, .refl _⟩, rfl⟩

end

section
variable {hash : Bytes → ChunkId} {contents : Contents} {src : ReadSource}
  {getManifest : ManifestId → Except FluxError Manifest} {inode : Inode} {old : Manifest}
  {staging : Staging}

theorem planTruncate_spec {size : Nat} (hsize : size ≤ u64Max) (attrs : InodeSetAttr)
    (hsrc : src.Sound contents) (hold : old.SoundAt inode.size)
    (hcurrent : currentManifest getManifest inode = .ok old)
    (h : planTruncate hash src getManifest inode size = .ok staging) :
    Planned hash contents inode old (.truncate size hsize attrs) staging := by
  unfold planTruncate at h
  split at h
  · cases h
  obtain ⟨current, hold', h⟩ := except_bind_eq_ok h
  rw [hcurrent] at hold'
  cases hold'
  obtain ⟨⟨extents, rows⟩, htruncate, h⟩ := except_bind_eq_ok h
  obtain ⟨tree, htree, h⟩ := except_bind_eq_ok h
  cases h
  have hclipped := truncateExtents_spec hsrc.chunk hold.laid.inOrder hold.each htruncate
  obtain ⟨tree', htree', hextents⟩ := hclipped.tryFrom hsize
  rw [htree] at htree'
  cases htree'
  have hlaid : Laid tree.extents := by
    obtain ⟨-, hlaid, hperm⟩ := ExtentTree.tryFrom_eq_ok.mp htree
    rw [hextents]
    exact hlaid
  rw [← hextents] at hclipped
  exact ⟨⟨hlaid, fun e he => (hclipped.sound e he).2.1, fun e he => (hclipped.sound e he).2.2.1,
      fun e he => (hclipped.sound e he).2.2.2, hsize⟩, rfl, rfl, rfl, hclipped.staged,
    hclipped.chunks, fun hholds pos => hclipped.bytes hholds inode.ufs pos⟩

/-- A call that reaches its commit hands over a manifest of the edited file. -/
theorem FileEdit.plan_spec (edit : FileEdit) (hsrc : src.Sound contents)
    (hold : old.SoundAt inode.size)
    (hcurrent : currentManifest getManifest inode = .ok old) (hinode : old.inode = inode.id)
    (h : (edit.plan hash src getManifest inode).run = some (.ok staging)) :
    Planned hash contents inode old edit staging := by
  cases edit with
  | write offset data hdata =>
    exact planWrite_spec hdata hsrc hold hcurrent hinode h
  | truncate size hmax attrs =>
    unfold plan at h
    dsimp only at h
    split at h
    · cases h
    · exact planTruncate_spec hmax attrs hsrc hold hcurrent (Option.some.inj h)

end

/-! ## Calls that succeed -/

section
variable {hash : Bytes → ChunkId} {contents : Contents} {src : ReadSource}
  {getManifest : ManifestId → Except FluxError Manifest} {inode : Inode} {old : Manifest}
  {ufs : Option UfsObject}

end

/-! ## Edits of the content -/

section
variable {hash : Bytes → ChunkId} {contents : Contents} {src : ReadSource}
  {getManifest : ManifestId → Except FluxError Manifest} {inode : Inode} {old : Manifest}
  {edit : FileEdit} {staging : Staging}

/-- The planned manifest describes the edited content. -/
theorem Planned.content (h : Planned hash contents inode old edit staging)
    (hold : old.SoundAt inode.size) (hholds : contents.Holds staging.staged) :
    fileRange contents inode.ufs staging.manifest.extents.extents 0 staging.manifest.size =
      edit.apply (fileRange contents inode.ufs old.extents.extents 0 inode.size) := by
  rw [fileRange_zero, fileRange_zero,
    edit.apply_map_range fun pos hpos => hold.zero contents inode.ufs hpos, h.size]
  exact List.map_congr_left fun pos _ => h.bytes hholds pos

end

end FluxFS
