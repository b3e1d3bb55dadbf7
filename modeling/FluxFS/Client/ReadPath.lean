import FluxFS.Lib.Overlay
import FluxFS.Types

/-!
# ReadPath — assembling a range from extents

`FluxClient::read_inode_range`: a zeroed buffer is overwritten with the overlap of
each extent, Local bytes from the chunk store and the rest from the pinned UFS
object. What a successful read returns is stated byte by byte (`fileByte`), and so
does not depend on how the file is cut into extents.
-/

namespace FluxFS

open Kit

/-- `ChunkStore::get_with_promote` and `ufs_read_range`, as a read finds them. -/
structure ReadSource where
  chunk : ChunkId → Except FluxError Bytes
  ufs : String → UfsObject → Nat → Nat → Except FluxError Bytes

namespace Extent

/-- `extent_offset.saturating_add(extent_len)`. -/
def stop (e : Extent) : Nat := saturatingAdd e.offset e.len

/-- The position lies in the extent. -/
def covers (e : Extent) (pos : Nat) : Bool := e.offset ≤ pos ∧ pos < e.stop

/-- The bytes of an extent from `sourceStart` on. -/
def data (src : ReadSource) (ufs : Option UfsObject) (sourceStart overlapLen : Nat) :
    Extent → Except FluxError Bytes
  | .local _ len chunk => do
    let chunkData ← src.chunk chunk
    if chunkData.length ≠ len then
      .error (.io s!"chunk len mismatch: meta={len} actual={chunkData.length}")
    else .ok ((chunkData.drop sourceStart).take overlapLen)
  | .ufsRange _ _ key _ offsetInObject =>
    match ufs with
    | none => .error (.metaErr "External inode missing pinned UFS object")
    | some object => src.ufs key object (saturatingAdd offsetInObject sourceStart) overlapLen

/-- One round of the loop of `read_inode_range`. -/
def copy (src : ReadSource) (ufs : Option UfsObject) (offset stop : Nat) (output : Bytes)
    (e : Extent) : Except FluxError Bytes :=
  let overlapStart := max offset e.offset
  let overlapEnd := min stop e.stop
  if overlapStart ≥ overlapEnd then .ok output
  else do
    let data ← e.data src ufs (overlapStart - e.offset) (overlapEnd - overlapStart)
    if data.length ≠ overlapEnd - overlapStart then
      .error (.io s!"range len mismatch: want={overlapEnd - overlapStart} got={data.length}")
    else .ok (splice output (overlapStart - offset) data)

end Extent

/-- The loop of `read_inode_range`. -/
def copyExtents (src : ReadSource) (ufs : Option UfsObject) (offset stop : Nat) :
    List Extent → Bytes → Except FluxError Bytes
  | [], output => .ok output
  | e :: es, output => do
    let output ← e.copy src ufs offset stop output
    copyExtents src ufs offset stop es output

/-- Where a read of `len` bytes from `offset` ends. -/
def readEnd (inode : Inode) (offset len : Nat) : Nat := min (saturatingAdd offset len) inode.size

/-- The reads `read_inode_range` answers without a look at the manifest. -/
def readsNothing (inode : Inode) (offset len : Nat) : Prop :=
  len = 0 ∨ offset ≥ inode.size ∨ inode.manifestId = none

instance (inode : Inode) (offset len : Nat) : Decidable (readsNothing inode offset len) :=
  inferInstanceAs (Decidable (_ ∨ _))

/-- `FluxClient::read_inode_range`; `getManifest` is `MetaStore::get_manifest`. -/
def readInodeRange (src : ReadSource) (getManifest : ManifestId → Except FluxError Manifest)
    (inode : Inode) (offset len : Nat) : Except FluxError Bytes :=
  if inode.fileType ≠ .regular then .error .isDirectory
  else if readsNothing inode offset len then .ok []
  else
    match inode.manifestId with
    | none => .ok []
    | some mid => do
      let manifest ← getManifest mid
      copyExtents src inode.ufs offset (readEnd inode offset len) manifest.extents.extents
        (List.replicate (readEnd inode offset len - offset) 0)

/-! ## Bytes of a file -/

/-- The bytes behind chunk ids and pinned objects. -/
structure Contents where
  chunk : ChunkId → Bytes
  object : String → UfsObject → Nat → UInt8

/-- The byte of an extent at a file position that it covers. -/
def Extent.byte (contents : Contents) (ufs : Option UfsObject) (pos : Nat) : Extent → UInt8
  | .local offset _ chunk => (contents.chunk chunk)[pos - offset]?.getD 0
  | .ufsRange offset _ key _ offsetInObject =>
    ufs.elim 0 fun object => contents.object key object (offsetInObject + (pos - offset))

/-- The byte at `pos` after the extents in order, where it is `b` before them. -/
def fileByteFrom (contents : Contents) (ufs : Option UfsObject) (extents : List Extent) (pos : Nat)
    (b : UInt8) : UInt8 :=
  extents.foldl (fun b e => if e.covers pos then e.byte contents ufs pos else b) b

/-- The byte at `pos`: holes read as zero. -/
def fileByte (contents : Contents) (ufs : Option UfsObject) (extents : List Extent) (pos : Nat) :
    UInt8 :=
  fileByteFrom contents ufs extents pos 0

/-- The bytes of the file in `[offset, stop)`. -/
def fileRange (contents : Contents) (ufs : Option UfsObject) (extents : List Extent)
    (offset stop : Nat) : Bytes :=
  (List.range (stop - offset)).map fun i => fileByte contents ufs extents (offset + i)

/-- What `src` answers, if it answers, is right. -/
structure ReadSource.Sound (src : ReadSource) (contents : Contents) : Prop where
  chunk : ∀ c data, src.chunk c = .ok data → data = contents.chunk c
  ufs : ∀ key object offset len data, src.ufs key object offset len = .ok data →
    data = (List.range len).map fun i => contents.object key object (offset + i)

/-- Object offsets of the extent stay within `u64`. -/
def Extent.InObject : Extent → Prop
  | .local .. => True
  | .ufsRange _ len _ _ offsetInObject => offsetInObject + len ≤ u64Max

instance (e : Extent) : Decidable e.InObject :=
  match e with
  | .local .. => .isTrue trivial
  | .ufsRange .. => inferInstanceAs (Decidable (_ ≤ _))

section
variable {src : ReadSource} {contents : Contents} {ufs : Option UfsObject} {offset stop : Nat}
  {e : Extent} {output result : Bytes}

theorem Extent.stop_le (e : Extent) : e.stop ≤ e.offset + e.len := by
  unfold Extent.stop saturatingAdd
  omega

theorem Extent.data_sound (hsrc : src.Sound contents) (hobject : e.InObject) {start n : Nat}
    {data : Bytes} (hstop : start + n ≤ e.len) (h : e.data src ufs start n = .ok data) :
    ∀ i < n, data[i]? = some (e.byte contents ufs (e.offset + start + i)) := by
  intro i hi
  cases e with
  | «local» o len c =>
    rw [Extent.data] at h
    cases hc : src.chunk c with
    | error err =>
      rw [hc] at h
      cases h
    | ok chunkData =>
      rw [hc] at h
      change (if chunkData.length ≠ len then _ else _) = _ at h
      split at h
      · cases h
      · rename_i hlen
        cases h
        have hlen := not_not.mp hlen
        rw [Extent.len] at hstop
        rw [List.getElem?_take_of_lt hi, List.getElem?_drop, Extent.byte,
          ← hsrc.chunk c chunkData hc, Extent.offset]
        have hpos : o + start + i - o = start + i := by omega
        rw [hpos, List.getElem?_eq_getElem (by omega), Option.getD_some]
  | ufsRange o len key version oio =>
    cases ufs with
    | none => cases h
    | some object =>
      rw [Extent.InObject] at hobject
      rw [Extent.len] at hstop
      have hsum : saturatingAdd oio start = oio + start := by
        unfold saturatingAdd
        omega
      rw [hsrc.ufs key object (saturatingAdd oio start) n data h, List.getElem?_map,
        List.getElem?_range hi, hsum,
        Option.map_some, Extent.byte, Extent.offset, Option.elim_some]
      congr 2
      omega

/-- What one round leaves at each index of the buffer. -/
theorem Extent.copy_sound (hsrc : src.Sound contents) (hobject : e.InObject)
    (hlength : output.length = stop - offset)
    (h : e.copy src ufs offset stop output = .ok result) :
    result.length = output.length ∧ ∀ i < output.length, ∀ b, output[i]? = some b →
      result[i]? = some (if e.covers (offset + i) then e.byte contents ufs (offset + i) else
        b) := by
  rw [Extent.copy] at h
  have hcovers : ∀ pos, e.covers pos = true ↔ e.offset ≤ pos ∧ pos < e.stop :=
    fun pos => decide_eq_true_iff
  split at h
  · rename_i hnone
    cases h
    refine ⟨rfl, fun i hi b hb => ?_⟩
    rw [hb, if_neg]
    rw [hcovers]
    omega
  · rename_i hsome
    have hstop := e.stop_le
    generalize hstart : max offset e.offset = start at h
    generalize hend : min stop e.stop = finish at h
    cases hdata : e.data src ufs (start - e.offset) (finish - start) with
    | error err =>
      rw [hdata] at h
      cases h
    | ok data =>
      rw [hdata] at h
      change (if data.length ≠ finish - start then _ else _) = _ at h
      split at h
      · cases h
      · rename_i hlen
        have hlen := not_not.mp hlen
        cases h
        have hfit : start - offset + data.length ≤ output.length := by omega
        refine ⟨length_splice hfit, fun i hi b hb => ?_⟩
        rw [getElem?_splice hfit]
        by_cases hin : start - offset ≤ i ∧ i < start - offset + data.length
        · have hbyte := Extent.data_sound hsrc hobject (by omega) hdata (i - (start - offset))
            (by omega)
          have hpos : e.offset + (start - e.offset) + (i - (start - offset)) = offset + i := by
            omega
          rw [if_pos hin, hbyte, hpos, if_pos]
          rw [hcovers]
          omega
        · rw [if_neg hin, hb, if_neg]
          rw [hcovers]
          omega

theorem copyExtents_sound (hsrc : src.Sound contents) {extents : List Extent}
    (hobject : ∀ e ∈ extents, e.InObject)
    (hlength : output.length = stop - offset)
    (h : copyExtents src ufs offset stop extents output = .ok result) :
    result.length = output.length ∧ ∀ i < output.length, ∀ b, output[i]? = some b →
      result[i]? = some (fileByteFrom contents ufs extents (offset + i) b) := by
  induction extents generalizing output with
  | nil =>
    cases h
    exact ⟨rfl, fun i _ b hb => hb⟩
  | cons e es ih =>
    rw [copyExtents] at h
    cases hcopy : e.copy src ufs offset stop output with
    | error err =>
      rw [hcopy] at h
      cases h
    | ok next =>
      rw [hcopy] at h
      obtain ⟨hlen, hnext⟩ := Extent.copy_sound hsrc (hobject e List.mem_cons_self)
        hlength hcopy
      obtain ⟨hlen', hrest⟩ := ih (fun x hx => hobject x (List.mem_cons_of_mem _ hx))
        (hlen.trans hlength) h
      refine ⟨hlen'.trans hlen, fun i hi b hb => ?_⟩
      rw [hrest i (hlen ▸ hi) _ (hnext i hi b hb)]
      rfl

/-- A successful loop over a zeroed buffer has assembled the bytes of the file. -/
theorem copyExtents_eq (hsrc : src.Sound contents) {extents : List Extent}
    (hobject : ∀ e ∈ extents, e.InObject)
    (h : copyExtents src ufs offset stop extents (List.replicate (stop - offset) 0) =
      .ok result) : result = fileRange contents ufs extents offset stop := by
  obtain ⟨hlen, hget⟩ := copyExtents_sound hsrc hobject List.length_replicate h
  rw [List.length_replicate] at hlen hget
  apply eq_map_range hlen
  intro i hi
  exact hget i hi 0 (List.getElem?_replicate_of_lt hi)

/-! ## Reads that succeed -/

/-- `src` answers every read inside the extent with the right bytes. -/
def ReadSource.Supplies (src : ReadSource) (contents : Contents) (ufs : Option UfsObject) :
    Extent → Prop
  | .local _ len c => src.chunk c = .ok (contents.chunk c) ∧ (contents.chunk c).length = len
  | .ufsRange _ len key _ offsetInObject => ∃ object, ufs = some object ∧ ∀ offset n,
      offsetInObject ≤ offset → offset + n ≤ offsetInObject + len →
      src.ufs key object offset n =
        .ok ((List.range n).map fun i => contents.object key object (offset + i))

theorem Extent.copy_supplied (h : src.Supplies contents ufs e) (hobject : e.InObject)
    (offset stop : Nat) (output : Bytes) :
    ∃ result, e.copy src ufs offset stop output = .ok result := by
  rw [Extent.copy]
  split
  · exact ⟨output, rfl⟩
  · rename_i hsome
    have hstop := e.stop_le
    generalize hstart : max offset e.offset = start
    generalize hend : min stop e.stop = finish
    have hdata : ∃ data, e.data src ufs (start - e.offset) (finish - start) = .ok data ∧
        data.length = finish - start := by
      cases e with
      | «local» o len c =>
        obtain ⟨hget, hlen⟩ := h
        refine ⟨((contents.chunk c).drop (start - o)).take (finish - start), ?_, ?_⟩
        · rw [Extent.data, hget]
          show (if (contents.chunk c).length ≠ len then _ else _) = _
          rw [if_neg (not_not.mpr hlen)]
          rfl
        · rw [List.length_take, List.length_drop, hlen]
          simp only [Extent.offset, Extent.len] at *
          omega
      | ufsRange o len key version oio =>
        obtain ⟨object, rfl, hread⟩ := h
        simp only [Extent.offset, Extent.len, Extent.InObject] at *
        have hsum : saturatingAdd oio (start - o) = oio + (start - o) := by
          apply saturatingAdd_of_le
          omega
        have hin : oio + (start - o) + (finish - start) ≤ oio + len := by omega
        refine ⟨(List.range (finish - start)).map fun i =>
          contents.object key object (oio + (start - o) + i), ?_, ?_⟩
        · rw [Extent.data, hsum]
          exact hread _ _ (Nat.le_add_right ..) hin
        · simp
    obtain ⟨data, hdata, hlen⟩ := hdata
    refine ⟨splice output (start - offset) data, ?_⟩
    rw [hdata]
    show (if data.length ≠ finish - start then _ else _) = _
    rw [if_neg (not_not.mpr hlen)]

end

end FluxFS
