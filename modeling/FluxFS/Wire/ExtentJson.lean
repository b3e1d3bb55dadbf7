import FluxFS.Client.Extents
import FluxFS.Lib.Serde

/-!
# ExtentJson — extent trees as JSON

`Serialize` and `Deserialize` of `ExtentTree` in `crates/types`. A tree is written as an
object with a version and its extents; a bare array of extents, as older versions wrote it,
is read too. Either way the extents go through `try_from`, so the order does not matter and
what is read is laid out.
-/

namespace FluxFS

open Kit

/-! ## One extent -/

namespace ChunkId

/-- `Serialize` of the byte array. -/
def toJson (chunk : ChunkId) : Json := .arr (chunk.bytes.map fun b => .ofNat b.toNat)

/-- `Deserialize` of the byte array. -/
def fromJson (json : Json) : Option ChunkId := do
  let bytes ← Json.readList (Json.readUint 255) json
  if h : (bytes.map UInt8.ofNat).length = 32 then some ⟨bytes.map UInt8.ofNat, h⟩ else none

end ChunkId

namespace Extent

/-- `Serialize` of an extent: the variant's name, then its fields. -/
def toJson : Extent → Json
  | .local offset len chunk =>
    .obj [("Local", .obj
      [("offset", .ofNat offset), ("len", .ofNat len), ("chunk", chunk.toJson)])]
  | .ufsRange offset len ufsKey ufsVersion offsetInObject =>
    .obj [("UfsRange", .obj
      [("offset", .ofNat offset), ("len", .ofNat len), ("ufs_key", .str ufsKey),
        ("ufs_version", .str ufsVersion), ("offset_in_object", .ofNat offsetInObject)])]

/-- The fields of a `Local` extent. -/
def localFromJson : List Json → Option Extent
  | [offset, len, chunk] => do
    let offset ← offset.readUint u64Max
    let len ← len.readUint u64Max
    let chunk ← ChunkId.fromJson chunk
    some (.local offset len chunk)
  | _ => none

/-- The fields of a `UfsRange` extent. -/
def ufsRangeFromJson : List Json → Option Extent
  | [offset, len, ufsKey, ufsVersion, offsetInObject] => do
    let offset ← offset.readUint u64Max
    let len ← len.readUint u64Max
    let ufsKey ← ufsKey.readStr
    let ufsVersion ← ufsVersion.readStr
    let offsetInObject ← offsetInObject.readUint u64Max
    some (.ufsRange offset len ufsKey ufsVersion offsetInObject)
  | _ => none

/-- The derived decoder of one extent. -/
def fromJson (json : Json) : Option Extent := do
  let (tag, content) ← json.readVariant
  if tag = "Local" then
    let values ← content.readStruct ["offset", "len", "chunk"]
    localFromJson values
  else if tag = "UfsRange" then
    let values ← content.readStruct ["offset", "len", "ufs_key", "ufs_version", "offset_in_object"]
    ufsRangeFromJson values
  else none

/-- The numbers are `u64`s. -/
def Fits : Extent → Prop
  | .local offset len _ => offset ≤ u64Max ∧ len ≤ u64Max
  | .ufsRange offset len _ _ offsetInObject =>
    offset ≤ u64Max ∧ len ≤ u64Max ∧ offsetInObject ≤ u64Max

end Extent

/-! ## The tree -/

namespace ExtentTree

/-- `ExtentTree::WIRE_VERSION`. -/
def wireVersion : Nat := 1

/-- `Serialize` of an extent tree. -/
def toJson (t : ExtentTree) : Json :=
  .obj [("version", .ofNat wireVersion), ("entries", .arr (t.extents.map Extent.toJson))]

/-- The two forms, told apart by which one can be read. -/
inductive Wire where
  | legacy (entries : List Extent)
  | versioned (version : Nat) (entries : List Extent)

/-- The fields of the versioned form. -/
def Wire.versionedFromJson : List Json → Option Wire
  | [version, entries] => do
    let version ← version.readUint Kit.u32Max
    let entries ← entries.readList Extent.fromJson
    some (.versioned version entries)
  | _ => none

/-- The untagged choice: a bare list first, then the versioned form. -/
def Wire.fromJson (json : Json) : Option Wire :=
  match json.readList Extent.fromJson with
  | some entries => some (.legacy entries)
  | none => (json.readFields ["version", "entries"]).bind versionedFromJson

/-- `try_from` with the text of its error. -/
def fromEntries (entries : List Extent) : Except String ExtentTree :=
  match tryFrom entries with
  | .ok t => .ok t
  | .error error => .error error.text

/-- `ExtentTree::deserialize`. -/
def fromJson (json : Json) : Except String ExtentTree :=
  match Wire.fromJson json with
  | none => .error "data did not match any variant of untagged enum Wire"
  | some (.legacy entries) => fromEntries entries
  | some (.versioned version entries) =>
    if version ≠ wireVersion then .error s!"unsupported extent tree version {version}"
    else fromEntries entries

end ExtentTree

/-! ## Reading back one extent -/

theorem ChunkId.fromJson_toJson (chunk : ChunkId) : fromJson chunk.toJson = some chunk := by
  have hread : Json.readList (Json.readUint 255) chunk.toJson =
      some (chunk.bytes.map UInt8.toNat) := by
    have hbytes : chunk.toJson = .arr ((chunk.bytes.map UInt8.toNat).map Json.ofNat) := by
      rw [toJson, List.map_map]
      rfl
    rw [hbytes]
    refine Json.readList_map fun n hn => ?_
    obtain ⟨b, -, rfl⟩ := List.mem_map.mp hn
    exact Json.readUint_ofNat (by have := b.toNat_lt; omega)
  have hback : (chunk.bytes.map UInt8.toNat).map UInt8.ofNat = chunk.bytes := by
    rw [List.map_map]
    exact (List.map_congr_left fun b _ => UInt8.ofNat_toNat).trans (List.map_id _)
  rw [fromJson, hread]
  simp only [Option.bind_eq_bind, Option.bind_some, hback, dif_pos chunk.length_eq]

theorem Extent.fromJson_toJson {e : Extent} (h : e.Fits) : fromJson e.toJson = some e := by
  cases e with
  | «local» offset len chunk =>
    simp [toJson, fromJson, Json.readVariant, Json.readStruct, Json.readFields, Json.field,
      localFromJson, Json.readUint_ofNat h.1, Json.readUint_ofNat h.2, ChunkId.fromJson_toJson]
  | ufsRange offset len key version objBase =>
    simp [toJson, fromJson, Json.readVariant, Json.readStruct, Json.readFields, Json.field,
      ufsRangeFromJson, Json.readUint_ofNat h.1, Json.readUint_ofNat h.2.1,
      Json.readUint_ofNat h.2.2, Json.readStr]

theorem Extent.fits_of_fromJson {json : Json} {e : Extent} (h : fromJson json = some e) :
    e.Fits := by
  rw [fromJson] at h
  obtain ⟨⟨tag, content⟩, -, h⟩ := Option.bind_eq_some_iff.mp h
  dsimp only at h
  split_ifs at h
  · obtain ⟨values, -, h⟩ := Option.bind_eq_some_iff.mp h
    rw [localFromJson.eq_def] at h
    split at h
    · obtain ⟨offset, hoffset, h⟩ := Option.bind_eq_some_iff.mp h
      obtain ⟨len, hlen, h⟩ := Option.bind_eq_some_iff.mp h
      obtain ⟨chunk, -, h⟩ := Option.bind_eq_some_iff.mp h
      cases h
      exact ⟨(Json.readUint_eq_some.mp hoffset).2, (Json.readUint_eq_some.mp hlen).2⟩
    · cases h
  · obtain ⟨values, -, h⟩ := Option.bind_eq_some_iff.mp h
    rw [ufsRangeFromJson.eq_def] at h
    split at h
    · obtain ⟨offset, hoffset, h⟩ := Option.bind_eq_some_iff.mp h
      obtain ⟨len, hlen, h⟩ := Option.bind_eq_some_iff.mp h
      obtain ⟨key, -, h⟩ := Option.bind_eq_some_iff.mp h
      obtain ⟨version, -, h⟩ := Option.bind_eq_some_iff.mp h
      obtain ⟨objBase, hobject, h⟩ := Option.bind_eq_some_iff.mp h
      cases h
      exact ⟨(Json.readUint_eq_some.mp hoffset).2, (Json.readUint_eq_some.mp hlen).2,
        (Json.readUint_eq_some.mp hobject).2⟩
    · cases h

/-! ## Building a tree -/

namespace ExtentTree
variable {t r : ExtentTree} {e : Extent} {es : List Extent}

theorem insertByOffset_perm {xs : List Extent} (h : ∀ x ∈ xs, x.offset ≠ e.offset) :
    (insertByOffset e xs).Perm (e :: xs) := by
  induction xs with
  | nil => exact .refl _
  | cons x xs ih =>
    rw [insertByOffset]
    split
    · exact .refl _
    · rw [if_neg fun heq => h x List.mem_cons_self heq.symm]
      exact ((ih fun y hy => h y (List.mem_cons_of_mem _ hy)).cons x).trans (.swap e x xs)

/-- The first loop takes extents at new offsets only, and keeps them all. -/
theorem collect_eq_ok : collect t es = .ok r ↔ (es.map Extent.offset).Nodup ∧
    (∀ e ∈ es, ∀ x ∈ t.extents, x.offset ≠ e.offset) ∧ r.extents.Perm (t.extents ++ es) := by
  induction es generalizing t with
  | nil =>
    rw [collect, List.append_nil]
    constructor
    · intro h
      cases h
      exact ⟨.nil, nofun, .refl _⟩
    · rintro ⟨-, -, hperm⟩
      have hsame : r.extents = t.extents :=
        hperm.eq_of_pairwise (fun a b _ _ hab hba => absurd hab (by omega)) r.sorted t.sorted
      cases r
      cases t
      cases hsame
      rfl
  | cons e es ih =>
    rw [collect]
    by_cases hused : t.hasOffset e.offset = true
    · rw [if_pos hused]
      refine ⟨nofun, fun ⟨_, hnew, _⟩ => ?_⟩
      obtain ⟨x, hx, hoffset⟩ := List.any_eq_true.mp hused
      exact absurd (by simpa using hoffset) (hnew e List.mem_cons_self x hx)
    · rw [if_neg hused, ih]
      have hfree : ∀ x ∈ t.extents, x.offset ≠ e.offset :=
        hasOffset_eq_false.mp (Bool.eq_false_of_not_eq_true hused)
      have hinsert : (t.insert e).extents.Perm (e :: t.extents) := insertByOffset_perm hfree
      have hmiddle : ((t.insert e).extents ++ es).Perm (t.extents ++ e :: es) :=
        (hinsert.append_right es).trans List.perm_middle.symm
      rw [List.map_cons, List.nodup_cons]
      constructor
      · rintro ⟨hnodup, hnew, hperm⟩
        refine ⟨⟨fun hmem => ?_, hnodup⟩, fun x hx y hy => ?_, hperm.trans hmiddle⟩
        · obtain ⟨x, hx, hoffset⟩ := List.mem_map.mp hmem
          exact hnew x hx e (hinsert.mem_iff.mpr List.mem_cons_self) hoffset.symm
        · rcases List.mem_cons.mp hx with rfl | hx
          · exact hfree y hy
          · exact hnew x hx y (hinsert.mem_iff.mpr (List.mem_cons_of_mem _ hy))
      · rintro ⟨⟨hfirst, hnodup⟩, hnew, hperm⟩
        refine ⟨hnodup, fun x hx y hy heq => ?_, hperm.trans hmiddle.symm⟩
        rcases List.mem_cons.mp (hinsert.mem_iff.mp hy) with rfl | hy
        · exact hfirst (List.mem_map.mpr ⟨x, hx, heq.symm⟩)
        · exact hnew x (List.mem_cons_of_mem _ hx) y hy heq

theorem collect_total (hnodup : (es.map Extent.offset).Nodup)
    (hnew : ∀ e ∈ es, ∀ x ∈ t.extents, x.offset ≠ e.offset) : ∃ r, collect t es = .ok r := by
  induction es generalizing t with
  | nil => exact ⟨t, rfl⟩
  | cons e es ih =>
    rw [List.map_cons, List.nodup_cons] at hnodup
    have hfree : t.hasOffset e.offset = false := hasOffset_eq_false.mpr
      (hnew e List.mem_cons_self)
    rw [collect, if_neg (by rw [hfree]; exact Bool.false_ne_true)]
    refine ih hnodup.2 fun x hx y hy heq => ?_
    rcases mem_insertByOffset hy with rfl | hy
    · exact hnodup.1 (List.mem_map.mpr ⟨x, hx, heq.symm⟩)
    · exact hnew x (List.mem_cons_of_mem _ hx) y hy heq

/-- The second loop compares neighbours; in a sorted list that is enough. -/
theorem check_eq_ok {previousEnd : Option Nat} : check previousEnd es = .ok () ↔
    (∀ e ∈ es, 0 < e.len ∧ e.offset + e.len ≤ u64Max) ∧
      es.Pairwise (fun a b => a.offset + a.len ≤ b.offset) ∧
        ∀ stop ∈ previousEnd, ∀ e ∈ es, stop ≤ e.offset := by
  induction es generalizing previousEnd with
  | nil => simp [check]
  | cons e es ih =>
    have hany : previousEnd.any (e.offset < ·) = true ↔
      ∃ stop ∈ previousEnd, e.offset < stop := by
      cases previousEnd with
      | none => simp
      | some stop => simp
    rw [check]
    by_cases hlen : e.len = 0
    · rw [if_pos hlen]
      refine ⟨nofun, fun h => ?_⟩
      have hpos := (h.1 e List.mem_cons_self).1
      omega
    · rw [if_neg hlen]
      by_cases hmax : e.offset + e.len ≤ u64Max
      · rw [checkedAdd_of_le hmax]
        dsimp only
        by_cases hover : previousEnd.any (e.offset < ·) = true
        · rw [if_pos hover]
          refine ⟨nofun, fun h => ?_⟩
          obtain ⟨stop, hstop, hlt⟩ := hany.mp hover
          have hle := h.2.2 stop hstop e List.mem_cons_self
          omega
        · rw [if_neg hover, ih, List.forall_mem_cons, List.pairwise_cons]
          have hbehind : ∀ stop ∈ previousEnd, stop ≤ e.offset := fun stop hstop =>
            Nat.not_lt.mp fun hlt => hover (hany.mpr ⟨stop, hstop, hlt⟩)
          constructor
          · rintro ⟨hes, hpairs, hnext⟩
            refine ⟨⟨⟨by omega, hmax⟩, hes⟩, ⟨hnext _ rfl, hpairs⟩, fun stop hstop x hx => ?_⟩
            have hstart := hbehind stop hstop
            rcases List.mem_cons.mp hx with rfl | hx
            · exact hstart
            · have hlater := hnext _ rfl x hx
              omega
          · rintro ⟨⟨_, hes⟩, ⟨hnext, hpairs⟩, _⟩
            refine ⟨hes, hpairs, fun stop hstop => ?_⟩
            cases hstop
            exact hnext
      · have hnone : checkedAdd e.offset e.len = none := if_neg hmax
        rw [hnone]
        exact ⟨nofun, fun h => absurd (h.1 e List.mem_cons_self).2 hmax⟩

/-- A tree is built from extents at distinct offsets that are laid out, in any order. -/
theorem tryFrom_eq_ok :
    tryFrom es = .ok t ↔ (es.map Extent.offset).Nodup ∧ Laid es ∧ t.extents.Perm es := by
  have hlaid : ∀ {r : ExtentTree}, r.extents.Perm es →
      (check none r.extents = .ok () ↔ Laid es) := by
    intro r hperm
    rw [check_eq_ok]
    constructor
    · rintro ⟨heach, hpairs, -⟩
      let Apart (a b : Extent) : Prop := (a.offset < b.offset → a.offset + a.len ≤ b.offset) ∧
        (b.offset < a.offset → b.offset + b.len ≤ a.offset)
      have hboth : r.extents.Pairwise Apart :=
        (hpairs.and r.sorted).imp fun h => ⟨fun _ => h.1, fun hlt => by omega⟩
      have : Std.Symm Apart := ⟨fun _ _ h => ⟨h.2, h.1⟩⟩
      have hall := List.Pairwise.forall_of_forall
        (fun e _ => ⟨fun hlt => absurd hlt (lt_irrefl _), fun hlt => absurd hlt (lt_irrefl _)⟩)
          hboth
      exact ⟨fun e he => (heach e (hperm.mem_iff.mpr he)).1,
        fun e he => (heach e (hperm.mem_iff.mpr he)).2,
        fun a ha b hb => (hall (hperm.mem_iff.mpr ha) (hperm.mem_iff.mpr hb)).1⟩
    · intro h
      refine ⟨fun e he => ⟨h.nonempty e (hperm.mem_iff.mp he), h.within e (hperm.mem_iff.mp he)⟩,
        ?_,
        fun _ hnone => by cases hnone⟩
      refine r.sorted.imp_of_mem fun {a b} ha hb hlt => ?_
      exact h.apart a (hperm.mem_iff.mp ha) b (hperm.mem_iff.mp hb) hlt
  rw [tryFrom]
  constructor
  · intro h
    cases hcollect : collect empty es with
    | error error =>
      rw [hcollect] at h
      cases h
    | ok r =>
      rw [hcollect] at h
      obtain ⟨hnodup, -, hperm⟩ := collect_eq_ok.mp hcollect
      cases hcheck : check none r.extents with
      | error error => simp [bind, Except.bind, hcheck] at h
      | ok _ =>
        simp only [bind, Except.bind, hcheck, pure, Except.pure, Except.ok.injEq] at h
        subst h
        exact ⟨hnodup, (hlaid hperm).mp hcheck, hperm⟩
  · rintro ⟨hnodup, h, hperm⟩
    have hcollect : collect empty es = .ok t :=
      collect_eq_ok.mpr ⟨hnodup, fun _ _ _ hmem => (by cases hmem), hperm⟩
    rw [hcollect]
    simp [bind, Except.bind, (hlaid hperm).mpr h, pure, Except.pure]

/-! ## The two forms -/

/-- An array of JSON extents. -/
def IsArrayOf (json : Json) (es : List Extent) : Prop :=
  ∃ values, json = .arr values ∧ values.map Extent.fromJson = es.map some

/-- An object of version 1 with an array of JSON extents. -/
def IsVersionOneOf (json : Json) (es : List Extent) : Prop :=
  ∃ fields entries, json = .obj fields ∧ Json.field fields "version" = some (.ofNat 1) ∧
    Json.field fields "entries" = some entries ∧ IsArrayOf entries es

/-- The extents of a well-formed tree are laid out, and their numbers are `u64`s. -/
structure Valid (t : ExtentTree) : Prop where
  laid : Laid t.extents
  fits : ∀ e ∈ t.extents, e.Fits

theorem isArrayOf_iff {json : Json} :
    json.readList Extent.fromJson = some es ↔ IsArrayOf json es := Json.readList_eq_some

theorem fromEntries_eq_ok : fromEntries es = .ok t ↔ tryFrom es = .ok t := by
  rw [fromEntries]
  cases tryFrom es with
  | ok r => simp
  | error error => simp

/-- The second form, for any version. -/
theorem versioned_eq_some {json : Json} {wire : Wire} :
    (json.readFields ["version", "entries"]).bind Wire.versionedFromJson = some wire ↔
      ∃ fields version entries es, json = .obj fields ∧
        Json.field fields "version" = some (.ofNat version) ∧ version ≤ Kit.u32Max ∧
        Json.field fields "entries" = some entries ∧ IsArrayOf entries es ∧
        wire = .versioned version es := by
  constructor
  · intro h
    obtain ⟨values, hvalues, hwire⟩ := Option.bind_eq_some_iff.mp h
    cases json with
    | obj fields =>
      rw [Json.readFields, Json.mapM_eq_some] at hvalues
      rw [Wire.versionedFromJson.eq_def] at hwire
      split at hwire
      · obtain ⟨version, hversion, hwire⟩ := Option.bind_eq_some_iff.mp hwire
        obtain ⟨es, hes, hwire⟩ := Option.bind_eq_some_iff.mp hwire
        cases hwire
        obtain ⟨rfl, hmax⟩ := Json.readUint_eq_some.mp hversion
        simp only [List.map_cons, List.map_nil, List.cons.injEq, and_true] at hvalues
        exact ⟨fields, version, _, es, rfl, hvalues.1, hmax, hvalues.2, isArrayOf_iff.mp hes, rfl⟩
      · cases hwire
    | _ => cases hvalues
  · rintro ⟨fields, version, entries, es, rfl, hversion, hmax, hentries, hes, rfl⟩
    refine Option.bind_eq_some_iff.mpr ⟨[.ofNat version, entries], ?_, ?_⟩
    · rw [Json.readFields, Json.mapM_eq_some]
      simp [hversion, hentries]
    · simp [Wire.versionedFromJson, Json.readUint_ofNat hmax, isArrayOf_iff.mpr hes]

theorem fromJson_eq_ok {json : Json} : fromJson json = .ok t ↔
    ∃ es, (IsArrayOf json es ∨ IsVersionOneOf json es) ∧ tryFrom es = .ok t := by
  rw [fromJson, Wire.fromJson]
  cases hread : json.readList Extent.fromJson with
  | some entries =>
    have harray := isArrayOf_iff.mp hread
    dsimp only
    rw [fromEntries_eq_ok]
    constructor
    · exact fun h => ⟨entries, .inl harray, h⟩
    · rintro ⟨es, hes | ⟨fields, _, rfl, -⟩, h⟩
      · have hsame : some entries = some es := by rw [← hread, isArrayOf_iff.mpr hes]
        cases hsame
        exact h
      · cases hread
  | none =>
    have hnot : ∀ es, ¬ IsArrayOf json es := by
      intro es hes
      rw [isArrayOf_iff.mpr hes] at hread
      cases hread
    dsimp only
    constructor
    · intro h
      split at h
      · cases h
      · rename_i hwire
        obtain ⟨_, _, _, _, _, _, _, _, _, hwire⟩ := versioned_eq_some.mp hwire
        cases hwire
      · rename_i hwire
        obtain ⟨fields, version, entries, es, rfl, hversion, _, hentries, hes, hwire⟩ :=
          versioned_eq_some.mp hwire
        cases hwire
        split_ifs at h with hone
        rw [not_not] at hone
        subst hone
        exact ⟨_, .inr ⟨fields, entries, rfl, hversion, hentries, hes⟩, fromEntries_eq_ok.mp h⟩
    · rintro ⟨es, hes | ⟨fields, entries, rfl, hversion, hentries, hes⟩, h⟩
      · exact absurd hes (hnot es)
      · rw [versioned_eq_some.mpr ⟨fields, 1, entries, es, rfl, hversion, by decide, hentries,
          hes,
          rfl⟩]
        dsimp only
        rw [if_neg (by simp [wireVersion])]
        exact fromEntries_eq_ok.mpr h

theorem isArrayOf_toJson (h : ∀ e ∈ es, e.Fits) : IsArrayOf (.arr (es.map Extent.toJson)) es :=
  isArrayOf_iff.mp (Json.readList_map fun e he => Extent.fromJson_toJson (h e he))

theorem Valid.tryFrom_perm (h : t.Valid) (hperm : es.Perm t.extents) : tryFrom es = .ok t := by
  refine tryFrom_eq_ok.mpr ⟨?_, ⟨fun e he => ?_, fun e he => ?_, fun a ha b hb => ?_⟩, hperm.symm⟩
  · rw [(hperm.map Extent.offset).nodup_iff]
    exact List.pairwise_map.mpr (t.sorted.imp fun hlt => Nat.ne_of_lt hlt)
  · exact h.laid.nonempty e (hperm.mem_iff.mp he)
  · exact h.laid.within e (hperm.mem_iff.mp he)
  · exact h.laid.apart a (hperm.mem_iff.mp ha) b (hperm.mem_iff.mp hb)

/-- What is read are `u64`s. -/
theorem fits_of_isArrayOf {json : Json} (h : IsArrayOf json es) : ∀ e ∈ es, e.Fits := by
  intro e he
  obtain ⟨values, -, hvalues⟩ := h
  have hmem : some e ∈ values.map Extent.fromJson := by
    rw [hvalues]
    exact List.mem_map_of_mem he
  obtain ⟨value, -, hvalue⟩ := List.mem_map.mp hmem
  exact Extent.fits_of_fromJson hvalue

theorem valid_of_fromJson {json : Json} (h : fromJson json = .ok t) : t.Valid := by
  obtain ⟨es, hform, htry⟩ := fromJson_eq_ok.mp h
  obtain ⟨-, hlaid, hperm⟩ := tryFrom_eq_ok.mp htry
  have hfits : ∀ e ∈ es, e.Fits := by
    rcases hform with harray | ⟨_, _, _, _, _, harray⟩
    · exact fits_of_isArrayOf harray
    · exact fits_of_isArrayOf harray
  exact ⟨⟨fun e he => hlaid.nonempty e (hperm.mem_iff.mp he),
    fun e he => hlaid.within e (hperm.mem_iff.mp he),
    fun a ha b hb => hlaid.apart a (hperm.mem_iff.mp ha) b (hperm.mem_iff.mp hb)⟩,
    fun e he => hfits e (hperm.mem_iff.mp he)⟩

/-- Both wire forms of a well-formed tree decode to it, the old one with its extents in any
order. A JSON value decodes exactly if it is one of the forms with extents that make a
tree, and the tree is well-formed. -/
theorem json_wire_compatible :
    (∀ t : ExtentTree, t.Valid → fromJson t.toJson = .ok t) ∧
    (∀ (t : ExtentTree) (es : List Extent), t.Valid → es.Perm t.extents →
      fromJson (.arr (es.map Extent.toJson)) = .ok t) ∧
    (∀ json, (∃ t, fromJson json = .ok t) ↔ ∃ es, (IsArrayOf json es ∨ IsVersionOneOf json es) ∧
      (es.map Extent.offset).Nodup ∧ Laid es) ∧
    ∀ json t, fromJson json = .ok t → t.Valid := by
  refine ⟨fun t h => ?_, fun t es h hperm => ?_, fun json => ?_, fun json t => valid_of_fromJson⟩
  · refine fromJson_eq_ok.mpr ⟨t.extents, .inr ⟨_, _, rfl, rfl, rfl, isArrayOf_toJson h.fits⟩, ?_⟩
    exact h.tryFrom_perm (.refl _)
  · refine fromJson_eq_ok.mpr ⟨es, .inl (isArrayOf_toJson fun e he => ?_), h.tryFrom_perm hperm⟩
    exact h.fits e (hperm.mem_iff.mp he)
  · constructor
    · rintro ⟨t, h⟩
      obtain ⟨es, hform, htry⟩ := fromJson_eq_ok.mp h
      obtain ⟨hnodup, hlaid, -⟩ := tryFrom_eq_ok.mp htry
      exact ⟨es, hform, hnodup, hlaid⟩
    · rintro ⟨es, hform, hnodup, hlaid⟩
      obtain ⟨t, hcollect⟩ := collect_total (t := empty) hnodup fun _ _ _ => nofun
      have hperm := (collect_eq_ok.mp hcollect).2.2
      exact ⟨t, fromJson_eq_ok.mpr ⟨es, hform, tryFrom_eq_ok.mpr ⟨hnodup, hlaid, hperm⟩⟩⟩

theorem json_wire_compatible_edge :
    fromJson (.arr [(Extent.local 4 2 (.ofByte 1)).toJson, (Extent.ufsRange 0 4 "k" "v" 7).toJson])
      = .ok ⟨[.ufsRange 0 4 "k" "v" 7, .local 4 2 (.ofByte 1)], by decide⟩ := by
  refine json_wire_compatible.2.1 _ [.local 4 2 (.ofByte 1), .ufsRange 0 4 "k" "v" 7]
    ⟨⟨?_, ?_, ?_⟩, ?_⟩ (.swap ..)
  · decide
  · decide
  · decide
  · simp [Extent.Fits, u64Max]

end ExtentTree

end FluxFS
