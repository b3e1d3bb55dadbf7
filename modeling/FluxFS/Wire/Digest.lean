import FluxFS.Lib.Frames
import FluxFS.Lib.Text
import FluxFS.Wire.ExtentJson

/-!
# Digest — the root digest of a manifest

`Manifest::root_digest` hashes a byte encoding of the manifest. The encoding has fixed
fields and length-prefixed texts, so it can be taken apart again, and two manifests with
one encoding are the same. A flush intent remembers the digest, and `complete_flush_intent`
goes on only with the manifest of that digest.
-/

namespace FluxFS

open Kit

/-- `push_bytes`. -/
def pushBytes (bytes : Bytes) : Bytes := toLeBytes 8 bytes.length ++ bytes

/-- The bytes that the digest takes of an extent. -/
def Extent.encode : Extent → Bytes
  | .local offset len chunk => 0 :: (toLeBytes 8 offset ++ (toLeBytes 8 len ++ chunk.bytes))
  | .ufsRange offset len ufsKey ufsVersion offsetInObject =>
    1 :: (toLeBytes 8 offset ++ (toLeBytes 8 len ++ (pushBytes (utf8 ufsKey) ++
      (pushBytes (utf8 ufsVersion) ++ toLeBytes 8 offsetInObject))))

/-- The bytes that `root_digest` hashes. -/
def Manifest.encode (m : Manifest) : Bytes :=
  utf8 "fluxfs-manifest-v1\x00" ++ (toLeBytes 8 m.inode ++
    (toLeBytes 8 m.gen ++ (toLeBytes 8 m.size ++
    (toLeBytes 8 m.extents.extents.length ++ m.extents.extents.flatMap Extent.encode))))

/-- `Manifest::root_digest`. -/
def Manifest.rootDigest (hash : Bytes → ChunkId) (m : Manifest) : ChunkId := hash m.encode

/-- The intent that `flush_inode` makes for a manifest. -/
def newFlushIntent (hash : Bytes → ChunkId) (flushId : FlushId) (headGen : DataGen)
    (manifest : Manifest) (expectedUfsVersion : Option UfsVersion) (targetDigest : ChunkId) :
    FlushIntent :=
  ⟨flushId, headGen, manifest.rootDigest hash, expectedUfsVersion, targetDigest⟩

/-- The check of `complete_flush_intent` that the manifest is the intent's. -/
def snapshotUnchanged (hash : Bytes → ChunkId) (manifest : Manifest) (intent : FlushIntent) :
    Bool :=
  manifest.rootDigest hash = intent.snapshotManifestRoot

/-! ## Taking an encoding apart -/

/-- Numbers are `u64`s, and so are the lengths of texts. -/
def Extent.Encodable : Extent → Prop
  | .local offset len _ => offset ≤ u64Max ∧ len ≤ u64Max
  | .ufsRange offset len ufsKey ufsVersion offsetInObject =>
    offset ≤ u64Max ∧ len ≤ u64Max ∧ (utf8 ufsKey).length ≤ u64Max ∧
      (utf8 ufsVersion).length ≤ u64Max ∧ offsetInObject ≤ u64Max

/-- Every number of the manifest fits its field. -/
structure Manifest.Encodable (m : Manifest) : Prop where
  inode : m.inode ≤ u64Max
  gen : m.gen ≤ u64Max
  size : m.size ≤ u64Max
  extents : ∀ e ∈ m.extents.extents, e.Encodable

theorem lt_word {n : Nat} (h : n ≤ u64Max) : n < 256 ^ 8 := by
  rw [u64Max] at h
  omega

theorem utf8_inj {s t : String} (h : utf8 s = utf8 t) : s = t :=
  Option.some.inj ((fromUtf8_eq_some.mpr rfl).symm.trans (fromUtf8_eq_some.mpr h))

/-- An extent shows where it ends. -/
theorem delimits_extent : Delimits Extent.Encodable Extent.encode := by
  intro a b r r' ha hb h
  have word : Delimits (· < 256 ^ 8) (toLeBytes 8) := delimits_word 8
  cases a with
  | «local» offset len chunk =>
    cases b with
    | «local» offset' len' chunk' =>
      simp only [Extent.encode, List.cons_append, List.append_assoc, List.cons.injEq, true_and]
        at h
      obtain ⟨rfl, h₁⟩ := word (lt_word ha.1) (lt_word hb.1) h
      obtain ⟨rfl, h₂⟩ := word (lt_word ha.2) (lt_word hb.2) h₁
      obtain ⟨hchunk, hrest⟩ := delimits_fixed 32 chunk.length_eq chunk'.length_eq h₂
      cases chunk
      cases chunk'
      cases hchunk
      exact ⟨rfl, hrest⟩
    | ufsRange => cases h
  | ufsRange offset len key version objBase =>
    cases b with
    | «local» => cases h
    | ufsRange offset' len' key' version' objBase' =>
      obtain ⟨hoffset, hlen, hkey, hversion, hobject⟩ := ha
      obtain ⟨hoffset', hlen', hkey', hversion', hobject'⟩ := hb
      simp only [Extent.encode, List.cons_append, List.append_assoc, List.cons.injEq, true_and]
        at h
      obtain ⟨rfl, h₁⟩ := word (lt_word hoffset) (lt_word hoffset') h
      obtain ⟨rfl, h₂⟩ := word (lt_word hlen) (lt_word hlen') h₁
      obtain ⟨hk, h₃⟩ := delimits_blob 8 (lt_word hkey) (lt_word hkey') h₂
      obtain ⟨hv, h₄⟩ := delimits_blob 8 (lt_word hversion) (lt_word hversion') h₃
      obtain ⟨rfl, hrest⟩ := word (lt_word hobject) (lt_word hobject') h₄
      rw [utf8_inj hk, utf8_inj hv]
      exact ⟨rfl, hrest⟩

theorem Manifest.encode_inj {m m' : Manifest} (hm : m.Encodable) (hm' : m'.Encodable)
    (h : m.encode = m'.encode) : m = m' := by
  have word : Delimits (· < 256 ^ 8) (toLeBytes 8) := delimits_word 8
  obtain ⟨-, h⟩ := List.append_inj h rfl
  obtain ⟨hinode, h⟩ := word (lt_word hm.inode) (lt_word hm'.inode) h
  obtain ⟨hgen, h⟩ := word (lt_word hm.gen) (lt_word hm'.gen) h
  obtain ⟨hsize, h⟩ := word (lt_word hm.size) (lt_word hm'.size) h
  -- the number of extents is not needed, each shows where it ends
  obtain ⟨-, h⟩ := List.append_inj h (by rw [length_toLeBytes, length_toLeBytes])
  have hne : ∀ e : Extent, e.encode ≠ [] := by
    intro e
    cases e with
    | «local» => nofun
    | ufsRange => nofun
  have hextents := delimits_extent.flatMap_inj hne hm.extents hm'.extents h
  obtain ⟨inode, gen, size, ⟨extents, sorted⟩⟩ := m
  obtain ⟨inode', gen', size', ⟨extents', sorted'⟩⟩ := m'
  cases hinode
  cases hgen
  cases hsize
  cases hextents
  rfl

/-! ## The snapshot check -/

theorem snapshotUnchanged_iff {hash : Bytes → ChunkId} {m m' : Manifest} {flushId : FlushId}
    {gen : DataGen} {expected : Option UfsVersion} {digest : ChunkId} :
    snapshotUnchanged hash m' (newFlushIntent hash flushId gen m expected digest) = true ↔
      hash m'.encode = hash m.encode :=
  decide_eq_true_iff

/-- The hashed bytes are those of one manifest only. So if the hash does not collide on
them, an intent's snapshot check passes for the manifest it was made for and for no other. -/
theorem root_digest_identifies (hash : Bytes → ChunkId) (m m' : Manifest) (hm : m.Encodable)
    (hm' : m'.Encodable) :
    (m.encode = m'.encode → m = m') ∧
    (Set.InjOn hash {m.encode, m'.encode} → ∀ flushId gen expected digest,
      snapshotUnchanged hash m' (newFlushIntent hash flushId gen m expected digest) = true ↔
        m' = m) := by
  constructor
  · exact Manifest.encode_inj hm hm'
  · intro hfree flushId gen expected digest
    rw [snapshotUnchanged_iff]
    constructor
    · intro h
      have hencode : m'.encode = m.encode := hfree (by simp) (by simp) h
      exact Manifest.encode_inj hm' hm hencode
    · intro h
      rw [h]

/-- A manifest of one UFS range. -/
def rangeManifest (ufsKey ufsVersion : String) : Manifest :=
  ⟨5, 2, 4, ⟨[.ufsRange 0 4 ufsKey ufsVersion 7], List.pairwise_singleton _ _⟩⟩

theorem rangeManifest_encodable {ufsKey ufsVersion : String} (hkey : (utf8 ufsKey).length ≤ u64Max)
    (hversion : (utf8 ufsVersion).length ≤ u64Max) :
    (rangeManifest ufsKey ufsVersion).Encodable where
  inode := show 5 ≤ u64Max by decide
  gen := show 2 ≤ u64Max by decide
  size := show 4 ≤ u64Max by decide
  extents := by
    intro e he
    rw [List.mem_singleton.mp he]
    exact ⟨by decide, by decide, hkey, hversion, by decide⟩

/-- blake3 at the encodings of two manifests and at the bytes 1, 2, 3, 4. -/
def borderHash (data : Bytes) : ChunkId :=
  if data = (rangeManifest "ab" "c").encode then
    ⟨[89, 41, 180, 56, 219, 229, 96, 252, 246, 124, 203, 70, 186, 85, 22, 217,
      36, 220, 167, 125, 20, 255, 69, 191, 160, 150, 186, 114, 5, 62, 223, 151], rfl⟩
  else if data = (rangeManifest "a" "bc").encode then
    ⟨[131, 198, 179, 158, 68, 243, 242, 205, 142, 222, 128, 190, 88, 200, 22, 24,
      225, 59, 190, 64, 225, 148, 251, 88, 34, 251, 1, 122, 220, 195, 164, 112], rfl⟩
  else
    ⟨[99, 120, 29, 23, 20, 37, 163, 99, 18, 250, 5, 141, 135, 18, 213, 208,
      81, 53, 169, 145, 236, 32, 53, 28, 233, 214, 92, 219, 25, 160, 84, 50], rfl⟩

/-- The border between the two texts is part of what is hashed. -/
theorem root_digest_identifies_border :
    (rangeManifest "ab" "c").encode ≠ (rangeManifest "a" "bc").encode ∧
    snapshotUnchanged borderHash (rangeManifest "a" "bc") (newFlushIntent borderHash 1 2
      (rangeManifest "ab" "c") none (borderHash [1, 2, 3, 4])) = false := by
  have hne : rangeManifest "a" "bc" ≠ rangeManifest "ab" "c" := by decide +kernel
  obtain ⟨hencode, hcheck⟩ := root_digest_identifies borderHash (rangeManifest "ab" "c")
    (rangeManifest "a" "bc") (rangeManifest_encodable (by decide +kernel) (by decide +kernel))
    (rangeManifest_encodable (by decide +kernel) (by decide +kernel))
  have hfree : Set.InjOn borderHash
      {(rangeManifest "ab" "c").encode, (rangeManifest "a" "bc").encode} := by
    have hhash : borderHash (rangeManifest "ab" "c").encode ≠
        borderHash (rangeManifest "a" "bc").encode := by decide +kernel
    rintro x (rfl | rfl) y (rfl | rfl) h
    · rfl
    · exact absurd h hhash
    · exact absurd h.symm hhash
    · rfl
  exact ⟨fun h => hne (hencode h).symm,
    Bool.eq_false_iff.mpr fun h => hne ((hcheck hfree _ _ _ _).mp h)⟩

end FluxFS
