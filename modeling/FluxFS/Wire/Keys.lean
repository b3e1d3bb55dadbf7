import FluxFS.Lib.Text
import FluxFS.Meta.Namespace

/-!
# Keys — the texts that key the metadata tables

The dentry and xattr tables are keyed by `{id:016x}\0{name}`. The `meta` table holds the
counters and the write reservations, tombstones and open presences, told apart by the front
of the key. A scan takes the keys that start with a text (`prefix_iter`). `Tables` has the
pairs in place of the texts: this file shows that nothing is lost.
-/

namespace FluxFS

open Kit

/-! ## The keys -/

/-- `{front}{id:016x}{sep}`. -/
def ownerPrefix (front : String) (sep : Char) (id : InodeId) : String :=
  front ++ String.ofList (paddedHex 16 id) ++ String.singleton sep

/-- `dentry_prefix`. -/
def dentryPrefix (parent : InodeId) : String := ownerPrefix "" '\x00' parent

/-- `dentry_key`. -/
def dentryKey (parent : InodeId) (name : String) : String := dentryPrefix parent ++ name

/-- `xattr_prefix`. -/
def xattrPrefix (inode : InodeId) : String := ownerPrefix "" '\x00' inode

/-- `xattr_key`. -/
def xattrKey (inode : InodeId) (name : String) : String := xattrPrefix inode ++ name

/-- The key of a dentry row. -/
def NameKey.dentryKey (k : NameKey) : String := FluxFS.dentryKey k.owner k.name

/-- The key of an xattr row. -/
def NameKey.xattrKey (k : NameKey) : String := FluxFS.xattrKey k.owner k.name

/-- The prefix of reservation rows. -/
def reservationPrefix : String := "write_reservation:"

/-- The prefix of tombstone rows. -/
def tombstonePrefix : String := "gc_tombstone:"

/-- The prefix of open-presence rows. -/
def openPresencePrefix : String := "open_presence:"

/-- `open_presence_inode_prefix`. -/
def openPresenceInodePrefix (inode : InodeId) : String := ownerPrefix openPresencePrefix ':' inode

/-- `open_presence_key`. -/
def openPresenceKey (inode : InodeId) (sessionId : String) : String :=
  openPresenceInodePrefix inode ++ sessionId

/-- `reservation_key`. -/
def reservationKey (ticket : WriteTicketId) : String :=
  reservationPrefix ++ String.ofList (paddedHex 16 ticket)

/-- `tombstone_key`. -/
def tombstoneKey (chunk : ChunkId) : String := tombstonePrefix ++ chunk.toHex

/-! ## The parsers -/

/-- `split_once`, and the text before the separator as a hexadecimal id. -/
def parseOwner (sep : Char) (bad : String) (key : List Char) :
    Except FluxError (InodeId × String) :=
  match splitOnce sep key with
  | none => .error (.metaErr bad)
  | some (hex, name) =>
    match parseUint u64Max 16 hex with
    | none => .error (.metaErr (parseUintError u64Max 16 hex))
    | some id => .ok (id, String.ofList name)

/-- The key reader of the snapshot's dentries. -/
def parseDentryKey (key : String) : Except FluxError (InodeId × String) :=
  parseOwner '\x00' "bad dentry key" key.toList

/-- The key reader of `readdir`. -/
def dentryName (key : String) : Except FluxError String :=
  match splitOnce '\x00' key.toList with
  | none => .error (.metaErr "bad dentry key")
  | some (_, name) => .ok (String.ofList name)

/-- `parse_xattr_key`. -/
def parseXattrKey (key : String) : Except FluxError (InodeId × String) :=
  parseOwner '\x00' "bad xattr key" key.toList

/-- `parse_open_presence_key`. -/
def parseOpenPresenceKey (key : String) : Except FluxError (InodeId × String) :=
  match openPresencePrefix.toList.isPrefixOf? key.toList with
  | none => .error (.metaErr "bad open-presence key prefix")
  | some rest => do
    let (inode, sessionId) ← parseOwner ':' "bad open-presence key" rest
    validateSessionId sessionId
    pure (inode, sessionId)

/-- The first two bytes of a text and the rest. A slice that cuts a character panics. -/
def sliceTwo : List Char → Option (List Char × List Char)
  | [] => none
  | [c] => if c.utf8Size = 2 then some ([c], []) else none
  | c :: d :: rest =>
    if c.utf8Size = 2 then some ([c], d :: rest)
    else if c.utf8Size = 1 ∧ d.utf8Size = 1 then some ([c, d], rest)
    else none

/-- The loop of `chunk_from_hex`, `none` where it panics. -/
def readHexBytes : (k : Nat) → List Char →
    Option (Except FluxError { bytes : Bytes // bytes.length = k })
  | 0, _ => some (.ok ⟨[], rfl⟩)
  | k + 1, cs => do
    let (slice, rest) ← sliceTwo cs
    match parseUint 255 16 slice with
    | none => some (.error (.metaErr (parseUintError 255 16 slice)))
    | some byte =>
      let result ← readHexBytes k rest
      some (result.map fun tail => ⟨UInt8.ofNat byte :: tail.1,
        by rw [List.length_cons, tail.2]⟩)

/-- `chunk_from_hex`. -/
def chunkFromHex (value : String) : Option (Except FluxError ChunkId) :=
  if value.utf8ByteSize ≠ 64 then some (.error (.metaErr "bad tombstone chunk id"))
  else (readHexBytes 32 value.toList).map (·.map fun raw => ⟨raw.1, raw.2⟩)

/-! ## The shared table -/

/-- The keys of the `meta` table. -/
inductive MetaKey where
  | reservation (ticket : WriteTicketId)
  | tombstone (chunk : ChunkId)
  | openPresence (inode : InodeId) (sessionId : String)
  | nextInode
  | nextManifest
  | gcLease
  | metaSchemaVersion
  | workerMembership
  | smLastApplied
  | smLastMembership
deriving DecidableEq, Repr

namespace MetaKey

/-- The stored text of a key. -/
def text : MetaKey → String
  | reservation ticket => reservationKey ticket
  | tombstone chunk => tombstoneKey chunk
  | openPresence inode sessionId => openPresenceKey inode sessionId
  | nextInode => "next_inode"
  | nextManifest => "next_manifest"
  | gcLease => "gc_lease"
  | metaSchemaVersion => "meta_schema_version"
  | workerMembership => "worker_membership"
  | smLastApplied => "raft_sm_last_applied"
  | smLastMembership => "raft_sm_last_membership"

/-- Ids are `u64`s, and only checked session ids are stored. -/
def Storable : MetaKey → Prop
  | reservation ticket => ticket ≤ u64Max
  | openPresence inode sessionId => inode ≤ u64Max ∧ sessionIdOk sessionId = true
  | _ => True

end MetaKey

/-- The three families that are scanned. -/
inductive MetaFamily where
  | reservations
  | tombstones
  | openPresences
deriving DecidableEq, Repr

namespace MetaFamily

/-- The prefix a scan of the family starts from. -/
def front : MetaFamily → String
  | reservations => reservationPrefix
  | tombstones => tombstonePrefix
  | openPresences => openPresencePrefix

end MetaFamily

/-- The family a key belongs to. -/
def MetaKey.family : MetaKey → Option MetaFamily
  | .reservation _ => some .reservations
  | .tombstone _ => some .tombstones
  | .openPresence _ _ => some .openPresences
  | _ => none

/-- An open presence of the inode. -/
def MetaKey.isPresenceOf (inode : InodeId) : MetaKey → Bool
  | .openPresence id _ => id = inode
  | _ => false

/-- `prefix_iter`: the rows whose key starts with a text. LMDB compares bytes; a text starts
with the bytes of another exactly if it starts with its characters. -/
def prefixIter {V : Type} (table : List (String × V)) (front : String) : List (String × V) :=
  table.filter fun row => front.toList.isPrefixOf row.1.toList

/-- The rows of a table under their keys' texts. -/
def rowsUnder {K V : Type} (text : K → String) (rows : List (K × V)) : List (String × V) :=
  rows.map fun (k, v) => (text k, v)

/-- `directory_has_children_in_txn` on the stored rows. -/
def directoryHasChildrenScan {V : Type} (dentries : List (String × V)) (dir : InodeId) : Bool :=
  !(prefixIter dentries (dentryPrefix dir)).isEmpty

/-- `has_open_presence_in_txn` on the stored rows. -/
def hasOpenPresenceScan {V : Type} («meta» : List (String × V)) (inode : InodeId) : Bool :=
  !(prefixIter «meta» (openPresenceInodePrefix inode)).isEmpty

/-! ## Keys of an owner -/

section
variable {front name name' bad : String} {sep : Char} {id id' : InodeId}

theorem lt_hex16 {n : Nat} (h : n ≤ u64Max) : n < 16 ^ 16 := by
  rw [u64Max] at h
  omega

theorem toList_ownerPrefix (front : String) (sep : Char) (id : InodeId) :
    (ownerPrefix front sep id).toList = front.toList ++ (paddedHex 16 id ++ [sep]) := by
  rw [ownerPrefix, String.toList_append, String.toList_append, String.toList_ofList,
    String.toList_singleton, List.append_assoc]

theorem toList_ownerKey (front name : String) (sep : Char) (id : InodeId) :
    (ownerPrefix front sep id ++ name).toList =
      front.toList ++ (paddedHex 16 id ++ sep :: name.toList) := by
  rw [String.toList_append, toList_ownerPrefix]
  simp only [List.append_assoc, List.singleton_append]

theorem splitOnce_owner (hsep : digitVal? 16 sep = none) (name : List Char) :
    splitOnce sep (paddedHex 16 id ++ sep :: name) = some (paddedHex 16 id, name) :=
  splitOnce_eq_some.mpr ⟨rfl, not_mem_paddedHex hsep⟩

theorem parseOwner_owner (hid : id ≤ u64Max) (hsep : digitVal? 16 sep = none) :
    parseOwner sep bad (paddedHex 16 id ++ sep :: name.toList) = .ok (id, name) := by
  rw [parseOwner, splitOnce_owner hsep]
  dsimp only
  rw [parseUint_paddedHex 16 hid, String.ofList_toList]

/-- Fronts of one length are compared as a whole, so a scan finds its owner only. -/
theorem ownerPrefix_prefix_iff (hid : id ≤ u64Max) (hid' : id' ≤ u64Max) :
    (ownerPrefix front sep id).toList <+: (ownerPrefix front sep id' ++ name).toList ↔
      id = id' := by
  constructor
  · rintro ⟨rest, h⟩
    rw [String.toList_append, toList_ownerPrefix, toList_ownerPrefix] at h
    have hlength : (front.toList ++ (paddedHex 16 id ++ [sep])).length =
        (front.toList ++ (paddedHex 16 id' ++ [sep])).length := by
      simp only [List.length_append, length_paddedHex (by decide) (lt_hex16 hid),
        length_paddedHex (by decide) (lt_hex16 hid')]
    have hfront := List.append_cancel_left (List.append_inj h hlength).1
    exact paddedHex_inj.mp (List.append_cancel_right hfront)
  · rintro rfl
    rw [String.toList_append]
    exact List.prefix_append ..

theorem ownerKey_inj (hid : id ≤ u64Max) (hid' : id' ≤ u64Max)
    (h : ownerPrefix front sep id ++ name = ownerPrefix front sep id' ++ name') :
    id = id' ∧ name = name' := by
  have hfront : (ownerPrefix front sep id).toList <+:
    (ownerPrefix front sep id' ++ name').toList := by
    rw [← h, String.toList_append]
    exact List.prefix_append ..
  obtain rfl := (ownerPrefix_prefix_iff hid hid').mp hfront
  exact ⟨rfl, String.append_right_inj _ |>.mp h⟩

theorem parseDentryKey_dentryKey (hid : id ≤ u64Max) (name : String) :
    parseDentryKey (dentryKey id name) = .ok (id, name) := by
  rw [parseDentryKey, dentryKey, dentryPrefix, toList_ownerKey]
  exact parseOwner_owner hid (by decide)

theorem dentryName_dentryKey (id : InodeId) (name : String) :
    dentryName (dentryKey id name) = .ok name := by
  have hkey : (dentryKey id name).toList = paddedHex 16 id ++ '\x00' :: name.toList := by
    rw [dentryKey, dentryPrefix, toList_ownerKey]
    rfl
  rw [dentryName, hkey, splitOnce_owner (by decide)]
  exact congrArg _ String.ofList_toList

theorem parseXattrKey_xattrKey (hid : id ≤ u64Max) (name : String) :
    parseXattrKey (xattrKey id name) = .ok (id, name) := by
  rw [parseXattrKey, xattrKey, xattrPrefix, toList_ownerKey]
  exact parseOwner_owner hid (by decide)

theorem parseOpenPresenceKey_openPresenceKey (hid : id ≤ u64Max)
    (hsession : sessionIdOk name = true) :
    parseOpenPresenceKey (openPresenceKey id name) = .ok (id, name) := by
  have hstrip : openPresencePrefix.toList.isPrefixOf? (openPresenceKey id name).toList =
      some (paddedHex 16 id ++ ':' :: name.toList) := by
    rw [openPresenceKey, openPresenceInodePrefix, toList_ownerKey]
    exact List.isPrefixOf?_eq_some_iff_append_eq.mpr rfl
  rw [parseOpenPresenceKey, hstrip]
  dsimp only
  have hvalid : validateSessionId name = .ok () := if_pos hsession
  rw [parseOwner_owner hid (by decide)]
  exact congrArg (· >>= fun _ => pure (id, name)) hvalid

end

/-! ## Chunk ids -/

theorem sliceTwo_hex (a b : Char) (rest : List Char) (ha : a.utf8Size = 1) (hb : b.utf8Size = 1) :
    sliceTwo (a :: b :: rest) = some ([a, b], rest) := by
  rw [sliceTwo, if_neg (by omega), if_pos ⟨ha, hb⟩]

theorem ChunkId.utf8Size_hexDigit {d : Nat} (hd : d < 16) : (hexDigit d).utf8Size = 1 := by
  have hall : ∀ d < 16, (hexDigit d).utf8Size = 1 := by decide
  exact hall d hd

/-- The two digits of a byte are read back. -/
theorem parseUint_hexDigits (b : UInt8) :
    parseUint 255 16 [ChunkId.hexDigit (b.toNat / 16), ChunkId.hexDigit (b.toNat % 16)] =
      some b.toNat := by
  have hall : ∀ n < 256, parseUint 255 16 [ChunkId.hexDigit (n / 16), ChunkId.hexDigit (n % 16)] =
      some n := by decide +kernel
  exact hall b.toNat b.toNat_lt

/-- The digits of `to_hex`. -/
def ChunkId.hexDigits (bytes : Bytes) : List Char :=
  bytes.flatMap fun b => [hexDigit (b.toNat / 16), hexDigit (b.toNat % 16)]

theorem ChunkId.hexDigits_cons (b : UInt8) (bytes : Bytes) :
    hexDigits (b :: bytes) =
      hexDigit (b.toNat / 16) :: hexDigit (b.toNat % 16) :: hexDigits bytes :=
  rfl

theorem ChunkId.utf8Len_hexDigits (bytes : Bytes) :
    String.utf8Len (hexDigits bytes) = 2 * bytes.length := by
  induction bytes with
  | nil => rfl
  | cons b bytes ih =>
    have hb := b.toNat_lt
    rw [hexDigits_cons, String.utf8Len_cons, String.utf8Len_cons, ih,
      utf8Size_hexDigit (by omega), utf8Size_hexDigit (by omega), List.length_cons]
    omega

theorem readHexBytes_hexDigits {bytes : Bytes} {n : Nat} (h : bytes.length = n) :
    readHexBytes n (ChunkId.hexDigits bytes) = some (.ok ⟨bytes, h⟩) := by
  induction bytes generalizing n with
  | nil =>
    subst h
    rfl
  | cons b bytes ih =>
    subst h
    have hb := b.toNat_lt
    have hslice := sliceTwo_hex _ _ (ChunkId.hexDigits bytes)
      (ChunkId.utf8Size_hexDigit (d := b.toNat / 16) (by omega))
      (ChunkId.utf8Size_hexDigit (d := b.toNat % 16) (by omega))
    have hread : readHexBytes (bytes.length + 1) (ChunkId.hexDigits (b :: bytes)) =
        (readHexBytes bytes.length (ChunkId.hexDigits bytes)).bind fun result =>
          some (result.map fun tail =>
            ⟨UInt8.ofNat b.toNat :: tail.1, by rw [List.length_cons, tail.2]⟩) := by
      rw [ChunkId.hexDigits_cons, readHexBytes, hslice, Option.bind_eq_bind, Option.bind_some]
      dsimp only
      rw [parseUint_hexDigits]
      rfl
    refine hread.trans ?_
    rw [ih rfl, Option.bind_some]
    simp [Except.map]

theorem chunkFromHex_toHex (chunk : ChunkId) : chunkFromHex chunk.toHex = some (.ok chunk) := by
  have htext : chunk.toHex = String.ofList (ChunkId.hexDigits chunk.bytes) := rfl
  have hsize : chunk.toHex.utf8ByteSize = 64 := by
    rw [htext, String.utf8ByteSize_ofList, ChunkId.utf8Len_hexDigits, chunk.length_eq]
  rw [chunkFromHex, if_neg (not_not_intro hsize), htext, String.toList_ofList,
    readHexBytes_hexDigits chunk.length_eq]
  rfl

theorem ChunkId.toHex_inj {c c' : ChunkId} (h : c.toHex = c'.toHex) : c = c' := by
  have hread := chunkFromHex_toHex c
  rw [h, chunkFromHex_toHex] at hread
  cases hread
  rfl

/-! ## Keys of the shared table -/

section
variable {k k' : MetaKey} {f : MetaFamily} {id : InodeId}

theorem MetaKey.text_family (h : k.family = some f) : f.front.toList <+: k.text.toList := by
  cases k with
  | reservation ticket =>
    cases h
    exact String.toList_append ▸ List.prefix_append ..
  | tombstone chunk =>
    cases h
    exact String.toList_append ▸ List.prefix_append ..
  | openPresence inode sessionId =>
    cases h
    rw [text, openPresenceKey, openPresenceInodePrefix, toList_ownerKey]
    exact List.prefix_append ..
  | _ => cases h

/-- The keys outside the families. -/
def MetaKey.singles : List MetaKey :=
  [nextInode, nextManifest, gcLease, metaSchemaVersion, workerMembership, smLastApplied,
    smLastMembership]

theorem MetaKey.mem_singles (h : k.family = none) : k ∈ singles := by
  cases k with
  | reservation | tombstone | openPresence => cases h
  | _ => decide

theorem MetaKey.front_prefix_iff (k : MetaKey) (f : MetaFamily) :
    f.front.toList <+: k.text.toList ↔ k.family = some f := by
  refine ⟨fun h => ?_, text_family⟩
  cases hfamily : k.family with
  | none =>
    have hsingles : ∀ k ∈ singles, ¬ f.front.toList <+: k.text.toList := by
      cases f with
      | reservations => decide
      | tombstones => decide
      | openPresences => decide
    exact absurd h (hsingles k (mem_singles hfamily))
  | some g =>
    -- two fronts of one text: one starts with the other, so they are the same
    have hfronts := List.prefix_or_prefix_of_prefix h (text_family hfamily)
    revert hfronts
    cases f <;> cases g <;> decide

/-- A key's text says which key it is. -/
theorem MetaKey.text_inj (hk : k.Storable) (hk' : k'.Storable) (h : k.text = k'.text) : k = k' := by
  have hfamily : k.family = k'.family := by
    ext f
    rw [← front_prefix_iff, ← front_prefix_iff, h]
  cases hnone : k.family with
  | none =>
    have hsingles : ∀ a ∈ singles, ∀ b ∈ singles, a.text = b.text → a = b := by decide
    exact hsingles k (mem_singles hnone) k' (mem_singles (hfamily ▸ hnone)) h
  | some f =>
    cases k with
    | reservation ticket =>
      cases k' with
      | reservation ticket' =>
        have htext := String.append_right_inj _ |>.mp h
        rw [paddedHex_inj.mp (String.ofList_injective htext)]
      | _ => cases hfamily
    | tombstone chunk =>
      cases k' with
      | tombstone chunk' => rw [ChunkId.toHex_inj (String.append_right_inj _ |>.mp h)]
      | _ => cases hfamily
    | openPresence inode sessionId =>
      cases k' with
      | openPresence inode' sessionId' =>
        obtain ⟨rfl, rfl⟩ := ownerKey_inj hk.1 hk'.1 h
        rfl
      | _ => cases hfamily
    | _ => cases hnone

theorem MetaKey.isPresenceOf_iff : k.isPresenceOf id = true ↔ ∃ session, k =
    .openPresence id session := by
  constructor
  · intro h
    cases k with
    | openPresence inode sessionId =>
      obtain rfl := of_decide_eq_true h
      exact ⟨sessionId, rfl⟩
    | _ => cases h
  · rintro ⟨session, rfl⟩
    exact decide_eq_true rfl

/-- The scan for an inode's presences finds its presences. -/
theorem MetaKey.presence_prefix_iff (hid : id ≤ u64Max) (hk : k.Storable) :
    (openPresenceInodePrefix id).toList <+: k.text.toList ↔ k.isPresenceOf id = true := by
  rw [isPresenceOf_iff]
  constructor
  · intro h
    have hfront : openPresencePrefix.toList <+: k.text.toList := by
      refine List.IsPrefix.trans ?_ h
      rw [openPresenceInodePrefix, toList_ownerPrefix]
      exact List.prefix_append ..
    have hfamily := (front_prefix_iff k .openPresences).mp hfront
    cases k with
    | openPresence inode sessionId =>
      obtain rfl := (ownerPrefix_prefix_iff hid hk.1).mp h
      exact ⟨sessionId, rfl⟩
    | _ => cases hfamily
  · rintro ⟨session, rfl⟩
    exact (ownerPrefix_prefix_iff hid hk.1).mpr rfl

end

/-! ## Scans -/

theorem prefixIter_rowsUnder {K V : Type} {text : K → String} {front : String} (p : K → Bool)
    {rows : List (K × V)}
    (h : ∀ row ∈ rows, front.toList <+: (text row.1).toList ↔ p row.1 = true) :
    prefixIter (rowsUnder text rows) front = rowsUnder text (rows.filter (p ·.1)) := by
  induction rows with
  | nil => rfl
  | cons row rows ih =>
    have hrow := h row List.mem_cons_self
    have ih := ih fun row' hrow' => h row' (List.mem_cons_of_mem _ hrow')
    rw [← List.isPrefixOf_iff_prefix] at hrow
    have heq : front.toList.isPrefixOf (text row.1).toList = p row.1 := Bool.eq_iff_iff.mpr hrow
    simp only [prefixIter, rowsUnder, List.map_cons, List.filter_cons, heq] at ih ⊢
    split
    · rw [ih, List.map_cons]
    · exact ih

namespace Tables

/-- The stored rows of the dentry table. -/
def dentryRows (s : Tables) : List (String × InodeId) :=
  rowsUnder NameKey.dentryKey s.dentries.toList

/-- The keys of the `meta` table that stand for the tables of `s`. -/
def metaKeys (s : Tables) : List MetaKey :=
  MetaKey.singles ++ (s.reservations.rows.map fun r => .reservation r.ticket) ++
    (s.tombstones.rows.map fun t => .tombstone t.chunk) ++
    s.openPresence.toList.map fun row => .openPresence row.1.owner row.1.name

/-- The rows of the meta table. -/
def metaRows (s : Tables) : List (String × Unit) := rowsUnder MetaKey.text (s.metaKeys.map (·, ()))

/-- All ids of the keyed rows are `u64`s and all session ids were checked. -/
structure KeysStorable (s : Tables) : Prop where
  dentries : ∀ (k : NameKey) child, s.dentries[k]? = some child → k.owner ≤ u64Max
  meta_keys : ∀ k ∈ s.metaKeys, k.Storable

end Tables

theorem owner_scan {V : Type} {rows : List (NameKey × V)} {id : InodeId} (front : String)
    (sep : Char) (hrows : ∀ row ∈ rows, row.1.owner ≤ u64Max) (hid : id ≤ u64Max) :
    prefixIter (rowsUnder (fun k => ownerPrefix front sep k.owner ++ k.name) rows)
        (ownerPrefix front sep id) =
      rowsUnder (fun k => ownerPrefix front sep k.owner ++ k.name)
        (rows.filter (·.1.owner = id)) := by
  refine prefixIter_rowsUnder (fun k : NameKey => k.owner = id) fun row hrow => ?_
  rw [decide_eq_true_iff, eq_comm]
  exact ownerPrefix_prefix_iff hid (hrows row hrow)

theorem dentry_scan {V : Type} {rows : List (NameKey × V)} {dir : InodeId}
    (hrows : ∀ row ∈ rows, row.1.owner ≤ u64Max) (hdir : dir ≤ u64Max) :
    prefixIter (rowsUnder NameKey.dentryKey rows) (dentryPrefix dir) =
      rowsUnder NameKey.dentryKey (rows.filter (·.1.owner = dir)) :=
  owner_scan "" '\x00' hrows hdir

theorem xattr_scan {V : Type} {rows : List (NameKey × V)} {inode : InodeId}
    (hrows : ∀ row ∈ rows, row.1.owner ≤ u64Max) (hinode : inode ≤ u64Max) :
    prefixIter (rowsUnder NameKey.xattrKey rows) (xattrPrefix inode) =
      rowsUnder NameKey.xattrKey (rows.filter (·.1.owner = inode)) :=
  owner_scan "" '\x00' hrows hinode

theorem directoryHasChildren_scan {s : Tables} {dir : InodeId} (hs : s.KeysStorable)
    (hdir : dir ≤ u64Max) : directoryHasChildrenScan s.dentryRows dir =
      s.directoryHasChildren dir := by
  have hrows : ∀ row ∈ s.dentries.toList, row.1.owner ≤ u64Max := fun row hrow =>
    hs.dentries row.1 row.2 ((Table.mem_rows ..).mp hrow)
  rw [directoryHasChildrenScan, Tables.dentryRows, dentry_scan hrows hdir,
    Tables.directoryHasChildren, Tables.ownedKeys, rowsUnder, List.isEmpty_map, List.filter_map,
    List.isEmpty_map]
  rfl

theorem presence_scan {V : Type} {rows : List (MetaKey × V)} {inode : InodeId}
    (hrows : ∀ row ∈ rows, row.1.Storable) (hinode : inode ≤ u64Max) :
    prefixIter (rowsUnder MetaKey.text rows) (openPresenceInodePrefix inode) =
      rowsUnder MetaKey.text (rows.filter (·.1.isPresenceOf inode)) :=
  prefixIter_rowsUnder (MetaKey.isPresenceOf inode) fun row hrow =>
    MetaKey.presence_prefix_iff hinode (hrows row hrow)

theorem family_scan {V : Type} (rows : List (MetaKey × V)) (f : MetaFamily) :
    prefixIter (rowsUnder MetaKey.text rows) f.front =
      rowsUnder MetaKey.text (rows.filter (·.1.family = some f)) := by
  refine prefixIter_rowsUnder (fun k : MetaKey => k.family = some f) fun row _ => ?_
  rw [decide_eq_true_iff]
  exact MetaKey.front_prefix_iff row.1 f

theorem Tables.presence_mem_metaKeys {s : Tables} {inode : InodeId} {session : String} :
    MetaKey.openPresence inode session ∈ s.metaKeys ↔
      s.openPresence[NameKey.mk inode session]? = some () := by
  simp only [metaKeys, MetaKey.singles, List.mem_append, List.mem_map, List.mem_cons,
    List.not_mem_nil, reduceCtorEq, and_false, exists_false, or_false, false_or,
    MetaKey.openPresence.injEq, Prod.exists]
  constructor
  · rintro ⟨⟨_, _⟩, _, hrow, rfl, rfl⟩
    exact (Table.mem_rows ..).mp hrow
  · intro hrow
    exact ⟨⟨inode, session⟩, (), (Table.mem_rows ..).mpr hrow, rfl, rfl⟩

theorem hasOpenPresence_scan {s : Tables} {inode : InodeId} (hs : s.KeysStorable)
    (hinode : inode ≤ u64Max) : hasOpenPresenceScan s.metaRows inode = s.hasOpenPresence inode := by
  have hrows : ∀ row ∈ s.metaKeys.map (·, ()), row.1.Storable := by
    intro row hrow
    obtain ⟨k, hk, rfl⟩ := List.mem_map.mp hrow
    exact hs.meta_keys k hk
  rw [hasOpenPresenceScan, Tables.metaRows, presence_scan hrows hinode, rowsUnder, List.isEmpty_map,
    List.filter_map, List.isEmpty_map, Bool.eq_iff_iff, Tables.hasOpenPresence_iff,
    Bool.not_eq_true', List.isEmpty_eq_false_iff_exists_mem]
  constructor
  · rintro ⟨k, hk⟩
    obtain ⟨hmem, hpresence⟩ := List.mem_filter.mp hk
    obtain ⟨session, rfl⟩ := MetaKey.isPresenceOf_iff.mp hpresence
    exact ⟨session, Tables.presence_mem_metaKeys.mp hmem⟩
  · rintro ⟨session, hrow⟩
    refine ⟨.openPresence inode session, List.mem_filter.mpr ⟨?_, ?_⟩⟩
    · exact Tables.presence_mem_metaKeys.mpr hrow
    · exact MetaKey.isPresenceOf_iff.mpr ⟨session, rfl⟩

/-- Keys are read back as what they were made of, different keys have different texts, a
scan finds the rows of its owner or family and no others, and the two scans that ask
whether there is a row at all answer as the tables do. -/
theorem table_keys_isolate :
    (∀ id ≤ u64Max, ∀ name, parseDentryKey (dentryKey id name) = .ok (id, name) ∧
      dentryName (dentryKey id name) = .ok name ∧
      parseXattrKey (xattrKey id name) = .ok (id, name)) ∧
    (∀ inode ≤ u64Max, ∀ session, sessionIdOk session = true →
      parseOpenPresenceKey (openPresenceKey inode session) = .ok (inode, session)) ∧
    (∀ chunk, chunkFromHex chunk.toHex = some (.ok chunk)) ∧
    (∀ k k' : NameKey, k.owner ≤ u64Max → k'.owner ≤ u64Max →
      (k.dentryKey = k'.dentryKey → k = k') ∧ (k.xattrKey = k'.xattrKey → k = k')) ∧
    (∀ k k' : MetaKey, k.Storable → k'.Storable → k.text = k'.text → k = k') ∧
    (∀ (V : Type) (rows : List (NameKey × V)) (id : InodeId),
      (∀ row ∈ rows, row.1.owner ≤ u64Max) → id ≤ u64Max →
      prefixIter (rowsUnder NameKey.dentryKey rows) (dentryPrefix id) =
          rowsUnder NameKey.dentryKey (rows.filter (·.1.owner = id)) ∧
        prefixIter (rowsUnder NameKey.xattrKey rows) (xattrPrefix id) =
          rowsUnder NameKey.xattrKey (rows.filter (·.1.owner = id))) ∧
    (∀ (V : Type) (rows : List (MetaKey × V)) (inode : InodeId),
      (∀ row ∈ rows, row.1.Storable) → inode ≤ u64Max →
      prefixIter (rowsUnder MetaKey.text rows) (openPresenceInodePrefix inode) =
        rowsUnder MetaKey.text (rows.filter (·.1.isPresenceOf inode))) ∧
    (∀ (k : MetaKey) (f : MetaFamily), f.front.toList <+: k.text.toList ↔ k.family = some f) ∧
    (∀ (V : Type) (rows : List (MetaKey × V)) (f : MetaFamily),
      prefixIter (rowsUnder MetaKey.text rows) f.front =
        rowsUnder MetaKey.text (rows.filter (·.1.family = some f))) ∧
    ∀ (s : Tables) (id : InodeId), s.KeysStorable → id ≤ u64Max →
      directoryHasChildrenScan s.dentryRows id = s.directoryHasChildren id ∧
        hasOpenPresenceScan s.metaRows id = s.hasOpenPresence id := by
  have hpairs : ∀ {k k' : NameKey}, k.owner = k'.owner ∧ k.name = k'.name → k = k' := by
    rintro ⟨_, _⟩ ⟨_, _⟩ ⟨rfl, rfl⟩
    rfl
  refine ⟨fun id hid name => ⟨?_, ?_, ?_⟩, fun inode hinode session hsession => ?_,
    chunkFromHex_toHex,
    fun k k' hk hk' => ⟨fun h => ?_, fun h => ?_⟩, fun k k' hk hk' h => ?_,
    fun V rows id hrows hid => ⟨?_, ?_⟩, fun V rows inode hrows hinode => ?_,
    MetaKey.front_prefix_iff, fun V rows f => family_scan rows f, fun s id hs hid => ⟨?_, ?_⟩⟩
  · exact parseDentryKey_dentryKey hid name
  · exact dentryName_dentryKey id name
  · exact parseXattrKey_xattrKey hid name
  · exact parseOpenPresenceKey_openPresenceKey hinode hsession
  · exact hpairs (ownerKey_inj hk hk' h)
  · exact hpairs (ownerKey_inj hk hk' h)
  · exact MetaKey.text_inj hk hk' h
  · exact dentry_scan hrows hid
  · exact xattr_scan hrows hid
  · exact presence_scan hrows hinode
  · exact directoryHasChildren_scan hs hid
  · exact hasOpenPresence_scan hs hid

theorem table_keys_isolate_nul_name :
    parseDentryKey (dentryKey 7 "a\x00b") = .ok (7, "a\x00b") ∧
    parseOpenPresenceKey (openPresenceKey u64Max "mount-1") = .ok (u64Max, "mount-1") ∧
    (MetaKey.openPresence 7 "a").text ≠ (MetaKey.reservation 7).text := by
  obtain ⟨hnames, hpresences, -, -, htexts, -⟩ := table_keys_isolate
  refine ⟨(hnames 7 (by decide) _).1, hpresences _ (le_refl _) _ (by decide), fun h => ?_⟩
  have heq := htexts (.openPresence 7 "a") (.reservation 7) ⟨by decide, by decide⟩
    (show 7 ≤ u64Max by decide) h
  cases heq

end FluxFS
