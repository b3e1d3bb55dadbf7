import FluxFS.Client.Paths
import FluxFS.Client.Rpc
import FluxFS.Meta.Rename

/-!
# Imports — a name space that appears as it is looked at

A client with a UFS behind it imports a directory entry the first time it is
looked up or listed. Where the entry lies in the UFS comes from a cache of
paths by inode, which each client fills for itself and which answers with the
UFS root for a directory it does not know. Clients share the metadata store
and their calls interleave: a task is one call, a step one read or write of
the store or of the cache.
-/

namespace FluxFS

open Std Kit

/-! ## The UFS -/

/-- An entry that `Ufs::list` returns. -/
structure UfsEntry where
  path : String
  isDir : Bool
deriving DecidableEq, Repr

/-- What `Ufs::probe` finds. -/
inductive UfsProbe where
  | file (object : UfsObject)
  | dir
deriving DecidableEq, Repr

/-- A UFS that nobody writes: its answers depend on the path only. -/
structure UfsTree where
  probe : String → Except FluxError UfsProbe
  list : String → Except FluxError (List UfsEntry)

/-- `trim_end_matches('/')`. -/
def trimEndSlash (text : String) : String := String.ofList (text.toList.rdropWhile (· = '/'))

/-- `trim_start_matches('/')`. -/
def trimStartSlash (text : String) : String := String.ofList (text.toList.dropWhile (· = '/'))

/-- `join_rel`. -/
def joinRel (parent name : String) : String :=
  if parent.isEmpty then name else trimEndSlash parent ++ "/" ++ name

/-- `entry_name`. -/
def entryName (path parent : String) : Option String :=
  let path := trimEndSlash (trimStartSlash path)
  let parent := trimEndSlash (trimStartSlash parent)
  if parent.isEmpty = false ∧ ¬ parent.toList <+: path.toList then
    (splitSlash path).getLast?
  else
    let rest := if parent.isEmpty then path
      else trimStartSlash (String.ofList (path.toList.drop parent.toList.length))
    if rest.isEmpty ∨ rest.toList.contains '/' then none else some rest

/-- `ufs_looks_like_dir`. -/
def ufsLooksLikeDir (ufs : UfsTree) (parentPath rel name : String) : Except FluxError Bool :=
  match ufs.list parentPath with
  | .error e => .error e
  | .ok entries =>
    if entries.any (fun e => entryName e.path parentPath = some name ∧ e.isDir = true) then
      .ok true
    else
      match ufs.list rel with
      | .error e => .error e
      | .ok children => .ok (!children.isEmpty)

/-- The UFS half of `lazy_import`. -/
def probeEntry (ufs : UfsTree) (parentPath name : String) : Except FluxError UfsProbe :=
  match ufs.probe (joinRel parentPath name) with
  | .ok found => .ok found
  | .error .notFound =>
    match ufsLooksLikeDir ufs parentPath (joinRel parentPath name) name with
    | .error e => .error e
    | .ok true => .ok .dir
    | .ok false => .error .notFound
  | .error e => .error e

/-! ## Templates -/

/-- The part of a template that files and directories share. -/
def externalTemplate (fileType : FileType) (mode linkCount size : Nat) (mtimeMs now : Int)
    (version : Option UfsVersion) (ufs : UfsObject) : Inode where
  id := 0
  fileType := fileType
  mode := mode
  uid := 0
  gid := 0
  size := size
  mtimeMs := mtimeMs
  ctimeMs := now
  atimeMs := now
  linkCount := linkCount
  symlinkTarget := none
  generation := 1
  headGen := 0
  ufsGen := 0
  ufsBaseVersion := version
  locality := .external
  localityFields := some importedLocality
  ufs := some ufs
  extentRoot := none
  manifestId := none
  flushIntent := none
  lastError := none

/-- The version `commit_external_file` pins. -/
def pinnedVersion (object : UfsObject) : UfsVersion :=
  object.etag.getD s!"size:{object.size}"

/-- The template of `commit_external_file`. -/
def externalFile (rel : String) (object : UfsObject) (now : Int) : Inode :=
  externalTemplate .regular 0o644 1 object.size (object.mtimeMs.getD now) now
    (some (pinnedVersion object)) ⟨rel, object.size, object.etag, object.mtimeMs⟩

/-- The manifest of `commit_external_file`. -/
def externalManifest (rel : String) (object : UfsObject) : Except FluxError (Option Manifest) :=
  if object.size = 0 then .ok none
  else
    match ExtentTree.singleton (.ufsRange 0 object.size rel (pinnedVersion object) 0) with
    | .error e => .error e
    | .ok tree => .ok (some ⟨0, 0, object.size, tree⟩)

/-- The template of `commit_external_dir`. -/
def externalDir (rel : String) (now : Int) : Inode :=
  externalTemplate .directory 0o755 2 0 now now none ⟨trimEndSlash rel ++ "/", 0, none, some now⟩

/-! ## Tasks -/

/-- What a lookup was made for. -/
inductive AfterLookup where
  | answer
  /-- A path lookup goes on with the components behind it. -/
  | components (pending : List String)
  /-- `hydrate_dir_from_ufs` goes on with the entries behind it. -/
  | entries (dir : InodeId) (names : List String)
deriving DecidableEq, Repr

/-- Where a call is. -/
inductive ImportPhase where
  | lookup (parent : InodeId) (name : String) (next : AfterLookup)
  /-- `ensure_ufs_path`, after the store had the entry. -/
  | ensure (parent : InodeId) (child : Inode) (name : String) (next : AfterLookup)
  | hydrate (dir : InodeId)
  | entries (dir : InodeId) (names : List String)
  | lazyImport (parent : InodeId) (name : String) (next : AfterLookup)
  | commit (parent : InodeId) (name : String) (template : Inode) (manifest : Option Manifest)
      (rel : String) (next : AfterLookup)
  /-- The import was answered `AlreadyExists`. -/
  | lost (parent : InodeId) (name : String) (next : AfterLookup)
  | remember (inode : Inode) (rel : String) (next : AfterLookup)
  | done
deriving DecidableEq, Repr

/-- A lookup returned; nothing that is imported is a symlink. -/
def AfterLookup.go (next : AfterLookup) (child : Inode) : ImportPhase :=
  match next with
  | .answer => .done
  | .components [] => .done
  | .components (part :: pending) =>
    if child.fileType = .directory then .lookup child.id part (.components pending) else .done
  | .entries dir names => .entries dir names

/-- A client's `ufs_paths`. -/
abbrev UfsPaths := InodeId → Option String

/-- `remember_ufs_path`. -/
def UfsPaths.insert (paths : UfsPaths) (id : InodeId) (path : String) : UfsPaths :=
  Function.update paths id (some path)

/-- `ensure_ufs_path`. -/
def ensureUfsPath (paths : UfsPaths) (parent child : InodeId) (name : String) : UfsPaths :=
  if (paths child).isSome then paths
  else paths.insert child (joinRel ((paths parent).getD "") name)

/-- One step of a call. -/
def ImportPhase.step (ufs : UfsTree) (now : Int) (rpc : Rpc) (paths : UfsPaths) (s : Tables) :
    ImportPhase → Option (ImportPhase × UfsPaths × Tables)
  | .lookup parent name next =>
    match s.lookup parent name with
    | .ok child => some (.ensure parent child name next, paths, s)
    | .error .notFound => some (.lazyImport parent name next, paths, s)
    | .error _ => some (.done, paths, s)
  | .ensure parent child name next =>
    some (next.go child, ensureUfsPath paths parent child.id name, s)
  | .hydrate dir =>
    match ufs.list ((paths dir).getD "") with
    | .error _ => some (.done, paths, s)
    | .ok found =>
      some (.entries dir (found.filterMap (entryName ·.path ((paths dir).getD ""))), paths, s)
  | .entries _ [] => some (.done, paths, s)
  | .entries dir (name :: names) =>
    match s.lookup dir name with
    | .ok _ => some (.entries dir names, paths, s)
    | .error _ => some (.lazyImport dir name (.entries dir names), paths, s)
  | .lazyImport parent name next =>
    let rel := joinRel ((paths parent).getD "") name
    match probeEntry ufs ((paths parent).getD "") name with
    | .error _ => some (.done, paths, s)
    | .ok .dir => some (.commit parent name (externalDir rel now) none rel next, paths, s)
    | .ok (.file object) =>
      match externalManifest rel object with
      | .error _ => some (.done, paths, s)
      | .ok manifest =>
        some (.commit parent name (externalFile rel object now) manifest rel next, paths, s)
  | .commit parent name template manifest rel next =>
    if rpc.isFresh s then
      match rpc.call (.importExternal parent name template manifest none) mapInode s with
      | (.ok inode, t) => some (.remember inode rel next, paths, t)
      | (.error .alreadyExists, t) => some (.lost parent name next, paths, t)
      | (.error _, t) => some (.done, paths, t)
    else none
  | .lost parent name next =>
    match s.lookup parent name with
    | .ok child => some (next.go child, paths, s)
    | .error _ => some (.done, paths, s)
  | .remember inode rel next => some (next.go inode, paths.insert inode.id rel, s)
  | .done => none

/-! ## Clients -/

/-- The calls that import. -/
inductive ImportCall where
  | lookup (parent : InodeId) (name : String)
  | readdir (dir : InodeId)
  | lookupPath (path : String)
deriving DecidableEq, Repr

/-- The first phase of a call. -/
def ImportCall.phase : ImportCall → ImportPhase
  | .lookup parent name => .lookup parent name .answer
  | .readdir dir => .hydrate dir
  | .lookupPath path =>
    match pathComponents path with
    | .ok (part :: pending) => .lookup rootInode part (.components pending)
    | _ => .done

/-- The clients of a UFS-backed name space. -/
structure Importers where
  tables : Tables
  /-- The cache of each client. -/
  paths : Nat → UfsPaths
  /-- The calls made so far, with their clients. -/
  tasks : List (Nat × ImportPhase)

/-- New clients: each knows the path of the root. -/
def Importers.start (now : Int) : Importers where
  tables := Tables.fresh now
  paths _ := fun id => if id = rootInode then some "" else none
  tasks := []

/-- A step of a client. -/
inductive ImportAction where
  | call (client : Nat) (call : ImportCall)
  | step (task : Nat) (now : Int) (rpc : Rpc)
deriving DecidableEq, Repr

/-- One step. -/
def importersStep (ufs : UfsTree) (st : Importers) : ImportAction → Option Importers
  | .call client call => some { st with tasks := st.tasks ++ [(client, call.phase)] }
  | .step task now rpc =>
    (st.tasks[task]?).bind fun (client, phase) =>
      (phase.step ufs now rpc (st.paths client) st.tables).map fun (phase, paths, tables) =>
        ⟨tables, Function.update st.paths client paths, st.tasks.set task (client, phase)⟩

/-- The step does not fall back to the UFS root for a directory that its client does
not know. -/
def ImportPhase.knowsParent (paths : UfsPaths) : ImportPhase → Bool
  | .lazyImport parent .. => (paths parent).isSome
  | .ensure parent child .. => (paths child.id).isSome || (paths parent).isSome
  | _ => true

/-- The client knows the path of the directory it imports into. -/
def Importers.knowsParent (st : Importers) : ImportAction → Bool
  | .call .. => true
  | .step task .. =>
    (st.tasks[task]?).all fun (client, phase) => phase.knowsParent (st.paths client)

/-! ## Keys -/

/-- The key of an entry at `path`. -/
def keyAt (fileType : FileType) (path : String) : String :=
  if fileType = .directory then path ++ "/" else path

theorem keyAt_injective (fileType : FileType) : Function.Injective (keyAt fileType) := by
  intro p q h
  unfold keyAt at h
  split at h
  · exact String.append_left_inj "/" |>.mp h
  · exact h

/-- A text that ends in a name has no slash to trim. -/
theorem trimEndSlash_append_name (text : String) {name : String} (hname : name ≠ "")
    (hslash : '/' ∉ name.toList) : trimEndSlash (text ++ name) = text ++ name := by
  have hchars : name.toList ≠ [] := by simpa using hname
  have htrim : (text ++ name).toList.rdropWhile (· = '/') = (text ++ name).toList := by
    rw [List.rdropWhile_eq_self_iff]
    intro hne
    have hlast : (text ++ name).toList.getLast hne = name.toList.getLast hchars := by
      simp only [String.toList_append]
      exact List.getLast_append_of_ne_nil _ hchars
    rw [hlast, decide_eq_true_eq]
    exact fun heq => hslash (heq ▸ List.getLast_mem hchars)
  rw [trimEndSlash, htrim, String.ofList_toList]

/-- `path` is that of a directory: the root's, or one without a slash at its end. -/
theorem joinRel_of_tidy {path : String} (htidy : trimEndSlash path = path) (name : String) :
    joinRel path name = if path = "" then name else path ++ "/" ++ name := by
  simp [joinRel, htidy, String.isEmpty_iff]

theorem joinRel_tidy (path : String) {name : String} (hname : name ≠ "")
    (hslash : '/' ∉ name.toList) :
    joinRel path name ≠ "" ∧ trimEndSlash (joinRel path name) = joinRel path name := by
  unfold joinRel
  split
  · exact ⟨hname, by simpa using trimEndSlash_append_name "" hname hslash⟩
  · exact ⟨by simp [hname], trimEndSlash_append_name _ hname hslash⟩

/-- Joining name by name gives the names with slashes between them. -/
theorem foldl_joinRel (names : List String)
    (hnames : ∀ name ∈ names, name ≠ "" ∧ '/' ∉ name.toList) :
    names.foldl joinRel "" = "/".intercalate names := by
  -- from a path that is not the root's, every name brings its slash
  have hbelow : ∀ (rest : List String) (path : String),
      (∀ name ∈ rest, name ≠ "" ∧ '/' ∉ name.toList) → path ≠ "" → trimEndSlash path = path →
      rest.foldl joinRel path = "/".intercalate (path :: rest) := by
    intro rest
    induction rest with
    | nil => simp
    | cons name rest ih =>
      intro path hrest hpath htidy
      obtain ⟨hname, hslash⟩ := hrest name List.mem_cons_self
      obtain ⟨hne, hjoined⟩ := joinRel_tidy path hname hslash
      rw [List.foldl_cons, ih _ (fun n hn => hrest n (List.mem_cons_of_mem _ hn)) hne hjoined,
        joinRel_of_tidy htidy, if_neg hpath]
      cases rest with
      | nil => simp [String.intercalate_cons_cons]
      | cons next rest => simp [String.intercalate_cons_cons, String.append_assoc]
  cases names with
  | nil => simp
  | cons name names =>
    obtain ⟨hname, hslash⟩ := hnames name List.mem_cons_self
    have htidy := (joinRel_tidy "" hname hslash).2
    exact hbelow names name (fun n hn => hnames n (List.mem_cons_of_mem _ hn)) hname htidy

/-! ## What an import does to the tables -/

section
variable {s t u : Tables} {now : Int} {parent id : InodeId} {name path : String} {template : Inode}
  {manifest : Option Manifest}

/-- Inodes keep their UFS object and their type, and entries stay. -/
structure Grows (s t : Tables) : Prop where
  inodes : ∀ id i, s.inodes.get? id = some i →
    ∃ j, t.inodes.get? id = some j ∧ j.ufs = i.ufs ∧ j.fileType = i.fileType
  entries : ∀ (k : NameKey) (c : InodeId), s.dentries[k]? = some c → t.dentries[k]? = some c

theorem Grows.refl (s : Tables) : Grows s s := ⟨fun _ i hi => ⟨i, hi, rfl, rfl⟩, fun _ _ hc => hc⟩

theorem Grows.bump {dir : Inode} (h : s.inodes.get? parent = some dir) :
    Grows s (s.putInode (bumpDir now dir)) := by
  refine ⟨fun id i hi => ?_, fun _ _ hc => hc⟩
  rw [Tables.get_putInode]
  split
  · rename_i heq
    have hdir : s.inodes.get? id = some dir := by
      rw [← heq, show (bumpDir now dir).id = dir.id from rfl, Keyed.key_of_get? h]
      exact h
    rw [hdir] at hi
    cases hi
    exact ⟨_, rfl, rfl, rfl⟩
  · exact ⟨i, hi, rfl, rfl⟩

/-- The entry that a successful import makes. -/
structure Entered (s : Tables) (parent : InodeId) (name : String) (template inode : Inode)
    (t : Tables) : Prop where
  named : name ≠ "" ∧ '/' ∉ name.toList
  id_eq : inode.id = s.nextInode
  ufs_eq : inode.ufs = template.ufs
  type_eq : inode.fileType = template.fileType
  inodes : ∀ id i, s.inodes.get? id = some i →
    ∃ j, t.inodes.get? id = some j ∧ j.ufs = i.ufs ∧ j.fileType = i.fileType
  stored : t.inodes.get? inode.id = some inode
  vacant : s.dentries[NameKey.mk parent name]? = none
  entries : ∀ k : NameKey, t.dentries[k]? =
    if NameKey.mk parent name = k then some inode.id else s.dentries[k]?

theorem Entered.grows {inode : Inode} (h : Entered s parent name template inode t) : Grows s t where
  inodes := h.inodes
  entries k c hc := by
    rw [h.entries, if_neg]
    · exact hc
    · rintro rfl
      rw [h.vacant] at hc
      cases hc

/-- An import makes its entry or makes none. -/
def ImportOutcome (s : Tables) (parent : InodeId) (name : String) (template : Inode)
    (o : Except FluxError Inode × Tables) : Prop :=
  match o.1 with
  | .ok inode => Entered s parent name template inode o.2
  | .error _ => Grows s o.2 ∧ o.2.dentries = s.dentries

/-- The writes of an import, once its record is settled. -/
theorem enterRow_outcome {inode : Inode} (hgrows : Grows s t) (hdentries : t.dentries = s.dentries)
    (hnew : s.inodes.get? s.nextInode = none) (hnamed : name ≠ "" ∧ '/' ∉ name.toList)
    (hvacant : s.dentries[NameKey.mk parent name]? = none) (hid : inode.id = s.nextInode)
    (hufs : inode.ufs = template.ufs) (htype : inode.fileType = template.fileType) :
    ImportOutcome s parent name template
      ((do
        Txn.modify (·.putInode inode)
        putDentryRow ⟨parent, name⟩ s.nextInode
        pure inode : MetaTxn Inode) t) := by
  have hinodes : ∀ id i, s.inodes.get? id = some i →
      ∃ j, (t.putInode inode).inodes.get? id = some j ∧ j.ufs = i.ufs ∧ j.fileType =
        i.fileType := by
    intro id i hi
    have hne : inode.id ≠ id := by
      intro heq
      rw [← heq, hid, hnew] at hi
      cases hi
    rw [Tables.get_putInode, if_neg hne]
    exact hgrows.inodes id i hi
  refine Txn.outcome_modify ?_
  simp only [putDentryRow, bind_assoc]
  refine Txn.outcome_failIf (fun _ => ?_) fun _ => Txn.outcome_modify ?_
  · exact ⟨⟨hinodes, fun k c hc => by rw [← hdentries] at hc; exact hc⟩, hdentries⟩
  · refine ⟨hnamed, hid, hufs, htype, hinodes, ?_, hvacant, fun k => ?_⟩
    · exact (Tables.get_putInode t inode inode.id).trans (if_pos rfl)
    · rw [hid, ← hdentries]
      exact Tables.get_putDentry ..

theorem importExternal_outcome (now : Clock) (expected : Option Generation) (parent : InodeId)
    (name : String) (template : Inode) (manifest : Option Manifest)
    (hbelow : ∀ id i, s.inodes.get? id = some i → id < s.nextInode) :
    ImportOutcome s parent name template
      (importExternalInTxn now expected parent name template manifest s) := by
  have hnone : ∀ e, ImportOutcome s parent name template (.error e, s) := fun _ => ⟨.refl s, rfl⟩
  refine outcome_guard hnone fun hname => outcome_guard hnone fun _ => ?_
  refine outcome_checkVacant hnone fun hvacant => outcome_loadAndBump hnone fun dir hdir => ?_
  simp only [allocInode, bind_assoc, pure_bind]
  refine Txn.outcome_reads (Txn.outcome_modify ?_)
  have hbump : Grows s (s.putInode (bumpDir now.parent dir)) := .bump hdir.stored
  refine outcome_importManifest (fun e _ _ _ => ?_) (fun inode v _ hsettled => ?_)
  · -- the manifest was refused: the bump and the id stay
    exact ⟨⟨hbump.inodes, hbump.entries⟩, rfl⟩
  · have hnew : s.inodes.get? s.nextInode = none := by
      rw [Option.eq_none_iff_forall_ne_some]
      exact fun i hi => Nat.lt_irrefl _ (hbelow _ i hi)
    have hnamed : name ≠ "" ∧ '/' ∉ name.toList := by
      simp only [not_or, String.isEmpty_iff, List.contains_iff_mem] at hname
      exact ⟨hname.1, hname.2.1⟩
    exact enterRow_outcome ⟨hsettled.inodes ▸ hbump.inodes, hsettled.dentries ▸ hbump.entries⟩
      hsettled.dentries hnew hnamed hvacant hsettled.id hsettled.ufs hsettled.fileType

/-! ## Carried paths -/

/-- The record of `id` was made for the UFS entry at `path`. -/
inductive Carries (s : Tables) : InodeId → String → Prop
  | root : Carries s rootInode ""
  | entry {id : InodeId} {path : String} {i : Inode} (hroot : id ≠ rootInode)
      (stored : s.inodes.get? id = some i) (hpath : path ≠ "") (htidy : trimEndSlash path = path)
      (hkey : i.ufs.map (·.key) = some (keyAt i.fileType path)) : Carries s id path

theorem Carries.unique {other : String} (h : Carries s id path) (h' : Carries s id other) :
    path = other := by
  cases h with
  | root =>
    cases h' with
    | root => rfl
    | entry hroot => exact absurd rfl hroot
  | entry hroot stored _ _ hkey =>
    cases h' with
    | root => exact absurd rfl hroot
    | entry _ stored' _ _ hkey' =>
      rw [stored] at stored'
      cases stored'
      rw [hkey] at hkey'
      exact keyAt_injective _ (Option.some.inj hkey')

theorem Carries.mono (h : Carries s id path) (hgrows : Grows s t) : Carries t id path := by
  cases h with
  | root => exact .root
  | entry hroot stored hpath htidy hkey =>
    obtain ⟨j, hj, hufs, htype⟩ := hgrows.inodes _ _ stored
    exact .entry hroot hj hpath htidy (by rw [hufs, htype]; exact hkey)

/-- Every entry was made for the UFS entry of its name in its directory. -/
structure Mirrored (s : Tables) : Prop where
  grounded : Grounded s
  root : ∃ i, s.inodes.get? rootInode = some i
  entries : ∀ (k : NameKey) (child : InodeId), s.dentries[k]? = some child →
    (k.name ≠ "" ∧ '/' ∉ k.name.toList) ∧
      ∃ path, Carries s k.owner path ∧ Carries s child (joinRel path k.name)

theorem Mirrored.fresh (start : Int) : Mirrored (Tables.fresh start) where
  grounded := .fresh start
  root := ⟨_, by rw [Tables.fresh, Keyed.get?_put]; exact if_pos rfl⟩
  entries k child h := by simp [Tables.fresh] at h

/-- Tables that only grew, without a new entry. -/
theorem Mirrored.grow (h : Mirrored s) (hgrounded : Grounded t) (hgrows : Grows s t)
    (hdentries : t.dentries = s.dentries) : Mirrored t where
  grounded := hgrounded
  root := by
    obtain ⟨i, hi⟩ := h.root
    obtain ⟨j, hj, -⟩ := hgrows.inodes _ _ hi
    exact ⟨j, hj⟩
  entries k child hchild := by
    rw [hdentries] at hchild
    obtain ⟨hname, p, hparent, hcarries⟩ := h.entries k child hchild
    exact ⟨hname, p, hparent.mono hgrows, hcarries.mono hgrows⟩

/-- A template made for the entry `name` of the directory at `path`. -/
def MadeFor (path name : String) (template : Inode) : Prop :=
  '/' ∉ name.toList → name ≠ "" →
    template.ufs.map (·.key) = some (keyAt template.fileType (joinRel path name))

theorem Entered.carries {inode : Inode} (h : Entered s parent name template inode t)
    (hs : Mirrored s) (hmade : MadeFor path name template) :
    Carries t inode.id (joinRel path name) := by
  obtain ⟨hname, hslash⟩ := h.named
  obtain ⟨hne, htidy⟩ := joinRel_tidy path hname hslash
  refine .entry ?_ h.stored hne htidy ?_
  · obtain ⟨i, hi⟩ := hs.root
    rw [h.id_eq]
    exact (Nat.ne_of_lt (hs.grounded.below _ _ hi)).symm
  · rw [h.ufs_eq, h.type_eq]
    exact hmade hslash hname

theorem Mirrored.enter {inode : Inode} (hs : Mirrored s) (hgrounded : Grounded t)
    (h : Entered s parent name template inode t) (hparent : Carries s parent path)
    (hmade : MadeFor path name template) : Mirrored t where
  grounded := hgrounded
  root := by
    obtain ⟨i, hi⟩ := hs.root
    obtain ⟨j, hj, -⟩ := h.inodes _ _ hi
    exact ⟨j, hj⟩
  entries k child hchild := by
    rw [h.entries] at hchild
    split at hchild
    · rename_i heq
      cases hchild
      subst heq
      exact ⟨h.named, path, hparent.mono h.grows, h.carries hs hmade⟩
    · obtain ⟨hname, p, hp, hcarries⟩ := hs.entries k child hchild
      exact ⟨hname, p, hp.mono h.grows, hcarries.mono h.grows⟩

theorem externalFile_madeFor (path name : String) (object : UfsObject) (now : Int) :
    MadeFor path name (externalFile (joinRel path name) object now) :=
  fun _ _ => rfl

theorem externalDir_madeFor (path name : String) (now : Int) :
    MadeFor path name (externalDir (joinRel path name) now) := by
  intro hslash hname
  simp [externalDir, externalTemplate, keyAt, (joinRel_tidy path hname hslash).2]

/-! ## An import request -/

section
variable {rpc : Rpc}

/-- The ledger has no part in it. -/
theorem ImportOutcome.withLedger {before after : Table RequestOpId ClientRequestLedgerEntry}
    {o : Except FluxError Inode × Tables}
    (h : ImportOutcome { s with clientRequests := before } parent name template o) :
    ImportOutcome s parent name template (o.1, { o.2 with clientRequests := after }) := by
  obtain ⟨e | inode, v⟩ := o
  · exact ⟨⟨h.1.inodes, h.1.entries⟩, h.2⟩
  · exact ⟨h.named, h.id_eq, h.ufs_eq, h.type_eq, h.inodes, h.stored, h.vacant, h.entries⟩

/-- What a request for an import leaves: no new entry, or its own. -/
theorem import_applied (rpc : Rpc) (hs : Mirrored s) (parent : InodeId) (name : String)
    (template : Inode) (manifest : Option Manifest) :
    ∃ r, ImportOutcome s parent name template
      (r, rpc.applied (.importExternal parent name template manifest none) s) := by
  unfold Rpc.applied
  cases hexec : (rpc.request (.importExternal parent name template manifest none)).req.executes
    s with
  | false =>
    obtain ⟨after, h⟩ := applyRaftRequest_of_not_executes rpc.now hexec
    rw [h]
    exact ⟨.error .busy, ⟨(Grows.refl s).inodes, (Grows.refl s).entries⟩, rfl⟩
  | true =>
    obtain ⟨before, after, -, h⟩ := applyRaftRequest_of_executes rpc.now hexec
    rw [h]
    have hout : ImportOutcome { s with clientRequests := before } parent name template
        (importExternalInTxn rpc.now none parent name template manifest
          { s with clientRequests := before }) :=
      importExternal_outcome rpc.now none parent name template manifest hs.grounded.below
    have hstate : (performOp rpc.now
        (rpc.request (.importExternal parent name template manifest none)).req.op
        { s with clientRequests := before }).2 = _ :=
      Txn.bind_pure_state (importExternalInTxn rpc.now none parent name template manifest) _ _
    refine ⟨(importExternalInTxn rpc.now none parent name template manifest
      { s with clientRequests := before }).1, ?_⟩
    rw [hstate]
    exact hout.withLedger

/-- An import that returns an inode has made its entry. -/
theorem import_answered {inode : Inode} (hs : Mirrored s) (hfresh : rpc.isFresh s = true)
    (h : (rpc.call (.importExternal parent name template manifest none) mapInode s).1 = .ok inode) :
    Entered s parent name template inode
      (rpc.call (.importExternal parent name template manifest none) mapInode s).2 := by
  obtain ⟨hanswer, happlied⟩ := Rpc.call_ok h
  rw [happlied]
  have hnoerr : ∀ e, rpc.response (.importExternal parent name template manifest none) s ≠ .err
    e := by
    intro e he
    rw [he] at hanswer
    cases hanswer
  obtain ⟨before, after, made, v, hrun, hresponse, htables⟩ := Rpc.performed _ hfresh rfl hnoerr
  rw [hresponse] at hanswer
  cases hanswer
  have hout : ImportOutcome { s with clientRequests := before } parent name template _ :=
    importExternal_outcome rpc.now none parent name template manifest hs.grounded.below
  rw [hrun] at hout
  rw [htables]
  exact ImportOutcome.withLedger (o := (.ok inode, v)) hout

end

/-! ## Steps -/

/-- The paths of a cache are those its inodes carry. -/
def UfsPaths.Sound (s : Tables) (paths : UfsPaths) : Prop :=
  ∀ id path, paths id = some path → Carries s id path

theorem UfsPaths.Sound.insert {paths : UfsPaths} (h : paths.Sound s) (hid : Carries s id path) :
    (paths.insert id path).Sound s := by
  intro a p hp
  by_cases ha : a = id
  · subst ha
    rw [UfsPaths.insert, Function.update_self] at hp
    cases hp
    exact hid
  · rw [UfsPaths.insert, Function.update_of_ne ha] at hp
    exact h a p hp

/-- What a call remembers of the tables. -/
def ImportPhase.Sound (s : Tables) : ImportPhase → Prop
  | .ensure parent child name _ => s.dentries[NameKey.mk parent name]? = some child.id
  | .commit parent name template _ rel _ =>
    ∃ path, Carries s parent path ∧ rel = joinRel path name ∧ MadeFor path name template
  | .remember inode rel _ => Carries s inode.id rel
  | _ => True

theorem ImportPhase.Sound.mono {phase : ImportPhase} (h : phase.Sound s) (hgrows : Grows s t) :
    phase.Sound t := by
  cases phase with
  | ensure => exact hgrows.entries _ _ h
  | commit =>
    obtain ⟨path, hparent, hrel, hmade⟩ := h
    exact ⟨path, hparent.mono hgrows, hrel, hmade⟩
  | remember => exact Carries.mono h hgrows
  | _ => trivial

theorem AfterLookup.go_sound (next : AfterLookup) (child : Inode) : (next.go child).Sound s := by
  unfold AfterLookup.go
  split
  · trivial
  · trivial
  · split <;> trivial
  · trivial

theorem Tables.entry_of_lookup {child : Inode} (h : s.lookup parent name = .ok child) :
    s.dentries[NameKey.mk parent name]? = some child.id := by
  unfold Tables.lookup at h
  split at h
  · cases h
  · split at h
    · cases h
    · split at h
      · cases h
      · rename_i hentry
        split at h
        · cases h
        · rename_i hstored
          cases h
          rw [hentry, Keyed.key_of_get? hstored]

/-- `ensure_ufs_path` adds the path that the child carries. -/
theorem ensureUfsPath_sound {paths : UfsPaths} {child : InodeId} (hs : Mirrored s)
    (hpaths : paths.Sound s) (hentry : s.dentries[NameKey.mk parent name]? = some child)
    (hknows : ((paths child).isSome || (paths parent).isSome) = true) :
    (ensureUfsPath paths parent child name).Sound s := by
  unfold ensureUfsPath
  split
  · exact hpaths
  · rename_i hnew
    simp only [hnew, Bool.false_or] at hknows
    obtain ⟨p, hp⟩ := Option.isSome_iff_exists.mp hknows
    obtain ⟨-, q, hparent, hchild⟩ := hs.entries _ _ hentry
    obtain rfl : p = q := (hpaths parent p hp).unique hparent
    rw [hp]
    exact hpaths.insert hchild

/-- What one step of a call keeps. -/
structure StepSound (s : Tables) (o : ImportPhase × UfsPaths × Tables) : Prop where
  mirrored : Mirrored o.2.2
  grows : Grows s o.2.2
  paths : o.2.1.Sound o.2.2
  phase : o.1.Sound o.2.2

/-- A step that reads the tables only. -/
theorem StepSound.read {paths : UfsPaths} {phase : ImportPhase} (hs : Mirrored s)
    (hpaths : paths.Sound s) (hphase : phase.Sound s) : StepSound s (phase, paths, s) :=
  ⟨hs, .refl s, hpaths, hphase⟩

/-- The import of an entry. -/
theorem import_sound {rpc : Rpc} {paths : UfsPaths} (hs : Mirrored s) (hpaths : paths.Sound s)
    (hparent : Carries s parent path) (hmade : MadeFor path name template)
    (ht : (rpc.call (.importExternal parent name template manifest none) mapInode s).2 = t)
    {phase : ImportPhase} (hphase : phase.Sound t) : StepSound s (phase, paths, t) := by
  have hgrown : Mirrored t ∧ Grows s t := by
    rcases Rpc.call_tables rpc (.importExternal parent name template manifest none) mapInode s with
      hsame | happlied
    · rw [← ht, hsame]
      exact ⟨hs, .refl s⟩
    · rw [happlied] at ht
      have hgrounded : Grounded t := ht ▸ hs.grounded.request rfl
      obtain ⟨r, hout⟩ := import_applied rpc hs parent name template manifest
      rw [ht] at hout
      cases r with
      | error e => exact ⟨hs.grow hgrounded hout.1 hout.2, hout.1⟩
      | ok inode => exact ⟨hs.enter hgrounded hout hparent hmade, Entered.grows hout⟩
  exact ⟨hgrown.1, hgrown.2, fun id p hp => (hpaths id p hp).mono hgrown.2, hphase⟩

theorem ImportPhase.lazyImport_sound {ufs : UfsTree} {rpc : Rpc} {paths : UfsPaths}
    {next : AfterLookup} {o : ImportPhase × UfsPaths × Tables} (hs : Mirrored s)
    (hpaths : paths.Sound s) (hknows : (paths parent).isSome = true)
    (h : (ImportPhase.lazyImport parent name next).step ufs now rpc paths s = some o) :
    StepSound s o := by
  obtain ⟨path, hpath⟩ := Option.isSome_iff_exists.mp hknows
  have hparent : Carries s parent path := hpaths parent path hpath
  simp only [ImportPhase.step, hpath, Option.getD_some] at h
  split at h
  · cases h
    exact .read hs hpaths trivial
  · cases h
    exact .read hs hpaths ⟨path, hparent, rfl, externalDir_madeFor path name now⟩
  · rename_i object _
    split at h
    · cases h
      exact .read hs hpaths trivial
    · cases h
      exact .read hs hpaths ⟨path, hparent, rfl, externalFile_madeFor path name object now⟩

theorem ImportPhase.commit_sound {ufs : UfsTree} {rpc : Rpc} {paths : UfsPaths}
    {next : AfterLookup} {rel : String} {o : ImportPhase × UfsPaths × Tables} (hs : Mirrored s)
    (hpaths : paths.Sound s) (hphase : (ImportPhase.commit parent name template manifest rel
      next).Sound s)
    (h : (ImportPhase.commit parent name template manifest rel next).step ufs now rpc paths s =
      some o) : StepSound s o := by
  obtain ⟨path, hparent, rfl, hmade⟩ := hphase
  simp only [ImportPhase.step] at h
  split at h
  · rename_i hfresh
    split at h
    · rename_i inode t hcall
      cases h
      have hentered := import_answered hs hfresh (congrArg Prod.fst hcall)
      rw [hcall] at hentered
      exact import_sound hs hpaths hparent hmade (congrArg Prod.snd hcall)
        (hentered.carries hs hmade)
    · rename_i t hcall
      cases h
      exact import_sound hs hpaths hparent hmade (congrArg Prod.snd hcall) trivial
    · rename_i t _ hcall
      cases h
      exact import_sound hs hpaths hparent hmade (congrArg Prod.snd hcall) trivial
  · cases h

theorem ImportPhase.step_sound {ufs : UfsTree} {rpc : Rpc} {paths : UfsPaths} {phase : ImportPhase}
    {o : ImportPhase × UfsPaths × Tables} (hs : Mirrored s) (hpaths : paths.Sound s)
    (hphase : phase.Sound s) (hknows : phase.knowsParent paths = true)
    (h : phase.step ufs now rpc paths s = some o) : StepSound s o := by
  cases phase with
  | lookup parent name next =>
    simp only [ImportPhase.step] at h
    split at h
    · rename_i child hchild
      cases h
      exact .read hs hpaths (Tables.entry_of_lookup hchild)
    · cases h
      exact .read hs hpaths trivial
    · cases h
      exact .read hs hpaths trivial
  | ensure parent child name next =>
    cases h
    exact .read hs (ensureUfsPath_sound hs hpaths hphase hknows) (next.go_sound child)
  | hydrate dir =>
    simp only [ImportPhase.step] at h
    split at h
    · cases h
      exact .read hs hpaths trivial
    · cases h
      exact .read hs hpaths trivial
  | entries dir names =>
    cases names with
    | nil =>
      cases h
      exact .read hs hpaths trivial
    | cons name names =>
      simp only [ImportPhase.step] at h
      split at h
      · cases h
        exact .read hs hpaths trivial
      · cases h
        exact .read hs hpaths trivial
  | lazyImport parent name next =>
    exact lazyImport_sound hs hpaths hknows h
  | commit parent name template manifest rel next =>
    exact commit_sound hs hpaths hphase h
  | lost parent name next =>
    simp only [ImportPhase.step] at h
    split at h
    · rename_i child _
      cases h
      exact .read hs hpaths (next.go_sound child)
    · cases h
      exact .read hs hpaths trivial
  | remember inode rel next =>
    cases h
    exact .read hs (hpaths.insert hphase) (next.go_sound inode)
  | done => cases h

/-! ## Runs -/

/-- What holds between the steps. -/
structure ImportersInv (st : Importers) : Prop where
  mirrored : Mirrored st.tables
  paths : ∀ client, (st.paths client).Sound st.tables
  tasks : ∀ task ∈ st.tasks, task.2.Sound st.tables

theorem ImportersInv.start (now : Int) : ImportersInv (Importers.start now) where
  mirrored := .fresh now
  paths client id path h := by
    simp only [Importers.start] at h
    split at h
    · rename_i hid
      cases h
      exact hid ▸ .root
    · cases h
  tasks task h := nomatch h

theorem ImportCall.phase_sound (call : ImportCall) : call.phase.Sound s := by
  cases call with
  | lookup | readdir => trivial
  | lookupPath path =>
    simp only [ImportCall.phase]
    split <;> trivial

theorem ImportersInv.step {ufs : UfsTree} {st st' : Importers} {action : ImportAction}
    (hinv : ImportersInv st) (hknows : st.knowsParent action = true)
    (h : importersStep ufs st action = some st') : ImportersInv st' := by
  cases action with
  | call client call =>
    cases h
    refine ⟨hinv.mirrored, hinv.paths, fun task htask => ?_⟩
    rcases List.mem_append.mp htask with hold | hnew
    · exact hinv.tasks task hold
    · rw [List.mem_singleton.mp hnew]
      exact call.phase_sound
  | step task now rpc =>
    obtain ⟨⟨client, phase⟩, htask, hstep⟩ := Option.bind_eq_some_iff.mp h
    obtain ⟨⟨phase', paths', t⟩, hphase, hst⟩ := Option.map_eq_some_iff.mp hstep
    simp only [Importers.knowsParent, htask, Option.all_some] at hknows
    have hsound : StepSound st.tables (phase', paths', t) :=
      ImportPhase.step_sound hinv.mirrored (hinv.paths client)
        (hinv.tasks _ (List.mem_of_getElem? htask)) hknows hphase
    cases hst
    refine ⟨hsound.mirrored, fun other => ?_, fun job hjob => ?_⟩
    · by_cases hother : other = client
      · subst hother
        simp only [Function.update_self]
        exact hsound.paths
      · simp only [Function.update_of_ne hother]
        exact fun id p hp => (hinv.paths other id p hp).mono hsound.grows
    · rcases List.mem_or_eq_of_mem_set hjob with hold | rfl
      · exact (hinv.tasks job hold).mono hsound.grows
      · exact hsound.phase

/-- The inode at `names` below `id`. -/
def Tables.childAt (s : Tables) (id : InodeId) : List String → Option InodeId
  | [] => some id
  | name :: names => (s.dentries[NameKey.mk id name]?).bind fun child => s.childAt child names

/-- A walk joins the names it goes by. -/
theorem Mirrored.childAt (hs : Mirrored s) {names : List String} {start : InodeId}
    (hstart : Carries s start path) (h : s.childAt start names = some id) :
    Carries s id (names.foldl joinRel path) ∧ ∀ name ∈ names, name ≠ "" ∧ '/' ∉ name.toList := by
  induction names generalizing start path with
  | nil =>
    cases h
    exact ⟨hstart, by simp⟩
  | cons name names ih =>
    obtain ⟨child, hentry, hrest⟩ := Option.bind_eq_some_iff.mp h
    obtain ⟨hname, p, hparent, hchild⟩ := hs.entries _ _ hentry
    obtain rfl : path = p := hstart.unique hparent
    obtain ⟨hcarries, hnames⟩ := ih hchild hrest
    exact ⟨hcarries, by simpa using ⟨hname, hnames⟩⟩

end

/-- As long as no client resolves a directory it does not know to the UFS root,
every inode below the root has the key of the path it is found by. -/
theorem imports_mirror_ufs (ufs : UfsTree) (start : Int) (actions : List ImportAction)
    (st : Importers)
    (hknows : Along (importersStep ufs) (fun st action => st.knowsParent action = true)
      (Importers.start start) actions)
    (hrun : exec (importersStep ufs) (Importers.start start) actions = some st)
    (names : List String) (hnames : names ≠ []) (id : InodeId)
    (hat : st.tables.childAt rootInode names = some id) :
    ∃ inode object, st.tables.inodes.get? id = some inode ∧ inode.ufs = some object ∧
      object.key =
        if inode.fileType = .directory then "/".intercalate names ++ "/"
        else "/".intercalate names := by
  have hinv : ImportersInv st :=
    exec_invariant_along (fun _ _ _ hI hP hstep => ImportersInv.step hI hP hstep) actions _ st
      (.start start) hknows hrun
  obtain ⟨hcarries, hvalid⟩ := hinv.mirrored.childAt .root hat
  rw [foldl_joinRel names hvalid] at hcarries
  generalize hpath : "/".intercalate names = path at hcarries ⊢
  cases hcarries with
  | root =>
    -- a name is not empty, so neither are names joined
    cases names with
    | nil => exact absurd rfl hnames
    | cons name names =>
      obtain ⟨hname, -⟩ := hvalid name List.mem_cons_self
      cases names with
      | nil => exact absurd (by simpa using hpath) hname
      | cons next names => simp [String.intercalate_cons_cons, hname] at hpath
  | entry _ stored _ _ hkey =>
    obtain ⟨object, hufs, hobject⟩ := Option.map_eq_some_iff.mp hkey
    exact ⟨_, object, stored, hufs, hobject⟩

/-- A UFS with the files `x` and `d/x`. -/
def sampleUfs : UfsTree where
  probe path :=
    if path = "d" then .ok .dir
    else if path = "x" then .ok (.file ⟨"x", 1, some "outer", none⟩)
    else if path = "d/x" then .ok (.file ⟨"d/x", 2, some "inner", none⟩)
    else .error .notFound
  list path :=
    if path = "" then .ok [⟨"d/", true⟩, ⟨"x", false⟩]
    else if path = "d" then .ok [⟨"d/x", false⟩]
    else .ok []

/-- A call that is answered. -/
def sampleRpc (requestId : RequestOpId) : Rpc := ⟨.answered, 9, requestId, 9⟩

/-- One client looks up `d` and then `x` in it. -/
def sampleImportRun : List ImportAction :=
  [.call 0 (.lookup rootInode "d"), .step 0 9 (sampleRpc 1), .step 0 9 (sampleRpc 1),
    .step 0 9 (sampleRpc 1), .step 0 9 (sampleRpc 1),
    .call 0 (.lookup 2 "x"), .step 1 9 (sampleRpc 2), .step 1 9 (sampleRpc 2),
    .step 1 9 (sampleRpc 2), .step 1 9 (sampleRpc 2)]

theorem imports_mirror_ufs_sampleImportRun :
    ∃ st, exec (importersStep sampleUfs) (Importers.start 0) sampleImportRun = some st ∧
      st.tables.childAt rootInode ["d", "x"] = some 3 ∧
      ∃ inode object, st.tables.inodes.get? 3 = some inode ∧ inode.ufs = some object ∧
        object.key = if inode.fileType = .directory then "d/x/" else "d/x" := by
  have hsome : (exec (importersStep sampleUfs) (Importers.start 0) sampleImportRun).isSome =
    true := by
    decide +kernel
  obtain ⟨st, hst⟩ := Option.isSome_iff_exists.mp hsome
  have hat : (exec (importersStep sampleUfs) (Importers.start 0) sampleImportRun).bind
      (·.tables.childAt rootInode ["d", "x"]) = some 3 := by
    decide +kernel
  rw [hst] at hat
  exact ⟨st, hst, hat,
    imports_mirror_ufs sampleUfs 0 sampleImportRun st (by decide +kernel) hst ["d", "x"]
      (by decide) 3 hat⟩

/-- Two clients look up `d` at the same time. The one whose import comes second is
told that the entry exists, does not learn its path and then finds the root's `x`
in it. -/
def lostRaceRun : List ImportAction :=
  [.call 0 (.lookup rootInode "d"), .call 1 (.lookup rootInode "d"),
    .step 0 9 (sampleRpc 1), .step 1 9 (sampleRpc 2), .step 0 9 (sampleRpc 1),
    .step 1 9 (sampleRpc 2), .step 0 9 (sampleRpc 1), .step 1 9 (sampleRpc 2),
    .step 1 9 (sampleRpc 2),
    .call 1 (.lookup 2 "x"), .step 2 9 (sampleRpc 3), .step 2 9 (sampleRpc 3),
    .step 2 9 (sampleRpc 3)]

theorem lost_race_imports_from_root :
    (exec (importersStep sampleUfs) (Importers.start 0) lostRaceRun).bind (fun st =>
      (st.tables.childAt rootInode ["d", "x"]).bind fun id =>
        (st.tables.inodes.get? id).bind fun inode =>
          inode.ufs.map fun object => (id, inode.fileType, inode.size, object.key)) =
      some (3, .regular, 1, "x") := by
  decide +kernel

end FluxFS
