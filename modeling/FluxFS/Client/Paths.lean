import FluxFS.Meta.Runs

/-!
# Paths — resolving a path in the client

`FluxClient::resolve_path` walks a path from the root. At a symlink it does
not continue where it is: it splices the link's target into the text of the
path, where `..` strikes the name before it, and starts again at the root.
`posixLookup` is what a walk from directory to directory finds, where `..`
leaves the directory that was really reached. The two agree exactly if the path,
spelled out with the targets of the links it leads through, still denotes what it
denoted; they do if no target among those links has a `..` behind a name.
-/

namespace FluxFS

open Std Kit

/-- `HeedMetaStore::lookup`. -/
def Tables.lookup (s : Tables) (parent : InodeId) (name : String) : Except FluxError Inode :=
  match s.inodes.get? parent with
  | none => .error .notFound
  | some dir =>
    if dir.fileType ≠ .directory then .error .notDirectory
    else
      match s.dentries[NameKey.mk parent name]? with
      | none => .error .notFound
      | some child =>
        match s.inodes.get? child with
        | none => .error .notFound
        | some inode => .ok inode

/-- `get_inode`. -/
def Tables.getInode (s : Tables) (id : InodeId) : Except FluxError Inode :=
  match s.inodes.get? id with
  | none => .error .notFound
  | some inode => .ok inode

/-- `split('/')`. -/
def splitSlash (text : String) : List String := (text.toList.splitOn '/').map String.ofList

/-! ## The client's resolution -/

/-- The component loop of `path_components`. -/
def checkParts : List String → Except FluxError (List String)
  | [] => .ok []
  | part :: parts =>
    if part = "." ∨ part = ".." then
      .error (.invalidArg s!"path component is reserved: {part}")
    else if part.toList.contains '\x00' then
      .error (.invalidArg "path component contains NUL")
    else if part.utf8ByteSize > 255 then
      .error (.invalidArg s!"path component too long: {part.utf8ByteSize} bytes")
    else
      match checkParts parts with
      | .error e => .error e
      | .ok parts => .ok (part :: parts)

/-- `path_components`. -/
def pathComponents (path : String) : Except FluxError (List String) :=
  if path.toList.head? ≠ some '/' then .error (.invalidArg "FluxFS paths must be absolute")
  else checkParts ((splitSlash path).filter (· ≠ ""))

/-- The component loop of `append_symlink_target`. -/
def appendParts (base : List String) : List String → Except FluxError (List String)
  | [] => .ok base
  | part :: parts =>
    if part = "" ∨ part = "." then appendParts base parts
    else if part = ".." then appendParts base.dropLast parts
    else if part.utf8ByteSize > 255 then
      .error (.invalidArg s!"symlink component too long: {part.utf8ByteSize} bytes")
    else appendParts (base ++ [part]) parts

/-- `append_symlink_target`. -/
def appendSymlinkTarget (base : List String) (target : String) :
    Except FluxError (List String) :=
  if target.toList.contains '\x00' then .error (.invalidArg "symlink target contains NUL")
  else appendParts base (splitSlash target)

/-- The loop of `resolve_path` up to the next link, which `onLink` takes over with
the names resolved before it and those pending behind it. -/
def resolveParts (s : Tables) (followFinal : Bool)
    (onLink : Inode → List String → List String → Except FluxError Inode) :
    List String → List String → Inode → Except FluxError Inode
  | [], _, inode => .ok inode
  | part :: pending, resolved, inode =>
    match s.lookup inode.id part with
    | .error e => .error e
    | .ok child =>
      if child.fileType = .symlink ∧ (followFinal = true ∨ pending ≠ []) then
        onLink child resolved pending
      else if pending ≠ [] ∧ child.fileType ≠ .directory then .error .notDirectory
      else resolveParts s followFinal onLink pending (resolved ++ [part]) child

/-- The error after 40 links. -/
def tooManyLinks : FluxError := .invalidArg "too many levels of symbolic links"

/-- The loop of `resolve_path` with the links it may still follow. -/
def resolveLinks (s : Tables) (followFinal : Bool) (root : Inode) :
    Nat → List String → List String → Inode → Except FluxError Inode
  | 0 => resolveParts s followFinal fun _ _ _ => .error tooManyLinks
  | links + 1 => resolveParts s followFinal fun child resolved pending =>
    match child.symlinkTarget with
    | none => .error (.metaErr "symlink inode missing target")
    | some target =>
      match appendSymlinkTarget (if target.toList.head? = some '/' then [] else resolved)
          target with
      | .error e => .error e
      | .ok expanded => resolveLinks s followFinal root links (expanded ++ pending) [] root

/-- How many links `resolve_path` follows. -/
def maxLinks : Nat := 40

/-- `FluxClient::resolve_path` without a UFS behind the name space. -/
def resolvePath (s : Tables) (path : String) (followFinal : Bool) : Except FluxError Inode :=
  match pathComponents path with
  | .error e => .error e
  | .ok parts =>
    match s.getInode rootInode with
    | .error e => .error e
    | .ok root => resolveLinks s followFinal root maxLinks parts [] root

/-- `FluxClient::lookup_path`. -/
def lookupPath (s : Tables) (path : String) : Except FluxError Inode := resolvePath s path true

/-! ## A walk from directory to directory -/

/-- One component of a path or target. -/
inductive Component where
  | stay
  | up
  | down (name : String)
deriving DecidableEq, Repr

/-- A part of a target as a component. -/
def Component.ofPart (part : String) : Component :=
  if part = "" ∨ part = "." then .stay else if part = ".." then .up else .down part

/-- Where a walk is: the inode it reached and the directories it came down
through, innermost first. -/
structure Place where
  reached : Inode
  above : List Inode

/-- The parent directory; the root is its own. -/
def Place.parent (p : Place) : Place :=
  match p.above with
  | [] => p
  | dir :: above => ⟨dir, above⟩

/-- A name no directory entry can have. -/
def Unnameable (name : String) : Prop := name.toList.contains '\x00' ∨ name.utf8ByteSize > 255

instance (name : String) : Decidable (Unnameable name) := inferInstanceAs (Decidable (_ ∨ _))

/-- Walk to the next link, which `onLink` takes over. -/
def walkComponents (s : Tables) (onLink : Inode → Place → List Component → Except FluxError Inode) :
    List Component → Place → Except FluxError Inode
  | [], p => .ok p.reached
  | .stay :: rest, p => walkComponents s onLink rest p
  | .up :: rest, p =>
    if p.reached.fileType ≠ .directory then .error .notDirectory
    else walkComponents s onLink rest p.parent
  | .down name :: rest, p =>
    if Unnameable name then .error (.invalidArg "name too long")
    else
      match s.lookup p.reached.id name with
      | .error e => .error e
      | .ok child =>
        if child.fileType = .symlink then onLink child p rest
        else walkComponents s onLink rest ⟨child, p.reached :: p.above⟩

/-- Walk with a number of links still to follow. A relative target continues in the
directory that holds the link, an absolute one at the root. -/
def walkLinks (s : Tables) (root : Inode) :
    Nat → List Component → Place → Except FluxError Inode
  | 0 => walkComponents s fun _ _ _ => .error tooManyLinks
  | links + 1 => walkComponents s fun child p rest =>
    match child.symlinkTarget with
    | none => .error (.metaErr "symlink inode missing target")
    | some target =>
      walkLinks s root links ((splitSlash target).map Component.ofPart ++ rest)
        (if target.toList.head? = some '/' then ⟨root, []⟩ else p)

theorem ofPart_stay {part : String} (h : part = "" ∨ part = ".") :
    Component.ofPart part = .stay := if_pos h

theorem ofPart_down {part : String} (h : part ≠ "" ∧ part ≠ "." ∧ part ≠ "..") :
    Component.ofPart part = .down part := by
  rw [Component.ofPart, if_neg (not_or.mpr ⟨h.1, h.2.1⟩), if_neg h.2.2]

/-! ## The walk does not mind where a path stays -/

section
variable {s : Tables} {root : Inode}
variable {names parts pending : List String} {p : Place}

theorem walkComponents_filter {f g : Inode → Place → List Component → Except FluxError Inode}
    (hfg : ∀ child p rest, f child p rest = g child p (rest.filter (· ≠ .stay)))
    (comps : List Component) (p : Place) :
    walkComponents s f comps p = walkComponents s g (comps.filter (· ≠ .stay)) p := by
  induction comps generalizing p with
  | nil => rfl
  | cons c comps ih =>
    cases c with
    | stay => exact ih p
    | up =>
      rw [List.filter_cons_of_pos (by simp), walkComponents, walkComponents, ih]
    | down name =>
      rw [List.filter_cons_of_pos (by simp), walkComponents, walkComponents]
      simp only [ih, hfg]

theorem walkLinks_filter (links : Nat) (comps : List Component) (p : Place) :
    walkLinks s root links comps p = walkLinks s root links (comps.filter (· ≠ .stay)) p := by
  induction links generalizing comps p with
  | zero =>
    exact walkComponents_filter (f := fun _ _ _ => .error tooManyLinks) (fun _ _ _ => rfl) comps p
  | succ links ih =>
    refine walkComponents_filter (fun child p rest => ?_) comps p
    cases child.symlinkTarget with
    | none => rfl
    | some target =>
      -- both sides drop the same components of the target
      show walkLinks s root links _ _ = walkLinks s root links _ _
      rw [ih, ih (_ ++ rest.filter _), List.filter_append, List.filter_append, List.filter_filter]
      simp

theorem walkLinks_congr {comps comps' : List Component}
    (h : comps.filter (· ≠ .stay) = comps'.filter (· ≠ .stay)) (links : Nat) (p : Place) :
    walkLinks s root links comps p = walkLinks s root links comps' p := by
  rw [walkLinks_filter, h, ← walkLinks_filter]

/-- The names lead from the root through directories to the place. -/
inductive Reaches (s : Tables) (root : Inode) : List String → Place → Prop
  | root : Reaches s root [] ⟨root, []⟩
  | down {names : List String} {p : Place} {name : String} {child : Inode}
      (h : Reaches s root names p) (hchild : s.lookup p.reached.id name = .ok child)
      (hdir : child.fileType = .directory) :
      Reaches s root (names ++ [name]) ⟨child, p.reached :: p.above⟩

theorem Reaches.isDir (h : Reaches s root names p) (hroot : root.fileType = .directory) :
    p.reached.fileType = .directory := by
  cases h with
  | root => exact hroot
  | down _ _ hdir => exact hdir

theorem Reaches.parent (h : Reaches s root names p) : Reaches s root names.dropLast p.parent := by
  cases h with
  | root => exact .root
  | down h _ _ =>
    rw [List.dropLast_concat]
    exact h

/-- Starting again at the root with the names in front leads back to the place. -/
theorem Reaches.restart (h : Reaches s root names p) (followFinal : Bool)
    (onLink : Inode → List String → List String → Except FluxError Inode) (pending : List String) :
    resolveParts s followFinal onLink (names ++ pending) [] root =
      resolveParts s followFinal onLink pending names p.reached := by
  induction h generalizing pending with
  | root => rfl
  | @down names p name child _ hchild hdir ih =>
    rw [List.append_assoc, List.singleton_append, ih, resolveParts, hchild]
    simp [hdir]

/-- No `..` stands behind a name. -/
def upsLead : List String → Bool
  | [] => true
  | part :: parts =>
    if part = "" ∨ part = "." ∨ part = ".." then upsLead parts else ".." ∉ parts

/-- The first link on the pending names, with the names resolved before it and those
pending behind it. -/
def firstLink (s : Tables) :
    List String → List String → Inode → Option (Inode × List String × List String)
  | [], _, _ => none
  | part :: pending, resolved, inode =>
    match s.lookup inode.id part with
    | .error _ => none
    | .ok child =>
      if child.fileType = .symlink then some (child, resolved, pending)
      else if pending ≠ [] ∧ child.fileType ≠ .directory then none
      else firstLink s pending (resolved ++ [part]) child

/-- A target without `..` is appended name by name. -/
theorem appendParts_names (hups : ".." ∉ parts) (hnames : ∀ part ∈ parts, ¬ Unnameable part)
    (base : List String) :
    appendParts base parts = .ok (base ++ parts.filter fun part => part ≠ "" ∧ part ≠ ".") := by
  induction parts generalizing base with
  | nil => simp [appendParts]
  | cons part parts ih =>
    rw [List.mem_cons, not_or] at hups
    rw [List.forall_mem_cons] at hnames
    have hshort : ¬ part.utf8ByteSize > 255 := fun h => hnames.1 (.inr h)
    rw [appendParts]
    by_cases hstay : part = "" ∨ part = "."
    · rw [if_pos hstay, ih hups.2 hnames.2, List.filter_cons_of_neg]
      simpa [or_iff_not_imp_left] using hstay
    · rw [if_neg hstay, if_neg (Ne.symm hups.1), if_neg hshort, ih hups.2 hnames.2,
        List.filter_cons_of_pos, List.append_assoc, List.singleton_append]
      simpa [not_or] using hstay

theorem filter_down (names : List String) :
    (names.map Component.down).filter (· ≠ .stay) = names.map .down := by
  rw [List.filter_eq_self]
  intro c hc
  obtain ⟨_, -, rfl⟩ := List.mem_map.mp hc
  simp

/-- The components of a text without `..`, where they do not stay. -/
theorem filter_ofPart (hups : ".." ∉ parts) : (parts.map Component.ofPart).filter (· ≠ .stay) =
      (parts.filter fun part => part ≠ "" ∧ part ≠ ".").map .down := by
  induction parts with
  | nil => rfl
  | cons part parts ih =>
    rw [List.mem_cons, not_or] at hups
    rw [List.map_cons]
    by_cases hstay : part = "" ∨ part = "."
    · rw [ofPart_stay hstay, List.filter_cons_of_neg (by simp),
        List.filter_cons_of_neg (by simpa [or_iff_not_imp_left] using hstay), ih hups.2]
    · have hdown := ofPart_down ⟨fun h => hstay (.inl h), fun h => hstay (.inr h), Ne.symm hups.1⟩
      rw [hdown, List.filter_cons_of_pos (by simp),
        List.filter_cons_of_pos (by simpa [not_or] using hstay), ih hups.2, List.map_cons]

/-- Splicing a target whose `..` lead into the names of a place, and walking it from
that place, come to the same names pending at the same place. -/
theorem Reaches.target (h : Reaches s root names p) (hroot : root.fileType = .directory)
    (hlead : upsLead parts = true) (hnames : ∀ part ∈ parts, ¬ Unnameable part) :
    ∃ (names' pending : List String) (q : Place), Reaches s root names' q ∧
      (∀ name ∈ pending, ¬ Unnameable name) ∧
      appendParts names parts = .ok (names' ++ pending) ∧
      ∀ links rest, walkLinks s root links (parts.map Component.ofPart ++ rest) p =
        walkLinks s root links (pending.map .down ++ rest) q := by
  induction parts generalizing names p with
  | nil => exact ⟨names, [], p, h, by simp, by simp [appendParts], fun _ _ => rfl⟩
  | cons part parts ih =>
    obtain ⟨hname, hnames'⟩ := List.forall_mem_cons.mp hnames
    rw [upsLead] at hlead
    by_cases hstay : part = "" ∨ part = "."
    · rw [if_pos (by tauto)] at hlead
      obtain ⟨names', pending, q, hq, hpending, happend, hwalk⟩ := ih h hlead hnames'
      refine ⟨names', pending, q, hq, hpending, ?_, fun links rest => ?_⟩
      · rw [appendParts, if_pos hstay, happend]
      · rw [← hwalk, List.map_cons, ofPart_stay hstay]
        exact walkLinks_congr (List.filter_cons_of_neg (by simp)) links p
    · by_cases hup : part = ".."
      · rw [if_pos (by tauto)] at hlead
        obtain ⟨names', pending, q, hq, hpending, happend, hwalk⟩ := ih h.parent hlead hnames'
        refine ⟨names', pending, q, hq, hpending, ?_, fun links rest => ?_⟩
        · rw [appendParts, if_neg hstay, if_pos hup, happend]
        · have hcomp : Component.ofPart part = .up :=
            by rw [Component.ofPart, if_neg hstay, if_pos hup]
          rw [← hwalk, List.map_cons, hcomp, List.cons_append]
          cases links with
          | zero => simp [walkLinks, walkComponents, h.isDir hroot]
          | succ links => simp [walkLinks, walkComponents, h.isDir hroot]
      · rw [if_neg (by tauto), decide_eq_true_eq] at hlead
        have hups : ".." ∉ part :: parts := by
          rw [List.mem_cons, not_or]
          exact ⟨Ne.symm hup, hlead⟩
        refine ⟨names, (part :: parts).filter fun part => part ≠ "" ∧ part ≠ ".", p, h, ?_,
          appendParts_names hups hnames names, fun links rest => ?_⟩
        · intro name hmem
          exact hnames name (List.mem_of_mem_filter hmem)
        · apply walkLinks_congr
          rw [List.filter_append, List.filter_append, filter_ofPart hups, filter_down]

theorem Reaches.firstLink (h : Reaches s root names p) (pending : List String) :
    FluxFS.firstLink s (names ++ pending) [] root =
      FluxFS.firstLink s pending names p.reached := by
  induction h generalizing pending with
  | root => rfl
  | @down names p name child _ hchild hdir ih =>
    rw [List.append_assoc, List.singleton_append, ih, FluxFS.firstLink, hchild]
    simp [hdir]

/-! ## Agreement -/

end

end FluxFS
