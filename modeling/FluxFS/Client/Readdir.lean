import FluxFS.Lib.Pages
import FluxFS.Meta.Presence

/-!
# Readdir — directory streams

`FluxFs::readdir` of `crates/fuse/src/lib.rs` over `HeedMetaStore::readdir`. A cookie
is a position in the listing that is read again at every call. Calls of one stream
meet the tables at different times. The bytes an entry takes in the reply buffer are
a parameter `size`.
-/

namespace FluxFS

open Kit

/-- `Dentry`. -/
structure Dentry where
  parent : InodeId
  name : String
  child : InodeId
deriving DecidableEq, Repr

/-- `HeedMetaStore::readdir`. -/
def Tables.readdir (s : Tables) (dir : InodeId) : Except FluxError (List Dentry) :=
  match s.inodes.get? dir with
  | none => .error .notFound
  | some inode =>
    if inode.fileType ≠ .directory then .error .notDirectory
    else .ok ((s.dentries.toList.filter (·.1.owner = dir)).map fun row =>
      ⟨dir, row.1.name, row.2⟩)

/-- What `readdir` hands to the kernel for an entry. -/
structure DirEntry where
  ino : InodeId
  cookie : Nat
  kind : FileType
  name : String
deriving DecidableEq, Repr

/-- The kernel's buffer: it takes entries as long as they fit. -/
structure ReplyDirectory where
  capacity : Nat
  used : Nat
  entries : List DirEntry

/-- One call: the tables its listing is read from, those of `get_inode` for the child at
each position, and the buffer it fills. -/
structure ReaddirCall where
  listed : Tables
  later : Nat → Tables
  capacity : Nat

section
variable (size : String → Nat)

/-- `ReplyDirectory::add`; the answer is whether the entry did not fit. -/
def ReplyDirectory.add (reply : ReplyDirectory) (entry : DirEntry) : ReplyDirectory × Bool :=
  if reply.used + size entry.name > reply.capacity then (reply, true)
  else
    ({ reply with used := reply.used + size entry.name, entries := reply.entries ++ [entry] },
      false)

/-- The loop over the children, from position `i` on. -/
def addChildren (later : Nat → Tables) (offset : Nat) :
    Nat → List Dentry → ReplyDirectory → ReplyDirectory
  | _, [], reply => reply
  | i, d :: dentries, reply =>
    if i + 3 ≤ offset then addChildren later offset (i + 1) dentries reply
    else
      match (later i).inodes.get? d.child with
      | none => addChildren later offset (i + 1) dentries reply
      | some child =>
        match reply.add size ⟨d.child, i + 3, child.fileType, d.name⟩ with
        | (reply, true) => reply
        | (reply, false) => addChildren later offset (i + 1) dentries reply

/-- `FluxFs::readdir`. -/
def readdir (call : ReaddirCall) (ino : InodeId) (offset : Nat) :
    Except FluxError (List DirEntry) :=
  match call.listed.readdir ino with
  | .error error => .error error
  | .ok dentries =>
    let reply : ReplyDirectory := ⟨call.capacity, 0, []⟩
    match if offset < 1 then reply.add size ⟨ino, 1, .directory, "."⟩ else (reply, false) with
    | (reply, true) => .ok reply.entries
    | (reply, false) =>
      match if offset < 2 then reply.add size ⟨ino, 2, .directory, ".."⟩ else
        (reply, false) with
      | (reply, true) => .ok reply.entries
      | (reply, false) => .ok (addChildren size call.later offset 0 dentries reply).entries

/-- A stream from a cookie to the first empty reply. It is `none` if a call fails or the
calls end before. -/
def walkDir (dir : InodeId) : Nat → List ReaddirCall → Option (List DirEntry)
  | _, [] => none
  | offset, call :: calls =>
    match readdir size call dir offset with
    | .error _ => none
    | .ok entries =>
      match entries.getLast? with
      | none => some []
      | some last => (walkDir dir last.cookie calls).map (entries ++ ·)

end

/-! ## What a call offers -/

/-- The children in the order of the listing, those whose inode is gone left out. -/
def childEntries (later : Nat → Tables) : Nat → List Dentry → List DirEntry
  | _, [] => []
  | i, d :: dentries =>
    match (later i).inodes.get? d.child with
    | none => childEntries later (i + 1) dentries
    | some child =>
      ⟨d.child, i + 3, child.fileType, d.name⟩ :: childEntries later (i + 1) dentries

/-- All entries of a call. -/
def ReaddirCall.stream (call : ReaddirCall) (dir : InodeId) (dentries : List Dentry) :
    List DirEntry :=
  ⟨dir, 1, .directory, "."⟩ :: ⟨dir, 2, .directory, ".."⟩ :: childEntries call.later 0 dentries

section
variable {size : String → Nat} {later : Nat → Tables} {reply : ReplyDirectory} {offset i : Nat}
  {dentries : List Dentry} {entries more : List DirEntry} {e : DirEntry}

/-- Adding until the first entry that does not fit. -/
def ReplyDirectory.addAll (size : String → Nat) (reply : ReplyDirectory) :
    List DirEntry → ReplyDirectory × Bool
  | [] => (reply, false)
  | entry :: entries =>
    match reply.add size entry with
    | (reply, true) => (reply, true)
    | (reply, false) => reply.addAll size entries

theorem ReplyDirectory.addAll_append (reply : ReplyDirectory) (entries more : List DirEntry) :
    reply.addAll size (entries ++ more) =
      match reply.addAll size entries with
      | (reply, true) => (reply, true)
      | (reply, false) => reply.addAll size more := by
  induction entries generalizing reply with
  | nil => rfl
  | cons entry entries ih =>
    rw [List.cons_append, addAll, addAll]
    split
    · rfl
    · exact ih _

theorem ReplyDirectory.addAll_if (reply : ReplyDirectory) (p : Prop) [Decidable p] (e : DirEntry) :
    reply.addAll size (if p then [e] else []) =
      if p then reply.add size e else (reply, false) := by
  split
  · rw [addAll]
    split
    · rename_i h
      exact h.symm
    · rename_i h
      exact h.symm
  · rfl

theorem addChildren_eq (reply : ReplyDirectory) :
    addChildren size later offset i dentries reply =
      (reply.addAll size ((childEntries later i dentries).filter (offset < ·.cookie))).1 := by
  induction dentries generalizing i reply with
  | nil => rfl
  | cons d dentries ih =>
    rw [addChildren, childEntries]
    cases hchild : (later i).inodes.get? d.child with
    | none => simp only [ih, ite_self]
    | some child =>
      by_cases hold : i + 3 ≤ offset
      · rw [if_pos hold, List.filter_cons_of_neg (by simpa using hold)]
        exact ih reply
      · rw [if_neg hold, List.filter_cons_of_pos (by simpa using hold), ReplyDirectory.addAll]
        dsimp only
        split
        · rfl
        · exact ih _

/-- A call adds its entries behind the cookie until one does not fit. -/
theorem readdir_eq (call : ReaddirCall) (dir : InodeId) (offset : Nat) :
    readdir size call dir offset = (call.listed.readdir dir).map fun dentries =>
      ((ReplyDirectory.mk call.capacity 0 []).addAll size
        ((call.stream dir dentries).filter (offset < ·.cookie))).1.entries := by
  rw [readdir]
  cases hlisted : call.listed.readdir dir with
  | error error => rfl
  | ok dentries =>
    have hsplit : (call.stream dir dentries).filter (offset < ·.cookie) =
        (if offset < 1 then [⟨dir, 1, .directory, "."⟩] else []) ++
          ((if offset < 2 then [⟨dir, 2, .directory, ".."⟩] else []) ++
            (childEntries call.later 0 dentries).filter (offset < ·.cookie)) := by
      rw [ReaddirCall.stream, List.filter_cons, List.filter_cons]
      by_cases h1 : offset < 1 <;> by_cases h2 : offset < 2 <;> simp [h1, h2]
    rw [Except.map, hsplit, ReplyDirectory.addAll_append, ReplyDirectory.addAll_if]
    dsimp only
    generalize (if offset < 1 then
      ReplyDirectory.add size ⟨call.capacity, 0, []⟩ ⟨dir, 1, .directory, "."⟩
        else (⟨call.capacity, 0, []⟩, false)) = first
    obtain ⟨reply, _ | _⟩ := first
    · dsimp only
      rw [ReplyDirectory.addAll_append, ReplyDirectory.addAll_if]
      generalize (if offset < 2 then
        ReplyDirectory.add size reply ⟨dir, 2, .directory, ".."⟩ else (reply, false)) = second
      obtain ⟨reply, _ | _⟩ := second
      · exact congrArg (fun r : ReplyDirectory => Except.ok r.entries) (addChildren_eq reply)
      · rfl
    · rfl

/-- What was added comes first among what was offered, and is not empty if a first entry
fits. -/
theorem ReplyDirectory.addAll_entries (size : String → Nat) (reply : ReplyDirectory)
    (entries : List DirEntry) :
    ∃ added, added <+: entries ∧ (reply.addAll size entries).1.entries = reply.entries ++ added ∧
      ∀ e ∈ entries.head?, reply.used + size e.name ≤ reply.capacity → added ≠ [] := by
  induction entries generalizing reply with
  | nil => exact ⟨[], List.prefix_rfl, by simp [addAll], nofun⟩
  | cons entry entries ih =>
    rw [addAll, add]
    by_cases hfull : reply.used + size entry.name > reply.capacity
    · rw [if_pos hfull]
      refine ⟨[], List.nil_prefix, by simp, fun e he hfits => ?_⟩
      cases he
      omega
    · rw [if_neg hfull]
      obtain ⟨added, hfront, hadded, _⟩ := ih { reply with
        used := reply.used + size entry.name, entries := reply.entries ++ [entry] }
      refine ⟨entry :: added, (List.prefix_cons_inj entry).mpr hfront, ?_, fun _ _ _ => nofun⟩
      rw [hadded, List.append_assoc]
      rfl

/-! ## The order of a stream -/

/-- The names in a directory. -/
def Tables.names (s : Tables) (dir : InodeId) : List String :=
  (s.dentries.toList.filter (·.1.owner = dir)).map (·.1.name)

/-- `.` and `..`, then the children by name. -/
def DirEntry.place (e : DirEntry) : ℕ ×ₗ String :=
  toLex (min e.cookie 3, if e.cookie < 3 then "" else e.name)

theorem DirEntry.place_child (h : 3 ≤ e.cookie) : e.place = toLex (3, e.name) := by
  rw [place, if_neg (Nat.not_lt.mpr h), Nat.min_eq_right h]

theorem names_sorted (s : Tables) (dir : InodeId) : SortedBy id (s.names dir) := by
  have hrows : s.dentries.toList.Pairwise fun a b => compare a.1 b.1 = .lt :=
    s.dentries.ordered_keys_toList
  refine List.pairwise_map.mpr (List.Pairwise.imp_of_mem ?_ (hrows.filter (·.1.owner = dir)))
  intro a b ha hb hlt
  have howner : a.1.owner = b.1.owner := by
    rw [of_decide_eq_true (List.mem_filter.mp ha).2, of_decide_eq_true (List.mem_filter.mp hb).2]
  have hself : compare a.1.owner b.1.owner = .eq := howner ▸ Std.ReflCmp.compare_self
  have hcompare : compare a.1 b.1 = compare a.1.name b.1.name := by
    show (compare a.1.owner b.1.owner).then (compare a.1.name b.1.name) = _
    rw [hself]
    rfl
  rw [hcompare] at hlt
  exact compareOfLessAndEq_eq_lt.mp hlt

theorem mem_childEntries :
    e ∈ childEntries later i dentries ↔ ∃ k d child, dentries[k]? = some d ∧
      (later (i + k)).inodes.get? d.child = some child ∧
        e = ⟨d.child, i + k + 3, child.fileType, d.name⟩ := by
  induction dentries generalizing i with
  | nil => simp [childEntries]
  | cons d dentries ih =>
    have hrest : e ∈ childEntries later (i + 1) dentries ↔
        ∃ k d' child, dentries[k]? = some d' ∧
          (later (i + (k + 1))).inodes.get? d'.child = some child ∧
            e = ⟨d'.child, i + (k + 1) + 3, child.fileType, d'.name⟩ := by
      simp only [ih, Nat.add_right_comm i 1, Nat.add_assoc]
    rw [childEntries]
    cases hchild : (later i).inodes.get? d.child with
    | none =>
      dsimp only
      rw [hrest]
      constructor
      · exact fun ⟨k, d', child, hk, h⟩ => ⟨k + 1, d', child, hk, h⟩
      · rintro ⟨_ | k, d', child, hk, hget, h⟩
        · cases hk
          rw [Nat.add_zero, hchild] at hget
          cases hget
        · exact ⟨k, d', child, hk, hget, h⟩
    | some found =>
      dsimp only
      rw [List.mem_cons, hrest]
      constructor
      · rintro (rfl | ⟨k, d', child, hk, h⟩)
        · exact ⟨0, d, found, rfl, hchild, rfl⟩
        · exact ⟨k + 1, d', child, hk, h⟩
      · rintro ⟨_ | k, d', child, hk, hget, h⟩
        · cases hk
          rw [Nat.add_zero, hchild] at hget
          cases hget
          exact .inl h
        · exact .inr ⟨k, d', child, hk, hget, h⟩

/-- The children are by name, and behind `..`. -/
theorem childEntries_sorted (hsorted : SortedBy Dentry.name dentries) :
    SortedBy DirEntry.place (childEntries later i dentries) ∧
      ∀ e ∈ childEntries later i dentries, 3 ≤ e.cookie := by
  have hcookie : ∀ e ∈ childEntries later i dentries, 3 ≤ e.cookie := by
    intro e he
    obtain ⟨k, d, child, _, _, rfl⟩ := mem_childEntries.mp he
    exact Nat.le_add_left ..
  have hnames : ((childEntries later i dentries).map (·.name)).Sublist (dentries.map (·.name)) := by
    clear hsorted hcookie
    induction dentries generalizing i with
    | nil => exact List.Sublist.refl _
    | cons d dentries ih =>
      rw [childEntries]
      split
      · exact ih.cons _
      · exact ih.cons_cons _
  have hpairs := List.pairwise_map.mp ((List.pairwise_map.mpr hsorted).sublist hnames)
  refine ⟨List.Pairwise.imp_of_mem (fun {a b} ha hb hlt => ?_) hpairs, hcookie⟩
  rw [DirEntry.place_child (hcookie a ha), DirEntry.place_child (hcookie b hb),
    Prod.Lex.toLex_lt_toLex]
  exact .inr ⟨rfl, hlt⟩

theorem readdir_dentries {s : Tables} {dir : InodeId} (h : s.readdir dir = .ok dentries) :
    dentries = (s.dentries.toList.filter (·.1.owner = dir)).map fun row =>
      ⟨dir, row.1.name, row.2⟩ := by
  rw [Tables.readdir] at h
  split at h
  · cases h
  · split at h
    · cases h
    · cases h
      rfl

theorem map_name_readdir {s : Tables} {dir : InodeId} (h : s.readdir dir = .ok dentries) :
    dentries.map (·.name) = s.names dir := by
  rw [readdir_dentries h, List.map_map]
  rfl

end

/-- All entries of a call; a listing that fails has none but the dots. -/
def ReaddirCall.entries (call : ReaddirCall) (dir : InodeId) : List DirEntry :=
  call.stream dir ((call.listed.readdir dir).toOption.getD [])

section
variable {size : String → Nat} {dir : InodeId} {offset : Nat} {call next : ReaddirCall}
  {shown : List DirEntry} {e : DirEntry} {bound : WithBot (ℕ ×ₗ String)}

theorem names_getD (call : ReaddirCall) (dir : InodeId) :
    SortedBy Dentry.name ((call.listed.readdir dir).toOption.getD []) := by
  cases h : call.listed.readdir dir with
  | error error => exact List.Pairwise.nil
  | ok dentries =>
    refine List.pairwise_map.mp ?_
    rw [Except.toOption, Option.getD_some, map_name_readdir h]
    exact names_sorted ..

theorem entries_sorted (call : ReaddirCall) (dir : InodeId) :
    SortedBy DirEntry.place (call.entries dir) := by
  rw [ReaddirCall.entries, ReaddirCall.stream]
  generalize hlisted : (call.listed.readdir dir).toOption.getD [] = dentries
  have hsorted : SortedBy DirEntry.place (childEntries call.later 0 dentries) ∧
      ∀ e ∈ childEntries call.later 0 dentries, 3 ≤ e.cookie :=
    childEntries_sorted (hlisted ▸ names_getD call dir)
  have hlower : ∀ e ∈ childEntries call.later 0 dentries, ∀ n : Nat, n < 3 →
      toLex (n, "") < e.place := by
    intro e he n hn
    rw [DirEntry.place_child (hsorted.2 e he), Prod.Lex.toLex_lt_toLex]
    exact .inl hn
  refine List.pairwise_cons.mpr ⟨fun e he => ?_, List.pairwise_cons.mpr ⟨fun e he => ?_, hsorted.1⟩⟩
  · rcases List.mem_cons.mp he with rfl | he
    · exact Prod.Lex.toLex_lt_toLex.mpr (.inl (show 1 < 2 by decide))
    · exact hlower e he 1 (by decide)
  · exact hlower e he 2 (by decide)

/-- What a call replies. -/
theorem readdir_cases (h : readdir size call dir offset = .ok shown) :
    shown <+: (call.entries dir).filter (offset < ·.cookie) ∧
      ((∀ e ∈ call.entries dir, size e.name ≤ call.capacity) → shown = [] →
        (call.entries dir).filter (offset < ·.cookie) = []) := by
  rw [readdir_eq] at h
  cases hlisted : call.listed.readdir dir with
  | error error =>
    rw [hlisted] at h
    cases h
  | ok dentries =>
    rw [hlisted] at h
    have hentries : call.entries dir = call.stream dir dentries := by
      rw [ReaddirCall.entries, hlisted]
      rfl
    rw [hentries]
    cases h
    obtain ⟨added, hfront, hadded, hfits⟩ := ReplyDirectory.addAll_entries size
      ⟨call.capacity, 0, []⟩ ((call.stream dir dentries).filter (offset < ·.cookie))
    dsimp only
    rw [hadded, List.nil_append]
    refine ⟨hfront, fun hroom hnone => ?_⟩
    by_contra hmore
    obtain ⟨e, he⟩ := Option.isSome_iff_exists.mp (List.isSome_head?.mpr hmore)
    have hmem := (List.mem_filter.mp (List.mem_of_mem_head? he)).1
    refine hfits e he ?_ hnone
    rw [Nat.zero_add]
    exact hroom e hmem

/-! ## Cookies as bounds -/

/-- The entries up to the cookie are those up to the bound. -/
def Aligned (call : ReaddirCall) (dir : InodeId) (offset : Nat) (bound : WithBot (ℕ ×ₗ String)) :
    Prop :=
  ∀ e ∈ call.entries dir, e.cookie ≤ offset ↔ (e.place : WithBot (ℕ ×ₗ String)) ≤ bound

theorem Aligned.above_eq (h : Aligned call dir offset bound) :
    (call.entries dir).filter (offset < ·.cookie) = above DirEntry.place bound
    (call.entries dir) := by
  refine List.filter_congr fun e he => ?_
  rw [decide_eq_decide, ← Nat.not_le, h e he, not_le]

/-- An entry is a dot entry or the child at its position. -/
theorem entry_cases (he : e ∈ call.entries dir) :
    (e.cookie = 1 ∨ e.cookie = 2) ∧ e.place = toLex (e.cookie, "") ∨
      ∃ k, e.cookie = k + 3 ∧ e.place = toLex (3, e.name) ∧
        (call.listed.names dir)[k]? = some e.name := by
  rw [ReaddirCall.entries, ReaddirCall.stream, List.mem_cons, List.mem_cons] at he
  rcases he with rfl | rfl | he
  · exact .inl ⟨.inl rfl, rfl⟩
  · exact .inl ⟨.inr rfl, rfl⟩
  · right
    obtain ⟨k, d, child, hk, _, rfl⟩ := mem_childEntries.mp he
    rw [Nat.zero_add]
    refine ⟨k, rfl, DirEntry.place_child (Nat.le_add_left ..), ?_⟩
    · cases hlisted : call.listed.readdir dir with
      | error error =>
        rw [hlisted] at hk
        cases hk
      | ok dentries =>
        rw [hlisted] at hk
        rw [← map_name_readdir hlisted, List.getElem?_map]
        exact congrArg (Option.map (·.name)) hk

/-- The next call meets the cookie where this one left it, if no name up to the last entry
has come or gone. -/
theorem aligned_next (he : e ∈ call.entries dir)
    (hsteady : 2 < e.cookie → (next.listed.names dir).filter (· ≤ e.name) =
      (call.listed.names dir).filter (· ≤ e.name)) :
    Aligned next dir e.cookie e.place := by
  intro f hf
  rw [WithBot.coe_le_coe]
  rcases entry_cases he with ⟨hdot, hplace⟩ | ⟨i, hi, hplace, hname⟩
  · rcases entry_cases hf with ⟨hdot', hplace'⟩ | ⟨k, hk, hplace', hname'⟩
    · rw [hplace, hplace', Prod.Lex.toLex_le_toLex]
      simp only [le_refl, and_true]
      omega
    · rw [hplace, hplace', Prod.Lex.toLex_le_toLex]
      dsimp only
      omega
  · rcases entry_cases hf with ⟨hdot', hplace'⟩ | ⟨k, hk, hplace', hname'⟩
    · rw [hplace, hplace', Prod.Lex.toLex_le_toLex]
      dsimp only
      omega
    · have hindex := (names_sorted call.listed dir).index_le_iff (names_sorted next.listed dir)
        (hsteady (by omega)).symm hname hname'
      rw [hplace, hplace', Prod.Lex.toLex_le_toLex, hi, hk]
      simp only [lt_self_iff_false, false_or, true_and]
      rw [← hindex]
      omega

end

/-! ## Streams -/

/-- The last entry a call replies. -/
def lastEntry (size : String → Nat) (call : ReaddirCall) (dir : InodeId) (offset : Nat) :
    Option DirEntry :=
  (readdir size call dir offset).toOption.bind List.getLast?

/-- From one call of the stream to the next, no name up to the last child returned comes
or goes. -/
def Undisturbed (size : String → Nat) (dir : InodeId) : Nat → List ReaddirCall → Prop
  | offset, call :: next :: calls =>
    ∀ last ∈ lastEntry size call dir offset,
      (2 < last.cookie → (next.listed.names dir).filter (· ≤ last.name) =
        (call.listed.names dir).filter (· ≤ last.name)) ∧
      Undisturbed size dir last.cookie (next :: calls)
  | _, _ => True

instance decidableUndisturbed (size : String → Nat) (dir : InodeId) :
    ∀ offset calls, Decidable (Undisturbed size dir offset calls)
  | _, [] => isTrue trivial
  | _, [_] => isTrue trivial
  | offset, call :: next :: calls =>
    have := fun o => decidableUndisturbed size dir o (next :: calls)
    inferInstanceAs (Decidable (∀ last ∈ lastEntry size call dir offset, _ ∧ _))

section
variable {size : String → Nat} {dir : InodeId} {offset : Nat} {calls : List ReaddirCall}
  {shown : List DirEntry} {bound : WithBot (ℕ ×ₗ String)}

/-- While cookies keep their meaning, a stream is a walk by name. -/
theorem walkDir_paged (hwalk : walkDir size dir offset calls = some shown)
    (hroom : ∀ call ∈ calls, ∀ e ∈ call.entries dir, size e.name ≤ call.capacity)
    (hquiet : Undisturbed size dir offset calls)
    (haligned : ∀ call ∈ calls.head?, Aligned call dir offset bound) :
    Paged DirEntry.place bound (calls.map (·.entries dir)) shown := by
  induction calls generalizing offset bound shown with
  | nil => cases hwalk
  | cons call calls ih =>
    have haligned := haligned call rfl
    rw [walkDir] at hwalk
    cases hreply : readdir size call dir offset with
    | error error =>
      rw [hreply] at hwalk
      cases hwalk
    | ok entries =>
      rw [hreply] at hwalk
      obtain ⟨hfront, hempty⟩ := readdir_cases hreply
      rw [haligned.above_eq] at hfront hempty
      have hempty := hempty (hroom call List.mem_cons_self)
      dsimp only at hwalk
      cases hlast : entries.getLast? with
      | none =>
        rw [hlast] at hwalk
        cases hwalk
        exact .done (hempty (List.getLast?_eq_none_iff.mp hlast))
      | some last =>
        rw [hlast] at hwalk
        obtain ⟨more, hmore, rfl⟩ := Option.map_eq_some_iff.mp hwalk
        obtain ⟨page, rfl⟩ := List.getLast?_eq_some_iff.mp hlast
        have hentry : last ∈ call.entries dir :=
          (mem_above.mp (hfront.subset (by simp))).1
        have hrest : Undisturbed size dir last.cookie calls ∧
            ∀ next ∈ calls.head?, Aligned next dir last.cookie last.place := by
          cases calls with
          | nil => exact ⟨trivial, nofun⟩
          | cons next calls =>
            have hlastEntry : last ∈ lastEntry size call dir offset := by
              rw [lastEntry, hreply]
              exact hlast
            obtain ⟨hnames, hquiet⟩ := hquiet last hlastEntry
            refine ⟨hquiet, fun _ h => ?_⟩
            cases h
            exact aligned_next hentry hnames
        exact .page hfront (ih hmore (fun c hc => hroom c (List.mem_cons_of_mem _ hc))
          hrest.1 hrest.2)

theorem entry_name {call : ReaddirCall} {e : DirEntry} (he : e ∈ call.entries dir) :
    e.name ∈ "." :: ".." :: call.listed.names dir := by
  rw [ReaddirCall.entries, ReaddirCall.stream, List.mem_cons, List.mem_cons] at he
  rcases he with rfl | rfl | he
  · exact List.mem_cons_self
  · exact List.mem_cons_of_mem _ List.mem_cons_self
  · obtain ⟨k, d, child, hk, _, rfl⟩ := mem_childEntries.mp he
    refine List.mem_cons_of_mem _ (List.mem_cons_of_mem _ ?_)
    cases hlisted : call.listed.readdir dir with
    | error error =>
      rw [hlisted] at hk
      cases hk
    | ok dentries =>
      rw [hlisted] at hk
      rw [← map_name_readdir hlisted]
      exact List.mem_map_of_mem (List.mem_of_getElem? hk)

/-- A child with an inode is among the entries of a call. -/
theorem entry_of_dentry {call : ReaddirCall} {name : String} {child : InodeId}
    (hlisted : Tree call.listed) (hlater : ∀ i, Tree (call.later i))
    (hrow : call.listed.dentries[NameKey.mk dir name]? = some child)
    (hrows : ∀ i, (call.later i).dentries[NameKey.mk dir name]? = some child) :
    ∃ e ∈ call.entries dir, e.place = toLex (3, name) ∧ e.ino = child := by
  obtain ⟨inode, hinode, hdir⟩ := hlisted.parent _ _ hrow
  have hread : ∃ dentries, call.listed.readdir dir = .ok dentries := by
    rw [Tables.readdir, hinode]
    dsimp only
    rw [if_neg (not_not.mpr hdir)]
    exact ⟨_, rfl⟩
  obtain ⟨dentries, hread⟩ := hread
  have hmem : (⟨dir, name, child⟩ : Dentry) ∈ dentries := by
    rw [readdir_dentries hread]
    refine List.mem_map.mpr ⟨(⟨dir, name⟩, child), List.mem_filter.mpr ⟨?_, by simp⟩, rfl⟩
    exact (Table.mem_rows ..).mpr hrow
  obtain ⟨k, hk⟩ := List.mem_iff_getElem?.mp hmem
  obtain ⟨i, hi⟩ := (hlater k).child _ _ (hrows k)
  refine ⟨⟨child, 0 + k + 3, i.fileType, name⟩, ?_,
    DirEntry.place_child (Nat.le_add_left ..), rfl⟩
  rw [ReaddirCall.entries, hread]
  refine List.mem_cons_of_mem _ (List.mem_cons_of_mem _ (mem_childEntries.mpr ?_))
  exact ⟨k, _, i, hk, by rwa [Nat.zero_add], rfl⟩

/-- The calls of a stream share one order. -/
theorem listings_sorted (calls : List ReaddirCall) (dir : InodeId) :
    ∀ l ∈ calls.map (·.entries dir), SortedBy DirEntry.place l := by
  intro l hl
  obtain ⟨call, _, rfl⟩ := List.mem_map.mp hl
  exact entries_sorted call dir

/-- The dot entries come once. -/
theorem dots_of_paged (h : Paged DirEntry.place ⊥ (calls.map (·.entries dir)) shown) :
    shown.filter (·.cookie < 3) = [⟨dir, 1, .directory, "."⟩, ⟨dir, 2, .directory, ".."⟩] := by
  -- the dot entries are in every call
  have hdots : ∀ e : DirEntry, e ∈ [(⟨dir, 1, .directory, "."⟩ : DirEntry),
      ⟨dir, 2, .directory, ".."⟩] → e ∈ shown := by
    intro e he
    have hsteady : ∀ l ∈ calls.map (·.entries dir), ∃ a ∈ l, a.place = e.place ∧ a = e := by
      intro l hl
      obtain ⟨call, _, rfl⟩ := List.mem_map.mp hl
      refine ⟨e, ?_, rfl, rfl⟩
      exact List.mem_append_left (childEntries _ _ _) he
    obtain ⟨a, ha, _, rfl⟩ := h.complete (listings_sorted calls dir) hsteady (WithBot.bot_lt_coe _)
    exact ha
  refine ((h.sorted (listings_sorted calls dir)).1.filter _).eq_of_mem_iff ?_ fun e => ?_
  · refine List.pairwise_pair.mpr ?_
    exact Prod.Lex.toLex_lt_toLex.mpr (.inl (show 1 < 2 by decide))
  · rw [List.mem_filter, decide_eq_true_iff]
    constructor
    · rintro ⟨he, hcookie⟩
      obtain ⟨l, hl, he⟩ := h.mem he
      obtain ⟨call, _, rfl⟩ := List.mem_map.mp hl
      rcases List.mem_cons.mp he with rfl | he
      · simp
      · rcases List.mem_cons.mp he with rfl | he
        · simp
        · obtain ⟨k, d, child, _, _, rfl⟩ := mem_childEntries.mp he
          exact absurd hcookie (Nat.not_lt.mpr (Nat.le_add_left ..))
    · intro he
      refine ⟨hdots e he, ?_⟩
      simp only [List.mem_cons, List.not_mem_nil, or_false] at he
      rcases he with rfl | rfl
      · exact (by decide : 1 < 3)
      · exact (by decide : 2 < 3)

/-- A stream misses and repeats nothing, if no name up to the last one returned comes or
goes between its calls and every buffer has room for any one entry. -/
theorem readdir_stream_exact (size : String → Nat) (dir : InodeId) (calls : List ReaddirCall)
    (shown : List DirEntry) (hwalk : walkDir size dir 0 calls = some shown)
    (htree : ∀ call ∈ calls, Tree call.listed ∧ ∀ i, Tree (call.later i))
    (hroom : ∀ call ∈ calls, ∀ name ∈ "." :: ".." :: call.listed.names dir,
      size name ≤ call.capacity)
    (hquiet : Undisturbed size dir 0 calls) :
    shown.filter (·.cookie < 3) = [⟨dir, 1, .directory, "."⟩, ⟨dir, 2, .directory, ".."⟩] ∧
      ∀ name child,
        (∀ call ∈ calls, call.listed.dentries[NameKey.mk dir name]? = some child ∧
          ∀ i, (call.later i).dentries[NameKey.mk dir name]? = some child) →
        (shown.filter fun e => 3 ≤ e.cookie ∧ e.name = name).map (·.ino) = [child] := by
  have hpaged : Paged DirEntry.place ⊥ (calls.map (·.entries dir)) shown := by
    refine walkDir_paged hwalk (fun call hcall e he => hroom call hcall _ (entry_name he)) hquiet ?_
    intro call _ e he
    rw [le_bot_iff]
    rcases entry_cases he with ⟨hdot, _⟩ | ⟨k, hk, _⟩
    · exact iff_of_false (by omega) (WithBot.coe_ne_bot)
    · exact iff_of_false (by omega) (WithBot.coe_ne_bot)
  have hlistings := listings_sorted calls dir
  have hsorted := (hpaged.sorted hlistings).1
  refine ⟨dots_of_paged hpaged, fun name child hsteady => ?_⟩
  have hfound : ∃ e ∈ shown, e.place = toLex (3, name) ∧ e.ino = child := by
    refine hpaged.complete hlistings (fun l hl => ?_) (WithBot.bot_lt_coe _)
    obtain ⟨call, hcall, rfl⟩ := List.mem_map.mp hl
    obtain ⟨hlisted, hlater⟩ := htree call hcall
    exact entry_of_dentry hlisted hlater (hsteady call hcall).1 (hsteady call hcall).2
  obtain ⟨e, he, hkey, rfl⟩ := hfound
  have hchild : 3 ≤ e.cookie ∧ e.name = name := by
    by_cases h3 : 3 ≤ e.cookie
    · rw [DirEntry.place_child h3] at hkey
      exact ⟨h3, congrArg (fun p => (ofLex p).2) hkey⟩
    · have hfirst : min e.cookie 3 = 3 := congrArg (fun p => (ofLex p).1) hkey
      omega
  have honly : (shown.filter fun e => 3 ≤ e.cookie ∧ e.name = name) = [e] := by
    refine (hsorted.filter _).eq_of_mem_iff (List.pairwise_singleton ..) fun a => ?_
    rw [List.mem_filter, decide_eq_true_iff, List.mem_singleton]
    constructor
    · rintro ⟨ha, h3, rfl⟩
      exact hsorted.eq_of_key ha he ((DirEntry.place_child h3).trans hkey.symm)
    · rintro rfl
      exact ⟨he, hchild⟩
  rw [honly]
  rfl

end

/-! ## Two streams -/

/-- The bytes `fuser` lays out for an entry: a 24-byte header and the name, padded to 8. -/
def direntSize (name : String) : Nat := (24 + name.utf8ByteSize + 7) / 8 * 8

/-- A directory with the files `a`, `b` and `c`. -/
def abcRun : List MetaRequest :=
  [⟨1, none, 0, .create rootInode "a" .regular 0o644 0 0 none⟩,
    ⟨2, none, 0, .create rootInode "b" .regular 0o644 0 0 none⟩,
    ⟨3, none, 0, .create rootInode "c" .regular 0o644 0 0 none⟩]

/-- The name before the cookie goes away. -/
def removeA : MetaRequest := ⟨4, none, 0, .unlink rootInode "a" none⟩

/-- A name behind the last one. -/
def createD : MetaRequest := ⟨4, none, 0, .create rootInode "d" .regular 0o644 0 0 none⟩

/-- A call with room for three short names. -/
def shortCall (requests : List MetaRequest) : ReaddirCall :=
  let s := runMeta (Tables.fresh 0) requests
  ⟨s, fun _ => s, 96⟩

theorem readdir_stream_exact_createD :
    let calls := [shortCall abcRun, shortCall (abcRun ++ [createD]), shortCall
      (abcRun ++ [createD])]
    ∃ shown, walkDir direntSize rootInode 0 calls = some shown ∧
      (shown.filter fun e => 3 ≤ e.cookie ∧ e.name = "b").map (·.ino) = [3] := by
  intro calls
  have hreturns : (walkDir direntSize rootInode 0 calls).isSome := by decide +kernel
  obtain ⟨shown, hshown⟩ := Option.isSome_iff_exists.mp hreturns
  have htree : ∀ requests ∈ [abcRun, abcRun ++ [createD]],
      Tree (runMeta (Tables.fresh 0) requests) ∧
        (runMeta (Tables.fresh 0) requests).dentries[NameKey.mk rootInode "b"]? = some 3 := by
    intro requests hrequests
    have horderly : ∀ requests ∈ [abcRun, abcRun ++ [createD]],
        Along metaStep Orderly (Tables.fresh 0) requests ∧
          (runMeta (Tables.fresh 0) requests).dentries[NameKey.mk rootInode "b"]? = some 3 := by
      decide +kernel
    obtain ⟨horderly, hrow⟩ := horderly requests hrequests
    exact ⟨(tree_and_lifetime_of_run horderly (exec_metaStep _ _)).1, hrow⟩
  have hcalls : ∀ call ∈ calls, ∃ requests ∈ [abcRun, abcRun ++ [createD]],
      call = shortCall requests := by
    simp [calls]
  refine ⟨shown, hshown, (readdir_stream_exact direntSize rootInode calls shown hshown ?_
    (by decide +kernel) (by decide +kernel)).2 "b" 3 ?_⟩
  · intro call hcall
    obtain ⟨requests, hrequests, rfl⟩ := hcalls call hcall
    exact ⟨(htree requests hrequests).1, fun _ => (htree requests hrequests).1⟩
  · intro call hcall
    obtain ⟨requests, hrequests, rfl⟩ := hcalls call hcall
    exact ⟨(htree requests hrequests).2, fun _ => (htree requests hrequests).2⟩

/-- Removing `a` moves `b` in front of the cookie: the stream never returns it. -/
theorem removal_hides_name :
    let calls := [shortCall abcRun, shortCall (abcRun ++ [removeA]), shortCall
      (abcRun ++ [removeA])]
    (walkDir direntSize rootInode 0 calls).map (·.map (·.name)) = some [".", "..", "a", "c"] ∧
      ∀ call ∈ calls, call.listed.dentries[NameKey.mk rootInode "b"]? = some 3 ∧
        ∀ i, (call.later i).dentries[NameKey.mk rootInode "b"]? = some 3 := by
  refine ⟨by decide +kernel, fun call hcall => ?_⟩
  have hrow : ∀ requests ∈ [abcRun, abcRun ++ [removeA]],
      (runMeta (Tables.fresh 0) requests).dentries[NameKey.mk rootInode "b"]? = some 3 := by
    decide +kernel
  have hcalls : ∃ requests ∈ [abcRun, abcRun ++ [removeA]], call = shortCall requests := by
    simpa using hcall
  obtain ⟨requests, hrequests, rfl⟩ := hcalls
  exact ⟨hrow requests hrequests, fun _ => hrow requests hrequests⟩

end FluxFS
