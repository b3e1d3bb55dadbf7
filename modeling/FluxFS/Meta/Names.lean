import FluxFS.Meta.Rollback

/-!
# Names — the grammar of stored entry names

`Link` and `Rename` put an entry only under a name that `Dentry::validate`
accepts. `Create`, `Symlink` and `ImportExternal` make their own check, which
has no length bound, so a name of 256 to 494 bytes is stored and then cannot
be renamed. Requests that stay within the bound keep every stored name valid.
-/

namespace FluxFS

open Std Kit Txn

/-- Every stored name is valid. -/
def Tables.NamesValid (s : Tables) : Prop :=
  ∀ (k : NameKey) (child : InodeId), s.dentries[k]? = some child → Dentry.validate k.name = .ok ()

namespace Tables.NamesValid
variable {now : Clock} {s t : Tables} {op : MetaOp} {faulty records : Prop}
  {start : Keyed Inode.id}

theorem fresh (now : Int) : (Tables.fresh now).NamesValid := by
  intro k child h
  simp [Tables.fresh] at h

theorem putDentry (h : s.NamesValid) {k : NameKey} (hk : Dentry.validate k.name = .ok ())
    (child : InodeId) : (s.putDentry k child).NamesValid := by
  intro a c hc
  rw [get_putDentry] at hc
  split at hc
  · rename_i heq
    exact heq ▸ hk
  · exact h a c hc

theorem eraseDentry (h : s.NamesValid) (k : NameKey) : (s.eraseDentry k).NamesValid := by
  intro a c hc
  rw [get_eraseDentry] at hc
  split at hc
  · cases hc
  · exact h a c hc

theorem edit (hshort : op.shortNewName = true) (h : s.NamesValid)
    (e : Edit now op faulty records start s t) : t.NamesValid := by
  cases e with
  | addEntry _ _ _ hname => exact putDentry (s := s.addInode _) h (hname hshort) _
  | linkEntry _ _ _ _ _ hname => exact putDentry (s := s.putInode _) h hname _
  | moveEntry _ _ _ _ _ _ _ hname => exact (h.eraseDentry _).putDentry hname _
  | unlinkEntry => exact h.eraseDentry _
  | reapEntry => exact h.eraseDentry _
  | eraseEntry => exact h.eraseDentry _
  | removeDir => exact h.eraseDentry _
  | closePresence => exact reapAll_keep (fun _ _ _ ha _ _ _ => ha) _ h
  | _ => exact h

theorem request {req : MetaRaftRequest} (hshort : req.op.shortNewName = true)
    (h : s.NamesValid) : (applyRaftRequest now req s).2.NamesValid := by
  cases hexec : req.executes s with
  | false =>
    obtain ⟨after, hafter⟩ := applyRaftRequest_of_not_executes now hexec
    rw [hafter]
    exact h
  | true =>
    obtain ⟨before, after, -, hafter⟩ := applyRaftRequest_of_executes now hexec
    rw [hafter]
    refine performOp_keeps (P := NamesValid) (fun _ _ ha e => ha.edit hshort e) (fun t ht => ?_) h
    exact fun k child hentry => (ht.entry k child hentry).elim (h k child) id

theorem run {start : Int} {requests : List MetaRequest}
    (hshort : ∀ r ∈ requests, r.req.op.shortNewName = true) :
    (runMeta (Tables.fresh start) requests).NamesValid :=
  runMeta_invariant (fun _ _ hr hs => hs.request hr) requests hshort (fresh start)

end Tables.NamesValid

/-! ## The errors of a rename -/

/-- An error that `Dentry::validate` reports about some name. -/
def IsNameError (e : FluxError) : Prop := ∃ name, Dentry.validate name = .error e

/-- The texts of the name errors start with one of three letters. -/
theorem IsNameError.text {e : FluxError} (h : IsNameError e) :
    ∃ text : String, e = .invalidArg text ∧ text.toList.head? ∈ [some 'e', some 'd', some 'r'] := by
  obtain ⟨name, h⟩ := h
  unfold Dentry.validate at h
  split at h
  · cases h
    exact ⟨_, rfl, by decide⟩
  · split at h
    · cases h
      exact ⟨_, rfl, by simp [toString, String.toList_append]⟩
    · split at h
      · cases h
        exact ⟨_, rfl, by simp [toString, String.toList_append]⟩
      · split at h
        · cases h
          exact ⟨_, rfl, by simp [toString, String.toList_append]⟩
        · cases h

/-- The errors of a rename whose two names are valid. -/
def NotNameError (e : FluxError) : Prop := ¬ IsNameError e

theorem notNameError_of_text {text : String}
    (h : text.toList.head? ∉ [some 'e', some 'd', some 'r']) : NotNameError (.invalidArg text) := by
  intro herror
  obtain ⟨text', heq, hhead⟩ := herror.text
  cases heq
  exact h hhead

theorem notNameError_of_ne {e : FluxError} (h : ∀ text, e ≠ .invalidArg text) : NotNameError e := by
  intro herror
  obtain ⟨text, heq, -⟩ := herror.text
  exact h text heq

section
variable {now : Clock} {time : Int} {i : Inode} {id : InodeId}
  {expected expectedOld expectedNew : Option Generation}
  {oldKey newKey : NameKey} {noReplace : Bool} {destination : Option InodeId}

theorem getInodeRaw_raises : Raises NotNameError (getInodeRaw id) := by
  refine .query fun s e he => ?_
  split at he
  · cases he
  · cases he
    exact notNameError_of_ne (by simp)

theorem checkOptionalGeneration_raises :
    Raises NotNameError (checkOptionalGeneration i expected) := by
  cases expected with
  | none => exact .pure _
  | some expected => exact .failIf _ (notNameError_of_ne (by simp))

theorem loadAndBumpParentDir_raises :
    Raises NotNameError (loadAndBumpParentDir time id expected) := by
  refine getInodeRaw_raises.bind fun _ => ?_
  refine (Raises.failIf _ (notNameError_of_ne (by simp))).bind fun _ => ?_
  exact checkOptionalGeneration_raises.bind fun _ => (Raises.modify _).bind fun _ => .pure _

/-- The search below a directory fails on a missing child only. -/
theorem inodeIsDescendant_error {s : Tables} {ancestor candidate : InodeId} {e : FluxError}
    (h : inodeIsDescendant s ancestor candidate = .error e) : e = .notFound := by
  unfold inodeIsDescendant at h
  split at h
  · cases h
  · cases hsearch : search (visitDirectory s candidate) (s.dentries.size + 2) [ancestor] [] with
    | none =>
      rw [hsearch] at h
      cases h
    | some r =>
      rw [hsearch, Option.getD_some] at h
      obtain ⟨_, _, dir, _, hend⟩ := reached_of_search hsearch (by simp [h])
      rcases hend with ⟨_, htrue⟩ | ⟨e', hvisit, herror⟩
      · rw [h] at htrue
        cases htrue
      · rw [h] at herror
        cases herror
        exact (missing_of_scan_error hvisit).1

theorem checkNotBelow_raises : Raises NotNameError (checkNotBelow i id) := by
  unfold checkNotBelow
  split
  · refine Raises.bind (.query fun s e he => ?_) fun _ => ?_
    · rw [inodeIsDescendant_error he]
      exact notNameError_of_ne (by simp)
    · exact .failIf _ (notNameError_of_text (by decide))
  · exact .pure _

theorem checkReplace_raises : Raises NotNameError (checkReplace i destination) := by
  cases destination with
  | none => exact .pure _
  | some id =>
    refine getInodeRaw_raises.bind fun _ => ?_
    refine (Raises.failIf _ (notNameError_of_ne (by simp))).bind fun _ => ?_
    refine (Raises.failIf _ (notNameError_of_ne (by simp))).bind fun _ => ?_
    exact (Raises.reads _).bind fun _ => .failIf _ (notNameError_of_ne (by simp))

theorem removeDestination_raises :
    Raises NotNameError (removeDestination time newKey destination) := by
  cases destination with
  | none => exact .pure _
  | some id =>
    refine (Raises.modify _).bind fun _ => getInodeRaw_raises.bind fun _ => ?_
    split
    · exact .modify _
    · refine (Raises.failIf _ (notNameError_of_ne (by simp))).bind fun _ => ?_
      refine (Raises.failIf _ (notNameError_of_text (by decide))).bind fun _ => ?_
      refine (Raises.reads _).bind fun _ => ?_
      split
      · exact .modify _
      · exact .modify _

theorem renameWrites_raises {source : Inode} : Raises NotNameError
    (renameWrites now expectedOld oldKey expectedNew newKey source destination) := by
  have hbump : Raises NotNameError
      (bumpNewParent now.newParent oldKey.owner newKey.owner expectedNew) := by
    unfold bumpNewParent
    split
    · exact loadAndBumpParentDir_raises.bind fun _ => .pure _
    · exact .pure _
  have hput : Raises NotNameError (putDentryRow newKey source.id) :=
    (Raises.failIf _ (notNameError_of_ne (by simp))).bind fun _ => .modify _
  refine loadAndBumpParentDir_raises.bind fun _ => hbump.bind fun _ => ?_
  refine removeDestination_raises.bind fun _ => (Raises.modify _).bind fun _ => ?_
  exact hput.bind fun _ => (Raises.modify _).bind fun _ => .pure _

theorem renameInTxn_raises (hold : Dentry.validate oldKey.name = .ok ())
    (hnew : Dentry.validate newKey.name = .ok ()) :
    Raises NotNameError (renameInTxn now expectedOld oldKey expectedNew newKey noReplace) := by
  have hname {name : String} (h : Dentry.validate name = .ok ()) :
      Raises NotNameError (validateDentryName name) := by
    refine .query fun s e he => ?_
    rw [h] at he
    cases he
  have hlookup : Raises NotNameError (lookupDentry oldKey) := by
    refine .query fun s e he => ?_
    split at he
    · cases he
    · cases he
      exact notNameError_of_ne (by simp)
  have hchecks : Raises NotNameError
      (renameChecks expectedOld oldKey expectedNew newKey noReplace) := by
    refine (hname hold).bind fun _ => (hname hnew).bind fun _ => hlookup.bind fun _ => ?_
    refine getInodeRaw_raises.bind fun _ => getInodeRaw_raises.bind fun _ => ?_
    refine getInodeRaw_raises.bind fun _ => ?_
    refine (Raises.failIf _ (notNameError_of_ne (by simp))).bind fun _ => ?_
    refine checkOptionalGeneration_raises.bind fun _ => ?_
    refine checkOptionalGeneration_raises.bind fun _ => ?_
    split
    · exact .pure _
    · refine checkNotBelow_raises.bind fun _ => (Raises.reads _).bind fun _ => ?_
      refine (Raises.failIf _ (notNameError_of_ne (by simp))).bind fun _ => ?_
      split
      · exact .pure _
      · exact checkReplace_raises.bind fun _ => .pure _
  refine hchecks.bind ?_
  rintro ⟨source, _ | destination⟩
  · exact .pure _
  · exact renameWrites_raises

end

/-- After any requests whose new names are within the bound every stored name is
valid, and a rename of any stored entry to a valid name reports no name error. -/
theorem stored_names_are_valid (start : Int) (requests : List MetaRequest)
    (hshort : ∀ r ∈ requests, r.req.op.shortNewName = true) :
    (∀ (k : NameKey) (child : InodeId),
      (runMeta (Tables.fresh start) requests).dentries[k]? = some child →
        Dentry.validate k.name = .ok ()) ∧
    ∀ (k newKey : NameKey) (child : InodeId),
      (runMeta (Tables.fresh start) requests).dentries[k]? = some child →
      Dentry.validate newKey.name = .ok () →
      ∀ (now : Clock) (expectedOld expectedNew : Option Generation) (noReplace : Bool)
        (e : FluxError), (renameInTxn now expectedOld k expectedNew newKey noReplace
          (runMeta (Tables.fresh start) requests)).1 = .error e → ¬ IsNameError e := by
  have hvalid : (runMeta (Tables.fresh start) requests).NamesValid := .run hshort
  refine ⟨hvalid, ?_⟩
  intro k newKey child hentry hnew now expectedOld expectedNew noReplace e herror
  exact renameInTxn_raises (hvalid k child hentry) hnew _ e herror

/-- The moved file is refused as a directory's replacement, not for its name. -/
theorem stored_names_are_valid_sampleRenameRun :
    Dentry.validate "b" = .ok () ∧
      (runMeta (Tables.fresh 0) sampleRenameRun).dentries[NameKey.mk 2 "b"]? = some 3 ∧
      (renameInTxn 9 none ⟨rootInode, "f"⟩ none ⟨2, "b"⟩ false
        (runMeta (Tables.fresh 0) sampleRenameRun)).1 = .error .isDirectory ∧
      ¬ IsNameError .isDirectory := by
  obtain ⟨hvalid, hrename⟩ := stored_names_are_valid 0 sampleRenameRun (by decide)
  have hentry : (runMeta (Tables.fresh 0) sampleRenameRun).dentries[NameKey.mk 2 "b"]? =
    some 3 := by
    decide +kernel
  have hrefused : (renameInTxn 9 none ⟨rootInode, "f"⟩ none ⟨2, "b"⟩ false
      (runMeta (Tables.fresh 0) sampleRenameRun)).1 = .error .isDirectory := by decide +kernel
  refine ⟨hvalid ⟨2, "b"⟩ 3 hentry, hentry, hrefused, ?_⟩
  exact hrename ⟨rootInode, "f"⟩ ⟨2, "b"⟩ 4 (by decide +kernel) (hvalid ⟨2, "b"⟩ 3 hentry) 9 none
    none false _ hrefused

/-- On a fresh store a create stores any name it accepts that fits an LMDB key. -/
theorem fresh_create_stores (name : String)
    (hname : ¬ (name.isEmpty ∨ name.toList.contains '/' ∨ name = "." ∨ name = ".."))
    (hkey : dentryKeyLen ⟨rootInode, name⟩ ≤ 511) :
    (applyRaftRequest 1 ⟨none, 0, .create rootInode name .regular 0 0 0 none⟩
      (Tables.fresh 0)).2.dentries[NameKey.mk rootInode name]? = some 2 := by
  have hop : (performOp 1 (.create rootInode name .regular 0 0 0 none) (Tables.fresh 0)).2 =
      (((Tables.fresh 0).putInode (bumpDir 1
        (newInode rootInode .directory 0o755 0 0 none 0))).addInode
        (newInode 2 .regular 0 0 0 none 1)).putDentry ⟨rootInode, name⟩ 2 := by
    have hacl : (Tables.fresh 0).xattrs[NameKey.mk rootInode defaultAcl]? = none := by
      simp [Tables.fresh]
    show (((createNodeInTxn 1 none rootInode name .regular 0 0 0 none) >>= fun inode =>
      pure (MetaRaftResponse.inode inode) : MetaTxn MetaRaftResponse) (Tables.fresh 0)).2 = _
    rw [Txn.bind_pure_state, createNode_admitted hname (fresh_vacant _) fresh_root,
      Txn.bind_of_ok (putDentryRow_run hkey), hacl]
    rfl
  have happly : (applyRaftRequest 1 ⟨none, 0, .create rootInode name .regular 0 0 0 none⟩
      (Tables.fresh 0)).2 =
        (performOp 1 (.create rootInode name .regular 0 0 0 none) (Tables.fresh 0)).2 :=
    congrArg Prod.snd (dispatch_of_allowed rfl)
  rw [happly, hop, Tables.get_putDentry, if_pos rfl]

/-- The source's name is the first thing a rename checks. -/
theorem renameInTxn_of_invalid {s : Tables} {now : Clock}
    {expectedOld expectedNew : Option Generation}
    {parent : InodeId} {name : String} {newKey : NameKey} {noReplace : Bool} {e : FluxError}
    (h : Dentry.validate name = .error e) :
    renameInTxn now expectedOld ⟨parent, name⟩ expectedNew newKey noReplace s = (.error e, s) := by
  unfold renameInTxn renameChecks validateDentryName
  rw [bind_assoc, Txn.query_bind_run, h]

/-- A name one byte above the bound. -/
def longName : String := String.ofList (List.replicate 256 'n')

/-- A create stores the name, and no rename can name it. -/
theorem created_name_is_not_renameable :
    (applyRaftRequest 1 ⟨none, 0, .create rootInode longName .regular 0 0 0 none⟩
        (Tables.fresh 0)).2.dentries[NameKey.mk rootInode longName]? = some 2 ∧
      Dentry.validate longName =
        .error (.invalidArg "dentry name too long: 256 bytes (NAME_MAX=255)") ∧
      (renameInTxn 2 none ⟨rootInode, longName⟩ none ⟨rootInode, "short"⟩ false
        (applyRaftRequest 1 ⟨none, 0, .create rootInode longName .regular 0 0 0 none⟩
          (Tables.fresh 0)).2).1 =
        .error (.invalidArg "dentry name too long: 256 bytes (NAME_MAX=255)") := by
  have haccepted : ¬ (longName.isEmpty ∨ longName.toList.contains '/' ∨ longName = "." ∨
    longName = "..") := replicate_accepted (by decide)
  have hsize : longName.utf8ByteSize = 256 := by decide +kernel
  have hinvalid : Dentry.validate longName =
      .error (.invalidArg "dentry name too long: 256 bytes (NAME_MAX=255)") := by
    rw [validate_of_checkNewName haccepted, hsize]
    decide +kernel
  refine ⟨fresh_create_stores longName haccepted (by decide +kernel), hinvalid, ?_⟩
  exact congrArg Prod.fst (renameInTxn_of_invalid hinvalid)

end FluxFS
