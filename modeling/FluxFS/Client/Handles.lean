import FluxFS.Client.Rpc
import FluxFS.Meta.Presence

/-!
# Handles — the open handles of one mount

`FluxClient` counts the handles it has open on each inode and asks for the
durable presence row only with the first open and the last close. `Mount` is
that counter table beside the metadata; a run interleaves handle calls, whose
requests may be lost or lose their reply, with the requests of everybody else.
-/

namespace FluxFS

open Std Kit

/-! ## Handle calls -/

/-- A mount: the store it talks to and its counters. -/
structure Mount where
  tables : Tables
  /-- `open_inode_counts`. -/
  counts : Table InodeId Nat

/-- The handles counted on an inode. -/
def Mount.count (m : Mount) (inode : InodeId) : Nat := (m.counts[inode]?).getD 0

/-- A request of the mount, of which only success or failure is seen. -/
def callMeta (rpc : Rpc) (op : MetaOp) : Txn Mount FluxError Unit := fun m =>
  let (result, t) := rpc.call op mapEmpty m.tables
  (result, { m with tables := t })

/-- Set a counter. -/
def setCount (inode : InodeId) (count : Nat) : Txn Mount FluxError Unit :=
  Txn.modify fun m => { m with counts := m.counts.insert inode count }

/-- The durable row is asked for with the first handle only. -/
def openFirstHandle (sessionId : String) (inode : InodeId) (rpc : Rpc) (count : Nat) :
    Txn Mount FluxError Unit :=
  if count = 0 then callMeta rpc (.openInode sessionId inode) else pure ()

/-- `FluxClient::open_inode_handle`. -/
def openInodeHandle (sessionId : String) (inode : InodeId) (rpc : Rpc) :
    Txn Mount FluxError Unit := do
  let count ← Txn.reads (Mount.count · inode)
  -- `entry(inode).or_insert(0)` stays when the request fails
  setCount inode count
  openFirstHandle sessionId inode rpc count
  Txn.failIf (count + 1 > u64Max) (.invalidArg "open inode count overflow")
  setCount inode (count + 1)

/-- The last close of a counted inode. -/
def closeLastHandle (sessionId : String) (inode : InodeId) (rpc : Rpc) :
    Txn Mount FluxError Unit := do
  callMeta rpc (.closeInode sessionId inode)
  Txn.modify fun m => { m with counts := m.counts.erase inode }

/-- `FluxClient::close_inode_handle`. -/
def closeInodeHandle (sessionId : String) (inode : InodeId) (rpc : Rpc) :
    Txn Mount FluxError Unit := fun m =>
  match m.counts[inode]? with
  | none => callMeta rpc (.closeInode sessionId inode) m
  | some count =>
    if count > 1 then setCount inode (count - 1) m
    else closeLastHandle sessionId inode rpc m

/-! ## Runs of a mount -/

/-- A handle call that returned `Ok`. -/
inductive HandleCall
  | opened (inode : InodeId)
  | closed (inode : InodeId)
deriving DecidableEq, Repr

/-- A mount with the handle calls that returned `Ok`, newest first. -/
structure MountState extends Mount where
  log : List HandleCall

/-- A mount that has opened nothing. -/
def MountState.start (s : Tables) : MountState := ⟨⟨s, ∅⟩, []⟩

/-- The log after a call with the given result. -/
def logCall (call : HandleCall) : Except FluxError Unit → List HandleCall → List HandleCall
  | .ok _, log => call :: log
  | .error _, log => log

/-- A step of a mount or of anyone else. -/
inductive MountAction
  | openHandle (inode : InodeId) (rpc : Rpc)
  | closeHandle (inode : InodeId) (rpc : Rpc)
  /-- Any other request, of this mount or of another. -/
  | request (r : MetaRequest)
deriving DecidableEq, Repr

/-- A request clients make of `s`: no raw `PutInode`, and an image that has the
type of the record it replaces. -/
def FromClient (s : Tables) (r : MetaRequest) : Prop :=
  r.req.op.isRaw = false ∧ r.req.op.keepsLinks s = true

instance (s : Tables) (r : MetaRequest) : Decidable (FromClient s r) :=
  inferInstanceAs (Decidable (_ ∧ _))

/-- The request takes back no row of the session: it is not one of the mount's
own closes, which are handle calls, nor the recovery of its session. -/
def MetaOp.leavesSession (sessionId : String) : MetaOp → Bool
  | .closeInode session _ | .recoverSession session => session ≠ sessionId
  | _ => true

/-- One step. -/
def mountStep (sessionId : String) (st : MountState) : MountAction → Option MountState
  | .openHandle inode rpc =>
    if rpc.isFresh st.tables then
      let (result, m) := openInodeHandle sessionId inode rpc st.toMount
      some ⟨m, logCall (.opened inode) result st.log⟩
    else none
  | .closeHandle inode rpc =>
    if rpc.isFresh st.tables then
      let (result, m) := closeInodeHandle sessionId inode rpc st.toMount
      some ⟨m, logCall (.closed inode) result st.log⟩
    else none
  | .request r =>
    if FromClient st.tables r ∧ r.req.op.leavesSession sessionId = true then
      some ⟨⟨(applyRaftRequest r.now r.req st.tables).2, st.counts⟩, st.log⟩
    else none

/-! ## What a call does -/

section
variable {sessionId : String} {inode : InodeId} {rpc : Rpc} {m : Mount} {s : Tables} {op : MetaOp}

theorem openInodeInTxn_row {t : Tables} (h : openInodeInTxn sessionId inode s = (.ok (), t)) :
    t.openPresence[NameKey.mk inode sessionId]? = some () := by
  rcases Txn.bind_cases h with ⟨_, _, _, h⟩ | ⟨_, _, herr⟩
  · rcases Txn.bind_cases h with ⟨_, _, _, h⟩ | ⟨_, _, herr⟩
    · rcases Txn.bind_cases h with ⟨_, _, _, h⟩ | ⟨_, _, herr⟩
      · cases h
        exact (Table.get_insert ..).trans (if_pos rfl)
      · cases herr
    · cases herr
  · cases herr

theorem closeInodeInTxn_error {t : Tables} {e : FluxError}
    (h : closeInodeInTxn sessionId inode s = (.error e, t)) : t = s := by
  rw [closeInodeInTxn, Txn.query_bind_run] at h
  split at h
  · cases h
  · cases h
    rfl

/-- An `OpenInode` that is answered with `Ok` has put its row. -/
theorem openInode_answered (hfresh : rpc.isFresh s = true)
    (h : rpc.response (.openInode sessionId inode) s = .empty) :
    (rpc.applied (.openInode sessionId inode) s).openPresence[NameKey.mk inode sessionId]? =
      some () := by
  obtain ⟨before, after, _, t, hok, _, htables⟩ :=
    Rpc.performed (.openInode sessionId inode) hfresh rfl (by simp [h])
  rw [htables]
  have hrow := openInodeInTxn_row hok
  exact hrow

/-- A `CloseInode` that does not execute, or is answered with an error, has left
every row. -/
theorem closeInode_refused
    (h : (rpc.request (.closeInode sessionId inode)).req.executes s = true →
      rpc.response (.closeInode sessionId inode) s ≠ .empty) :
    (rpc.applied (.closeInode sessionId inode) s).openPresence = s.openPresence := by
  cases hexec : (rpc.request (.closeInode sessionId inode)).req.executes s with
  | false =>
    obtain ⟨after, htables⟩ := applyRaftRequest_of_not_executes rpc.now hexec
    rw [Rpc.applied, htables]
  | true =>
    obtain ⟨before, after, hresponse, htables⟩ := applyRaftRequest_of_executes rpc.now hexec
    rw [Rpc.applied, htables]
    rcases empty_answer (closeInodeInTxn sessionId inode) { s with clientRequests := before }
      with ⟨hempty, _⟩ | ⟨_, e, herror⟩
    · exact absurd (hresponse.trans hempty) (h hexec)
    · have hrows := congrArg Tables.openPresence (closeInodeInTxn_error herror)
      exact hrows

theorem openFirstHandle_spec {result : Except FluxError Unit} {m' : Mount} {count : Nat}
    (hfresh : rpc.isFresh m.tables = true)
    (h : openFirstHandle sessionId inode rpc count m = (result, m')) :
    m'.counts = m.counts ∧
      (m'.tables = m.tables ∨ m'.tables = rpc.applied (.openInode sessionId inode) m.tables) ∧
      (result = .ok () → count = 0 →
        m'.tables.openPresence[NameKey.mk inode sessionId]? = some ()) := by
  unfold openFirstHandle at h
  split at h
  · cases h
    refine ⟨rfl, Rpc.call_tables .., fun hok _ => ?_⟩
    obtain ⟨hresponse, htables⟩ := Rpc.call_ok hok
    show (rpc.call (.openInode sessionId inode) mapEmpty m.tables).2.openPresence[_]? = _
    rw [htables]
    exact openInode_answered hfresh (mapEmpty_ok hresponse)
  · rename_i hcount
    cases h
    exact ⟨rfl, .inl rfl, fun _ hzero => absurd hzero hcount⟩

/-- `m'` counts `n` handles on `inode`, and on every other inode as `m` does. -/
def CountAt (m m' : Mount) (inode : InodeId) (n : Nat) : Prop :=
  ∀ a, m'.count a = if inode = a then n else m.count a

theorem countAt_insert {m' : Mount} {n : Nat} (h : m'.counts = m.counts.insert inode n) :
    CountAt m m' inode n := by
  intro a
  rw [Mount.count, h, Table.get_insert]
  split <;> rfl

theorem countAt_self {m' : Mount} (h : m'.counts = m.counts) :
    CountAt m m' inode (m.count inode) := by
  intro a
  rw [Mount.count, h]
  split
  · rename_i heq
    rw [heq, Mount.count]
  · rfl

theorem CountAt.same {m' : Mount} (h : CountAt m m' inode (m.count inode)) (a : InodeId) :
    m'.count a = m.count a := by
  rw [h a]
  split
  · rename_i heq
    rw [heq]
  · rfl

/-- What an `open_inode_handle` does: the counter goes up, and if it was zero
the row is there; or the call fails and the counter is what it was. -/
theorem openInodeHandle_spec {result : Except FluxError Unit} {m' : Mount}
    (hfresh : rpc.isFresh m.tables = true)
    (h : openInodeHandle sessionId inode rpc m = (result, m')) :
    (m'.tables = m.tables ∨ m'.tables = rpc.applied (.openInode sessionId inode) m.tables) ∧
      ((result = .ok () ∧ CountAt m m' inode (m.count inode + 1) ∧
          (m.count inode = 0 → m'.tables.openPresence[NameKey.mk inode sessionId]? = some ())) ∨
        ((∃ e, result = .error e) ∧ CountAt m m' inode (m.count inode))) := by
  obtain ⟨count, hcount⟩ : ∃ count, count = m.count inode := ⟨_, rfl⟩
  have hrun : (openFirstHandle sessionId inode rpc count >>= fun _ => do
      Txn.failIf (count + 1 > u64Max) (.invalidArg "open inode count overflow")
      setCount inode (count + 1)) { m with counts := m.counts.insert inode count } =
        (result, m') := by
    rw [hcount]
    exact h
  rw [← hcount]
  rcases Txn.bind_cases hrun with ⟨_, m₁, hfirst, hrest⟩ | ⟨e, hfirst, herr⟩
  · obtain ⟨hcounts, htables, hrow⟩ := openFirstHandle_spec (by exact hfresh) hfirst
    rw [Txn.failIf_bind_run] at hrest
    split at hrest
    · cases hrest
      exact ⟨htables, .inr ⟨⟨_, rfl⟩, countAt_insert hcounts⟩⟩
    · cases hrest
      refine ⟨htables, .inl ⟨rfl, fun a => ?_, hrow rfl⟩⟩
      have hagain : CountAt m₁ { m₁ with counts := m₁.counts.insert inode (count + 1) } inode
          (count + 1) := countAt_insert rfl
      refine (hagain a).trans ?_
      rw [countAt_insert hcounts a]
      split <;> rfl
  · obtain ⟨hcounts, htables, _⟩ := openFirstHandle_spec (by exact hfresh) hfirst
    exact ⟨htables, .inr ⟨⟨e, herr⟩, countAt_insert hcounts⟩⟩

/-- What a `close_inode_handle` does: with more than one handle only the counter
goes down; otherwise the request is sent, and the counter is dropped if it is
answered with `Ok`. -/
theorem closeInodeHandle_spec {result : Except FluxError Unit} {m' : Mount}
    (h : closeInodeHandle sessionId inode rpc m = (result, m')) :
    (1 < m.count inode ∧ result = .ok () ∧ m'.tables = m.tables ∧
        CountAt m m' inode (m.count inode - 1)) ∨
      (m.count inode ≤ 1 ∧
        result = (callMeta rpc (.closeInode sessionId inode) m).1 ∧
        m'.tables = (callMeta rpc (.closeInode sessionId inode) m).2.tables ∧
        ((result = .ok () ∧ CountAt m m' inode 0) ∨
          ((∃ e, result = .error e) ∧ CountAt m m' inode (m.count inode)))) := by
  have hkept : (callMeta rpc (.closeInode sessionId inode) m).2.counts = m.counts := rfl
  unfold closeInodeHandle at h
  split at h
  · rename_i hnone
    have hzero : m.count inode = 0 := by rw [Mount.count, hnone]; rfl
    rw [h] at hkept
    have hself : CountAt m m' inode (m.count inode) := countAt_self hkept
    refine .inr ⟨by omega, by rw [h], by rw [h], ?_⟩
    cases result with
    | ok u => exact .inl ⟨rfl, hzero ▸ hself⟩
    | error e => exact .inr ⟨⟨e, rfl⟩, hself⟩
  · rename_i count hsome
    have hcount : m.count inode = count := by rw [Mount.count, hsome]; rfl
    rw [hcount]
    split at h
    · rename_i hmany
      cases h
      exact .inl ⟨hmany, rfl, rfl, countAt_insert rfl⟩
    · rename_i hlast
      refine .inr ⟨by omega, ?_⟩
      rcases Txn.bind_cases h with ⟨_, m₁, hcall, hrest⟩ | ⟨e, hcall, herr⟩
      · rw [hcall] at hkept ⊢
        cases hrest
        refine ⟨rfl, rfl, .inl ⟨rfl, fun a => ?_⟩⟩
        show ((m₁.counts.erase inode)[a]?).getD 0 = _
        rw [hkept, Table.get_erase]
        split <;> rfl
      · rw [hcall] at hkept ⊢
        exact ⟨herr, rfl, .inr ⟨⟨e, herr⟩, hcount ▸ countAt_self hkept⟩⟩

end

/-! ## The invariant of a mount -/

/-- The last counted handle of an inode is closed, and the close takes effect
but its reply is lost. -/
def MountAction.losesClose (sessionId : String) (st : MountState) : MountAction → Bool
  | .closeHandle inode rpc =>
    st.count inode = 1 &&
      (rpc.request (.closeInode sessionId inode)).req.executes st.tables &&
      match rpc.delivery with
      | .replyLost _ => true
      | _ => false
  | _ => false

theorem Owned.request {s : Tables} {r : MetaRequest} (h : Owned s) (hgrounded : Grounded s)
    (hclient : FromClient s r) :
    Grounded (applyRaftRequest r.now r.req s).2 ∧ Owned (applyRaftRequest r.now r.req s).2 := by
  apply request_keep (P := fun t => Grounded t ∧ Owned t) hgrounded
  · intro a b hab e
    exact ⟨hab.1.edit hclient.1 e, hab.2.edit hclient.1 hclient.2 hab.1 e⟩
  · exact ⟨hgrounded, h⟩

theorem Owned.row_request {s : Tables} {r : MetaRequest} {k : NameKey} (h : Owned s)
    (hgrounded : Grounded s) (hclient : FromClient s r) (hkeep : r.req.op.closes k = false)
    (hrow : s.openPresence[k]? = some ()) :
    (applyRaftRequest r.now r.req s).2.openPresence[k]? = some () := by
  have hkept : (Grounded (applyRaftRequest r.now r.req s).2 ∧
      Owned (applyRaftRequest r.now r.req s).2) ∧
        (applyRaftRequest r.now r.req s).2.openPresence[k]? = some () := by
    apply request_keep (P := fun t => (Grounded t ∧ Owned t) ∧ t.openPresence[k]? = some ())
      hgrounded
    · rintro a b ⟨⟨hground, howned⟩, hrow⟩ e
      exact ⟨⟨hground.edit hclient.1 e, howned.edit hclient.1 hclient.2 hground e⟩,
        howned.row_edit hkeep hrow e⟩
    · exact ⟨⟨hgrounded, h⟩, hrow⟩
  exact hkept.2

/-- A counted inode has the session's presence row. -/
structure MountInv (sessionId : String) (st : MountState) : Prop where
  grounded : Grounded st.tables
  owned : Owned st.tables
  row : ∀ inode, 0 < st.count inode →
    st.tables.openPresence[NameKey.mk inode sessionId]? = some ()
  /-- Over the last calls, however many, the counter has gone up by at least the
  opens less the closes. -/
  counted : ∀ inode recent, recent <+: st.log →
    recent.count (.opened inode) ≤ recent.count (.closed inode) + st.count inode

section
variable {sessionId : String} {st st' : MountState}

theorem counted_cons {call : HandleCall} {log : List HandleCall} {inode : InodeId} {n n' : Nat}
    (h : ∀ recent, recent <+: log →
      recent.count (.opened inode) ≤ recent.count (.closed inode) + n)
    (hcall : [call].count (.opened inode) + n ≤ [call].count (.closed inode) + n')
    (recent : List HandleCall) (hrecent : recent <+: call :: log) :
    recent.count (.opened inode) ≤ recent.count (.closed inode) + n' := by
  rcases List.prefix_cons_iff.mp hrecent with rfl | ⟨earlier, rfl, hearlier⟩
  · simp
  · have hbefore := h earlier hearlier
    rw [List.count_cons, List.count_cons]
    rw [List.count_singleton, List.count_singleton] at hcall
    omega

/-- A close that returns an error has left every row, unless it took effect and
its reply was lost. -/
theorem closeInode_error_rows {inode : InodeId} {rpc : Rpc} {m : Mount} {e : FluxError}
    (h : (callMeta rpc (.closeInode sessionId inode) m).1 = .error e)
    (hkept : ∀ lost, rpc.delivery = .replyLost lost →
      (rpc.request (.closeInode sessionId inode)).req.executes m.tables = false) :
    (callMeta rpc (.closeInode sessionId inode) m).2.tables.openPresence =
      m.tables.openPresence := by
  unfold callMeta Rpc.call at h ⊢
  cases hd : rpc.delivery with
  | answered =>
    simp only [hd] at h
    apply closeInode_refused
    intro _ hempty
    rw [hempty] at h
    cases h
  | notApplied lost => rfl
  | replyLost lost =>
    apply closeInode_refused
    intro hexec
    rw [hkept lost hd] at hexec
    cases hexec

/-- The tables after a client's request, if it takes effect: every row the request
does not take back is still there. -/
theorem MountInv.tables_kept {r : MetaRequest} {t : Tables} (h : MountInv sessionId st)
    (hclient : FromClient st.tables r)
    (ht : t = st.tables ∨ t = (applyRaftRequest r.now r.req st.tables).2) :
    (Grounded t ∧ Owned t) ∧
      ∀ a, r.req.op.closes ⟨a, sessionId⟩ = false → 0 < st.count a →
        t.openPresence[NameKey.mk a sessionId]? = some () := by
  rcases ht with rfl | rfl
  · exact ⟨⟨h.grounded, h.owned⟩, fun a _ ha => h.row a ha⟩
  · exact ⟨h.owned.request h.grounded hclient,
      fun a hkeep ha => h.owned.row_request h.grounded hclient hkeep (h.row a ha)⟩

/-- A call that returned an error and left the counters. -/
theorem MountInv.failed {m : Mount} (h : MountInv sessionId st)
    (hbase : Grounded m.tables ∧ Owned m.tables) (hcounts : ∀ a, m.count a = st.count a)
    (hrow : ∀ a, 0 < st.count a → m.tables.openPresence[NameKey.mk a sessionId]? = some ()) :
    MountInv sessionId ⟨m, st.log⟩ := by
  refine ⟨hbase.1, hbase.2, fun a ha => hrow a (hcounts a ▸ ha), fun a recent hrecent => ?_⟩
  show _ ≤ _ + m.count a
  rw [hcounts a]
  exact h.counted a recent hrecent

theorem MountInv.openHandle {inode : InodeId} {rpc : Rpc} {result : Except FluxError Unit}
    {m : Mount} (h : MountInv sessionId st) (hfresh : rpc.isFresh st.tables = true)
    (hcall : openInodeHandle sessionId inode rpc st.toMount = (result, m)) :
    MountInv sessionId ⟨m, logCall (.opened inode) result st.log⟩ := by
  obtain ⟨htables, hout⟩ := openInodeHandle_spec hfresh hcall
  have hclient : FromClient st.tables (rpc.request (.openInode sessionId inode)) := ⟨rfl, rfl⟩
  obtain ⟨hbase, hkept⟩ := h.tables_kept hclient htables
  rcases hout with ⟨rfl, hcounts, hrow⟩ | ⟨⟨e, rfl⟩, hcounts⟩
  · refine ⟨hbase.1, hbase.2, fun a ha => ?_, fun a => ?_⟩
    · by_cases hzero : 0 < st.count a
      · exact hkept a rfl hzero
      · -- the counter was zero and is not any more, so this is the inode opened
        change 0 < m.count a at ha
        rw [hcounts a] at ha
        split at ha
        · rename_i heq
          subst heq
          exact hrow (Nat.eq_zero_of_not_pos hzero)
        · exact absurd ha hzero
    · apply counted_cons (h.counted a)
      show _ ≤ _ + m.count a
      rw [hcounts a]
      by_cases heq : inode = a
      · subst heq
        simp
        omega
      · simp [heq]
  · exact h.failed hbase hcounts.same (fun a => hkept a rfl)

theorem MountInv.closeHandle {inode : InodeId} {rpc : Rpc} {result : Except FluxError Unit}
    {m : Mount} (h : MountInv sessionId st)
    (hlost : MountAction.losesClose sessionId st (.closeHandle inode rpc) = false)
    (hcall : closeInodeHandle sessionId inode rpc st.toMount = (result, m)) :
    MountInv sessionId ⟨m, logCall (.closed inode) result st.log⟩ := by
  rcases closeInodeHandle_spec hcall with ⟨hmany, rfl, htables, hcounts⟩ |
    ⟨hlast, hresult, htables, hout⟩
  · refine ⟨htables ▸ h.grounded, htables ▸ h.owned, fun a ha => ?_, fun a => ?_⟩
    · rw [htables]
      apply h.row
      change 0 < m.count a at ha
      rw [hcounts a] at ha
      split at ha
      · rename_i heq
        subst heq
        exact Nat.lt_of_lt_of_le ha (Nat.sub_le ..)
      · exact ha
    · apply counted_cons (h.counted a)
      show _ ≤ _ + m.count a
      rw [hcounts a]
      by_cases heq : inode = a
      · subst heq
        simp
        omega
      · simp [heq]
  · have hclient : FromClient st.tables (rpc.request (.closeInode sessionId inode)) := ⟨rfl, rfl⟩
    have happlied : m.tables = st.tables ∨
        m.tables = rpc.applied (.closeInode sessionId inode) st.tables := by
      rw [htables]
      exact Rpc.call_tables ..
    obtain ⟨hbase, hkept⟩ := h.tables_kept hclient happlied
    have hother : ∀ a, inode ≠ a → 0 < st.count a →
        m.tables.openPresence[NameKey.mk a sessionId]? = some () := by
      intro a hne
      exact hkept a (decide_eq_false fun heq => hne (congrArg NameKey.owner heq).symm)
    rcases hout with ⟨rfl, hcounts⟩ | ⟨⟨e, rfl⟩, hcounts⟩
    · refine ⟨hbase.1, hbase.2, fun a ha => ?_, fun a => ?_⟩
      · change 0 < m.count a at ha
        rw [hcounts a] at ha
        split at ha
        · cases ha
        · exact hother a ‹_› ha
      · apply counted_cons (h.counted a)
        show _ ≤ _ + m.count a
        rw [hcounts a]
        by_cases heq : inode = a
        · subst heq
          simp
          omega
        · simp [heq]
    · refine h.failed hbase hcounts.same (fun a ha => ?_)
      by_cases heq : inode = a
      · subst heq
        have hone : st.count inode = 1 := by omega
        rw [htables, closeInode_error_rows hresult.symm]
        · exact h.row inode ha
        · intro lost hd
          simpa [MountAction.losesClose, hone, hd] using hlost
      · exact hother a heq ha

theorem MetaOp.closes_of_leavesSession {op : MetaOp} (h : op.leavesSession sessionId = true)
    (a : InodeId) : op.closes ⟨a, sessionId⟩ = false := by
  cases op with
  | closeInode session inode =>
    have hne : session ≠ sessionId := of_decide_eq_true h
    exact decide_eq_false fun heq => hne (congrArg NameKey.name heq).symm
  | recoverSession session =>
    have hne : session ≠ sessionId := of_decide_eq_true h
    exact decide_eq_false fun heq => hne (Eq.symm heq)
  | _ => rfl

theorem MountInv.step {action : MountAction} (h : MountInv sessionId st)
    (hlost : action.losesClose sessionId st = false)
    (hstep : mountStep sessionId st action = some st') : MountInv sessionId st' := by
  cases action with
  | openHandle inode rpc =>
    simp only [mountStep, Option.ite_none_right_eq_some] at hstep
    obtain ⟨hfresh, hstep⟩ := hstep
    rw [← Option.some.inj hstep]
    exact h.openHandle hfresh rfl
  | closeHandle inode rpc =>
    simp only [mountStep, Option.ite_none_right_eq_some] at hstep
    rw [← Option.some.inj hstep.2]
    exact h.closeHandle hlost rfl
  | request r =>
    simp only [mountStep, Option.ite_none_right_eq_some] at hstep
    obtain ⟨⟨hclient, hleaves⟩, hstep⟩ := hstep
    rw [← Option.some.inj hstep]
    obtain ⟨hbase, hkept⟩ := h.tables_kept hclient (.inr rfl)
    exact h.failed hbase (fun _ => rfl)
      (fun a => hkept a (MetaOp.closes_of_leavesSession hleaves a))

theorem MountInv.start {s : Tables} (hgrounded : Grounded s) (howned : Owned s) :
    MountInv sessionId (.start s) where
  grounded := hgrounded
  owned := howned
  row inode h := by simp [MountState.start, Mount.count] at h
  counted inode recent h := by
    rw [List.prefix_nil.mp h]
    exact Nat.zero_le _

end

/-- A mount starts on any store that clients have built. In every run in which no
close of a last handle takes effect with its reply lost: while fewer closes than
opens of an inode have returned `Ok` since some open of it did, that open
included, the mount's presence row is there, the inode is stored, and no unlink
removes either. -/
theorem open_handles_keep_presence (sessionId : String) (start : Int) (before : List MetaRequest)
    (s : Tables) (hbefore : Along metaStep FromClient (Tables.fresh start) before)
    (hs : exec metaStep (Tables.fresh start) before = some s)
    (actions : List MountAction) (st : MountState)
    (hclosed : Along (mountStep sessionId) (fun st a => a.losesClose sessionId st = false)
      (.start s) actions)
    (hrun : exec (mountStep sessionId) (.start s) actions = some st)
    (inode : InodeId) (recent older : List HandleCall)
    (hlog : st.log = recent ++ .opened inode :: older)
    (hopen : recent.count (.closed inode) < recent.count (.opened inode) + 1) :
    st.tables.openPresence[NameKey.mk inode sessionId]? = some () ∧
    (∃ i, st.tables.inodes.get? inode = some i) ∧
    ∀ (r : MetaRequest) parent name expected, r.req.op = .unlink parent name expected →
      (applyRaftRequest r.now r.req st.tables).2.openPresence[NameKey.mk inode sessionId]? =
        some () ∧
      ∃ i, (applyRaftRequest r.now r.req st.tables).2.inodes.get? inode = some i := by
  have hbuilt : Grounded s ∧ Owned s := by
    refine exec_invariant_along (I := fun s => Grounded s ∧ Owned s) (fun a r b ha hr hb => ?_)
      before _ s ⟨Grounded.fresh start, Owned.fresh start⟩ hbefore hs
    cases hb
    exact ha.2.request ha.1 hr
  have hinv : MountInv sessionId st :=
    exec_invariant_along (fun _ _ _ h hlost hstep => h.step hlost hstep) actions _ st
      (.start hbuilt.1 hbuilt.2) hclosed hrun
  have hcount : 0 < st.count inode := by
    have hcounted := hinv.counted inode (recent ++ [.opened inode]) ⟨older, by rw [hlog]; simp⟩
    simp only [List.count_append, List.count_singleton] at hcounted
    simp at hcounted
    omega
  have hrow := hinv.row inode hcount
  refine ⟨hrow, ?_, fun r parent name expected hop => ?_⟩
  · obtain ⟨i, hi, _⟩ := hinv.owned.opened _ hrow
    exact ⟨i, hi⟩
  · have hclient : FromClient st.tables r := by
      rw [FromClient, hop]
      exact ⟨rfl, rfl⟩
    have hkept := hinv.owned.row_request hinv.grounded hclient (by rw [hop]; rfl) hrow
    obtain ⟨i, hi, _⟩ := (hinv.owned.request hinv.grounded hclient).2.opened _ hkept
    exact ⟨hkept, i, hi⟩

/-- A store with one file. -/
def sampleStore : List MetaRequest :=
  [⟨1, none, 0, .create rootInode "f" .regular 0o644 0 0 none⟩]

/-- Two opens, a close, a close that never arrives, and an unlink by somebody else. -/
def sampleHandleCalls : List MountAction :=
  [.openHandle 2 ⟨.answered, 2, 11, 0⟩,
    .openHandle 2 ⟨.answered, 3, 12, 0⟩,
    .closeHandle 2 ⟨.answered, 4, 13, 0⟩,
    .closeHandle 2 ⟨.notApplied .busy, 5, 14, 0⟩,
    .request ⟨6, none, 0, .unlink rootInode "f" none⟩]

theorem open_handles_keep_presence_sampleHandleCalls :
    ∃ st, exec (mountStep "mount") (.start (runMeta (Tables.fresh 0) sampleStore))
        sampleHandleCalls = some st ∧
      st.log = [.closed 2, .opened 2, .opened 2] ∧
      st.tables.openPresence[NameKey.mk 2 "mount"]? = some () := by
  have hdone : (exec (mountStep "mount") (.start (runMeta (Tables.fresh 0) sampleStore))
      sampleHandleCalls).any (fun st => st.log = [.closed 2, .opened 2, .opened 2]) = true := by
    decide +kernel
  obtain ⟨st, hrun, hlog⟩ := (Option.any_eq_true _ _).mp hdone
  have hcalls : st.log = [.closed 2] ++ .opened 2 :: [.opened 2] := of_decide_eq_true hlog
  have hpresence := open_handles_keep_presence "mount" 0 sampleStore _ (by decide +kernel)
    (exec_metaStep _ _) sampleHandleCalls st (by decide +kernel) hrun 2
    [.closed 2, .opened 2] [] (by rw [hcalls]; rfl) (by decide)
  exact ⟨st, hrun, hcalls, hpresence.1⟩

/-- A close whose reply is lost between two opens, and an unlink by somebody else. -/
def sampleLostClose : List MountAction :=
  [.openHandle 2 ⟨.answered, 2, 11, 0⟩,
    .closeHandle 2 ⟨.replyLost (.io "reply lost"), 3, 12, 0⟩,
    .openHandle 2 ⟨.answered, 4, 13, 0⟩,
    .request ⟨5, none, 0, .unlink rootInode "f" none⟩]

/-- A lost reply to the last close leaves the counter at one without a row; the next
open is counted and sends nothing, and an unlink removes the file under it. -/
theorem unlink_reaps_open_handle :
    ∃ st, exec (mountStep "mount") (.start (runMeta (Tables.fresh 0) sampleStore))
        sampleLostClose = some st ∧
      st.log = [.opened 2, .opened 2] ∧
      st.tables.openPresence[NameKey.mk 2 "mount"]? = none ∧
      st.tables.inodes.get? 2 = none := by
  have hdone : (exec (mountStep "mount") (.start (runMeta (Tables.fresh 0) sampleStore))
      sampleLostClose).any (fun st => st.log = [.opened 2, .opened 2] ∧
        st.tables.openPresence[NameKey.mk 2 "mount"]? = none ∧
        st.tables.inodes.get? 2 = none) = true := by decide +kernel
  obtain ⟨st, hrun, hend⟩ := (Option.any_eq_true _ _).mp hdone
  exact ⟨st, hrun, of_decide_eq_true hend⟩

end FluxFS
