import FluxFS.Lib.Run
import FluxFS.Meta.DataSteps

/-!
# Runs — sequences of applied requests

The metadata state machine as a transition system: one action is one logged
request with the clock reading of its apply. `Grounded` is the invariant the
edit lemmas themselves rest on.
-/

namespace FluxFS

open Std Kit

/-- A logged request and the clock when it is applied. -/
structure MetaRequest where
  now : Clock
  req : MetaRaftRequest
deriving DecidableEq, Repr

/-- Apply one request. -/
def metaStep (s : Tables) (r : MetaRequest) : Option Tables :=
  some (applyRaftRequest r.now r.req s).2

/-- The tables after a list of requests. -/
def runMeta (s : Tables) (requests : List MetaRequest) : Tables :=
  requests.foldl (fun s r => (applyRaftRequest r.now r.req s).2) s

/-- Requests never block: the run is the total function. -/
theorem exec_metaStep (s : Tables) (requests : List MetaRequest) :
    exec metaStep s requests = some (runMeta s requests) := by
  induction requests generalizing s with
  | nil => rfl
  | cons r requests ih => exact ih _

/-! ## Requests that reach their operation -/

/-- No retained response answers the request, the ledger has room and no
stop-the-world lease blocks it. -/
def MetaRaftRequest.executes (req : MetaRaftRequest) (s : Tables) : Bool :=
  (s.gcLease.isNone || req.op.allowedUnderLease) &&
    match req.opId with
    | none => true
    | some opId =>
      (getClientRequest s opId req.ledgerNowUnixMs).isNone &&
        (pruneClientRequests s req.ledgerNowUnixMs
          clientRequestPruneBatch).clientRequests.size < clientRequestLedgerSoftCap

section
variable {now : Clock} {req : MetaRaftRequest} {s : Tables}

theorem dispatch_of_allowed {op : MetaOp} (h : (s.gcLease.isNone || op.allowedUnderLease) = true) :
    dispatch now op s = (toResponse (performOp now op s).1, (performOp now op s).2) := by
  rw [dispatch, if_neg]
  rintro ⟨hlease, hop⟩
  rw [hop, Bool.or_false, Option.isNone_iff_eq_none] at h
  rw [h] at hlease
  cases hlease

theorem dispatch_of_blocked {op : MetaOp} (h : (s.gcLease.isNone || op.allowedUnderLease) = false) :
    dispatch now op s = (.err .busy, s) := by
  rw [Bool.or_eq_false_iff] at h
  rw [dispatch, if_pos]
  exact ⟨by rw [← Option.not_isNone, h.1]; rfl, h.2⟩

/-- An executed request answers with its operation's result; the ledger apart,
the tables are those the operation left. -/
theorem applyRaftRequest_of_executes (now : Clock) (h : req.executes s = true) :
    ∃ before after,
      (applyRaftRequest now req s).1 =
        toResponse (performOp now req.op { s with clientRequests := before }).1 ∧
      (applyRaftRequest now req s).2 =
        { (performOp now req.op { s with clientRequests := before }).2 with
          clientRequests := after } := by
  rw [MetaRaftRequest.executes, Bool.and_eq_true] at h
  obtain ⟨hlease, hledger⟩ := h
  unfold applyRaftRequest
  cases hid : req.opId with
  | none =>
    refine ⟨s.clientRequests, (performOp now req.op s).2.clientRequests, ?_, ?_⟩
    · show (dispatch now req.op s).1 = _
      rw [dispatch_of_allowed hlease]
    · show (dispatch now req.op s).2 = _
      rw [dispatch_of_allowed hlease]
  | some opId =>
    simp only [hid, Bool.and_eq_true, Option.isNone_iff_eq_none, decide_eq_true_eq] at hledger
    have hroom := Nat.not_le.mpr hledger.2
    have hdispatch : dispatch now req.op
        (pruneClientRequests s req.ledgerNowUnixMs clientRequestPruneBatch) = _ :=
      dispatch_of_allowed hlease
    simp only [hledger.1, if_neg hroom, hdispatch]
    exact ⟨_, _, rfl, rfl⟩

/-- A request that does not execute changes the ledger at most, and under an id that
nothing is recorded under it is refused. -/
theorem request_not_executed (now : Clock) (h : req.executes s = false) :
    (∃ after, (applyRaftRequest now req s).2 = { s with clientRequests := after }) ∧
      ((∀ opId, req.opId = some opId → getClientRequest s opId req.ledgerNowUnixMs = none) →
        (applyRaftRequest now req s).1 = .err .busy) := by
  rw [MetaRaftRequest.executes, Bool.and_eq_false_iff] at h
  unfold applyRaftRequest
  cases hid : req.opId with
  | none =>
    simp only [hid, Bool.true_eq_false, or_false] at h
    have hdispatch : dispatch now req.op s = _ := dispatch_of_blocked h
    simp only [hdispatch]
    exact ⟨⟨s.clientRequests, rfl⟩, fun _ => trivial⟩
  | some opId =>
    cases hcached : getClientRequest s opId req.ledgerNowUnixMs with
    | some cached =>
      refine ⟨⟨s.clientRequests, by simp [hcached]⟩, fun hnew => ?_⟩
      rw [hnew opId rfl] at hcached
      cases hcached
    | none =>
      by_cases hroom : (pruneClientRequests s req.ledgerNowUnixMs
          clientRequestPruneBatch).clientRequests.size ≥ clientRequestLedgerSoftCap
      · simp only [hcached, if_pos hroom]
        exact ⟨⟨_, rfl⟩, fun _ => trivial⟩
      · have hlease : (s.gcLease.isNone || req.op.allowedUnderLease) = false := by
          rcases h with hlease | hledger
          · exact hlease
          · simp [hid, hcached, Nat.not_le.mp hroom] at hledger
        have hdispatch : dispatch now req.op
            (pruneClientRequests s req.ledgerNowUnixMs clientRequestPruneBatch) = _ :=
          dispatch_of_blocked hlease
        simp only [hcached, if_neg hroom, hdispatch]
        exact ⟨⟨_, rfl⟩, fun _ => trivial⟩

theorem applyRaftRequest_of_not_executes (now : Clock) (h : req.executes s = false) :
    ∃ after, (applyRaftRequest now req s).2 = { s with clientRequests := after } :=
  (request_not_executed now h).1

/-- A flush request that executes does what its operation does, the ledger apart. -/
theorem request_flush (now : Clock) (hflush : req.op.flush? ≠ none) :
    ∃ before after o, FlushOutcome { s with clientRequests := before } req.op o ∧
      (applyRaftRequest now req s).2 = { o.2 with clientRequests := after } := by
  cases hexec : req.executes s with
  | false =>
    obtain ⟨after, hafter⟩ := applyRaftRequest_of_not_executes now hexec
    exact ⟨s.clientRequests, after, _, .refused _ .busy, hafter⟩
  | true =>
    obtain ⟨before, after, -, hafter⟩ := applyRaftRequest_of_executes now hexec
    obtain ⟨o, ho, hsame⟩ := performOp_flush hflush
    exact ⟨before, after, o, ho, by rw [hafter, hsame]⟩

end

/-- A raw `PutInode`, which no client sends. -/
def MetaOp.isRaw : MetaOp → Bool
  | .putInode _ => true
  | _ => false

/-! ## Invariants of edits -/

section
variable {now : Clock} {op : MetaOp} {faulty records : Prop} {start : Keyed Inode.id} {s t : Tables}
  {P : Tables → Prop}

/-- What every edit keeps, every sequence of edits keeps. -/
theorem edits_keep (hedit : ∀ s t, P s → Edit now op faulty records start s t → P t)
    (h : Relation.ReflTransGen (Edit now op faulty records start) s t) (hs : P s) : P t := by
  induction h with
  | refl => exact hs
  | tail _ hlast ih => exact hedit _ _ ih hlast

theorem reap_cases (s : Tables) (id : InodeId) :
    reapUnlinkedInodeIfUnopened s id = s ∨
      ∃ i, s.inodes.get? id = some i ∧ i.linkCount = 0 ∧ s.hasOpenPresence id = false ∧
        reapUnlinkedInodeIfUnopened s id = s.deleteInode id := by
  unfold reapUnlinkedInodeIfUnopened
  split
  · exact .inl rfl
  · rename_i i hi
    split
    · rename_i hreap
      exact .inr ⟨i, hi, hreap.1, hreap.2, rfl⟩
    · exact .inl rfl

/-- What deleting an unlinked, unopened inode keeps, reaping keeps. -/
theorem reapAll_keep (hdelete : ∀ s id i, P s → s.inodes.get? id = some i → i.linkCount = 0 →
      s.hasOpenPresence id = false → P (s.deleteInode id)) (ids : List InodeId) (hs : P s) :
    P (ids.foldl reapUnlinkedInodeIfUnopened s) := by
  induction ids generalizing s with
  | nil => exact hs
  | cons id ids ih =>
    refine ih ?_
    rcases reap_cases s id with heq | ⟨i, hi, hzero, hclosed, heq⟩
    · rw [heq]
      exact hs
    · rw [heq]
      exact hdelete s id i hs hi hzero hclosed

end

/-! ## Operations on any tables

Only a rename is a sequence of edits for the reason that no directory contains itself. In
tables where one might, a rename still keeps the ledger and enters one valid name. -/

/-- The ledger is the same, and new entries have valid names. -/
structure EntersValid (s t : Tables) : Prop where
  ledger : t.clientRequests = s.clientRequests
  entry : ∀ (k : NameKey) (child : InodeId), t.dentries[k]? = some child →
    s.dentries[k]? = some child ∨ Dentry.validate k.name = .ok ()

instance : Std.Refl EntersValid := ⟨fun _ => ⟨rfl, fun _ _ h => .inl h⟩⟩

instance : IsTrans Tables EntersValid where
  trans _ _ _ hst htu := ⟨htu.ledger.trans hst.ledger, fun k child h =>
    (htu.entry k child h).elim (hst.entry k child) .inr⟩

namespace EntersValid
open Txn
variable {now : Clock} {time : Int} {oldKey newKey : NameKey} {source : Inode}
  {destination : Option InodeId} {parent : InodeId}
  {expected expectedOld expectedNew : Option Generation} {noReplace : Bool}

theorem frame {s t : Tables} (hledger : t.clientRequests = s.clientRequests)
    (hdentries : t.dentries = s.dentries) : EntersValid s t :=
  ⟨hledger, fun _ _ h => .inl (hdentries ▸ h)⟩

theorem eraseDentry (s : Tables) (k : NameKey) : EntersValid s (s.eraseDentry k) := by
  refine ⟨rfl, fun a child h => .inl ?_⟩
  rw [Tables.get_eraseDentry] at h
  split at h
  · cases h
  · exact h

theorem putDentry (s : Tables) {k : NameKey} (hk : Dentry.validate k.name = .ok ())
    (child : InodeId) : EntersValid s (s.putDentry k child) := by
  refine ⟨rfl, fun a c h => ?_⟩
  rw [Tables.get_putDentry] at h
  split at h
  · rename_i heq
    exact .inr (heq ▸ hk)
  · exact .inl h

theorem loadAndBumpParentDir : Keeps EntersValid (loadAndBumpParentDir time parent expected) := by
  refine .query_bind fun _ => .failIf_bind fun _ => .bind ?_ fun _ => ?_
  · cases expected with
    | none => exact .pure _
    | some expected => exact .failIf _ _
  · exact .modify_bind (fun _ => frame rfl rfl) fun _ => .pure _

theorem removeDestination : Keeps EntersValid (removeDestination time newKey destination) := by
  cases destination with
  | none => exact .pure _
  | some id =>
    refine .modify_bind (fun s => eraseDentry s _) fun _ => .query_bind fun _ => ?_
    split
    · exact .modify fun _ => frame rfl rfl
    · refine .failIf_bind fun _ => .failIf_bind fun _ => .reads_bind fun _ => ?_
      split
      all_goals exact .modify fun _ => frame rfl rfl

theorem renameWrites (hk : Dentry.validate newKey.name = .ok ()) : Keeps EntersValid
    (renameWrites now expectedOld oldKey expectedNew newKey source destination) := by
  refine loadAndBumpParentDir.bind fun _ => .bind ?_ fun _ => removeDestination.bind fun _ => ?_
  · unfold bumpNewParent
    split
    · exact loadAndBumpParentDir.bind fun _ => .pure _
    · exact .pure _
  · have hput : Keeps EntersValid (putDentryRow newKey source.id) :=
      .failIf_bind fun _ => .modify fun s => putDentry s hk _
    refine .modify_bind (fun s => eraseDentry s _) fun _ => hput.bind fun _ => ?_
    exact .modify_bind (fun _ => frame rfl rfl) fun _ => .pure _

theorem rename (s : Tables) : EntersValid s
    (renameInTxn now expectedOld oldKey expectedNew newKey noReplace s).2 :=
  outcome_rename (P := fun o => EntersValid s o.2) (fun _ => Std.Refl.refl s)
    (fun _ _ _ => Std.Refl.refl s) fun _ _ _ hc _ => renameWrites hc.newName s

end EntersValid

/-- What edits and renames keep, every operation keeps. -/
theorem performOp_keeps {P : Tables → Prop} {now : Clock} {op : MetaOp} {s : Tables}
    (hedit : ∀ a b, P a → Edit now op s.LinkFault False s.inodes a b → P b)
    (hrename : ∀ t, EntersValid s t → P t) (h : P s) : P (performOp now op s).2 := by
  cases hop : op.isRename with
  | false =>
    refine edits_keep hedit (performOp_edits op fun hyes => ?_) h
    rw [hop] at hyes
    cases hyes
  | true =>
    cases op
    case rename oldParent oldName expectedOld newParent newName expectedNew noReplace =>
      refine hrename _ ?_
      rw [performOp, Txn.bind_pure_state]
      exact EntersValid.rename s
    all_goals cases hop

theorem Born.id_eq {now : Clock} {op : MetaOp} {s : Tables} {i : Inode} (h : Born now op s i) :
    i.id = s.nextInode := by
  cases h <;> rfl

/-! ## Ids are never reused, and no directory contains itself -/

/-- Ids are below the counter and no directory names itself: what the edits of a request ask
of the tables. -/
structure Grounded (s : Tables) : Prop where
  below : ∀ id i, s.inodes.get? id = some i → id < s.nextInode
  noSelf : s.NoSelfEntry

namespace Grounded
variable {now : Clock} {op : MetaOp} {faulty records : Prop} {start : Keyed Inode.id} {s t : Tables}

theorem fresh (now : Int) : Grounded (Tables.fresh now) where
  below id i h := by
    rw [(Tables.of_get_fresh h).1]
    exact Nat.lt_succ_self _
  noSelf k child h := by simp [Tables.fresh] at h

/-- Fewer inodes and entries, and a counter that only grows. -/
theorem mono (h : Grounded s)
    (hinodes : ∀ id i, t.inodes.get? id = some i → ∃ j, s.inodes.get? id = some j)
    (hnext : s.nextInode ≤ t.nextInode)
    (hdentries : ∀ (k : NameKey) (c : InodeId), t.dentries[k]? = some c → s.dentries[k]? = some c) :
    Grounded t where
  below id i hi := by
    obtain ⟨j, hj⟩ := hinodes id i hi
    exact Nat.lt_of_lt_of_le (h.below id j hj) hnext
  noSelf k c hc := h.noSelf k c (hdentries k c hc)

theorem get_putInode {i j old : Inode} {id : InodeId} (hold : s.inodes.get? i.id = some old)
    (h : (s.putInode i).inodes.get? id = some j) : ∃ k, s.inodes.get? id = some k := by
  rw [Tables.get_putInode] at h
  split at h
  · rename_i heq
    exact ⟨old, heq ▸ hold⟩
  · exact ⟨j, h⟩

theorem putInode (h : Grounded s) {i old : Inode} (hold : s.inodes.get? i.id = some old) :
    Grounded (s.putInode i) :=
  h.mono (fun _ _ hj => get_putInode hold hj) le_rfl (fun _ _ hc => hc)

theorem deleteInode (h : Grounded s) (id : InodeId) : Grounded (s.deleteInode id) := by
  refine h.mono (fun a i hi => ⟨i, ?_⟩) le_rfl (fun _ _ hc => hc)
  exact (Tables.of_get_deleteInode hi).2

theorem addManifest (h : Grounded s) (m : Manifest) : Grounded (s.addManifest m) :=
  ⟨h.below, h.noSelf⟩

theorem eraseDentry (h : Grounded s) (k : NameKey) : Grounded (s.eraseDentry k) := by
  refine h.mono (fun _ i hi => ⟨i, hi⟩) le_rfl (fun a c hc => ?_)
  rw [Tables.get_eraseDentry] at hc
  split at hc
  · cases hc
  · exact hc

theorem putDentry (h : Grounded s) {k : NameKey} {child : InodeId} (hne : child ≠ k.owner) :
    Grounded (s.putDentry k child) := by
  refine ⟨h.below, fun a c hc => ?_⟩
  rw [Tables.get_putDentry] at hc
  split at hc
  · rename_i heq
    cases hc
    exact heq ▸ hne
  · exact h.noSelf a c hc

theorem addInode (h : Grounded s) {i : Inode} (hid : i.id = s.nextInode) :
    Grounded (s.addInode i) := by
  refine ⟨fun id j hj => ?_, h.noSelf⟩
  rw [Tables.addInode, Tables.get_putInode] at hj
  split at hj
  · rename_i heq
    exact heq ▸ hid ▸ Nat.lt_succ_self _
  · exact Nat.lt_succ_of_lt (h.below id j hj)

/-- Every edit of a request that is not a raw `PutInode`. -/
theorem edit (hraw : op.isRaw = false) (h : Grounded s) (e : Edit now op faulty records start s t) :
    Grounded t := by
  cases e with
  | aside => exact ⟨h.below, h.noSelf⟩
  | skipInode => exact ⟨fun id i hi => Nat.lt_succ_of_lt (h.below id i hi), h.noSelf⟩
  | raw hop =>
    rw [hop] at hraw
    cases hraw
  | touch hold hnew =>
    rw [hnew]
    exact h.putInode hold
  | addEntry hvacant hparent hborn =>
    obtain ⟨parent, hparent, _⟩ := hparent
    apply (h.addInode hborn.id_eq).putDentry
    -- the parent is stored, the new id is not
    have hlt := h.below _ _ hparent
    rw [hborn.id_eq]
    exact (Nat.ne_of_lt hlt).symm
  | addOrphan _ _ hborn => exact h.addInode hborn.id_eq
  | linkEntry hvacant hparent hsource hfile hlinked =>
    obtain ⟨parent, hparent, hdir⟩ := hparent
    apply putDentry
    · exact h.putInode hsource
    · intro heq
      rw [← heq, hsource, Option.some.injEq] at hparent
      exact hfile (hparent ▸ hdir)
  | unlinkEntry _ hchild => exact (h.eraseDentry _).putInode hchild
  | reapEntry => exact (h.eraseDentry _).deleteInode _
  | eraseEntry => exact h.eraseDentry _
  | removeDir => exact (h.eraseDentry _).deleteInode _
  | moveEntry hne hentry hvacant hsource hparent hself =>
    exact ((h.eraseDentry _).putDentry hself).putInode hsource
  | openPresence => exact ⟨h.below, h.noSelf⟩
  | closePresence =>
    apply reapAll_keep
    · intro s id _ hs _ _ _
      exact hs.deleteInode id
    · exact ⟨h.below, h.noSelf⟩
  | putXattr | eraseXattr | removeManifests => exact ⟨h.below, h.noSelf⟩
  | addManifest m => exact h.addManifest m
  | commitImage hop hinode hcurrent =>
    exact (h.addManifest _).putInode hcurrent
  | beginFlush hstored => exact h.putInode hstored
  | publishFlush _ hstored => exact h.putInode hstored
  | failFlush _ hstored => exact h.putInode hstored
  | reserve | dropReservations | tombstone | updateTombstone | dropTombstone =>
    exact ⟨h.below, h.noSelf⟩

theorem request {req : MetaRaftRequest} (hraw : req.op.isRaw = false) (h : Grounded s) :
    Grounded (applyRaftRequest now req s).2 :=
  edits_keep (fun _ _ => edit hraw) (applyRaftRequest_edits h.noSelf now req) h

end Grounded

/-- An invariant of edits is one of requests. -/
theorem request_keep {P : Tables → Prop} {now : Clock} {req : MetaRaftRequest} {s : Tables}
    (hs : Grounded s) (hedit : ∀ a b, P a → Edit now req.op s.LinkFault True s.inodes a b → P b)
    (h : P s) : P (applyRaftRequest now req s).2 :=
  edits_keep hedit (applyRaftRequest_edits hs.noSelf now req) h

/-- Invariant rule for runs whose requests all meet a condition of their own. -/
theorem runMeta_invariant {C : MetaRequest → Prop} {I : Tables → Prop}
    (hstep : ∀ s r, C r → I s → I (applyRaftRequest r.now r.req s).2)
    (requests : List MetaRequest) (hC : ∀ r ∈ requests, C r) {s : Tables} (hs : I s) :
    I (runMeta s requests) := by
  induction requests generalizing s with
  | nil => exact hs
  | cons r requests ih =>
    apply ih
    · intro q hq
      exact hC q (List.mem_cons_of_mem r hq)
    · exact hstep s r (hC r List.mem_cons_self) hs

end FluxFS
