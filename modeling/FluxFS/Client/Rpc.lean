import FluxFS.Meta.Runs

/-!
# Rpc — requests on their way to the metadata leader

A client's call sends one request under a random id and sees a decoded answer
or an error. A request that fails may have been lost before it took effect or
may have taken effect with its reply lost; `Delivery` says which.
-/

namespace FluxFS

open Std Kit

/-- What becomes of a request on its way. -/
inductive Delivery
  | answered
  /-- It fails before it takes effect. -/
  | notApplied (e : FluxError)
  /-- It takes effect and the caller sees an error. -/
  | replyLost (e : FluxError)
deriving DecidableEq, Repr

/-- One remote call: its delivery, the clock of its apply, its random request id
and the time the leader stamps on it. -/
structure Rpc where
  delivery : Delivery
  now : Clock
  requestId : RequestOpId
  ledgerNowUnixMs : Nat
deriving DecidableEq, Repr

/-- The requests that `RaftMetaStore` sends with `request_id: None`. -/
def MetaOp.sentWithoutId : MetaOp → Bool
  | .expireChunkReservations .. | .pruneClientRequests .. | .initializeGcDeleteTargets ..
  | .acknowledgeGcDeletes _ => true
  | _ => false

/-- The request that the call sends. -/
def Rpc.request (rpc : Rpc) (op : MetaOp) : MetaRequest :=
  ⟨rpc.now, if op.sentWithoutId then none else some rpc.requestId, rpc.ledgerNowUnixMs, op⟩

/-- `RequestOpId::random`: nothing is recorded under the id. -/
def Rpc.isFresh (rpc : Rpc) (s : Tables) : Bool :=
  (getClientRequest s rpc.requestId rpc.ledgerNowUnixMs).isNone

/-- The tables after `op` takes effect. -/
def Rpc.applied (rpc : Rpc) (op : MetaOp) (s : Tables) : Tables :=
  (applyRaftRequest rpc.now (rpc.request op).req s).2

/-- What the leader answers to `op`. -/
def Rpc.response (rpc : Rpc) (op : MetaOp) (s : Tables) : MetaRaftResponse :=
  (applyRaftRequest rpc.now (rpc.request op).req s).1

/-! ## Decoded answers -/

/-- The error of a response of another kind. -/
def unexpectedResponse {α : Type} (response : MetaRaftResponse) : Except FluxError α :=
  .error (.metaErr ("unexpected raft response: " ++ reprStr response))

/-- `RaftMetaStore::map_empty`. -/
def mapEmpty : MetaRaftResponse → Except FluxError Unit
  | .empty => .ok ()
  | .err e => .error e
  | other => unexpectedResponse other

/-- `RaftMetaStore::map_inode`. -/
def mapInode : MetaRaftResponse → Except FluxError Inode
  | .inode inode => .ok inode
  | .err e => .error e
  | other => unexpectedResponse other

/-- `RaftMetaStore::map_gc_plan`. -/
def mapGcPlan : MetaRaftResponse → Except FluxError GcPlan
  | .gcPlan plan => .ok plan
  | .err e => .error e
  | other => unexpectedResponse other

/-- `RaftMetaStore::map_gc_batch`. -/
def mapGcBatch : MetaRaftResponse → Except FluxError GcBatch
  | .gcBatch batch => .ok batch
  | .err e => .error e
  | other => unexpectedResponse other

/-- Send `op` and decode the answer. -/
def Rpc.call {α : Type} (rpc : Rpc) (op : MetaOp) (decode : MetaRaftResponse → Except FluxError α)
    (s : Tables) : Except FluxError α × Tables :=
  match rpc.delivery with
  | .answered => (decode (rpc.response op s), rpc.applied op s)
  | .notApplied e => (.error e, s)
  | .replyLost e => (.error e, rpc.applied op s)

section
variable {α : Type} {rpc : Rpc} {op : MetaOp} {decode : MetaRaftResponse → Except FluxError α}
  {s : Tables}

/-- A call leaves the tables as they are or as the request makes them. -/
theorem Rpc.call_tables (rpc : Rpc) (op : MetaOp) (decode : MetaRaftResponse → Except FluxError α)
    (s : Tables) :
    (rpc.call op decode s).2 = s ∨ (rpc.call op decode s).2 = rpc.applied op s := by
  unfold Rpc.call
  cases rpc.delivery with
  | answered => exact .inr rfl
  | notApplied e => exact .inl rfl
  | replyLost e => exact .inr rfl

/-- A call that returns `Ok` was answered. -/
theorem Rpc.call_ok {a : α} (h : (rpc.call op decode s).1 = .ok a) :
    decode (rpc.response op s) = .ok a ∧ (rpc.call op decode s).2 = rpc.applied op s := by
  unfold Rpc.call at h ⊢
  cases hd : rpc.delivery with
  | answered =>
    simp only [hd] at h
    exact ⟨h, rfl⟩
  | notApplied e =>
    simp only [hd] at h
    cases h
  | replyLost e =>
    simp only [hd] at h
    cases h

theorem mapEmpty_ok {response : MetaRaftResponse} (h : mapEmpty response = .ok ()) :
    response = .empty := by
  cases response with
  | empty => rfl
  | _ => cases h

theorem Rpc.unrecorded (h : rpc.isFresh s = true) (op : MetaOp) (opId : RequestOpId)
    (hid : (rpc.request op).req.opId = some opId) :
    getClientRequest s opId rpc.ledgerNowUnixMs = none := by
  have hmem : (if op.sentWithoutId then none else some rpc.requestId) = some opId :=
    (Option.filter_eq_some_iff.mp hid).1
  split at hmem
  · cases hmem
  · rw [← Option.some.inj hmem]
    exact Option.isNone_iff_eq_none.mp h

/-- A request under a fresh id is answered by its operation or refused. -/
theorem Rpc.executes_or_refused (h : rpc.isFresh s = true) (op : MetaOp) :
    (rpc.request op).req.executes s = true ∨
      ((rpc.request op).req.executes s = false ∧ rpc.response op s = .err .busy) := by
  cases hexec : (rpc.request op).req.executes s with
  | true => exact .inl rfl
  | false => exact .inr ⟨rfl, (request_not_executed rpc.now hexec).2 (Rpc.unrecorded h op)⟩

/-- The answer of an operation that returns nothing tells how it ended. -/
theorem empty_answer (x : MetaTxn Unit) (s : Tables) :
    (toResponse ((x >>= fun _ => pure MetaRaftResponse.empty) s).1 = .empty ∧
      x s = (.ok (), ((x >>= fun _ => pure MetaRaftResponse.empty) s).2)) ∨
    (toResponse ((x >>= fun _ => pure MetaRaftResponse.empty) s).1 ≠ .empty ∧
      ∃ e, x s = (.error e, ((x >>= fun _ => pure MetaRaftResponse.empty) s).2)) := by
  rcases hx : x s with ⟨e | u, t⟩
  · rw [Txn.bind_of_error hx]
    exact .inr ⟨MetaRaftResponse.noConfusion, e, rfl⟩
  · rw [Txn.bind_of_ok hx]
    exact .inl ⟨rfl, rfl⟩

/-- A fresh request that is not answered with an error has run its operation to the
end. -/
theorem Rpc.performed {β : Type} (op : MetaOp) (hfresh : rpc.isFresh s = true) {x : MetaTxn β}
    {respond : β → MetaRaftResponse} (hop : performOp rpc.now op = x >>= fun b => pure (respond b))
    (h : ∀ e, rpc.response op s ≠ .err e) :
    ∃ before after b t, x { s with clientRequests := before } = (.ok b, t) ∧
      rpc.response op s = respond b ∧ rpc.applied op s = { t with clientRequests := after } := by
  rcases Rpc.executes_or_refused hfresh op with hexec | ⟨_, hrefused⟩
  · obtain ⟨before, after, hresponse, htables⟩ := applyRaftRequest_of_executes rpc.now hexec
    have hperform : performOp rpc.now (rpc.request op).req.op = x >>= fun b => pure (respond b) :=
      hop
    rw [hperform] at hresponse htables
    rcases hx : x { s with clientRequests := before } with ⟨e | b, t⟩
    · rw [Txn.bind_of_error hx] at hresponse
      exact absurd hresponse (h e)
    · rw [Txn.bind_of_ok hx] at hresponse htables
      exact ⟨before, after, b, t, hx, hresponse, htables⟩
  · exact absurd hrefused (h .busy)

end

end FluxFS
