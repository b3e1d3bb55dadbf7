import FluxFS.Lib.Rows
import FluxFS.Lib.Run
import FluxFS.Lib.Word
import FluxFS.Types

/-!
# Publish — conditional publication of objects

`VerifiedPublishWriter` uploads an object, checks its size and digest, and makes it visible
under a condition: the key is absent, or it carries a given ETag. On an object store the
backend checks the condition as it replaces the object. On a local filesystem the upload goes
to a file of its own, and `finish` looks at the key and then renames the file over it.

Any number of publishes of one key run interleaved with writers and deleters outside.
-/

namespace FluxFS

open Kit

/-- An object as `stat` and GET see it. -/
structure StoredObject where
  data : Bytes
  etag : Option String
  mtimeMs : Option Int
  /-- The `fluxfs-blake3` entry of the user metadata. -/
  digest : Option String
deriving DecidableEq, Repr

/-- What the backend says it can do. -/
structure PublishCapabilities where
  conditionalOverwrite : Bool
  conditionalCreate : Bool
  verifiableDigestMetadata : Bool
deriving DecidableEq, Repr

/-- A backend. -/
structure UfsBackend where
  scheme : String
  capabilities : PublishCapabilities
deriving DecidableEq, Repr

/-- Where a publish is. -/
inductive PublishPhase where
  | writing
  /-- The staged file is complete. -/
  | staged
  /-- The condition held when `finish` looked at the key. -/
  | checked
  /-- The key is replaced, the last `stat` is still to come. -/
  | published
  /-- Ended before anything was made visible. -/
  | rejected (error : FluxError)
  | aborted
  /-- Ended with an error of a call that took effect. -/
  | lost (error : FluxError)
  | confirmed (result : Except FluxError UfsObject)
deriving DecidableEq, Repr

/-- A publish in flight. -/
structure VerifiedPublishWriter where
  rel : String
  stagedLocalPublish : Bool
  expectedEtag : Option String
  expectedSize : Nat
  targetDigest : ChunkId
  written : Nat
  /-- What the hasher and the upload have seen. -/
  data : Bytes
  phase : PublishPhase
deriving DecidableEq, Repr

/-- `Ufs::begin_verified_publish`; `fate` is the creation of the backend's writer. -/
def beginVerifiedPublish (backend : UfsBackend) (rel : String) (expectedSize : Nat)
    (expectedEtag : Option String) (targetDigest : ChunkId) (fate : Option FluxError) :
    Except FluxError VerifiedPublishWriter :=
  let caps := backend.capabilities
  if !caps.verifiableDigestMetadata then
    .error (.capability "UFS backend cannot persist verification metadata")
  else if expectedEtag.isSome ∧ !caps.conditionalOverwrite then
    .error (.capability "UFS backend does not support conditional overwrite")
  else if expectedEtag.isNone ∧ !caps.conditionalCreate then
    .error (.capability "UFS backend does not support create-if-absent")
  else
    match fate with
    | some error => .error error
    | none =>
      .ok ⟨rel, backend.scheme = "fs", expectedEtag, expectedSize, targetDigest, 0, [], .writing⟩

/-- The condition of a publish on the object under the key. -/
def conditionMatches : Option String → Option StoredObject → Bool
  | none, none => true
  | some expected, some object => object.etag = some expected
  | _, _ => false

/-- The calls of one publish; `finish` makes several. -/
inductive PublishCall where
  | write (data : Bytes) (fate : Option FluxError)
  | abort
  /-- `finish` up to the backend writer's `close`. -/
  | close (fate : CallFate) (etag : Option String) (mtimeMs : Option Int)
  /-- The `stat` before the rename. -/
  | check (failed : Bool)
  | rename (fate : CallFate) (etag : Option String) (mtimeMs : Option Int)
  /-- The last `stat`. -/
  | confirm (fate : Option FluxError)
deriving DecidableEq, Repr

namespace VerifiedPublishWriter

/-- `VerifiedPublishWriter::write`. After an error the upload is gone. -/
def write (w : VerifiedPublishWriter) (data : Bytes) (fate : Option FluxError) :
    VerifiedPublishWriter :=
  match checkedAdd w.written data.length with
  | none => { w with phase := .rejected (.invalidArg "publish size overflow") }
  | some next =>
    if next > w.expectedSize then
      let size := w.expectedSize
      { w with phase := .rejected (.invalidArg s!"publish payload exceeds expected size {size}") }
    else
      match fate with
      | some error => { w with phase := .rejected error }
      | none => { w with written := next, data := w.data ++ data }

/-- The payload has the size and the digest it should have. -/
def verified (hash : Bytes → ChunkId) (w : VerifiedPublishWriter) : Bool :=
  w.written = w.expectedSize ∧ hash w.data = w.targetDigest

/-- The error of a payload that is not the one announced. -/
def verificationError (hash : Bytes → ChunkId) (w : VerifiedPublishWriter) : FluxError :=
  let actualDigest := (hash w.data).toHex
  let targetDigest := w.targetDigest.toHex
  let size := w.written
  let expectedSize := w.expectedSize
  .invalidArg (s!"publish payload verification failed: size={size}/{expectedSize} " ++
    s!"digest={actualDigest}/{targetDigest}")

/-- The uploaded object. -/
def object (w : VerifiedPublishWriter) (etag : Option String) (mtimeMs : Option Int) :
    StoredObject :=
  ⟨w.data, etag, mtimeMs, some w.targetDigest.toHex⟩

/-- A call that replaces the key, if it takes effect. -/
def replace (w : VerifiedPublishWriter) (key : Option StoredObject) (fate : CallFate)
    (etag : Option String) (mtimeMs : Option Int) : VerifiedPublishWriter × Option StoredObject :=
  match fate with
  | .answered => ({ w with phase := .published }, some (w.object etag mtimeMs))
  | .refused error => ({ w with phase := .rejected error }, key)
  | .replyLost error => ({ w with phase := .lost error }, some (w.object etag mtimeMs))

/-- The verification of `finish` and the `close` of the backend's writer. On an object store
`close` is the conditional write. -/
def close (hash : Bytes → ChunkId) (w : VerifiedPublishWriter) (key : Option StoredObject)
    (fate : CallFate) (etag : Option String) (mtimeMs : Option Int) :
    VerifiedPublishWriter × Option StoredObject :=
  if !w.verified hash then ({ w with phase := .rejected (w.verificationError hash) }, key)
  else if w.stagedLocalPublish then
    match fate with
    | .answered => ({ w with phase := .staged }, key)
    | .refused error | .replyLost error => ({ w with phase := .rejected error }, key)
  else if conditionMatches w.expectedEtag key then w.replace key fate etag mtimeMs
  else
    match fate with
    | .answered => ({ w with phase := .rejected .dirtyConflict }, key)
    | .refused error | .replyLost error => ({ w with phase := .rejected error }, key)

/-- The last `stat` of `finish`. -/
def confirm (w : VerifiedPublishWriter) (key : Option StoredObject) (fate : Option FluxError) :
    Except FluxError UfsObject :=
  match fate, key with
  | some error, _ => .error error
  | none, none => .error .notFound
  | none, some object =>
    if object.data.length ≠ w.expectedSize then
      let want := w.expectedSize
      let got := object.data.length
      .error (.io s!"published UFS size mismatch: want={want} got={got}")
    else if object.digest ≠ some w.targetDigest.toHex then
      .error (.io "published UFS digest metadata missing or mismatched")
    else .ok ⟨w.rel, object.data.length, object.etag, object.mtimeMs⟩

/-- One call of a publish: what it makes of the publish and of the object under the key. -/
def call (hash : Bytes → ChunkId) (w : VerifiedPublishWriter) (key : Option StoredObject) :
    PublishCall → Option (VerifiedPublishWriter × Option StoredObject)
  | .write data fate => if w.phase = .writing then some (w.write data fate, key) else none
  | .abort => if w.phase = .writing then some ({ w with phase := .aborted }, key) else none
  | .close fate etag mtimeMs =>
    if w.phase = .writing then some (w.close hash key fate etag mtimeMs) else none
  | .check failed =>
    if w.phase = .staged then
      if !failed ∧ conditionMatches w.expectedEtag key then some
        ({ w with phase := .checked }, key)
      else some ({ w with phase := .rejected .dirtyConflict }, key)
    else none
  | .rename fate etag mtimeMs =>
    if w.phase = .checked then some (w.replace key fate etag mtimeMs) else none
  | .confirm fate =>
    if w.phase = .published then some ({ w with phase := .confirmed (w.confirm key fate) }, key)
    else none

end VerifiedPublishWriter

/-! ## All publishes of a key -/

/-- The object under the key and the publishes that have begun. -/
structure PublishState where
  object : Option StoredObject
  writers : Table Nat VerifiedPublishWriter

/-- A step of a publish or of somebody outside. -/
inductive PublishAction where
  | begin (id : Nat) (rel : String) (expectedSize : Nat) (expectedEtag : Option String)
      (targetDigest : ChunkId) (fate : Option FluxError)
  | call (id : Nat) (call : PublishCall)
  /-- Somebody else replaces or deletes the object. -/
  | external (object : Option StoredObject)
deriving DecidableEq, Repr

/-- One step. -/
def publishStep (hash : Bytes → ChunkId) (backend : UfsBackend) (st : PublishState) :
    PublishAction → Option PublishState
  | .begin id rel expectedSize expectedEtag targetDigest fate =>
    match st.writers[id]? with
    | some _ => none
    | none =>
      match beginVerifiedPublish backend rel expectedSize expectedEtag targetDigest fate with
      | .error _ => some st
      | .ok w => some { st with writers := st.writers.insert id w }
  | .call id call => do
    let w ← st.writers[id]?
    let (w', object) ← w.call hash st.object call
    some ⟨object, st.writers.insert id w'⟩
  | .external object => some { st with object := object }

/-! ## What a call does -/

/-- The publish has replaced the key. -/
def PublishPhase.visible : PublishPhase → Bool
  | .published | .lost _ | .confirmed _ => true
  | _ => false

/-- What stays of a publish whatever is called. -/
structure SamePublish (w w' : VerifiedPublishWriter) : Prop where
  staged_eq : w'.stagedLocalPublish = w.stagedLocalPublish
  expected_eq : w'.expectedEtag = w.expectedEtag

namespace VerifiedPublishWriter

variable {hash : Bytes → ChunkId} {w w' : VerifiedPublishWriter} {key key' : Option StoredObject}
  {c : PublishCall}

/-- A call that leaves the key alone. `checked` is reached where the condition holds. -/
structure Leaves (w : VerifiedPublishWriter) (key : Option StoredObject)
    (w' : VerifiedPublishWriter) (key' : Option StoredObject) : Prop where
  key_eq : key' = key
  visible_eq : w'.phase.visible = w.phase.visible
  staged : w'.phase = .staged → w.stagedLocalPublish = true
  checked : w'.phase = .checked → w.phase = .staged ∧ conditionMatches w.expectedEtag key = true

/-- A call that replaces the key. -/
structure Replaces (w : VerifiedPublishWriter) (key : Option StoredObject)
    (w' : VerifiedPublishWriter) (key' : Option StoredObject) : Prop where
  key_eq : ∃ etag mtimeMs, key' = some (w.object etag mtimeMs)
  before : w.phase.visible = false
  after : w'.phase.visible = true
  condition : w.phase = .checked ∨
    w.stagedLocalPublish = false ∧ conditionMatches w.expectedEtag key = true

/-- What one call makes of a publish and of the key. -/
def Effect (w : VerifiedPublishWriter) (key : Option StoredObject) (w' : VerifiedPublishWriter)
    (key' : Option StoredObject) : Prop :=
  SamePublish w w' ∧ (Leaves w key w' key' ∨ Replaces w key w' key')

/-- Ending a publish leaves the key alone. -/
theorem effect_rejected (key : Option StoredObject) (hbefore : w.phase.visible = false)
    (error : FluxError) : Effect w key { w with phase := .rejected error } key :=
  ⟨⟨rfl, rfl⟩, .inl ⟨rfl, hbefore.symm, nofun, nofun⟩⟩

theorem effect_replace (key : Option StoredObject) (fate : CallFate) (etag : Option String)
    (mtimeMs : Option Int) (hbefore : w.phase.visible = false)
    (hcondition : w.phase = .checked ∨
      w.stagedLocalPublish = false ∧ conditionMatches w.expectedEtag key = true) :
    Effect w key (w.replace key fate etag mtimeMs).1 (w.replace key fate etag mtimeMs).2 := by
  cases fate with
  | answered => exact ⟨⟨rfl, rfl⟩, .inr ⟨⟨etag, mtimeMs, rfl⟩, hbefore, rfl, hcondition⟩⟩
  | refused error => exact effect_rejected key hbefore error
  | replyLost error => exact ⟨⟨rfl, rfl⟩, .inr ⟨⟨etag, mtimeMs, rfl⟩, hbefore, rfl, hcondition⟩⟩

theorem effect_write (key : Option StoredObject) (data : Bytes) (fate : Option FluxError)
    (hphase : w.phase = .writing) : Effect w key (w.write data fate) key := by
  have hbefore : w.phase.visible = false := by rw [hphase]; rfl
  rw [write]
  split
  · exact effect_rejected key hbefore _
  · split
    · exact effect_rejected key hbefore _
    · split
      · exact effect_rejected key hbefore _
      · refine ⟨⟨rfl, rfl⟩, .inl ⟨rfl, rfl, fun h => ?_, fun h => ?_⟩⟩
        · cases hphase.symm.trans h
        · cases hphase.symm.trans h

theorem effect_close (hash : Bytes → ChunkId) (key : Option StoredObject) (fate : CallFate)
    (etag : Option String) (mtimeMs : Option Int) (hphase : w.phase = .writing) :
    Effect w key (w.close hash key fate etag mtimeMs).1 (w.close hash key fate etag mtimeMs).2 := by
  have hbefore : w.phase.visible = false := by rw [hphase]; rfl
  unfold close
  split
  · exact effect_rejected key hbefore _
  · split
    · rename_i hstaged
      cases fate with
      | answered =>
        exact ⟨⟨rfl, rfl⟩, .inl ⟨rfl, hbefore.symm, fun _ => hstaged, nofun⟩⟩
      | refused error => exact effect_rejected key hbefore error
      | replyLost error => exact effect_rejected key hbefore error
    · rename_i hdirect
      split
      · rename_i hcondition
        exact effect_replace key fate etag mtimeMs hbefore
          (.inr ⟨Bool.eq_false_iff.mpr hdirect, hcondition⟩)
      · cases fate with
        | answered => exact effect_rejected key hbefore _
        | refused error => exact effect_rejected key hbefore error
        | replyLost error => exact effect_rejected key hbefore error

theorem effect_call (h : w.call hash key c = some (w', key')) : Effect w key w' key' := by
  cases c with
  | write data fate =>
    rw [call] at h
    split at h
    · rename_i hphase
      cases h
      exact effect_write key data fate hphase
    · cases h
  | abort =>
    rw [call] at h
    split at h
    · rename_i hphase
      cases h
      exact ⟨⟨rfl, rfl⟩, .inl ⟨rfl, by rw [hphase]; rfl, nofun, nofun⟩⟩
    · cases h
  | close fate etag mtimeMs =>
    rw [call] at h
    split at h
    · rename_i hphase
      have heffect := effect_close hash key fate etag mtimeMs hphase
      rw [Option.some.inj h] at heffect
      exact heffect
    · cases h
  | check failed =>
    rw [call] at h
    split at h
    · rename_i hphase
      have hbefore : w.phase.visible = false := by rw [hphase]; rfl
      split at h
      · rename_i hcondition
        cases h
        refine ⟨⟨rfl, rfl⟩, .inl ⟨rfl, hbefore.symm, nofun, fun _ => ⟨hphase, hcondition.2⟩⟩⟩
      · cases h
        exact effect_rejected key hbefore _
    · cases h
  | rename fate etag mtimeMs =>
    rw [call] at h
    split at h
    · rename_i hphase
      have heffect := effect_replace key fate etag mtimeMs (by rw [hphase]; rfl)
        (.inl hphase)
      rw [Option.some.inj h] at heffect
      exact heffect
    · cases h
  | confirm fate =>
    rw [call] at h
    split at h
    · rename_i hphase
      cases h
      exact ⟨⟨rfl, rfl⟩, .inl ⟨rfl, by rw [hphase]; rfl, nofun, nofun⟩⟩
    · cases h

/-- Behind the look at the key only the rename is left. -/
theorem rename_of_checked (h : w.call hash key c = some (w', key')) (hphase : w.phase = .checked) :
    ∃ fate etag mtimeMs, c = .rename fate etag mtimeMs := by
  cases c with
  | rename fate etag mtimeMs => exact ⟨fate, etag, mtimeMs, rfl⟩
  | _ => simp [call, hphase] at h

end VerifiedPublishWriter

/-! ## Steps -/

/-- External writers, and the rename of a staged publish. -/
def PublishAction.changesKey : PublishAction → Bool
  | .external _ | .call _ (.rename ..) => true
  | _ => false

/-- The publish that makes the call. -/
def PublishAction.caller : PublishAction → Option Nat
  | .call id _ => some id
  | _ => none

/-- Nobody else changes the key between the look and the rename of a staged publish. -/
def KeyQuiet (st : PublishState) (a : PublishAction) : Prop :=
  a.changesKey = true → ∀ row ∈ st.writers.toList, row.2.phase = .checked → a.caller = some row.1

instance (st : PublishState) (a : PublishAction) : Decidable (KeyQuiet st a) :=
  inferInstanceAs (Decidable (_ → _))

/-- The publish has replaced the key. -/
def PublishState.Visible (id : Nat) (st : PublishState) : Prop :=
  ∃ w, st.writers[id]? = some w ∧ w.phase.visible = true

/-- The condition held where a staged publish has looked. -/
structure PublishInv (backend : UfsBackend) (st : PublishState) : Prop where
  flag_eq : ∀ (id : Nat) (w : VerifiedPublishWriter), st.writers[id]? = some w →
    w.stagedLocalPublish = decide (backend.scheme = "fs")
  staged : ∀ (id : Nat) (w : VerifiedPublishWriter), st.writers[id]? = some w →
    w.phase = .staged ∨ w.phase = .checked → w.stagedLocalPublish = true
  checked : ∀ (id : Nat) (w : VerifiedPublishWriter), st.writers[id]? = some w →
    w.phase = .checked → conditionMatches w.expectedEtag st.object = true

section
variable {hash : Bytes → ChunkId} {backend : UfsBackend} {st st' : PublishState} {a : PublishAction}
  {id : Nat} {key : Option StoredObject}

theorem beginVerifiedPublish_ok {rel : String} {expectedSize : Nat} {expectedEtag : Option String}
    {targetDigest : ChunkId} {fate : Option FluxError} {w : VerifiedPublishWriter}
    (h : beginVerifiedPublish backend rel expectedSize expectedEtag targetDigest fate = .ok w) :
    w.phase = .writing ∧ w.stagedLocalPublish = decide (backend.scheme = "fs") := by
  unfold beginVerifiedPublish at h
  dsimp only at h
  split_ifs at h
  split at h
  · cases h
  · cases h
    exact ⟨rfl, rfl⟩

/-- What a step can be: a publish begins, a publish makes a call, or the key changes from
outside. -/
theorem publishStep_cases (h : publishStep hash backend st a = some st') :
    st' = st ∨
    (∃ id w, st.writers[id]? = none ∧ w.phase = .writing ∧
      w.stagedLocalPublish = decide (backend.scheme = "fs") ∧ a.caller = none ∧
      st' = { st with writers := st.writers.insert id w }) ∨
    (∃ id c w w' object, a = .call id c ∧ st.writers[id]? = some w ∧
      w.call hash st.object c = some (w', object) ∧ st' = ⟨object, st.writers.insert id w'⟩) ∨
    ∃ object, a = .external object ∧ st' = { st with object := object } := by
  cases a with
  | begin id rel expectedSize expectedEtag targetDigest fate =>
    rw [publishStep] at h
    split at h
    · cases h
    · rename_i hnone
      split at h
      · cases h
        exact .inl rfl
      · rename_i w hbegin
        cases h
        obtain ⟨hphase, hflag⟩ := beginVerifiedPublish_ok hbegin
        exact .inr (.inl ⟨id, w, hnone, hphase, hflag, rfl, rfl⟩)
  | call id c =>
    rw [publishStep, Option.bind_eq_bind, Option.bind_eq_some_iff] at h
    obtain ⟨w, hw, h⟩ := h
    rw [Option.bind_eq_bind, Option.bind_eq_some_iff] at h
    obtain ⟨⟨w', object⟩, hcall, h⟩ := h
    cases h
    exact .inr (.inr (.inl ⟨id, c, w, w', object, rfl, hw, hcall, rfl⟩))
  | external object =>
    cases h
    exact .inr (.inr (.inr ⟨object, rfl, rfl⟩))

/-- A publish that has looked is on a filesystem. -/
theorem PublishInv.fs_of_checked (h : PublishInv backend st) {w : VerifiedPublishWriter}
    (hw : st.writers[id]? = some w) (hchecked : w.phase = .checked) : backend.scheme = "fs" := by
  have hflag := h.staged id w hw (.inr hchecked)
  rw [h.flag_eq id w hw] at hflag
  exact of_decide_eq_true hflag

/-- A call of another publish that is not its rename leaves the key alone on a filesystem. -/
theorem PublishInv.key_eq (h : PublishInv backend st) (hscheme : backend.scheme = "fs")
    {c : PublishCall} {w w' : VerifiedPublishWriter} {object : Option StoredObject}
    (hw : st.writers[id]? = some w) (hcall : w.call hash st.object c = some (w', object))
    (hkeeps : (PublishAction.call id c).changesKey = false) : object = st.object := by
  obtain hleaves | hreplaces := (VerifiedPublishWriter.effect_call hcall).2
  · exact hleaves.key_eq
  · obtain hphase | ⟨hdirect, -⟩ := hreplaces.condition
    · obtain ⟨fate, etag, mtimeMs, rfl⟩ := VerifiedPublishWriter.rename_of_checked hcall hphase
      cases hkeeps
    · rw [h.flag_eq id w hw, decide_eq_true hscheme] at hdirect
      cases hdirect

theorem PublishInv.step (h : PublishInv backend st) (hquiet : backend.scheme = "fs" → KeyQuiet st a)
    (hstep : publishStep hash backend st a = some st') : PublishInv backend st' := by
  obtain rfl | ⟨id, w, hnone, hphase, hflag, -, rfl⟩ | ⟨id, c, w, w', object, rfl, hw, hcall, rfl⟩ |
    ⟨object, rfl, rfl⟩ := publishStep_cases hstep
  · exact h
  · refine ⟨fun i v hv => ?_, fun i v hv hor => ?_, fun i v hv hchecked => ?_⟩
    all_goals
      rw [Table.get_insert] at hv
      split at hv
    · cases hv
      exact hflag
    · exact h.flag_eq i v hv
    · cases hv
      simp [hphase] at hor
    · exact h.staged i v hv hor
    · cases hv
      cases hphase.symm.trans hchecked
    · exact h.checked i v hv hchecked
  · obtain ⟨hsame, heffect⟩ := VerifiedPublishWriter.effect_call hcall
    refine ⟨fun i v hv => ?_, fun i v hv hor => ?_, fun i v hv hchecked => ?_⟩
    all_goals
      rw [Table.get_insert] at hv
      split at hv
    · cases hv
      exact hsame.staged_eq.trans (h.flag_eq id w hw)
    · exact h.flag_eq i v hv
    · cases hv
      rw [hsame.staged_eq]
      obtain hleaves | hreplaces := heffect
      · obtain hstaged | hchecked := hor
        · exact hleaves.staged hstaged
        · exact h.staged id w hw (.inl (hleaves.checked hchecked).1)
      · obtain hphase | hphase := hor
        all_goals
          have hafter := hreplaces.after
          rw [hphase] at hafter
          cases hafter
    · exact h.staged i v hv hor
    · cases hv
      obtain hleaves | hreplaces := heffect
      · rw [hsame.expected_eq, hleaves.key_eq]
        exact (hleaves.checked hchecked).2
      · have hafter := hreplaces.after
        rw [hchecked] at hafter
        cases hafter
    · rename_i hne
      have hfs := h.fs_of_checked hv hchecked
      cases hkeeps : (PublishAction.call id c).changesKey with
      | false =>
        rw [h.key_eq hfs hw hcall hkeeps]
        exact h.checked i v hv hchecked
      | true =>
        have hcaller := hquiet hfs hkeeps (i, v) ((Table.mem_rows ..).mpr hv) hchecked
        exact absurd (Option.some.inj hcaller) hne
  · refine ⟨h.flag_eq, h.staged, fun i v hv hchecked => ?_⟩
    -- a publish that has looked is on a filesystem, where nobody changes the key under it
    cases hquiet (h.fs_of_checked hv hchecked) rfl (i, v) ((Table.mem_rows ..).mpr hv) hchecked

/-! ## Runs -/

theorem publishInv_start (backend : UfsBackend) (key : Option StoredObject) :
    PublishInv backend ⟨key, ∅⟩ := by
  refine ⟨fun i v hv => ?_, fun i v hv => ?_, fun i v hv => ?_⟩
  all_goals cases hv

/-- A publish stays the publish it is, and stays visible. -/
theorem row_step {v : VerifiedPublishWriter} (hv : st.writers[id]? = some v)
    (hstep : publishStep hash backend st a = some st') :
    ∃ v', st'.writers[id]? = some v' ∧ SamePublish v v' ∧
      (v.phase.visible = true → v'.phase.visible = true) := by
  obtain rfl | ⟨i, w, hnone, -, -, -, rfl⟩ | ⟨i, c, w, w', object, rfl, hw, hcall, rfl⟩ |
    ⟨object, rfl, rfl⟩ := publishStep_cases hstep
  · exact ⟨v, hv, ⟨rfl, rfl⟩, fun h => h⟩
  · have hne : i ≠ id := by
      rintro rfl
      cases hnone.symm.trans hv
    exact ⟨v, by rw [Table.get_insert, if_neg hne]; exact hv, ⟨rfl, rfl⟩, fun h => h⟩
  · by_cases hi : i = id
    · subst hi
      cases hw.symm.trans hv
      obtain ⟨hsame, heffect⟩ := VerifiedPublishWriter.effect_call hcall
      refine ⟨w', by rw [Table.get_insert, if_pos rfl], hsame, fun hvisible => ?_⟩
      obtain hleaves | hreplaces := heffect
      · rw [hleaves.visible_eq]
        exact hvisible
      · exact hreplaces.after
    · exact ⟨v, by rw [Table.get_insert, if_neg hi]; exact hv, ⟨rfl, rfl⟩, fun h => h⟩
  · exact ⟨v, hv, ⟨rfl, rfl⟩, fun h => h⟩

theorem PublishState.Visible.step (h : st.Visible id)
    (hstep : publishStep hash backend st a = some st') : st'.Visible id := by
  obtain ⟨v, hv, hvisible⟩ := h
  obtain ⟨v', hv', -, hkeeps⟩ := row_step hv hstep
  exact ⟨v', hv', hkeeps hvisible⟩

/-- A publish becomes visible by replacing the key where its condition holds. -/
theorem PublishInv.becomes_visible (h : PublishInv backend st)
    (hstep : publishStep hash backend st a = some st') (hbefore : ¬ st.Visible id)
    (hafter : st'.Visible id) :
    a.caller = some id ∧ ∃ w w', st.writers[id]? = some w ∧ st'.writers[id]? = some w' ∧
      SamePublish w w' ∧ conditionMatches w.expectedEtag st.object = true ∧
      ∃ etag mtimeMs, st'.object = some (w.object etag mtimeMs) := by
  obtain ⟨v, hv, hvisible⟩ := hafter
  obtain rfl | ⟨i, w, hnone, hphase, -, -, rfl⟩ | ⟨i, c, w, w', object, rfl, hw, hcall, rfl⟩ |
    ⟨object, rfl, rfl⟩ := publishStep_cases hstep
  · exact absurd ⟨v, hv, hvisible⟩ hbefore
  · rw [Table.get_insert] at hv
    split at hv
    · cases hv
      rw [hphase] at hvisible
      cases hvisible
    · exact absurd ⟨v, hv, hvisible⟩ hbefore
  · rw [Table.get_insert] at hv
    split at hv
    · rename_i hi
      subst hi
      cases hv
      obtain ⟨hsame, hleaves | hreplaces⟩ := VerifiedPublishWriter.effect_call hcall
      · rw [hleaves.visible_eq] at hvisible
        exact absurd ⟨w, hw, hvisible⟩ hbefore
      · refine ⟨rfl, w, v, hw, by rw [Table.get_insert, if_pos rfl], hsame, ?_, hreplaces.key_eq⟩
        obtain hchecked | ⟨-, hcondition⟩ := hreplaces.condition
        · exact h.checked i w hw hchecked
        · exact hcondition
    · exact absurd ⟨v, hv, hvisible⟩ hbefore
  · exact absurd ⟨v, hv, hvisible⟩ hbefore

theorem visible_of_changed (hstep : publishStep hash backend st a = some st')
    (hcaller : a.caller = some id) (hchanged : st'.object ≠ st.object) : st'.Visible id := by
  obtain rfl | ⟨i, v, -, -, -, -, rfl⟩ | ⟨i, c, v, v', object, rfl, hv, hcall, rfl⟩ |
    ⟨object, rfl, rfl⟩ := publishStep_cases hstep
  · exact absurd rfl hchanged
  · exact absurd rfl hchanged
  · cases hcaller
    obtain hleaves | hreplaces := (VerifiedPublishWriter.effect_call hcall).2
    · exact absurd hleaves.key_eq hchanged
    · exact ⟨v', by rw [Table.get_insert, if_pos rfl], hreplaces.after⟩
  · cases hcaller

/-- A publish keeps its condition. -/
theorem expected_step {expected : Option String}
    (h : ∃ w : VerifiedPublishWriter, st.writers[id]? = some w ∧ w.expectedEtag = expected)
    (hstep : publishStep hash backend st a = some st') :
    ∃ w : VerifiedPublishWriter, st'.writers[id]? = some w ∧ w.expectedEtag = expected := by
  obtain ⟨v, hv, hexpected⟩ := h
  obtain ⟨v', hv', hsame, -⟩ := row_step hv hstep
  exact ⟨v', hv', hsame.expected_eq.trans hexpected⟩

/-- Nobody deletes the object. -/
def Keeps : PublishAction → Prop
  | .external none => False
  | _ => True

instance (a : PublishAction) : Decidable (Keeps a) :=
  match a with
  | .external none => .isFalse fun h => h
  | .external (some _) | .begin .. | .call .. => .isTrue trivial

/-- A publish that expected absence and has replaced the key. -/
def PublishState.Created (id : Nat) (st : PublishState) : Prop :=
  ∃ w, st.writers[id]? = some w ∧ w.phase.visible = true ∧ w.expectedEtag = none

/-- As long as nobody deletes the object, it is there once published, and one publish at
most has created it. -/
structure OneCreator (st : PublishState) : Prop where
  taken : ∀ id, st.Visible id → st.object.isSome = true
  unique : ∀ id id', st.Created id → st.Created id' → id = id'

theorem PublishState.Created.visible (h : st.Created id) : st.Visible id := by
  obtain ⟨w, hw, hvisible, -⟩ := h
  exact ⟨w, hw, hvisible⟩

/-- One that is visible already has created the object already. -/
theorem PublishState.Created.before (h : st'.Created id) (hvisible : st.Visible id)
    (hstep : publishStep hash backend st a = some st') : st.Created id := by
  obtain ⟨w, hw, hphase⟩ := hvisible
  obtain ⟨w', hw', -, hexpected'⟩ := h
  obtain ⟨v, hv, hexpected⟩ := expected_step ⟨w, hw, rfl⟩ hstep
  cases hw'.symm.trans hv
  exact ⟨w, hw, hphase, hexpected.symm.trans hexpected'⟩

theorem object_step (hkeeps : Keeps a)
    (hstep : publishStep hash backend st a = some st') (hsome : st.object.isSome = true) :
    st'.object.isSome = true := by
  obtain rfl | ⟨i, w, -, -, -, -, rfl⟩ | ⟨i, c, w, w', object, rfl, hw, hcall, rfl⟩ |
    ⟨object, rfl, rfl⟩ := publishStep_cases hstep
  · exact hsome
  · exact hsome
  · obtain hleaves | hreplaces := (VerifiedPublishWriter.effect_call hcall).2
    · exact hleaves.key_eq ▸ hsome
    · obtain ⟨etag, mtimeMs, rfl⟩ := hreplaces.key_eq
      rfl
  · cases object with
    | none => exact absurd hkeeps fun h => h
    | some object => rfl

theorem OneCreator.step (hinv : PublishInv backend st) (h : OneCreator st) (hkeeps : Keeps a)
    (hstep : publishStep hash backend st a = some st') : OneCreator st' := by
  have fresh : ∀ i, ¬ st.Visible i → st'.Visible i → st'.object.isSome = true := by
    intro i hbefore hafter
    obtain ⟨-, w, w', -, -, -, -, etag, mtimeMs, hobject⟩ :=
      hinv.becomes_visible hstep hbefore hafter
    rw [hobject]
    rfl
  -- a creator that is new finds the key absent, so there is no other
  have alone : ∀ i i', ¬ st.Visible i → st'.Created i → ¬ st.Visible i' := by
    intro i i' hbefore hcreated hother
    obtain ⟨-, w, w', -, hw', hsame, hcondition, -⟩ :=
      hinv.becomes_visible hstep hbefore hcreated.visible
    obtain ⟨v, hv, -, hexpected⟩ := hcreated
    cases hw'.symm.trans hv
    have htaken := h.taken i' hother
    rw [← hsame.expected_eq, hexpected] at hcondition
    cases hobject : st.object with
    | none =>
      rw [hobject] at htaken
      cases htaken
    | some object =>
      rw [hobject] at hcondition
      cases hcondition
  refine ⟨fun i hi => ?_, fun i i' hi hi' => ?_⟩
  · by_cases hbefore : st.Visible i
    · exact object_step hkeeps hstep (h.taken i hbefore)
    · exact fresh i hbefore hi
  · by_cases hbefore : st.Visible i
    · by_cases hbefore' : st.Visible i'
      · exact h.unique i i' (hi.before hbefore hstep) (hi'.before hbefore' hstep)
      · exact absurd hbefore (alone i' i hbefore' hi')
    · by_cases hbefore' : st.Visible i'
      · exact absurd hbefore' (alone i i' hbefore hi)
      · -- both are new in one step, which has one caller
        have hcaller := (hinv.becomes_visible hstep hbefore hi.visible).1
        have hcaller' := (hinv.becomes_visible hstep hbefore' hi'.visible).1
        exact Option.some.inj (hcaller.symm.trans hcaller')

end

/-- The states of a run between whose look and rename nobody else changes the key. -/
theorem publishInv_run {hash : Bytes → ChunkId} {backend : UfsBackend} {key : Option StoredObject}
    {actions : List PublishAction} {st : PublishState}
    (hrun : exec (publishStep hash backend) ⟨key, ∅⟩ actions = some st)
    (hquiet : backend.scheme = "fs" → Along (publishStep hash backend) KeyQuiet ⟨key, ∅⟩ actions) :
    PublishInv backend st :=
  exec_invariant_along (fun _ _ _ h hquiet hstep => h.step hquiet hstep) actions _ st
    (publishInv_start backend key) (Along.of_imp hquiet) hrun

theorem not_visible_start (id : Nat) (key : Option StoredObject) :
    ¬ PublishState.Visible id ⟨key, ∅⟩ := by
  rintro ⟨w, hw, -⟩
  cases hw

/-- A publish that is turned down never touches the key. -/
theorem rejected_untouched {hash : Bytes → ChunkId} {backend : UfsBackend}
    {key : Option StoredObject} {before after : List PublishAction} {a : PublishAction}
    {st t t' : PublishState} {id : Nat} {w : VerifiedPublishWriter} {error : FluxError}
    (hrun : exec (publishStep hash backend) ⟨key, ∅⟩ (before ++ a :: after) = some st)
    (hw : st.writers[id]? = some w) (hphase : w.phase = .rejected error)
    (hbefore : exec (publishStep hash backend) ⟨key, ∅⟩ before = some t)
    (hstep : publishStep hash backend t a = some t') (hcaller : a.caller = some id) :
    t'.object = t.object := by
  rw [exec_append, hbefore, Option.bind_some] at hrun
  obtain ⟨mid, hmid, hrest⟩ := exec_cons_some hrun
  cases hstep.symm.trans hmid
  by_contra hchanged
  -- a publish that has changed the key is visible for good
  have hvisible := visible_of_changed hstep hcaller hchanged
  obtain ⟨v, hv, hphase'⟩ := exec_invariant (fun _ _ _ h hs => h.step hs) after t' st hvisible
    hrest
  cases hw.symm.trans hv
  rw [hphase] at hphase'
  cases hphase'

/-- Where nobody else changes the key between the look and the rename of a staged publish, a
publish that succeeds has replaced what it expected, and of several that expect absence one at
most succeeds if nobody deletes the object. An object store needs no condition. One that is
turned down never touches the key, whatever the others do. -/
theorem publish_conditional (hash : Bytes → ChunkId) (backend : UfsBackend)
    (key : Option StoredObject) (actions : List PublishAction) (st : PublishState)
    (hrun : exec (publishStep hash backend) ⟨key, ∅⟩ actions = some st) :
    ((backend.scheme = "fs" → Along (publishStep hash backend) KeyQuiet ⟨key, ∅⟩ actions) →
      (∀ (id : Nat) (w : VerifiedPublishWriter) object, st.writers[id]? = some w →
        w.phase = .confirmed (.ok object) →
        ∃ before a after t t', actions = before ++ a :: after ∧
          exec (publishStep hash backend) ⟨key, ∅⟩ before = some t ∧
          publishStep hash backend t a = some t' ∧ a.caller = some id ∧
          conditionMatches w.expectedEtag t.object = true ∧
          ∃ (w₀ : VerifiedPublishWriter) (etag : Option String) (mtimeMs : Option Int),
            t.writers[id]? = some w₀ ∧ t'.object = some (w₀.object etag mtimeMs)) ∧
      ((∀ a ∈ actions, Keeps a) → ∀ (id id' : Nat) (w w' : VerifiedPublishWriter) object object',
        st.writers[id]? = some w →
        st.writers[id']? = some w' → w.expectedEtag = none → w'.expectedEtag = none →
        w.phase = .confirmed (.ok object) → w'.phase = .confirmed (.ok object') → id = id')) ∧
    (∀ (id : Nat) (w : VerifiedPublishWriter) error, st.writers[id]? = some w →
      w.phase = .rejected error → ∀ before a after t t', actions = before ++ a :: after →
        exec (publishStep hash backend) ⟨key, ∅⟩ before = some t →
        publishStep hash backend t a = some t' → a.caller = some id → t'.object = t.object) := by
  refine ⟨fun hquiet => ⟨fun id w object hw hphase => ?_,
    fun hkeeps id id' w w' object object' hw hw' he he' hp hp' => ?_⟩, ?_⟩
  · have hvisible : st.Visible id := ⟨w, hw, by rw [hphase]; rfl⟩
    obtain ⟨before, a, after, t, t', rfl, hbefore, hstep, hnot, hvisible'⟩ :=
      exec_turn hrun (not_visible_start id key) hvisible
    have hinv : PublishInv backend t := publishInv_run hbefore fun hfs => (hquiet hfs).append.1
    obtain ⟨hcaller, w₀, w₁, hw₀, hw₁, hsame, hcondition, etag, mtimeMs, hobject⟩ :=
      hinv.becomes_visible hstep hnot hvisible'
    have hexpected : w.expectedEtag = w₀.expectedEtag := by
      rw [exec_append, hbefore, Option.bind_some] at hrun
      obtain ⟨mid, hmid, hrest⟩ := exec_cons_some hrun
      cases hstep.symm.trans hmid
      obtain ⟨v, hv, heq⟩ := exec_invariant (fun _ _ _ h hs => expected_step h hs) after t' st
        ⟨w₁, hw₁, hsame.expected_eq⟩ hrest
      cases hw.symm.trans hv
      exact heq
    exact ⟨before, a, after, t, t', rfl, hbefore, hstep, hcaller, hexpected ▸ hcondition, w₀, etag,
      mtimeMs, hw₀, hobject⟩
  · have hone : PublishInv backend st ∧ OneCreator st := by
      refine exec_invariant_along (I := fun s => PublishInv backend s ∧ OneCreator s)
        (fun s a s' h hallowed hstep => ?_) actions _ st ?_ ((Along.of_imp hquiet).and_mem hkeeps)
          hrun
      · exact ⟨h.1.step hallowed.1 hstep, .step h.1 h.2 hallowed.2 hstep⟩
      · refine ⟨publishInv_start backend key, fun i hi => ?_, fun i i' hi => ?_⟩
        · exact absurd hi (not_visible_start i key)
        · exact absurd hi.visible (not_visible_start i key)
    exact hone.2.unique id id' ⟨w, hw, by rw [hp]; rfl, he⟩ ⟨w', hw', by rw [hp']; rfl, he'⟩
  · rintro id w error hw hphase before a after t t' rfl hbefore hstep hcaller
    exact rejected_untouched hrun hw hphase hbefore hstep hcaller

/-- A filesystem with everything a publish asks for. -/
def localBackend : UfsBackend := ⟨"fs", ⟨true, true, true⟩⟩

/-- A create-if-absent publish of one byte, up to its complete upload. -/
def uploadByte (id : Nat) (byte : UInt8) : List PublishAction :=
  [.begin id "obj" 1 none (.ofByte byte) none, .call id (.write [byte] none),
    .call id (.close .answered none none)]

/-- A staged publish looks, renames and confirms. -/
def renameByte (id : Nat) : List PublishAction :=
  [.call id (.check false), .call id (.rename .answered none none), .call id (.confirm none)]

/-- The second publish looks when the first is done. -/
def oneByOne : List PublishAction :=
  uploadByte 1 1 ++ uploadByte 2 2 ++ renameByte 1 ++ [.call 2 (.check false)]

theorem publish_conditional_oneByOne :
    ∃ st, exec (publishStep firstByte localBackend) ⟨none, ∅⟩ oneByOne = some st ∧
      st.writers[1]?.map (·.phase) = some (.confirmed (.ok ⟨"obj", 1, none, none⟩)) ∧
      st.writers[2]?.map (·.phase) = some (.rejected .dirtyConflict) ∧
      (∃ before a after t t', oneByOne = before ++ a :: after ∧
        exec (publishStep firstByte localBackend) ⟨none, ∅⟩ before = some t ∧
        publishStep firstByte localBackend t a = some t' ∧ a.caller = some 1 ∧
        t.object = none ∧ t'.object.isSome) ∧
      ∀ before a after t t', oneByOne = before ++ a :: after →
        exec (publishStep firstByte localBackend) ⟨none, ∅⟩ before = some t →
        publishStep firstByte localBackend t a = some t' → a.caller = some 2 →
        t'.object = t.object := by
  have hends : (exec (publishStep firstByte localBackend) ⟨none, ∅⟩ oneByOne).map
      (fun st => (st.writers[1]?.map (fun w => (w.phase, w.expectedEtag)),
        st.writers[2]?.map (·.phase))) =
      some (some (.confirmed (.ok ⟨"obj", 1, none, none⟩), none),
        some (.rejected .dirtyConflict)) := by
    decide +kernel
  have hquiet : Along (publishStep firstByte localBackend) KeyQuiet ⟨none, ∅⟩ oneByOne := by
    decide +kernel
  obtain ⟨st, hrun, hphases⟩ := Option.map_eq_some_iff.mp hends
  obtain ⟨hfirst, hsecond⟩ := Prod.mk.inj hphases
  obtain ⟨w, hw, hphase⟩ := Option.map_eq_some_iff.mp hsecond
  obtain ⟨w₁, hw₁, hphase₁⟩ := Option.map_eq_some_iff.mp hfirst
  obtain ⟨hphase₁, hexpected⟩ := Prod.mk.inj hphase₁
  obtain ⟨hreplaced, huntouched⟩ := publish_conditional firstByte localBackend none oneByOne st hrun
  obtain ⟨before, a, after, t, t', hsplit, hbefore, hstep, hcaller, hcondition, w₀, etag, mtimeMs,
    -, hobject⟩ := (hreplaced fun _ => hquiet).1 1 w₁ _ hw₁ hphase₁
  refine ⟨st, hrun, by rw [hw₁, Option.map_some, hphase₁], hsecond, ?_, huntouched 2 w _ hw hphase⟩
  refine ⟨before, a, after, t, t', hsplit, hbefore, hstep, hcaller, ?_, by rw [hobject]; rfl⟩
  rw [hexpected] at hcondition
  cases hobj : t.object with
  | none => rfl
  | some object =>
    rw [hobj] at hcondition
    cases hcondition

/-- Both look, and both go on. -/
def bothLook : List PublishAction :=
  uploadByte 1 1 ++ uploadByte 2 2 ++ [.call 2 (.check false)] ++ renameByte 1

/-- Both publishes look at the key before either renames: both succeed, and the second
replaces an object although it expected none. -/
theorem staged_publishes_both_succeed :
    (∀ a ∈ bothLook ++ [.call 2 (.rename .answered none none), .call 2 (.confirm none)], Keeps a) ∧
    (exec (publishStep firstByte localBackend) ⟨none, ∅⟩ bothLook).map
        (fun st => (st.object.isSome, st.writers[2]?.map fun w => (w.phase, w.expectedEtag))) =
      some (true, some (.checked, none)) ∧
    (exec (publishStep firstByte localBackend) ⟨none, ∅⟩
        (bothLook ++ [.call 2 (.rename .answered none none), .call 2 (.confirm none)])).map
        (fun st => (st.object.map (·.data), st.writers[1]?.map (·.phase), st.writers[2]?.map
          (·.phase))) =
      some (some [2], some (.confirmed (.ok ⟨"obj", 1, none, none⟩)),
        some (.confirmed (.ok ⟨"obj", 1, none, none⟩))) := by
  decide +kernel

end FluxFS
