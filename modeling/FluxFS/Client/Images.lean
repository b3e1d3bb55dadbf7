import FluxFS.Types

/-!
# Images — the records a client submits

`FluxClient` never sends a change of an inode as a difference: it reads the
record, computes the whole next record and submits that with the generation
it read. These are the three computations: `write_chunked`, `truncate_locked`
and the metadata branch of `setattr`.
-/

namespace FluxFS

open Kit

/-- The attributes one setattr call supplies. -/
structure InodeSetAttr where
  mode : Option Nat
  uid : Option Nat
  gid : Option Nat
  size : Option Nat
  atimeMs : Option Int
  mtimeMs : Option Int
deriving DecidableEq, Repr

/-- `apply_inode_attrs`: the record, and whether any attribute was supplied. -/
def applyInodeAttrs (inode : Inode) (attrs : InodeSetAttr) : Inode × Bool :=
  ({ inode with
      mode := attrs.mode.elim inode.mode (· &&& 0o7777)
      uid := attrs.uid.getD inode.uid
      gid := attrs.gid.getD inode.gid
      atimeMs := attrs.atimeMs.getD inode.atimeMs
      mtimeMs := attrs.mtimeMs.getD inode.mtimeMs },
    attrs.mode.isSome || attrs.uid.isSome || attrs.gid.isSome || attrs.atimeMs.isSome ||
      attrs.mtimeMs.isSome)

/-- The locality fields after a data mutation. -/
def mutatedFields (old : LocalityFields) : LocalityFields :=
  match old.backingMode with
  | .ufsBacked => ⟨.ufsBacked, .dirty, .none, old.origin⟩
  | .ephemeral => ⟨.ephemeral, .ephemeral, .none, old.origin⟩

/-- `mark_data_mutated`. -/
def markDataMutated (inode : Inode) : Inode :=
  let fields := mutatedFields (inode.localityFields.getD .default)
  { inode with
    localityFields := some fields
    locality := LocalityLabel.derive fields inode.headGen inode.ufsGen }

/-- A change of a file's data. -/
inductive DataChange where
  /-- `write_at` of bytes that end at `endOffset`. -/
  | write (endOffset : Nat) (now : Int)
  /-- `setattr` with a new size. -/
  | truncate (size : Nat) (attrs : InodeSetAttr) (now : Int)
deriving DecidableEq, Repr

/-- The record `write_chunked` or `truncate_locked` submits. -/
def DataChange.image (basis : Inode) : DataChange → Inode
  | .write endOffset now =>
    { markDataMutated
        { basis with
          size := max basis.size endOffset
          headGen := saturatingAdd basis.headGen 1
          generation := saturatingAdd basis.generation 1 } with
      mtimeMs := now
      ctimeMs := now }
  | .truncate size attrs now =>
    (applyInodeAttrs
      { markDataMutated
          { basis with
            size := size
            headGen := saturatingAdd basis.headGen 1
            generation := saturatingAdd basis.generation 1 } with
        mtimeMs := now
        ctimeMs := now } attrs).1

/-- The record the metadata branch of `setattr` submits; `none` when no attribute
was supplied and nothing is submitted. -/
def setattrImage (inode : Inode) (attrs : InodeSetAttr) (now : Int) : Option Inode :=
  let (next, touched) := applyInodeAttrs inode attrs
  if touched then
    some { next with generation := saturatingAdd inode.generation 1, ctimeMs := now }
  else none

/-- Whatever the change, the image is the record with a new data generation, the
fields of a mutation and no other locality or lifecycle field touched. -/
theorem DataChange.image_spec (basis : Inode) (change : DataChange) :
    (change.image basis).id = basis.id ∧
      (change.image basis).generation = saturatingAdd basis.generation 1 ∧
      (change.image basis).linkCount = basis.linkCount ∧
      (change.image basis).fileType = basis.fileType ∧
      (change.image basis).flushIntent = basis.flushIntent ∧
      (change.image basis).localityFields =
        some (mutatedFields (basis.localityFields.getD .default)) ∧
      (change.image basis).locality =
        LocalityLabel.derive (mutatedFields (basis.localityFields.getD .default))
          (change.image basis).headGen (change.image basis).ufsGen := by
  cases change with
  | write endOffset now => exact ⟨rfl, rfl, rfl, rfl, rfl, rfl, rfl⟩
  | truncate size attrs now => exact ⟨rfl, rfl, rfl, rfl, rfl, rfl, rfl⟩

end FluxFS
