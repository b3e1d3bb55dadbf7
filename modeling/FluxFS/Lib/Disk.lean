import FluxFS.Lib.Rows
import FluxFS.Lib.Txn

/-!
# Disk — files, what a crash leaves of them, and commands that fail

A `Disk` is a directory of append-only files as the running process sees it,
with the part that is known to be on stable storage: the synced start of each
file and the synced directory entries. A crash keeps that part; what lies
beyond it may be lost, torn or replaced by anything (`Survives`).

`Holds files d` says that `files` are safe on `d`. Every command keeps it that
does not touch one of them, an append never does, and syncing adds files to
it; every survivor of a crash then still has them, possibly longer.

A `Bench` runs commands under a pattern of faults and records every state that
a crash could hit. Without faults it does what the commands do (`Mirrors`).
-/

namespace Kit

open Std

/-! ## Files -/

theorem Table.insert_insert {K V : Type} [Ord K] [TransOrd K] [LawfulEqOrd K] [DecidableEq K]
    (t : Table K V) (k : K) (v w : V) : (t.insert k v).insert k w = t.insert k w := by
  refine ExtTreeMap.ext_getElem? fun a => ?_
  rw [Table.get_insert, Table.get_insert, Table.get_insert]
  split
  · rfl
  · rfl

section
variable {ι β : Type} [Ord ι] [TransOrd ι]

/-- Files by name. What a crash leaves of them depends on what was synced. -/
structure Disk (ι β : Type) [Ord ι] where
  live : Table ι (List β)
  /-- The part of each file that was synced. -/
  synced : ι → List β
  /-- The directory entries that were synced. -/
  entries : ι → Bool

namespace Disk

/-- Everything is on stable storage. -/
def durable (files : Table ι (List β)) : Disk ι β where
  live := files
  synced i := files[i]?.getD []
  entries i := files[i]?.isSome

section
variable [DecidableEq ι]

/-- Make an empty file, or empty one. -/
def create (i : ι) (d : Disk ι β) : Disk ι β :=
  { d with live := d.live.insert i [], synced := Function.update d.synced i [] }

/-- Append to a file. -/
def append (i : ι) (bytes : List β) (d : Disk ι β) : Disk ι β :=
  { d with live := d.live.insert i (d.live[i]?.getD [] ++ bytes) }

/-- Make a file's bytes durable. -/
def syncFile (i : ι) (d : Disk ι β) : Disk ι β :=
  { d with synced := Function.update d.synced i (d.live[i]?.getD []) }

/-- Make the directory's entries durable. -/
def syncDir (d : Disk ι β) : Disk ι β := { d with entries := fun i => d.live[i]?.isSome }

/-- Take a file's name away. -/
def unlink (i : ι) (d : Disk ι β) : Disk ι β := { d with live := d.live.erase i }

theorem append_append [LawfulEqOrd ι] (i : ι) (xs ys : List β) (d : Disk ι β) :
    (d.append i xs).append i ys = d.append i (xs ++ ys) := by
  simp [append, Table.insert_insert]

theorem create_synced_of_ne {i a : ι} (h : a ≠ i) (d : Disk ι β) :
    (d.create i).synced a = d.synced a :=
  Function.update_of_ne h ..

theorem syncFile_synced (i : ι) (d : Disk ι β) : (d.syncFile i).synced i = d.live[i]?.getD [] :=
  Function.update_self ..

theorem syncFile_synced_of_ne {i a : ι} (h : a ≠ i) (d : Disk ι β) :
    (d.syncFile i).synced a = d.synced a :=
  Function.update_of_ne h ..

end

/-- `files` is a directory that a crash in `d` can leave. A file that was removed or
made since the last sync of the directory may be there or not; a file that is
there starts with its synced part. -/
structure Survives (d : Disk ι β) (files : Table ι (List β)) : Prop where
  kept : ∀ i, d.entries i = true → d.live[i]?.isSome = true → files[i]?.isSome = true
  known : ∀ i, files[i]?.isSome = true → d.entries i = true ∨ d.live[i]?.isSome = true
  content : ∀ i file, files[i]? = some file → d.synced i <+: file

end Disk

/-- Every file of `files` is in `files'`, with its bytes at the start. -/
def Extends (files files' : Table ι (List β)) : Prop :=
  ∀ (i : ι) (file : List β), files[i]? = some file → ∃ file', files'[i]? = some file' ∧
    file <+: file'

/-- `files` are on stable storage. -/
def Holds (files : Table ι (List β)) (d : Disk ι β) : Prop :=
  ∀ (i : ι) (file : List β), files[i]? = some file → d.entries i = true ∧ file <+: d.synced i ∧
    ∃ current, d.live[i]? = some current ∧ d.synced i <+: current

theorem Extends.refl (files : Table ι (List β)) : Extends files files :=
  fun _ file h => ⟨file, h, List.prefix_rfl⟩

namespace Holds
variable {files : Table ι (List β)} {d : Disk ι β}

theorem durable (files : Table ι (List β)) : Holds files (.durable files) := by
  intro i file h
  have hsynced : (Disk.durable files).synced i = file := by simp [Disk.durable, h]
  refine ⟨Option.isSome_of_eq_some h, ?_, file, h, ?_⟩
  · rw [hsynced]
  · rw [hsynced]

/-- The process sees them. -/
theorem live (h : Holds files d) : Extends files d.live := by
  intro i file hfile
  obtain ⟨-, hsynced, current, hcurrent, hstart⟩ := h i file hfile
  exact ⟨current, hcurrent, hsynced.trans hstart⟩

/-- They survive a crash. -/
theorem survive {files' : Table ι (List β)} (h : Holds files d) (hcrash : d.Survives files') :
    Extends files files' := by
  intro i file hfile
  obtain ⟨hentry, hsynced, current, hcurrent, -⟩ := h i file hfile
  obtain ⟨file', hfile'⟩ := Option.isSome_iff_exists.mp
    (hcrash.kept i hentry (by rw [hcurrent]; rfl))
  exact ⟨file', hfile', hsynced.trans (hcrash.content i file' hfile')⟩

/-- Fewer or shorter files. -/
theorem mono {files' : Table ι (List β)} (h : Holds files d) (hless : Extends files' files) :
    Holds files' d := by
  intro i file' hfile'
  obtain ⟨file, hfile, hstart⟩ := hless i file' hfile'
  obtain ⟨hentry, hsynced, hlive⟩ := h i file hfile
  exact ⟨hentry, hstart.trans hsynced, hlive⟩

theorem syncDir (h : Holds files d) : Holds files d.syncDir := by
  intro i file hfile
  obtain ⟨-, hsynced, current, hcurrent, hstart⟩ := h i file hfile
  exact ⟨Option.isSome_of_eq_some hcurrent, hsynced, current, hcurrent, hstart⟩

section
variable [DecidableEq ι]

theorem syncFile (h : Holds files d) (i : ι) : Holds files (d.syncFile i) := by
  intro a file hfile
  obtain ⟨hentry, hsynced, current, hcurrent, hstart⟩ := h a file hfile
  by_cases hia : a = i
  · subst hia
    have hall : (d.syncFile a).synced a = current := by simp [Disk.syncFile_synced, hcurrent]
    exact ⟨hentry, hall ▸ hsynced.trans hstart, current, hcurrent, hall ▸ List.prefix_rfl⟩
  · have hsame : (d.syncFile i).synced a = d.synced a := Disk.syncFile_synced_of_ne hia d
    exact ⟨hentry, hsame ▸ hsynced, current, hcurrent, hsame ▸ hstart⟩

variable [LawfulEqOrd ι]

theorem create (h : Holds files d) {i : ι} (hnew : files[i]? = none) :
    Holds files (d.create i) := by
  intro a file hfile
  have hne : i ≠ a := by
    rintro rfl
    rw [hnew] at hfile
    cases hfile
  obtain ⟨hentry, hsynced, current, hcurrent, hstart⟩ := h a file hfile
  refine ⟨hentry, ?_, current, ?_, ?_⟩
  · rwa [Disk.create_synced_of_ne hne.symm]
  · rw [Disk.create, Table.get_insert, if_neg hne, hcurrent]
  · rwa [Disk.create_synced_of_ne hne.symm]

theorem append (h : Holds files d) (i : ι) (bytes : List β) : Holds files (d.append i bytes) := by
  intro a file hfile
  obtain ⟨hentry, hsynced, current, hcurrent, hstart⟩ := h a file hfile
  refine ⟨hentry, hsynced, ?_⟩
  by_cases hia : i = a
  · subst hia
    refine ⟨current ++ bytes, ?_, hstart.trans (List.prefix_append ..)⟩
    simp [Disk.append, hcurrent]
  · exact ⟨current, by rw [Disk.append, Table.get_insert, if_neg hia, hcurrent], hstart⟩

theorem unlink (h : Holds files d) {i : ι} (hnew : files[i]? = none) :
    Holds files (d.unlink i) := by
  intro a file hfile
  have hne : i ≠ a := by
    rintro rfl
    rw [hnew] at hfile
    cases hfile
  obtain ⟨hentry, hsynced, current, hcurrent, hstart⟩ := h a file hfile
  exact ⟨hentry, hsynced, current, by rw [Disk.unlink, Table.get_erase, if_neg hne, hcurrent],
    hstart⟩

/-- A file that was synced, and then its directory, is safe as well. -/
theorem insert (h : Holds files d) {i : ι} {file : List β} (hlive : d.live[i]? = some file) :
    Holds (files.insert i file) (d.syncFile i).syncDir := by
  intro a file' hfile'
  rw [Table.get_insert] at hfile'
  split at hfile'
  · rename_i hia
    subst hia
    cases hfile'
    have hall : (d.syncFile i).syncDir.synced i = file :=
      (Disk.syncFile_synced i d).trans (by rw [hlive]; rfl)
    exact ⟨Option.isSome_of_eq_some hlive, hall ▸ List.prefix_rfl, file, hlive,
      hall ▸ List.prefix_rfl⟩
  · exact (h.syncFile i).syncDir a file' hfile'

end
end Holds
end

/-! ## Commands that fail -/

/-- A device under a pattern of faults, one for each fallible step. -/
structure Bench (δ φ : Type) where
  device : δ
  faults : Nat → Option φ
  /-- The fallible steps so far. -/
  ticks : Nat
  /-- The device before each command so far, the last one first. -/
  passed : List δ

section
variable {δ φ ε α γ τ : Type}

namespace Bench

/-- A device before its first command. -/
def start (d : δ) (faults : Nat → Option φ) : Bench δ φ := ⟨d, faults, 0, []⟩

/-- Where a crash can have hit the run. -/
def crashPoints (b : Bench δ φ) : List δ := b.device :: b.passed

/-- The device before and after the next command. -/
def next (d : δ) (b : Bench δ φ) : Bench δ φ :=
  { b with device := d, ticks := b.ticks + 1, passed := b.device :: b.passed }

/-- A command, with what it does and what it leaves when it fails. -/
def command (run : δ → δ) (failed : φ → δ → δ) (error : φ → ε) : Txn (Bench δ φ) ε Unit := fun b =>
  match b.faults b.ticks with
  | none => (.ok (), b.next (run b.device))
  | some fault => (.error (error fault), b.next (failed fault b.device))

/-- What the next read gives. -/
def readResult (read : δ → Except ε α) (error : φ → ε) (b : Bench δ φ) : Except ε α :=
  match b.faults b.ticks with
  | none => read b.device
  | some fault => .error (error fault)

/-- A fallible read whose failure is a value. -/
def tryRead (read : δ → Except ε α) (error : φ → ε) : Txn (Bench δ φ) ε (Except ε α) := fun b =>
  (.ok (b.readResult read error), { b with ticks := b.ticks + 1 })

/-- `let _ = x`. -/
def ignore (x : Txn (Bench δ φ) ε Unit) : Txn (Bench δ φ) ε Unit := fun b => (.ok (), (x b).2)

/-- Every point of the run so far. -/
def Always (I : δ → Prop) (b : Bench δ φ) : Prop := ∀ d ∈ b.crashPoints, I d

theorem Always.device {I : δ → Prop} {b : Bench δ φ} (h : b.Always I) : I b.device :=
  h _ List.mem_cons_self

theorem Always.next {I : δ → Prop} {b : Bench δ φ} {d : δ} (h : b.Always I) (hd : I d) :
    (b.next d).Always I := by
  intro a ha
  rcases List.mem_cons.mp ha with rfl | ha
  · exact hd
  · exact h a ha

theorem Always.mono {I J : δ → Prop} {b : Bench δ φ} (h : b.Always I) (hIJ : ∀ d, I d → J d) :
    b.Always J := fun d hd => hIJ d (h d hd)

/-- `A` held until some command brought `B` about, which holds since. -/
structure Turned (A B : δ → Prop) (b : Bench δ φ) : Prop where
  always : b.Always fun d => A d ∨ B d
  now : B b.device

section
variable {A B : δ → Prop} {b b' : Bench δ φ} {run : δ → δ} {failed : φ → δ → δ} {error : φ → ε}

/-- A command went through or failed. -/
theorem command_cases {r : Except ε Unit} (h : command run failed error b = (r, b')) :
    (r = .ok () ∧ b' = b.next (run b.device)) ∨
      ∃ fault, r = .error (error fault) ∧ b' = b.next (failed fault b.device) := by
  unfold command at h
  cases hfault : b.faults b.ticks with
  | none =>
    simp only [hfault] at h
    cases h
    exact .inl ⟨rfl, rfl⟩
  | some fault =>
    simp only [hfault] at h
    cases h
    exact .inr ⟨fault, rfl, rfl⟩

theorem command_ok {u : Unit} (h : command run failed error b = (.ok u, b')) :
    b' = b.next (run b.device) := by
  rcases command_cases h with ⟨-, heq⟩ | ⟨fault, hr, -⟩
  · exact heq
  · cases hr

theorem Always.command (hrun : ∀ d, A d → A (run d)) (hfail : ∀ fault d, A d → A (failed fault d)) :
    Txn.Preserves (Always A) (command run failed error) := by
  intro b hb
  rcases hcommand : Bench.command run failed error b with ⟨r, b'⟩
  rcases command_cases hcommand with ⟨-, rfl⟩ | ⟨fault, -, rfl⟩
  · exact hb.next (hrun _ hb.device)
  · exact hb.next (hfail fault _ hb.device)

theorem Turned.command (hrun : ∀ d, B d → B (run d)) (hfail : ∀ fault d, B d → B (failed fault d)) :
    Txn.Preserves (Turned A B) (command run failed error) := by
  intro b hb
  rcases hcommand : Bench.command run failed error b with ⟨r, b'⟩
  rcases command_cases hcommand with ⟨-, rfl⟩ | ⟨fault, -, rfl⟩
  · exact ⟨hb.always.next (.inr (hrun _ hb.now)), hrun _ hb.now⟩
  · exact ⟨hb.always.next (.inr (hfail fault _ hb.now)), hfail fault _ hb.now⟩

/-- The command that brings `B` about. -/
theorem Always.turn (h : b.Always A) {d : δ} (hd : B d) : (b.next d).Turned A B :=
  ⟨(h.mono fun _ => .inl).next (.inr hd), hd⟩

/-- A run that has not turned to anything new. -/
theorem Always.turned (h : b.Always A) : b.Turned A A :=
  ⟨h.mono fun _ => .inl, h.device⟩

theorem preserves_ignore {P : Bench δ φ → Prop} {x : Txn (Bench δ φ) ε Unit}
    (h : Txn.Preserves P x) : Txn.Preserves P (ignore x) := h

theorem readResult_of_quiet {read : δ → Except ε α} (h : b.faults b.ticks = none) :
    b.readResult read error = read b.device := by
  rw [readResult, h]

theorem readResult_ok {read : δ → Except ε α} {a : α} (h : b.readResult read error = .ok a) :
    read b.device = .ok a := by
  unfold readResult at h
  split at h
  · exact h
  · cases h

end

/-! ## Where a fault stops a run -/

/-- No fault hits the next `n` steps. -/
def Clear (n : Nat) (b : Bench δ φ) : Prop := ∀ i < n, b.faults (b.ticks + i) = none

theorem clear_zero (b : Bench δ φ) : b.Clear 0 := fun _ hi => absurd hi (Nat.not_lt_zero _)

theorem clear_succ {b c : Bench δ φ} (hfaults : c.faults = b.faults)
    (hticks : c.ticks = b.ticks + 1) (n : Nat) :
    b.Clear (n + 1) ↔ b.faults b.ticks = none ∧ c.Clear n := by
  have hshift : ∀ i, c.faults (c.ticks + i) = b.faults (b.ticks + (i + 1)) := by
    intro i
    rw [hfaults, hticks, Nat.add_assoc, Nat.add_comm 1 i]
  constructor
  · intro h
    exact ⟨h 0 (Nat.succ_pos n), fun i hi => (hshift i).trans (h (i + 1) (Nat.succ_lt_succ hi))⟩
  · rintro ⟨hfirst, hrest⟩ i hi
    cases i with
    | zero => exact hfirst
    | succ i => exact (hshift i).symm.trans (hrest i (Nat.lt_of_succ_lt_succ hi))

/-- `x` takes `k` steps and succeeds exactly if no fault hits them. -/
def Spends (k : Nat) (x : Txn (Bench δ φ) ε α) : Prop :=
  ∀ b n, b.Clear (n + k) ↔ (x b).1.isOk ∧ (x b).2.Clear n

theorem Spends.command {run : δ → δ} {failed : φ → δ → δ} {error : φ → ε} :
    Spends 1 (Bench.command run failed error) := by
  intro b n
  have hnext := clear_succ (b := b) (c := b.next (run b.device)) rfl rfl n
  cases hfault : b.faults b.ticks with
  | none =>
    rw [hnext]
    simp [Bench.command, hfault, Except.isOk, Except.toBool]
  | some fault =>
    rw [hnext]
    simp [Bench.command, hfault, Except.isOk, Except.toBool]

theorem Spends.bind {k l : Nat} {x : Txn (Bench δ φ) ε α} {f : α → Txn (Bench δ φ) ε γ}
    (hx : Spends k x) (hf : ∀ a, Spends l (f a)) : Spends (l + k) (x >>= f) := by
  intro b n
  rw [← Nat.add_assoc, hx b (n + l)]
  rcases hrun : x b with ⟨e | a, b'⟩
  · simp [Txn.bind_of_error hrun, Except.isOk, Except.toBool]
  · rw [Txn.bind_of_ok hrun, hf a b' n]
    simp [Except.isOk, Except.toBool]

/-! ## Runs without faults -/

/-- No fault in the pattern. -/
def Quiet (b : Bench δ φ) : Prop := ∀ i, b.faults i = none

end Bench

/-- Without faults, `x` does to the view of the device what `y` does. -/
def Mirrors (view : δ → τ) (x : Txn (Bench δ φ) ε α) (y : Txn τ ε α) : Prop :=
  ∀ b, b.Quiet → (x b).1 = (y (view b.device)).1 ∧ view (x b).2.device = (y (view b.device)).2 ∧
    (x b).2.Quiet

namespace Mirrors
variable {view : δ → τ}

theorem pure (a : α) : Mirrors view (Pure.pure a : Txn (Bench δ φ) ε α) (Pure.pure a) :=
  fun _ hb => ⟨rfl, rfl, hb⟩

theorem reads {f : Bench δ φ → α} {g : τ → α} (h : ∀ b, f b = g (view b.device)) :
    Mirrors view (Txn.reads f : Txn (Bench δ φ) ε α) (Txn.reads g) :=
  fun b hb => ⟨congrArg Except.ok (h b), rfl, hb⟩

theorem query {f : Bench δ φ → Except ε α} {g : τ → Except ε α}
    (h : ∀ b, f b = g (view b.device)) : Mirrors view (Txn.query f) (Txn.query g) :=
  fun b hb => ⟨h b, rfl, hb⟩

theorem failIf (c : Prop) [Decidable c] (e : ε) :
    Mirrors view (Txn.failIf c e : Txn (Bench δ φ) ε Unit) (Txn.failIf c e) := by
  intro b hb
  rw [Txn.failIf_run, Txn.failIf_run]
  split
  · exact ⟨rfl, rfl, hb⟩
  · exact ⟨rfl, rfl, hb⟩

theorem command {run : δ → δ} {failed : φ → δ → δ} {error : φ → ε} {g : τ → τ}
    (h : ∀ d, view (run d) = g (view d)) :
    Mirrors view (Bench.command run failed error) (Txn.modify g) := by
  intro b hb
  rw [Bench.command, hb b.ticks]
  exact ⟨rfl, h b.device, hb⟩

/-- A command that only the device sees. -/
theorem command_unseen {run : δ → δ} {failed : φ → δ → δ} {error : φ → ε}
    (h : ∀ d, view (run d) = view d) :
    Mirrors view (Bench.command run failed error) (Pure.pure ()) := by
  intro b hb
  rw [Bench.command, hb b.ticks]
  exact ⟨rfl, h b.device, hb⟩

theorem ignore {x : Txn (Bench δ φ) ε Unit} {g : τ → τ} (h : Mirrors view x (Txn.modify g)) :
    Mirrors view (Bench.ignore x) (Txn.modify g) :=
  fun b hb => ⟨rfl, (h b hb).2⟩

theorem tryRead {read : δ → Except ε α} {error : φ → ε} (g : τ → Except ε α)
    (h : ∀ d, read d = g (view d)) :
    Mirrors view (Bench.tryRead read error) (Txn.reads g) := by
  intro b hb
  refine ⟨congrArg Except.ok ?_, rfl, hb⟩
  rw [Bench.readResult_of_quiet (hb b.ticks), h b.device]

theorem bind {x : Txn (Bench δ φ) ε α} {y : Txn τ ε α} {f : α → Txn (Bench δ φ) ε γ}
    {g : α → Txn τ ε γ} (hx : Mirrors view x y) (hf : ∀ a, Mirrors view (f a) (g a)) :
    Mirrors view (x >>= f) (y >>= g) := by
  intro b hb
  obtain ⟨hresult, hview, hquiet⟩ := hx b hb
  rcases hrun : x b with ⟨e | a, b'⟩
  · rw [hrun] at hresult hview hquiet
    rw [Txn.bind_of_error hrun, Txn.bind_of_error (Prod.ext hresult.symm hview.symm)]
    exact ⟨rfl, rfl, hquiet⟩
  · rw [hrun] at hresult hview hquiet
    rw [Txn.bind_of_ok hrun, Txn.bind_of_ok (Prod.ext hresult.symm hview.symm)]
    exact hf a b' hquiet

/-- A first step that only the device sees. -/
theorem unseen_bind {x : Txn (Bench δ φ) ε Unit} {f : Unit → Txn (Bench δ φ) ε α} {y : Txn τ ε α}
    (hx : Mirrors view x (Pure.pure ())) (hf : Mirrors view (f ()) y) :
    Mirrors view (x >>= f) y :=
  hx.bind (g := fun _ => y) fun _ => hf

theorem congr {x : Txn (Bench δ φ) ε α} {y y' : Txn τ ε α} (h : Mirrors view x y) (heq : y = y') :
    Mirrors view x y' := heq ▸ h

end Mirrors
end
end Kit
