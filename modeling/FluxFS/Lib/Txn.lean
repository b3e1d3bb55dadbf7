import Mathlib

/-!
# Txn — fallible state transactions that keep their state on failure

`Txn σ ε α` is a computation over a state `σ` that may stop with an error
`ε`. Unlike `StateT σ (Except ε)` the state reached when the error was
raised is part of the result: whether a failed transaction is rolled back
or kept is a decision of its caller (`atomic` rolls back), so a model can
say what a caller that keeps it would store.

`bind_cases` is the inversion rule: a sequenced computation either ran
its first half and went on, or stopped inside it. `Keeps R` and
`Preserves P` are the compositional judgements about the final state,
whichever way the computation ended; `Raises E` is the one about errors.
-/

namespace Kit

/-- A fallible transaction over `σ`. -/
def Txn (σ ε α : Type) : Type := σ → Except ε α × σ

namespace Txn

variable {σ ε α β : Type}

instance : Monad (Txn σ ε) where
  pure a := fun s => (.ok a, s)
  bind x f := fun s =>
    match x s with
    | (.ok a, s') => f a s'
    | (.error e, s') => (.error e, s')

instance : LawfulMonad (Txn σ ε) := LawfulMonad.mk' (Txn σ ε)
  (by
    intro α x
    funext s
    show (match x s with
      | (.ok a, s') => (.ok a, s')
      | (.error e, s') => (.error e, s')) = x s
    rcases x s with ⟨_ | _, _⟩ <;> rfl)
  (fun _ _ => rfl)
  (by
    intro α β γ x f g
    funext s
    show (match (match x s with
        | (.ok a, s') => f a s'
        | (.error e, s') => (.error e, s')) with
      | (.ok b, s') => g b s'
      | (.error e, s') => (.error e, s')) =
      match x s with
      | (.ok a, s') =>
        match f a s' with
        | (.ok b, s'') => g b s''
        | (.error e, s'') => (.error e, s'')
      | (.error e, s') => (.error e, s')
    rcases x s with ⟨_ | _, _⟩ <;> rfl)

/-- Stop with an error; the state stays as it is. -/
def fail (e : ε) : Txn σ ε α := fun s => (.error e, s)

/-- Stop with `e` when `c` holds. -/
def failIf (c : Prop) [Decidable c] (e : ε) : Txn σ ε Unit :=
  fun s => if c then (.error e, s) else (.ok (), s)

/-- Read a value off the state. -/
def reads (f : σ → α) : Txn σ ε α := fun s => (.ok (f s), s)

/-- Run a fallible read of the state. -/
def query (f : σ → Except ε α) : Txn σ ε α := fun s => (f s, s)

/-- Change the state. -/
def modify (f : σ → σ) : Txn σ ε Unit := fun s => (.ok (), f s)

/-- Run `body` on each element, stopping at the first error. -/
def forEach (body : β → Txn σ ε Unit) : List β → Txn σ ε Unit
  | [] => pure ()
  | b :: bs => do
    body b
    forEach body bs

/-- Run with rollback: an error leaves the state as it was. -/
def atomic (x : Txn σ ε α) : Txn σ ε α := fun s =>
  match x s with
  | (.ok a, s') => (.ok a, s')
  | (.error e, _) => (.error e, s)

/-! ## Symbolic execution -/

@[simp] theorem pure_run (a : α) (s : σ) : (pure a : Txn σ ε α) s = (.ok a, s) := rfl

@[simp] theorem fail_run (e : ε) (s : σ) : (fail e : Txn σ ε α) s = (.error e, s) := rfl

@[simp] theorem reads_run (f : σ → α) (s : σ) : (reads f : Txn σ ε α) s = (.ok (f s), s) := rfl

@[simp] theorem query_run (f : σ → Except ε α) (s : σ) : query f s = (f s, s) := rfl

@[simp] theorem modify_run (f : σ → σ) (s : σ) :
    (modify f : Txn σ ε Unit) s = (.ok (), f s) := rfl

theorem failIf_run (c : Prop) [Decidable c] (e : ε) (s : σ) :
    (failIf c e : Txn σ ε Unit) s = if c then (.error e, s) else (.ok (), s) := rfl

theorem bind_of_ok {x : Txn σ ε α} {s s' : σ} {a : α} (h : x s = (.ok a, s'))
    (f : α → Txn σ ε β) : (x >>= f) s = f a s' := by
  show (match x s with
    | (.ok a, s') => f a s'
    | (.error e, s') => (.error e, s')) = f a s'
  rw [h]

theorem bind_of_error {x : Txn σ ε α} {s s' : σ} {e : ε} (h : x s = (.error e, s'))
    (f : α → Txn σ ε β) : (x >>= f) s = (.error e, s') := by
  show (match x s with
    | (.ok a, s') => f a s'
    | (.error e, s') => (.error e, s')) = (.error e, s')
  rw [h]

@[simp] theorem pure_bind_run (a : α) (f : α → Txn σ ε β) (s : σ) :
    ((pure a : Txn σ ε α) >>= f) s = f a s := rfl

@[simp] theorem fail_bind_run (e : ε) (f : α → Txn σ ε β) (s : σ) :
    ((fail e : Txn σ ε α) >>= f) s = (.error e, s) := rfl

@[simp] theorem reads_bind_run (g : σ → α) (f : α → Txn σ ε β) (s : σ) :
    ((reads g : Txn σ ε α) >>= f) s = f (g s) s := rfl

@[simp] theorem modify_bind_run (g : σ → σ) (f : Unit → Txn σ ε β) (s : σ) :
    ((modify g : Txn σ ε Unit) >>= f) s = f () (g s) := rfl

theorem failIf_bind_run (c : Prop) [Decidable c] (e : ε) (f : Unit → Txn σ ε β) (s : σ) :
    ((failIf c e : Txn σ ε Unit) >>= f) s = if c then (.error e, s) else f () s := by
  by_cases hc : c
  · rw [if_pos hc]
    exact bind_of_error (by rw [failIf_run, if_pos hc]) f
  · rw [if_neg hc]
    exact bind_of_ok (by rw [failIf_run, if_neg hc]) f

theorem query_bind_run (g : σ → Except ε α) (f : α → Txn σ ε β) (s : σ) :
    ((query g : Txn σ ε α) >>= f) s =
      match g s with
      | .ok a => f a s
      | .error e => (.error e, s) := by
  cases hg : g s with
  | ok a => exact bind_of_ok (by simp [hg]) f
  | error e => exact bind_of_error (by simp [hg]) f

/-- Inversion of sequencing: either the first computation finished and the
second produced the outcome, or the first one stopped. -/
theorem bind_cases {x : Txn σ ε α} {f : α → Txn σ ε β} {s t : σ} {r : Except ε β}
    (h : (x >>= f) s = (r, t)) :
    (∃ a s', x s = (.ok a, s') ∧ f a s' = (r, t)) ∨
      (∃ e, x s = (.error e, t) ∧ r = .error e) := by
  rcases hx : x s with ⟨_ | a, s'⟩
  · rw [bind_of_error hx, Prod.mk.injEq] at h
    obtain ⟨rfl, rfl⟩ := h
    exact .inr ⟨_, rfl, rfl⟩
  · rw [bind_of_ok hx] at h
    exact .inl ⟨a, s', rfl, h⟩

/-! ## Outcome rules

What holds of a sequenced computation's outcome, one rule per first step: an
early stop leaves the state where it was, otherwise the rest runs from there. -/

section Outcome
variable {P : Except ε β × σ → Prop} {s : σ}

theorem outcome_bind {x : Txn σ ε α} {f : α → Txn σ ε β}
    (herr : ∀ e t, x s = (.error e, t) → P (.error e, t))
    (hok : ∀ a t, x s = (.ok a, t) → P (f a t)) : P ((x >>= f) s) := by
  rcases hx : x s with ⟨e | a, t⟩
  · rw [bind_of_error hx]
    exact herr e t hx
  · rw [bind_of_ok hx]
    exact hok a t hx

theorem outcome_failIf {c : Prop} [Decidable c] {e : ε} {f : Unit → Txn σ ε β}
    (herr : c → P (.error e, s)) (hok : ¬ c → P (f () s)) : P ((failIf c e >>= f) s) := by
  rw [failIf_bind_run]
  split
  · exact herr ‹_›
  · exact hok ‹_›

theorem outcome_query {g : σ → Except ε α} {f : α → Txn σ ε β}
    (herr : ∀ e, g s = .error e → P (.error e, s)) (hok : ∀ a, g s = .ok a → P (f a s)) :
    P ((query g >>= f) s) := by
  rw [query_bind_run]
  cases hg : g s with
  | ok a => exact hok a hg
  | error e => exact herr e hg

theorem outcome_reads {g : σ → α} {f : α → Txn σ ε β} (h : P (f (g s) s)) :
    P ((reads g >>= f) s) := h

theorem outcome_modify {g : σ → σ} {f : Unit → Txn σ ε β} (h : P (f () (g s))) :
    P ((modify g >>= f) s) := h

end Outcome

/-- Wrapping a result keeps the state. -/
theorem bind_pure_state (x : Txn σ ε α) (g : α → β) (s : σ) :
    ((x >>= fun a => pure (g a)) s).2 = (x s).2 := by
  rcases hx : x s with ⟨e | a, t⟩
  · rw [bind_of_error hx]
  · rw [bind_of_ok hx]
    rfl

/-! ## Loops and rollback -/

/-- A loop whose elements up to the first refused one leave the state alone. -/
theorem forEach_stays (accepted : β → Bool) {body : β → Txn σ ε Unit} {s : σ} {bs : List β}
    (hstop : ∀ b ∈ bs, accepted b = false → ∃ e, body b s = (.error e, s))
    (hstay : ∀ b ∈ bs.takeWhile accepted, (body b s).2 = s) : (forEach body bs s).2 = s := by
  induction bs with
  | nil => rfl
  | cons b bs ih =>
    rw [forEach]
    cases hb : accepted b with
    | false =>
      obtain ⟨e, he⟩ := hstop b List.mem_cons_self hb
      rw [bind_of_error he]
    | true =>
      rw [List.takeWhile_cons_of_pos hb, List.forall_mem_cons] at hstay
      rcases hrun : body b s with ⟨e | u, t⟩
      · rw [bind_of_error hrun]
        simpa [hrun] using hstay.1
      · obtain rfl : t = s := by simpa [hrun] using hstay.1
        rw [bind_of_ok hrun]
        exact ih (fun c hc => hstop c (List.mem_cons_of_mem b hc)) hstay.2

/-- A failed transaction with rollback leaves the state as it was. -/
theorem atomic_of_error {x : Txn σ ε α} {s t : σ} {e : ε} (h : atomic x s = (.error e, t)) :
    t = s := by
  unfold atomic at h
  rcases hx : x s with ⟨e' | a, u⟩
  · rw [hx] at h
    cases h
    rfl
  · rw [hx] at h
    cases h

/-! ## Judgements about the final state -/

/-- `x` takes every state to an `R`-related one, whichever way it ends. -/
def Keeps (R : σ → σ → Prop) (x : Txn σ ε α) : Prop := ∀ s, R s (x s).2

/-- `x` keeps `P` true, whichever way it ends. -/
def Preserves (P : σ → Prop) (x : Txn σ ε α) : Prop := ∀ s, P s → P (x s).2

section Keeps
variable {R : σ → σ → Prop}

theorem Keeps.pure [Std.Refl R] (a : α) : Keeps R (Pure.pure a : Txn σ ε α) :=
  fun s => Std.Refl.refl s

theorem Keeps.fail [Std.Refl R] (e : ε) : Keeps R (fail e : Txn σ ε α) :=
  fun s => Std.Refl.refl s

theorem Keeps.reads [Std.Refl R] (f : σ → α) : Keeps R (reads f : Txn σ ε α) :=
  fun s => Std.Refl.refl s

theorem Keeps.query [Std.Refl R] (f : σ → Except ε α) : Keeps R (query f) :=
  fun s => Std.Refl.refl s

theorem Keeps.failIf [Std.Refl R] (c : Prop) [Decidable c] (e : ε) :
    Keeps R (failIf c e : Txn σ ε Unit) := by
  intro s
  rw [failIf_run]
  split <;> exact Std.Refl.refl s

theorem Keeps.modify {f : σ → σ} (h : ∀ s, R s (f s)) :
    Keeps R (modify f : Txn σ ε Unit) := h

theorem Keeps.bind [IsTrans σ R] {x : Txn σ ε α} {f : α → Txn σ ε β}
    (hx : Keeps R x) (hf : ∀ a, Keeps R (f a)) : Keeps R (x >>= f) := by
  intro s
  have hs := hx s
  rcases h : x s with ⟨_ | a, s'⟩
  · rw [bind_of_error h]
    rwa [h] at hs
  · rw [bind_of_ok h]
    rw [h] at hs
    exact IsTrans.trans _ _ _ hs (hf a s')

theorem Keeps.forEach [Std.Refl R] [IsTrans σ R] {body : β → Txn σ ε Unit}
    (bs : List β) (h : ∀ b ∈ bs, Keeps R (body b)) : Keeps R (forEach body bs) := by
  induction bs with
  | nil => exact Keeps.pure ()
  | cons b bs ih =>
    exact (h b List.mem_cons_self).bind (fun _ => ih fun c hc => h c (List.mem_cons_of_mem b hc))

theorem Keeps.failIf_bind [Std.Refl R] [IsTrans σ R] {c : Prop} [Decidable c] {e : ε}
    {f : Unit → Txn σ ε β} (h : ∀ a, Keeps R (f a)) : Keeps R (Txn.failIf c e >>= f) :=
  (Keeps.failIf c e).bind h

theorem Keeps.reads_bind [Std.Refl R] [IsTrans σ R] {g : σ → α} {f : α → Txn σ ε β}
    (h : ∀ a, Keeps R (f a)) : Keeps R (Txn.reads g >>= f) :=
  (Keeps.reads g).bind h

theorem Keeps.query_bind [Std.Refl R] [IsTrans σ R] {g : σ → Except ε α} {f : α → Txn σ ε β}
    (h : ∀ a, Keeps R (f a)) : Keeps R (Txn.query g >>= f) :=
  (Keeps.query g).bind h

theorem Keeps.modify_bind [IsTrans σ R] {g : σ → σ} {f : Unit → Txn σ ε β}
    (hg : ∀ s, R s (g s)) (h : ∀ a, Keeps R (f a)) : Keeps R (Txn.modify g >>= f) :=
  (Keeps.modify hg).bind h

end Keeps

section Preserves
variable {P : σ → Prop}

/-- What a first step preserves is known of the rest and of an early stop. -/
theorem outcome_preserved {P : σ → Prop} {Q : Except ε β × σ → Prop} {x : Txn σ ε α}
    {f : α → Txn σ ε β} {s : σ} (hx : Preserves P x) (hs : P s)
    (herr : ∀ e t, P t → Q (.error e, t)) (hok : ∀ a t, x s = (.ok a, t) → P t → Q (f a t)) :
    Q ((x >>= f) s) := by
  have ht := hx s hs
  refine outcome_bind (fun e t h => ?_) (fun a t h => ?_)
  · rw [h] at ht
    exact herr e t ht
  · rw [h] at ht
    exact hok a t h ht

theorem Preserves.bind {x : Txn σ ε α} {f : α → Txn σ ε β}
    (hx : Preserves P x) (hf : ∀ a, Preserves P (f a)) : Preserves P (x >>= f) := by
  intro s hs
  have hs' := hx s hs
  rcases h : x s with ⟨_ | a, s'⟩
  · rw [bind_of_error h]
    rwa [h] at hs'
  · rw [bind_of_ok h]
    rw [h] at hs'
    exact hf a s' hs'

theorem Preserves.forEach {body : β → Txn σ ε Unit}
    (bs : List β) (h : ∀ b ∈ bs, Preserves P (body b)) : Preserves P (forEach body bs) := by
  induction bs with
  | nil => exact fun _ hs => hs
  | cons b bs ih =>
    exact (h b List.mem_cons_self).bind fun _ => ih fun c hc => h c (List.mem_cons_of_mem b hc)

theorem mem_takeWhile_mono {p q : β → Bool} (h : ∀ c, p c = true → q c = true) {b : β}
    {bs : List β} (hb : b ∈ bs.takeWhile p) : b ∈ bs.takeWhile q := by
  induction bs with
  | nil => exact hb
  | cons c bs ih =>
    by_cases hc : p c = true
    · rw [List.takeWhile_cons_of_pos hc, List.mem_cons] at hb
      rw [List.takeWhile_cons_of_pos (h c hc), List.mem_cons]
      exact hb.imp_right ih
    · rw [List.takeWhile_cons_of_neg hc] at hb
      cases hb

/-- What one element of the accepted front of a loop brings about, and none undoes, holds
behind the loop, whichever way it ends. -/
theorem forEach_marks (accepted : σ → β → Bool) {body : β → Txn σ ε Unit} {b : β}
    (hkeeps : ∀ c, Preserves P (body c))
    (hpass : ∀ c s, accepted s c = true → ∃ t, body c s = (.ok (), t) ∧
      ∀ d, accepted s d = true → accepted t d = true)
    (hmark : ∀ s, accepted s b = true → P (body b s).2) {bs : List β} {s : σ}
    (hb : b ∈ bs.takeWhile (accepted s)) : P (forEach body bs s).2 := by
  induction bs generalizing s with
  | nil => cases hb
  | cons c bs ih =>
    have hc : accepted s c = true := by
      by_contra hrefused
      rw [List.takeWhile_cons_of_neg hrefused] at hb
      cases hb
    obtain ⟨t, hrun, hstill⟩ := hpass c s hc
    rw [forEach, bind_of_ok hrun]
    rw [List.takeWhile_cons_of_pos hc, List.mem_cons] at hb
    rcases hb with rfl | hb
    · have hmarked := hmark s hc
      rw [hrun] at hmarked
      exact Preserves.forEach bs (fun d _ => hkeeps d) t hmarked
    · exact ih (mem_takeWhile_mono hstill hb)

end Preserves

/-! ## The errors of a computation -/

/-- Every error of `x` is one of `E`. -/
def Raises (E : ε → Prop) (x : Txn σ ε α) : Prop := ∀ s e, (x s).1 = .error e → E e

section
variable {E : ε → Prop}

theorem Raises.pure (a : α) : Raises E (Pure.pure a : Txn σ ε α) := by
  intro s e h
  cases h

theorem Raises.reads (f : σ → α) : Raises E (reads f : Txn σ ε α) := by
  intro s e h
  cases h

theorem Raises.modify (f : σ → σ) : Raises E (modify f : Txn σ ε Unit) := by
  intro s e h
  cases h

theorem Raises.query {f : σ → Except ε α} (h : ∀ s e, f s = .error e → E e) : Raises E (query f) :=
  h

theorem Raises.failIf (c : Prop) [Decidable c] {e : ε} (h : E e) :
    Raises E (failIf c e : Txn σ ε Unit) := by
  intro s e' he
  rw [failIf_run] at he
  split at he
  · cases he
    exact h
  · cases he

theorem Raises.bind {x : Txn σ ε α} {f : α → Txn σ ε β} (hx : Raises E x)
    (hf : ∀ a, Raises E (f a)) : Raises E (x >>= f) := by
  intro s e he
  rcases hrun : x s with ⟨a | e', t⟩
  · rw [bind_of_error hrun] at he
    cases he
    exact hx s _ (congrArg Prod.fst hrun)
  · rw [bind_of_ok hrun] at he
    exact hf _ _ e he

end

end Txn
end Kit
