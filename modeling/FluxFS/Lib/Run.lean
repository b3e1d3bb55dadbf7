import Mathlib

/-!
# Run — runs of a labelled transition function

`step s a = none` means that action `a` is not possible in `s` (or never
returns). `exec` runs a list of actions; `Along P` says that `P` holds of
every step of the run, read in the state before that step. The invariant
rules and the effect rule are the only inductions over runs a development
needs: each theorem supplies what one step preserves or does.
-/

namespace Kit

variable {σ α : Type} (step : σ → α → Option σ)

/-- Run the actions in order. -/
def exec (s : σ) : List α → Option σ
  | [] => some s
  | a :: as => (step s a).bind (fun s' => exec s' as)

/-- `P` holds of every step of the run from `s`, in the state before it. -/
def Along (P : σ → α → Prop) (s : σ) : List α → Prop
  | [] => True
  | a :: as => P s a ∧ ∀ s', step s a = some s' → Along P s' as

/-- A condition that can be checked on each step can be checked along a run. -/
instance decidableAlong {P : σ → α → Prop} [∀ s a, Decidable (P s a)] :
    ∀ (s : σ) (as : List α), Decidable (Along step P s as)
  | _, [] => .isTrue trivial
  | s, a :: as =>
    have : Decidable (∀ s', step s a = some s' → Along step P s' as) :=
      match step s a with
      | none => .isTrue (fun _ h => nomatch h)
      | some t =>
        match decidableAlong t as with
        | .isTrue h => .isTrue (fun _ hs' => Option.some.inj hs' ▸ h)
        | .isFalse h => .isFalse (fun hall => h (hall t rfl))
    inferInstanceAs (Decidable (_ ∧ _))

variable {step}

@[simp] theorem exec_nil (s : σ) : exec step s [] = some s := rfl

theorem exec_cons (s : σ) (a : α) (as : List α) :
    exec step s (a :: as) = (step s a).bind (fun s' => exec step s' as) := rfl

theorem exec_cons_some {s u : σ} {a : α} {as : List α}
    (h : exec step s (a :: as) = some u) :
    ∃ t, step s a = some t ∧ exec step t as = some u := by
  rw [exec_cons] at h
  exact Option.bind_eq_some_iff.mp h

theorem exec_append (s : σ) (as bs : List α) :
    exec step s (as ++ bs) = (exec step s as).bind (fun t => exec step t bs) := by
  induction as generalizing s with
  | nil => rfl
  | cons a as ih =>
    rw [List.cons_append, exec_cons, exec_cons, Option.bind_assoc]
    congr 1
    funext t
    exact ih t

theorem Along.append {P : σ → α → Prop} {s : σ} {as bs : List α}
    (h : Along step P s (as ++ bs)) :
    Along step P s as ∧ ∀ t, exec step s as = some t → Along step P t bs := by
  induction as generalizing s with
  | nil => exact ⟨trivial, fun t ht => by cases ht; exact h⟩
  | cons a as ih =>
    obtain ⟨ha, hrest⟩ := h
    refine ⟨⟨ha, fun s' hs' => (ih (hrest s' hs')).1⟩, ?_⟩
    intro t ht
    obtain ⟨s', hs', ht'⟩ := exec_cons_some ht
    exact (ih (hrest s' hs')).2 t ht'

theorem Along.and_mem {P : σ → α → Prop} {Q : α → Prop} {s : σ} {as : List α}
    (h : Along step P s as) (hQ : ∀ a ∈ as, Q a) : Along step (fun s a => P s a ∧ Q a) s as := by
  induction as generalizing s with
  | nil => trivial
  | cons a as ih =>
    obtain ⟨ha, hrest⟩ := h
    obtain ⟨hqa, hqas⟩ := List.forall_mem_cons.mp hQ
    exact ⟨⟨ha, hqa⟩, fun s' hs' => ih (hrest s' hs') hqas⟩

/-- A condition on the run is a condition on its steps. -/
theorem Along.of_imp {P : σ → α → Prop} {p : Prop} {s : σ} {as : List α}
    (h : p → Along step P s as) : Along step (fun s a => p → P s a) s as := by
  induction as generalizing s with
  | nil => trivial
  | cons a as ih => exact ⟨fun hp => (h hp).1, fun s' hs' => ih fun hp => (h hp).2 s' hs'⟩

/-- Invariant rule: what every allowed step preserves holds after every
run of allowed steps. -/
theorem exec_invariant_along {P : σ → α → Prop} {I : σ → Prop}
    (hstep : ∀ s a s', I s → P s a → step s a = some s' → I s') :
    ∀ (as : List α) (s u : σ), I s → Along step P s as → exec step s as = some u → I u := by
  intro as
  induction as with
  | nil =>
    intro s u hs _ hu
    cases hu
    exact hs
  | cons a as ih =>
    intro s u hs hP hu
    obtain ⟨t, ht, hu'⟩ := exec_cons_some hu
    exact ih t u (hstep s a t hs hP.1 ht) (hP.2 t ht) hu'

/-- Invariant rule for runs without a condition on the steps. -/
theorem exec_invariant {I : σ → Prop}
    (hstep : ∀ s a s', I s → step s a = some s' → I s') (as : List α) (s u : σ)
    (hs : I s) (hu : exec step s as = some u) : I u := by
  refine exec_invariant_along (P := fun _ _ => True)
    (fun s a s' hI _ h => hstep s a s' hI h) as s u hs ?_ hu
  clear hs hu
  induction as generalizing s with
  | nil => trivial
  | cons a as ih => exact ⟨trivial, fun s' _ => ih s'⟩

/-- What does not hold at the start of a run and holds at its end comes about in one step. -/
theorem exec_turn {P : σ → Prop} {s u : σ} {as : List α} (hrun : exec step s as = some u)
    (hs : ¬ P s) (hu : P u) :
    ∃ before a after t t', as = before ++ a :: after ∧ exec step s before = some t ∧
      step t a = some t' ∧ ¬ P t ∧ P t' := by
  induction as generalizing s with
  | nil =>
    cases hrun
    exact absurd hu hs
  | cons a as ih =>
    obtain ⟨t, ht, hrest⟩ := exec_cons_some hrun
    by_cases hP : P t
    · exact ⟨[], a, as, s, t, rfl, rfl, ht, hs, hP⟩
    · obtain ⟨before, b, after, v, v', rfl, hbefore, hstep, hv, hv'⟩ := ih hrest hP
      refine ⟨a :: before, b, after, v, v', rfl, ?_, hstep, hv, hv'⟩
      rw [exec_cons, ht]
      exact hbefore

end Kit
