import Mathlib

/-!
# Reach — graphs in which every node hangs below a root

`Rooted edge root node` says that every node is reachable from the root.
The three ways a directory tree changes keep it: a new node below an old
one, a removed leaf, and a moved subtree whose new parent is outside it.
All three rest on `reach_avoiding`: a path either never enters `x` or can be
cut at its last visit of `x`.
-/

namespace Kit

open Relation

variable {α : Type} {edge edge' : α → α → Prop} {root x : α} {node node' : α → Prop}

/-- Every node is reachable from the root. -/
def Rooted (edge : α → α → Prop) (root : α) (node : α → Prop) : Prop :=
  ∀ a, node a → ReflTransGen edge root a

/-- A path that never enters `x`, or its part after the last visit of `x`. -/
theorem reach_avoiding {a b : α} (x : α) (h : ReflTransGen edge a b) :
    ReflTransGen (fun u v => edge u v ∧ v ≠ x) a b ∨
      ReflTransGen (fun u v => edge u v ∧ v ≠ x) x b := by
  induction h with
  | refl => exact .inl .refl
  | @tail b c hpath hlast ih =>
    by_cases hc : c = x
    · rw [hc]
      exact .inr .refl
    · rcases ih with hfrom | hcut
      · exact .inl (hfrom.tail ⟨hlast, hc⟩)
      · exact .inr (hcut.tail ⟨hlast, hc⟩)

namespace Rooted

theorem mono (h : Rooted edge root node) (hedge : ∀ a b, edge a b → edge' a b)
    (hnode : ∀ a, node' a → node a) : Rooted edge' root node' := by
  intro a ha
  exact ReflTransGen.mono hedge _ _ (h a (hnode a ha))

/-- A new node `x` below `p`. -/
theorem add {p : α} (h : Rooted edge root node) (hedge : ∀ a b, edge a b → edge' a b)
    (hp : node p) (hnew : edge' p x) (hnode : ∀ a, node' a → node a ∨ a = x) :
    Rooted edge' root node' := by
  have hold : Rooted edge' root node := h.mono hedge (fun _ ha => ha)
  intro a ha
  rcases hnode a ha with hknown | rfl
  · exact hold a hknown
  · exact (hold p hp).tail hnew

/-- The leaf `x` goes. -/
theorem remove (h : Rooted edge root node) (hleaf : ∀ b, ¬ edge x b)
    (hedge : ∀ a b, edge a b → b ≠ x → edge' a b) (hnode : ∀ a, node' a → node a ∧ a ≠ x) :
    Rooted edge' root node' := by
  intro a ha
  obtain ⟨hknown, hne⟩ := hnode a ha
  rcases reach_avoiding x (h a hknown) with hpath | hcut
  · exact ReflTransGen.mono (fun u v huv => hedge u v huv.1 huv.2) _ _ hpath
  · rcases ReflTransGen.cases_head hcut with heq | ⟨b, hb, _⟩
    · exact absurd heq.symm hne
    · exact absurd hb.1 (hleaf b)

/-- The subtree of `x` moves below `q`, which is not in it. -/
theorem move {q : α} (h : Rooted edge root node)
    (hedge : ∀ a b, edge a b → b ≠ x → edge' a b) (hq : node q) (hnew : edge' q x)
    (hbelow : ¬ ReflTransGen edge x q) (hnode : ∀ a, node' a → node a) :
    Rooted edge' root node' := by
  have hkeep : ∀ {a b}, ReflTransGen (fun u v => edge u v ∧ v ≠ x) a b →
      ReflTransGen edge' a b := by
    intro a b hpath
    exact ReflTransGen.mono (fun u v huv => hedge u v huv.1 huv.2) _ _ hpath
  -- the new parent is reached without the moved edge
  have hrootq : ReflTransGen edge' root q := by
    rcases reach_avoiding x (h q hq) with hpath | hcut
    · exact hkeep hpath
    · exact absurd (ReflTransGen.mono (fun _ _ huv => huv.1) _ _ hcut) hbelow
  intro a ha
  rcases reach_avoiding x (h a (hnode a ha)) with hpath | hcut
  · exact hkeep hpath
  · exact (hrootq.tail hnew).trans (hkeep hcut)

end Rooted

/-- Where the root has no predecessor and every node at most one, nothing
reachable from the root lies on a cycle. -/
theorem acyclic_of_reach {a : α} (hroot : ∀ b, ¬ edge b root)
    (hunique : ∀ b c d, edge b d → edge c d → b = c) (h : ReflTransGen edge root a) :
    ¬ TransGen edge a a := by
  induction h with
  | refl =>
    intro hcycle
    obtain ⟨b, _, hb⟩ := TransGen.tail'_iff.mp hcycle
    exact hroot b hb
  | @tail b c _ hbc ih =>
    intro hcycle
    obtain ⟨d, hpath, hdc⟩ := TransGen.tail'_iff.mp hcycle
    -- the cycle enters `c` through its only predecessor
    obtain rfl : d = b := hunique d b c hdc hbc
    exact ih (TransGen.head' hbc hpath)

end Kit
