import Mathlib

/-!
# Search — worklist search with a visited set

A stack of nodes to visit and the nodes already visited. Visiting a node
can fail, find the goal, or push more nodes. A search that ends without the
goal has visited everything reachable from its start (`of_search_false`);
any other end was met at a reachable node (`reached_of_search`); when every
node pushes no more than the edges that leave it, one round per edge is
enough (`search_isSome`).
-/

namespace Kit

variable {α ε : Type}

/-- What visiting a node yields. -/
inductive Visit (α : Type) where
  | found
  | push (next : List α)

variable (visit : α → Except ε (Visit α))

/-- Visit the pending nodes, last pushed first; `none` when out of fuel. -/
def search [DecidableEq α] : Nat → List α → List α → Option (Except ε Bool)
  | 0, _, _ => none
  | _ + 1, [], _ => some (.ok false)
  | fuel + 1, a :: pending, visited =>
    if a ∈ visited then search fuel pending visited
    else
      match visit a with
      | .error e => some (.error e)
      | .ok .found => some (.ok true)
      | .ok (.push next) => search fuel (next.reverse ++ pending) (a :: visited)

/-- Visiting `a` pushes `b`. -/
def Pushes (a b : α) : Prop := ∃ next, visit a = .ok (.push next) ∧ b ∈ next

/-- Visiting any node of `nodes` pushes only nodes of `closure`. -/
def PushesInto (nodes : List α) (closure : α → Prop) : Prop :=
  ∀ a ∈ nodes, ∃ next, visit a = .ok (.push next) ∧ ∀ b ∈ next, closure b

variable {visit}

section
variable [DecidableEq α]

/-- A search that ends without the goal leaves a set of visited nodes that is
closed under pushing and holds its start. -/
theorem closed_of_search_false {fuel : Nat} {pending visited : List α}
    (hvisited : PushesInto visit visited (fun b => b ∈ visited ∨ b ∈ pending))
    (h : search visit fuel pending visited = some (.ok false)) :
    ∃ all, (∀ a ∈ pending, a ∈ all) ∧ (∀ a ∈ visited, a ∈ all) ∧
      PushesInto visit all (· ∈ all) := by
  -- the invariant is that visited nodes push only visited or pending ones
  induction fuel generalizing pending visited with
  | zero => cases h
  | succ fuel ih =>
    cases pending with
    | nil =>
      refine ⟨visited, by simp, fun _ ha => ha, ?_⟩
      intro a ha
      obtain ⟨next, hnext, hin⟩ := hvisited a ha
      exact ⟨next, hnext, fun b hb => (hin b hb).resolve_right List.not_mem_nil⟩
    | cons a pending =>
      rw [search] at h
      split at h
      · rename_i hseen
        have hvisited' : PushesInto visit visited (fun b => b ∈ visited ∨ b ∈ pending) := by
          intro v hv
          obtain ⟨next, hnext, hin⟩ := hvisited v hv
          refine ⟨next, hnext, fun b hb => ?_⟩
          rcases hin b hb with hb | hb
          · exact .inl hb
          · rcases List.mem_cons.mp hb with rfl | hb
            · exact .inl hseen
            · exact .inr hb
        obtain ⟨all, hpending, hold, hclosed⟩ := ih hvisited' h
        refine ⟨all, fun b hb => ?_, hold, hclosed⟩
        rcases List.mem_cons.mp hb with rfl | hb
        · exact hold b hseen
        · exact hpending b hb
      · split at h
        · cases h
        · cases h
        · rename_i next hnext
          have hvisited' : PushesInto visit (a :: visited)
              (fun b => b ∈ a :: visited ∨ b ∈ next.reverse ++ pending) := by
            intro v hv
            rcases List.mem_cons.mp hv with rfl | hv
            · exact ⟨next, hnext, fun b hb => .inr (by simp [hb])⟩
            · obtain ⟨next', hnext', hin⟩ := hvisited v hv
              refine ⟨next', hnext', fun b hb => ?_⟩
              rcases hin b hb with hb | hb
              · exact .inl (List.mem_cons_of_mem a hb)
              · rcases List.mem_cons.mp hb with rfl | hb
                · exact .inl List.mem_cons_self
                · exact .inr (by simp [hb])
          obtain ⟨all, hpending, hold, hclosed⟩ := ih hvisited' h
          refine ⟨all, fun b hb => ?_, fun b hb => hold b (List.mem_cons_of_mem a hb), hclosed⟩
          rcases List.mem_cons.mp hb with rfl | hb
          · exact hold b List.mem_cons_self
          · exact hpending b (by simp [hb])

/-- A search that ends without the goal has pushed on from every node it could reach. -/
theorem of_search_false {fuel : Nat} {start a : α}
    (h : search visit fuel [start] [] = some (.ok false))
    (hreach : Relation.ReflTransGen (Pushes visit) start a) :
    ∃ next, visit a = .ok (.push next) := by
  obtain ⟨all, hstart, -, hclosed⟩ :=
    closed_of_search_false (fun _ hv => absurd hv List.not_mem_nil) h
  have hall : a ∈ all := by
    induction hreach with
    | refl => exact hstart start List.mem_cons_self
    | tail _ hpush ih =>
      obtain ⟨next, hnext, hin⟩ := hclosed _ ih
      obtain ⟨next', hnext', hb⟩ := hpush
      cases hnext.symm.trans hnext'
      exact hin _ hb
  obtain ⟨next, hnext, -⟩ := hclosed a hall
  exact ⟨next, hnext⟩

/-- A search that ends at the goal, or fails, did so at a node it had been led to. -/
theorem reached_of_search {fuel : Nat} {pending visited : List α} {r : Except ε Bool}
    (h : search visit fuel pending visited = some r) (hr : r ≠ .ok false) :
    ∃ a ∈ pending, ∃ b, Relation.ReflTransGen (Pushes visit) a b ∧
      (visit b = .ok .found ∧ r = .ok true ∨ ∃ e, visit b = .error e ∧ r = .error e) := by
  induction fuel generalizing pending visited with
  | zero => cases h
  | succ fuel ih =>
    cases pending with
    | nil =>
      cases h
      exact absurd rfl hr
    | cons a pending =>
      rw [search] at h
      split at h
      · obtain ⟨c, hc, b, hreach, hend⟩ := ih h
        exact ⟨c, List.mem_cons_of_mem a hc, b, hreach, hend⟩
      · split at h
        · rename_i e he
          cases h
          exact ⟨a, List.mem_cons_self, a, .refl, .inr ⟨e, he, rfl⟩⟩
        · rename_i hfound
          cases h
          exact ⟨a, List.mem_cons_self, a, .refl, .inl ⟨hfound, rfl⟩⟩
        · rename_i next hnext
          obtain ⟨c, hc, b, hreach, hend⟩ := ih h
          rcases List.mem_append.mp hc with hc | hc
          · have hpush : Pushes visit a c := ⟨next, hnext, List.mem_reverse.mp hc⟩
            exact ⟨a, List.mem_cons_self, b, .head hpush hreach, hend⟩
          · exact ⟨c, List.mem_cons_of_mem a hc, b, hreach, hend⟩

/-- The edges out of unvisited nodes split off those out of a node visited next. -/
theorem countP_unvisited {edges : List (α × α)} {visited : List α} {a : α}
    (ha : a ∉ visited) :
    edges.countP (fun e => e.1 ∉ visited) =
      edges.countP (fun e => e.1 = a) + edges.countP (fun e => e.1 ∉ a :: visited) := by
  induction edges with
  | nil => rfl
  | cons e edges ih =>
    rw [List.countP_cons, List.countP_cons, List.countP_cons, ih]
    by_cases he : e.1 = a
    · simp [he, ha]
      omega
    · simp [he]
      omega

/-- One round per edge, and one per pending node, is enough. -/
theorem search_isSome {edges : List (α × α)}
    (hedges : ∀ a next, visit a = .ok (.push next) →
      next.length ≤ edges.countP (fun e => e.1 = a))
    {fuel : Nat} {pending visited : List α}
    (hfuel : pending.length + edges.countP (fun e => e.1 ∉ visited) < fuel) :
    (search visit fuel pending visited).isSome := by
  induction fuel generalizing pending visited with
  | zero => omega
  | succ fuel ih =>
    cases pending with
    | nil => rfl
    | cons a pending =>
      rw [List.length_cons] at hfuel
      rw [search]
      split
      · exact ih (by omega)
      · rename_i hnew
        split
        · rfl
        · rfl
        · rename_i next hnext
          have hle := hedges a next hnext
          have hsplit : edges.countP (fun e => e.1 ∉ visited) =
              edges.countP (fun e => e.1 = a) + edges.countP (fun e => e.1 ∉ a :: visited) :=
            countP_unvisited hnew
          refine ih ?_
          rw [List.length_append, List.length_reverse]
          omega

end
end Kit
