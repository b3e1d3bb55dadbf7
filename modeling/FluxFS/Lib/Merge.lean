import FluxFS.Lib.Rows
import FluxFS.Lib.Sorted

/-!
# Merge — draining several sorted lists together

`Drains ws rest taken rest'`: from the lists `rest w` of the sources `ws`, the least keys
were taken one by one, each from all sources that have it. What was taken is in order,
names for each key the sources that had it, and lies below all that is left.
-/

namespace Kit

section
open Std

/-- The linear order of a lawful `compare`. -/
abbrev linearOrderOfOrd (K : Type) [Ord K] [TransOrd K] [LawfulEqOrd K] [DecidableEq K] :
    LinearOrder K where
  le a b := (compare a b).isLE = true
  lt a b := compare a b = .lt
  le_refl a := by simp
  le_trans a b c := TransCmp.isLE_trans
  le_antisymm a b hab hba := LawfulEqOrd.compare_eq_iff_eq.mp (OrientedCmp.isLE_antisymm hab hba)
  le_total a b := by
    have hswap : compare b a = (compare a b).swap := OrientedCmp.eq_swap
    rw [hswap]
    cases compare a b <;> simp
  lt_iff_le_not_ge a b := by
    have hswap : compare b a = (compare a b).swap := OrientedCmp.eq_swap
    rw [hswap]
    cases compare a b <;> simp
  toDecidableLE a b := inferInstanceAs (Decidable ((compare a b).isLE = true))
  toDecidableLT a b := inferInstanceAs (Decidable (compare a b = .lt))
  toDecidableEq := inferInstance
  compare_eq_compareOfLessAndEq a b := by
    rw [compareOfLessAndEq]
    split
    · rename_i hlt
      exact hlt
    · rename_i hlt
      split
      · rename_i heq
        exact LawfulEqOrd.compare_eq_iff_eq.mpr heq
      · rename_i hne
        have hcases : ∀ o : Ordering, o ≠ .lt → o ≠ .eq → o = .gt := by decide
        exact hcases _ hlt fun heq => hne (LawfulEqOrd.compare_eq_iff_eq.mp heq)

end

section
variable {κ ι : Type} [LinearOrder κ]

/-- What a sorted list still has behind a cursor. -/
def behind (cursor : Option κ) (xs : List κ) : List κ := xs.filter fun x => ∀ c ∈ cursor, c < x

theorem mem_behind {cursor : Option κ} {xs : List κ} {x : κ} :
    x ∈ behind cursor xs ↔ x ∈ xs ∧ ∀ c ∈ cursor, c < x := by
  rw [behind, List.mem_filter, decide_eq_true_iff]

@[simp] theorem behind_none (xs : List κ) : behind none xs = xs := by simp [behind]

theorem SortedBy.behind {xs : List κ} (h : SortedBy id xs) (cursor : Option κ) :
    SortedBy id (behind cursor xs) := h.filter _

/-- Moving the cursor to the least key takes that key out. -/
theorem behind_least {cursor : Option κ} {xs : List κ} {key : κ}
    (hleast : ∀ x ∈ behind cursor xs, key ≤ x) (hkey : key ∈ behind cursor xs) :
    behind (some key) xs = (behind cursor xs).filter (· ≠ key) := by
  rw [behind, behind, List.filter_filter]
  refine List.filter_congr fun x hx => ?_
  rw [← Bool.decide_and, decide_eq_decide]
  constructor
  · intro h
    have hlt := h key rfl
    exact ⟨ne_of_gt hlt, fun c hc => ((mem_behind.mp hkey).2 c hc).trans hlt⟩
  · rintro ⟨hne, hx'⟩ c hc
    cases hc
    exact lt_of_le_of_ne (hleast x (mem_behind.mpr ⟨hx, hx'⟩)) (Ne.symm hne)

/-- The least keys of the sources are taken one by one. -/
inductive Drains (ws : List ι) : (ι → List κ) → List (κ × List ι) → (ι → List κ) → Prop
  | nil {rest rest'} : (∀ w ∈ ws, rest' w = rest w) → Drains ws rest [] rest'
  | cons {rest mid rest' key hs taken} :
      (∀ w ∈ ws, ∀ x ∈ rest w, key ≤ x) → (∃ w ∈ ws, key ∈ rest w) →
      hs = ws.filter (key ∈ rest ·) → (∀ w ∈ ws, mid w = (rest w).filter (· ≠ key)) →
      Drains ws mid taken rest' → Drains ws rest ((key, hs) :: taken) rest'

namespace Drains
variable {ws : List ι} {rest mid rest' : ι → List κ} {taken more : List (κ × List ι)} {w : ι}
  {x : κ} {hs : List ι}

theorem rest_eq (h : Drains ws rest taken rest') (hw : w ∈ ws) :
    rest' w = (rest w).filter (· ∉ taken.map Prod.fst) := by
  induction h with
  | nil hsame => simp [hsame w hw]
  | cons _ _ _ hmid _ ih =>
    rw [ih, hmid w hw, List.filter_filter]
    refine List.filter_congr fun a _ => ?_
    rw [← Bool.decide_and, decide_eq_decide, List.map_cons, List.mem_cons, not_or]
    exact and_comm

/-- Only the lists of the sources matter. -/
theorem congr_left (h : Drains ws rest taken rest') (hsame : ∀ w ∈ ws, mid w = rest w) :
    Drains ws mid taken rest' := by
  cases h with
  | nil hrest => exact .nil fun w hw => (hrest w hw).trans (hsame w hw).symm
  | cons hleast hkey hhs hmid h =>
    refine .cons (fun w hw => by rw [hsame w hw]; exact hleast w hw) ?_ ?_
      (fun w hw => by rw [hsame w hw]; exact hmid w hw) h
    · obtain ⟨w, hw, hmem⟩ := hkey
      exact ⟨w, hw, by rwa [hsame w hw]⟩
    · rw [hhs]
      refine List.filter_congr fun w hw => ?_
      rw [hsame w hw]

theorem congr_right (h : Drains ws rest taken rest') (hsame : ∀ w ∈ ws, mid w = rest' w) :
    Drains ws rest taken mid := by
  induction h with
  | nil hrest => exact .nil fun w hw => (hsame w hw).trans (hrest w hw)
  | cons hleast hkey hhs hmid _ ih => exact .cons hleast hkey hhs hmid (ih hsame)

/-- A source's key is taken or left. -/
theorem mem_or (h : Drains ws rest taken rest') (hw : w ∈ ws) (hx : x ∈ rest w) :
    x ∈ taken.map Prod.fst ∨ x ∈ rest' w := by
  by_cases htaken : x ∈ taken.map Prod.fst
  · exact .inl htaken
  · rw [h.rest_eq hw]
    exact .inr (List.mem_filter.mpr ⟨hx, by simpa using htaken⟩)

theorem mem_of_rest (h : Drains ws rest taken rest') (hw : w ∈ ws) (hx : x ∈ rest' w) :
    x ∈ rest w := by
  rw [h.rest_eq hw] at hx
  exact (List.mem_filter.mp hx).1

/-- The sources named for a key are those that had it. -/
theorem holders (h : Drains ws rest taken rest') (hx : (x, hs) ∈ taken) :
    hs = ws.filter (x ∈ rest ·) ∧ ∃ w ∈ ws, x ∈ rest w := by
  induction h with
  | nil => cases hx
  | @cons rest mid _ key _ _ _ hkey hhs hmid _ ih =>
    rcases List.mem_cons.mp hx with hx | hx
    · cases hx
      exact ⟨hhs, hkey⟩
    · obtain ⟨rfl, w, hw, hmem⟩ := ih hx
      rw [hmid w hw, List.mem_filter, decide_eq_true_iff] at hmem
      refine ⟨List.filter_congr fun v hv => ?_, w, hw, hmem.1⟩
      rw [hmid v hv, decide_eq_decide, List.mem_filter, decide_eq_true_iff]
      exact and_iff_left hmem.2

/-- What was taken is in order and lies below what is left. -/
theorem sorted (h : Drains ws rest taken rest') :
    SortedBy Prod.fst taken ∧ ∀ p ∈ taken, ∀ w ∈ ws, ∀ x ∈ rest' w, p.1 < x := by
  induction h with
  | nil => exact ⟨List.Pairwise.nil, nofun⟩
  | @cons rest mid rest' key hs taken hleast _ _ hmid h ih =>
    have hlater : ∀ w ∈ ws, ∀ x ∈ mid w, key < x := by
      intro w hw x hx
      rw [hmid w hw, List.mem_filter, decide_eq_true_iff] at hx
      exact lt_of_le_of_ne (hleast w hw x hx.1) (Ne.symm hx.2)
    refine ⟨List.pairwise_cons.mpr ⟨fun p hp => ?_, ih.1⟩, fun p hp w hw x hx => ?_⟩
    · obtain ⟨-, w, hw, hmem⟩ := h.holders (show (p.1, p.2) ∈ _ from hp)
      exact hlater w hw _ hmem
    · rcases List.mem_cons.mp hp with rfl | hp
      · exact hlater w hw x (h.mem_of_rest hw hx)
      · exact ih.2 p hp w hw x hx

theorem append (h : Drains ws rest taken mid) (h' : Drains ws mid more rest') :
    Drains ws rest (taken ++ more) rest' := by
  induction h with
  | nil hsame => exact h'.congr_left fun w hw => (hsame w hw).symm
  | cons hleast hkey hhs hmid _ ih => exact .cons hleast hkey hhs hmid (ih h')

/-- What was taken comes first in the order of all keys. -/
theorem isPrefix {keys : List κ} (h : Drains ws rest taken rest') (hkeys : SortedBy id keys)
    (hmem : ∀ x, x ∈ keys ↔ ∃ w ∈ ws, x ∈ rest w) : taken.map Prod.fst <+: keys := by
  have htaken : ∀ x ∈ taken.map Prod.fst, x ∈ keys := by
    intro x hx
    obtain ⟨p, hp, rfl⟩ := List.mem_map.mp hx
    exact (hmem _).mpr (h.holders hp).2
  refine ⟨keys.filter (· ∉ taken.map Prod.fst), ?_⟩
  have hsorted : SortedBy id (taken.map Prod.fst ++ keys.filter (· ∉ taken.map Prod.fst)) := by
    refine List.pairwise_append.mpr
      ⟨List.pairwise_map.mpr h.sorted.1, hkeys.filter _, fun a ha b hb => ?_⟩
    rw [List.mem_filter, decide_eq_true_iff] at hb
    obtain ⟨w, hw, hbw⟩ := (hmem b).mp hb.1
    obtain ⟨p, hp, rfl⟩ := List.mem_map.mp ha
    exact h.sorted.2 p hp w hw b ((h.mem_or hw hbw).resolve_left hb.2)
  refine hsorted.eq_of_mem_iff hkeys fun x => ?_
  rw [List.mem_append, List.mem_filter, decide_eq_true_iff]
  by_cases hx : x ∈ taken.map Prod.fst
  · exact iff_of_true (.inl hx) (htaken x hx)
  · exact ⟨fun h => (h.resolve_left hx).1, fun h => .inr ⟨h, hx⟩⟩

/-- Everything was taken exactly if nothing is left. -/
theorem nothing_left_iff (h : Drains ws rest taken rest') :
    (∀ w ∈ ws, rest' w = []) ↔ ∀ w ∈ ws, ∀ x ∈ rest w, x ∈ taken.map Prod.fst := by
  refine forall₂_congr fun w hw => ?_
  rw [h.rest_eq hw, List.filter_eq_nil_iff]
  simp

/-- Taking makes the lists shorter. -/
theorem length_lt (h : Drains ws rest taken rest') (htaken : taken ≠ []) :
    (ws.map fun w => (rest' w).length).sum < (ws.map fun w => (rest w).length).sum := by
  obtain ⟨p, hp⟩ := List.exists_mem_of_ne_nil taken htaken
  obtain ⟨-, w, hw, hmem⟩ := h.holders (show (p.1, p.2) ∈ _ from hp)
  refine List.sum_lt_sum _ _ (fun v hv => ?_) ⟨w, hw, ?_⟩
  · rw [h.rest_eq hv]
    exact List.length_filter_le ..
  · rw [h.rest_eq hw]
    refine List.length_filter_lt_length_iff_exists.mpr ⟨p.1, hmem, ?_⟩
    simpa using ⟨p.2, hp⟩

end Drains
end

end Kit
