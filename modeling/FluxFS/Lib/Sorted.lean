import Mathlib

/-!
# Sorted — lists in the strict order of a key

Such a list has no element twice and no two elements of one key, and is known by
its elements.
-/

namespace Kit

variable {α β : Type} [Preorder β] {key : α → β} {xs ys : List α}

/-- The elements are in the strict order of their keys. -/
def SortedBy (key : α → β) (xs : List α) : Prop := xs.Pairwise fun a b => key a < key b

namespace SortedBy

theorem nodup (h : SortedBy key xs) : xs.Nodup := by
  refine List.Pairwise.imp ?_ h
  rintro a _ hlt rfl
  exact lt_irrefl _ hlt

theorem eq_of_key (h : SortedBy key xs) {a b : α} (ha : a ∈ xs) (hb : b ∈ xs)
    (hkey : key a = key b) : a = b := by
  have hnodup : (xs.map key).Nodup := List.pairwise_map.mpr (List.Pairwise.imp ne_of_lt h)
  exact List.inj_on_of_nodup_map hnodup ha hb hkey

/-- Two such lists with the same elements are the same list. -/
theorem eq_of_mem_iff (hxs : SortedBy key xs) (hys : SortedBy key ys)
    (hmem : ∀ a, a ∈ xs ↔ a ∈ ys) : xs = ys := by
  have hperm := (List.perm_ext_iff_of_nodup hxs.nodup hys.nodup).mpr hmem
  exact hperm.eq_of_pairwise (fun _ _ _ _ hab hba => absurd hab (lt_asymm hba)) hxs hys

theorem filter (h : SortedBy key xs) (p : α → Bool) : SortedBy key (xs.filter p) :=
  List.Pairwise.filter p h

end SortedBy

/-! ## Positions -/

section
variable {γ : Type} [LinearOrder γ] {xs ys : List γ} {i k : Nat} {m n : γ}

/-- The elements up to `n` come first. -/
theorem SortedBy.lt_length_filter_iff (h : SortedBy id xs) (hk : xs[k]? = some m) :
    k < (xs.filter (· ≤ n)).length ↔ m ≤ n := by
  induction xs generalizing k with
  | nil => cases hk
  | cons x xs ih =>
    obtain ⟨hx, hxs⟩ := List.pairwise_cons.mp h
    by_cases hle : x ≤ n
    · rw [List.filter_cons_of_pos (by simpa using hle), List.length_cons]
      cases k with
      | zero =>
        cases hk
        exact iff_of_true (Nat.succ_pos _) hle
      | succ k => exact Nat.succ_lt_succ_iff.trans (ih hxs hk)
    · have hlater : ∀ a ∈ x :: xs, ¬ a ≤ n := by
        intro a ha hn
        rcases List.mem_cons.mp ha with rfl | ha
        · exact hle hn
        · exact hle ((hx a ha).le.trans hn)
      have hnone : (x :: xs).filter (· ≤ n) = [] :=
        List.filter_eq_nil_iff.mpr fun a ha => by simpa using hlater a ha
      rw [hnone]
      exact iff_of_false (Nat.not_lt_zero k) (hlater m (List.mem_of_getElem? hk))

/-- Lists that agree up to `n` have the same positions up to `n`. -/
theorem SortedBy.index_le_iff (hxs : SortedBy id xs) (hys : SortedBy id ys)
    (hagree : xs.filter (· ≤ n) = ys.filter (· ≤ n)) (hi : xs[i]? = some n)
    (hk : ys[k]? = some m) : k ≤ i ↔ m ≤ n := by
  rw [← hys.lt_length_filter_iff hk, ← hagree]
  have hin : i < (xs.filter (· ≤ n)).length := (hxs.lt_length_filter_iff hi).mpr le_rfl
  have hend : ¬ i + 1 < (xs.filter (· ≤ n)).length := by
    intro hlonger
    have hbound : i + 1 < xs.length := hlonger.trans_le (List.length_filter_le ..)
    have hnext := List.getElem?_eq_getElem hbound
    have hle := (hxs.lt_length_filter_iff hnext).mp hlonger
    obtain ⟨hlt, rfl⟩ := List.getElem?_eq_some_iff.mp hi
    exact absurd (List.pairwise_iff_getElem.mp hxs i (i + 1) hlt hbound (Nat.lt_succ_self i))
      (not_lt.mpr hle)
  omega

end
end Kit
