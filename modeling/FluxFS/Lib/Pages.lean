import FluxFS.Lib.Sorted

/-!
# Pages — walking a changing listing page by page

The listing is read again for every page. A page shows a first part of what lies
above the bound and moves the bound to its last key; the walk ends when nothing lies
above the bound. Such a walk shows every key at most once, in order, and everything
that every listing has.
-/

namespace Kit

variable {α β : Type} [LinearOrder β] {key : α → β}

/-- What lies above the bound. -/
def above (key : α → β) (bound : WithBot β) (listing : List α) : List α :=
  listing.filter fun a => bound < (key a : WithBot β)

/-- A walk over the listings, from a bound, that shows `shown`. -/
inductive Paged (key : α → β) : WithBot β → List (List α) → List α → Prop
  | done {bound listing listings} :
      above key bound listing = [] → Paged key bound (listing :: listings) []
  | page {bound listing listings page a shown} :
      page ++ [a] <+: above key bound listing → Paged key (key a) listings shown →
        Paged key bound (listing :: listings) (page ++ [a] ++ shown)

section
variable {bound : WithBot β} {listing : List α} {listings : List (List α)} {shown : List α}

theorem mem_above {a : α} : a ∈ above key bound listing ↔ a ∈ listing ∧ bound < key a := by
  rw [above, List.mem_filter, decide_eq_true_iff]

/-- In a sorted list, what is not in a first part lies above it. -/
theorem SortedBy.above_last {page : List α} {a b : α} (h : SortedBy key listing)
    (hpage : page ++ [a] <+: listing) (hb : b ∈ listing) :
    b ∈ page ++ [a] ∨ key a < key b := by
  obtain ⟨rest, rfl⟩ := hpage
  rcases List.mem_append.mp hb with hb | hb
  · exact .inl hb
  · exact .inr ((List.pairwise_append.mp h).2.2 a (by simp) b hb)

theorem SortedBy.of_isPrefix {page : List α} (h : SortedBy key listing) (hpage : page <+: listing) :
    SortedBy key page := List.Pairwise.sublist hpage.sublist h

namespace Paged

/-- Nothing is shown twice, and only what lies above the bound. -/
theorem sorted (h : Paged key bound listings shown) (hsorted : ∀ l ∈ listings, SortedBy key l) :
    SortedBy key shown ∧ ∀ a ∈ shown, bound < key a := by
  induction h with
  | done => exact ⟨List.Pairwise.nil, nofun⟩
  | @page bound listing listings page a shown hpage _ ih =>
    obtain ⟨hshown, habove⟩ := ih fun l hl => hsorted l (List.mem_cons_of_mem _ hl)
    have hlisting : SortedBy key (above key bound listing) :=
      (hsorted _ List.mem_cons_self).filter _
    have hfirst : SortedBy key (page ++ [a]) := hlisting.of_isPrefix hpage
    have hbound : ∀ b ∈ page ++ [a], bound < key b := fun b hb =>
      (mem_above.mp (hpage.subset hb)).2
    -- the last of the page is its greatest
    have hlast : ∀ b ∈ page ++ [a], key b ≤ key a := by
      intro b hb
      rcases List.mem_append.mp hb with hb | hb
      · exact ((List.pairwise_append.mp hfirst).2.2 b hb a (by simp)).le
      · rw [List.mem_singleton.mp hb]
    refine ⟨List.pairwise_append.mpr ⟨hfirst, hshown, fun b hb c hc => ?_⟩, fun b hb => ?_⟩
    · exact (hlast b hb).trans_lt (WithBot.coe_lt_coe.mp (habove c hc))
    · rcases List.mem_append.mp hb with hb | hb
      · exact hbound b hb
      · exact (hbound a (by simp)).trans (habove b hb)

theorem mem {a : α} (h : Paged key bound listings shown) (ha : a ∈ shown) :
    ∃ l ∈ listings, a ∈ l := by
  induction h with
  | done => cases ha
  | page hpage _ ih =>
    rcases List.mem_append.mp ha with ha | ha
    · exact ⟨_, List.mem_cons_self, (mem_above.mp (hpage.subset ha)).1⟩
    · obtain ⟨l, hl, ha⟩ := ih ha
      exact ⟨l, List.mem_cons_of_mem _ hl, ha⟩

/-- Whatever every listing has is shown. -/
theorem complete {P : α → Prop} {k : β} (h : Paged key bound listings shown)
    (hsorted : ∀ l ∈ listings, SortedBy key l)
    (hsteady : ∀ l ∈ listings, ∃ a ∈ l, key a = k ∧ P a) (hk : bound < k) :
    ∃ a ∈ shown, key a = k ∧ P a := by
  induction h with
  | done hnone =>
    obtain ⟨a, ha, rfl, _⟩ := hsteady _ List.mem_cons_self
    have habove : a ∈ above key _ _ := mem_above.mpr ⟨ha, hk⟩
    rw [hnone] at habove
    cases habove
  | @page bound listing listings page a shown hpage _ ih =>
    obtain ⟨b, hb, rfl, hP⟩ := hsteady _ List.mem_cons_self
    have hlisting : SortedBy key (above key bound listing) :=
      (hsorted _ List.mem_cons_self).filter _
    rcases hlisting.above_last hpage (mem_above.mpr ⟨hb, hk⟩) with hshown | hlater
    · exact ⟨b, List.mem_append_left _ hshown, rfl, hP⟩
    · obtain ⟨c, hc, hck, hPc⟩ := ih (fun l hl => hsorted l (List.mem_cons_of_mem _ hl))
        (fun l hl => hsteady l (List.mem_cons_of_mem _ hl)) (WithBot.coe_lt_coe.mpr hlater)
      exact ⟨c, List.mem_append_right _ hc, hck, hPc⟩

end Paged
end

end Kit
