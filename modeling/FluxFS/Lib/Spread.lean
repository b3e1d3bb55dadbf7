import Mathlib

/-!
# Spread — choosing from a ranked list across classes

`spread cls xs` lists the first element of every class, in the order of `xs`, and
then all others in the order of `xs`. Choosing the first `k` of it covers as many
classes as `k` elements can. Taking an element out of the ranked list disturbs the
choice as little as possible: it closes the gap, or fills it with the next element
of the same class (`Displaced`).
-/

namespace Kit

variable {α κ : Type} [DecidableEq κ] {cls : α → κ}

/-- The first element of each class that is not in `seen`. -/
def heads (cls : α → κ) (seen : List κ) : List α → List α
  | [] => []
  | x :: xs => if cls x ∈ seen then heads cls seen xs else x :: heads cls (cls x :: seen) xs

/-- The others. -/
def tails (cls : α → κ) (seen : List κ) : List α → List α
  | [] => []
  | x :: xs => if cls x ∈ seen then x :: tails cls seen xs else tails cls (cls x :: seen) xs

/-- The first of each class, then the others. -/
def spread (cls : α → κ) (xs : List α) : List α := heads cls [] xs ++ tails cls [] xs

section
variable {seen : List κ} {x : α} {xs ys : List α}

theorem heads_perm_tails (seen : List κ) (xs : List α) :
    (heads cls seen xs ++ tails cls seen xs).Perm xs := by
  induction xs generalizing seen with
  | nil => exact .nil
  | cons x xs ih =>
    rw [heads, tails]
    split
    · exact List.perm_middle.trans ((ih seen).cons x)
    · exact (ih (cls x :: seen)).cons x

theorem spread_perm (xs : List α) : (spread cls xs).Perm xs := heads_perm_tails [] xs

/-- Every class that was not seen has its head. -/
theorem mem_map_heads {c : κ} : c ∈ (heads cls seen xs).map cls ↔ c ∈ xs.map cls ∧ c ∉ seen := by
  induction xs generalizing seen with
  | nil => simp [heads]
  | cons x xs ih =>
    rw [heads]
    split
    · rename_i hseen
      rw [ih, List.map_cons, List.mem_cons]
      constructor
      · exact fun h => ⟨.inr h.1, h.2⟩
      · rintro ⟨rfl | h, hc⟩
        · exact absurd hseen hc
        · exact ⟨h, hc⟩
    · rename_i hnew
      rw [List.map_cons, List.mem_cons, ih, List.map_cons, List.mem_cons, List.mem_cons]
      constructor
      · rintro (rfl | ⟨h, hc⟩)
        · exact ⟨.inl rfl, hnew⟩
        · exact ⟨.inr h, fun h => hc (.inr h)⟩
      · rintro ⟨rfl | h, hc⟩
        · exact .inl rfl
        · by_cases hcx : c = cls x
          · exact .inl hcx
          · exact .inr ⟨h, fun h => h.elim hcx hc⟩

/-- The heads are of different classes. -/
theorem heads_nodup (seen : List κ) (xs : List α) : ((heads cls seen xs).map cls).Nodup := by
  induction xs generalizing seen with
  | nil => exact List.nodup_nil
  | cons x xs ih =>
    rw [heads]
    split
    · exact ih seen
    · refine List.nodup_cons.mpr ⟨fun h => ?_, ih _⟩
      exact (mem_map_heads.mp h).2 List.mem_cons_self

/-- Without repetitions the others are what is no head. -/
theorem tails_eq_filter [DecidableEq α] (hnodup : xs.Nodup) :
    tails cls seen xs = xs.filter (· ∉ heads cls seen xs) := by
  have hsub (seen : List κ) (xs : List α) : heads cls seen xs ⊆ xs := fun a ha =>
    (heads_perm_tails seen xs).mem_iff.mp (List.mem_append_left _ ha)
  induction xs generalizing seen with
  | nil => rfl
  | cons x xs ih =>
    obtain ⟨hx, hxs⟩ := List.nodup_cons.mp hnodup
    rw [tails, heads]
    split
    · have hkeep : x ∉ heads cls seen xs := fun h => hx (hsub seen xs h)
      rw [List.filter_cons_of_pos (by simpa using hkeep), ih hxs]
    · rw [List.filter_cons_of_neg (by simp), ih hxs]
      refine List.filter_congr fun a ha => ?_
      have hne : a ≠ x := fun h => hx (h ▸ ha)
      simp [hne]

theorem length_heads (cls : α → κ) (xs : List α) :
    (heads cls [] xs).length = (xs.map cls).toFinset.card := by
  rw [← List.length_map (f := cls), ← List.toFinset_card_of_nodup (heads_nodup [] xs)]
  congr 1
  ext c
  simp only [List.mem_toFinset, mem_map_heads, List.not_mem_nil, not_false_eq_true, and_true]

/-- The first `k` are of as many classes as there can be. -/
theorem card_classes_take_spread (cls : α → κ) (k : Nat) (xs : List α) :
    (((spread cls xs).take k).map cls).toFinset.card = min k (xs.map cls).toFinset.card := by
  rw [← length_heads cls xs, spread, List.take_append]
  rcases Nat.le_total k (heads cls [] xs).length with hle | hge
  · have hnone : k - (heads cls [] xs).length = 0 := by omega
    have hnodup : (((heads cls [] xs).take k).map cls).Nodup := by
      rw [List.map_take]
      exact (heads_nodup [] xs).sublist (List.take_sublist ..)
    rw [hnone, List.take_zero, List.append_nil, List.toFinset_card_of_nodup hnodup, List.length_map,
      List.length_take]
  · rw [List.take_of_length_le hge, Nat.min_eq_right hge, length_heads]
    congr 1
    ext c
    simp only [List.map_append, List.mem_toFinset, List.mem_append, mem_map_heads, List.not_mem_nil,
      not_false_eq_true, and_true]
    refine ⟨fun h => h.elim id fun h => ?_, .inl⟩
    obtain ⟨a, ha, rfl⟩ := List.mem_map.mp h
    have hmem : a ∈ heads cls [] xs ++ tails cls [] xs :=
      List.mem_append_right _ (List.mem_of_mem_take ha)
    exact List.mem_map_of_mem ((heads_perm_tails [] xs).mem_iff.mp hmem)

end

/-! ## Taking an element out -/

/-- `without` is `with` once `x` is taken out: the gap is closed, or some later `y` moves
up to a place behind it. -/
def Displaced (x : α) (withX without : List α) : Prop :=
  ∃ front, (∃ back, withX = front ++ x :: back ∧ without = front ++ back) ∨
    ∃ y upper lower back, withX = front ++ x :: (upper ++ (lower ++ y :: back)) ∧
      without = front ++ (upper ++ y :: (lower ++ back))

/-- Moving `y` up by any number of places keeps what was in front of place `n` in front of
place `n + 1`. -/
theorem mem_take_of_move_up {a y : α} {n : Nat} {upper lower back : List α}
    (h : a ∈ (upper ++ (lower ++ y :: back)).take n) :
    a ∈ (upper ++ y :: (lower ++ back)).take (n + 1) := by
  induction upper generalizing n with
  | nil =>
    rw [List.nil_append, List.take_append, List.mem_append] at h
    rw [List.nil_append, List.take_succ_cons, List.take_append, List.mem_cons, List.mem_append]
    rcases h with hlower | hback
    · exact .inr (.inl hlower)
    · cases hn : n - lower.length with
      | zero =>
        rw [hn, List.take_zero] at hback
        cases hback
      | succ m =>
        rw [hn, List.take_succ_cons, List.mem_cons] at hback
        rcases hback with rfl | hback
        · exact .inl rfl
        · exact .inr (.inr (List.take_subset_take_left _ (Nat.le_succ m) hback))
  | cons c upper ih =>
    cases n with
    | zero => cases h
    | succ n =>
      rw [List.cons_append, List.take_succ_cons, List.mem_cons] at h ⊢
      exact h.imp id ih

namespace Displaced
variable {x : α} {withX without front back : List α}

/-- More in front of both. -/
theorem append_left (h : Displaced x withX without) : Displaced x (front ++ withX)
    (front ++ without) := by
  obtain ⟨f, ⟨b, rfl, rfl⟩ | ⟨y, u, l, b, rfl, rfl⟩⟩ := h
  · exact ⟨front ++ f, .inl ⟨b, by simp, by simp⟩⟩
  · exact ⟨front ++ f, .inr ⟨y, u, l, b, by simp, by simp⟩⟩

/-- The first `k` with `x` are the first `k` without it, or `x` and `k - 1` of those. -/
theorem take_cases (h : Displaced x withX without) (k : Nat) :
    withX.take k = without.take k ∨
      x ∈ withX.take k ∧ ∀ a ∈ withX.take k, a = x ∨ a ∈ without.take k := by
  obtain ⟨f, h⟩ := h
  by_cases hfront : k ≤ f.length
  · left
    rcases h with ⟨b, rfl, rfl⟩ | ⟨y, u, l, b, rfl, rfl⟩
    · rw [List.take_append_of_le_length hfront, List.take_append_of_le_length hfront]
    · rw [List.take_append_of_le_length hfront, List.take_append_of_le_length hfront]
  · right
    obtain ⟨n, rfl⟩ : ∃ n, k = f.length + (n + 1) := ⟨k - f.length - 1, by omega⟩
    have htake : ∀ zs : List α, (f ++ zs).take (f.length + (n + 1)) = f ++ zs.take (n + 1) :=
      fun zs => by rw [List.take_length_add_append]
    rcases h with ⟨b, rfl, rfl⟩ | ⟨y, u, l, b, rfl, rfl⟩
    · rw [htake, htake, List.take_succ_cons]
      refine ⟨by simp, fun a ha => ?_⟩
      rcases List.mem_append.mp ha with ha | ha
      · exact .inr (List.mem_append_left _ ha)
      · rcases List.mem_cons.mp ha with rfl | ha
        · exact .inl rfl
        · exact .inr (List.mem_append_right _ (List.take_subset_take_left _ (Nat.le_succ n) ha))
    · rw [htake, htake, List.take_succ_cons]
      refine ⟨by simp, fun a ha => ?_⟩
      rcases List.mem_append.mp ha with ha | ha
      · exact .inr (List.mem_append_left _ ha)
      · rcases List.mem_cons.mp ha with rfl | ha
        · exact .inl rfl
        · exact .inr (List.mem_append_right _ (mem_take_of_move_up ha))

theorem length (h : Displaced x withX without) : withX.length = without.length + 1 := by
  obtain ⟨f, ⟨b, rfl, rfl⟩ | ⟨y, u, l, b, rfl, rfl⟩⟩ := h
  · simp only [List.length_append, List.length_cons]
    omega
  · simp only [List.length_append, List.length_cons]
    omega

/-- So `x` is not chosen, or it is chosen in the place of one other. -/
theorem take_exchange [DecidableEq α] (h : Displaced x withX without) (hnodup : withX.Nodup)
    {k : Nat} (hk : k ≤ without.length) :
    withX.take k = without.take k ∨
      ∃ old ∈ without.take k, (withX.take k).Perm (x :: (without.take k).erase old) := by
  rcases h.take_cases k with hsame | ⟨hchosen, hothers⟩
  · exact .inl hsame
  right
  have hlength : (withX.take k).length = (without.take k).length := by
    rw [List.length_take, List.length_take, h.length]
    omega
  have htake : (withX.take k).Nodup := hnodup.sublist (List.take_sublist ..)
  -- all but `x` are old, and one old place is left
  have hold : (withX.take k).erase x ⊆ without.take k := by
    intro a ha
    have hne : a ≠ x := fun h => htake.not_mem_erase (h ▸ ha)
    exact (hothers a (List.mem_of_mem_erase ha)).resolve_left hne
  have hcount := List.length_erase_add_one hchosen
  obtain ⟨old, hsub⟩ :=
    (List.subperm_of_subset (htake.erase x) hold).exists_of_length_lt (by omega)
  have hperm : (old :: (withX.take k).erase x).Perm (without.take k) :=
    hsub.perm_of_length_le (by rw [List.length_cons]; omega)
  refine ⟨old, hperm.mem_iff.mp List.mem_cons_self, ?_⟩
  have hrest : ((withX.take k).erase x).Perm ((without.take k).erase old) := by
    simpa using hperm.erase old
  exact (List.perm_cons_erase hchosen).trans (hrest.cons x)

end Displaced

section
variable {seen : List κ} {x : α}

/-- Seen classes matter as a set. -/
theorem heads_tails_congr {seen seen' : List κ} (h : ∀ c, c ∈ seen ↔ c ∈ seen') (xs : List α) :
    heads cls seen xs = heads cls seen' xs ∧ tails cls seen xs = tails cls seen' xs := by
  induction xs generalizing seen seen' with
  | nil => exact ⟨rfl, rfl⟩
  | cons x xs ih =>
    have hcons : ∀ c, c ∈ cls x :: seen ↔ c ∈ cls x :: seen' := by
      intro c
      rw [List.mem_cons, List.mem_cons, h c]
    simp only [heads, tails, h (cls x), (ih h).1, (ih h).2, (ih hcons).1, (ih hcons).2, and_self]

/-- Seeing one class more makes its head one of the others. -/
theorem heads_tails_seen {c : κ} (hc : c ∉ seen) (xs : List α) :
    (heads cls (c :: seen) xs = heads cls seen xs ∧ tails cls (c :: seen) xs = tails cls seen xs) ∨
      ∃ y u v p q, heads cls seen xs = u ++ y :: v ∧ heads cls (c :: seen) xs = u ++ v ∧
        tails cls seen xs = p ++ q ∧ tails cls (c :: seen) xs = p ++ y :: q := by
  induction xs generalizing seen with
  | nil => exact .inl ⟨rfl, rfl⟩
  | cons x xs ih =>
    by_cases hx : cls x ∈ seen
    · have hx' : cls x ∈ c :: seen := List.mem_cons_of_mem _ hx
      simp only [heads, tails, if_pos hx, if_pos hx']
      rcases ih hc with ⟨hh, ht⟩ | ⟨y, u, v, p, q, hh, hh', ht, ht'⟩
      · exact .inl ⟨hh, by rw [ht]⟩
      · exact .inr ⟨y, u, v, x :: p, q, hh, hh', by rw [ht]; rfl, by rw [ht']; rfl⟩
    · by_cases hxc : cls x = c
      · -- the head of the class itself
        subst hxc
        simp only [heads, tails, if_neg hx, if_pos List.mem_cons_self]
        exact .inr ⟨x, [], _, [], _, rfl, rfl, rfl, rfl⟩
      · have hx' : cls x ∉ c :: seen := fun h => (List.mem_cons.mp h).elim hxc hx
        have hc' : c ∉ cls x :: seen := fun h => (List.mem_cons.mp h).elim (Ne.symm hxc) hc
        have hswap : heads cls (cls x :: c :: seen) xs = heads cls (c :: cls x :: seen) xs ∧
            tails cls (cls x :: c :: seen) xs = tails cls (c :: cls x :: seen) xs :=
          heads_tails_congr (fun d => by simp only [List.mem_cons]; exact or_left_comm) xs
        simp only [heads, tails, if_neg hx, if_neg hx', hswap.1, hswap.2]
        rcases ih hc' with ⟨hh, ht⟩ | ⟨y, u, v, p, q, hh, hh', ht, ht'⟩
        · exact .inl ⟨by rw [hh], ht⟩
        · exact .inr ⟨y, x :: u, v, p, q, by rw [hh]; rfl, by rw [hh']; rfl, ht, ht'⟩

/-- Behind `xs` its classes are seen. -/
theorem heads_tails_append (cls : α → κ) (seen : List κ) (xs ys : List α) :
    heads cls seen (xs ++ ys) = heads cls seen xs ++ heads cls (xs.map cls ++ seen) ys ∧
      tails cls seen (xs ++ ys) = tails cls seen xs ++ tails cls (xs.map cls ++ seen) ys := by
  induction xs generalizing seen with
  | nil => exact ⟨rfl, rfl⟩
  | cons x xs ih =>
    by_cases hx : cls x ∈ seen
    · have hsame : heads cls ((x :: xs).map cls ++ seen) ys = heads cls (xs.map cls ++ seen) ys ∧
          tails cls ((x :: xs).map cls ++ seen) ys = tails cls (xs.map cls ++ seen) ys := by
        refine heads_tails_congr (fun c => ?_) ys
        simp only [List.map_cons, List.cons_append, List.mem_cons, List.mem_append]
        refine ⟨fun h => h.elim (fun heq => .inr (heq ▸ hx)) id, .inr⟩
      simp only [List.cons_append, heads, tails, if_pos hx, (ih seen).1, (ih seen).2, hsame.1,
        hsame.2, and_self]
    · have hsame : heads cls ((x :: xs).map cls ++ seen) ys =
            heads cls (xs.map cls ++ cls x :: seen) ys ∧
          tails cls ((x :: xs).map cls ++ seen) ys = tails cls (xs.map cls ++ cls x :: seen)
            ys := by
        refine heads_tails_congr (fun c => ?_) ys
        simp only [List.map_cons, List.cons_append, List.mem_cons, List.mem_append]
        exact or_left_comm
      simp only [List.cons_append, heads, tails, if_neg hx, (ih (cls x :: seen)).1,
        (ih (cls x :: seen)).2, hsame.1, hsame.2, and_self]

/-- What taking `x` out of the ranked list does to the spread one. -/
theorem spread_displaced (cls : α → κ) (x : α) (xs ys : List α) :
    Displaced x (spread cls (xs ++ x :: ys)) (spread cls (xs ++ ys)) := by
  have hwith := heads_tails_append cls [] xs (x :: ys)
  have hwithout := heads_tails_append cls [] xs ys
  rw [spread, spread, hwith.1, hwith.2, hwithout.1, hwithout.2, List.append_nil, List.append_assoc,
    List.append_assoc]
  refine Displaced.append_left ?_
  by_cases hx : cls x ∈ xs.map cls
  · -- one of the others
    rw [heads, tails, if_pos hx, if_pos hx]
    exact ⟨heads cls (xs.map cls) ys ++ tails cls [] xs, 
      .inl ⟨tails cls (xs.map cls) ys, by simp, by simp⟩⟩
  · -- the head of its class
    rw [heads, tails, if_neg hx, if_neg hx]
    rcases heads_tails_seen hx ys with ⟨hh, ht⟩ | ⟨y, u, v, p, q, hh, hh', ht, ht'⟩
    · rw [hh, ht]
      exact ⟨[], .inl ⟨_, rfl, rfl⟩⟩
    · rw [hh, hh', ht, ht']
      exact ⟨[], .inr ⟨y, u, v ++ (tails cls [] xs ++ p), q, by simp, by simp⟩⟩

end

end Kit
