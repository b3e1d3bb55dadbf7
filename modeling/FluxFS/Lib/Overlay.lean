import Mathlib

/-!
# Overlay — fixed-size buffers written in place

`splice buffer start data` is `buffer[start..start + data.len()].copy_from_slice(data)`
and `resize` is `Vec::resize`. Both are described by what stands at each index
afterwards, so that a buffer assembled from pieces is compared with a function of
the index. Ranges that meet are put together (`extract_append_extract`).
-/

namespace Kit

variable {α : Type}

/-- Overwrite the buffer with `data` from `start` on. -/
def splice (buffer : List α) (start : Nat) (data : List α) : List α :=
  buffer.take start ++ data ++ buffer.drop (start + data.length)

/-- Cut the buffer to `n` elements, or fill it up with `fill`. -/
def resize (buffer : List α) (n : Nat) (fill : α) : List α :=
  buffer.take n ++ List.replicate (n - buffer.length) fill

@[simp] theorem length_resize (buffer : List α) (n : Nat) (fill : α) :
    (resize buffer n fill).length = n := by
  rw [resize, List.length_append, List.length_take, List.length_replicate]
  omega

theorem getElem?_resize (buffer : List α) (n : Nat) (fill : α) (i : Nat) :
    (resize buffer n fill)[i]? = if i < n then some (buffer[i]?.getD fill) else none := by
  rw [resize, List.getElem?_append, List.length_take]
  split
  · rename_i hi
    rw [List.getElem?_take_of_lt (by omega), if_pos (by omega),
      List.getElem?_eq_getElem (by omega), Option.getD_some]
  · rename_i hi
    rw [List.getElem?_replicate]
    by_cases hn : i < n
    · rw [if_pos hn, if_pos (by omega), List.getElem?_eq_none (by omega), Option.getD_none]
    · rw [if_neg hn, if_neg (by omega)]

section
variable {buffer data : List α} {start : Nat}

theorem length_splice (h : start + data.length ≤ buffer.length) :
    (splice buffer start data).length = buffer.length := by
  rw [splice, List.length_append, List.length_append, List.length_take, List.length_drop]
  omega

theorem getElem?_splice (h : start + data.length ≤ buffer.length) (i : Nat) :
    (splice buffer start data)[i]? =
      if start ≤ i ∧ i < start + data.length then data[i - start]? else buffer[i]? := by
  have htake : (buffer.take start).length = start := by
    rw [List.length_take]
    omega
  rw [splice, List.append_assoc, List.getElem?_append, htake]
  by_cases hlow : i < start
  · rw [if_pos hlow, if_neg (by omega), List.getElem?_take_of_lt hlow]
  · rw [if_neg hlow, List.getElem?_append]
    by_cases hhigh : i - start < data.length
    · rw [if_pos hhigh, if_pos (by omega)]
    · rw [if_neg hhigh, if_neg (by omega), List.getElem?_drop]
      congr 1
      omega

end

/-! ## Ranges -/

/-- Two ranges that meet make one. -/
theorem extract_append_extract (l : List α) {a b c : Nat} (hab : a ≤ b) (hbc : b ≤ c) :
    l.extract a b ++ l.extract b c = l.extract a c := by
  have hlength : c - a = (b - a) + (c - b) := by omega
  have hdrop : l.drop b = (l.drop a).drop (b - a) := by
    rw [List.drop_drop]
    congr 1
    omega
  rw [List.extract_eq_take_drop, List.extract_eq_take_drop, List.extract_eq_take_drop, hlength,
    List.take_add, hdrop]

/-- A range of a range. -/
theorem extract_extract (l : List α) {a b c d : Nat} (hd : a + d ≤ b) :
    (l.extract a b).extract c d = l.extract (a + c) (a + d) := by
  rw [List.extract_eq_take_drop, List.extract_eq_take_drop, List.extract_eq_take_drop,
    List.drop_take, List.take_take, List.drop_drop]
  congr 1
  omega

theorem length_extract (l : List α) (a b : Nat) : (l.extract a b).length = min b l.length - a := by
  rw [List.extract_eq_take_drop, List.length_take, List.length_drop]
  omega

theorem extract_of_le (l : List α) {a b : Nat} (h : b ≤ a) : l.extract a b = [] := by
  apply List.eq_nil_of_length_eq_zero
  rw [length_extract]
  omega

/-! ## The last writer wins -/

section
variable {β : Type} {p : α → Bool} {f : α → β} {xs : List α} {b v : β}

theorem foldl_override_of_none (h : ∀ x ∈ xs, p x = false) :
    xs.foldl (fun b x => if p x then f x else b) b = b := by
  induction xs with
  | nil => rfl
  | cons x xs ih =>
    obtain ⟨hx, hxs⟩ := List.forall_mem_cons.mp h
    rw [List.foldl_cons, hx]
    exact ih hxs

/-- Writers that all write `v` leave `v`, if there is one or `v` was there. -/
theorem foldl_override_of_agree (hwriters : ∀ x ∈ xs, p x = true → f x = v)
    (h : b = v ∨ ∃ x ∈ xs, p x = true) :
    xs.foldl (fun b x => if p x then f x else b) b = v := by
  induction xs generalizing b with
  | nil => exact h.resolve_right (by simp)
  | cons x xs ih =>
    obtain ⟨hx, hxs⟩ := List.forall_mem_cons.mp hwriters
    rw [List.foldl_cons]
    apply ih hxs
    by_cases hp : p x = true
    · exact .inl (by rw [if_pos hp, hx hp])
    · rw [if_neg hp]
      refine h.imp id ?_
      rintro ⟨y, hy, hpy⟩
      refine ⟨y, (List.mem_cons.mp hy).resolve_left ?_, hpy⟩
      rintro rfl
      exact hp hpy

end

/-- A list is the table of a function when it has its length and its values. -/
theorem eq_map_range {xs : List α} {n : Nat} {f : Nat → α} (hlength : xs.length = n)
    (hget : ∀ i < n, xs[i]? = some (f i)) : xs = (List.range n).map f := by
  apply List.ext_getElem?
  intro i
  by_cases hi : i < n
  · rw [hget i hi, List.getElem?_map, List.getElem?_range hi, Option.map_some]
  · rw [List.getElem?_eq_none (by omega), List.getElem?_eq_none (by simp; omega)]

end Kit
