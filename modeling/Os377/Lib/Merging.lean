import Mathlib.Data.List.Sort

/-!
# Merging two sorted lists

`SortOf m s` says that `s` has the entries of `m` in non-decreasing order, which
determines `s`. `merged` takes the smaller head, the one of the second list on a tie.
`MergeState` is the invariant of index loops that merge: what they have still to deliver
is the `merged` of the two tails.
-/

namespace Os377.Lib

universe u

variable {α : Type u} [LinearOrder α]

/-- `s` is `m` in non-decreasing order. -/
structure SortOf (m s : List α) : Prop where
  perm : s.Perm m
  sorted : s.Pairwise (· ≤ ·)

/-- One list out of two, the heads of the second one first on a tie. -/
def merged (left right : List α) : List α :=
  right.merge left

theorem SortOf.unique {m s t : List α} (hs : SortOf m s) (ht : SortOf m t) : s = t :=
  (hs.perm.trans ht.perm.symm).eq_of_pairwise (fun _ _ _ _ => le_antisymm) hs.sorted ht.sorted

theorem SortOf.length_eq {m s : List α} (h : SortOf m s) : s.length = m.length :=
  h.perm.length_eq

theorem SortOf.short {m : List α} (h : m.length ≤ 1) : SortOf m m := by
  refine ⟨List.Perm.refl m, ?_⟩
  match m, h with
  | [], _ => exact List.Pairwise.nil
  | [_], _ => exact List.pairwise_singleton ..

/-- Two entries, compared. -/
theorem SortOf.pair (a b : α) : SortOf [a, b] (if a < b then [a, b] else [b, a]) := by
  split
  · next hab => exact ⟨List.Perm.refl _, List.pairwise_pair.mpr (le_of_lt hab)⟩
  · next hab => exact ⟨List.Perm.swap .., List.pairwise_pair.mpr (not_lt.mp hab)⟩

/-- The parts sorted and merged. -/
theorem SortOf.merge {m left right : List α} {n : Nat} (hleft : SortOf (m.take n) left)
    (hright : SortOf (m.drop n) right) : SortOf m (merged left right) where
  perm := by
    calc List.Perm (merged left right) (right ++ left) := List.merge_perm_append _
      List.Perm _ (left ++ right) := List.perm_append_comm
      List.Perm _ (m.take n ++ m.drop n) := hleft.perm.append hright.perm
      _ = m := List.take_append_drop n m
  sorted := hright.sorted.merge hleft.sorted

/-- The index loops have delivered `out`, and stand at `i` and `j`. -/
structure MergeState (left right : List α) (i j : Nat) (out : List α) : Prop where
  left_le : i ≤ left.length
  right_le : j ≤ right.length
  whole : out ++ merged (left.drop i) (right.drop j) = merged left right

section Loops

variable {left right out : List α} {i j : Nat}

theorem length_merged : (merged left right).length = left.length + right.length := by
  rw [merged, List.length_merge, Nat.add_comm]

theorem merged_left (hi : i < left.length) (h : ∀ hj : j < right.length, left[i] < right[j]) :
    merged (left.drop i) (right.drop j) =
      left[i] :: merged (left.drop (i + 1)) (right.drop j) := by
  rw [List.drop_eq_getElem_cons hi]
  by_cases hj : j < right.length
  · rw [List.drop_eq_getElem_cons hj]
    exact List.cons_merge_cons_neg _ _ _ (by simpa using h hj)
  · rw [List.drop_eq_nil_of_le (not_lt.mp hj), merged, merged, List.nil_merge, List.nil_merge]

theorem merged_right (hj : j < right.length) (h : ∀ hi : i < left.length, ¬ left[i] < right[j]) :
    merged (left.drop i) (right.drop j) =
      right[j] :: merged (left.drop i) (right.drop (j + 1)) := by
  rw [List.drop_eq_getElem_cons hj]
  by_cases hi : i < left.length
  · rw [List.drop_eq_getElem_cons hi]
    exact List.cons_merge_cons_pos _ _ _ (by simpa using h hi)
  · rw [List.drop_eq_nil_of_le (not_lt.mp hi), merged, merged, List.merge_right, List.merge_right]

theorem MergeState.start (left right : List α) : MergeState left right 0 0 [] :=
  ⟨Nat.zero_le _, Nat.zero_le _, rfl⟩

/-- The next entry comes from the first list. -/
theorem MergeState.takeLeft (h : MergeState left right i j out) (hi : i < left.length)
    (hlt : ∀ hj : j < right.length, left[i] < right[j]) :
    MergeState left right (i + 1) j (out ++ [left[i]]) where
  left_le := hi
  right_le := h.right_le
  whole := by
    rw [← h.whole, merged_left hi hlt, List.append_assoc, List.singleton_append]

/-- The next entry comes from the second list. -/
theorem MergeState.takeRight (h : MergeState left right i j out) (hj : j < right.length)
    (hle : ∀ hi : i < left.length, ¬ left[i] < right[j]) :
    MergeState left right i (j + 1) (out ++ [right[j]]) where
  left_le := h.left_le
  right_le := hj
  whole := by
    rw [← h.whole, merged_right hj hle, List.append_assoc, List.singleton_append]

/-- Both lists are used up. -/
theorem MergeState.done (h : MergeState left right i j out) (hi : left.length ≤ i)
    (hj : right.length ≤ j) : out = merged left right := by
  rw [← h.whole, List.drop_eq_nil_of_le hi, List.drop_eq_nil_of_le hj, merged, List.nil_merge,
    List.append_nil]

end Loops

end Os377.Lib
