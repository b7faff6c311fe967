import Mathlib.Algebra.Group.Defs
import Mathlib.Data.Finset.Card
import Mathlib.Logic.Function.Basic

/-!
# Cells and their holders

An allocator keeps a mark for every cell, and holders keep pointers to the cells they
were given, 0 for none. `Placed` says that the marks are right: a cell is marked when it
is reserved or somebody holds it, and no two hold the same cell. A holder takes a cell
that is not marked (`Placed.take`), gives its own back (`Placed.drop`), and a cell that
somebody holds is always marked, so that giving it back cannot fail (`Placed.held`).
-/

namespace Os377.Lib

open Function

universe u v

variable {ι : Type u} {α : Type v} [Zero α]

/-- The holder `i` has the cell `p i`, none where that is 0. -/
structure Placed (cells reserved used : α → Prop) (p : ι → α) : Prop where
  zero : reserved 0
  cell : ∀ i, p i ≠ 0 → cells (p i) ∧ ¬ reserved (p i)
  used_iff : ∀ b, cells b → (used b ↔ reserved b ∨ ∃ i, p i = b)
  unique : ∀ i j, p i = p j → p i ≠ 0 → i = j

/-- The holders of `is` have given their cells back. -/
def without [DecidableEq ι] (p : ι → α) (is : List ι) : ι → α := fun i => if i ∈ is then 0 else p i

variable {cells reserved used used' : α → Prop} {p : ι → α} {i j : ι} {is : List ι} {b : α}

namespace Placed

theorem held (h : Placed cells reserved used p) (hi : p i ≠ 0) : used (p i) :=
  (h.used_iff _ (h.cell i hi).1).mpr (.inr ⟨i, rfl⟩)

theorem used_of_reserved (h : Placed cells reserved used p) (hb : cells b) (hr : reserved b) :
    used b :=
  (h.used_iff b hb).mpr (.inl hr)

/-- Nobody has a cell that is not marked. -/
theorem ne_of_not_used (h : Placed cells reserved used p) (hb : cells b) (hu : ¬ used b) (i : ι) :
    p i ≠ b := by
  intro hi
  exact hu ((h.used_iff b hb).mpr (.inr ⟨i, hi⟩))

theorem not_reserved (h : Placed cells reserved used p) (hb : cells b) (hu : ¬ used b) :
    ¬ reserved b := by
  intro hr
  exact hu (h.used_of_reserved hb hr)

theorem ne_zero (h : Placed cells reserved used p) (hb : cells b) (hu : ¬ used b) : b ≠ 0 := by
  rintro rfl
  exact h.not_reserved hb hu h.zero

/-- With every cell marked, every cell that is not reserved is held. -/
theorem exists_holder (h : Placed cells reserved used p) (hb : cells b) (hu : used b)
    (hr : ¬ reserved b) : ∃ i, p i = b :=
  ((h.used_iff b hb).mp hu).resolve_left hr

open Finset in
/-- The marked cells, counted. -/
theorem card_used [DecidableEq α] {C : Finset α} {S : Finset ι} [DecidablePred reserved]
    [DecidablePred used] (h : Placed (· ∈ C) reserved used p) (hS : ∀ i, p i ≠ 0 → i ∈ S) :
    (C.filter used).card = (C.filter reserved).card + (S.filter fun i => p i ≠ 0).card := by
  have hsplit : C.filter used = C.filter reserved ∪ (S.filter fun i => p i ≠ 0).image p := by
    ext c
    simp only [mem_filter, mem_union, mem_image]
    constructor
    · rintro ⟨hc, hu⟩
      by_cases hr : reserved c
      · exact .inl ⟨hc, hr⟩
      · obtain ⟨i, rfl⟩ := h.exists_holder hc hu hr
        have h0 : p i ≠ 0 := fun h0 => hr (h0 ▸ h.zero)
        exact .inr ⟨i, ⟨hS i h0, h0⟩, rfl⟩
    · rintro (⟨hc, hr⟩ | ⟨i, ⟨-, h0⟩, rfl⟩)
      · exact ⟨hc, h.used_of_reserved hc hr⟩
      · exact ⟨(h.cell i h0).1, h.held h0⟩
  have hdisjoint : Disjoint (C.filter reserved) ((S.filter fun i => p i ≠ 0).image p) := by
    rw [disjoint_left]
    intro c hc himage
    obtain ⟨i, hi, rfl⟩ := mem_image.mp himage
    exact (h.cell i (mem_filter.mp hi).2).2 (mem_filter.mp hc).2
  rw [hsplit, card_union_of_disjoint hdisjoint, card_image_of_injOn]
  intro i hi j _ heq
  exact h.unique i j heq (mem_filter.mp (mem_coe.mp hi)).2

/-- Only the marks of cells matter. -/
theorem congr_used (h : Placed cells reserved used p) (hu : ∀ b, cells b → (used' b ↔ used b)) :
    Placed cells reserved used' p where
  zero := h.zero
  cell := h.cell
  used_iff b hb := (hu b hb).trans (h.used_iff b hb)
  unique := h.unique

variable [DecidableEq ι]

theorem take (h : Placed cells reserved used p) (hi : p i = 0) (hb : cells b) (hu : ¬ used b)
    (hu' : ∀ c, cells c → (used' c ↔ used c ∨ c = b)) :
    Placed cells reserved used' (update p i b) where
  zero := h.zero
  cell j hj := by
    by_cases hji : j = i
    · subst hji
      rw [update_self]
      exact ⟨hb, h.not_reserved hb hu⟩
    · rw [update_of_ne hji] at hj ⊢
      exact h.cell j hj
  used_iff c hc := by
    rw [hu' c hc, h.used_iff c hc]
    constructor
    · rintro ((hr | ⟨j, rfl⟩) | rfl)
      · exact .inl hr
      · by_cases hji : j = i
        · exact .inl (by rw [hji, hi]; exact h.zero)
        · exact .inr ⟨j, update_of_ne hji _ _⟩
      · exact .inr ⟨i, update_self i _ _⟩
    · rintro (hr | ⟨j, hj⟩)
      · exact .inl (.inl hr)
      · by_cases hji : j = i
        · rw [hji, update_self] at hj
          exact .inr hj.symm
        · rw [update_of_ne hji] at hj
          exact .inl (.inr ⟨j, hj⟩)
  unique j k hjk hj := by
    have hfree := h.ne_of_not_used hb hu
    by_cases hji : j = i <;> by_cases hki : k = i
    · exact hji.trans hki.symm
    · rw [hji, update_self, update_of_ne hki] at hjk
      exact absurd hjk.symm (hfree k)
    · rw [hki, update_self, update_of_ne hji] at hjk
      exact absurd hjk (hfree j)
    · rw [update_of_ne hji] at hjk hj
      rw [update_of_ne hki] at hjk
      exact h.unique j k hjk hj

theorem drop (h : Placed cells reserved used p) (hi : p i ≠ 0)
    (hu' : ∀ c, cells c → (used' c ↔ used c ∧ c ≠ p i)) :
    Placed cells reserved used' (update p i 0) where
  zero := h.zero
  cell j hj := by
    by_cases hji : j = i
    · exact absurd (by rw [hji, update_self]) hj
    · rw [update_of_ne hji] at hj ⊢
      exact h.cell j hj
  used_iff c hc := by
    rw [hu' c hc, h.used_iff c hc]
    constructor
    · rintro ⟨hr | ⟨j, rfl⟩, hne⟩
      · exact .inl hr
      · have hji : j ≠ i := fun hji => hne (by rw [hji])
        exact .inr ⟨j, update_of_ne hji _ _⟩
    · rintro (hr | ⟨j, hj⟩)
      · refine ⟨.inl hr, ?_⟩
        rintro rfl
        exact (h.cell i hi).2 hr
      · by_cases hji : j = i
        · rw [hji, update_self] at hj
          subst hj
          exact ⟨.inl h.zero, hi.symm⟩
        · rw [update_of_ne hji] at hj
          refine ⟨.inr ⟨j, hj⟩, ?_⟩
          intro hci
          exact hji (h.unique j i (hj.trans hci) (by rw [hj, hci]; exact hi))
  unique j k hjk hj := by
    by_cases hji : j = i
    · exact absurd (by rw [hji, update_self]) hj
    · rw [update_of_ne hji] at hjk hj
      by_cases hki : k = i
      · rw [hki, update_self] at hjk
        exact absurd hjk hj
      · rw [update_of_ne hki] at hjk
        exact h.unique j k hjk hj

end Placed

section Without

variable [DecidableEq ι]

theorem without_nil : without p [] = p := by
  funext j
  exact if_neg List.not_mem_nil

theorem without_cons : without (update p i 0) is = without p (i :: is) := by
  funext j
  unfold without
  by_cases hj : j = i
  · subst hj
    rw [update_self, ite_self, if_pos List.mem_cons_self]
  · rw [update_of_ne hj]
    simp only [List.mem_cons, hj, false_or]

end Without

end Os377.Lib
