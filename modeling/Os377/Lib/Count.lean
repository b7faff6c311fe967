import Mathlib.Algebra.BigOperators.Group.Finset.Basic
import Mathlib.Data.Fintype.Card
import Mathlib.Data.Finset.Card
import Mathlib.Tactic.Abel

/-!
# Counting threads by what they are doing

`tally f p` is the number of threads `t` whose phase `f t` satisfies `p`.
The counting invariants of a monitor need to know how a tally moves when one
thread changes phase (`tally_update`) and when several do at once
(`tally_lt`). `sum_update` is the same for what the threads hold,
added up.
-/

namespace Os377.Lib

variable {T : Type*} [Fintype T] {β : Type*}

/-- How many threads are in a phase satisfying `p`. -/
def tally (f : T → β) (p : β → Bool) : Nat :=
  (Finset.univ.filter fun t => p (f t) = true).card

/-- One thread changes phase: the tally loses the old phase and gains the
new one. -/
theorem tally_update [DecidableEq T] (f : T → β) (p : β → Bool) (t : T) (b : β) :
    tally (Function.update f t b) p + (p (f t)).toNat = tally f p + (p b).toNat := by
  have hsplit : ∀ g : T → β, tally g p =
      ((Finset.univ.erase t).filter fun u => p (g u) = true).card + (p (g t)).toNat := by
    intro g
    unfold tally
    rw [← Finset.insert_erase (Finset.mem_univ t), Finset.filter_insert]
    cases hg : p (g t) <;> simp
  have hrest : ((Finset.univ.erase t).filter fun u => p (Function.update f t b u) = true)
      = (Finset.univ.erase t).filter fun u => p (f u) = true := by
    apply Finset.filter_congr
    intro u hu
    rw [Function.update_of_ne (Finset.ne_of_mem_erase hu)]
  have h1 := hsplit (Function.update f t b)
  have h2 := hsplit f
  rw [hrest, Function.update_self] at h1
  omega

/-- A thread moving between phases that count alike leaves the tally alone. -/
theorem tally_update_same [DecidableEq T] {f : T → β} {p : β → Bool} {t : T} {b : β}
    (h : p (f t) = p b) : tally (Function.update f t b) p = tally f p := by
  have := tally_update f p t b
  rw [h] at this
  omega

/-- A tally grows strictly when every counted thread stays counted and one
thread joins. -/
theorem tally_lt {f g : T → β} {p q : β → Bool}
    (h : ∀ t, p (f t) = true → q (g t) = true)
    (hj : ∃ t, q (g t) = true ∧ p (f t) = false) : tally f p < tally g q := by
  apply Finset.card_lt_card
  obtain ⟨t, hq, hp⟩ := hj
  refine Finset.ssubset_iff_of_subset ?_ |>.mpr ⟨t, by simp [hq], by simp [hp]⟩
  intro u hu
  simp only [Finset.mem_filter, Finset.mem_univ, true_and] at hu ⊢
  exact h u hu

theorem tally_eq_zero {f : T → β} {p : β → Bool} :
    tally f p = 0 ↔ ∀ t, p (f t) = false := by
  simp [tally, Finset.filter_eq_empty_iff]

theorem tally_pos {f : T → β} {p : β → Bool} :
    0 < tally f p ↔ ∃ t, p (f t) = true := by
  simp [tally, Finset.card_pos, Finset.filter_nonempty_iff]

/-- One thread changes phase: the sum loses what the old phase holds and gains what the
new one holds. -/
theorem sum_update [DecidableEq T] {M : Type*} [AddCommMonoid M] (f : T → β) (g : β → M) (t : T)
    (b : β) : ∑ u, g (Function.update f t b u) + g (f t) = ∑ u, g (f u) + g b := by
  have hsplit : ∀ h : T → β, ∑ u, g (h u) = g (h t) + ∑ u ∈ Finset.univ.erase t, g (h u) :=
    fun h => (Finset.add_sum_erase _ _ (Finset.mem_univ t)).symm
  have hrest : ∑ u ∈ Finset.univ.erase t, g (Function.update f t b u) =
      ∑ u ∈ Finset.univ.erase t, g (f u) := by
    refine Finset.sum_congr rfl fun u hu => ?_
    rw [Function.update_of_ne (Finset.ne_of_mem_erase hu)]
  rw [hsplit, hrest, hsplit f, Function.update_self]
  abel

end Os377.Lib
