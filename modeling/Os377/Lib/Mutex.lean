import Mathlib.Logic.Function.Basic

/-!
# Mutex discipline

`MutexInv holds pc lock`: the lock word names exactly the thread whose program
counter is inside the region `holds` describes. Acquiring, releasing and
moving within or outside the region keep it.
-/

namespace Os377.Lib

open Function

variable {I β : Type*} [DecidableEq I]

/-- The lock's owner is the one thread inside its region. -/
def MutexInv (holds : β → Bool) (pc : I → β) (lock : Option I) : Prop :=
  ∀ i, holds (pc i) = true ↔ lock = some i

variable {holds : β → Bool} {pc : I → β} {lock : Option I} {i : I} {b : β}

theorem MutexInv.acquire (h : MutexInv holds pc none) (hb : holds b = true) :
    MutexInv holds (update pc i b) (some i) := by
  intro k
  by_cases hk : k = i
  · subst hk
    simp [hb]
  · have := h k
    simp_all [Ne.symm hk]

theorem MutexInv.release (h : MutexInv holds pc lock) (hi : holds (pc i) = true)
    (hb : holds b = false) : MutexInv holds (update pc i b) none := by
  intro k
  by_cases hk : k = i
  · subst hk
    simp [hb]
  · have hne : holds (pc k) ≠ true := by
      intro hk'
      have h1 := (h k).mp hk'
      rw [(h i).mp hi] at h1
      exact hk (Option.some.inj h1).symm
    simp [update_of_ne hk, hne]

theorem MutexInv.keep (h : MutexInv holds pc lock) (hb : holds b = holds (pc i)) :
    MutexInv holds (update pc i b) lock := by
  intro k
  by_cases hk : k = i
  · subst hk
    rw [update_self, hb]
    exact h k
  · rw [update_of_ne hk]
    exact h k

omit [DecidableEq I] in
/-- Two threads inside the region are the same thread. -/
theorem MutexInv.unique (h : MutexInv holds pc lock) {k : I} (hi : holds (pc i) = true)
    (hk : holds (pc k) = true) : i = k := by
  have h1 := (h i).mp hi
  rw [(h k).mp hk] at h1
  exact (Option.some.inj h1).symm

end Os377.Lib
