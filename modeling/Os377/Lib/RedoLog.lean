import Mathlib.Data.List.Basic
import Mathlib.Logic.Function.Basic

/-!
# A redo log on a disk

A disk gives a value to every address. A log has a header, which names addresses, and
slots, which hold a new value for each address named; the rest is the home region.
`Recoverable` says what a disk must look like so that copying the slots to the
addresses in the header turns its home region into `stable`. Each of the disk writes of
a commit and of a recovery keeps it:

* writing a slot while the header names nothing (`slot`);
* writing the header, once the slots hold the new values: only this changes what the
  disk recovers to (`commit`);
* copying a slot home (`install`);
* emptying the header, once all is copied (`clear`).
-/

namespace Os377.Lib

open Function

universe u

variable {A V : Type u}

/-- Where the log lies, and the addresses that a header names. -/
structure RedoLog (A V : Type u) where
  head : A
  slot : Nat → A
  capacity : Nat
  entries : V → List A
  home : A → Prop
  head_apart : ¬ home head
  slot_apart : ∀ i, i < capacity → ¬ home (slot i)
  slot_ne_head : ∀ i, i < capacity → slot i ≠ head
  slot_inj : ∀ i j, i < capacity → j < capacity → slot i = slot j → i = j

namespace RedoLog

/-- `L.Recoverable disk stable`: recovery turns the home region of `disk` into `stable`. -/
structure Recoverable (L : RedoLog A V) (disk stable : A → V) : Prop where
  fits : (L.entries (disk L.head)).length ≤ L.capacity
  named : ∀ a ∈ L.entries (disk L.head), L.home a
  copies : ∀ i a, (L.entries (disk L.head))[i]? = some a → disk (L.slot i) = stable a
  rest : ∀ a, L.home a → a ∉ L.entries (disk L.head) → disk a = stable a

variable {L : RedoLog A V} {disk stable : A → V}

theorem home_ne_head {a : A} (ha : L.home a) : a ≠ L.head := by
  intro heq
  exact L.head_apart (heq ▸ ha)

theorem slot_ne_home {a : A} {i : Nat} (hi : i < L.capacity) (ha : L.home a) : L.slot i ≠ a := by
  intro heq
  exact L.slot_apart i hi (heq ▸ ha)

/-- Where the header names nothing, the home region is as it should be. -/
theorem Recoverable.empty (h : L.Recoverable disk stable) (hempty : L.entries (disk L.head) = [])
    {a : A} (ha : L.home a) : disk a = stable a :=
  h.rest a ha (by simp [hempty])

theorem Recoverable.of_empty (hempty : L.entries (disk L.head) = [])
    (h : ∀ a, L.home a → disk a = stable a) : L.Recoverable disk stable where
  fits := by simp [hempty]
  named := by simp [hempty]
  copies := by simp [hempty]
  rest a ha _ := h a ha

variable [DecidableEq A]

/-- Writing a slot while the header names nothing. -/
theorem Recoverable.slot (h : L.Recoverable disk stable) (hempty : L.entries (disk L.head) = [])
    {i : Nat} (hi : i < L.capacity) (v : V) :
    L.Recoverable (update disk (L.slot i) v) stable := by
  have hhead : update disk (L.slot i) v L.head = disk L.head :=
    update_of_ne (L.slot_ne_head i hi).symm v disk
  refine .of_empty (hhead ▸ hempty) fun a ha => ?_
  rw [update_of_ne (slot_ne_home hi ha).symm]
  exact h.empty hempty ha

omit [DecidableEq A] in
/-- An entry has a slot. -/
theorem Recoverable.lt_capacity (h : L.Recoverable disk stable) {i : Nat} {a : A}
    (hi : (L.entries (disk L.head))[i]? = some a) : i < L.capacity :=
  Nat.lt_of_lt_of_le (List.getElem?_eq_some_iff.mp hi).1 h.fits

/-- **The commit.** Writing the header makes the disk recover to the new contents. -/
theorem Recoverable.commit {stable' : A → V} {v : V}
    (hfits : (L.entries v).length ≤ L.capacity) (hnamed : ∀ a ∈ L.entries v, L.home a)
    (hcopies : ∀ i a, (L.entries v)[i]? = some a → disk (L.slot i) = stable' a)
    (hrest : ∀ a, L.home a → a ∉ L.entries v → disk a = stable' a) :
    L.Recoverable (update disk L.head v) stable' := by
  have hhead : update disk L.head v L.head = v := update_self ..
  refine ⟨by rwa [hhead], by rwa [hhead], ?_, ?_⟩
  · rw [hhead]
    intro i a hi
    have hlt := (List.getElem?_eq_some_iff.mp hi).1
    rw [update_of_ne (L.slot_ne_head i (Nat.lt_of_lt_of_le hlt hfits))]
    exact hcopies i a hi
  · intro a ha hnot
    rw [hhead] at hnot
    rw [update_of_ne (home_ne_head ha)]
    exact hrest a ha hnot

/-- Copying a slot home. -/
theorem Recoverable.install (h : L.Recoverable disk stable) {i : Nat} {a : A}
    (hi : (L.entries (disk L.head))[i]? = some a) :
    L.Recoverable (update disk a (disk (L.slot i))) stable := by
  have hmem := List.mem_of_getElem? hi
  have hhome := h.named a hmem
  have hhead : update disk a (disk (L.slot i)) L.head = disk L.head :=
    update_of_ne (home_ne_head hhome).symm _ _
  refine ⟨by rw [hhead]; exact h.fits, by rw [hhead]; exact h.named, ?_, ?_⟩
  · rw [hhead]
    intro j c hj
    rw [update_of_ne (slot_ne_home (h.lt_capacity hj) hhome)]
    exact h.copies j c hj
  · intro c hc hnot
    rw [hhead] at hnot
    have hne : c ≠ a := by
      intro heq
      exact hnot (heq ▸ hmem)
    rw [update_of_ne hne]
    exact h.rest c hc hnot

/-- The first `n` addresses that the header names hold their new values. -/
def Installed (L : RedoLog A V) (disk stable : A → V) (n : Nat) : Prop :=
  ∀ i a, (L.entries (disk L.head))[i]? = some a → i < n → disk a = stable a

theorem Installed.step {n : Nat} {a : A} (h : L.Recoverable disk stable)
    (hin : L.Installed disk stable n) (hn : (L.entries (disk L.head))[n]? = some a) :
    L.Installed (update disk a (disk (L.slot n))) stable (n + 1) := by
  have hhead : update disk a (disk (L.slot n)) L.head = disk L.head :=
    update_of_ne (home_ne_head (h.named a (List.mem_of_getElem? hn))).symm _ _
  unfold Installed
  rw [hhead]
  intro i c hi hlt
  by_cases heq : c = a
  · rw [heq, update_self]
    exact h.copies n a hn
  · rw [update_of_ne heq]
    refine hin i c hi (Nat.lt_of_le_of_ne (Nat.lt_succ_iff.mp hlt) ?_)
    intro hin
    subst hin
    exact heq (Option.some.inj (hi.symm.trans hn))

/-- Once all is copied, the home region is as it should be. -/
theorem Installed.home {n : Nat} {a : A} (h : L.Recoverable disk stable)
    (hin : L.Installed disk stable n) (hn : (L.entries (disk L.head)).length ≤ n)
    (ha : L.home a) : disk a = stable a := by
  by_cases hmem : a ∈ L.entries (disk L.head)
  · obtain ⟨i, hi, heq⟩ := List.getElem_of_mem hmem
    exact hin i a (List.getElem?_eq_some_iff.mpr ⟨hi, heq⟩) (Nat.lt_of_lt_of_le hi hn)
  · exact h.rest a ha hmem

/-- Emptying the header once all is copied. -/
theorem Recoverable.clear {n : Nat} {v : V} (h : L.Recoverable disk stable)
    (hin : L.Installed disk stable n) (hn : (L.entries (disk L.head)).length ≤ n)
    (hv : L.entries v = []) : L.Recoverable (update disk L.head v) stable := by
  have hhead : update disk L.head v L.head = v := update_self ..
  refine .of_empty (by rw [hhead]; exact hv) fun a ha => ?_
  rw [update_of_ne (home_ne_head ha)]
  exact hin.home h hn ha

end RedoLog

end Os377.Lib
