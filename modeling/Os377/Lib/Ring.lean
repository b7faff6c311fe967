import Mathlib.Data.List.Basic
import Mathlib.Logic.Function.Basic

/-!
# Circular reads

`ringRead f n first cnt` lists the `cnt` cells of an `n`-cell ring that start
at `first` and wrap. Writing the cell one past the end appends
(`ringRead_push`); moving the start forward drops the head (`ringRead_pop`).
-/

namespace Os377.Lib

variable {α : Type*}

/-- The `cnt` cells from `first` on, indices taken modulo `n`. -/
def ringRead (f : Int → α) (n first : Int) (cnt : Nat) : List α :=
  (List.range cnt).map fun k : Nat => f ((first + (k : Int)) % n)

@[simp] theorem ringRead_length (f : Int → α) (n first : Int) (cnt : Nat) :
    (ringRead f n first cnt).length = cnt := by
  simp [ringRead]

/-- Fewer than `n` steps from `first` never come back to the same cell. -/
theorem ring_index_inj {n first : Int} {j k : Nat} (hj : (j : Int) < n) (hk : (k : Int) < n)
    (h : (first + (j : Int)) % n = (first + (k : Int)) % n) : j = k := by
  have hmod : (j : Int) % n = (k : Int) % n := Int.emod_add_cancel_left.mp h
  rw [Int.emod_eq_of_lt (by omega) hj, Int.emod_eq_of_lt (by omega) hk] at hmod
  omega

/-- Writing the cell one past the last one read appends to the read. -/
theorem ringRead_push (f : Int → α) {n first : Int} {cnt : Nat} (x : α)
    (hcnt : (cnt : Int) < n) :
    ringRead (Function.update f ((first + (cnt : Int)) % n) x) n first (cnt + 1)
      = ringRead f n first cnt ++ [x] := by
  unfold ringRead
  rw [List.range_succ, List.map_append, List.map_singleton, Function.update_self]
  congr 1
  apply List.map_congr_left
  intro k hk
  have hk' : k < cnt := List.mem_range.mp hk
  apply Function.update_of_ne
  intro heq
  have := ring_index_inj (by omega) hcnt heq
  omega

/-- Reading from one cell further on drops the head of the read. -/
theorem ringRead_pop (f : Int → α) (n first : Int) (cnt : Nat) :
    ringRead f n first (cnt + 1) = f (first % n) :: ringRead f n ((first + 1) % n) cnt := by
  unfold ringRead
  rw [List.range_succ_eq_map, List.map_cons, List.map_map]
  congr 1
  · simp
  · apply List.map_congr_left
    intro k _
    have hk : first + ((k + 1 : Nat) : Int) = (first + 1) + (k : Int) := by omega
    simp only [Function.comp_apply, Nat.succ_eq_add_one, hk, Int.emod_add_emod]

end Os377.Lib
