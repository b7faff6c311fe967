import Mathlib.Data.BitVec
import Mathlib.Data.List.Basic
import Mathlib.Data.Nat.ModEq
import Mathlib.Logic.Function.Basic
import Mathlib.Tactic.Ring

/-!
# A ring behind two free-running counters

A ring of `cap` cells whose reader and writer count on without ever being reduced; only
an access takes a counter modulo `cap`. The counters are words of `w` bits and wrap, which
does no harm as long as `cap` divides `2 ^ w`.

`held data cap r e` lists what stands between the counters `r` and `e`: storing at `e`
appends (`held_push`), reading at `r` takes the head (`held_pop`), and so on.
-/

namespace Os377.Lib

open Function

variable {w cap : Nat} {α : Type*} {data : Nat → α} {r m e : BitVec w} {x : α}

/-- The cells from the counter `r` up to the counter `e`. -/
def held (data : Nat → α) (cap : Nat) (r e : BitVec w) : List α :=
  (List.range (e - r).toNat).map fun k => data ((r + BitVec.ofNat w k).toNat % cap)

@[simp] theorem held_length : (held data cap r e).length = (e - r).toNat := by
  rw [held, List.length_map, List.length_range]

@[simp] theorem held_self : held data cap r r = [] := by
  rw [← List.length_eq_zero_iff, held_length, sub_self]
  rfl

theorem held_eq_nil : held data cap r e = [] ↔ r = e := by
  constructor
  · intro h
    have hlen : (held data cap r e).length = 0 := by rw [h]; rfl
    rw [held_length] at hlen
    have hzero : e - r = 0 := BitVec.eq_of_toNat_eq hlen
    exact (sub_eq_zero.mp hzero).symm
  · rintro rfl
    exact held_self

theorem toNat_one (hw : 1 < 2 ^ w) : (1 : BitVec w).toNat = 1 := by
  show (BitVec.ofNat w 1).toNat = 1
  rw [BitVec.toNat_ofNat, Nat.mod_eq_of_lt hw]

/-- Going one further. -/
theorem toNat_sub_succ (h : (e - r).toNat + 1 < 2 ^ w) :
    (e + 1 - r).toNat = (e - r).toNat + 1 := by
  rw [show e + 1 - r = e - r + 1 by ring, BitVec.toNat_add, toNat_one (by omega),
    Nat.mod_eq_of_lt h]

/-- A reader that is not level with the writer has one less to read after a step. -/
theorem toNat_sub_pred (h : r ≠ e) : (e - r).toNat = (e - (r + 1)).toNat + 1 := by
  have hne : (e - r).toNat ≠ 0 := by
    intro hzero
    exact h (sub_eq_zero.mp (BitVec.eq_of_toNat_eq hzero : e - r = 0)).symm
  have hlt := (e - r).isLt
  have hprev := (e - (r + 1)).isLt
  have hadd := BitVec.toNat_add (e - (r + 1)) 1
  rw [show e - (r + 1) + 1 = e - r by ring, toNat_one (by omega)] at hadd
  by_cases hmax : (e - (r + 1)).toNat + 1 < 2 ^ w
  · rwa [Nat.mod_eq_of_lt hmax] at hadd
  · rw [show (e - (r + 1)).toNat + 1 = 2 ^ w by omega, Nat.mod_self] at hadd
    exact absurd hadd hne

/-- The writer is a whole ring ahead. -/
theorem eq_add_cap_iff (hcap : cap < 2 ^ w) :
    e = r + BitVec.ofNat w cap ↔ (e - r).toNat = cap := by
  have htoNat : (BitVec.ofNat w cap).toNat = cap := by
    rw [BitVec.toNat_ofNat, Nat.mod_eq_of_lt hcap]
  constructor
  · rintro rfl
    rw [add_sub_cancel_left, htoNat]
  · intro h
    have hsub : e - r = BitVec.ofNat w cap := BitVec.eq_of_toNat_eq (h.trans htoNat.symm)
    rw [← hsub]
    ring

section Dividing

variable (hdvd : cap ∣ 2 ^ w)
include hdvd

theorem cell_eq (k : Nat) : (r + BitVec.ofNat w k).toNat % cap = (r.toNat + k) % cap := by
  rw [BitVec.toNat_add, BitVec.toNat_ofNat, Nat.mod_mod_of_dvd _ hdvd, Nat.add_mod,
    Nat.mod_mod_of_dvd _ hdvd, ← Nat.add_mod]

/-- Fewer than `cap` steps from `r` never come back to the same cell. -/
theorem cell_inj {j k : Nat} (hj : j < cap) (hk : k < cap)
    (h : (r + BitVec.ofNat w j).toNat % cap = (r + BitVec.ofNat w k).toNat % cap) : j = k := by
  rw [cell_eq hdvd, cell_eq hdvd] at h
  have hmod : j ≡ k [MOD cap] := Nat.ModEq.add_left_cancel' r.toNat h
  rwa [Nat.ModEq, Nat.mod_eq_of_lt hj, Nat.mod_eq_of_lt hk] at hmod

/-- Storing into the cell at `e` and going on appends. -/
theorem held_push (hroom : (e - r).toNat < cap) (hlt : (e - r).toNat + 1 < 2 ^ w) (x : α) :
    held (update data (e.toNat % cap) x) cap r (e + 1) = held data cap r e ++ [x] := by
  have hlast : r + BitVec.ofNat w (e - r).toNat = e := by
    rw [BitVec.ofNat_toNat, BitVec.setWidth_eq]
    ring
  unfold held
  rw [toNat_sub_succ hlt, List.range_succ, List.map_append, List.map_singleton, hlast,
    update_self]
  congr 1
  apply List.map_congr_left
  intro k hk
  have hk' := List.mem_range.mp hk
  refine update_of_ne (fun heq => ?_) ..
  rw [← hlast] at heq
  have := cell_inj hdvd (hk'.trans hroom) hroom heq
  omega

end Dividing

/-- Going on from the cell at `r` takes the head off. -/
theorem held_pop (h : r ≠ e) :
    held data cap r e = data (r.toNat % cap) :: held data cap (r + 1) e := by
  unfold held
  rw [toNat_sub_pred h, List.range_succ_eq_map, List.map_cons, List.map_map]
  congr 1
  · show data ((r + 0#w).toNat % cap) = data (r.toNat % cap)
    rw [BitVec.add_zero]
  · apply List.map_congr_left
    intro k _
    show data ((r + BitVec.ofNat w (k + 1)).toNat % cap)
      = data ((r + 1 + BitVec.ofNat w k).toNat % cap)
    rw [BitVec.ofNat_add]
    congr 3
    show r + (BitVec.ofNat w k + 1) = r + 1 + BitVec.ofNat w k
    ring

end Os377.Lib
