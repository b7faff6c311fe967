import Os377.Lib.Bytes

/-!
# Bitmaps in memory

Bit `i` of a bitmap is bit `i % 8` of its byte `i / 8`. It is tested, set and cleared
with a mask, as C code does it, and each of the two stores changes that one bit.
-/

namespace Os377.Lib

open Function

/-- `1 << (i % 8)` -/
def mask (i : Nat) : UInt8 := 1 <<< UInt8.ofNat (i % 8)

def bit (m : Mem) (i : Nat) : Bool := m (i / 8) &&& mask i != 0

def setBit (m : Mem) (i : Nat) : Mem := update m (i / 8) (m (i / 8) ||| mask i)

def clearBit (m : Mem) (i : Nat) : Mem := update m (i / 8) (m (i / 8) &&& ~~~mask i)

variable {m : Mem} {i j : Nat}

theorem mask_toBitVec (i : Nat) : (mask i).toBitVec = BitVec.twoPow 8 (i % 8) := by
  have hlt : i % 8 < 8 := Nat.mod_lt i (by omega)
  unfold mask
  generalize i % 8 = k at hlt ⊢
  match k, hlt with
  | 0, _ | 1, _ | 2, _ | 3, _ | 4, _ | 5, _ | 6, _ | 7, _ => rfl

/-- The test with the mask reads the one bit. -/
theorem bit_eq_getLsbD (m : Mem) (i : Nat) : bit m i = (m (i / 8)).toBitVec.getLsbD (i % 8) := by
  have hlt : i % 8 < 8 := Nat.mod_lt i (by omega)
  have hzero : ∀ x : UInt8, (x != 0) = (x.toBitVec != 0#8) := by
    intro x
    rw [bne, bne, Bool.not_inj_iff, Bool.eq_iff_iff, beq_iff_eq, beq_iff_eq]
    exact ⟨fun h => by rw [h]; rfl, fun h => UInt8.toBitVec_inj.mp h⟩
  rw [bit, hzero, UInt8.toBitVec_and, mask_toBitVec, BitVec.and_twoPow]
  split
  · next h =>
      rw [h, bne_iff_ne]
      intro h0
      have hbit := congrArg (BitVec.getLsbD · (i % 8)) h0
      simp [hlt] at hbit
  · next h =>
      rw [Bool.not_eq_true] at h
      rw [h]
      rfl

theorem bit_setBit : bit (setBit m i) j = (decide (j = i) || bit m j) := by
  rw [bit_eq_getLsbD, bit_eq_getLsbD, setBit]
  by_cases hb : j / 8 = i / 8
  · have hlt : i % 8 < 8 := Nat.mod_lt i (by omega)
    have heq : i % 8 = j % 8 ↔ j = i := by omega
    rw [hb, update_self, UInt8.toBitVec_or, mask_toBitVec, BitVec.getLsbD_or,
      BitVec.getLsbD_twoPow, decide_eq_true hlt, Bool.true_and, Bool.or_comm,
      decide_eq_decide.mpr heq]
  · have hne : j ≠ i := fun h => hb (by rw [h])
    rw [update_of_ne hb, decide_eq_false hne, Bool.false_or]

theorem bit_clearBit : bit (clearBit m i) j = (!decide (j = i) && bit m j) := by
  rw [bit_eq_getLsbD, bit_eq_getLsbD, clearBit]
  by_cases hb : j / 8 = i / 8
  · have hi : i % 8 < 8 := Nat.mod_lt i (by omega)
    have hj : j % 8 < 8 := Nat.mod_lt j (by omega)
    have heq : i % 8 = j % 8 ↔ j = i := by omega
    rw [hb, update_self, UInt8.toBitVec_and, UInt8.toBitVec_not, mask_toBitVec,
      BitVec.getLsbD_and, BitVec.getLsbD_not, BitVec.getLsbD_twoPow, decide_eq_true hi,
      decide_eq_true hj, Bool.true_and, Bool.true_and, Bool.and_comm, decide_eq_decide.mpr heq]
  · have hne : j ≠ i := fun h => hb (by rw [h])
    rw [update_of_ne hb, decide_eq_false hne, Bool.not_false, Bool.true_and]

end Os377.Lib
