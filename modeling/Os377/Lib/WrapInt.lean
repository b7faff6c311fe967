import Mathlib.Algebra.Group.Nat.Defs
import Mathlib.Algebra.Ring.Int.Defs

/-!
# Machine integers

The `int` of the compiled programs: 32 bits that wrap around. A program on these
agrees with its counterpart on the integers as long as nothing leaves the range.
-/

namespace Os377.Lib

/-- What an `int` holds after it was given `n`. -/
@[irreducible] def wrap (n : Int) : Int := n.bmod (2 ^ 32)

theorem wrap_eq_self {n : Int} (h1 : -2 ^ 31 ≤ n) (h2 : n < 2 ^ 31) : wrap n = n := by
  unfold wrap
  exact Int.bmod_eq_of_le (by omega) (by omega)

/-- A count that is in range. -/
theorem wrap_natCast {n : Nat} (h : n < 2 ^ 31) : wrap n = n :=
  wrap_eq_self (by omega) (by omega)

@[simp] theorem wrap_zero : wrap 0 = 0 := wrap_eq_self (by omega) (by omega)

/-- An `int` converted to `size_t`, 64 bits wide. -/
def toSize (n : Int) : Nat := (n % 2 ^ 64).toNat

theorem toSize_natCast {n : Nat} (h : n < 2 ^ 64) : toSize n = n := by
  unfold toSize
  omega

end Os377.Lib
