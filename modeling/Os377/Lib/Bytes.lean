import Mathlib.Logic.Function.Basic
import Mathlib.Tactic.Ring

/-!
# Byte-addressed memory

A memory gives a byte to every address. Numbers of `n` bytes are stored
little-endian (`getLe`, `putLe`), C's `int` in two's complement (`getInt`,
`putInt`). `slice` copies bytes out of a memory and `splice` copies them back
in. Each operation comes with what it leaves alone.
-/

namespace Os377.Lib

open Function

/-- A byte for every address. -/
abbrev Mem := Nat → UInt8

/-- The little-endian number in the `n` bytes at `a`. -/
def getLe (m : Mem) (a : Nat) : Nat → Nat
  | 0 => 0
  | n + 1 => (m a).toNat + 256 * getLe m (a + 1) n

/-- Store `v` in the `n` bytes at `a`. -/
def putLe (m : Mem) (a : Nat) : Nat → Nat → Mem
  | 0, _ => m
  | n + 1, v => update (putLe m (a + 1) n (v / 256)) a (UInt8.ofNat v)

/-- The `int` at `a`. -/
def getInt (m : Mem) (a : Nat) : Int := (BitVec.ofNat 32 (getLe m a 4)).toInt

/-- Store an `int` at `a`. -/
def putInt (m : Mem) (a : Nat) (v : Int) : Mem := putLe m a 4 (BitVec.ofInt 32 v).toNat

/-- The bytes from `a` on, as a buffer of their own. -/
def slice (m : Mem) (a : Nat) : Mem := fun i => m (a + i)

/-- Overwrite the `n` bytes at `a` with the first `n` bytes of `src`. -/
def splice (m : Mem) (a n : Nat) (src : Mem) : Mem :=
  fun x => if a ≤ x ∧ x < a + n then src (x - a) else m x

variable {m m' src : Mem} {a b n k v x : Nat}

theorem getLe_congr (h : ∀ x, a ≤ x → x < a + n → m x = m' x) : getLe m a n = getLe m' a n := by
  induction n generalizing a with
  | zero => rfl
  | succ n ih =>
      rw [getLe, getLe, h a (by omega) (by omega), ih fun x h1 h2 => h x (by omega) (by omega)]

theorem getInt_congr {w : Mem} (h : ∀ x, a ≤ x → x < a + 4 → m x = w x) :
    getInt m a = getInt w a := by
  rw [getInt, getInt, getLe_congr h]

theorem getLe_lt : getLe m a n < 256 ^ n := by
  induction n generalizing a with
  | zero => simp [getLe]
  | succ n ih =>
      have h1 := (m a).toNat_lt
      have h2 := ih (a := a + 1)
      rw [getLe, pow_succ]
      omega

/-- The low bytes of a number. -/
theorem getLe_mod : getLe m a (n + k) % 256 ^ n = getLe m a n := by
  induction n generalizing a with
  | zero => rw [pow_zero, Nat.mod_one, getLe]
  | succ n ih =>
      have hb := (m a).toNat_lt
      have hlow : ((m a).toNat + 256 * getLe m (a + 1) (n + k)) % 256 = (m a).toNat := by omega
      have hhigh : ((m a).toNat + 256 * getLe m (a + 1) (n + k)) / 256
          = getLe m (a + 1) (n + k) := by omega
      rw [Nat.succ_add_eq_add_succ, Nat.add_succ, getLe, getLe, pow_succ', Nat.mod_mul, hlow,
        hhigh, ih]

theorem putLe_outside (h : x < a ∨ a + n ≤ x) : putLe m a n v x = m x := by
  induction n generalizing a v with
  | zero => rfl
  | succ n ih =>
      rw [putLe, update_of_ne (by omega)]
      exact ih (by omega)

/-- A number read where it was stored. -/
theorem getLe_putLe (h : v < 256 ^ n) : getLe (putLe m a n v) a n = v := by
  induction n generalizing a v with
  | zero =>
      rw [pow_zero] at h
      rw [getLe]
      omega
  | succ n ih =>
      have hrest : getLe (putLe m a (n + 1) v) (a + 1) n
          = getLe (putLe m (a + 1) n (v / 256)) (a + 1) n := by
        apply getLe_congr
        intro x h1 _
        rw [putLe, update_of_ne (by omega)]
      rw [getLe, hrest, ih (by rw [pow_succ] at h; omega), putLe, update_self, UInt8.toNat_ofNat']
      omega

/-- A number read away from where another one was stored. -/
theorem getLe_putLe_of_disjoint (h : b + k ≤ a ∨ a + n ≤ b) :
    getLe (putLe m a n v) b k = getLe m b k := by
  apply getLe_congr
  intro x h1 h2
  exact putLe_outside (by omega)

theorem getLe_zero : getLe (fun _ => 0) a n = 0 := by
  induction n generalizing a with
  | zero => rfl
  | succ n ih =>
      rw [getLe, ih]
      rfl

theorem getInt_zero : getInt (fun _ => 0) a = 0 := by
  rw [getInt, getLe_zero]
  rfl

theorem putInt_outside {i : Int} (h : x < a ∨ a + 4 ≤ x) : putInt m a i x = m x :=
  putLe_outside h

theorem getInt_putInt {i : Int} (h1 : -2 ^ 31 ≤ i) (h2 : i < 2 ^ 31) :
    getInt (putInt m a i) a = i := by
  rw [getInt, putInt, getLe_putLe (BitVec.isLt _), BitVec.ofNat_toNat, BitVec.setWidth_eq,
    BitVec.toInt_ofInt]
  exact Int.bmod_eq_of_le (by omega) (by omega)

theorem getInt_putInt_of_disjoint {i : Int} (h : b + 4 ≤ a ∨ a + 4 ≤ b) :
    getInt (putInt m a i) b = getInt m b := by
  rw [getInt, getInt, putInt, getLe_putLe_of_disjoint h]

/-- An `int` below 256 is its first byte. -/
theorem getInt_byte (h0 : 0 ≤ getInt m a) (h : getInt m a < 256) :
    getInt m a = (m a).toNat := by
  have h1 := (m a).toNat_lt
  have hlt : getLe m a 4 < 2 ^ 32 := getLe_lt
  have hle : getLe m a 4 = (m a).toNat + 256 * getLe m (a + 1) 3 := rfl
  rw [getInt, BitVec.toInt_eq_toNat_cond, BitVec.toNat_ofNat, Nat.mod_eq_of_lt hlt] at *
  split at * <;> omega

theorem getInt_slice : getInt (slice m a) b = getInt m (a + b) := by
  simp only [getInt, getLe, slice, Nat.add_assoc]

theorem splice_inside (h1 : a ≤ x) (h2 : x < a + n) : splice m a n src x = src (x - a) :=
  if_pos ⟨h1, h2⟩

theorem splice_outside (h : x < a ∨ a + n ≤ x) : splice m a n src x = m x :=
  if_neg (by omega)

theorem getInt_splice_inside (h1 : a ≤ b) (h2 : b + 4 ≤ a + n) :
    getInt (splice m a n src) b = getInt src (b - a) := by
  have hslice : getInt src (b - a) = getInt (fun x => src (x - a)) b := by
    simp only [getInt, getLe]
    have e1 : b + 1 - a = b - a + 1 := by omega
    have e2 : b + 1 + 1 - a = b - a + 1 + 1 := by omega
    have e3 : b + 1 + 1 + 1 - a = b - a + 1 + 1 + 1 := by omega
    rw [e1, e2, e3]
  rw [hslice]
  apply getInt_congr
  intro x h3 h4
  exact splice_inside (by omega) (by omega)

-- From here on numbers are read and stored through the lemmas above.
attribute [irreducible] getLe putLe

end Os377.Lib
