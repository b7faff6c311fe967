import Os377.Lib.Bytes
import Mathlib.Data.List.GetD

/-!
# C strings in memory

A C string is a list of bytes without NUL; in memory it is followed by one.
The comparisons of `<string.h>` are only ever tested against `0` here, so the
model says whether they return `0`.
-/

namespace Os377.Lib

/-- The bytes of a C string before its NUL. -/
structure CString where
  bytes : List UInt8
  nulFree : 0 ∉ bytes

/-- `strcmp(m + a, s) == 0`: the comparison stops at the first difference. -/
def strcmpEq (m : Mem) (a : Nat) : List UInt8 → Bool
  | [] => m a == 0
  | c :: s => m a == c && strcmpEq m (a + 1) s

/-- `strncmp(m + a, s, n) == 0`. -/
def strncmpEq (m : Mem) (a : Nat) : Nat → List UInt8 → Bool
  | 0, _ => true
  | _ + 1, [] => m a == 0
  | n + 1, c :: s => m a == c && strncmpEq m (a + 1) n s

/-- `strncpy(m + a, s, n)`: at most `n` bytes, padded with NULs. -/
def strncpy (m : Mem) (a n : Nat) (s : List UInt8) : Mem :=
  splice m a n fun i => s.getD i 0

variable {m : Mem} {a n : Nat} {s s' : List UInt8}

/-- The bytes at `a` spell `s`, with its NUL. -/
def Spells (m : Mem) (a : Nat) (s : List UInt8) : Prop :=
  ∀ i ≤ s.length, m (a + i) = s.getD i 0

theorem spells_nil : Spells m a [] ↔ m a = 0 := by
  simp [Spells]

theorem spells_cons {c : UInt8} : Spells m a (c :: s) ↔ m a = c ∧ Spells m (a + 1) s := by
  constructor
  · intro h
    refine ⟨by simpa using h 0 (by simp), fun i hi => ?_⟩
    have := h (i + 1) (by simpa using hi)
    rw [List.getD_cons_succ] at this
    rw [← this, Nat.add_right_comm, Nat.add_assoc]
  · rintro ⟨hc, hs⟩ i hi
    cases i with
    | zero => simpa using hc
    | succ i =>
        rw [List.getD_cons_succ, ← hs i (by simpa using hi), Nat.add_right_comm, Nat.add_assoc]

theorem strcmpEq_iff : strcmpEq m a s = true ↔ Spells m a s := by
  induction s generalizing a with
  | nil => rw [strcmpEq, spells_nil, beq_iff_eq]
  | cons c s ih => rw [strcmpEq, Bool.and_eq_true, beq_iff_eq, ih, spells_cons]

/-- `strncmp` compares up to the NUL of `s`, but at most `n` bytes. -/
theorem strncmpEq_iff_forall :
    strncmpEq m a n s = true ↔ ∀ i < n, i ≤ s.length → m (a + i) = s.getD i 0 := by
  induction s generalizing a n with
  | nil =>
      cases n with
      | zero => simp [strncmpEq]
      | succ n =>
          rw [strncmpEq, beq_iff_eq]
          refine ⟨fun h i _ hi => ?_, fun h => by simpa using h 0 (by omega) (by simp)⟩
          obtain rfl : i = 0 := by simpa using hi
          simpa using h
  | cons c s ih =>
      cases n with
      | zero => simp [strncmpEq]
      | succ n =>
          rw [strncmpEq, Bool.and_eq_true, beq_iff_eq, ih]
          constructor
          · rintro ⟨hc, hs⟩ i hi hlen
            cases i with
            | zero => simpa using hc
            | succ i =>
                rw [List.getD_cons_succ, ← hs i (by omega) (by simpa using hlen),
                  Nat.add_right_comm, Nat.add_assoc]
          · intro h
            refine ⟨by simpa using h 0 (by omega) (by simp), fun i hi hlen => ?_⟩
            have := h (i + 1) (by omega) (by simpa using hlen)
            rw [List.getD_cons_succ] at this
            rw [← this, Nat.add_right_comm, Nat.add_assoc]

/-- On a string shorter than the bound `strncmp` is `strcmp`. -/
theorem strncmpEq_iff (h : s.length < n) : strncmpEq m a n s = true ↔ Spells m a s := by
  rw [strncmpEq_iff_forall]
  exact ⟨fun hs i hi => hs i (by omega) hi, fun hs i _ hi => hs i hi⟩

theorem CString.getD_eq_zero (f : CString) {i : Nat} :
    f.bytes.getD i 0 = 0 ↔ f.bytes.length ≤ i := by
  constructor
  · intro h
    by_contra hlt
    rw [List.getD_eq_getElem _ _ (by omega)] at h
    exact f.nulFree (h ▸ List.getElem_mem _)
  · exact List.getD_eq_default _ _

/-- Strings of at most `n` bytes that agree up to the NUL of one of them are
the same. -/
theorem CString.eq_of_getD {f g : CString} (hf : f.bytes.length ≤ n) (hg : g.bytes.length ≤ n)
    (h : ∀ i < n, i ≤ f.bytes.length → g.bytes.getD i 0 = f.bytes.getD i 0) :
    g.bytes = f.bytes := by
  have hlen : g.bytes.length = f.bytes.length := by
    apply le_antisymm
    · by_contra hlt
      have := h f.bytes.length (by omega) (le_refl _)
      rw [f.getD_eq_zero.mpr (le_refl _), g.getD_eq_zero] at this
      omega
    · by_contra hlt
      have := h g.bytes.length (by omega) (by omega)
      rw [g.getD_eq_zero.mpr (le_refl _), eq_comm, f.getD_eq_zero] at this
      omega
  apply List.ext_getElem hlen
  intro i h1 h2
  have := h i (by omega) (by omega)
  rwa [List.getD_eq_getElem _ _ h1, List.getD_eq_getElem _ _ h2] at this

/-- A memory spells at most one string at an address. -/
theorem Spells.unique {f g : CString} (hf : Spells m a f.bytes) (hg : Spells m a g.bytes) :
    f.bytes = g.bytes := by
  obtain ⟨s, hs⟩ := f
  obtain ⟨s', hs'⟩ := g
  simp only at hf hg ⊢
  induction s generalizing a s' with
  | nil =>
      cases s' with
      | nil => rfl
      | cons c s' =>
          rw [spells_nil] at hf
          rw [spells_cons, hf] at hg
          exact absurd (List.mem_cons.mpr (Or.inl hg.1)) hs'
  | cons c s ih =>
      rw [spells_cons] at hf
      cases s' with
      | nil =>
          rw [spells_nil, hf.1] at hg
          exact absurd (List.mem_cons.mpr (Or.inl hg.symm)) hs
      | cons c' s' =>
          rw [spells_cons] at hg
          rw [← hf.1, ← hg.1]
          simp only [List.mem_cons, not_or] at hs hs'
          rw [ih hs.2 hf.2 s' hs'.2 hg.2]

theorem Spells.congr {m' : Mem} (h : Spells m a s) (heq : ∀ i ≤ s.length, m' (a + i) = m (a + i)) :
    Spells m' a s := by
  intro i hi
  rw [heq i hi, h i hi]

end Os377.Lib
