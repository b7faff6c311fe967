import Os377.Lib.TSys
import Mathlib.Data.Fintype.Basic
import Mathlib.Logic.Function.Basic

/-!
# Transactions made of whole operations

What a log with group commit is for. Parties run operations, an operation writes
values to addresses, and a commit makes everything written so far survive a crash;
it happens only while no operation is running. A crash ends the running operations
and forgets what was written since the last commit.

The state is its own history: `kept` are the writes that survive a crash, `recent`
those since the last commit, each with the number of the operation that made it, so
that `kept_whole` can say that no operation is ever kept in part.
-/

namespace Os377.Lib

open Function

universe u

variable {P A V : Type u} [DecidableEq P] [Fintype P] [DecidableEq A]

/-- A write of the operation number `op`. -/
structure Update (A V : Type u) where
  op : Nat
  addr : A
  val : V

/-- The contents after the writes of a list, in order. -/
def replay (base : A → V) (ws : List (Update A V)) : A → V :=
  ws.foldl (fun f w => update f w.addr w.val) base

section Replay

variable {base : A → V} {ws ws' : List (Update A V)} {w : Update A V} {a : A}

@[simp] theorem replay_nil : replay base ([] : List (Update A V)) = base := rfl

theorem replay_append : replay base (ws ++ ws') = replay (replay base ws) ws' :=
  List.foldl_append

theorem replay_concat : replay base (ws ++ [w]) = update (replay base ws) w.addr w.val :=
  replay_append

end Replay

namespace Transactions

/-- The running operation of every party, the number of the next one, and the writes. -/
structure State (P A V : Type u) where
  running : P → Option Nat
  serial : Nat
  kept : List (Update A V)
  recent : List (Update A V)

inductive Event (P A V : Type u) where
  | start (p : P)
  | write (p : P) (a : A) (v : V)
  | finish (p : P)
  | commit
  | crash

def fresh : State P A V := { running := fun _ => none, serial := 0, kept := [], recent := [] }

def next (t : State P A V) : Event P A V → Option (State P A V)
  | .start p =>
      if t.running p = none then
        some { t with running := update t.running p (some t.serial), serial := t.serial + 1 }
      else none
  | .write p a v => (t.running p).map fun op => { t with recent := t.recent ++ [⟨op, a, v⟩] }
  | .finish p =>
      if t.running p = none then none
      else some { t with running := update t.running p none }
  | .commit =>
      if ∀ p, t.running p = none then
        some { t with kept := t.kept ++ t.recent, recent := [] }
      else none
  | .crash => some { t with running := fun _ => none, recent := [] }

/-- The machine that a transaction log has to look like. -/
def machine : TSys (State P A V) (Event P A V) where
  init t := t = fresh
  next := next

/-- Every operation is kept whole or not at all: what is kept belongs to operations
that have ended and of which nothing is still to be committed. -/
structure Whole (t : State P A V) : Prop where
  ended : ∀ w ∈ t.kept, ∀ p, t.running p ≠ some w.op
  apart : ∀ w ∈ t.kept, ∀ w' ∈ t.recent, w.op ≠ w'.op
  kept_old : ∀ w ∈ t.kept, w.op < t.serial
  recent_old : ∀ w ∈ t.recent, w.op < t.serial
  running_old : ∀ p op, t.running p = some op → op < t.serial

omit [DecidableEq A] in
theorem Whole.step {t t' : State P A V} {e : Event P A V} (h : Whole t)
    (hn : next t e = some t') : Whole t' := by
  cases e with
  | start p =>
      simp only [next, Option.ite_none_right_eq_some, Option.some.injEq] at hn
      obtain ⟨-, rfl⟩ := hn
      have hrun : ∀ q op, update t.running p (some t.serial) q = some op →
          op = t.serial ∨ t.running q = some op := by
        intro q op hq
        by_cases hqp : q = p
        · subst hqp
          rw [update_self] at hq
          exact Or.inl (Option.some.inj hq).symm
        · rw [update_of_ne hqp] at hq
          exact Or.inr hq
      refine ⟨?_, h.apart, fun w hw => Nat.lt_succ_of_lt (h.kept_old w hw),
        fun w hw => Nat.lt_succ_of_lt (h.recent_old w hw), ?_⟩
      · intro w hw q hq
        rcases hrun q w.op hq with heq | hq
        · exact absurd (h.kept_old w hw) (by omega)
        · exact h.ended w hw q hq
      · intro q op hq
        show op < t.serial + 1
        rcases hrun q op hq with heq | hq
        · omega
        · exact Nat.lt_succ_of_lt (h.running_old q op hq)
  | write p a v =>
      simp only [next, Option.map_eq_some_iff] at hn
      obtain ⟨op, hop, rfl⟩ := hn
      refine ⟨h.ended, ?_, h.kept_old, ?_, h.running_old⟩
      · intro w hw w' hw'
        rcases List.mem_append.mp hw' with hw' | hw'
        · exact h.apart w hw w' hw'
        · obtain rfl := List.mem_singleton.mp hw'
          intro heq
          exact h.ended w hw p (heq ▸ hop)
      · intro w hw
        rcases List.mem_append.mp hw with hw | hw
        · exact h.recent_old w hw
        · obtain rfl := List.mem_singleton.mp hw
          exact h.running_old p op hop
  | finish p =>
      simp only [next, Option.ite_none_left_eq_some, Option.some.injEq] at hn
      obtain ⟨-, rfl⟩ := hn
      have hrun : ∀ q op, update t.running p none q = some op → t.running q = some op := by
        intro q op hq
        by_cases hqp : q = p
        · subst hqp
          simp at hq
        · rwa [update_of_ne hqp] at hq
      exact ⟨fun w hw q hq => h.ended w hw q (hrun q w.op hq), h.apart, h.kept_old, h.recent_old,
        fun q op hq => h.running_old q op (hrun q op hq)⟩
  | commit =>
      simp only [next, Option.ite_none_right_eq_some, Option.some.injEq] at hn
      obtain ⟨hidle, rfl⟩ := hn
      refine ⟨?_, by simp, ?_, by simp, h.running_old⟩
      · intro w _ p hp
        exact absurd (hidle p) (hp ▸ by simp)
      · intro w hw
        rcases List.mem_append.mp hw with hw | hw
        · exact h.kept_old w hw
        · exact h.recent_old w hw
  | crash =>
      obtain rfl := Option.some.inj hn
      exact ⟨by simp, by simp, h.kept_old, by simp, by simp⟩

omit [DecidableEq A] in
/-- **No operation is kept in part**, in any run. -/
theorem kept_whole : (machine (P := P) (A := A) (V := V)).Invariant Whole := by
  refine TSys.Inductive.invariant ⟨?_, fun _ _ _ h _ hn => h.step hn⟩
  rintro t rfl
  exact ⟨by simp [fresh], by simp [fresh], by simp [fresh], by simp [fresh], by simp [fresh]⟩

end Transactions

end Os377.Lib
