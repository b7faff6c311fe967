import Mathlib.Data.Option.Basic

/-!
# Labelled transition systems

The programs of this repository are modelled as machines with an executable
`next`: the label names who moves and resolves every nondeterministic choice
(which thread runs, which waiter a signal wakes, which block the allocator
hands out), so a schedule is a list of labels and a run can be evaluated.

* `Reachable` / `Invariant` — what holds in every state of every run;
* `ReachableUnder C` / `InvariantUnder C` — the same over the runs all of
  whose steps meet a condition `C` on the state before the step;
* `Inductive` — the induction rule, proved once: an invariant holds at the
  start and is kept by one step.
-/

namespace Os377.Lib

universe u v

/-- A machine over states `σ` whose moves are the labels `α`; `next` is `none`
where the move is not enabled. -/
structure TSys (σ : Type u) (α : Type v) where
  init : σ → Prop
  next : σ → α → Option σ

namespace TSys

variable {σ : Type u} {α : Type v} (M : TSys σ α)

/-- Execute a schedule; `none` once a label is not enabled. -/
def run : σ → List α → Option σ
  | s, [] => some s
  | s, a :: rest => (M.next s a).bind fun s' => run s' rest

/-- Execute a schedule, checking `C` before each step. -/
def runChecked (C : σ → α → Prop) [∀ s a, Decidable (C s a)] : σ → List α → Option σ
  | s, [] => some s
  | s, a :: rest =>
      if C s a then (M.next s a).bind fun s' => runChecked C s' rest else none

/-- States of the runs all of whose steps meet `C`. -/
inductive ReachableUnder (C : σ → α → Prop) : σ → Prop
  | init {s} : M.init s → ReachableUnder C s
  | step {s a s'} : ReachableUnder C s → C s a → M.next s a = some s' →
      ReachableUnder C s'

/-- `s'` is reached from `s` by steps that all meet `C`. -/
inductive PathUnder (C : σ → α → Prop) (s : σ) : σ → Prop
  | refl : PathUnder C s s
  | step {s' a s''} : PathUnder C s s' → C s' a → M.next s' a = some s'' → PathUnder C s s''

/-- States of all runs. -/
def Reachable (s : σ) : Prop := M.ReachableUnder (fun _ _ => True) s

/-- `P` holds in every state of every run whose steps all meet `C`. -/
def InvariantUnder (C : σ → α → Prop) (P : σ → Prop) : Prop :=
  ∀ s, M.ReachableUnder C s → P s

/-- `P` holds in every reachable state. -/
def Invariant (P : σ → Prop) : Prop := ∀ s, M.Reachable s → P s

/-- The two obligations of an inductive invariant. -/
structure Inductive (C : σ → α → Prop) (P : σ → Prop) : Prop where
  init : ∀ s, M.init s → P s
  step : ∀ s a s', P s → C s a → M.next s a = some s' → P s'

variable {M} {C : σ → α → Prop} {P : σ → Prop}

/-- Induction over runs. -/
theorem Inductive.invariantUnder (h : M.Inductive C P) : M.InvariantUnder C P := by
  intro s hs
  induction hs with
  | init h0 => exact h.init _ h0
  | step _ hc hn ih => exact h.step _ _ _ ih hc hn

theorem Inductive.invariant (h : M.Inductive (fun _ _ => True) P) : M.Invariant P :=
  h.invariantUnder

/-- Induction over conditioned runs on top of an invariant `I` of all runs. -/
theorem Invariant.stepUnder {I : σ → Prop} (hI : M.Invariant I) (h0 : ∀ s, M.init s → P s)
    (hstep : ∀ s a s', I s → P s → C s a → M.next s a = some s' → P s') :
    M.InvariantUnder C P := by
  intro s hs
  have hboth : M.Reachable s ∧ P s := by
    induction hs with
    | init hi => exact ⟨.init hi, h0 _ hi⟩
    | step _ hc hn ih => exact ⟨.step ih.1 trivial hn, hstep _ _ _ (hI _ ih.1) ih.2 hc hn⟩
  exact hboth.2

/-- Paths compose. -/
theorem PathUnder.trans {s t u : σ} (hst : M.PathUnder C s t) (htu : M.PathUnder C t u) :
    M.PathUnder C s u := by
  induction htu with
  | refl => exact hst
  | step _ hc hn ih => exact ih.step hc hn

/-- A conditioned run goes on along a path whose steps meet more. -/
theorem ReachableUnder.path {C' : σ → α → Prop} {s s' : σ} (hs : M.ReachableUnder C s)
    (hC : ∀ t a, C' t a → C t a) (hp : M.PathUnder C' s s') : M.ReachableUnder C s' := by
  induction hp with
  | refl => exact hs
  | step _ hc hn ih => exact ih.step (hC _ _ hc) hn

/-- Where every state short of the goal `G` has a path that lowers the measure, the goal stays
within reach. -/
theorem PathUnder.of_measure {I G : σ → Prop} (μ : σ → Nat)
    (hprogress : ∀ s, I s → ¬ G s → ∃ t, M.PathUnder C s t ∧ I t ∧ μ t < μ s) {s : σ} (hs : I s) :
    ∃ t, M.PathUnder C s t ∧ I t ∧ G t := by
  induction hn : μ s using Nat.strongRecOn generalizing s with
  | ind n ih =>
      subst hn
      by_cases hG : G s
      · exact ⟨s, .refl, hs, hG⟩
      · obtain ⟨t, hst, ht, hlt⟩ := hprogress s hs hG
        obtain ⟨u, htu, hu, hGu⟩ := ih _ hlt ht rfl
        exact ⟨u, hst.trans htu, hu, hGu⟩

/-- A step of a reachable state is reachable. -/
theorem Reachable.step {s s' : σ} {a : α} (hs : M.Reachable s)
    (hn : M.next s a = some s') : M.Reachable s' :=
  ReachableUnder.step hs trivial hn

/-- Executing a schedule from a reachable state stays reachable. -/
theorem Reachable.run {s s' : σ} {acts : List α} (hs : M.Reachable s)
    (hr : M.run s acts = some s') : M.Reachable s' := by
  induction acts generalizing s with
  | nil =>
      simp only [TSys.run, Option.some.injEq] at hr
      exact hr ▸ hs
  | cons a rest ih =>
      simp only [TSys.run, Option.bind_eq_some_iff] at hr
      obtain ⟨t, hn, hr⟩ := hr
      exact ih (hs.step hn) hr

/-- Executing a checked schedule stays within the conditioned runs. -/
theorem ReachableUnder.runChecked [∀ s a, Decidable (C s a)] {s s' : σ} {acts : List α}
    (hs : M.ReachableUnder C s) (hr : M.runChecked C s acts = some s') :
    M.ReachableUnder C s' := by
  induction acts generalizing s with
  | nil =>
      simp only [TSys.runChecked, Option.some.injEq] at hr
      exact hr ▸ hs
  | cons a rest ih =>
      rw [TSys.runChecked] at hr
      split at hr
      · next hc =>
          obtain ⟨t, hn, hr⟩ := Option.bind_eq_some_iff.mp hr
          exact ih (hs.step hc hn) hr
      · simp at hr

/-- A schedule leads to a state with `P`. -/
theorem exists_of_run [DecidablePred P] (s : σ) (acts : List α) (h0 : M.init s)
    (hr : (M.run s acts).any (fun t => decide (P t)) = true) : ∃ t, M.Reachable t ∧ P t := by
  obtain ⟨t, ht, hp⟩ := (Option.any_eq_true _ _).mp hr
  exact ⟨t, Reachable.run (ReachableUnder.init h0) ht, of_decide_eq_true hp⟩

/-- A checked schedule leads to a state with `P`. -/
theorem exists_of_runChecked [∀ s a, Decidable (C s a)] [DecidablePred P] (s : σ)
    (acts : List α) (h0 : M.init s)
    (hr : (M.runChecked C s acts).any (fun t => decide (P t)) = true) :
    ∃ t, M.ReachableUnder C t ∧ P t := by
  obtain ⟨t, ht, hp⟩ := (Option.any_eq_true _ _).mp hr
  exact ⟨t, (ReachableUnder.init h0).runChecked ht, of_decide_eq_true hp⟩

/-- A checked schedule runs unchecked. -/
theorem run_of_runChecked [∀ s a, Decidable (C s a)] {s s' : σ} {acts : List α}
    (hr : M.runChecked C s acts = some s') : M.run s acts = some s' := by
  induction acts generalizing s with
  | nil => exact hr
  | cons a rest ih =>
      rw [TSys.runChecked] at hr
      split at hr
      · obtain ⟨t, hn, hr⟩ := Option.bind_eq_some_iff.mp hr
        exact Option.bind_eq_some_iff.mpr ⟨t, hn, ih hr⟩
      · simp at hr

/-- A schedule that ends in a state violating `P` refutes the invariant. -/
theorem not_invariant_of_run [DecidablePred P] (s : σ) (acts : List α) (h0 : M.init s)
    (hr : (M.run s acts).any (fun t => !decide (P t)) = true) : ¬ M.Invariant P := by
  intro hinv
  rw [Option.any_eq_true] at hr
  obtain ⟨t, ht, hp⟩ := hr
  have : P t := hinv t (Reachable.run (ReachableUnder.init h0) ht)
  simp [this] at hp

/-- The machine with a history variable, which every step may update and none reads. -/
def record {γ : Type v} (M : TSys σ α) (g : γ) (note : σ → α → γ → γ) : TSys (σ × γ) α where
  init x := M.init x.1 ∧ x.2 = g
  next x a := (M.next x.1 a).map fun s' => (s', note x.1 a x.2)

/-- The history variable does not stand in the way of any run. -/
theorem Reachable.record {γ : Type v} {s : σ} (hs : M.Reachable s) (g : γ)
    (note : σ → α → γ → γ) : ∃ h, (M.record g note).Reachable (s, h) := by
  induction hs with
  | init h0 => exact ⟨g, .init ⟨h0, rfl⟩⟩
  | @step s a s' _ _ hn ih =>
      obtain ⟨h, hs⟩ := ih
      refine ⟨note s a h, Reachable.step hs (a := a) ?_⟩
      show (M.next s a).map _ = _
      rw [hn]
      rfl

/-- Every conditioned run is a run. -/
theorem ReachableUnder.reachable {s : σ} (hs : M.ReachableUnder C s) : M.Reachable s := by
  induction hs with
  | init h0 => exact .init h0
  | step _ _ hn ih => exact ih.step hn

end TSys

end Os377.Lib
