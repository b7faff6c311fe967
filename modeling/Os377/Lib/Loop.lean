import Mathlib.Data.Option.Basic
import Mathlib.Order.Nat

/-!
# Loops that end with a `break`

`while (1) { body }` where `body` returns either the next state or the value
the loop is left with. `loop` runs at most `fuel` iterations, `iterate` gives
the state after exactly `k` of them.

* `loop_total`, `loop_total_from` — total correctness: the invariant carries a
  bound on the iterations that remain;
* `loop_endless` — an invariant under which the loop never ends;
* `Ends` — the loop ends, in one step of the argument after the other;
* `loop_lockstep`, `loop_map` — two loops that run side by side.
-/

namespace Os377.Lib

universe u v

variable {σ : Type u} {ρ : Type v} (body : σ → σ ⊕ ρ)

/-- Run the loop; `none` when `fuel` iterations are not enough. -/
def loop : Nat → σ → Option ρ
  | 0, _ => none
  | fuel + 1, s =>
      match body s with
      | .inl s' => loop fuel s'
      | .inr r => some r

/-- The state after `k` iterations, if the loop is still running. -/
def iterate : Nat → σ → Option σ
  | 0, s => some s
  | k + 1, s => (iterate k s).bind fun s' => (body s').getLeft?

variable {body}

theorem iterate_succ {k : Nat} {s t t' : σ} (hk : iterate body k s = some t)
    (hb : body t = .inl t') : iterate body (k + 1) s = some t' := by
  rw [iterate, hk, Option.bind_some, hb]
  rfl

/-- A loop that has ended does not go on. -/
theorem iterate_none {k m : Nat} {s : σ} (hk : iterate body k s = none) (hm : k ≤ m) :
    iterate body m s = none := by
  induction m, hm using Nat.le_induction with
  | base => exact hk
  | succ m _ ih =>
      rw [iterate, ih]
      rfl

/-- No state after the iteration that leaves the loop. -/
theorem iterate_end {k m : Nat} {s t : σ} {r : ρ} (hk : iterate body k s = some t)
    (hb : body t = .inr r) (hm : k < m) : iterate body m s = none := by
  refine iterate_none (k := k + 1) ?_ hm
  rw [iterate, hk, Option.bind_some, hb]
  rfl

/-- The first `k` iterations can be left out. -/
theorem loop_iterate {k fuel : Nat} {s t : σ} (hk : iterate body k s = some t) :
    loop body (k + fuel) s = loop body fuel t := by
  induction k generalizing t fuel with
  | zero =>
      obtain rfl := Option.some.inj hk
      rw [Nat.zero_add]
  | succ k ih =>
      obtain ⟨u, hu, hstep⟩ := Option.bind_eq_some_iff.mp hk
      rw [Nat.add_right_comm, Nat.add_assoc, ih hu, loop]
      cases hb : body u with
      | inl u' =>
          rw [hb] at hstep
          obtain rfl := Option.some.inj hstep
          rfl
      | inr r => rw [hb] at hstep; cases hstep

/-- Total correctness, with a post-condition that may speak about the state
the loop starts from: each iteration lowers the bound and hands the
post-condition of the next state back, or leaves the loop with a good value. -/
theorem loop_total_from {I : Nat → σ → Prop} {Q : σ → ρ → Prop}
    (hbody : ∀ n s, I n s →
      (∃ s' m, body s = .inl s' ∧ m < n ∧ I m s' ∧ ∀ r, Q s' r → Q s r) ∨
      (∃ r, body s = .inr r ∧ Q s r))
    {n : Nat} {s : σ} (hs : I n s) :
    ∃ r, Q s r ∧ ∀ fuel, n < fuel → loop body fuel s = some r := by
  induction n using Nat.strongRecOn generalizing s with
  | ind n ih =>
      rcases hbody n s hs with ⟨s', m, hb, hm, hs', hback⟩ | ⟨r, hb, hr⟩
      · obtain ⟨r, hr, hrun⟩ := ih m hm hs'
        refine ⟨r, hback r hr, fun fuel hfuel => ?_⟩
        obtain ⟨fuel, rfl⟩ : ∃ k, fuel = k + 1 := ⟨fuel - 1, by omega⟩
        rw [loop, hb]
        exact hrun fuel (by omega)
      · refine ⟨r, hr, fun fuel hfuel => ?_⟩
        obtain ⟨fuel, rfl⟩ : ∃ k, fuel = k + 1 := ⟨fuel - 1, by omega⟩
        rw [loop, hb]

/-- Total correctness: from a state that satisfies the invariant with bound
`n`, each iteration lowers the bound or leaves the loop with a good value. -/
theorem loop_total {I : Nat → σ → Prop} {Q : ρ → Prop}
    (hbody : ∀ n s, I n s →
      (∃ s' m, body s = .inl s' ∧ m < n ∧ I m s') ∨ (∃ r, body s = .inr r ∧ Q r))
    {n : Nat} {s : σ} (hs : I n s) :
    ∃ r, Q r ∧ ∀ fuel, n < fuel → loop body fuel s = some r := by
  refine loop_total_from (Q := fun _ => Q) (fun n s hs => ?_) hs
  rcases hbody n s hs with ⟨s', m, hb, hm, hs'⟩ | hend
  · exact Or.inl ⟨s', m, hb, hm, hs', fun _ hr => hr⟩
  · exact Or.inr hend

/-- More fuel does not change the value. -/
theorem loop_mono {fuel more : Nat} {s : σ} {r : ρ} (hrun : loop body fuel s = some r)
    (hle : fuel ≤ more) : loop body more s = some r := by
  induction fuel generalizing more s with
  | zero => cases hrun
  | succ fuel ih =>
      obtain ⟨more, rfl⟩ : ∃ k, more = k + 1 := ⟨more - 1, by omega⟩
      rw [loop] at hrun ⊢
      cases hb : body s with
      | inl s' =>
          rw [hb] at hrun
          exact ih hrun (Nat.le_of_succ_le_succ hle)
      | inr q =>
          rw [hb] at hrun
          exact hrun

/-- A loop whose iterations all go on never ends. -/
theorem loop_endless {I : σ → Prop} (hbody : ∀ s, I s → ∃ s', body s = .inl s' ∧ I s')
    (fuel : Nat) {s : σ} (hs : I s) : loop body fuel s = none := by
  induction fuel generalizing s with
  | zero => rfl
  | succ fuel ih =>
      obtain ⟨s', hb, hs'⟩ := hbody s hs
      rw [loop, hb]
      exact ih hs'

/-- The loop that starts in `s` is left with `r`. -/
def Ends (body : σ → σ ⊕ ρ) (s : σ) (r : ρ) : Prop := ∃ fuel, loop body fuel s = some r

theorem Ends.stop {s : σ} {r : ρ} (hb : body s = .inr r) : Ends body s r :=
  ⟨1, by rw [loop, hb]⟩

/-- An iteration that goes on changes nothing about the end. -/
theorem ends_step {s s' : σ} {r : ρ} (hb : body s = .inl s') : Ends body s r ↔ Ends body s' r := by
  constructor
  · rintro ⟨fuel, hrun⟩
    cases fuel with
    | zero => cases hrun
    | succ fuel =>
        rw [loop, hb] at hrun
        exact ⟨fuel, hrun⟩
  · rintro ⟨fuel, hrun⟩
    exact ⟨fuel + 1, by rw [loop, hb]; exact hrun⟩

/-- An invariant under which every iteration goes on. -/
theorem not_ends {I : σ → Prop} (hbody : ∀ s, I s → ∃ s', body s = .inl s' ∧ I s') {s : σ}
    (hs : I s) (r : ρ) : ¬ Ends body s r := by
  rintro ⟨fuel, hrun⟩
  rw [loop_endless hbody fuel hs] at hrun
  cases hrun

/-- From some amount of fuel on, more does not matter. -/
theorem Ends.enough {s : σ} {r : ρ} (h : Ends body s r) :
    ∃ n, ∀ fuel, n ≤ fuel → loop body fuel s = some r := by
  obtain ⟨n, hrun⟩ := h
  exact ⟨n, fun fuel hle => loop_mono hrun hle⟩

/-- Two loops in lockstep: related states go on to related states, or leave
their loops with related values. -/
theorem loop_lockstep {τ : Type u} {ρ' : Type v} {g : τ → τ ⊕ ρ'} {R : σ → τ → Prop}
    {S : ρ → ρ' → Prop}
    (hbody : ∀ s t, R s t →
      (∃ s' t', body s = .inl s' ∧ g t = .inl t' ∧ R s' t') ∨
      (∃ r r', body s = .inr r ∧ g t = .inr r' ∧ S r r'))
    {fuel : Nat} {s : σ} {t : τ} (h : R s t) {r : ρ} (hrun : loop body fuel s = some r) :
    ∃ r', loop g fuel t = some r' ∧ S r r' := by
  induction fuel generalizing s t with
  | zero => cases hrun
  | succ fuel ih =>
      rw [loop] at hrun ⊢
      rcases hbody s t h with ⟨s', t', hb, hb', h'⟩ | ⟨q, q', hb, hb', hq⟩
      · rw [hb] at hrun
        rw [hb']
        exact ih h' hrun
      · rw [hb] at hrun
        rw [hb']
        exact ⟨q', rfl, Option.some.inj hrun ▸ hq⟩

/-- Two loops with the same value, the second one on the image of the first one's states. -/
theorem loop_map {τ : Type u} {g : τ → τ ⊕ ρ} {P : σ → Prop} {w : σ → τ}
    (hbody : ∀ s, P s →
      (∃ s', body s = .inl s' ∧ g (w s) = .inl (w s') ∧ P s') ∨
      (∃ r, body s = .inr r ∧ g (w s) = .inr r))
    {fuel : Nat} {s : σ} (h : P s) {r : ρ} (hrun : loop body fuel s = some r) :
    loop g fuel (w s) = some r := by
  have hstep : ∀ s t, P s ∧ t = w s →
      (∃ s' t', body s = .inl s' ∧ g t = .inl t' ∧ P s' ∧ t' = w s') ∨
      (∃ r r', body s = .inr r ∧ g t = .inr r' ∧ r = r') := by
    rintro s _ ⟨hs, rfl⟩
    rcases hbody s hs with ⟨s', hb, hb', hs'⟩ | ⟨r, hb, hb'⟩
    · exact .inl ⟨s', _, hb, hb', hs', rfl⟩
    · exact .inr ⟨r, r, hb, hb', rfl⟩
  obtain ⟨_, hrun', rfl⟩ := loop_lockstep hstep ⟨h, rfl⟩ hrun
  exact hrun'

end Os377.Lib
