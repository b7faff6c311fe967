import Os377.ProdCon.Numbering

/-!
# The numbers of the threads

The creating loops hand every thread the address of their own counter, and the thread
reads it in its first step. It finds its own number there as long as the loop has not
gone on; behind the increment it finds the next one, and behind the loop a variable that
is gone.
-/

namespace Os377.ProdCon

open Os377.Lib Function

namespace Program

variable {p c : Nat}

/-- A thread that has read its number has read its own; one that has not has been created
in this round of the loop. -/
structure Labelled (s : Program p c) : Prop where
  prodPid : ∀ i, s.prod i ≠ .unborn → s.prod i ≠ .start → s.prodPid i = i
  consPid : ∀ j, s.cons j ≠ .unborn → s.cons j ≠ .start → s.consPid j = j
  prodStart : ∀ i, s.prod i = .start → s.main = .incP i
  consStart : ∀ j, s.cons j = .start → s.main = .incC j

/-- Every producer and consumer that has read its number has read its own. -/
def OwnNumbers (s : Program p c) : Prop :=
  (∀ i, s.prod i ≠ .unborn → s.prod i ≠ .start → s.prodPid i = i) ∧
    ∀ j, s.cons j ≠ .unborn → s.cons j ≠ .start → s.consPid j = j

/-- The step is no increment of a counter whose thread has still to read it. -/
def ReadsFirst (s : Program p c) : Act p c → Prop
  | .main => (∀ i : Fin p, s.main = .incP i → s.prod i ≠ .start) ∧
      ∀ j : Fin c, s.main = .incC j → s.cons j ≠ .start
  | _ => True

section Steps

variable {s s' : Program p c} {i : Fin p} {j : Fin c} {a : Act p c}

theorem Labelled.ownNumbers (h : Labelled s) : OwnNumbers s :=
  ⟨h.prodPid, h.consPid⟩

/-- A step of `main` meets nobody who has still to read. -/
theorem Labelled.all_read (h : Labelled s) (hreads : ReadsFirst s .main) :
    (∀ i, s.prod i ≠ .start) ∧ ∀ j, s.cons j ≠ .start :=
  ⟨fun i hi => hreads.1 i (h.prodStart i hi) hi, fun j hj => hreads.2 j (h.consStart j hj) hj⟩

/-- A step that changes neither the positions nor the numbers. -/
theorem Labelled.same (h : Labelled s) (hmain : s'.main = s.main) (hprod : s'.prod = s.prod)
    (hcons : s'.cons = s.cons) (hprodPid : s'.prodPid = s.prodPid)
    (hconsPid : s'.consPid = s.consPid) : Labelled s' where
  prodPid := by
    rw [hprod, hprodPid]
    exact h.prodPid
  consPid := by
    rw [hcons, hconsPid]
    exact h.consPid
  prodStart := by
    rw [hprod, hmain]
    exact h.prodStart
  consStart := by
    rw [hcons, hmain]
    exact h.consStart

/-- Producer `i` goes to `b`; if it had not read its number it reads it now. -/
theorem Labelled.prod {b : ProdPc} {n : Fin p → Int} (h : Labelled s)
    (hborn : s.prod i ≠ .unborn) (hb : b ≠ .start)
    (hn : n = if s.prod i = .start then update s.prodPid i (i : Int) else s.prodPid)
    (hmain : s'.main = s.main) (hprod : s'.prod = update s.prod i b) (hcons : s'.cons = s.cons)
    (hprodPid : s'.prodPid = n) (hconsPid : s'.consPid = s.consPid) : Labelled s' where
  prodPid := by
    intro k hk hk'
    rw [hprodPid, hn]
    rw [hprod] at hk hk'
    by_cases hki : k = i
    · subst hki
      split
      · rw [update_self]
      · next hne => exact h.prodPid k hborn hne
    · rw [update_of_ne hki] at hk hk'
      split
      · rw [update_of_ne hki]
        exact h.prodPid k hk hk'
      · exact h.prodPid k hk hk'
  consPid := by
    rw [hcons, hconsPid]
    exact h.consPid
  prodStart := by
    intro k hk
    rw [hprod] at hk
    rw [hmain]
    by_cases hki : k = i
    · subst hki
      rw [update_self] at hk
      exact absurd hk hb
    · rw [update_of_ne hki] at hk
      exact h.prodStart k hk
  consStart := by
    rw [hcons, hmain]
    exact h.consStart

/-- The same for consumer `j`. -/
theorem Labelled.cons {b : ConsPc} {n : Fin c → Int} (h : Labelled s)
    (hborn : s.cons j ≠ .unborn) (hb : b ≠ .start)
    (hn : n = if s.cons j = .start then update s.consPid j (j : Int) else s.consPid)
    (hmain : s'.main = s.main) (hprod : s'.prod = s.prod) (hcons : s'.cons = update s.cons j b)
    (hprodPid : s'.prodPid = s.prodPid) (hconsPid : s'.consPid = n) : Labelled s' where
  prodPid := by
    rw [hprod, hprodPid]
    exact h.prodPid
  consPid := by
    intro k hk hk'
    rw [hconsPid, hn]
    rw [hcons] at hk hk'
    by_cases hkj : k = j
    · subst hkj
      split
      · rw [update_self]
      · next hne => exact h.consPid k hborn hne
    · rw [update_of_ne hkj] at hk hk'
      split
      · rw [update_of_ne hkj]
        exact h.consPid k hk hk'
      · exact h.consPid k hk hk'
  prodStart := by
    rw [hprod, hmain]
    exact h.prodStart
  consStart := by
    intro k hk
    rw [hcons] at hk
    rw [hmain]
    by_cases hkj : k = j
    · subst hkj
      rw [update_self] at hk
      exact absurd hk hb
    · rw [update_of_ne hkj] at hk
      exact h.consStart k hk

/-- `main` creates a producer when everybody has read. -/
theorem Labelled.createP (h : Labelled s) (hprod : ∀ k, s.prod k ≠ .start)
    (hcons : ∀ k, s.cons k ≠ .start) :
    Labelled { s with prod := update s.prod i .start, main := .incP i } where
  prodPid := by
    intro k hk hk'
    have hki : k ≠ i := by
      rintro rfl
      exact hk' (update_self ..)
    simp only [update_of_ne hki] at hk hk'
    exact h.prodPid k hk hk'
  consPid := h.consPid
  prodStart := by
    intro k hk
    by_cases hki : k = i
    · rw [hki]
    · simp only [update_of_ne hki] at hk
      exact absurd hk (hprod k)
  consStart := fun k hk => absurd hk (hcons k)

/-- `main` creates a consumer when everybody has read. -/
theorem Labelled.createC (h : Labelled s) (hprod : ∀ k, s.prod k ≠ .start)
    (hcons : ∀ k, s.cons k ≠ .start) :
    Labelled { s with cons := update s.cons j .start, main := .incC j } where
  prodPid := h.prodPid
  consPid := by
    intro k hk hk'
    have hkj : k ≠ j := by
      rintro rfl
      exact hk' (update_self ..)
    simp only [update_of_ne hkj] at hk hk'
    exact h.consPid k hk hk'
  prodStart := fun k hk => absurd hk (hprod k)
  consStart := by
    intro k hk
    by_cases hkj : k = j
    · rw [hkj]
    · simp only [update_of_ne hkj] at hk
      exact absurd hk (hcons k)

/-- A step that increments no counter too early keeps the numbers right. -/
theorem Labelled.step (h : Labelled s) (hreads : ReadsFirst s a) (hn : next s a = some s') :
    Labelled s' := by
  cases step_of_next hn with
  | main _ _ =>
      obtain ⟨hprod, hcons⟩ := h.all_read hreads
      exact ⟨h.prodPid, h.consPid, fun k hk => absurd hk (hprod k),
        fun k hk => absurd hk (hcons k)⟩
  | createP _ =>
      obtain ⟨hprod, hcons⟩ := h.all_read hreads
      exact h.createP hprod hcons
  | createC _ =>
      obtain ⟨hprod, hcons⟩ := h.all_read hreads
      exact h.createC hprod hcons
  | @prodStart i v _ n hpc =>
      have hread : n = update s.prodPid i (i : Int) := by
        simp only [next, prodNext, hpc, h.prodStart i hpc] at hn
        exact (congrArg Program.prodPid (Option.some.inj hn)).symm
      refine h.prod (by rw [hpc]; simp) (by simp) ?_ rfl rfl rfl rfl rfl
      rw [if_pos hpc]
      exact hread
  | prodLock hpc _ | prodFull hpc _ | prodRoom hpc _ | prodSetDone hpc | prodExit hpc
  | prodIncr hpc | prodUnlock hpc | prodCall hpc _ | prodAppends hpc _ _ | prodLog hpc =>
      refine h.prod (by rw [hpc]; simp) (by simp) ?_ rfl rfl rfl rfl rfl
      rw [if_neg (by rw [hpc]; simp)]
  | @consStart j v _ n hpc =>
      have hread : n = update s.consPid j (j : Int) := by
        simp only [next, consNext, hpc, h.consStart j hpc] at hn
        exact (congrArg Program.consPid (Option.some.inj hn)).symm
      refine h.cons (by rw [hpc]; simp) (by simp) ?_ rfl rfl rfl rfl rfl
      rw [if_pos hpc]
      exact hread
  | consLock hpc _ | consEmpty hpc _ | consNonempty hpc _ | consQuit hpc _ | consStay hpc _
  | consExit hpc | consCall hpc _ | consRemoves hpc _ _ | consUnlock hpc | consLog hpc =>
      refine h.cons (by rw [hpc]; simp) (by simp) ?_ rfl rfl rfl rfl rfl
      rw [if_neg (by rw [hpc]; simp)]
  | prodWaits | consWaits | spurious => exact h.same rfl rfl rfl rfl rfl

/-- Behind an early increment the thread reads the next number. -/
theorem reads_next (hlate : ¬ ReadsFirst s a) : ∃ b t u, next s a = some t ∧
    next t b = some u ∧ ¬ OwnNumbers u := by
  cases a with
  | main =>
      simp only [ReadsFirst, not_and_or, not_forall, not_not] at hlate
      rcases hlate with ⟨i, hmain, hpc⟩ | ⟨j, hmain, hpc⟩
      · refine ⟨.prod i 0 fun _ => false, _, _, by simp only [next, mainNext, hmain]; rfl,
          by simp only [next, prodNext, hpc]; rfl, fun hown => ?_⟩
        have hread := hown.1 i
        simp [MainPc.i] at hread
      · refine ⟨.cons j 0 fun _ => false, _, _, by simp only [next, mainNext, hmain]; rfl,
          by simp only [next, consNext, hpc]; rfl, fun hown => ?_⟩
        have hread := hown.2 j
        simp [MainPc.j] at hread
  | prod | cons | spurious => exact absurd trivial hlate

end Steps

/-- **Where every worker learns its own number.** It does in every run in which a creating
loop increments its counter only when the thread it created in this round has read it;
from an increment that comes earlier, one more step has that thread read the next
number. -/
theorem own_numbers (p c : Nat) (items produced : Int) (done : Bool) :
    (callFrom p c items produced done).InvariantUnder ReadsFirst OwnNumbers ∧
      ∀ (s : Program p c) (a : Act p c), ¬ ReadsFirst s a → ∃ b t,
        (callFrom p c items produced done).run s [a, b] = some t ∧ ¬ OwnNumbers t := by
  constructor
  · have hlabelled : (callFrom p c items produced done).Inductive ReadsFirst Labelled := by
      refine ⟨?_, fun s a s' h hreads hn => h.step hreads hn⟩
      rintro s ⟨mem, rfl⟩
      refine ⟨fun i hi => absurd rfl hi, fun j hj => absurd rfl hj, fun i hi => ?_, fun j hj => ?_⟩
      · cases hi
      · cases hj
    exact fun s hs => (hlabelled.invariantUnder s hs).ownNumbers
  · intro s a hlate
    obtain ⟨b, t, u, ht, hu, hown⟩ := reads_next hlate
    refine ⟨b, u, ?_, hown⟩
    show (next s a).bind (fun s' => (next s' b).bind some) = some u
    rw [ht, Option.bind_some, hu, Option.bind_some]

/-- One producer, created and then overtaken by the increment: its number is 1. -/
theorem overtaken_reads_one : ¬ (callFrom 1 1 1 0 false).Invariant OwnNumbers := by
  intro hinv
  have h0 : (callFrom 1 1 1 0 false).Reachable (start 1 1 1 0 false fun _ => 0) :=
    .init ⟨fun _ => 0, rfl⟩
  obtain ⟨s, hs, hpc, hread⟩ : ∃ s, (callFrom 1 1 1 0 false).run (start 1 1 1 0 false fun _ => 0)
      [.main, .main, .prod 0 0 fun _ => false] = some s ∧ s.prod 0 = .lock ∧ s.prodPid 0 = 1 :=
    ⟨_, rfl, rfl, rfl⟩
  have hown := (hinv s (h0.run hs)).1 0 (by rw [hpc]; simp) (by rw [hpc]; simp)
  rw [hread] at hown
  exact absurd hown (by decide)

end Program

end Os377.ProdCon
