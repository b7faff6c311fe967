import Os377.Lib.InputStream
import Os377.NoLock.Pushes
import Mathlib.Data.Finset.Card

/-!
# The size after concurrent pushes

`count.exchange(count + 1)` loads `count` and stores it in two steps. A store
that does not find what its `push` has loaded takes back the pushes stored in
between, and no later store makes up for them: from then on the count, and
whatever a thread has loaded of it, stays below the number of pushes stored.

* `Unchanged` — the store finds what was loaded;
* `size_iff` — the size is right exactly if all stores do.
-/

namespace Os377.NoLock

open Os377.Lib Function

variable {s s' s0 : State} {t : Nat} {a : Act} {acts : List Act} {lost lost' : Prop}
  {busy : Finset Nat} {ideal : Int}

/-- `size()`; there is none if the count has left the `int`s. -/
def size (s : State) : Option Int := if IsInt s.count then some s.count else none

/-- A call of `push`. -/
def Act.isPush : Act → Bool
  | .push _ _ _ => true
  | _ => false

/-- A store of `count` by `push` finds the value the `push` has loaded. -/
def Pc.Unchanged (s : State) : Pc → Prop
  | .pushStore count => s.count = count
  | _ => True

def Unchanged (s : State) : Act → Prop
  | .step t => (s.pc t).Unchanged s
  | _ => True

instance (s : State) : (pc : Pc) → Decidable (pc.Unchanged s)
  | .pushStore _ => inferInstanceAs (Decidable (_ = _))
  | .idle | .pushNext _ | .pushExchange _ | .pushCount | .popNext _ | .popExchange _ _ | .popCount
  | .popStore _ => inferInstanceAs (Decidable True)

instance (s : State) : (a : Act) → Decidable (Unchanged s a)
  | .step t => inferInstanceAs (Decidable ((s.pc t).Unchanged s))
  | .push _ _ _ | .pop _ | .spurious _ => inferInstanceAs (Decidable True)

/-- The threads at work are `busy`, and `ideal` is what the count would be had
no push been `lost`. -/
structure Tally (lost : Prop) (s : State) (busy : Finset Nat) (ideal : Int) : Prop where
  popping : ∀ t, (s.pc t).popping = false
  busy : ∀ t, t ∈ busy ↔ s.pc t ≠ .idle
  loaded : ∀ t c, s.pc t = .pushStore c → c ≤ ideal ∧ (lost → c < ideal)
  kept : ¬ lost → s.count = ideal
  behind : lost → s.count < ideal

namespace Tally

variable (h : Tally lost s busy ideal)
include h

theorem congr (hiff : lost ↔ lost') : Tally lost' s busy ideal := propext hiff ▸ h

theorem count_le : s.count ≤ ideal := by
  by_cases hl : lost
  · exact le_of_lt (h.behind hl)
  · exact le_of_eq (h.kept hl)

/-- A thread at work goes on with its call. -/
theorem move {pc : Pc} (ht : s.pc t ≠ .idle) (hpc : pc ≠ .idle) (hpop : pc.popping = false)
    (hloaded : ∀ c, pc = .pushStore c → c = s.count) : Tally lost (s.setPc t pc) busy ideal := by
  refine { h with popping := popping_setPc h.popping hpop t, busy := ?_, loaded := ?_ }
  · intro t'
    rcases setPc_cases s t pc t' with ⟨-, he⟩ | ⟨htt, he⟩
    · rw [he]
      exact h.busy t'
    · rw [he, h.busy t', htt]
      exact iff_of_true ht hpc
  · intro t' c hc
    rcases setPc_cases s t pc t' with ⟨-, he⟩ | ⟨-, he⟩
    · exact h.loaded t' c (he ▸ hc)
    · rw [hloaded c (he.symm.trans hc)]
      exact ⟨h.count_le, h.behind⟩

/-- `push` begins. -/
theorem call (pc : Pc) (ht : s.pc t = .idle) (hpc : pc ≠ .idle) (hpop : pc.popping = false)
    (hloaded : ∀ c, pc ≠ .pushStore c) :
    Tally lost (s.setPc t pc) (insert t busy) ideal ∧
      (insert t busy).card = busy.card + 1 := by
  have hnot : t ∉ busy := fun hmem => (h.busy t).mp hmem ht
  refine ⟨?_, Finset.card_insert_of_notMem hnot⟩
  refine { h with popping := popping_setPc h.popping hpop t, busy := ?_, loaded := ?_ }
  · intro t'
    rw [Finset.mem_insert]
    rcases setPc_cases s t pc t' with ⟨hne, he⟩ | ⟨htt, he⟩
    · rw [he, h.busy t']
      exact or_iff_right hne
    · rw [he]
      exact iff_of_true (Or.inl htt) hpc
  · intro t' c hc
    rcases setPc_cases s t pc t' with ⟨-, he⟩ | ⟨-, he⟩
    · exact h.loaded t' c (he ▸ hc)
    · exact absurd (he.symm.trans hc) (hloaded c)

/-- The count is stored, and the call is over. -/
theorem store {count : Int} (ht : s.pc t = .pushStore count) :
    Tally (lost ∨ s.count ≠ count) ({ s with count := count + 1 }.setPc t .idle)
        (busy.erase t) (ideal + 1) ∧
      (busy.erase t).card + 1 = busy.card := by
  have hmem : t ∈ busy := by
    rw [h.busy t, ht]
    exact Pc.noConfusion
  obtain ⟨hle, hlt⟩ := h.loaded t count ht
  have hpc := setPc_cases { s with count := count + 1 } t .idle
  refine ⟨⟨popping_setPc (s := { s with count := count + 1 }) h.popping rfl t, fun t' => ?_,
    fun t' c hc => ?_, fun hkept => ?_, fun hlost => ?_⟩, Finset.card_erase_add_one hmem⟩
  · rw [Finset.mem_erase]
    rcases hpc t' with ⟨hne, he⟩ | ⟨htt, he⟩
    · rw [he]
      exact (and_iff_right hne).trans (h.busy t')
    · rw [he]
      exact iff_of_false (fun hand => hand.1 htt) (fun hne => hne rfl)
  · rcases hpc t' with ⟨-, he⟩ | ⟨-, he⟩
    · have hc' : s.pc t' = .pushStore c := he.symm.trans hc
      obtain ⟨hle', -⟩ := h.loaded t' c hc'
      exact ⟨by omega, fun _ => by omega⟩
    · rw [he] at hc
      cases hc
  · -- nothing was lost, so the store finds the number of pushes stored
    have hcount := h.kept fun hl => hkept (Or.inl hl)
    have hsame : s.count = count := by
      by_contra hne
      exact hkept (Or.inr hne)
    show count + 1 = ideal + 1
    omega
  · show count + 1 < ideal + 1
    by_cases hl : lost
    · have := hlt hl
      omega
    · have hcount := h.kept hl
      have hne := hlost.resolve_left hl
      omega

/-- One step while no `pop` runs. -/
theorem step (ha : a.isPop = false) (hn : next s a = some s') :
    ∃ busy' ideal', Tally (lost ∨ ¬ Unchanged s a) s' busy' ideal' ∧
      ideal' + busy'.card = ideal + busy.card + a.isPush.toNat := by
  -- all steps but the store find what they need
  have hpass : ∀ {b s'' busy' ideal'}, Unchanged s b → Tally lost s'' busy' ideal' →
      Tally (lost ∨ ¬ Unchanged s b) s'' busy' ideal' := by
    intro b s'' busy' ideal' hu h'
    exact h'.congr ⟨Or.inl, fun hor => hor.resolve_right fun hnot => hnot hu⟩
  cases pushStep_of_next h.popping ha hn with
  | @call t data newnode ht h0 halloc =>
      have halloc : Tally lost (s.alloc newnode data) busy ideal := { h with }
      obtain ⟨hnew, hcard⟩ := halloc.call (t := t) (.pushNext newnode) ht
        Pc.noConfusion rfl fun _ => Pc.noConfusion
      refine ⟨_, _, hpass trivial hnew, ?_⟩
      rw [hcard]
      show ideal + ((busy.card + 1 : Nat) : Int) = ideal + busy.card + 1
      omega
  | @load t newnode ht =>
      have hset : Tally lost (s.setNext newnode s.head) busy ideal := { h with }
      refine ⟨busy, ideal, hpass (by simp [Unchanged, Pc.Unchanged, ht]) ?_, by simp [Act.isPush]⟩
      exact hset.move (t := t) (by simp [State.setNext, ht]) Pc.noConfusion rfl
        fun _ he => Pc.noConfusion he
  | @link t newnode ht hhead =>
      have hlink : Tally lost (s.link newnode) busy ideal := { h with }
      refine ⟨busy, ideal, hpass (by simp [Unchanged, Pc.Unchanged, ht]) ?_, by simp [Act.isPush]⟩
      exact hlink.move (t := t) (by simp [State.link, ht]) Pc.noConfusion rfl
        fun _ he => Pc.noConfusion he
  | @retry t newnode ht hhead =>
      refine ⟨busy, ideal, hpass (by simp [Unchanged, Pc.Unchanged, ht]) { h with }, ?_⟩
      simp [Act.isPush]
  | spurious ht =>
      exact ⟨busy, ideal, hpass trivial { h with }, by simp [Act.isPush]⟩
  | @count t ht =>
      refine ⟨busy, ideal, hpass (by simp [Unchanged, Pc.Unchanged, ht]) ?_, by simp [Act.isPush]⟩
      exact h.move (by simp [ht]) Pc.noConfusion rfl fun c he => (Pc.pushStore.inj he).symm
  | @store t count ht =>
      obtain ⟨hnew, hcard⟩ := h.store ht
      have hiff : (lost ∨ s.count ≠ count) ↔ (lost ∨ ¬ Unchanged s (.step t)) := by
        rw [Unchanged, ht]
        rfl
      refine ⟨_, _, hnew.congr hiff, ?_⟩
      simp only [Act.isPush, Bool.toNat_false]
      omega

/-- A run without `pop`. -/
theorem run (hpop : ∀ a ∈ acts, a.isPop = false) (hrun : system.run s acts = some s') :
    ∃ busy' ideal', Tally (lost ∨ system.runChecked Unchanged s acts = none) s' busy' ideal' ∧
      ideal' + busy'.card = ideal + busy.card + acts.countP Act.isPush := by
  induction acts generalizing s busy ideal lost with
  | nil =>
      rw [TSys.run, Option.some.injEq] at hrun
      subst hrun
      exact ⟨busy, ideal, h.congr (by simp [TSys.runChecked]), by simp⟩
  | cons a acts ih =>
      obtain ⟨s1, hn, hrun⟩ := Option.bind_eq_some_iff.mp hrun
      obtain ⟨busy1, ideal1, h1, hsum1⟩ := h.step (hpop a List.mem_cons_self) hn
      obtain ⟨busy2, ideal2, h2, hsum2⟩ :=
        ih h1 (fun b hb => hpop b (List.mem_cons_of_mem _ hb)) hrun
      refine ⟨busy2, ideal2, h2.congr ?_, ?_⟩
      · rw [TSys.runChecked, hn]
        by_cases hu : Unchanged s a
        · simp [hu]
        · simp [hu]
      · rw [List.countP_cons]
        cases hpush : a.isPush with
        | true =>
            rw [hpush, Bool.toNat_true] at hsum1
            rw [if_pos rfl]
            omega
        | false =>
            rw [hpush, Bool.toNat_false] at hsum1
            rw [if_neg Bool.false_ne_true]
            omega

end Tally

/-- **The size after concurrent pushes.** In a run without `pop` that begins and
ends with all threads outside, the size has grown by the number of pushes
exactly if every store of `count` finds the value that its push has loaded, and
the sum is an `int`. -/
theorem size_iff {s0 s : State} {acts : List Act} (hstart : Quiescent s0)
    (hpop : ∀ a ∈ acts, a.isPop = false) (hrun : system.run s0 acts = some s)
    (hend : Quiescent s) :
    size s = some (s0.count + acts.countP Act.isPush) ↔
      system.runChecked Unchanged s0 acts = some s ∧
        IsInt (s0.count + acts.countP Act.isPush) := by
  have h0 : Tally False s0 ∅ s0.count := by
    refine ⟨fun t => ?_, fun t => ?_, fun t c ht => ?_, fun _ => rfl, False.elim⟩
    · rw [hstart t]
      rfl
    · exact iff_of_false (Finset.notMem_empty t) fun hne => hne (hstart t)
    · rw [hstart t] at ht
      cases ht
  obtain ⟨busy, ideal, h, hsum⟩ := h0.run hpop hrun
  have hbusy : busy = ∅ := by
    apply Finset.eq_empty_of_forall_notMem
    intro t ht
    exact (h.busy t).mp ht (hend t)
  have hideal : ideal = s0.count + acts.countP Act.isPush := by
    rw [hbusy, Finset.card_empty] at hsum
    omega
  rw [← hideal]
  cases hcheck : system.runChecked Unchanged s0 acts with
  | none =>
      have hbehind := h.behind (Or.inr hcheck)
      constructor
      · intro hsize
        rw [size, Option.ite_none_right_eq_some, Option.some.injEq] at hsize
        omega
      · intro hand
        cases hand.1
  | some s1 =>
      have hkept : s.count = ideal := h.kept (by simp [hcheck])
      have hsame : s1 = s := by
        have hrun1 := TSys.run_of_runChecked hcheck
        rw [hrun] at hrun1
        exact (Option.some.inj hrun1).symm
      rw [hsame, size, hkept, Option.ite_none_right_eq_some]
      exact ⟨fun hand => ⟨rfl, hand.1⟩, fun hand => ⟨hand.2, rfl⟩⟩

/-- Two threads that take turns at the head, but not at the count. -/
theorem size_iff_two : ∃ s, size s = some 2 := by
  have hcheck : (system.runChecked Unchanged empty
      ([.push 0 7 1, .step 0] ++ pushCall 1 8 2 ++ List.replicate 4 (.step 0))).any
      (fun s => decide (s.pc 0 = .idle ∧ s.pc 1 = .idle)) = true := by
    decide +kernel
  obtain ⟨s, hs, hview⟩ := (Option.any_eq_true _ _).mp hcheck
  obtain ⟨h0, h1⟩ := of_decide_eq_true hview
  have hrun := TSys.run_of_runChecked hs
  have hquiet := quiescent_of_run (by decide) hrun h0 h1
  exact ⟨s, (size_iff (fun _ => rfl) (by decide) hrun hquiet).mpr ⟨hs, by decide⟩⟩

/-- Both load 0 and both store 1: one push of two is counted. -/
theorem push_not_counted :
    ∃ acts s, (∀ a ∈ acts, a.isPop = false) ∧ system.run empty acts = some s ∧ Quiescent s ∧
      size s = some 1 ∧ size s ≠ some (empty.count + acts.countP Act.isPush) := by
  have hrun : (system.run empty ([.push 0 7 1, .step 0, .step 0, .step 0, .push 1 8 2] ++
      List.replicate 4 (.step 1) ++ [.step 0])).any
      (fun s => decide (size s = some 1 ∧ s.pc 0 = .idle ∧ s.pc 1 = .idle)) = true := by
    decide +kernel
  obtain ⟨s, hs, hview⟩ := (Option.any_eq_true _ _).mp hrun
  obtain ⟨hsize, h0, h1⟩ := of_decide_eq_true hview
  refine ⟨_, s, by decide, hs, quiescent_of_run (by decide) hs h0 h1, hsize, ?_⟩
  rw [hsize]
  decide

end Os377.NoLock
