import Os377.Sched.Dispatched
import Os377.Sched.StcfCorrect

/-!
# Which workloads end

`fifo` and `sjf` free the processor when `time` is equal to `timeend`, and look
for the first time a tick after the start; `stcf` completes a process when its
`duration` is equal to 0, and looks after it has taken one off. A process that
takes no time is past both tests when they are made for the first time: it keeps
the processor, and the loop never ends. On all other workloads the three loops
end.
-/

namespace Os377.Sched

open Os377.Lib

/-- The loop reaches its `break`. -/
def Ends {ρ : Type} (run : Nat → Option ρ) : Prop := ∃ fuel, (run fuel).isSome = true

/-- A process as `read_workload` makes it of two numbers that are not negative. -/
structure Process.Read (p : Process) : Prop where
  arrival : 0 ≤ p.arrival
  duration : 0 ≤ p.duration
  firstRun : p.firstRun = -1

instance (p : Process) : Decidable p.Read :=
  decidable_of_iff (0 ≤ p.arrival ∧ 0 ≤ p.duration ∧ p.firstRun = -1)
    ⟨fun h => ⟨h.1, h.2.1, h.2.2⟩, fun h => ⟨h.arrival, h.duration, h.firstRun⟩⟩

theorem Process.Read.fresh {p : Process} (h : p.Read) (hzero : p.duration ≠ 0) : p.Fresh := by
  have hnonneg := h.duration
  exact ⟨h.arrival, by omega, h.firstRun⟩

/-- A list cannot be left without a process that is on it and was not taken. -/
theorem mem_rest {α : Type} {m rest : Multiset α} {a b : α} (hm : m = a ::ₘ rest) (hb : b ∈ m)
    (hne : b ≠ a) : b ∈ rest := by
  rw [hm] at hb
  exact (Multiset.mem_cons.mp hb).resolve_left hne

namespace Nonpreemptive

variable {A : PqueueArrival} {L : WaitingLine Process} {s : State A L}

/-- The test of the running process has been missed, or a process is left that
will miss it. -/
def Doomed (s : State A L) : Prop :=
  (s.idle = false ∧ s.timeend < s.time) ∨ ∃ p ∈ s.left, p.duration = 0

theorem Doomed.iteration (h : Doomed s) : ∃ s', s.body = .inl s' ∧ Doomed s' := by
  obtain ⟨htime, htimeend, -, hworkload, harrived⟩ := tick_fields (s := s)
  rcases h with ⟨hbusy, hpast⟩ | ⟨p, hp, hzero⟩
  · -- `time` only moves away from `timeend`
    refine ⟨_, body_of_left (fun hidle => ?_), Or.inl ⟨?_, ?_⟩⟩
    · rw [hbusy] at hidle
      cases hidle
    all_goals
      have htick : s.tick = s := by
        rw [State.tick, hbusy, if_neg Bool.false_ne_true, if_neg (by omega)]
      have hstay : s.admitArrived.dispatch = s.admitArrived := by
        refine if_neg ?_
        show ¬ s.idle = true
        simp [hbusy]
      rw [htick, hstay]
    · exact hbusy
    · show s.timeend < s.time + 1
      omega
  · have hleft : s.tick.admitArrived.left = s.left := by
      rw [admitArrived_left, State.left, hworkload, harrived, State.left]
    refine ⟨_, body_of_left (fun _ hnone => ?_), ?_⟩
    · rw [hnone] at hp
      exact Multiset.notMem_zero p hp
    · have hstays : s.tick.admitArrived.dispatch = s.tick.admitArrived →
          Doomed { s.tick.admitArrived.dispatch with time := s.time + 1 } := by
        intro hstay
        rw [hstay]
        exact Or.inr ⟨p, hleft.symm ▸ hp, hzero⟩
      cases hidle : s.tick.admitArrived.idle with
      | false => exact hstays (if_neg (by simp [hidle]))
      | true =>
          cases hfront : L.front s.tick.admitArrived.arrived with
          | none =>
              refine hstays ?_
              rw [State.dispatch, if_pos hidle, hfront]
          | some q =>
              have hitems := L.items_of_front _ _ hfront
              have hsplit : s.left = q ::ₘ (A.items s.tick.admitArrived.workload +
                  L.items (L.pop s.tick.admitArrived.arrived)) := by
                rw [← hleft, State.left, hitems, Multiset.add_cons]
              simp only [State.dispatch, hidle, if_true, hfront]
              by_cases hq : q.duration = 0
              · -- it ends when it starts
                refine Or.inl ⟨rfl, ?_⟩
                show s.tick.time + q.duration < s.time + 1
                omega
              · refine Or.inr ⟨p, mem_rest hsplit hp ?_, hzero⟩
                rintro rfl
                exact hq hzero

end Nonpreemptive

namespace Stcf

variable {A : PqueueArrival} {D : PqueueDuration} {t : State A D}

/-- The processes that wait. -/
def State.left (t : State A D) : Multiset Process := A.items t.workload + D.items t.arrived

/-- The test of the running process has been missed, and nobody needs less time;
or a process is left that will miss it. -/
structure Doomed (t : State A D) : Prop where
  nonneg : ∀ p ∈ t.left, 0 ≤ p.duration
  missed : (t.idle = false ∧ t.ongoing.duration ≤ 0) ∨
    ((t.idle = false → 1 ≤ t.ongoing.duration) ∧ ∃ p ∈ t.left, p.duration = 0)

theorem tick_left : t.tick.left = t.left := by
  rw [State.tick]
  split_ifs with hidle
  · rfl
  · dsimp only
    split_ifs <;> rfl

theorem admitArrived_left : t.admitArrived.left = t.left := by
  obtain ⟨moved, hpush, hitems, -⟩ :=
    admitAll_ordered (fun p => decide (t.time ≥ p.arrival)) D.push t.workload t.arrived (by
      intro a _ b _ hab hb
      rw [decide_eq_true_eq] at hb ⊢
      omega)
  show A.items (admitAll _ D.push t.workload t.arrived).1 +
    D.items (admitAll _ D.push t.workload t.arrived).2 = _
  rw [hpush, PriorityQueue.items_foldl_push, State.left, hitems,
    Multiset.add_comm (D.items t.arrived), ← Multiset.add_assoc,
    Multiset.add_comm _ (moved : Multiset Process)]

theorem Doomed.tick (h : Doomed t) : Doomed t.tick := by
  refine ⟨tick_left.symm ▸ h.nonneg, ?_⟩
  rw [tick_left]
  cases hidle : t.idle with
  | true =>
      have hstay : t.tick = t := if_pos hidle
      rw [hstay]
      exact h.missed
  | false =>
      have hcharge : t.ongoing.charge.duration = t.ongoing.duration - 1 := rfl
      rw [State.tick, hidle, if_neg Bool.false_ne_true]
      rcases h.missed with ⟨-, hpast⟩ | ⟨hpos, hzero⟩
      · -- what is not positive does not become 0
        refine Or.inl ?_
        rw [if_neg (by omega)]
        refine ⟨rfl, ?_⟩
        show t.ongoing.duration - 1 ≤ 0
        omega
      · have hpos' := hpos hidle
        refine Or.inr ⟨fun hbusy => ?_, hzero⟩
        by_cases hdone : t.ongoing.charge.duration = 0
        · rw [if_pos hdone] at hbusy
          cases hbusy
        · rw [if_neg hdone]
          show 1 ≤ t.ongoing.duration - 1
          omega

theorem Doomed.admitArrived (h : Doomed t) : Doomed t.admitArrived := by
  refine ⟨admitArrived_left.symm ▸ h.nonneg, ?_⟩
  rw [admitArrived_left]
  exact h.missed

/-- The top of a queue starts. -/
theorem Doomed.takes {arrived : D.Queue} {p ongoing : Process}
    (hnonneg : ∀ q ∈ A.items t.workload + D.items arrived, 0 ≤ q.duration)
    (hzero : ∃ q ∈ A.items t.workload + D.items arrived, q.duration = 0)
    (htop : D.top arrived = some p) (hongoing : ongoing.duration = p.duration) :
    Doomed { t with arrived := D.pop arrived, ongoing := ongoing, idle := false } := by
  have hsplit : A.items t.workload + D.items arrived =
      p ::ₘ (A.items t.workload + D.items (D.pop arrived)) := by
    rw [D.items_of_top _ _ htop, Multiset.add_cons]
  have hp := hnonneg p (hsplit ▸ Multiset.mem_cons_self p _)
  refine ⟨fun q hq => hnonneg q (hsplit ▸ Multiset.mem_cons_of_mem hq), ?_⟩
  by_cases hdone : p.duration = 0
  · exact Or.inl ⟨rfl, hongoing.trans hdone |>.le⟩
  · obtain ⟨z, hz, hzero⟩ := hzero
    refine Or.inr ⟨fun _ => ?_, z, mem_rest hsplit hz ?_, hzero⟩
    · show 1 ≤ ongoing.duration
      omega
    · rintro rfl
      exact hdone hzero

theorem Doomed.dispatch (h : Doomed t) : Doomed t.dispatch := by
  rw [State.dispatch]
  cases htop : D.top t.arrived with
  | none => exact h
  | some top =>
      have hnonneg := h.nonneg top (Multiset.mem_add.mpr (Or.inr (PriorityQueue.top_mem htop)))
      by_cases hswap : (t.idle || decide (t.ongoing.duration > top.duration)) = true
      · have hzero : ∃ q ∈ t.left, q.duration = 0 := by
          rcases h.missed with ⟨hbusy, hpast⟩ | ⟨-, hzero⟩
          · -- nobody on the queue needs less than nothing
            rw [hbusy, Bool.false_or, decide_eq_true_eq] at hswap
            omega
          · exact hzero
        simp only [hswap, if_true]
        cases hidle : t.idle with
        | true =>
            simp only [if_true, htop]
            refine Doomed.takes h.nonneg hzero htop ?_
            split_ifs <;> rfl
        | false =>
            simp only [Bool.false_eq_true, if_false]
            have hback : A.items t.workload + D.items (D.push t.arrived t.ongoing) =
                t.ongoing ::ₘ t.left := by
              rw [D.items_push, Multiset.add_cons, State.left]
            rw [hidle, Bool.false_or, decide_eq_true_eq] at hswap
            cases hnext : D.top (D.push t.arrived t.ongoing) with
            | none => exact h
            | some p =>
                refine Doomed.takes (fun q hq => ?_) ?_ hnext ?_
                · rw [hback, Multiset.mem_cons] at hq
                  rcases hq with heq | hq
                  · rw [heq]
                    omega
                  · exact h.nonneg q hq
                · obtain ⟨z, hz, hzero⟩ := hzero
                  exact ⟨z, hback ▸ Multiset.mem_cons_of_mem hz, hzero⟩
                · split_ifs <;> rfl
      · dsimp only
        rw [if_neg hswap]
        exact h

theorem Doomed.iteration (h : Doomed t) : ∃ t', t.body = .inl t' ∧ Doomed t' := by
  have hgoes : ¬ (t.idle && A.isEmpty t.workload && D.isEmpty t.arrived) = true := by
    intro hstop
    simp only [Bool.and_eq_true] at hstop
    rcases h.missed with ⟨hbusy, -⟩ | ⟨-, p, hp, -⟩
    · rw [hbusy] at hstop
      exact Bool.false_ne_true hstop.1.1
    · rw [State.left, PriorityQueue.isEmpty_iff.mp hstop.1.2,
        PriorityQueue.isEmpty_iff.mp hstop.2] at hp
      exact Multiset.notMem_zero p hp
  have hnext := h.tick.admitArrived.dispatch
  exact ⟨_, if_neg hgoes, hnext.nonneg, hnext.missed⟩

end Stcf

section Ends

variable {A : PqueueArrival} {workload : A.Queue}

theorem not_ends {ρ : Type} {run : Nat → Option ρ} (h : ∀ fuel, run fuel = none) : ¬ Ends run := by
  rintro ⟨fuel, hsome⟩
  rw [h fuel] at hsome
  cases hsome

theorem ends_of_run {ρ : Type} {run : Nat → Option ρ} {r : ρ} {n : Nat}
    (h : ∀ fuel, n < fuel → run fuel = some r) : Ends run := by
  refine ⟨n + 1, ?_⟩
  rw [h (n + 1) (Nat.lt_succ_self n)]
  rfl

/-- `fifo` and `sjf` are one loop. -/
theorem Nonpreemptive.ends_iff {L : WaitingLine Process} {comp : Process → Process → Bool}
    {Ok : L.Queue → Prop} {prior : Process → Process → Prop}
    (hk : L.Keeps arrivalComparator comp Ok) (hcomp : ∀ p q, comp p q = false → prior p q)
    (hprior : ByTimes prior) (hread : ∀ p ∈ A.items workload, p.Read) :
    Ends (fun fuel => loop State.body fuel (start (L := L) workload)) ↔
      ∀ p ∈ A.items workload, p.duration ≠ 0 := by
  constructor
  · intro hends p hp hzero
    have hleft : (start (L := L) workload).left = A.items workload := by
      rw [State.left, start, L.items_empty, Multiset.add_zero]
    have hdoomed : Doomed (start (L := L) workload) := Or.inr ⟨p, hleft.symm ▸ hp, hzero⟩
    exact not_ends (fun fuel => loop_endless (fun _ h => h.iteration) fuel hdoomed) hends
  · intro hnozero
    have htimed : ∀ p ∈ A.items workload, p.Timed := fun p hp =>
      ⟨((hread p hp).fresh (hnozero p hp)).arrival, ((hread p hp).fresh (hnozero p hp)).duration⟩
    obtain ⟨records, -, n, hrun⟩ := run_dispatched hk hcomp hprior htimed
    exact ends_of_run hrun

theorem Stcf.ends_iff {D : PqueueDuration} (junk : Process)
    (hread : ∀ p ∈ A.items workload, p.Read) :
    Ends (fun fuel => stcf D junk fuel workload) ↔ ∀ p ∈ A.items workload, p.duration ≠ 0 := by
  constructor
  · intro hends p hp hzero
    have hleft : (start (D := D) junk workload).left = A.items workload := by
      rw [State.left, start, D.items_empty, Multiset.add_zero]
    have hdoomed : Doomed (start (D := D) junk workload) := by
      refine ⟨fun q hq => (hread q (hleft ▸ hq)).duration, Or.inr ⟨fun hbusy => ?_, p, ?_, hzero⟩⟩
      · cases hbusy
      · exact hleft.symm ▸ hp
    exact not_ends (fun fuel => loop_endless (fun _ h => h.iteration) fuel hdoomed) hends
  · intro hnozero
    have hw : A.items workload = (A.items workload).toList := (Multiset.coe_toList _).symm
    have hfresh : ∀ i, ((A.items workload).toList.get i).Fresh := by
      intro i
      have hmem := Multiset.mem_toList.mp (List.get_mem (A.items workload).toList i)
      exact (hread _ hmem).fresh (hnozero _ hmem)
    obtain ⟨records, n, -, hrun⟩ :=
      run_spec hfresh (inv_start hfresh (D := D) junk (items_eq_pool hw))
    exact ends_of_run hrun

/-- **Termination.** Of the workloads that `read_workload` makes of numbers that
are not negative, each of the three loops ends on those in which every process
takes time, and on no others. -/
theorem ends_iff_no_zero (D : PqueueDuration) (junk : Process)
    (hread : ∀ p ∈ A.items workload, p.Read) :
    (Ends (fun fuel => fifo fuel workload) ↔ ∀ p ∈ A.items workload, p.duration ≠ 0) ∧
    (Ends (fun fuel => sjf D fuel workload) ↔ ∀ p ∈ A.items workload, p.duration ≠ 0) ∧
    (Ends (fun fuel => stcf D junk fuel workload) ↔ ∀ p ∈ A.items workload, p.duration ≠ 0) :=
  ⟨Nonpreemptive.ends_iff (WaitingLine.keeps_fifo arrivalComparator)
      (fun _ _ => arrivalComparator_eq_false.mp) arrivesFirst_byTimes hread,
    Nonpreemptive.ends_iff (WaitingLine.keeps_ofPriority D arrivalComparator)
      (fun _ _ => durationComparator_eq_false.mp) shorter_byTimes hread,
    Stcf.ends_iff junk hread⟩

theorem ends_iff_no_zero_two : Ends (fun fuel => stcf sortedByDuration ⟨0, 0, 0, 0⟩ fuel
    (sortedByArrival.ofList [⟨3, -1, 2, -1⟩, ⟨0, -1, 1, -1⟩])) := by
  refine (ends_iff_no_zero sortedByDuration ⟨0, 0, 0, 0⟩ ?_).2.2.mpr ?_
  · rw [PriorityQueue.items_ofList]
    decide
  · rw [PriorityQueue.items_ofList]
    decide

/-- One process that takes no time. -/
theorem zero_duration_endless :
    (∀ p ∈ sortedByArrival.items (sortedByArrival.ofList [⟨0, -1, 0, -1⟩]), p.Read) ∧
    ¬ Ends (fun fuel => fifo fuel (sortedByArrival.ofList [⟨0, -1, 0, -1⟩])) ∧
    ¬ Ends (fun fuel => sjf sortedByDuration fuel (sortedByArrival.ofList [⟨0, -1, 0, -1⟩])) ∧
    ¬ Ends (fun fuel => stcf sortedByDuration ⟨0, 0, 0, 0⟩ fuel
      (sortedByArrival.ofList [⟨0, -1, 0, -1⟩])) := by
  have hread : ∀ p ∈ sortedByArrival.items (sortedByArrival.ofList [⟨0, -1, 0, -1⟩]), p.Read := by
    rw [PriorityQueue.items_ofList]
    decide
  have hzero : ¬ ∀ p ∈ sortedByArrival.items (sortedByArrival.ofList [⟨0, -1, 0, -1⟩]),
      p.duration ≠ 0 := by
    rw [PriorityQueue.items_ofList]
    decide
  refine ⟨hread, ?_, ?_, ?_⟩
  · exact mt (Nonpreemptive.ends_iff (WaitingLine.keeps_fifo arrivalComparator)
      (fun _ _ => arrivalComparator_eq_false.mp) arrivesFirst_byTimes hread).mp hzero
  · exact mt (Nonpreemptive.ends_iff (WaitingLine.keeps_ofPriority sortedByDuration
      arrivalComparator) (fun _ _ => durationComparator_eq_false.mp) shorter_byTimes hread).mp hzero
  · exact mt (Stcf.ends_iff ⟨0, 0, 0, 0⟩ hread).mp hzero

end Ends

end Os377.Sched
