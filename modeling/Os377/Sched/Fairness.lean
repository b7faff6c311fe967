import Os377.Lib.Turns
import Os377.Sched.Contract

/-!
# Round robin is fair

On a workload without idle gaps the queue of `rr` is a line in which every process
that has arrived and is not done waits for its turn (`InTurn`); what the schedule
owes to a waiting process is kept by each iteration, so it holds of the whole run.
-/

namespace Os377.Sched

open Os377.Lib Function
open Stcf (jobs record jobs_arrival jobs_duration)

namespace RoundRobin

variable {A : PqueueArrival} {ι : Type} [DecidableEq ι]

/-- At the top of iteration `t` the queue holds the records of a line of jobs. -/
def InTurn (job : ι → Process) (f : Nat → Option ι) (t : Nat) (s : State A) : Prop :=
  ∃ line : List ι, s.arrived = line.map (record job f t) ∧
    (∀ i ∈ line, (jobs job).arrival i < t ∧ served f i t < (jobs job).duration i) ∧
    (jobs job).Turns f t line

variable [Fintype ι] {job : ι → Process} {f : Nat → Option ι} {t : Nat} {s : State A}

/-- The line when the arrivals have joined it. -/
theorem Inv.line (hfresh : ∀ i, (job i).Fresh) (h : Inv job f t s) (hline : InTurn job f t s) :
    ∃ line : List ι, s.admitArrived.arrived = line.map (record job f t) ∧
      (∀ i ∈ line, (jobs job).Pending f t i) ∧ (jobs job).Turns f t line := by
  obtain ⟨line, harrived, hwait, hturns⟩ := hline
  obtain ⟨moved, hjoined, hmoved, -⟩ := h.moved hfresh
  obtain ⟨new, hnodup, hnew, rfl⟩ := exists_order_of_pool hmoved
  have hzero : ∀ i ∈ new, served f i t = 0 := fun i hi =>
    h.conserving.served_eq_zero ((hnew i).mp hi).ge
  refine ⟨line ++ new, ?_, fun i hi => ?_, hturns.arrive (fun i hi => (hnew i).mp hi) hnodup
    (fun i hi => (hwait i hi).1) hzero⟩
  · rw [hjoined, harrived, List.map_append]
  · rcases List.mem_append.mp hi with hi | hi
    · exact ⟨(hwait i hi).1.le, (hwait i hi).2⟩
    · refine ⟨((hnew i).mp hi).le, ?_⟩
      rw [hzero i hi]
      exact Stcf.jobs_duration_pos hfresh i

/-- Each iteration keeps the line. -/
theorem InTurn.iteration (hfresh : ∀ i, (job i).Fresh) (h : Inv job f t s)
    (hline : InTurn job f t s) : Iterates job f t s (InTurn job) := by
  obtain ⟨line, harrived, hpending, hturns⟩ := h.line hfresh hline
  cases line with
  | nil => exact Or.inr (h.nobody hfresh harrived)
  | cons i rest =>
      have hi := hpending i List.mem_cons_self
      rw [List.map_cons] at harrived
      obtain ⟨s', hb, hinv, hcharged, hrest⟩ := h.serves hfresh hi harrived
      refine Or.inl ⟨i, s', hb, hi, hinv, hcharged, ?_⟩
      have hothers : rest.map (record job f t) =
          rest.map (record job (update f t (some i)) (t + 1)) := by
        refine List.map_congr_left fun j hj => (Stcf.record_update ?_).symm
        exact fun heq => (hturns.behind hj).1 (Option.some.inj heq)
      have hwait : ∀ j ∈ rest, (jobs job).arrival j < t + 1 ∧
          served (update f t (some i)) j (t + 1) < (jobs job).duration j := by
        intro j hj
        obtain ⟨harr, hmore⟩ := hpending j (List.mem_cons_of_mem _ hj)
        rw [Jobs.served_tick, if_neg (hturns.behind hj).1]
        exact ⟨Nat.lt_succ_of_le harr, hmore⟩
      rw [hothers] at hrest
      by_cases hlast : served f i t + 1 = (jobs job).duration i
      · rw [if_pos hlast] at hrest
        exact ⟨rest, hrest, hwait, hturns.leave⟩
      · rw [if_neg hlast, ← List.map_singleton, ← List.map_append] at hrest
        refine ⟨rest ++ [i], hrest, fun j hj => ?_, hturns.back⟩
        rcases List.mem_append.mp hj with hj | hj
        · exact hwait j hj
        · obtain rfl := List.mem_singleton.mp hj
          have hmore := hi.2
          rw [Jobs.served_tick, if_pos rfl]
          exact ⟨Nat.lt_succ_of_le hi.1, by omega⟩

omit [Fintype ι] in
theorem inTurn_start (junk : Process) {workload : A.Queue} :
    InTurn job (fun _ => none) 0 (start junk workload) :=
  ⟨[], rfl, fun _ hi => absurd hi List.not_mem_nil, Jobs.Turns.nil⟩

end RoundRobin

open RoundRobin in
/-- **Round robin is fair.** On a workload without idle gaps `rr` ends and gives each
process exactly its duration in ticks, none before its arrival, and what it returns
is one record for each process, with its ticks; between two consecutive ticks of a
process, and between its arrival and its first tick, every other process has at
most one tick. -/
theorem rr_fair {A : PqueueArrival} (junk : Process) (processes : List Process)
    (workload : A.Queue) (hw : A.items workload = processes) (hc : Continuous processes) :
    ∃ (records : List Process) (f : Nat → Option (Fin processes.length)),
      (∃ n, ∀ fuel, n < fuel → rr junk fuel workload = some records) ∧
      Charges processes.get f (start junk workload) ∧
      Feasible processes.get f ∧
      (∃ order : List (Fin processes.length), order.Perm (List.finRange processes.length) ∧
        List.Forall₂ (fun i r => Stcf.Reports (processes.get i) r { u | f u = some i })
          order records) ∧
      (∀ i j, j ≠ i → ∀ u v, u < v → f u = some i → f v = some i →
        (∀ w, u < w → w < v → f w ≠ some i) →
        { w | u < w ∧ w < v ∧ f w = some j }.Subsingleton) ∧
      ∀ i j, j ≠ i → ∀ v, IsLeast { u | f u = some i } v →
        { w : Nat | (processes.get i).arrival ≤ w ∧ w < v ∧ f w = some j }.Subsingleton := by
  have hall : ∀ i, (processes.get i).Fresh := fun i => hc.fresh _ (List.get_mem processes i)
  obtain ⟨records, f, t, ⟨hconserving, hdone, hcomplete, hcharges, _, line, -, -, hturns⟩, hrun⟩ :=
    run_keeping (fun _ _ _ h hline => hline.iteration hall h) ((gapless_iff hall).mp hc.gapless)
      (inv_start hall junk (items_eq_pool hw)) (inTurn_start junk)
  have hbefore : ∀ v i, f v = some i → v < t := by
    intro v i hv
    by_contra hge
    rw [hconserving.beyond v (by omega)] at hv
    cases hv
  refine ⟨records, f, hrun, hcharges, (feasible_iff hall).mpr (hconserving.feasible hdone),
    hcomplete.reports hall hconserving.beyond hdone, ?_, ?_⟩
  · intro i j hj u v huv hu hv hnone
    exact hturns.fair.between (hbefore v i hv) huv hu hv hnone hj
  · intro i j hj v hleast
    refine (hturns.fair.first (hbefore v i hleast.1) hleast hj).anti ?_
    rintro w ⟨harr, hw⟩
    have := jobs_arrival hall i
    exact ⟨by omega, hw⟩

/-- A process arrives while two take turns. -/
theorem rr_fair_three : ∃ (records : List Process) (f : Nat → Option (Fin 3)),
    (∃ n, ∀ fuel, n < fuel → rr ⟨0, 0, 0, 0⟩ fuel (sortedByArrival.ofList
      [⟨0, -1, 3, -1⟩, ⟨0, -1, 2, -1⟩, ⟨2, -1, 1, -1⟩]) = some records) ∧
    RoundRobin.Charges [⟨0, -1, 3, -1⟩, ⟨0, -1, 2, -1⟩, ⟨2, -1, 1, -1⟩].get f
      (RoundRobin.start ⟨0, 0, 0, 0⟩ (sortedByArrival.ofList
        [⟨0, -1, 3, -1⟩, ⟨0, -1, 2, -1⟩, ⟨2, -1, 1, -1⟩])) ∧
    Feasible [⟨0, -1, 3, -1⟩, ⟨0, -1, 2, -1⟩, ⟨2, -1, 1, -1⟩].get f ∧
    (∃ order : List (Fin 3), order.Perm (List.finRange 3) ∧
      List.Forall₂ (fun i r => Stcf.Reports
        ([⟨0, -1, 3, -1⟩, ⟨0, -1, 2, -1⟩, ⟨2, -1, 1, -1⟩].get i) r { u | f u = some i })
        order records) ∧
    ∀ i j, j ≠ i → ∀ u v, u < v → f u = some i → f v = some i →
      (∀ w, u < w → w < v → f w ≠ some i) →
      { w | u < w ∧ w < v ∧ f w = some j }.Subsingleton := by
  obtain ⟨records, f, hrun, hcharges, hfeasible, hreports, hbetween, -⟩ :=
    rr_fair ⟨0, 0, 0, 0⟩ [⟨0, -1, 3, -1⟩, ⟨0, -1, 2, -1⟩, ⟨2, -1, 1, -1⟩]
      (sortedByArrival.ofList [⟨0, -1, 3, -1⟩, ⟨0, -1, 2, -1⟩, ⟨2, -1, 1, -1⟩])
      (PriorityQueue.items_ofList _) ⟨by decide, by decide, by decide⟩
  exact ⟨records, f, hrun, hcharges, hfeasible, hreports, hbetween⟩

end Os377.Sched
