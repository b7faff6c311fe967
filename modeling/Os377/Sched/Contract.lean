import Os377.Sched.Dispatched
import Os377.Sched.RoundRobinCorrect

/-!
# What a record keeps of its process

On a workload in which every process arrives while there is work, the four
schedulers return one record for each process. `fifo` and `sjf` fill in
`firstRun` and `completion`; `stcf` and `rr` count `duration` down to 0 as well.
-/

namespace Os377.Sched

open Os377.Lib

/-- A workload without idle gaps, in the order of arrival: each process arrives
before the work of those before it can be done, so the first one arrives at 0. -/
structure Continuous (processes : List Process) : Prop where
  fresh : ∀ p ∈ processes, p.Fresh
  sorted : processes.Pairwise fun p q => p.arrival ≤ q.arrival
  next : ∀ k (hk : k < processes.length),
    processes[k].arrival ≤ ((processes.take k).map (·.duration)).sum

section Continuous

variable {processes : List Process} {t : Int}

theorem arrivedWork_nonneg (hfresh : ∀ p ∈ processes, p.Fresh) : 0 ≤ arrivedWork processes t := by
  refine List.sum_nonneg fun x hx => ?_
  obtain ⟨p, hp, rfl⟩ := List.mem_map.mp hx
  have := (hfresh p hp).duration
  split_ifs <;> omega

/-- Behind `before` ticks of work. -/
theorem lt_arrivedWork {before : Int} (hfresh : ∀ p ∈ processes, p.Fresh)
    (hnext : ∀ k (hk : k < processes.length),
      processes[k].arrival ≤ before + ((processes.take k).map (·.duration)).sum)
    (ht : t < before + (processes.map (·.duration)).sum) :
    t < before + arrivedWork processes t := by
  induction processes generalizing before with
  | nil => exact ht
  | cons p rest ih =>
      have hrest : ∀ q ∈ rest, q.Fresh := fun q hq => hfresh q (List.mem_cons_of_mem _ hq)
      have hwork : arrivedWork (p :: rest) t =
          (if p.arrival ≤ t then p.duration else 0) + arrivedWork rest t := by
        rw [arrivedWork, List.map_cons, List.sum_cons, arrivedWork]
      have hp := hnext 0 (Nat.succ_pos _)
      have hp' : p.arrival ≤ before := by simpa using hp
      rw [hwork]
      split_ifs with harr
      · rw [← add_assoc]
        refine ih hrest (fun k hk => ?_) ?_
        · have := hnext (k + 1) (Nat.succ_lt_succ hk)
          rw [List.take_succ_cons, List.map_cons, List.sum_cons, ← add_assoc] at this
          exact this
        · rw [List.map_cons, List.sum_cons, ← add_assoc] at ht
          exact ht
      · -- it arrives later than `t`, but not later than `before`
        have := arrivedWork_nonneg (t := t) hrest
        omega

theorem Continuous.gapless (h : Continuous processes) : Gapless processes := by
  intro t ht
  have hnext : ∀ k (hk : k < processes.length),
      processes[k].arrival ≤ 0 + ((processes.take k).map (·.duration)).sum := by
    intro k hk
    rw [zero_add]
    exact h.next k hk
  have hlt := lt_arrivedWork h.fresh hnext (by rwa [zero_add])
  rwa [zero_add] at hlt

end Continuous

section Records

open Stcf (Reports)

variable {processes records : List Process} {ticks : Fin processes.length → Set Nat}

/-- One record for each process, with its arrival and no duration. -/
theorem reports_times {order : List (Fin processes.length)}
    (horder : order.Perm (List.finRange processes.length))
    (hreports : List.Forall₂ (fun i r => Reports (processes.get i) r (ticks i)) order records) :
    (records.map (·.times)).Perm (processes.map fun p => (p.arrival, 0)) := by
  have hmap : records.map (·.times) = order.map fun i => ((processes.get i).arrival, 0) :=
    map_eq_of_forall₂ (hreports.imp fun i r hr => by
      rw [Process.times, hr.arrival, hr.duration])
  have hall := horder.map fun i => ((processes.get i).arrival, (0 : Int))
  rw [hmap]
  refine hall.trans (List.Perm.of_eq ?_)
  conv_rhs => rw [← List.map_get_finRange processes, List.map_map]
  rfl

/-- So the durations are lost. -/
theorem times_lost (hfresh : ∀ p ∈ processes, p.Fresh)
    (h : (records.map (·.times)).Perm (processes.map fun p => (p.arrival, 0))) :
    (records.map (·.times)).Perm (processes.map (·.times)) ↔ processes = [] := by
  constructor
  · intro hsame
    cases processes with
    | nil => rfl
    | cons p rest =>
        have hmem := (hsame.symm.trans h).mem_iff.mp (List.mem_map_of_mem List.mem_cons_self)
        obtain ⟨q, -, hq⟩ := List.mem_map.mp hmem
        have hzero : 0 = p.duration := congrArg Prod.snd hq
        have := (hfresh p List.mem_cons_self).duration
        omega
  · rintro rfl
    exact h

end Records

/-- **The record contract.** On a workload without idle gaps `fifo` and `sjf` return
the processes with their arrivals and durations. `stcf` and `rr` return them
with their arrivals and duration 0, so they keep the contract if there is
nothing to return, and only then. The times are unbounded integers. -/
theorem keeps_times_iff {A : PqueueArrival} (D : PqueueDuration) (junk : Process)
    (processes : List Process) (workload : A.Queue) (hw : A.items workload = processes)
    (hc : Continuous processes) :
    ∃ byFifo bySjf byStcf byRr : List Process,
      (∃ n, ∀ fuel, n < fuel → fifo fuel workload = some byFifo ∧
        sjf D fuel workload = some bySjf ∧ stcf D junk fuel workload = some byStcf ∧
        rr junk fuel workload = some byRr) ∧
      (byFifo.map (·.times)).Perm (processes.map (·.times)) ∧
      (bySjf.map (·.times)).Perm (processes.map (·.times)) ∧
      ((byStcf.map (·.times)).Perm (processes.map (·.times)) ↔ processes = []) ∧
      ((byRr.map (·.times)).Perm (processes.map (·.times)) ↔ processes = []) := by
  have hall : ∀ i, (processes.get i).Fresh := fun i => hc.fresh _ (List.get_mem processes i)
  have htimed : ∀ p ∈ A.items workload, p.Timed := by
    rw [hw]
    exact fun p hp => ⟨(hc.fresh p hp).arrival, (hc.fresh p hp).duration⟩
  obtain ⟨byFifo, ⟨hfifo, -⟩, n, hrun⟩ :=
    Nonpreemptive.run_dispatched (WaitingLine.keeps_fifo arrivalComparator)
      (fun _ _ => arrivalComparator_eq_false.mp) arrivesFirst_byTimes htimed
  obtain ⟨bySjf, ⟨hsjf, -⟩, n', hrun'⟩ :=
    Nonpreemptive.run_dispatched (WaitingLine.keeps_ofPriority D arrivalComparator)
      (fun _ _ => durationComparator_eq_false.mp) shorter_byTimes htimed
  obtain ⟨byStcf, m, ⟨f, t, hsrpt, hdone, hcomplete, -⟩, hrun''⟩ :=
    Stcf.run_spec hall (Stcf.inv_start hall (D := D) junk (items_eq_pool hw))
  obtain ⟨order, horder, hreports⟩ := hcomplete.reports hall hsrpt.beyond hdone
  obtain ⟨byRr, ⟨g, u, hconserving, hdone', hcomplete', -⟩, m', hrun'''⟩ :=
    RoundRobin.run_spec hall ((gapless_iff hall).mp hc.gapless)
      (RoundRobin.inv_start hall junk (items_eq_pool hw))
  obtain ⟨order', horder', hreports'⟩ := hcomplete'.reports hall hconserving.beyond hdone'
  rw [hw] at hfifo hsjf
  refine ⟨byFifo, bySjf, byStcf, byRr, ⟨max (max n n') (max m m'), fun fuel hfuel => ?_⟩,
    Multiset.coe_eq_coe.mp hfifo, Multiset.coe_eq_coe.mp hsjf,
    times_lost hc.fresh (reports_times horder hreports),
    times_lost hc.fresh (reports_times horder' hreports')⟩
  rw [max_lt_iff, max_lt_iff, max_lt_iff] at hfuel
  exact ⟨hrun fuel hfuel.1.1, hrun' fuel hfuel.1.2, hrun'' fuel hfuel.2.1, hrun''' fuel hfuel.2.2⟩

/-- The second process arrives while the first one runs. -/
theorem keeps_times_iff_two : ∃ byFifo bySjf byStcf byRr : List Process,
    (∃ n, ∀ fuel, n < fuel →
      fifo fuel (sortedByArrival.ofList [⟨0, -1, 2, -1⟩, ⟨1, -1, 1, -1⟩]) = some byFifo ∧
      sjf sortedByDuration fuel
        (sortedByArrival.ofList [⟨0, -1, 2, -1⟩, ⟨1, -1, 1, -1⟩]) = some bySjf ∧
      stcf sortedByDuration ⟨0, 0, 0, 0⟩ fuel
        (sortedByArrival.ofList [⟨0, -1, 2, -1⟩, ⟨1, -1, 1, -1⟩]) = some byStcf ∧
      rr ⟨0, 0, 0, 0⟩ fuel
        (sortedByArrival.ofList [⟨0, -1, 2, -1⟩, ⟨1, -1, 1, -1⟩]) = some byRr) ∧
    (byFifo.map (·.times)).Perm [(0, 2), (1, 1)] ∧ (bySjf.map (·.times)).Perm [(0, 2), (1, 1)] ∧
    ¬ (byStcf.map (·.times)).Perm [(0, 2), (1, 1)] ∧
    ¬ (byRr.map (·.times)).Perm [(0, 2), (1, 1)] := by
  obtain ⟨byFifo, bySjf, byStcf, byRr, hrun, hfifo, hsjf, hstcf, hrr⟩ :=
    keeps_times_iff sortedByDuration ⟨0, 0, 0, 0⟩ [⟨0, -1, 2, -1⟩, ⟨1, -1, 1, -1⟩]
      (sortedByArrival.ofList [⟨0, -1, 2, -1⟩, ⟨1, -1, 1, -1⟩]) (PriorityQueue.items_ofList _)
      ⟨by decide, by decide, by decide⟩
  exact ⟨byFifo, bySjf, byStcf, byRr, hrun, hfifo, hsjf, mt hstcf.mp (by simp),
    mt hrr.mp (by simp)⟩

/-- One process that runs for a tick is returned with duration 0. -/
theorem duration_lost :
    Continuous [⟨0, -1, 1, -1⟩] ∧
    stcf sortedByDuration ⟨0, 0, 0, 0⟩ 3 (sortedByArrival.ofList [⟨0, -1, 1, -1⟩]) =
      some [⟨0, 0, 0, 1⟩] ∧
    rr ⟨0, 0, 0, 0⟩ 3 (sortedByArrival.ofList [⟨0, -1, 1, -1⟩]) = some [⟨0, 0, 0, 1⟩] ∧
    ¬ (([⟨0, 0, 0, 1⟩] : List Process).map (·.times)).Perm
      (([⟨0, -1, 1, -1⟩] : List Process).map (·.times)) :=
  ⟨⟨by decide, by decide, by decide⟩, by decide, by decide, by decide⟩

end Os377.Sched
