import Mathlib.Algebra.BigOperators.Ring.Finset
import Os377.Sched.NonpreemptiveCorrect

/-!
# The schedulers compared

`fifo`, `sjf` and `stcf` on one workload. All three waste no tick, so they are
busy in the same ticks and end at the same time; `stcf` serves the shortest
remaining time, so no schedule has a smaller total turnaround.
-/

namespace Os377.Sched

open Os377.Lib
open Stcf (jobs_arrival jobs_duration jobs_duration_pos)

/-! ## The timetable of `stcf` -/

section Stcf

variable {A : PqueueArrival} {D : PqueueDuration} {ι : Type} [DecidableEq ι]

theorem Stcf.Completed.listed {job : ι → Process} {f : Nat → Option ι} {t : Nat}
    {records : List Process} (h : Stcf.Completed job f t (fun _ => True) records) :
    ∃ order : List ι, order.Nodup ∧ (∀ i, i ∈ order) ∧
      List.Forall₂ (fun i r => r.arrival = (job i).arrival ∧
        r.completion = (lastTick f i t : Int) + 1) order records := by
  obtain ⟨order, rfl, hmem, hsorted⟩ := h
  refine ⟨order, hsorted.imp fun hlt => ?_, fun i => (hmem i).mpr trivial, ?_⟩
  · intro heq
    subst heq
    omega
  · rw [List.forall₂_map_right_iff, List.forall₂_same]
    exact fun i _ => ⟨rfl, rfl⟩

/-- The ticks in which `stcf` is busy are those of the schedule it follows. -/
theorem Stcf.Follows.busy {job : ι → Process} {f : Nat → Option ι} {start : Stcf.State A D}
    (h : Stcf.Follows job f start) :
    busyTicks Stcf.State.body Stcf.State.idle start = { u | (f u).isSome } := by
  refine busyTicks_eq (fun u hs => ?_) fun u s hs => ?_
  · have hu := h u
    rwa [hs] at hu
  · have hu := h u
    rw [hs] at hu
    exact hu.1

end Stcf

/-! ## A workload and its runs -/

section Runs

variable {A : PqueueArrival} (D : PqueueDuration) (junk : Process) {jobs : List Process}
  {workload : A.Queue}

/-- The run of `fifo` or `sjf`. -/
theorem nonpreemptive_run (L : WaitingLine Process) (hw : A.items workload = jobs)
    (hfresh : ∀ i, (jobs.get i).Fresh) :
    ∃ records f t, Timetable jobs.get (busyTicks Nonpreemptive.State.body Nonpreemptive.State.idle
        (Nonpreemptive.start (L := L) workload)) records f t ∧
      ∃ n, ∀ fuel, n < fuel → loop Nonpreemptive.State.body fuel
        (Nonpreemptive.start (L := L) workload) = some records :=
  Nonpreemptive.run_spec hfresh (Nonpreemptive.inv_start (items_eq_pool hw))

/-- The run of `stcf`. -/
theorem stcf_run (hw : A.items workload = jobs) (hfresh : ∀ i, (jobs.get i).Fresh) :
    ∃ records f t, Timetable jobs.get (busyTicks Stcf.State.body Stcf.State.idle
        (Stcf.start (D := D) junk workload)) records f t ∧
      (Stcf.jobs jobs.get).Srpt f t ∧
      ∃ n, ∀ fuel, n < fuel → stcf D junk fuel workload = some records := by
  obtain ⟨records, n, ⟨f, t, hsrpt, hdone, hcomplete, hfollows⟩, hrun⟩ :=
    Stcf.run_spec hfresh (Stcf.inv_start hfresh (D := D) junk (items_eq_pool hw))
  exact ⟨records, f, t, ⟨hsrpt.conserving, hdone, hfollows.busy, hcomplete.listed⟩, hsrpt, n, hrun⟩

end Runs

/-! ## Work conservation -/

section Conservation

variable {ι : Type} [DecidableEq ι] [Fintype ι] {job : ι → Process} {busy busy' : Set Nat}
  {records records' : List Process} {f f' : Nat → Option ι} {t t' : Nat}

/-- Two timetables of one workload have the same busy ticks. -/
theorem Timetable.same_busy (h : Timetable job busy records f t)
    (h' : Timetable job busy' records' f' t') : busy = busy' := by
  rw [h.busy, h'.busy]
  ext u
  show (f u).isSome ↔ (f' u).isSome
  rw [h.conserving.same_busy h.done h'.conserving h'.done u]

/-- So they end at the same time. -/
theorem Timetable.same_end (hfresh : ∀ i, (job i).Fresh) (h : Timetable job busy records f t)
    (h' : Timetable job busy' records' f' t') :
    lastCompletion records = lastCompletion records' := by
  ext c
  rw [h.lastCompletion_eq_some hfresh, h'.lastCompletion_eq_some hfresh, h.same_busy h']

end Conservation

/-- **Work conservation.** On every workload of fresh processes `fifo`, `sjf` and
`stcf` return lists of one length, the last process completes at the same time,
and the processor is busy in the same ticks. -/
theorem work_conserving {A : PqueueArrival} (D : PqueueDuration) (junk : Process)
    (jobs : List Process) (workload : A.Queue) (hw : A.items workload = jobs)
    (hfresh : ∀ p ∈ jobs, p.Fresh) :
    ∃ byFifo bySjf byStcf : List Process,
      (∃ n, ∀ fuel, n < fuel → fifo fuel workload = some byFifo) ∧
      (∃ n, ∀ fuel, n < fuel → sjf D fuel workload = some bySjf) ∧
      (∃ n, ∀ fuel, n < fuel → stcf D junk fuel workload = some byStcf) ∧
      byFifo.length = byStcf.length ∧ bySjf.length = byStcf.length ∧
      lastCompletion byFifo = lastCompletion byStcf ∧
      lastCompletion bySjf = lastCompletion byStcf ∧
      busyTicks Nonpreemptive.State.body Nonpreemptive.State.idle
          (Nonpreemptive.start (L := WaitingLine.fifo Process) workload) =
        busyTicks Stcf.State.body Stcf.State.idle (Stcf.start (D := D) junk workload) ∧
      busyTicks Nonpreemptive.State.body Nonpreemptive.State.idle
          (Nonpreemptive.start (L := WaitingLine.ofPriority D) workload) =
        busyTicks Stcf.State.body Stcf.State.idle (Stcf.start (D := D) junk workload) := by
  have hall : ∀ i, (jobs.get i).Fresh := fun i => hfresh _ (List.get_mem jobs i)
  obtain ⟨r₁, f₁, t₁, h₁, hrun₁⟩ := nonpreemptive_run (WaitingLine.fifo Process) hw hall
  obtain ⟨r₂, f₂, t₂, h₂, hrun₂⟩ := nonpreemptive_run (WaitingLine.ofPriority D) hw hall
  obtain ⟨r₃, f₃, t₃, h₃, -, hrun₃⟩ := stcf_run D junk hw hall
  exact ⟨r₁, r₂, r₃, hrun₁, hrun₂, hrun₃, h₁.length.trans h₃.length.symm,
    h₂.length.trans h₃.length.symm, h₁.same_end hall h₃, h₂.same_end hall h₃,
    h₁.same_busy h₃, h₂.same_busy h₃⟩

/-- A process that arrives late leaves the processor idle under all three. -/
theorem work_conserving_gap :
    ∃ byFifo byStcf : List Process,
      (∃ n, ∀ fuel, n < fuel → fifo fuel
        (sortedByArrival.ofList [⟨0, -1, 2, -1⟩, ⟨5, -1, 1, -1⟩]) = some byFifo) ∧
      (∃ n, ∀ fuel, n < fuel → stcf sortedByDuration ⟨0, 0, 0, 0⟩ fuel
        (sortedByArrival.ofList [⟨0, -1, 2, -1⟩, ⟨5, -1, 1, -1⟩]) = some byStcf) ∧
      lastCompletion byFifo = lastCompletion byStcf := by
  obtain ⟨byFifo, -, byStcf, hfifo, -, hstcf, -, -, hend, -⟩ :=
    work_conserving sortedByDuration ⟨0, 0, 0, 0⟩ [⟨0, -1, 2, -1⟩, ⟨5, -1, 1, -1⟩]
      (sortedByArrival.ofList [⟨0, -1, 2, -1⟩, ⟨5, -1, 1, -1⟩])
      (PriorityQueue.items_ofList _) (by decide)
  exact ⟨byFifo, byStcf, hfifo, hstcf, hend⟩

/-! ## Optimality -/

/-- A schedule of the processes on one processor, preemptive and in unit ticks:
none runs before its arrival, and each gets exactly its duration. -/
structure Feasible {ι : Type} (job : ι → Process) (g : Nat → Option ι) : Prop where
  release : ∀ u i, g u = some i → (job i).arrival ≤ u
  exact : ∀ i, ({ u | g u = some i }.ncard : Int) = (job i).duration

/-- The completion times of a schedule: one past the last tick. -/
def Completes {ι : Type} (g : Nat → Option ι) (completion : ι → Int) : Prop :=
  ∀ i, ∃ u : Nat, IsGreatest { v | g v = some i } u ∧ completion i = u + 1

section Optimality

variable {ι : Type} [DecidableEq ι] {job : ι → Process} {busy busy' : Set Nat}
  {records records' : List Process} {f g : Nat → Option ι} {t t' : Nat}

omit [DecidableEq ι] in
/-- The same in the times of the jobs. -/
theorem feasible_iff (hfresh : ∀ i, (job i).Fresh) :
    Feasible job g ↔ (Stcf.jobs job).Feasible g := by
  have harr := jobs_arrival hfresh
  have hdur := jobs_duration hfresh
  constructor
  · intro h
    refine ⟨fun u i hgu => ?_, fun i => ?_⟩
    · have := h.release u i hgu
      have := harr i
      omega
    · have := h.exact i
      have := hdur i
      omega
  · intro h
    refine ⟨fun u i hgu => ?_, fun i => ?_⟩
    · have := h.release u i hgu
      have := harr i
      omega
    · rw [h.exact i, hdur]

/-- A timetable is a feasible schedule. -/
theorem Timetable.feasible (hfresh : ∀ i, (job i).Fresh) (h : Timetable job busy records f t) :
    Feasible job f ∧ Completes f fun i => (lastTick f i t : Int) + 1 :=
  ⟨(feasible_iff hfresh).mpr (h.conserving.feasible h.done), fun i => ⟨_, h.last hfresh i, rfl⟩⟩

variable [Fintype ι]

/-- The timetable of a schedule by shortest remaining time has the least total
completion time. -/
theorem Timetable.optimal (hfresh : ∀ i, (job i).Fresh) (h : Timetable job busy records f t)
    (hsrpt : (Stcf.jobs job).Srpt f t) (hg : Feasible job g) {completion : ι → Int}
    (hc : Completes g completion) :
    totalCompletion records ≤ ∑ i, completion i ∧
      totalTurnaround records ≤ ∑ i, (completion i - (job i).arrival) := by
  have hfeas := (feasible_iff hfresh).mp hg
  choose e he hce using hc
  have hle := hsrpt.optimal h.done hfeas (jobs_duration_pos hfresh) (h.last hfresh) he
  have hsum : ∑ i, ((lastTick f i t : Int) + 1) ≤ ∑ i, completion i := by
    simp only [hce]
    exact_mod_cast hle
  refine ⟨h.totalCompletion_eq ▸ hsum, ?_⟩
  rw [h.totalTurnaround_eq, Finset.sum_sub_distrib, Finset.sum_sub_distrib]
  omega

/-- Against another timetable. -/
theorem Timetable.optimal_timetable (hfresh : ∀ i, (job i).Fresh)
    (h : Timetable job busy records f t) (hsrpt : (Stcf.jobs job).Srpt f t)
    (h' : Timetable job busy' records' g t') :
    totalCompletion records ≤ totalCompletion records' ∧
      totalTurnaround records ≤ totalTurnaround records' := by
  obtain ⟨hg, hc⟩ := h'.feasible hfresh
  rw [h'.totalCompletion_eq, h'.totalTurnaround_eq]
  exact h.optimal hfresh hsrpt hg hc

end Optimality

/-- `records` tells the schedule `f`: one record for each process, with its arrival
and the end of its last tick. -/
structure Tells (processes : List Process) (f : Nat → Option (Fin processes.length))
    (records : List Process) : Prop where
  feasible : Feasible processes.get f
  records : ∃ order : List (Fin processes.length), order.Perm (List.finRange processes.length) ∧
    List.Forall₂ (fun i (r : Process) => r.arrival = (processes.get i).arrival ∧
      ∃ u : Nat, IsGreatest { v | f v = some i } u ∧ r.completion = u + 1) order records

theorem Timetable.tells {processes records : List Process} {busy : Set Nat}
    {f : Nat → Option (Fin processes.length)} {t : Nat}
    (hfresh : ∀ i, (processes.get i).Fresh) (h : Timetable processes.get busy records f t) :
    Tells processes f records := by
  obtain ⟨order, hnodup, hmem, hlisted⟩ := h.listed
  refine ⟨(h.feasible hfresh).1, order, ?_, hlisted.imp fun i r hr => ?_⟩
  · exact (List.perm_ext_iff_of_nodup hnodup (List.nodup_finRange _)).mpr fun i => by simp [hmem]
  · exact ⟨hr.1, _, h.last hfresh i, hr.2⟩

end Os377.Sched
