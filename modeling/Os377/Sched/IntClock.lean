import Mathlib.Algebra.BigOperators.Fin
import Os377.Lib.WrapInt
import Os377.Sched.Compare

/-!
# The schedulers on machine integers

`time`, `timeend` and the fields of a `Process` are `int`s. `fifoInt`, `sjfInt` and
`stcfInt` are the loops with the arithmetic of the compiled code, which wraps
around. As long as the workload is done before the clock reaches `2 ^ 31` they
return what the loops on unbounded times return, and there `stcf` is optimal;
beyond it a completion time may wrap and the totals compare in any way.

* `EndsInInt` — the workload is done in time;
* `Inv.bodyInt` — one iteration of the two loops, in step.
-/

namespace Os377.Sched

open Os377.Lib Function
open Stcf (jobs jobs_arrival jobs_duration jobs_duration_pos)

/-! ## The loops -/

/-- `ongoing.duration--` -/
def Process.chargeInt (p : Process) : Process := { p with duration := wrap (p.duration - 1) }

namespace Nonpreemptive.State

variable {A : PqueueArrival} {L : WaitingLine Process} (s : State A L)

/-- Start the process in front of the queue when the processor is free. -/
def dispatchInt : State A L :=
  if s.idle then
    match L.front s.arrived with
    | none => s
    | some newP =>
        let timeend := wrap (s.time + newP.duration)
        { s with
          arrived := L.pop s.arrived
          idle := false
          timeend := timeend
          complete := s.complete ++ [{ newP with firstRun := s.time, completion := timeend }] }
  else s

/-- One iteration of the `while (1)` loop. -/
def bodyInt : State A L ⊕ List Process :=
  if s.idle && A.isEmpty s.workload && L.isEmpty s.arrived then .inr s.complete
  else .inl { s.tick.admitArrived.dispatchInt with time := wrap (s.time + 1) }

/-- The state with its clock in an `int`. -/
def wrapTime : State A L := { s with time := wrap s.time }

end Nonpreemptive.State

namespace Stcf.State

variable {A : PqueueArrival} {D : PqueueDuration} (s : State A D)

/-- Charge the running process; if it needs no more time it is complete. -/
def tickInt : State A D :=
  if s.idle then s
  else
    let ongoing := s.ongoing.chargeInt
    if ongoing.duration = 0 then
      let ongoing := { ongoing with completion := s.time }
      { s with ongoing := ongoing, complete := s.complete ++ [ongoing], idle := true }
    else { s with ongoing := ongoing }

/-- One iteration of the `while (1)` loop. -/
def bodyInt : State A D ⊕ List Process :=
  if s.idle && A.isEmpty s.workload && D.isEmpty s.arrived then .inr s.complete
  else .inl { s.tickInt.admitArrived.dispatch with time := wrap (s.time + 1) }

/-- The state with its clock in an `int`. -/
def wrapTime : State A D := { s with time := wrap s.time }

end Stcf.State

section Loops

variable {A : PqueueArrival} (D : PqueueDuration)

/-- `fifo(workload)` on machine integers. -/
def fifoInt (fuel : Nat) (workload : A.Queue) : Option (List Process) :=
  loop Nonpreemptive.State.bodyInt fuel
    (Nonpreemptive.start (L := WaitingLine.fifo Process) workload)

/-- `sjf(workload)` on machine integers. -/
def sjfInt (fuel : Nat) (workload : A.Queue) : Option (List Process) :=
  loop Nonpreemptive.State.bodyInt fuel
    (Nonpreemptive.start (L := WaitingLine.ofPriority D) workload)

/-- `stcf(workload)` on machine integers. -/
def stcfInt (junk : Process) (fuel : Nat) (workload : A.Queue) : Option (List Process) :=
  loop Stcf.State.bodyInt fuel (Stcf.start (D := D) junk workload)

end Loops

/-! ## Workloads that end in time -/

/-- The work that arrives at time `t` or later. -/
def laterWork (processes : List Process) (t : Int) : Int :=
  (processes.map fun p => if t ≤ p.arrival then p.duration else 0).sum

/-- From the arrival of each process on there is time for all the work that arrives
with it or later, before the clock reaches `2 ^ 31`. -/
def EndsInInt (processes : List Process) : Prop :=
  ∀ p ∈ processes, p.arrival + laterWork processes p.arrival < 2 ^ 31

instance (processes : List Process) : Decidable (EndsInInt processes) :=
  inferInstanceAs (Decidable (∀ p ∈ processes, _))

section Ends

variable {ι : Type} [Fintype ι] [DecidableEq ι] {job : ι → Process}

/-- The same of the jobs of a schedule. -/
def JobsEnd (job : ι → Process) : Prop :=
  ∀ k, (jobs job).arrival k +
    ∑ j with (jobs job).arrival k ≤ (jobs job).arrival j, (jobs job).duration j ≤ 2 ^ 31 - 1

theorem EndsInInt.jobsEnd {processes : List Process} (hfresh : ∀ i, (processes.get i).Fresh)
    (h : EndsInInt processes) : JobsEnd processes.get := by
  intro k
  have harr := jobs_arrival hfresh
  have hdur := jobs_duration hfresh
  have hlater : laterWork processes (processes.get k).arrival =
      ((∑ j with (jobs processes.get).arrival k ≤ (jobs processes.get).arrival j,
        (jobs processes.get).duration j : Nat) : Int) := by
    rw [laterWork, Finset.sum_filter, Nat.cast_sum, ← Fin.sum_univ_fun_getElem]
    refine Finset.sum_congr rfl fun j _ => ?_
    have hk := harr k
    have hj := harr j
    rw [← List.get_eq_getElem]
    by_cases hle : (processes.get k).arrival ≤ (processes.get j).arrival
    · rw [if_pos hle, if_pos (by omega), hdur]
    · rw [if_neg hle, if_neg (by omega), Nat.cast_zero]
  have hend := h _ (List.get_mem processes k)
  rw [hlater] at hend
  have hk := harr k
  omega

omit [DecidableEq ι] in
/-- A process that is still to come. -/
theorem JobsEnd.arrival_lt (h : JobsEnd job) (i : ι) : (jobs job).arrival i < 2 ^ 31 := by
  have := (Nat.le_add_right _ _).trans (h i)
  omega

omit [DecidableEq ι] in
theorem JobsEnd.duration_lt (h : JobsEnd job) (i : ι) : (jobs job).duration i < 2 ^ 31 := by
  have hle : (jobs job).duration i ≤
      ∑ j with (jobs job).arrival i ≤ (jobs job).arrival j, (jobs job).duration j :=
    Finset.single_le_sum (fun _ _ => Nat.zero_le _)
      (Finset.mem_filter.mpr ⟨Finset.mem_univ i, le_rfl⟩)
  have := h i
  omega

/-- The process that runs is done before the clock is out of range. -/
theorem JobsEnd.running_lt {f : Nat → Option ι} {t : Nat} {i : ι} (h : JobsEnd job)
    (hf : (jobs job).Conserving f t) (hrun : running f t = some i) : t < 2 ^ 31 := by
  cases t with
  | zero => exact Nat.two_pow_pos 31
  | succ u =>
      have hpending := hf.pending (show f u = some i from hrun)
      have hle := hf.remaining_le (Nat.le_succ u) h hpending
      have := hpending.2
      rw [Jobs.remaining] at hle
      omega

end Ends

/-! ## In step -/

namespace Nonpreemptive

variable {A : PqueueArrival} {L : WaitingLine Process} {ι : Type} [Fintype ι] [DecidableEq ι]
  {job : ι → Process} {f : Nat → Option ι} {t : Nat} {cur : Option ι} {s : State A L}

/-- While there is something to do the clock is in range. -/
theorem Inv.time_lt (hfresh : ∀ i, (job i).Fresh) (hend : JobsEnd job) (h : Inv job f t s)
    (hgo : ¬ (s.idle && A.isEmpty s.workload && L.isEmpty s.arrived) = true) : t < 2 ^ 31 := by
  cases hrun : running f t with
  | some i => exact hend.running_lt h.conserving hrun
  | none =>
      rw [h.idle, hrun] at hgo
      have hsome : ¬ (A.items s.workload = 0 ∧ L.items s.arrived = 0) := by
        simpa [PriorityQueue.isEmpty_iff, WaitingLine.isEmpty_iff] using hgo
      rw [h.workload, h.arrived, pool_eq_zero, pool_eq_zero, not_and_or] at hsome
      push Not at hsome
      rcases hsome with ⟨i, hcome⟩ | ⟨i, harr, h0⟩
      · exact hcome.trans_lt (hend.arrival_lt i)
      · have hpos := jobs_duration_pos hfresh i
        have hle := h.conserving.remaining_le le_rfl hend (i := i) ⟨harr.le, by omega⟩
        omega

/-- The end of a process that starts is in range. -/
theorem Mid.dispatchInt (hfresh : ∀ i, (job i).Fresh) (hend : JobsEnd job)
    (h : Mid job f t (t + 1) cur s) : s.dispatchInt = s.dispatch := by
  cases hfront : L.front s.arrived with
  | none => simp only [State.dispatchInt, State.dispatch, hfront]
  | some p =>
      obtain ⟨i, ⟨harr, h0⟩, rfl⟩ := mem_pool.mp (h.arrived ▸ WaitingLine.front_mem hfront)
      have hdur := jobs_duration hfresh i
      have hpos := jobs_duration_pos hfresh i
      have hle := h.conserving.remaining_le le_rfl hend (i := i) ⟨by omega, by omega⟩
      rw [Jobs.remaining, h0] at hle
      have hwrap : wrap (s.time + (job i).duration) = s.time + (job i).duration := by
        rw [h.time, ← hdur]
        exact wrap_eq_self (by omega) (by omega)
      simp only [State.dispatchInt, State.dispatch, hfront, hwrap]

/-- One iteration of the two loops. -/
theorem Inv.bodyInt (hfresh : ∀ i, (job i).Fresh) (hend : JobsEnd job) (h : Inv job f t s) :
    (∃ s' x, s.body = .inl s' ∧ s.wrapTime.bodyInt = .inl s'.wrapTime ∧
      Inv job (update f t x) (t + 1) s') ∨
    (∃ r, s.body = .inr r ∧ s.wrapTime.bodyInt = .inr r) := by
  rcases h.iteration hfresh fun i => (hend.arrival_lt i).le with ⟨s', x, hb, hinv, -⟩ | ⟨hb, -⟩
  · have hgo : ¬ (s.idle && A.isEmpty s.workload && L.isEmpty s.arrived) = true := by
      intro hstop
      rw [State.body, if_pos hstop] at hb
      cases hb
    have hwrap : s.wrapTime = s := by
      have := h.time_lt hfresh hend hgo
      rw [State.wrapTime, h.time, wrap_natCast this, ← h.time]
    obtain ⟨cur, hmid⟩ := h.tick
    have hdispatch := (hmid.admitArrived hfresh).dispatchInt hfresh hend
    refine Or.inl ⟨s', x, hb, ?_, hinv⟩
    rw [State.body, if_neg hgo] at hb
    obtain rfl := Sum.inl.inj hb
    rw [hwrap, State.bodyInt, if_neg hgo, hdispatch]
    rfl
  · refine Or.inr ⟨_, hb, ?_⟩
    by_cases hstop : (s.idle && A.isEmpty s.workload && L.isEmpty s.arrived) = true
    · exact if_pos hstop
    · rw [State.body, if_neg hstop] at hb
      cases hb

/-- The loop on machine integers returns what the loop on integers returns. -/
theorem loop_bodyInt {jobs records : List Process} {workload : A.Queue} {fuel : Nat}
    (hw : A.items workload = jobs) (hfresh : ∀ i, (jobs.get i).Fresh) (hend : EndsInInt jobs)
    (hrun : loop State.body fuel (start (L := L) workload) = some records) :
    loop State.bodyInt fuel (start (L := L) workload) = some records := by
  have hends := hend.jobsEnd hfresh
  have hstep : ∀ s : State A L, (∃ f t, Inv jobs.get f t s) →
      (∃ s', s.body = .inl s' ∧ s.wrapTime.bodyInt = .inl s'.wrapTime ∧
        ∃ f t, Inv jobs.get f t s') ∨
      ∃ r, s.body = .inr r ∧ s.wrapTime.bodyInt = .inr r := by
    rintro s ⟨f, t, hinv⟩
    rcases hinv.bodyInt hfresh hends with ⟨s', x, hb, hb', hinv'⟩ | hend
    · exact .inl ⟨s', hb, hb', _, _, hinv'⟩
    · exact .inr hend
  have hstart : (start (L := L) workload).wrapTime = start (L := L) workload := by
    simp only [start, State.wrapTime, wrap_zero]
  rw [← hstart]
  exact loop_map hstep ⟨_, 0, inv_start (L := L) (items_eq_pool hw)⟩ hrun

end Nonpreemptive

namespace Stcf

variable {A : PqueueArrival} {D : PqueueDuration} {ι : Type} [Fintype ι] [DecidableEq ι]
  {job : ι → Process} {f : Nat → Option ι} {t : Nat} {s : State A D}

/-- While there is something to do the clock is in range. -/
theorem Inv.time_lt (hend : JobsEnd job) (h : Inv job f t s)
    (hgo : ¬ (s.idle && A.isEmpty s.workload && D.isEmpty s.arrived) = true) : t < 2 ^ 31 := by
  have hconserving := h.srpt.conserving
  cases hrun : running f t with
  | some i => exact hend.running_lt hconserving hrun
  | none =>
      rw [h.idle, hrun] at hgo
      have hsome : ¬ (A.items s.workload = 0 ∧ D.items s.arrived = 0) := by
        simpa [PriorityQueue.isEmpty_iff] using hgo
      rw [h.workload, h.arrived, pool_eq_zero, pool_eq_zero, not_and_or] at hsome
      push Not at hsome
      rcases hsome with ⟨i, hcome⟩ | ⟨i, ⟨harr, hleft⟩, -⟩
      · exact hcome.trans_lt (hend.arrival_lt i)
      · have hle := hconserving.remaining_le le_rfl hend ⟨harr.le, hleft⟩
        omega

/-- The time that the running process needs is in range. -/
theorem Inv.tickInt (hend : JobsEnd job) (h : Inv job f t s) : s.tickInt = s.tick := by
  unfold State.tickInt State.tick
  split
  · rfl
  · next hidle =>
      obtain ⟨i, hrun⟩ : ∃ i, running f t = some i := by
        rw [h.idle, Option.isNone_iff_eq_none] at hidle
        exact Option.ne_none_iff_exists'.mp hidle
      cases t with
      | zero => cases hrun
      | succ u =>
          have hongoing := h.ongoing u i rfl hrun
          have hlt := hend.duration_lt i
          have hcharge : s.ongoing.chargeInt = s.ongoing.charge := by
            rw [hongoing, Process.chargeInt, Process.charge, inTick, Jobs.remaining]
            congr 1
            exact wrap_eq_self (by simp only; omega) (by simp only; omega)
          rw [hcharge]

/-- One iteration of the two loops. -/
theorem Inv.bodyInt (hfresh : ∀ i, (job i).Fresh) (hend : JobsEnd job) (h : Inv job f t s) :
    (∃ s' x, s.body = .inl s' ∧ s.wrapTime.bodyInt = .inl s'.wrapTime ∧
      Inv job (update f t x) (t + 1) s') ∨
    (∃ r, s.body = .inr r ∧ s.wrapTime.bodyInt = .inr r) := by
  rcases h.iteration hfresh fun i => (hend.arrival_lt i).le with ⟨s', x, hb, hinv, -⟩ | ⟨hb, -⟩
  · have hgo : ¬ (s.idle && A.isEmpty s.workload && D.isEmpty s.arrived) = true := by
      intro hstop
      rw [State.body, if_pos hstop] at hb
      cases hb
    have hwrap : s.wrapTime = s := by
      have := h.time_lt hend hgo
      rw [State.wrapTime, h.time, wrap_natCast this, ← h.time]
    refine Or.inl ⟨s', x, hb, ?_, hinv⟩
    rw [State.body, if_neg hgo] at hb
    obtain rfl := Sum.inl.inj hb
    rw [hwrap, State.bodyInt, if_neg hgo, h.tickInt hend]
    rfl
  · refine Or.inr ⟨_, hb, ?_⟩
    by_cases hstop : (s.idle && A.isEmpty s.workload && D.isEmpty s.arrived) = true
    · exact if_pos hstop
    · rw [State.body, if_neg hstop] at hb
      cases hb

/-- The loop on machine integers returns what the loop on integers returns. -/
theorem loop_bodyInt {jobs records : List Process} {junk : Process} {workload : A.Queue}
    {fuel : Nat} (hw : A.items workload = jobs) (hfresh : ∀ i, (jobs.get i).Fresh)
    (hend : EndsInInt jobs) (hrun : stcf D junk fuel workload = some records) :
    stcfInt D junk fuel workload = some records := by
  have hends := hend.jobsEnd hfresh
  have hstep : ∀ s : State A D, (∃ f t, Inv jobs.get f t s) →
      (∃ s', s.body = .inl s' ∧ s.wrapTime.bodyInt = .inl s'.wrapTime ∧
        ∃ f t, Inv jobs.get f t s') ∨
      ∃ r, s.body = .inr r ∧ s.wrapTime.bodyInt = .inr r := by
    rintro s ⟨f, t, hinv⟩
    rcases hinv.bodyInt hfresh hends with ⟨s', x, hb, hb', hinv'⟩ | hend
    · exact .inl ⟨s', hb, hb', _, _, hinv'⟩
    · exact .inr hend
  have hstart : (start (D := D) junk workload).wrapTime = start (D := D) junk workload := by
    simp only [start, State.wrapTime, wrap_zero]
  rw [stcfInt, ← hstart]
  exact loop_map hstep ⟨_, 0, inv_start hfresh (D := D) junk (items_eq_pool hw)⟩ hrun

end Stcf

/-! ## Optimality -/

/-- **`stcf` is optimal for turnaround.** On every workload of fresh processes that is
done before the clock reaches `2 ^ 31`, `stcf` on machine integers returns the
records of a feasible schedule whose completion times add up to no more than those
of any other, nor do its turnaround times; in particular `fifo` and `sjf` do no
better. -/
theorem stcf_optimal {A : PqueueArrival} (D : PqueueDuration) (junk : Process)
    (jobs : List Process) (workload : A.Queue) (hw : A.items workload = jobs)
    (hfresh : ∀ p ∈ jobs, p.Fresh) (hend : EndsInInt jobs) :
    ∃ records : List Process,
      (∃ n, ∀ fuel, n < fuel → stcfInt D junk fuel workload = some records) ∧
      (∃ f, Tells jobs f records) ∧
      (∀ g completion, Feasible jobs.get g → Completes g completion →
        totalCompletion records ≤ ∑ i, completion i ∧
        totalTurnaround records ≤ ∑ i, (completion i - (jobs.get i).arrival)) ∧
      (∃ byFifo, (∃ n, ∀ fuel, n < fuel → fifoInt fuel workload = some byFifo) ∧
        (∃ g, Tells jobs g byFifo) ∧
        totalCompletion records ≤ totalCompletion byFifo ∧
        totalTurnaround records ≤ totalTurnaround byFifo) ∧
      ∃ bySjf, (∃ n, ∀ fuel, n < fuel → sjfInt D fuel workload = some bySjf) ∧
        (∃ g, Tells jobs g bySjf) ∧
        totalCompletion records ≤ totalCompletion bySjf ∧
        totalTurnaround records ≤ totalTurnaround bySjf := by
  have hall : ∀ i, (jobs.get i).Fresh := fun i => hfresh _ (List.get_mem jobs i)
  obtain ⟨r₁, f₁, t₁, h₁, n₁, hrun₁⟩ := nonpreemptive_run (WaitingLine.fifo Process) hw hall
  obtain ⟨r₂, f₂, t₂, h₂, n₂, hrun₂⟩ := nonpreemptive_run (WaitingLine.ofPriority D) hw hall
  obtain ⟨r₃, f₃, t₃, h₃, hsrpt, n₃, hrun₃⟩ := stcf_run D junk hw hall
  refine ⟨r₃, ⟨n₃, fun fuel hfuel => ?_⟩, ⟨f₃, h₃.tells hall⟩,
    fun g completion hg hc => h₃.optimal hall hsrpt hg hc,
    ⟨r₁, ⟨n₁, fun fuel hfuel => ?_⟩, ⟨f₁, h₁.tells hall⟩, h₃.optimal_timetable hall hsrpt h₁⟩,
    ⟨r₂, ⟨n₂, fun fuel hfuel => ?_⟩, ⟨f₂, h₂.tells hall⟩, h₃.optimal_timetable hall hsrpt h₂⟩⟩
  · exact Stcf.loop_bodyInt hw hall hend (hrun₃ fuel hfuel)
  · exact Nonpreemptive.loop_bodyInt hw hall hend (hrun₁ fuel hfuel)
  · exact Nonpreemptive.loop_bodyInt hw hall hend (hrun₂ fuel hfuel)

/-- A short process behind a long one. -/
theorem stcf_optimal_short_job :
    ∃ byStcf byFifo : List Process,
      (∃ n, ∀ fuel, n < fuel → stcfInt sortedByDuration ⟨0, 0, 0, 0⟩ fuel
        (sortedByArrival.ofList [⟨0, -1, 5, -1⟩, ⟨1, -1, 1, -1⟩]) = some byStcf) ∧
      (∃ f, Tells [⟨0, -1, 5, -1⟩, ⟨1, -1, 1, -1⟩] f byStcf) ∧
      (∃ n, ∀ fuel, n < fuel → fifoInt fuel
        (sortedByArrival.ofList [⟨0, -1, 5, -1⟩, ⟨1, -1, 1, -1⟩]) = some byFifo) ∧
      (∃ g, Tells [⟨0, -1, 5, -1⟩, ⟨1, -1, 1, -1⟩] g byFifo) ∧
      totalTurnaround byStcf ≤ totalTurnaround byFifo := by
  obtain ⟨byStcf, hstcf, htells, -, ⟨byFifo, hfifo, htells', -, hle⟩, -⟩ :=
    stcf_optimal sortedByDuration ⟨0, 0, 0, 0⟩ [⟨0, -1, 5, -1⟩, ⟨1, -1, 1, -1⟩]
      (sortedByArrival.ofList [⟨0, -1, 5, -1⟩, ⟨1, -1, 1, -1⟩])
      (PriorityQueue.items_ofList _) (by decide) (by decide)
  exact ⟨byStcf, byFifo, hstcf, htells, hfifo, htells', hle⟩

/-! ## Beyond the range -/

section Waits

variable {A : PqueueArrival} {L : WaitingLine Process} {D : PqueueDuration} {workload : A.Queue}
  {p : Process}

/-- Nothing is admitted before the first arrival. -/
theorem admitAll_early {β : Type} {push : β → Process → β} {arrived : β} {time : Int}
    (htop : A.top workload = some p) (hlt : time < p.arrival) :
    admitAll (fun p => decide (time ≥ p.arrival)) push workload arrived = (workload, arrived) := by
  unfold admitAll
  cases A.size workload with
  | zero => rfl
  | succ n => rw [admitLoop, htop]; simp [hlt]

/-- Until then `fifo` and `sjf` only count the ticks. -/
theorem Nonpreemptive.waits (htop : A.top workload = some p) (hp : p.arrival < 2 ^ 31) {k : Nat}
    (hk : k ≤ p.arrival) : iterate State.bodyInt k (start (L := L) workload) =
      some { start workload with time := (k : Int) } := by
  induction k with
  | zero => rfl
  | succ k ih =>
      have hfront : L.front L.empty = none := by
        simpa [WaitingLine.isEmpty] using WaitingLine.isEmpty_iff.mpr L.items_empty
      refine iterate_succ (ih (by omega)) ?_
      have hadmit : admitAll _ L.push workload L.empty = (workload, L.empty) :=
        admitAll_early htop (show (k : Int) < p.arrival by omega)
      have hwrap : wrap ((k : Int) + 1) = k + 1 := wrap_eq_self (by omega) (by omega)
      simp [State.bodyInt, start, PriorityQueue.isEmpty, htop, State.tick, State.admitArrived,
        hadmit, State.dispatchInt, hfront, hwrap]

/-- And so does `stcf`. -/
theorem Stcf.waits {junk : Process} (htop : A.top workload = some p) (hp : p.arrival < 2 ^ 31)
    {k : Nat} (hk : k ≤ p.arrival) : iterate State.bodyInt k (start (D := D) junk workload) =
      some { start junk workload with time := (k : Int) } := by
  induction k with
  | zero => rfl
  | succ k ih =>
      have hfront : D.top D.empty = none := by
        simpa [PriorityQueue.isEmpty] using PriorityQueue.isEmpty_iff.mpr D.items_empty
      refine iterate_succ (ih (by omega)) ?_
      have hadmit : admitAll _ D.push workload D.empty = (workload, D.empty) :=
        admitAll_early htop (show (k : Int) < p.arrival by omega)
      have hwrap : wrap ((k : Int) + 1) = k + 1 := wrap_eq_self (by omega) (by omega)
      simp [State.bodyInt, start, PriorityQueue.isEmpty, htop, State.tickInt, State.admitArrived,
        hadmit, State.dispatch, hfront, hwrap]

end Waits

/-- Two processes that arrive shortly before the clock wraps around. -/
def lateWorkload : List Process := [⟨2147483645, -1, 3, -1⟩, ⟨2147483646, -1, 1, -1⟩]

/-- From the first arrival on. -/
theorem late_fifo : loop Nonpreemptive.State.bodyInt 6 { Nonpreemptive.start
      (L := WaitingLine.fifo Process) (sortedByArrival.ofList lateWorkload) with
      time := 2147483645 } =
    some [⟨2147483645, 2147483645, 3, -2147483648⟩,
      ⟨2147483646, -2147483648, 1, -2147483647⟩] := by
  decide +kernel

theorem late_stcf : loop Stcf.State.bodyInt 6 { Stcf.start (D := sortedByDuration) ⟨0, 0, 0, 0⟩
      (sortedByArrival.ofList lateWorkload) with time := 2147483645 } =
    some [⟨2147483646, 2147483646, 0, 2147483647⟩,
      ⟨2147483645, 2147483645, 0, -2147483647⟩] := by
  decide +kernel

/-- Under `fifo` both of them complete when the clock has wrapped, under `stcf` only
one of them. -/
theorem late_totals :
    ∃ byFifo byStcf : List Process, (∀ p ∈ lateWorkload, p.Fresh) ∧
      (∃ n, ∀ fuel, n < fuel → fifoInt fuel (sortedByArrival.ofList lateWorkload) = some byFifo) ∧
      (∃ n, ∀ fuel, n < fuel → stcfInt sortedByDuration ⟨0, 0, 0, 0⟩ fuel
        (sortedByArrival.ofList lateWorkload) = some byStcf) ∧
      totalCompletion byFifo < totalCompletion byStcf := by
  obtain ⟨k, hk⟩ : ∃ k : Nat, (k : Int) = 2147483645 := ⟨2147483645, rfl⟩
  have htop : sortedByArrival.top (sortedByArrival.ofList lateWorkload) =
      some ⟨2147483645, -1, 3, -1⟩ := by decide
  have hfifo : loop Nonpreemptive.State.bodyInt (k + 6) (Nonpreemptive.start
      (L := WaitingLine.fifo Process) (sortedByArrival.ofList lateWorkload)) = _ :=
    loop_iterate (Nonpreemptive.waits htop (by decide) hk.le)
  have hstcf : loop Stcf.State.bodyInt (k + 6) (Stcf.start (D := sortedByDuration) ⟨0, 0, 0, 0⟩
      (sortedByArrival.ofList lateWorkload)) = _ :=
    loop_iterate (Stcf.waits htop (by decide) hk.le)
  rw [hk, late_fifo] at hfifo
  rw [hk, late_stcf] at hstcf
  refine ⟨_, _, by decide, ⟨k + 6, fun fuel hfuel => loop_mono hfifo hfuel.le⟩,
    ⟨k + 6, fun fuel hfuel => loop_mono hstcf hfuel.le⟩, by decide⟩

end Os377.Sched
