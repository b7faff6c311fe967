import Os377.Sched.Nonpreemptive
import Os377.Sched.Timetable

/-!
# `fifo` and `sjf` waste no tick

The loop keeps a schedule of the ticks that have passed, as the loop of `stcf`
does: a process that has started gets every tick until its end, and the processor
idles only when no process waits. Whatever line the processes wait in, the run
leaves a `Timetable`.

* `Inv` — what holds at the top of an iteration;
* `Mid` — what holds between the parts of an iteration;
* `Inv.iteration` — one iteration, `run_spec` — the whole run.
-/

namespace Os377.Sched

open Os377.Lib Function
open Stcf (jobs record admitAll_pool jobs_arrival jobs_duration jobs_duration_pos)

namespace Nonpreemptive

variable {A : PqueueArrival} {L : WaitingLine Process}
variable {ι : Type} [Fintype ι] [DecidableEq ι] (job : ι → Process)

/-- The record of a process that has started: it will run until it is done. -/
def planned (f : Nat → Option ι) (t : Nat) (i : ι) : Process where
  arrival := (job i).arrival
  firstRun := (record job f t i).firstRun
  duration := (job i).duration
  completion := lastTick f i t + 1 + (jobs job).remaining f t i

/-- `complete` holds the records of the jobs that have started, in the order of
their ticks. -/
def Started (f : Nat → Option ι) (t : Nat) (complete : List Process) : Prop :=
  ∃ order : List ι, complete = order.map (planned job f t) ∧ (∀ i, i ∈ order ↔ 0 < served f i t) ∧
    order.Pairwise fun i j => lastTick f i t < lastTick f j t

/-- Between the parts of iteration `t`: the processes with arrival before `b` are
admitted, and `cur` is the process that goes on. -/
structure Mid (f : Nat → Option ι) (t b : Nat) (cur : Option ι) (s : State A L) : Prop where
  conserving : (jobs job).Conserving f t
  time : s.time = t
  workload : A.items s.workload = pool (fun i => b ≤ (jobs job).arrival i) job
  arrived : L.items s.arrived =
    pool (fun i => (jobs job).arrival i < b ∧ served f i t = 0) job
  idle : s.idle = cur.isNone
  current : ∀ i, cur = some i → running f t = some i ∧ served f i t < (jobs job).duration i ∧
    s.timeend = t + (jobs job).remaining f t i
  /-- A process that has started and is not done is the one on the processor. -/
  alone : ∀ i, 0 < served f i t → served f i t < (jobs job).duration i → cur = some i
  complete : Started job f t s.complete

/-- At the top of iteration `t`: the process that ran in the tick before still
counts as running. -/
structure Inv (f : Nat → Option ι) (t : Nat) (s : State A L) : Prop where
  conserving : (jobs job).Conserving f t
  time : s.time = t
  workload : A.items s.workload = pool (fun i => t ≤ (jobs job).arrival i) job
  arrived : L.items s.arrived =
    pool (fun i => (jobs job).arrival i < t ∧ served f i t = 0) job
  idle : s.idle = (running f t).isNone
  timeend : ∀ i, running f t = some i → s.timeend = t + (jobs job).remaining f t i
  alone : ∀ i, 0 < served f i t → served f i t < (jobs job).duration i → running f t = some i
  complete : Started job f t s.complete

variable {job} {f : Nat → Option ι} {t : Nat} {s : State A L} {i : ι}

section Records

omit [Fintype ι]

/-- A record does not change while another process runs, or none. -/
theorem planned_update {x : Option ι} (h : x ≠ some i) :
    planned job (update f t x) (t + 1) i = planned job f t i := by
  rw [planned, planned, Stcf.record_update h, lastTick, update_self, if_neg h, lastTick_update,
    Jobs.remaining, Jobs.remaining, served_succ, served_update (le_refl t), update_self, if_neg h,
    Nat.add_zero]

theorem lastTick_running (h : running f t = some i) : lastTick f i t + 1 = t := by
  cases t with
  | zero => cases h
  | succ u =>
      have hu : f u = some i := h
      rw [lastTick, if_pos hu]

/-- Nor does it while the process runs on. -/
theorem planned_running (h : running f t = some i)
    (hlt : served f i t < (jobs job).duration i) (hpos : 0 < served f i t) :
    planned job (update f t (some i)) (t + 1) i = planned job f t i := by
  have hfirst : firstTick (update f t (some i)) i (t + 1) = firstTick f i t := by
    obtain ⟨u, hu⟩ : ∃ u, firstTick f i t = some u := by
      refine Option.ne_none_iff_exists'.mp fun hnone => ?_
      rw [firstTick_eq_none] at hnone
      omega
    rw [firstTick, firstTick_update, hu, Option.some_or]
  have hlast := lastTick_running h
  unfold planned record
  rw [hfirst, lastTick, update_self, if_pos rfl, Jobs.remaining, Jobs.remaining, served_succ,
    served_update (le_refl t), update_self, if_pos rfl]
  congr 1
  omega

/-- The record that `fifo` and `sjf` store when a process starts. -/
theorem planned_start (hfresh : (job i).Fresh) (h0 : served f i t = 0) :
    planned job (update f t (some i)) (t + 1) i =
      { job i with firstRun := (t : Int), completion := (t : Int) + (job i).duration } := by
  have hdur := hfresh.duration
  have hfirst : firstTick (update f t (some i)) i (t + 1) = some t := by
    rw [firstTick, firstTick_update, update_self, if_pos rfl, firstTick_eq_none.mpr h0,
      Option.none_or]
  unfold planned record
  rw [hfirst, lastTick, update_self, if_pos rfl, Jobs.remaining, served_succ,
    served_update (le_refl t), update_self, if_pos rfl, h0]
  simp only [jobs]
  congr 1
  omega

/-- A tick for nobody, or for a process that has started. -/
theorem Started.goesOn {x : Option ι} {complete : List Process} (h : Started job f t complete)
    (hx : ∀ i, x = some i → running f t = some i ∧ served f i t < (jobs job).duration i ∧
      0 < served f i t) : Started job (update f t x) (t + 1) complete := by
  obtain ⟨order, rfl, hmem, hsorted⟩ := h
  refine ⟨order, List.map_congr_left fun i _ => ?_, fun i => ?_, ?_⟩
  · by_cases hxi : x = some i
    · obtain ⟨hrun, hlt, hpos⟩ := hx i hxi
      rw [hxi, planned_running hrun hlt hpos]
    · rw [planned_update hxi]
  · rw [hmem, served_succ, served_update (le_refl t), update_self]
    split
    · next hxi =>
        have := (hx i hxi).2.2
        omega
    · rfl
  · refine hsorted.imp_of_mem fun {i j} hi hj hij => ?_
    have hjlast := (lastTick_spec ((hmem j).mp hj)).1
    rw [lastTick, lastTick, update_self, lastTick_update, lastTick_update]
    by_cases hxi : x = some i
    · -- the process that runs is the last one that has started
      have := lastTick_running (hx i hxi).1
      omega
    · rw [if_neg hxi]
      split <;> omega

/-- A tick for a process that starts in it. -/
theorem Started.snoc {complete : List Process} (h : Started job f t complete)
    (hfresh : (job i).Fresh) (h0 : served f i t = 0) :
    Started job (update f t (some i)) (t + 1) (complete ++
      [{ job i with firstRun := (t : Int), completion := (t : Int) + (job i).duration }]) := by
  obtain ⟨order, rfl, hmem, hsorted⟩ := h
  have hne : ∀ j ∈ order, some i ≠ some j := by
    rintro j hj ⟨⟩
    have := (hmem i).mp hj
    omega
  refine ⟨order ++ [i], ?_, fun j => ?_, ?_⟩
  · rw [List.map_append, List.map_singleton, planned_start hfresh h0]
    congr 1
    exact List.map_congr_left fun j hj => (planned_update (hne j hj)).symm
  · rw [List.mem_append, List.mem_singleton, hmem, served_succ, served_update (le_refl t),
      update_self]
    by_cases hij : j = i
    · simp [hij]
    · have hne' : some i ≠ some j := fun h => hij (Option.some.inj h).symm
      simp [hij, hne']
  · have hlast : ∀ j ∈ order, lastTick (update f t (some i)) j (t + 1) = lastTick f j t := by
      intro j hj
      rw [lastTick, update_self, if_neg (hne j hj), lastTick_update]
    rw [List.pairwise_append]
    refine ⟨hsorted.imp_of_mem fun {j k} hj hk hjk => ?_, List.pairwise_singleton _ _,
      fun j hj k hk => ?_⟩
    · rwa [hlast j hj, hlast k hk]
    · rw [List.mem_singleton] at hk
      rw [hk, hlast j hj, lastTick, update_self, if_pos rfl]
      exact (lastTick_spec ((hmem j).mp hj)).1

end Records

/-! ## One iteration -/

/-- Freeing the processor of a process that is done. -/
theorem Inv.tick (h : Inv job f t s) : ∃ cur, Mid job f t t cur s.tick := by
  cases hrun : running f t with
  | none =>
      have hidle : s.idle = true := by
        rw [h.idle, hrun]
        rfl
      have htick : s.tick = s := if_pos hidle
      rw [htick]
      refine ⟨none, h.conserving, h.time, h.workload, h.arrived, hidle, by simp, ?_, h.complete⟩
      intro i hpos hlt
      exact hrun ▸ h.alone i hpos hlt
  | some i =>
      have hidle : s.idle = false := by
        rw [h.idle, hrun]
        rfl
      have hend := h.timeend i hrun
      have hle := h.conserving.served_le (i := i) (u := t)
      by_cases hdone : served f i t = (jobs job).duration i
      · have hrem : (jobs job).remaining f t i = 0 := by
          rw [Jobs.remaining, hdone, Nat.sub_self]
        have htick : s.tick = { s with idle := true } := by
          rw [State.tick, if_neg (by simp [hidle]), if_pos]
          rw [h.time, hend, hrem]
          simp
        rw [htick]
        refine ⟨none, h.conserving, h.time, h.workload, h.arrived, rfl, by simp, ?_, h.complete⟩
        intro j hpos hlt
        have hj := h.alone j hpos hlt
        rw [hrun, Option.some.injEq] at hj
        subst hj
        omega
      · have hlt : served f i t < (jobs job).duration i := by omega
        have htick : s.tick = s := by
          rw [State.tick, if_neg (by simp [hidle]), if_neg]
          rw [h.time, hend, Jobs.remaining]
          omega
        rw [htick]
        refine ⟨some i, h.conserving, h.time, h.workload, h.arrived, hidle, ?_, ?_, h.complete⟩
        · rintro j ⟨⟩
          exact ⟨hrun, hlt, hend⟩
        · exact fun j hpos hj => hrun ▸ h.alone j hpos hj

/-- Admitting the processes that arrive in tick `t`. -/
theorem Mid.admitArrived {cur : Option ι} (hfresh : ∀ i, (job i).Fresh)
    (h : Mid job f t t cur s) : Mid job f t (t + 1) cur s.admitArrived := by
  obtain ⟨moved, hpush, hmoved, hrest⟩ := admitAll_pool (fun p => decide (s.time ≥ p.arrival))
    L.push s.arrived hfresh h.workload fun i hi => by
      have := jobs_arrival hfresh i
      rw [h.time, decide_eq_true_eq]
      omega
  refine ⟨h.conserving, h.time, hrest, ?_, h.idle, h.current, h.alone, h.complete⟩
  · show L.items (admitAll _ L.push s.workload s.arrived).2 = _
    rw [hpush, WaitingLine.items_foldl_push, h.arrived, hmoved, pool_add fun i hi => by omega]
    refine pool_congr (fun i => ?_) fun _ _ => rfl
    have hzero := h.conserving.served_eq_zero (i := i) (u := t)
    omega

/-- The end of an iteration that starts no process. -/
theorem Mid.goesOn {cur : Option ι} (h : Mid job f t (t + 1) cur s)
    (hx : (jobs job).Busy f t cur) (hdispatch : s.dispatch = s) :
    Inv job (update f t cur) (t + 1) { s.dispatch with time := s.time + 1 } := by
  have hcur : ∀ i, cur = some i → 0 < served f i t := by
    intro i hi
    refine served_pos_iff.mpr ⟨t - 1, ?_⟩
    have hrun := (h.current i hi).1
    cases t with
    | zero => cases hrun
    | succ u => exact ⟨by omega, hrun⟩
  rw [hdispatch]
  refine ⟨h.conserving.extend hx, ?_, h.workload, ?_, ?_, fun i hi => ?_, fun i hpos hlt => ?_, ?_⟩
  · rw [h.time]
    rfl
  · rw [h.arrived]
    refine pool_congr (fun i => ?_) fun _ _ => rfl
    rw [served_succ, served_update (le_refl t), update_self]
    split
    · next hi =>
        have := hcur i hi
        omega
    · rfl
  · rw [h.idle, running_update]
  · rw [running_update] at hi
    obtain ⟨-, hlt, hend⟩ := h.current i hi
    show s.timeend = _
    rw [hend, Jobs.remaining, Jobs.remaining, served_succ, served_update (le_refl t), update_self,
      if_pos hi]
    omega
  · rw [running_update]
    rw [served_succ, served_update (le_refl t), update_self] at hpos hlt
    by_cases hi : cur = some i
    · exact hi
    · rw [if_neg hi] at hpos hlt
      exact h.alone i hpos hlt
  · exact h.complete.goesOn fun i hi => ⟨(h.current i hi).1, (h.current i hi).2.1, hcur i hi⟩

/-- The end of an iteration that starts the process in front. -/
theorem Mid.starts (hfresh : ∀ i, (job i).Fresh) (h : Mid job f t (t + 1) none s)
    (harr : (jobs job).arrival i ≤ t) (h0 : served f i t = 0)
    (hfront : L.front s.arrived = some (job i)) :
    Inv job (update f t (some i)) (t + 1) { s.dispatch with time := s.time + 1 } := by
  have hpos := jobs_duration_pos hfresh i
  have hdur := jobs_duration hfresh i
  have hidle : s.idle = true := h.idle
  have hdispatch : s.dispatch = { s with
      arrived := L.pop s.arrived
      idle := false
      timeend := t + (job i).duration
      complete := s.complete ++
        [{ job i with firstRun := (t : Int), completion := (t : Int) + (job i).duration }] } := by
    simp only [State.dispatch, hidle, if_true, hfront, h.time]
  rw [hdispatch]
  refine ⟨h.conserving.extend ⟨harr, by omega⟩, ?_, h.workload, ?_, ?_, fun j hj => ?_,
    fun j hjpos hjlt => ?_, h.complete.snoc (hfresh i) h0⟩
  · show s.time + 1 = _
    rw [h.time]
    rfl
  · have hpop := L.items_of_front _ _ hfront
    rw [h.arrived, pool_erase ⟨by omega, h0⟩] at hpop
    show L.items (L.pop s.arrived) = _
    rw [← (Multiset.cons_inj_right _).mp hpop]
    refine pool_congr (fun j => ?_) fun _ _ => rfl
    rw [served_succ, served_update (le_refl t), update_self]
    by_cases hji : j = i
    · simp [hji]
    · have hne : some i ≠ some j := fun h => hji (Option.some.inj h).symm
      simp [hji, hne]
  · rw [running_update]
    rfl
  · rw [running_update, Option.some.injEq] at hj
    subst hj
    show (t : Int) + (job i).duration = _
    rw [Jobs.remaining, served_succ, served_update (le_refl t), update_self, if_pos rfl, h0]
    omega
  · rw [running_update]
    rw [served_succ, served_update (le_refl t), update_self] at hjpos hjlt
    by_cases hji : some i = some j
    · exact hji
    · rw [if_neg hji] at hjpos hjlt
      exact absurd (h.alone j hjpos hjlt) (by simp)

/-- Choosing the process for tick `t`. -/
theorem Mid.dispatch {cur : Option ι} (hfresh : ∀ i, (job i).Fresh)
    (h : Mid job f t (t + 1) cur s) : ∃ x, (jobs job).Busy f t x ∧
      Inv job (update f t x) (t + 1) { s.dispatch with time := s.time + 1 } := by
  cases hcur : cur with
  | some i =>
      subst hcur
      obtain ⟨hrun, hlt, -⟩ := h.current i rfl
      have hbusy : (jobs job).Busy f t (some i) := by
        refine ⟨?_, hlt⟩
        cases t with
        | zero => cases hrun
        | succ u =>
            have := (h.conserving.pending (show f u = some i from hrun)).1
            omega
      have hidle : s.idle = false := h.idle
      exact ⟨some i, hbusy, h.goesOn hbusy (if_neg (by simp [hidle]))⟩
  | none =>
      subst hcur
      cases hfront : L.front s.arrived with
      | none =>
          have hnone := pool_eq_zero.mp (h.arrived.symm.trans (L.items_of_front_none _ hfront))
          have hbusy : (jobs job).Busy f t none := by
            rintro j ⟨harr, hlt⟩
            refine hnone j ⟨by omega, ?_⟩
            by_contra hpos
            exact absurd (h.alone j (by omega) hlt) (by simp)
          have hidle : s.idle = true := h.idle
          have hdispatch : s.dispatch = s := by
            simp only [State.dispatch, hidle, hfront, if_true]
          exact ⟨none, hbusy, h.goesOn hbusy hdispatch⟩
      | some p =>
          obtain ⟨i, ⟨harr, h0⟩, rfl⟩ :=
            mem_pool.mp (h.arrived ▸ WaitingLine.front_mem hfront)
          have hpos := jobs_duration_pos hfresh i
          exact ⟨some i, ⟨by omega, by omega⟩, h.starts hfresh (by omega) h0 hfront⟩

/-- One iteration of the loop either extends the schedule by one tick, with a
smaller bound, or finds that every job is finished. -/
theorem Inv.iteration {limit : Nat} (hfresh : ∀ i, (job i).Fresh)
    (hlimit : ∀ i, (jobs job).arrival i ≤ limit) (h : Inv job f t s) :
    (∃ s' x, s.body = .inl s' ∧ Inv job (update f t x) (t + 1) s' ∧
      Stcf.bound job (update f t x) limit (t + 1) < Stcf.bound job f limit t) ∨
    (s.body = .inr s.complete ∧ ∀ i, served f i t = (jobs job).duration i) := by
  by_cases hstop : (s.idle && A.isEmpty s.workload && L.isEmpty s.arrived) = true
  · right
    refine ⟨if_pos hstop, fun i => ?_⟩
    simp only [Bool.and_eq_true] at hstop
    obtain ⟨⟨hidle, hworkload⟩, harrived⟩ := hstop
    have hrun : running f t = none := by simpa [h.idle] using hidle
    have hw := pool_eq_zero.mp (h.workload.symm.trans (PriorityQueue.isEmpty_iff.mp hworkload)) i
    have ha := pool_eq_zero.mp (h.arrived.symm.trans (WaitingLine.isEmpty_iff.mp harrived)) i
    have hle := h.conserving.served_le (i := i) (u := t)
    by_contra hne
    have hstarted := h.alone i (by omega) (by omega)
    rw [hrun] at hstarted
    cases hstarted
  · left
    obtain ⟨cur, hmid⟩ := h.tick
    have hadmitted := hmid.admitArrived hfresh
    obtain ⟨x, hx, hinv⟩ := hadmitted.dispatch hfresh
    rw [hadmitted.time, ← h.time] at hinv
    refine ⟨_, x, if_neg hstop, hinv, ?_⟩
    refine Stcf.bound_lt hfresh hlimit h.conserving hx fun hnone hrun => ?_
    -- the loop idles: a process is still to come
    subst hnone
    have hnotEmpty : ¬ (A.items s.workload = 0 ∧ L.items s.arrived = 0) := by
      rw [h.idle, hrun] at hstop
      simpa [PriorityQueue.isEmpty_iff, WaitingLine.isEmpty_iff] using hstop
    have harrived : L.items s.arrived = 0 := by
      rw [h.arrived, pool_eq_zero]
      rintro i ⟨harr, h0⟩
      have hpos := jobs_duration_pos hfresh i
      exact hx i ⟨by omega, by omega⟩
    by_contra hnone
    push Not at hnone
    refine hnotEmpty ⟨?_, harrived⟩
    rw [h.workload, pool_eq_zero]
    exact fun i => not_le.mpr (hnone i)

/-- The first `t` iterations show in `idle` which ticks are busy. -/
def ShowsUpTo (f : Nat → Option ι) (start : State A L) (t : Nat) : Prop :=
  ∀ u < t, ∃ s, iterate State.body (u + 1) start = some s ∧ s.idle = (f u).isNone

omit [Fintype ι] [DecidableEq ι] in
theorem ShowsUpTo.extend {x : Option ι} {start s' : State A L} (h : ShowsUpTo f start t)
    (hiter : iterate State.body (t + 1) start = some s') (hidle : s'.idle = x.isNone) :
    ShowsUpTo (update f t x) start (t + 1) := by
  intro u hu
  rcases Nat.lt_succ_iff_lt_or_eq.mp hu with hlt | rfl
  · obtain ⟨s, hs, hshow⟩ := h u hlt
    exact ⟨s, hs, by rw [update_of_ne (by omega), hshow]⟩
  · exact ⟨s', hiter, by rw [update_self, hidle]⟩

/-- When the loop ends, its schedule is a timetable. -/
theorem Inv.timetable {start : State A L} (hfresh : ∀ i, (job i).Fresh) (h : Inv job f t s)
    (hall : ∀ i, served f i t = (jobs job).duration i)
    (hiter : iterate State.body t start = some s) (hb : s.body = .inr s.complete)
    (hshows : ShowsUpTo f start t) :
    Timetable job (busyTicks State.body State.idle start) s.complete f t := by
  refine ⟨h.conserving, hall, busyTicks_eq (fun u hs => ?_) fun u s' hs => ?_, ?_⟩
  · by_cases hu : u < t
    · obtain ⟨s', hs', -⟩ := hshows u hu
      rw [hs] at hs'
      cases hs'
    · exact h.conserving.beyond u (by omega)
  · have hu : u < t := by
      by_contra hge
      rw [iterate_end hiter hb (by omega)] at hs
      cases hs
    obtain ⟨s'', hs'', hidle⟩ := hshows u hu
    rw [hs, Option.some.injEq] at hs''
    rw [hs'', hidle]
  · obtain ⟨order, horder, hmem, hsorted⟩ := h.complete
    refine ⟨order, hsorted.imp fun hlt => ?_, fun i => ?_, ?_⟩
    · intro heq
      subst heq
      omega
    · rw [hmem, hall]
      exact jobs_duration_pos hfresh i
    · rw [horder, List.forall₂_map_right_iff, List.forall₂_same]
      intro i _
      refine ⟨rfl, ?_⟩
      rw [planned, Jobs.remaining, hall, Nat.sub_self]
      simp

/-- The loop starts with the empty schedule and every process in `workload`. -/
theorem inv_start {workload : A.Queue} (hw : A.items workload = pool (fun _ => True) job) :
    Inv job (fun _ => none) 0 (start (L := L) workload) := by
  refine ⟨Jobs.Conserving.nil, rfl, ?_, ?_, rfl, by simp [running], by simp, ?_⟩
  · exact hw.trans (pool_congr (fun i => by simp) (fun _ _ => rfl))
  · rw [pool_eq_zero.mpr (by simp)]
    exact L.items_empty
  · exact ⟨[], rfl, by simp, List.Pairwise.nil⟩

/-- **The whole run.** -/
theorem run_spec (hfresh : ∀ i, (job i).Fresh) {start : State A L}
    (h0 : Inv job (fun _ => none) 0 start) :
    ∃ records f t, Timetable job (busyTicks State.body State.idle start) records f t ∧
      ∃ n, ∀ fuel, n < fuel → loop State.body fuel start = some records := by
  obtain ⟨limit, hlimit⟩ : ∃ limit, ∀ i, (jobs job).arrival i ≤ limit :=
    ⟨∑ i, (jobs job).arrival i, fun i =>
      Finset.single_le_sum (fun _ _ => Nat.zero_le _) (Finset.mem_univ i)⟩
  let I : Nat → State A L → Prop := fun n s => ∃ f t, Inv job f t s ∧
    iterate State.body t start = some s ∧ ShowsUpTo f start t ∧ Stcf.bound job f limit t = n
  have hbody : ∀ n s, I n s →
      (∃ s' m, s.body = .inl s' ∧ m < n ∧ I m s') ∨
      (∃ r, s.body = .inr r ∧
        ∃ f t, Timetable job (busyTicks State.body State.idle start) r f t) := by
    rintro n s ⟨f, t, hinv, hiter, hshows, rfl⟩
    rcases hinv.iteration hfresh hlimit with ⟨s', x, hb, hinv', hlt⟩ | ⟨hb, hall⟩
    · have hiter' := iterate_succ hiter hb
      have hidle := hinv'.idle
      rw [running_update] at hidle
      exact Or.inl ⟨s', _, hb, hlt, update f t x, t + 1, hinv', hiter',
        hshows.extend hiter' hidle, rfl⟩
    · exact Or.inr ⟨_, hb, f, t, hinv.timetable hfresh hall hiter hb hshows⟩
  obtain ⟨records, ⟨f, t, htable⟩, hrun⟩ := loop_total hbody (s := start)
    ⟨_, 0, h0, rfl, fun u hu => absurd hu (by omega), rfl⟩
  exact ⟨records, f, t, htable, _, hrun⟩

end Nonpreemptive

end Os377.Sched
