import Os377.Sched.RoundRobin
import Os377.Sched.Compare
import Os377.Lib.Turns
import Mathlib.Algebra.BigOperators.Fin
import Mathlib.Tactic.IntervalCases

/-!
# When round robin serves its workload

Until the first tick in which no process waits, the loop keeps a schedule of the
ticks that have passed, as the loop of `stcf` does; in such a tick it charges a
process that is not there. So `rr` does what it should exactly if there is no
such tick (`Gapless`): at every time before the total duration more work has
arrived than ticks have passed.

* `Inv` — what holds at the top of an iteration;
* `Mid` — what holds when the arrivals have been admitted;
* `Inv.iteration` — one iteration, `run_spec` — the whole run;
* `Charges.noGap` — a workload that is served has no gap.
-/

namespace Os377.Sched

open Os377.Lib Function
open Stcf (admitAll_pool jobs record inTick Completed Reports jobs_arrival jobs_duration
  jobs_duration_pos)

namespace RoundRobin

variable {A : PqueueArrival}
variable {ι : Type} [Fintype ι] [DecidableEq ι] (job : ι → Process)

/-- When the arrivals of tick `t` have been admitted: every pending job waits. -/
structure Mid (f : Nat → Option ι) (t : Nat) (s : State A) : Prop where
  conserving : (jobs job).Conserving f t
  time : s.time = t
  workload : A.items s.workload = pool (fun i => t + 1 ≤ (jobs job).arrival i) job
  arrived : (s.arrived : Multiset Process) = pool ((jobs job).Pending f t) (record job f t)
  complete : Completed job f t (fun i => served f i t = (jobs job).duration i) s.complete

/-- At the top of iteration `t`: every job that has arrived and is not done waits. -/
structure Inv (f : Nat → Option ι) (t : Nat) (s : State A) : Prop where
  conserving : (jobs job).Conserving f t
  time : s.time = t
  workload : A.items s.workload = pool (fun i => t ≤ (jobs job).arrival i) job
  arrived : (s.arrived : Multiset Process) = pool (fun i => (jobs job).arrival i < t ∧
    served f i t < (jobs job).duration i) (record job f t)
  idle : s.arrived = [] → s.idle = true
  complete : Completed job f t (fun i => served f i t = (jobs job).duration i) s.complete
  /-- No tick so far was a gap. -/
  ran : ∀ u < t, (f u).isSome

variable {job} {f : Nat → Option ι} {t : Nat} {s : State A} {i : ι}

omit [Fintype ι] [DecidableEq ι] in
theorem ran_update (h : ∀ u < t, (f u).isSome) : ∀ u < t + 1, (update f t (some i) u).isSome := by
  intro u hu
  by_cases hut : u = t
  · rw [hut, update_self]
    rfl
  · rw [update_of_ne hut]
    exact h u (by omega)

theorem foldl_snoc (moved arrived : List Process) :
    moved.foldl (fun arrived p => arrived ++ [p]) arrived = arrived ++ moved := by
  induction moved generalizing arrived with
  | nil => rw [List.foldl_nil, List.append_nil]
  | cons p moved ih => rw [List.foldl_cons, ih, List.append_assoc, List.singleton_append]

/-- Admission in tick `t` moves the processes that arrive in it: all that have not
been admitted arrive in tick `t` or later. -/
theorem Inv.moved (hfresh : ∀ i, (job i).Fresh) (h : Inv job f t s) :
    ∃ moved : List Process, s.admitArrived.arrived = s.arrived ++ moved ∧
      (moved : Multiset Process) = pool (fun i => (jobs job).arrival i = t) (record job f t) ∧
      A.items s.admitArrived.workload = pool (fun i => t + 1 ≤ (jobs job).arrival i) job := by
  obtain ⟨moved, hpush, hmoved, hrest⟩ := admitAll_pool (fun p => decide (s.time = p.arrival))
    (fun arrived p => arrived ++ [p]) s.arrived hfresh h.workload fun i hi => by
      have := jobs_arrival hfresh i
      rw [h.time, decide_eq_true_eq]
      omega
  refine ⟨moved, hpush.trans (foldl_snoc moved s.arrived), ?_, hrest⟩
  rw [hmoved]
  refine pool_congr (fun _ => Iff.rfl) fun i hi => ?_
  exact (Stcf.record_unserved (hfresh i) (h.conserving.served_eq_zero hi.ge)).symm

/-- Then every pending job waits. -/
theorem Inv.admitArrived (hfresh : ∀ i, (job i).Fresh) (h : Inv job f t s) :
    Mid job f t s.admitArrived := by
  obtain ⟨moved, harrived, hnew, hrest⟩ := h.moved hfresh
  refine ⟨h.conserving, h.time, hrest, ?_, h.complete⟩
  rw [harrived, ← Multiset.coe_add, h.arrived, hnew, pool_add fun i hi => by omega]
  refine pool_congr (fun i => ?_) fun _ _ => rfl
  have hpos := jobs_duration_pos hfresh i
  have hzero := h.conserving.served_eq_zero (i := i) (u := t)
  unfold Jobs.Pending
  omega

section Tick

variable {rest : List Process}

/-- The process in front is taken and charged. -/
theorem Mid.charged (h : Mid job f t s) (hi : (jobs job).Pending f t i)
    (harr : s.arrived = record job f t i :: rest) :
    s.dispatch = { s with
      arrived := rest
      ongoing := inTick job (update f t (some i)) t i
      idle := false } ∧
    (inTick job (update f t (some i)) t i).charge = record job (update f t (some i)) (t + 1) i := by
  refine ⟨?_, Stcf.inTick_charge (update_self ..) ?_⟩
  · rw [Stcf.inTick_update, ← h.time]
    simp only [State.dispatch, harr]
  · rw [served_update (le_refl t)]
    exact hi.2

/-- The others keep their records. -/
theorem Mid.others (h : Mid job f t s) (hi : (jobs job).Pending f t i)
    (harr : s.arrived = record job f t i :: rest) :
    (rest : Multiset Process) = pool (fun j => (jobs job).Pending f t j ∧ j ≠ i)
      (record job (update f t (some i)) (t + 1)) := by
  have hall := h.arrived
  rw [harr, ← Multiset.cons_coe, pool_erase hi, Multiset.cons_inj_right] at hall
  rw [hall]
  refine pool_congr (fun _ => Iff.rfl) fun j hj => (Stcf.record_update ?_).symm
  exact fun h => hj.2 (Option.some.inj h).symm

/-- The completed records after a tick for the pending job `i`. -/
theorem Mid.completed (h : Mid job f t s) (hi : (jobs job).Pending f t i) :
    Completed job (update f t (some i)) (t + 1) (fun j =>
      served (update f t (some i)) j (t + 1) = (jobs job).duration j ∧ some i ≠ some j)
      s.complete := by
  have hlt : ∀ j, some i = some j → served f j t < (jobs job).duration j := by
    rintro j ⟨⟩
    exact hi.2
  have hext := Completed.extend hlt h.complete
  rwa [running_update] at hext

/-- The process in front has its last tick. -/
theorem Mid.finishes (hfresh : ∀ i, (job i).Fresh) (h : Mid job f t s)
    (hran : ∀ u < t, (f u).isSome) (hi : (jobs job).Pending f t i)
    (harr : s.arrived = record job f t i :: rest)
    (hlast : served f i t + 1 = (jobs job).duration i) :
    Inv job (update f t (some i)) (t + 1) s.dispatch.tick ∧
      { s.dispatch.tick.ongoing with completion := (job i).completion } =
        record job (update f t (some i)) (t + 1) i ∧
      s.dispatch.tick.arrived = rest := by
  obtain ⟨hdispatch, hcharge⟩ := h.charged hi harr
  have hserved : served (update f t (some i)) i (t + 1) = (jobs job).duration i := by
    rw [Jobs.served_tick, if_pos rfl, hlast]
  have hzero : (record job (update f t (some i)) (t + 1) i).duration = 0 := by
    simp only [record, Jobs.remaining, hserved, Nat.sub_self, Nat.cast_zero]
  have htick : s.dispatch.tick = { s with
      arrived := rest
      time := (t : Int) + 1
      ongoing := { record job (update f t (some i)) (t + 1) i with completion := (t : Int) + 1 }
      complete := s.complete ++
        [{ record job (update f t (some i)) (t + 1) i with completion := (t : Int) + 1 }]
      idle := true } := by
    rw [hdispatch, State.tick]
    simp only [hcharge, h.time]
    rw [if_pos hzero]
  rw [htick]
  refine ⟨⟨h.conserving.extend hi, rfl, h.workload, ?_, fun _ => rfl,
    Completed.snoc (update_self ..) (jobs_duration_pos hfresh) hserved (h.completed hi),
    ran_update hran⟩, rfl, rfl⟩
  rw [h.others hi harr]
  refine pool_congr (fun j => ?_) fun _ _ => rfl
  rw [Jobs.served_tick]
  unfold Jobs.Pending
  by_cases hij : i = j
  · subst hij
    simp [hlast]
  · have hji : j ≠ i := fun h => hij h.symm
    simp only [hij, hji, if_false, ne_eq, not_false_eq_true, and_true]
    omega

/-- The process in front has its tick, and goes to the end of the queue. -/
theorem Mid.goesBack (h : Mid job f t s) (hran : ∀ u < t, (f u).isSome)
    (hi : (jobs job).Pending f t i) (harr : s.arrived = record job f t i :: rest)
    (hleft : served f i t + 1 < (jobs job).duration i) :
    Inv job (update f t (some i)) (t + 1) s.dispatch.tick ∧
      { s.dispatch.tick.ongoing with completion := (job i).completion } =
        record job (update f t (some i)) (t + 1) i ∧
      s.dispatch.tick.arrived = rest ++ [record job (update f t (some i)) (t + 1) i] := by
  obtain ⟨hdispatch, hcharge⟩ := h.charged hi harr
  have hserved : served (update f t (some i)) i (t + 1) < (jobs job).duration i := by
    rw [Jobs.served_tick, if_pos rfl]
    exact hleft
  have hpos : (record job (update f t (some i)) (t + 1) i).duration ≠ 0 := by
    simp only [record, Jobs.remaining]
    omega
  have htick : s.dispatch.tick = { s with
      arrived := rest ++ [record job (update f t (some i)) (t + 1) i]
      time := (t : Int) + 1
      ongoing := record job (update f t (some i)) (t + 1) i
      idle := false } := by
    rw [hdispatch, State.tick]
    simp only [hcharge, h.time]
    rw [if_neg hpos]
  rw [htick]
  refine ⟨⟨h.conserving.extend hi, rfl, h.workload, ?_, fun hnil => ?_, ?_, ran_update hran⟩,
    rfl, rfl⟩
  · have hback := pool_erase (g := record job (update f t (some i)) (t + 1))
      (p := fun j => (jobs job).arrival j < t + 1 ∧
        served (update f t (some i)) j (t + 1) < (jobs job).duration j)
      ⟨Nat.lt_succ_of_le hi.1, hserved⟩
    show ((rest ++ [record job (update f t (some i)) (t + 1) i] : List Process) :
      Multiset Process) = _
    rw [hback, ← Multiset.coe_add, h.others hi harr, Multiset.coe_singleton,
      Multiset.add_comm, Multiset.singleton_add]
    congr 1
    refine pool_congr (fun j => ?_) fun _ _ => rfl
    rw [Jobs.served_tick]
    unfold Jobs.Pending
    by_cases hij : i = j
    · simp [hij]
    · rw [if_neg hij]
      refine and_congr_left fun _ => ?_
      omega
  · simp at hnil
  · obtain ⟨order, hmap, hmem, hsorted⟩ := h.completed hi
    refine ⟨order, hmap, fun j => ?_, hsorted⟩
    rw [hmem]
    constructor
    · exact fun hj => hj.1
    · intro hj
      refine ⟨hj, ?_⟩
      rintro ⟨⟩
      omega

end Tick

/-- The loop ends when every job is done. -/
theorem Inv.over (h : Inv job f t s)
    (hstop : (s.idle && A.isEmpty s.workload && s.arrived.isEmpty) = true) (i : ι) :
    served f i t = (jobs job).duration i := by
  simp only [Bool.and_eq_true, List.isEmpty_iff] at hstop
  obtain ⟨⟨-, hworkload⟩, harrived⟩ := hstop
  have hw := pool_eq_zero.mp (h.workload.symm.trans (PriorityQueue.isEmpty_iff.mp hworkload)) i
  have hpool := h.arrived
  rw [harrived, Multiset.coe_nil] at hpool
  have ha := pool_eq_zero.mp hpool.symm i
  have hle := h.conserving.served_le (i := i) (u := t)
  omega

/-- The iteration that serves the process in front. -/
theorem Inv.serves {rest : List Process} (hfresh : ∀ i, (job i).Fresh) (h : Inv job f t s)
    (hi : (jobs job).Pending f t i) (harr : s.admitArrived.arrived = record job f t i :: rest) :
    ∃ s', s.body = .inl s' ∧ Inv job (update f t (some i)) (t + 1) s' ∧
      { s'.ongoing with completion := (job i).completion } =
        record job (update f t (some i)) (t + 1) i ∧
      s'.arrived = if served f i t + 1 = (jobs job).duration i then rest
        else rest ++ [record job (update f t (some i)) (t + 1) i] := by
  have hmid := h.admitArrived hfresh
  have hgoes : ¬ (s.idle && A.isEmpty s.workload && s.arrived.isEmpty) = true := by
    intro hstop
    exact absurd (h.over hstop i) hi.2.ne
  refine ⟨_, if_neg hgoes, ?_⟩
  by_cases hlast : served f i t + 1 = (jobs job).duration i
  · obtain ⟨hinv, hcharged, hrest⟩ := hmid.finishes hfresh h.ran hi harr hlast
    exact ⟨hinv, hcharged, by rw [hrest, if_pos hlast]⟩
  · have hmore := hi.2
    obtain ⟨hinv, hcharged, hrest⟩ := hmid.goesBack h.ran hi harr (by omega)
    exact ⟨hinv, hcharged, by rw [hrest, if_neg hlast]⟩

/-- When no process waits, the loop ends or charges a process that is not there. -/
theorem Inv.nobody (hfresh : ∀ i, (job i).Fresh) (h : Inv job f t s)
    (harr : s.admitArrived.arrived = []) :
    (s.body = .inr s.complete ∧ ∀ i, served f i t = (jobs job).duration i) ∨
    ((∃ i, served f i t < (jobs job).duration i) ∧ ∀ i, ¬ (jobs job).Pending f t i) := by
  by_cases hstop : (s.idle && A.isEmpty s.workload && s.arrived.isEmpty) = true
  · exact Or.inl ⟨if_pos hstop, h.over hstop⟩
  · right
    have hpool := (h.admitArrived hfresh).arrived
    rw [harr, Multiset.coe_nil] at hpool
    have hnone := pool_eq_zero.mp hpool.symm
    refine ⟨?_, hnone⟩
    -- somebody is still to come, or the loop would have ended
    by_contra hdone
    push Not at hdone
    refine hstop ?_
    have harrived : s.arrived = [] := by
      rw [← Multiset.coe_eq_zero, h.arrived, pool_eq_zero]
      intro i hi
      have := hdone i
      omega
    have hworkload : A.items s.workload = 0 := by
      rw [h.workload, pool_eq_zero]
      intro i hi
      have := hdone i
      have := jobs_duration_pos hfresh i
      have := h.conserving.served_eq_zero hi
      omega
    rw [h.idle harrived, harrived, PriorityQueue.isEmpty_iff.mpr hworkload]
    rfl

/-- What an iteration does: it gives its tick to a pending job, unless every job is
done or no process waits. -/
def Iterates (job : ι → Process) (f : Nat → Option ι) (t : Nat) (s : State A)
    (Keeps : (Nat → Option ι) → Nat → State A → Prop) : Prop :=
  (∃ i s', s.body = .inl s' ∧ (jobs job).Pending f t i ∧
    Inv job (update f t (some i)) (t + 1) s' ∧
    { s'.ongoing with completion := (job i).completion } =
      record job (update f t (some i)) (t + 1) i ∧
    Keeps (update f t (some i)) (t + 1) s') ∨
  (s.body = .inr s.complete ∧ ∀ i, served f i t = (jobs job).duration i) ∨
  ((∃ i, served f i t < (jobs job).duration i) ∧ ∀ i, ¬ (jobs job).Pending f t i)

/-- One iteration. -/
theorem Inv.iteration (hfresh : ∀ i, (job i).Fresh) (h : Inv job f t s) :
    Iterates job f t s fun _ _ _ => True := by
  cases harr : s.admitArrived.arrived with
  | nil => exact Or.inr (h.nobody hfresh harr)
  | cons p rest =>
      have hmem : p ∈ pool ((jobs job).Pending f t) (record job f t) := by
        rw [← (h.admitArrived hfresh).arrived, harr]
        exact List.mem_cons_self
      obtain ⟨i, hi, rfl⟩ := mem_pool.mp hmem
      obtain ⟨s', hb, hinv, hcharged, -⟩ := h.serves hfresh hi harr
      exact Or.inl ⟨i, s', hb, hi, hinv, hcharged, trivial⟩

/-! ## The whole run -/

/-- The run of `rr` charges in iteration `u` the process that `f` gives tick `u` to,
and the ticks after the end of the loop are free. Of a process that has just
completed, `completion` is filled in already. -/
def Charges (job : ι → Process) (f : Nat → Option ι) (start : State A) : Prop :=
  ∀ u, match iterate State.body (u + 1) start with
    | none => f u = none
    | some s => ∃ i, f u = some i ∧
        { s.ongoing with completion := (job i).completion } = record job f (u + 1) i

/-- The same for the first `t` ticks, all before the end of the loop. -/
def ChargesUpTo (job : ι → Process) (f : Nat → Option ι) (start : State A) (t : Nat) : Prop :=
  ∀ u < t, ∃ s, iterate State.body (u + 1) start = some s ∧ ∃ i, f u = some i ∧
    { s.ongoing with completion := (job i).completion } = record job f (u + 1) i

omit [Fintype ι] in
theorem ChargesUpTo.extend {start s' : State A} (h : ChargesUpTo job f start t)
    (hiter : iterate State.body (t + 1) start = some s')
    (hcharged : { s'.ongoing with completion := (job i).completion } =
      record job (update f t (some i)) (t + 1) i) :
    ChargesUpTo job (update f t (some i)) start (t + 1) := by
  intro u hu
  by_cases hut : u = t
  · subst hut
    exact ⟨s', hiter, i, update_self .., hcharged⟩
  · obtain ⟨s, hs, j, hj, hrecord⟩ := h u (by omega)
    refine ⟨s, hs, j, ?_, ?_⟩
    · rw [update_of_ne hut]
      exact hj
    · rw [hrecord]
      refine Stcf.record_congr fun v hv => ?_
      rw [update_of_ne (by omega)]

omit [Fintype ι] in
/-- Once an iteration is missing, the later ones are too. -/
theorem Charges.over {start : State A} (h : Charges job f start) {u v : Nat} (hu : f u = none)
    (hv : u ≤ v) : f v = none := by
  have hend : iterate State.body (u + 1) start = none := by
    have := h u
    cases hs : iterate State.body (u + 1) start with
    | none => rfl
    | some s =>
        rw [hs] at this
        obtain ⟨i, hi, -⟩ := this
        rw [hu] at hi
        cases hi
  have hlater := h v
  rwa [iterate_none hend (by omega)] at hlater

/-- Everything `rr` has done when its loop ends, if it serves its workload. -/
def Outcome (job : ι → Process) (start : State A) (records : List Process) : Prop :=
  ∃ f t, (jobs job).Conserving f t ∧ (∀ i, served f i t = (jobs job).duration i) ∧
    Completed job f t (fun _ => True) records ∧ Charges job f start

/-- Before the jobs can all be done, more of their work has arrived than ticks have
passed. -/
def NoGap (job : ι → Process) : Prop :=
  ∀ t < ∑ i, (jobs job).duration i, t < (jobs job).arrived t

/-- So while a job is not done, some job is pending. -/
theorem NoGap.exists_pending (hgap : NoGap job) (h : (jobs job).Conserving f t)
    (hran : ∀ u < t, (f u).isSome) (hi : served f i t < (jobs job).duration i) :
    ∃ i, (jobs job).Pending f t i := by
  have hticks := Jobs.sum_served_of_ran hran
  have hlt : ∑ j, served f j t < ∑ j, (jobs job).duration j :=
    Finset.sum_lt_sum (fun j _ => h.served_le) ⟨i, Finset.mem_univ i, hi⟩
  refine Jobs.exists_pending ?_
  rw [hticks] at hlt ⊢
  exact hgap t hlt

/-- The run on a workload without a gap, with a property that every iteration
keeps. -/
theorem run_keeping {Keeps : (Nat → Option ι) → Nat → State A → Prop}
    (hkeeps : ∀ f t s, Inv job f t s → Keeps f t s → Iterates job f t s Keeps)
    (hgap : NoGap job) {start : State A} (h0 : Inv job (fun _ => none) 0 start)
    (hk : Keeps (fun _ => none) 0 start) :
    ∃ records f t, ((jobs job).Conserving f t ∧
        (∀ i, served f i t = (jobs job).duration i) ∧
        Completed job f t (fun _ => True) records ∧ Charges job f start ∧ ∃ s, Keeps f t s) ∧
      ∃ n, ∀ fuel, n < fuel → loop State.body fuel start = some records := by
  let I : Nat → State A → Prop := fun n s => ∃ f t, Inv job f t s ∧ Keeps f t s ∧
    iterate State.body t start = some s ∧ ChargesUpTo job f start t ∧ (jobs job).work f t = n
  let Q : List Process → Prop := fun records => ∃ f t, (jobs job).Conserving f t ∧
    (∀ i, served f i t = (jobs job).duration i) ∧
    Completed job f t (fun _ => True) records ∧ Charges job f start ∧ ∃ s, Keeps f t s
  have hbody : ∀ n s, I n s →
      (∃ s' m, s.body = .inl s' ∧ m < n ∧ I m s') ∨ (∃ r, s.body = .inr r ∧ Q r) := by
    rintro n s ⟨f, t, hinv, hs, hiter, hcharges, rfl⟩
    rcases hkeeps f t s hinv hs with
      ⟨i, s', hb, hi, hinv', hcharged, hs'⟩ | ⟨hb, hall⟩ | ⟨⟨i, hi⟩, hnone⟩
    · have hiter' := iterate_succ hiter hb
      have hwork := (jobs job).work_run hi
      exact Or.inl ⟨s', _, hb, Nat.lt_of_succ_le hwork.le, update f t (some i), t + 1, hinv',
        hs', hiter', hcharges.extend hiter' hcharged, rfl⟩
    · refine Or.inr ⟨_, hb, f, t, hinv.conserving, hall, ?_, fun u => ?_, s, hs⟩
      · obtain ⟨order, hmap, hmem, hsorted⟩ := hinv.complete
        exact ⟨order, hmap, fun i => by simp [hmem, hall], hsorted⟩
      · by_cases hu : u < t
        · obtain ⟨s', hs', hcharged⟩ := hcharges u hu
          rw [hs']
          exact hcharged
        · rw [iterate_end hiter hb (show t < u + 1 by omega)]
          exact hinv.conserving.beyond u (by omega)
    · -- no gap, so somebody is pending
      obtain ⟨j, hj⟩ := hgap.exists_pending hinv.conserving hinv.ran hi
      exact absurd hj (hnone j)
  obtain ⟨records, ⟨f, t, hq⟩, hrun⟩ := loop_total hbody (s := start)
    ⟨_, 0, h0, hk, rfl, fun u hu => absurd hu (by omega), rfl⟩
  exact ⟨records, f, t, hq, _, hrun⟩

/-- **The run on a workload without a gap.** -/
theorem run_spec (hfresh : ∀ i, (job i).Fresh) (hgap : NoGap job) {start : State A}
    (h0 : Inv job (fun _ => none) 0 start) :
    ∃ records, Outcome job start records ∧
      ∃ n, ∀ fuel, n < fuel → loop State.body fuel start = some records := by
  obtain ⟨records, f, t, ⟨hconserving, hdone, hcomplete, hcharges, -⟩, hrun⟩ :=
    run_keeping (fun _ _ _ h _ => h.iteration hfresh) hgap h0 trivial
  exact ⟨records, ⟨f, t, hconserving, hdone, hcomplete, hcharges⟩, hrun⟩

/-- The loop starts with the empty schedule and every process in `workload`. -/
theorem inv_start (hfresh : ∀ i, (job i).Fresh) (junk : Process) {workload : A.Queue}
    (hw : A.items workload = pool (fun _ => True) job) :
    Inv job (fun _ => none) 0 (start junk workload) := by
  refine ⟨Jobs.Conserving.nil, rfl, ?_, ?_, fun _ => rfl, ?_, fun u hu => absurd hu (by omega)⟩
  · exact hw.trans (pool_congr (fun i => by simp) (fun _ _ => rfl))
  · exact (pool_eq_zero.mpr (by simp)).symm
  · refine ⟨[], rfl, fun i => ?_, List.Pairwise.nil⟩
    have := jobs_duration_pos hfresh i
    simp
    omega

/-- A run that charges by a feasible schedule had no gap: before its end every
tick served arrived work. -/
theorem Charges.noGap (hfresh : ∀ i, (job i).Fresh) {start : State A}
    (h : Charges job f start) (hf : (jobs job).Feasible f) : NoGap job := by
  intro t ht
  refine hf.lt_arrived (jobs_duration_pos hfresh) fun v hv => ?_
  by_contra hnone
  rw [Option.not_isSome_iff_eq_none] at hnone
  have hsum := hf.sum_duration_le (u := v) fun w hw => h.over hnone hw
  omega

end RoundRobin

/-! ## Workloads without a gap -/

section Workload

open RoundRobin

/-- The ticks of `processes` that have arrived by time `t`. -/
def arrivedWork (processes : List Process) (t : Int) : Int :=
  (processes.map fun p => if p.arrival ≤ t then p.duration else 0).sum

/-- Before the processes can all be done, more of their work has arrived than
ticks have passed: there is always a process to run. -/
def Gapless (processes : List Process) : Prop :=
  ∀ t : Nat, (t : Int) < (processes.map (·.duration)).sum → (t : Int) < arrivedWork processes t

/-- `rr` serves the workload: it ends, each tick is charged to a process by a
feasible schedule, and there is one record for each process that tells the first
tick and the end of the last. -/
def Serves {A : PqueueArrival} (junk : Process) (processes : List Process)
    (workload : A.Queue) : Prop :=
  ∃ (records : List Process) (f : Nat → Option (Fin processes.length)),
    (∃ n, ∀ fuel, n < fuel → rr junk fuel workload = some records) ∧
    Charges processes.get f (start junk workload) ∧
    Feasible processes.get f ∧
    ∃ order : List (Fin processes.length), order.Perm (List.finRange processes.length) ∧
      List.Forall₂ (fun i r => Reports (processes.get i) r { u | f u = some i }) order records

variable {processes : List Process}

theorem gapless_iff (hfresh : ∀ i, (processes.get i).Fresh) :
    Gapless processes ↔ NoGap processes.get := by
  have harr := jobs_arrival hfresh
  have hdur := jobs_duration hfresh
  have htotal : (processes.map (·.duration)).sum =
      ((∑ i, (jobs processes.get).duration i : Nat) : Int) := by
    rw [← Fin.sum_univ_fun_getElem, Nat.cast_sum]
    exact Finset.sum_congr rfl fun i _ => (hdur i).symm
  have harrived : ∀ t : Nat, arrivedWork processes t = ((jobs processes.get).arrived t : Int) := by
    intro t
    rw [arrivedWork, Jobs.arrived, Finset.sum_filter, Nat.cast_sum, ← Fin.sum_univ_fun_getElem]
    refine Finset.sum_congr rfl fun i _ => ?_
    have hcond : (jobs processes.get).arrival i ≤ t ↔ processes[i.1].arrival ≤ t := by
      have : _ = processes[i.1].arrival := harr i
      omega
    by_cases hi : (jobs processes.get).arrival i ≤ t
    · rw [if_pos hi, if_pos (hcond.mp hi)]
      exact (hdur i).symm
    · rw [if_neg hi, if_neg fun h => hi (hcond.mpr h), Nat.cast_zero]
  unfold Gapless NoGap
  simp only [htotal, harrived, Nat.cast_lt]

/-- A workload that is served has no gap. -/
theorem Serves.gapless {A : PqueueArrival} {junk : Process} {workload : A.Queue}
    (hfresh : ∀ i, (processes.get i).Fresh) (h : Serves junk processes workload) :
    Gapless processes := by
  obtain ⟨records, f, -, hcharges, hfeasible, -⟩ := h
  exact (gapless_iff hfresh).mpr (hcharges.noGap hfresh ((feasible_iff hfresh).mp hfeasible))

end Workload

open RoundRobin in
/-- **When round robin serves its workload.** `rr` serves a workload of fresh
processes, whatever its variable `ongoing` holds at the start, exactly if the
workload has no gap. -/
theorem rr_serves_iff {A : PqueueArrival} (junk : Process) (processes : List Process)
    (workload : A.Queue) (hw : A.items workload = processes) (hfresh : ∀ p ∈ processes, p.Fresh) :
    Serves junk processes workload ↔ Gapless processes := by
  have hall : ∀ i, (processes.get i).Fresh := fun i => hfresh _ (List.get_mem processes i)
  refine ⟨fun h => h.gapless hall, fun hgap => ?_⟩
  obtain ⟨records, ⟨f, t, hconserving, hdone, hcomplete, hcharges⟩, hrun⟩ :=
    run_spec hall ((gapless_iff hall).mp hgap) (inv_start hall junk (items_eq_pool hw))
  exact ⟨records, f, hrun, hcharges, (feasible_iff hall).mpr (hconserving.feasible hdone),
    hcomplete.reports hall hconserving.beyond hdone⟩

/-- The second process arrives while the first one runs. -/
theorem rr_serves_iff_two :
    Serves ⟨0, 0, 0, 0⟩ [⟨0, -1, 2, -1⟩, ⟨1, -1, 1, -1⟩]
      (sortedByArrival.ofList [⟨0, -1, 2, -1⟩, ⟨1, -1, 1, -1⟩]) := by
  refine (rr_serves_iff ⟨0, 0, 0, 0⟩ [⟨0, -1, 2, -1⟩, ⟨1, -1, 1, -1⟩] _
    (PriorityQueue.items_ofList _) (by decide)).mpr fun t ht => ?_
  have hlt : t < 3 := by simpa using ht
  interval_cases t <;> decide

/-- A process that arrives at time 1 is not served: the loop has charged `ongoing`
at time 0. -/
theorem late_start_not_served :
    ¬ Serves ⟨0, 0, 0, 0⟩ [⟨1, -1, 1, -1⟩] (sortedByArrival.ofList [⟨1, -1, 1, -1⟩]) := by
  intro h
  have hfresh : ∀ i, (([⟨1, -1, 1, -1⟩] : List Process).get i).Fresh := by decide
  have hgap := h.gapless hfresh 0 (by decide)
  simp [arrivedWork] at hgap

end Os377.Sched
