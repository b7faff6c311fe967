import Os377.Lib.Conserving
import Os377.Sched.Stcf

/-!
# `stcf` serves the shortest remaining time

The loop of `stcf` keeps a schedule of the ticks that have passed: the records
in its queues are the records of the jobs under that schedule, and each
iteration extends it by one tick. The processes are told apart by an index
type `ι`; two of them may have equal records.

* `Inv` — what holds at the top of an iteration;
* `Mid` — what holds between the parts of an iteration;
* `Inv.iteration` — one iteration, `run_spec` — the whole run.
-/

namespace Os377.Sched

open Os377.Lib Function

/-- A process as `read_workload` makes it. -/
structure Process.Fresh (p : Process) : Prop where
  arrival : 0 ≤ p.arrival
  duration : 1 ≤ p.duration
  firstRun : p.firstRun = -1

instance (p : Process) : Decidable p.Fresh :=
  decidable_of_iff (0 ≤ p.arrival ∧ 1 ≤ p.duration ∧ p.firstRun = -1)
    ⟨fun h => ⟨h.1, h.2.1, h.2.2⟩, fun h => ⟨h.arrival, h.duration, h.firstRun⟩⟩

namespace Stcf

variable {A : PqueueArrival} {D : PqueueDuration}
variable {ι : Type} [Fintype ι] [DecidableEq ι] (job : ι → Process)

/-- The workload as jobs of a schedule. -/
def jobs : Jobs ι where
  arrival i := (job i).arrival.toNat
  duration i := (job i).duration.toNat

/-- The record of job `i` after the first `t` ticks of `f`. -/
def record (f : Nat → Option ι) (t : Nat) (i : ι) : Process where
  arrival := (job i).arrival
  firstRun := match firstTick f i t with
    | none => -1
    | some u => u
  duration := (jobs job).remaining f t i
  completion := (job i).completion

/-- The record of the job that runs in tick `u`, not yet charged for it. -/
def inTick (f : Nat → Option ι) (u : Nat) (i : ι) : Process :=
  { record job f (u + 1) i with duration := (jobs job).remaining f u i }

/-- The record of a job that got its last tick before `t`. -/
def finished (f : Nat → Option ι) (t : Nat) (i : ι) : Process :=
  { record job f t i with completion := lastTick f i t + 1 }

/-- `complete` holds the records of the jobs that satisfy `p`, in the order of
their last ticks. -/
def Completed (f : Nat → Option ι) (t : Nat) (p : ι → Prop) (complete : List Process) : Prop :=
  ∃ order : List ι, complete = order.map (finished job f t) ∧ (∀ i, i ∈ order ↔ p i) ∧
    order.Pairwise fun i j => lastTick f i t < lastTick f j t

/-- Between the parts of iteration `t`: the processes with arrival before `b`
are admitted, and `cur` is the process that has been charged and goes on. -/
structure Mid (f : Nat → Option ι) (t b : Nat) (cur : Option ι) (s : State A D) : Prop where
  srpt : (jobs job).Srpt f t
  time : s.time = t
  workload : A.items s.workload = pool (fun i => b ≤ (jobs job).arrival i) job
  arrived : D.items s.arrived = pool (fun i => ((jobs job).arrival i < b ∧
    served f i t < (jobs job).duration i) ∧ cur ≠ some i) (record job f t)
  idle : s.idle = cur.isNone
  ongoing : ∀ i, cur = some i → s.ongoing = record job f t i ∧ 0 < served f i t ∧
    (jobs job).arrival i < b ∧ served f i t < (jobs job).duration i
  complete : Completed job f t (fun i => served f i t = (jobs job).duration i) s.complete

/-- At the top of iteration `t`: the process that ran in the tick before has
not been charged for it. -/
structure Inv (f : Nat → Option ι) (t : Nat) (s : State A D) : Prop where
  srpt : (jobs job).Srpt f t
  time : s.time = t
  workload : A.items s.workload = pool (fun i => t ≤ (jobs job).arrival i) job
  arrived : D.items s.arrived = pool (fun i => ((jobs job).arrival i < t ∧
    served f i t < (jobs job).duration i) ∧ running f t ≠ some i) (record job f t)
  idle : s.idle = (running f t).isNone
  ongoing : ∀ u i, t = u + 1 → f u = some i → s.ongoing = inTick job f u i
  complete : Completed job f t
    (fun i => served f i t = (jobs job).duration i ∧ running f t ≠ some i) s.complete

variable {job} {f : Nat → Option ι} {t : Nat} {s : State A D}

section Record

omit [Fintype ι]

theorem record_firstRun {i : ι} : (record job f t i).firstRun = -1 ↔ served f i t = 0 := by
  rw [← firstTick_eq_none]
  unfold record
  cases h : firstTick f i t with
  | none => simp
  | some u => simp

/-- A job that has not run has its record of the workload. -/
theorem record_unserved {i : ι} (hfresh : (job i).Fresh) (h : served f i t = 0) :
    record job f t i = job i := by
  have hdur := hfresh.duration
  have hfirst := hfresh.firstRun
  unfold record jobs
  rw [firstTick_eq_none.mpr h]
  simp only [Jobs.remaining, h]
  cases hj : job i
  rw [hj] at hdur hfirst
  simp only at hdur hfirst ⊢
  congr 1
  · exact hfirst.symm
  · omega

theorem record_update {x : Option ι} {i : ι} (h : x ≠ some i) :
    record job (update f t x) (t + 1) i = record job f t i := by
  simp [record, firstTick, firstTick_update, Jobs.remaining, served_succ, served_update, h]

theorem finished_update {x : Option ι} {i : ι} (h : x ≠ some i) :
    finished job (update f t x) (t + 1) i = finished job f t i := by
  rw [finished, finished, record_update h, lastTick, update_self, if_neg h, lastTick_update]

/-- Starting a process in tick `t` fills in its `first_run`. -/
theorem inTick_update {i : ι} :
    inTick job (update f t (some i)) t i
      = (if (record job f t i).firstRun = -1 then { record job f t i with firstRun := (t : Int) }
        else record job f t i) := by
  have hrem : (jobs job).remaining (update f t (some i)) t i = (jobs job).remaining f t i := by
    rw [Jobs.remaining, Jobs.remaining, served_update (le_refl t)]
  rw [inTick, hrem]
  unfold record
  rw [firstTick, firstTick_update, update_self, if_pos rfl]
  cases h : firstTick f i t with
  | none => simp
  | some u =>
      have : (u : Int) ≠ -1 := by omega
      simp [this]

theorem record_congr {g : Nat → Option ι} {i : ι} (h : ∀ v < t, f v = g v) :
    record job f t i = record job g t i := by
  obtain ⟨hserved, hfirst, -⟩ := ticks_congr (i := i) h
  simp only [record, Jobs.remaining, hfirst, hserved]

theorem inTick_congr {g : Nat → Option ι} {u : Nat} {i : ι} (h : ∀ v ≤ u, f v = g v) :
    inTick job f u i = inTick job g u i := by
  obtain ⟨hserved, -, -⟩ := ticks_congr (t := u) (i := i) fun v hv => h v (by omega)
  have hrecord : record job f (u + 1) i = record job g (u + 1) i :=
    record_congr fun v hv => h v (by omega)
  simp only [inTick, hrecord, Jobs.remaining, hserved]

/-- The completed records stay as they are when a pending job, or none, runs. -/
theorem Completed.extend {x : Option ι} {complete : List Process}
    (hx : ∀ i, x = some i → served f i t < (jobs job).duration i)
    (h : Completed job f t (fun i => served f i t = (jobs job).duration i) complete) :
    Completed job (update f t x) (t + 1) (fun i =>
      served (update f t x) i (t + 1) = (jobs job).duration i ∧
        running (update f t x) (t + 1) ≠ some i) complete := by
  obtain ⟨order, rfl, hmem, hsorted⟩ := h
  have hne : ∀ i ∈ order, x ≠ some i := by
    intro i hi hxi
    have h1 := hx i hxi
    have h2 := (hmem i).mp hi
    omega
  refine ⟨order, ?_, fun i => ?_, ?_⟩
  · apply List.map_congr_left
    intro i hi
    rw [finished_update (hne i hi)]
  · rw [hmem i]
    simp only [running_update, served_succ, served_update (le_refl t), update_self]
    by_cases hxi : x = some i
    · have := hx i hxi
      simp [hxi]
      omega
    · simp [hxi]
  · refine hsorted.imp_of_mem fun {i j} hi hj hij => ?_
    rw [lastTick, lastTick, update_self, if_neg (hne i hi), if_neg (hne j hj),
      lastTick_update, lastTick_update]
    exact hij

/-- The process that got the last tick before `t` joins the completed ones. -/
theorem Completed.snoc {u : Nat} {i : ι} {complete : List Process} (hf : f u = some i)
    (hpos : ∀ j, 0 < (jobs job).duration j)
    (hi : served f i (u + 1) = (jobs job).duration i)
    (h : Completed job f (u + 1) (fun j => served f j (u + 1) = (jobs job).duration j ∧
      some i ≠ some j) complete) :
    Completed job f (u + 1) (fun j => served f j (u + 1) = (jobs job).duration j)
      (complete ++ [{ record job f (u + 1) i with completion := (u : Int) + 1 }]) := by
  obtain ⟨order, rfl, hmem, hsorted⟩ := h
  have hlast : lastTick f i (u + 1) = u := by
    rw [lastTick, if_pos hf]
  refine ⟨order ++ [i], ?_, fun j => ?_, ?_⟩
  · simp [finished, hlast]
  · rw [List.mem_append, List.mem_singleton, hmem j]
    by_cases hj : j = i
    · simp [hj, hi]
    · have hij : ¬ i = j := fun h => hj h.symm
      simp [hj, hij]
  · rw [List.pairwise_append]
    refine ⟨hsorted, List.pairwise_singleton _ _, fun j hj k hk => ?_⟩
    rw [List.mem_singleton] at hk
    subst hk
    -- the last tick of `j` is another one than `u`
    obtain ⟨hdone, hne⟩ := (hmem j).mp hj
    have hserved : 0 < served f j (u + 1) := by
      have := hpos j
      omega
    obtain ⟨hlt, hat, -⟩ := lastTick_spec hserved
    rw [hlast]
    have : lastTick f j (u + 1) ≠ u := by
      intro he
      rw [he, hf] at hat
      exact hne hat
    omega

end Record

omit [Fintype ι] [DecidableEq ι] in
theorem jobs_arrival (hfresh : ∀ i, (job i).Fresh) (i : ι) :
    ((jobs job).arrival i : Int) = (job i).arrival :=
  Int.toNat_of_nonneg (hfresh i).arrival

omit [Fintype ι] [DecidableEq ι] in
theorem jobs_duration (hfresh : ∀ i, (job i).Fresh) (i : ι) :
    ((jobs job).duration i : Int) = (job i).duration := by
  have := (hfresh i).duration
  exact Int.toNat_of_nonneg (by omega)

omit [Fintype ι] [DecidableEq ι] in
theorem jobs_duration_pos (hfresh : ∀ i, (job i).Fresh) (i : ι) :
    0 < (jobs job).duration i := by
  have h1 := (hfresh i).duration
  have h2 := jobs_duration hfresh i
  omega

omit [Fintype ι] in
/-- Charged for the tick, a record is the one after the tick. -/
theorem inTick_charge {u : Nat} {i : ι} (hf : f u = some i)
    (hlt : served f i u < (jobs job).duration i) :
    (inTick job f u i).charge = record job f (u + 1) i := by
  have hdur : (((jobs job).remaining f u i : Int) - 1) = (jobs job).remaining f (u + 1) i := by
    rw [Jobs.remaining, Jobs.remaining, served_succ, if_pos hf]
    omega
  rw [inTick, Process.charge]
  simp only [hdur]
  rfl

/-- The charged record of the running process is its record after the tick. -/
theorem Inv.charge {u : Nat} (h : Inv job f (u + 1) s) (hf : f u = some i) :
    s.ongoing.charge = record job f (u + 1) i := by
  rw [h.ongoing u i rfl hf, inTick_charge hf (h.srpt.pending hf).2]

/-- The running process has had its last tick. -/
theorem Inv.tick_completes {u : Nat} (hfresh : ∀ i, (job i).Fresh) (h : Inv job f (u + 1) s)
    (hf : f u = some i) (hdone : served f i (u + 1) = (jobs job).duration i) :
    Mid job f (u + 1) (u + 1) none s.tick := by
  have hidle : s.idle = false := by
    rw [h.idle, show running f (u + 1) = some i from hf]
    rfl
  have hzero : (jobs job).remaining f (u + 1) i = 0 := by
    rw [Jobs.remaining]
    omega
  have htick : s.tick = { s with
      ongoing := { record job f (u + 1) i with completion := (u : Int) + 1 }
      complete := s.complete ++ [{ record job f (u + 1) i with completion := (u : Int) + 1 }]
      idle := true } := by
    simp only [State.tick, hidle, Bool.false_eq_true, if_false, h.charge hf, h.time]
    rw [if_pos (by simp [record, hzero])]
    simp
  have hcomplete := h.complete
  rw [show running f (u + 1) = some i from hf] at hcomplete
  rw [htick]
  refine ⟨h.srpt, h.time, h.workload, ?_, rfl, by simp,
    Completed.snoc hf (jobs_duration_pos hfresh) hdone hcomplete⟩
  rw [h.arrived, show running f (u + 1) = some i from hf]
  apply pool_congr
  · intro j
    by_cases hij : i = j
    · subst hij
      simp [hdone]
    · simp [hij]
  · exact fun _ _ => rfl

/-- The running process has time left. -/
theorem Inv.tick_continues {u : Nat} (h : Inv job f (u + 1) s) (hf : f u = some i)
    (hlt : served f i (u + 1) < (jobs job).duration i) :
    Mid job f (u + 1) (u + 1) (some i) s.tick := by
  have hidle : s.idle = false := by
    rw [h.idle, show running f (u + 1) = some i from hf]
    rfl
  have hleft : ¬ (jobs job).remaining f (u + 1) i = 0 := by
    rw [Jobs.remaining]
    omega
  have hserved : served f i (u + 1) = served f i u + 1 := by
    rw [served_succ, if_pos hf]
  have htick : s.tick = { s with ongoing := record job f (u + 1) i } := by
    simp only [State.tick, hidle, Bool.false_eq_true, if_false, h.charge hf]
    rw [if_neg (by simp [record, hleft])]
  have hcomplete := h.complete
  rw [show running f (u + 1) = some i from hf] at hcomplete
  rw [htick]
  refine ⟨h.srpt, h.time, h.workload, ?_, hidle, ?_, ?_⟩
  · rw [h.arrived, show running f (u + 1) = some i from hf]
  · intro j hj
    rw [Option.some.injEq] at hj
    subst hj
    have := (h.srpt.pending hf).1
    exact ⟨rfl, by omega, by omega, hlt⟩
  · obtain ⟨order, hmap, hmem, hsorted⟩ := hcomplete
    refine ⟨order, hmap, fun j => ?_, hsorted⟩
    rw [hmem j]
    constructor
    · exact fun hj => hj.1
    · intro hj
      refine ⟨hj, ?_⟩
      rintro ⟨⟩
      omega

/-- Charging the running process. -/
theorem Inv.tick (hfresh : ∀ i, (job i).Fresh) (h : Inv job f t s) :
    ∃ cur, Mid job f t t cur s.tick := by
  cases hrun : running f t with
  | none =>
      have hidle : s.idle = true := by
        rw [h.idle, hrun]
        rfl
      have htick : s.tick = s := by simp [State.tick, hidle]
      rw [htick]
      refine ⟨none, h.srpt, h.time, h.workload, ?_, hidle, by simp, ?_⟩
      · rw [h.arrived, hrun]
      · have := h.complete
        rw [hrun] at this
        simpa using this
  | some i =>
      obtain ⟨u, rfl⟩ : ∃ u, t = u + 1 := by
        cases t with
        | zero => simp [running] at hrun
        | succ u => exact ⟨u, rfl⟩
      have hf : f u = some i := hrun
      have hle := h.srpt.served_le (i := i)
      by_cases hdone : served f i (u + 1) = (jobs job).duration i
      · exact ⟨none, h.tick_completes hfresh hf hdone⟩
      · exact ⟨some i, h.tick_continues hf (by omega)⟩

omit [DecidableEq ι] in
/-- Admission in tick `t`, when the processes still to come arrive in tick `t` or
later: it moves those that arrive in tick `t`. -/
theorem admitAll_pool {β : Type} (ready : Process → Bool) (push : β → Process → β)
    {workload : A.Queue} (arrived : β) (hfresh : ∀ i, (job i).Fresh)
    (hw : A.items workload = pool (fun i => t ≤ (jobs job).arrival i) job)
    (hready : ∀ i, t ≤ (jobs job).arrival i →
      (ready (job i) = true ↔ (jobs job).arrival i = t)) :
    ∃ moved : List Process, (admitAll ready push workload arrived).2 = moved.foldl push arrived ∧
      (moved : Multiset Process) = pool (fun i => (jobs job).arrival i = t) job ∧
      A.items (admitAll ready push workload arrived).1 =
        pool (fun i => t + 1 ≤ (jobs job).arrival i) job := by
  obtain ⟨moved, hpush, hmoved, hrest⟩ := admitAll_spec ready push workload arrived (by
    intro a ha b hb hab hrb
    obtain ⟨i, hi, rfl⟩ := mem_pool.mp (hw ▸ ha)
    obtain ⟨j, hj, rfl⟩ := mem_pool.mp (hw ▸ hb)
    have h1 := jobs_arrival hfresh i
    have h2 := jobs_arrival hfresh j
    have h3 := (hready j hj).mp hrb
    exact (hready i hi).mpr (by omega))
  refine ⟨moved, hpush, ?_, ?_⟩
  · rw [hmoved, hw, filter_pool]
    refine pool_congr (fun i => ?_) fun _ _ => rfl
    constructor
    · exact fun h => (hready i h.1).mp h.2
    · exact fun h => ⟨h.ge, (hready i h.ge).mpr h⟩
  · rw [hrest, hw, filter_pool]
    refine pool_congr (fun i => ?_) fun _ _ => rfl
    constructor
    · intro h
      have hne : (jobs job).arrival i ≠ t := fun heq => h.2 ((hready i h.1).mpr heq)
      have := h.1
      omega
    · intro h
      refine ⟨by omega, fun hr => ?_⟩
      have := (hready i (by omega)).mp hr
      omega

/-- Admitting the processes that arrive in tick `t`. -/
theorem Mid.admitArrived {cur : Option ι} (hfresh : ∀ i, (job i).Fresh)
    (h : Mid job f t t cur s) : Mid job f t (t + 1) cur s.admitArrived := by
  obtain ⟨moved, hpush, hmoved, hrest⟩ := admitAll_pool (fun p => decide (s.time ≥ p.arrival))
    D.push s.arrived hfresh h.workload fun i hi => by
      have := jobs_arrival hfresh i
      rw [h.time, decide_eq_true_eq]
      omega
  refine ⟨h.srpt, h.time, hrest, ?_, h.idle, ?_, h.complete⟩
  · show D.items (admitAll _ D.push s.workload s.arrived).2 = _
    -- the new arrivals have not run, so their records are those of the workload
    have hnew : (moved : Multiset Process)
        = pool (fun i => (jobs job).arrival i = t) (record job f t) := by
      rw [hmoved]
      refine pool_congr (fun _ => Iff.rfl) fun i hi => ?_
      exact (record_unserved (hfresh i) (h.srpt.served_eq_zero hi.ge)).symm
    rw [hpush, PriorityQueue.items_foldl_push, h.arrived, hnew, pool_add]
    · apply pool_congr
      · intro i
        have hpos := jobs_duration_pos hfresh i
        have hzero := h.srpt.served_eq_zero (i := i)
        have hcur : cur = some i → (jobs job).arrival i < t := fun hi => (h.ongoing i hi).2.2.1
        constructor
        · rintro (⟨⟨ha, hs⟩, hne⟩ | ha)
          · exact ⟨⟨by omega, hs⟩, hne⟩
          · refine ⟨⟨by omega, ?_⟩, fun hi => ?_⟩
            · have := hzero (by omega)
              omega
            · have := hcur hi
              omega
        · rintro ⟨⟨ha, hs⟩, hne⟩
          by_cases hat : (jobs job).arrival i = t
          · exact Or.inr hat
          · exact Or.inl ⟨⟨by omega, hs⟩, hne⟩
      · exact fun _ _ => rfl
    · intro i hi
      omega
  · intro i hi
    obtain ⟨hrec, hpos, ha, hs⟩ := h.ongoing i hi
    exact ⟨hrec, hpos, by omega, hs⟩

/-- The end of an iteration: tick `t` goes to `x`. -/
theorem Mid.finish {cur x : Option ι} {s' : State A D} (h : Mid job f t (t + 1) cur s)
    (hx : (jobs job).Shortest f t x) (hw : s'.workload = s.workload)
    (hc : s'.complete = s.complete) (hidle : s'.idle = x.isNone)
    (hongoing : ∀ i, x = some i → s'.ongoing = inTick job (update f t x) t i)
    (harrived : D.items s'.arrived
      = pool (fun i => (jobs job).Pending f t i ∧ x ≠ some i) (record job f t)) :
    Inv job (update f t x) (t + 1) { s' with time := s.time + 1 } := by
  have hlt : ∀ i, x = some i → served f i t < (jobs job).duration i := by
    intro i hi
    subst hi
    exact hx.1.2
  refine ⟨h.srpt.extend hx, ?_, ?_, ?_, ?_, ?_, ?_⟩
  · rw [h.time]
    rfl
  · rw [hw, h.workload]
  · rw [harrived]
    apply pool_congr
    · intro i
      rw [running_update, served_succ, served_update (le_refl t), update_self, Jobs.Pending,
        Nat.lt_succ_iff]
      by_cases hxi : x = some i
      · simp [hxi]
      · simp [hxi]
    · intro i hi
      rw [record_update hi.2]
  · rw [hidle, running_update]
  · intro u i hu hf
    obtain rfl : u = t := by omega
    rw [update_self] at hf
    exact hongoing i hf
  · rw [hc]
    exact Completed.extend hlt h.complete

/-- A process that goes on in tick `t` keeps its record. -/
theorem Mid.ongoing_goes_on {cur : Option ι} {b : Nat} {i : ι} (h : Mid job f t b cur s)
    (hi : cur = some i) : s.ongoing = inTick job (update f t cur) t i := by
  obtain ⟨hrec, hpos, -, -⟩ := h.ongoing i hi
  rw [hi, inTick_update, if_neg, hrec]
  rw [record_firstRun]
  omega

theorem Mid.pending {cur : Option ι} {i : ι} (h : Mid job f t (t + 1) cur s)
    (hi : cur = some i) : (jobs job).Pending f t i := by
  obtain ⟨-, -, ha, hs⟩ := h.ongoing i hi
  exact ⟨by omega, hs⟩

/-- The queue holds the pending jobs other than the running one. -/
theorem Mid.arrived_pending {cur : Option ι} (h : Mid job f t (t + 1) cur s) :
    D.items s.arrived
      = pool (fun i => (jobs job).Pending f t i ∧ cur ≠ some i) (record job f t) := by
  rw [h.arrived]
  apply pool_congr
  · intro i
    rw [Jobs.Pending, Nat.lt_succ_iff]
  · exact fun _ _ => rfl

/-- The running process goes on, if it is the one that needs the least. -/
theorem Mid.goesOn {cur : Option ι} (h : Mid job f t (t + 1) cur s)
    (hx : (jobs job).Shortest f t cur) (hdispatch : s.dispatch = s) :
    ∃ x, (jobs job).Shortest f t x ∧
      Inv job (update f t x) (t + 1) { s.dispatch with time := s.time + 1 } := by
  rw [hdispatch]
  exact ⟨cur, hx, h.finish hx rfl rfl h.idle (fun i => h.ongoing_goes_on) h.arrived_pending⟩

/-- Once the running process went back, the queue holds every pending job. -/
theorem Mid.requeue {cur : Option ι} (h : Mid job f t (t + 1) cur s) :
    D.items (if s.idle then s.arrived else D.push s.arrived s.ongoing) =
      pool ((jobs job).Pending f t) (record job f t) := by
  have harrived := h.arrived_pending
  cases hcur : cur with
  | none =>
      have hidle : s.idle = true := by simp [h.idle, hcur]
      rw [if_pos hidle, harrived, hcur]
      apply pool_congr
      · simp
      · exact fun _ _ => rfl
  | some i =>
      have hidle : ¬ s.idle = true := by simp [h.idle, hcur]
      rw [if_neg hidle, D.items_push, harrived, (h.ongoing i hcur).1, pool_erase (h.pending hcur)]
      congr 1
      apply pool_congr
      · simp [hcur, eq_comm]
      · exact fun _ _ => rfl

/-- The top of the queue is started in place of the running process. -/
theorem Mid.swap {cur : Option ι} (h : Mid job f t (t + 1) cur s) {top : Process}
    (htop : D.top s.arrived = some top)
    (hswap : (s.idle || s.ongoing.duration > top.duration) = true) :
    ∃ x, (jobs job).Shortest f t x ∧
      Inv job (update f t x) (t + 1) { s.dispatch with time := s.time + 1 } := by
  have hall := h.requeue
  obtain ⟨p, hp⟩ : ∃ p,
      D.top (if s.idle then s.arrived else D.push s.arrived s.ongoing) = some p := by
    cases hp : D.top (if s.idle then s.arrived else D.push s.arrived s.ongoing) with
    | some p => exact ⟨p, rfl⟩
    | none =>
        have hnone := pool_eq_zero.mp (hall.symm.trans (D.items_of_top_none _ hp))
        have hmem := PriorityQueue.top_mem htop
        rw [h.arrived_pending, mem_pool] at hmem
        obtain ⟨i, hi, -⟩ := hmem
        exact absurd hi.1 (hnone i)
  obtain ⟨i, hi, rfl⟩ := mem_pool.mp (hall ▸ PriorityQueue.top_mem hp)
  have hx : (jobs job).Shortest f t (some i) := by
    refine ⟨hi, fun j hj => ?_⟩
    have hfirst := D.top_first _ _ hp (record job f t j)
      (hall ▸ mem_pool.mpr ⟨j, hj, rfl⟩)
    have := duration_le hfirst
    simpa [record] using this
  have hdispatch : s.dispatch = { s with
      arrived := D.pop (if s.idle then s.arrived else D.push s.arrived s.ongoing)
      ongoing := inTick job (update f t (some i)) t i
      idle := false } := by
    rw [inTick_update, ← h.time]
    simp only [State.dispatch, htop, if_pos hswap, hp]
  rw [hdispatch]
  refine ⟨some i, hx, h.finish hx rfl rfl rfl ?_ ?_⟩
  · rintro j ⟨⟩
    rfl
  · have hpop := D.items_of_top _ _ hp
    rw [hall, pool_erase hi] at hpop
    rw [← (Multiset.cons_inj_right _).mp hpop]
    apply pool_congr
    · simp [eq_comm]
    · exact fun _ _ => rfl

/-- Choosing the process for tick `t`. -/
theorem Mid.dispatch {cur : Option ι} (h : Mid job f t (t + 1) cur s) :
    ∃ x, (jobs job).Shortest f t x ∧
      Inv job (update f t x) (t + 1) { s.dispatch with time := s.time + 1 } := by
  have harrived := h.arrived_pending
  cases htop : D.top s.arrived with
  | none =>
      -- nothing to choose from
      have hnone := pool_eq_zero.mp (harrived.symm.trans (D.items_of_top_none _ htop))
      refine h.goesOn ?_ (by simp [State.dispatch, htop])
      cases hcur : cur with
      | none => exact fun i hi => hnone i ⟨hi, by simp [hcur]⟩
      | some i =>
          refine ⟨h.pending hcur, fun j hj => ?_⟩
          by_cases hij : i = j
          · rw [hij]
          · exact absurd ⟨hj, by simp [hcur, hij]⟩ (hnone j)
  | some top =>
      by_cases hswap : (s.idle || s.ongoing.duration > top.duration) = true
      · exact h.swap htop hswap
      · -- the running process needs no more than the top of the queue
        simp only [Bool.or_eq_true, decide_eq_true_eq, not_or, Bool.not_eq_true, not_lt] at hswap
        obtain ⟨hidle, hle⟩ := hswap
        obtain ⟨i, hcur⟩ : ∃ i, cur = some i := by
          rw [h.idle] at hidle
          exact Option.isSome_iff_exists.mp (by simpa using hidle)
        refine h.goesOn ?_ ?_
        · rw [hcur]
          refine ⟨h.pending hcur, fun j hj => ?_⟩
          by_cases hij : i = j
          · rw [hij]
          · have hmem : record job f t j ∈ D.items s.arrived := by
              rw [harrived]
              exact mem_pool.mpr ⟨j, ⟨hj, by simp [hcur, hij]⟩, rfl⟩
            have hfirst := duration_le (D.top_first _ _ htop _ hmem)
            rw [(h.ongoing i hcur).1] at hle
            have := le_trans hle hfirst
            simpa [record] using this
        · simp only [State.dispatch, htop]
          rw [if_neg (by simp [hidle, hle])]

/-- Iterations that remain at most: each tick of work takes one, and the loop
idles only while it waits for an arrival or notices a completion. -/
def bound (job : ι → Process) (f : Nat → Option ι) (limit t : Nat) : Nat :=
  2 * (jobs job).work f t + (running f t).isSome.toNat + (limit + 1 - t)

/-- A tick that is not wasted lowers the bound: it works, or the loop notices a
completion, or it waits for a process that is still to come. -/
theorem bound_lt {limit : Nat} {x : Option ι} (hfresh : ∀ i, (job i).Fresh)
    (hlimit : ∀ i, (jobs job).arrival i ≤ limit) (h : (jobs job).Conserving f t)
    (hx : (jobs job).Busy f t x)
    (hwait : x = none → running f t = none → ∃ i, t ≤ (jobs job).arrival i) :
    bound job (update f t x) limit (t + 1) < bound job f limit t := by
  unfold bound
  cases x with
  | some i =>
      have := (jobs job).work_run hx
      simp only [running_update, Option.isSome_some, Bool.toNat_true]
      omega
  | none =>
      simp only [(jobs job).work_idle, running_update, Option.isSome_none, Bool.toNat_false]
      cases hrun : running f t with
      | some i => simp; omega
      | none =>
          obtain ⟨i, hi⟩ := hwait rfl hrun
          have hlate : (jobs job).arrival i ≠ t := by
            intro heq
            have hzero := h.served_eq_zero hi
            have hpos := jobs_duration_pos hfresh i
            exact hx i ⟨by omega, by omega⟩
          have := hlimit i
          simp
          omega

/-- One iteration of the loop either extends the schedule by one tick, with a
smaller bound, or finds that every job is finished. -/
theorem Inv.iteration {limit : Nat} (hfresh : ∀ i, (job i).Fresh)
    (hlimit : ∀ i, (jobs job).arrival i ≤ limit) (h : Inv job f t s) :
    (∃ s' x, s.body = .inl s' ∧ Inv job (update f t x) (t + 1) s' ∧
      bound job (update f t x) limit (t + 1) < bound job f limit t) ∨
    (s.body = .inr s.complete ∧
      ∀ i, served f i t = (jobs job).duration i ∧ running f t ≠ some i) := by
  by_cases hstop : (s.idle && A.isEmpty s.workload && D.isEmpty s.arrived) = true
  · right
    refine ⟨by rw [State.body, if_pos hstop], fun i => ?_⟩
    simp only [Bool.and_eq_true] at hstop
    obtain ⟨⟨hidle, hworkload⟩, harrived⟩ := hstop
    have hrun : running f t = none := by simpa [h.idle] using hidle
    have hw := pool_eq_zero.mp (h.workload.symm.trans (PriorityQueue.isEmpty_iff.mp hworkload)) i
    have ha := pool_eq_zero.mp (h.arrived.symm.trans (PriorityQueue.isEmpty_iff.mp harrived)) i
    have hle := h.srpt.served_le (i := i)
    simp only [hrun, ne_eq, reduceCtorEq, not_false_eq_true, and_true] at ha ⊢
    omega
  · left
    obtain ⟨cur, hmid⟩ := h.tick hfresh
    have hadmitted := hmid.admitArrived hfresh
    obtain ⟨x, hx, hinv⟩ := hadmitted.dispatch
    rw [hadmitted.time, ← h.time] at hinv
    refine ⟨_, x, by rw [State.body, if_neg hstop], hinv, ?_⟩
    refine bound_lt hfresh hlimit h.srpt.conserving hx.busy fun hnone hrun => ?_
    -- the loop idles: a process is still to come
    subst hnone
    have hnotEmpty : ¬ (A.items s.workload = 0 ∧ D.items s.arrived = 0) := by
      rw [h.idle, hrun] at hstop
      simpa [PriorityQueue.isEmpty_iff] using hstop
    have harrived : D.items s.arrived = 0 := by
      rw [h.arrived, pool_eq_zero]
      intro i hi
      exact hx i ⟨by omega, hi.1.2⟩
    by_contra hnone
    push Not at hnone
    refine hnotEmpty ⟨?_, harrived⟩
    rw [h.workload, pool_eq_zero]
    exact fun i => not_le.mpr (hnone i)

/-- The run of `stcf` follows the schedule `f`: the state after the iteration
that starts tick `u` shows the process that `f` gives the tick to, with the
time it still needs, and the ticks after the end of the loop are free. -/
def Follows (job : ι → Process) (f : Nat → Option ι) (start : State A D) : Prop :=
  ∀ u, match iterate State.body (u + 1) start with
    | none => f u = none
    | some s => s.idle = (f u).isNone ∧ ∀ i, f u = some i → s.ongoing = inTick job f u i

/-- The same for the first `t` ticks, all before the end of the loop. -/
def FollowsUpTo (job : ι → Process) (f : Nat → Option ι) (start : State A D) (t : Nat) : Prop :=
  ∀ u < t, ∃ s, iterate State.body (u + 1) start = some s ∧
    s.idle = (f u).isNone ∧ ∀ i, f u = some i → s.ongoing = inTick job f u i

theorem FollowsUpTo.extend {x : Option ι} {start s' : State A D}
    (h : FollowsUpTo job f start t) (hiter : iterate State.body (t + 1) start = some s')
    (hinv : Inv job (update f t x) (t + 1) s') :
    FollowsUpTo job (update f t x) start (t + 1) := by
  intro u hu
  rcases Nat.lt_succ_iff_lt_or_eq.mp hu with hlt | rfl
  · obtain ⟨s, hs, hidle, hongoing⟩ := h u hlt
    refine ⟨s, hs, ?_, fun i hi => ?_⟩
    · rw [update_of_ne (by omega), hidle]
    · rw [update_of_ne (by omega)] at hi
      rw [hongoing i hi]
      apply inTick_congr
      intro v hv
      rw [update_of_ne (by omega)]
  · exact ⟨s', hiter, hinv.idle, fun i hi => hinv.ongoing u i rfl hi⟩

/-- Everything `stcf` has done when its loop ends. -/
def Outcome (job : ι → Process) (start : State A D) (records : List Process) : Prop :=
  ∃ f t, (jobs job).Srpt f t ∧ (∀ i, served f i t = (jobs job).duration i) ∧
    Completed job f t (fun _ => True) records ∧ Follows job f start

/-- **The whole run.** -/
theorem run_spec (hfresh : ∀ i, (job i).Fresh) {start : State A D}
    (h0 : Inv job (fun _ => none) 0 start) :
    ∃ records n, Outcome job start records ∧
      ∀ fuel, n < fuel → loop State.body fuel start = some records := by
  obtain ⟨limit, hlimit⟩ : ∃ limit, ∀ i, (jobs job).arrival i ≤ limit :=
    ⟨∑ i, (jobs job).arrival i, fun i =>
      Finset.single_le_sum (fun _ _ => Nat.zero_le _) (Finset.mem_univ i)⟩
  let I : Nat → State A D → Prop := fun n s => ∃ f t, Inv job f t s ∧
    iterate State.body t start = some s ∧ FollowsUpTo job f start t ∧ bound job f limit t = n
  have hbody : ∀ n s, I n s →
      (∃ s' m, s.body = .inl s' ∧ m < n ∧ I m s') ∨
      (∃ r, s.body = .inr r ∧ Outcome job start r) := by
    rintro n s ⟨f, t, hinv, hiter, hfollows, rfl⟩
    rcases hinv.iteration hfresh hlimit with ⟨s', x, hb, hinv', hlt⟩ | ⟨hb, hall⟩
    · have hiter' := iterate_succ hiter hb
      exact Or.inl ⟨s', _, hb, hlt, update f t x, t + 1, hinv', hiter',
        hfollows.extend hiter' hinv', rfl⟩
    · refine Or.inr ⟨_, hb, f, t, hinv.srpt, fun i => (hall i).1, ?_, fun u => ?_⟩
      · obtain ⟨order, hmap, hmem, hsorted⟩ := hinv.complete
        exact ⟨order, hmap, fun i => by simp [hmem, hall], hsorted⟩
      · by_cases hu : u < t
        · obtain ⟨s', hs', hshow⟩ := hfollows u hu
          rw [hs']
          exact hshow
        · have hend := iterate_end hiter hb (show t < u + 1 by omega)
          rw [hend]
          exact hinv.srpt.beyond u (by omega)
  obtain ⟨records, hr, hrun⟩ := loop_total hbody (s := start)
    ⟨_, 0, h0, rfl, fun u hu => absurd hu (by omega), rfl⟩
  exact ⟨records, _, hr, hrun⟩

/-- The loop starts with the empty schedule and every process in `workload`. -/
theorem inv_start (hfresh : ∀ i, (job i).Fresh) (junk : Process) {workload : A.Queue}
    (hw : A.items workload = pool (fun _ => True) job) :
    Inv job (fun _ => none) 0 (start (D := D) junk workload) := by
  refine ⟨Jobs.Srpt.nil, rfl, ?_, ?_, rfl, ?_, ?_⟩
  · exact hw.trans (pool_congr (fun i => by simp) (fun _ _ => rfl))
  · rw [pool_eq_zero.mpr (by simp)]
    exact D.items_empty
  · intro u i hu
    omega
  · refine ⟨[], rfl, fun i => ?_, List.Pairwise.nil⟩
    have := jobs_duration_pos hfresh i
    simp [running]
    omega

/-- What the record `r` returned for the process `p` says, when the process
ran exactly in the ticks `ticks`. -/
structure Reports (p r : Process) (ticks : Set Nat) : Prop where
  arrival : r.arrival = p.arrival
  duration : r.duration = 0
  firstRun : ∃ u, IsLeast ticks u ∧ r.firstRun = u
  completion : ∃ u, IsGreatest ticks u ∧ r.completion = u + 1

omit [Fintype ι] in
theorem finished_reports (hover : ∀ u, t ≤ u → f u = none) {i : ι}
    (hpos : 0 < (jobs job).duration i) (hdone : served f i t = (jobs job).duration i) :
    Reports (job i) (finished job f t i) { u | f u = some i } := by
  have hserved : 0 < served f i t := by omega
  refine ⟨rfl, ?_, ?_, lastTick f i t, ?_, rfl⟩
  · simp [finished, record, Jobs.remaining, hdone]
  · cases hfirst : firstTick f i t with
    | none =>
        rw [firstTick_eq_none] at hfirst
        omega
    | some u => exact ⟨u, firstTick_eq_some hfirst, by simp [finished, record, hfirst]⟩
  · obtain ⟨-, hat, hlast⟩ := lastTick_spec hserved
    refine ⟨hat, fun v hv => ?_⟩
    by_cases hvt : v < t
    · exact hlast v hvt hv
    · have hv' : f v = some i := hv
      rw [hover v (by omega)] at hv'
      simp at hv'

/-- When all jobs are done there is one record for each. -/
theorem Completed.reports {n : Nat} {job : Fin n → Process} {f : Nat → Option (Fin n)}
    {records : List Process} (h : Completed job f t (fun _ => True) records)
    (hfresh : ∀ i, (job i).Fresh) (hover : ∀ u, t ≤ u → f u = none)
    (hdone : ∀ i, served f i t = (jobs job).duration i) :
    ∃ order : List (Fin n), order.Perm (List.finRange n) ∧
      List.Forall₂ (fun i r => Reports (job i) r { u | f u = some i }) order records := by
  obtain ⟨order, rfl, hmem, hsorted⟩ := h
  refine ⟨order, ?_, ?_⟩
  · have hnodup : order.Nodup := hsorted.imp fun h heq => by
      rw [heq] at h
      omega
    rw [List.perm_ext_iff_of_nodup hnodup (List.nodup_finRange n)]
    simp [hmem]
  · rw [List.forall₂_map_right_iff, List.forall₂_same]
    intro i _
    exact finished_reports hover (jobs_duration_pos hfresh i) (hdone i)

omit [Fintype ι] in
/-- The records come in the order of completion. -/
theorem Completed.sorted {p : ι → Prop} {records : List Process}
    (h : Completed job f t p records) :
    records.Pairwise fun p q => p.completion < q.completion := by
  obtain ⟨order, rfl, -, hsorted⟩ := h
  rw [List.pairwise_map]
  refine hsorted.imp fun h => ?_
  simp only [finished]
  omega

end Stcf

/-- A workload, with the processes told apart by their places in the list. -/
theorem items_eq_pool {A : PqueueArrival} {jobs : List Process} {workload : A.Queue}
    (hw : A.items workload = jobs) : A.items workload = pool (fun _ => True) jobs.get := by
  rw [hw, pool, Finset.filter_true, Fin.univ_val_map, List.ofFn_get]

open Stcf in
/-- **`stcf` schedules by shortest remaining time.** For every workload `jobs`
of fresh processes, however the queues break ties, the loop ends, and the
processes it ran tick by tick make a schedule that starts no process before
its arrival, gives each its duration, idles only when nothing can run and
always runs a process with the least remaining time; the records it returns,
one for each process and in the order of completion, tell the first tick and
the end of the last. -/
theorem stcf_shortest_remaining {A : PqueueArrival} (D : PqueueDuration) (junk : Process)
    (jobs : List Process) (workload : A.Queue) (hw : A.items workload = jobs)
    (hfresh : ∀ p ∈ jobs, p.Fresh) :
    ∃ (records : List Process) (f : Nat → Option (Fin jobs.length)),
      (∃ n, ∀ fuel, n < fuel → stcf D junk fuel workload = some records) ∧
      Follows jobs.get f (start (D := D) junk workload) ∧
      (∀ u i, f u = some i → (jobs.get i).arrival ≤ u) ∧
      (∀ i, ({ u | f u = some i }.ncard : Int) = (jobs.get i).duration) ∧
      (∀ u, f u = none → ∀ i, (jobs.get i).arrival ≤ u →
        (served f i u : Int) = (jobs.get i).duration) ∧
      (∀ u i j, f u = some i → (jobs.get j).arrival ≤ u →
        (served f j u : Int) < (jobs.get j).duration →
        (jobs.get i).duration - served f i u ≤ (jobs.get j).duration - served f j u) ∧
      (∃ order : List (Fin jobs.length), order.Perm (List.finRange jobs.length) ∧
        List.Forall₂ (fun i r => Reports (jobs.get i) r { u | f u = some i }) order records) ∧
      records.Pairwise fun p q => p.completion < q.completion := by
  have hall : ∀ i, (jobs.get i).Fresh := fun i => hfresh _ (List.get_mem jobs i)
  obtain ⟨records, n, ⟨f, t, hsrpt, hdone, hcomplete, hfollows⟩, hrun⟩ :=
    run_spec hall (inv_start hall (D := D) junk (items_eq_pool hw))
  have harr := jobs_arrival hall
  have hdur := jobs_duration hall
  have hlater : ∀ u i, t ≤ u → served f i u = (Stcf.jobs jobs.get).duration i := by
    intro u i hu
    rw [Jobs.served_beyond hsrpt.beyond hu, hdone]
  refine ⟨records, f, ⟨n, hrun⟩, hfollows, ?_, ?_, ?_, ?_,
    hcomplete.reports hall hsrpt.beyond hdone, hcomplete.sorted⟩
  · intro u i hf
    have := (hsrpt.pending hf).1
    rw [← harr]
    omega
  · intro i
    rw [ncard_ticks hsrpt.beyond, hdone, hdur]
  · intro u hf i ha
    rw [← hdur]
    by_cases hu : u < t
    · have hidle := hsrpt.shortest u hu
      rw [hf] at hidle
      have hnot := hidle i
      have hle := hsrpt.served_le (i := i)
      have hmono := served_mono (f := f) (i := i) (show u ≤ t by omega)
      have := harr i
      simp only [Jobs.Pending, not_and, not_lt] at hnot
      have := hnot (by omega)
      omega
    · rw [hlater u i (by omega)]
  · intro u i j hf ha hs
    have hu : u < t := by
      by_contra hge
      rw [hsrpt.beyond u (by omega)] at hf
      simp at hf
    have hshort := hsrpt.shortest u hu
    rw [hf] at hshort
    have := harr j
    have := hdur j
    have := hdur i
    have hle := hshort.2 j ⟨by omega, by omega⟩
    have hi := hshort.1.2
    simp only [Jobs.remaining] at hle
    omega

/-- A short process that arrives while a long one runs preempts it. -/
theorem stcf_shortest_remaining_preempted :
    ∃ (records : List Process) (f : Nat → Option (Fin 2)),
      (∃ n, ∀ fuel, n < fuel → stcf sortedByDuration ⟨0, 0, 0, 0⟩ fuel
        (sortedByArrival.ofList [⟨0, -1, 5, -1⟩, ⟨2, -1, 1, -1⟩]) = some records) ∧
      records.Pairwise (fun p q => p.completion < q.completion) ∧
      (∀ i, ({ u | f u = some i }.ncard : Int)
        = ([⟨0, -1, 5, -1⟩, ⟨2, -1, 1, -1⟩] : List Process)[i].duration) := by
  obtain ⟨records, f, hrun, -, -, hticks, -, -, -, hsorted⟩ :=
    stcf_shortest_remaining sortedByDuration ⟨0, 0, 0, 0⟩ [⟨0, -1, 5, -1⟩, ⟨2, -1, 1, -1⟩]
      (sortedByArrival.ofList [⟨0, -1, 5, -1⟩, ⟨2, -1, 1, -1⟩])
      (PriorityQueue.items_ofList _) (by decide)
  exact ⟨records, f, hrun, hsorted, hticks⟩

end Os377.Sched
