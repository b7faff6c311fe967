import Os377.Sched.Dispatched
import Os377.Sched.StcfCorrect

/-!
# Processes that all arrive at once

Then the order of arrival and the order of duration are one, so `fifo` and
`sjf` return the same list (`Dispatched.unique`). And a process on the
processor never needs more time than one that waits, so `stcf` does not preempt:
its loop runs in step with that of `sjf`, and only `duration` differs in what
they return.
-/

namespace Os377.Sched

open Os377.Lib

/-! ## `fifo` and `sjf` -/

section Unique

variable {a clock : Int} {r : Process} {rest records records' : List Process}

/-- Everybody has arrived when the first process starts. -/
theorem StartsNext.firstRun_together {prior : Process → Process → Prop}
    (h : StartsNext prior clock r rest) (hall : ∀ q ∈ r :: rest, q.arrival = a) :
    r.firstRun = max clock a := by
  obtain ⟨b, ⟨⟨q, hq, rfl⟩, -⟩, hrun⟩ := h.start
  rw [hrun, hall q hq]

/-- So it is the shortest of all. -/
theorem StartsNext.shortest (h : StartsNext (fun p q => p.duration ≤ q.duration) clock r rest)
    (hall : ∀ q ∈ r :: rest, q.arrival = a) : ∀ q ∈ r :: rest, r.duration ≤ q.duration := by
  intro q hq
  rcases List.mem_cons.mp hq with heq | hq'
  · rw [heq]
  · refine h.first q hq' ?_
    rw [h.firstRun_together hall, hall q hq]
    exact le_max_right _ _

/-- **One schedule**: the times of the processes decide the records. -/
theorem Dispatched.unique
    (h : Dispatched (fun p q => p.duration ≤ q.duration) clock records)
    (h' : Dispatched (fun p q => p.duration ≤ q.duration) clock records')
    (hall : ∀ q ∈ records, q.arrival = a)
    (htimes : (records.map (·.times)).Perm (records'.map (·.times))) : records = records' := by
  induction records generalizing clock records' with
  | nil =>
      cases records' with
      | nil => rfl
      | cons r' rest' => exact absurd htimes.length_eq (by simp)
  | cons r rest ih =>
      cases records' with
      | nil => exact absurd htimes.length_eq (by simp)
      | cons r' rest' =>
          have hall' : ∀ q ∈ r' :: rest', q.arrival = a := by
            intro q hq
            have hmem := htimes.mem_iff.mpr (List.mem_map_of_mem hq)
            obtain ⟨p, hp, hpq⟩ := List.mem_map.mp hmem
            rw [← (times_eq.mp hpq).1]
            exact hall p hp
          have hrun : r.firstRun = r'.firstRun :=
            (h.1.firstRun_together hall).trans (h'.1.firstRun_together hall').symm
          have harrival : r.arrival = r'.arrival :=
            (hall r List.mem_cons_self).trans (hall' r' List.mem_cons_self).symm
          have hduration : r.duration = r'.duration := by
            refine le_antisymm ?_ ?_
            · obtain ⟨p, hp, hpr⟩ :=
                List.mem_map.mp (htimes.mem_iff.mpr (List.mem_map_of_mem List.mem_cons_self))
              rw [← (times_eq.mp hpr).2]
              exact h.1.shortest hall p hp
            · obtain ⟨p, hp, hpr⟩ :=
                List.mem_map.mp (htimes.mem_iff.mp (List.mem_map_of_mem List.mem_cons_self))
              rw [← (times_eq.mp hpr).2]
              exact h'.1.shortest hall' p hp
          have hcompletion : r.completion = r'.completion := by
            rw [h.1.completion, h'.1.completion, hrun, hduration]
          have hfirst : r = r' := by
            cases r
            cases r'
            simp_all only
          subst hfirst
          rw [ih h.2 h'.2 (fun q hq => hall q (List.mem_cons_of_mem _ hq))
            (List.perm_cons _ |>.mp htimes)]

end Unique

/-! ## `stcf` in step with `sjf` -/

/-- What a record says about the run of its process. -/
def Process.story (p : Process) : Int × Int × Int := (p.arrival, p.firstRun, p.completion)

section InStep

variable {A : PqueueArrival} {D : PqueueDuration} {a e : Int}
  {s : Nonpreemptive.State A (WaitingLine.ofPriority D)} {t : Stcf.State A D}

/-- `s` of `sjf` and `t` of `stcf` are the same state. `sjf` has the record of
the running process in `complete`, `stcf` has it in `ongoing`; `e` is 1 as long as
the tick that has passed is not charged to it, then 0. -/
structure Paired (e : Int) (s : Nonpreemptive.State A (WaitingLine.ofPriority D))
    (t : Stcf.State A D) : Prop where
  workload : t.workload = s.workload
  arrived : t.arrived = s.arrived
  time : t.time = s.time
  idle : t.idle = s.idle
  free : t.idle = true → t.complete.map (·.story) = s.complete.map (·.story)
  busy : t.idle = false → ∃ done r, s.complete = done ++ [r] ∧
    t.complete.map (·.story) = done.map (·.story) ∧ r.arrival = t.ongoing.arrival ∧
    r.firstRun = t.ongoing.firstRun ∧ r.completion = s.timeend ∧
    t.ongoing.duration = s.timeend - s.time + e

/-- All processes arrive at `a`; nobody who waits needs less time than the running
process. -/
structure Together (a e : Int) (t : Stcf.State A D) : Prop where
  fresh : ∀ p ∈ A.items t.workload + D.items t.arrived,
    p.arrival = a ∧ 1 ≤ p.duration ∧ p.firstRun = -1
  before : t.time < a + e → t.idle = true ∧ D.items t.arrived = 0
  after : a + e ≤ t.time → A.items t.workload = 0
  shortest : t.idle = false → 1 ≤ t.ongoing.duration ∧
    ∀ p ∈ D.items t.arrived, t.ongoing.duration ≤ p.duration

theorem stcf_tick_fields : t.tick.time = t.time ∧ t.tick.workload = t.workload ∧
    t.tick.arrived = t.arrived := by
  rw [Stcf.State.tick]
  split_ifs with hidle
  · exact ⟨rfl, rfl, rfl⟩
  · dsimp only
    split_ifs <;> exact ⟨rfl, rfl, rfl⟩

/-- The time of the process is up in both. -/
theorem Paired.tick (h : Paired 1 s t) : Paired 0 s.tick t.tick := by
  obtain ⟨htime, -, -, hworkload, harrived⟩ := Nonpreemptive.tick_fields (s := s)
  obtain ⟨htime', hworkload', harrived'⟩ := stcf_tick_fields (t := t)
  have hfields : t.tick.workload = s.tick.workload ∧ t.tick.arrived = s.tick.arrived ∧
      t.tick.time = s.tick.time := by
    rw [htime, hworkload, harrived, htime', hworkload', harrived']
    exact ⟨h.workload, h.arrived, h.time⟩
  obtain ⟨hw, hl, hn⟩ := hfields
  cases hidle : t.idle with
  | true =>
      have hs : s.tick = s := if_pos (h.idle ▸ hidle)
      have ht : t.tick = t := if_pos hidle
      rw [hs, ht]
      refine ⟨h.workload, h.arrived, h.time, h.idle, h.free, fun hbusy => ?_⟩
      rw [hidle] at hbusy
      cases hbusy
  | false =>
      obtain ⟨done, r, hcomplete, hdone, harr, hrun, hend, hleft⟩ := h.busy hidle
      have hsidle : s.idle = false := h.idle ▸ hidle
      by_cases hover : s.time = s.timeend
      · have hs : s.tick = { s with idle := true } := by
          rw [Nonpreemptive.State.tick, hsidle, if_neg Bool.false_ne_true, if_pos hover]
        have hzero : t.ongoing.charge.duration = 0 := by
          show t.ongoing.duration - 1 = 0
          omega
        have ht : t.tick = { t with
            ongoing := { t.ongoing.charge with completion := t.time }
            complete := t.complete ++ [{ t.ongoing.charge with completion := t.time }]
            idle := true } := by
          rw [Stcf.State.tick, hidle, if_neg Bool.false_ne_true, if_pos hzero]
        refine ⟨hw, hl, hn, by rw [hs, ht], fun _ => ?_, fun hbusy => ?_⟩
        · have hstory : r.story =
              Process.story { t.ongoing.charge with completion := t.time } := by
            show (r.arrival, r.firstRun, r.completion) =
              (t.ongoing.arrival, t.ongoing.firstRun, t.time)
            rw [harr, hrun, hend, h.time, hover]
          rw [hs, ht]
          show (t.complete ++ [_]).map Process.story = s.complete.map Process.story
          rw [hcomplete, List.map_append, List.map_append, hdone, List.map_singleton,
            List.map_singleton, hstory]
        · rw [ht] at hbusy
          cases hbusy
      · have hs : s.tick = s := by
          rw [Nonpreemptive.State.tick, hsidle, if_neg Bool.false_ne_true, if_neg hover]
        have hmore : ¬ t.ongoing.charge.duration = 0 := by
          show ¬ t.ongoing.duration - 1 = 0
          omega
        have ht : t.tick = { t with ongoing := t.ongoing.charge } := by
          rw [Stcf.State.tick, hidle, if_neg Bool.false_ne_true, if_neg hmore]
        rw [hs, ht]
        refine ⟨h.workload, h.arrived, h.time, h.idle, h.free, fun _ =>
          ⟨done, r, hcomplete, hdone, harr, hrun, hend, ?_⟩⟩
        show t.ongoing.duration - 1 = _
        omega

theorem Together.tick (h : Together a 1 t) : Together a 1 t.tick := by
  obtain ⟨htime, hworkload, harrived⟩ := stcf_tick_fields (t := t)
  cases hidle : t.idle with
  | true =>
      have ht : t.tick = t := if_pos hidle
      exact ht.symm ▸ h
  | false =>
      obtain ⟨hpos, hshort⟩ := h.shortest hidle
      refine ⟨?_, fun hearly => ?_, ?_, fun hbusy => ?_⟩
      · rw [hworkload, harrived]
        exact h.fresh
      · rw [htime] at hearly
        have hbusy := (h.before hearly).1
        rw [hidle] at hbusy
        cases hbusy
      · rw [hworkload, htime]
        exact h.after
      · rw [harrived]
        rw [Stcf.State.tick, hidle, if_neg Bool.false_ne_true] at hbusy ⊢
        by_cases hzero : t.ongoing.charge.duration = 0
        · rw [if_pos hzero] at hbusy
          cases hbusy
        · rw [if_neg hzero]
          have hzero' : ¬ t.ongoing.duration - 1 = 0 := hzero
          refine ⟨?_, fun p hp => ?_⟩
          · show 1 ≤ t.ongoing.duration - 1
            omega
          · have := hshort p hp
            show t.ongoing.duration - 1 ≤ p.duration
            omega

/-- The admission loops are the same. -/
theorem Paired.admitArrived (h : Paired e s t) : Paired e s.admitArrived t.admitArrived := by
  have hboth : admitAll (fun p => decide (t.time ≥ p.arrival)) D.push t.workload t.arrived =
      admitAll (fun p => decide (s.time ≥ p.arrival)) (WaitingLine.ofPriority D).push
        s.workload s.arrived := by
    rw [h.time, h.workload, h.arrived]
    rfl
  exact ⟨congrArg Prod.fst hboth, congrArg Prod.snd hboth, h.time, h.idle, h.free, h.busy⟩

/-- At `a` everybody is admitted. -/
theorem Together.admitArrived (h : Together a 1 t) : Together a 0 t.admitArrived := by
  obtain ⟨moved, hpush, hmoved, hrest⟩ :=
    admitAll_spec (fun p => decide (t.time ≥ p.arrival)) D.push t.workload t.arrived (by
      intro p _ q _ hpq hq
      rw [decide_eq_true_eq] at hq ⊢
      omega)
  have hitems : D.items t.admitArrived.arrived = D.items t.arrived + moved := by
    show D.items (admitAll _ D.push t.workload t.arrived).2 = _
    rw [hpush, PriorityQueue.items_foldl_push]
  have hworkload : A.items t.admitArrived.workload =
      (A.items t.workload).filter fun p => ¬ decide (t.time ≥ p.arrival) = true := hrest
  have harrival : ∀ p ∈ A.items t.workload, p.arrival = a := fun p hp =>
    (h.fresh p (Multiset.mem_add.mpr (Or.inl hp))).1
  have hnobody : A.items t.workload = 0 → (moved : Multiset Process) = 0 := by
    intro hzero
    rw [hmoved, hzero, Multiset.filter_zero]
  refine ⟨fun p hp => ?_, fun hearly => ?_, fun hlate => ?_, fun hbusy => ?_⟩
  · refine h.fresh p ?_
    rw [hitems, hworkload, hmoved, Multiset.mem_add, Multiset.mem_add, Multiset.mem_filter,
      Multiset.mem_filter] at hp
    rw [Multiset.mem_add]
    rcases hp with hp | hp | hp
    · exact Or.inl hp.1
    · exact Or.inr hp
    · exact Or.inl hp.1
  · have hearly' : t.time < a + 0 := hearly
    obtain ⟨hidle, hzero⟩ := h.before (by omega)
    have hnone : (moved : Multiset Process) = 0 := by
      rw [hmoved, Multiset.filter_eq_nil]
      intro p hp hready
      have := harrival p hp
      have := of_decide_eq_true hready
      omega
    rw [hitems, hzero, hnone]
    exact ⟨hidle, rfl⟩
  · have hlate' : a + 0 ≤ t.time := hlate
    rw [hworkload, Multiset.filter_eq_nil]
    intro p hp hnot
    have := harrival p hp
    rw [decide_eq_true_eq] at hnot
    omega
  · have hbusy' : t.idle = false := hbusy
    have hlate : a + 1 ≤ t.time := by
      by_contra hnot
      have hidle := (h.before (by omega)).1
      rw [hbusy'] at hidle
      cases hidle
    rw [hitems, hnobody (h.after hlate), Multiset.add_zero]
    exact h.shortest hbusy'

/-- Nobody is preempted. -/
theorem Together.dispatch_busy (h : Together a e t) (hbusy : t.idle = false) :
    t.dispatch = t := by
  rw [Stcf.State.dispatch]
  cases htop : D.top t.arrived with
  | none => rfl
  | some top =>
      have hle := (h.shortest hbusy).2 top (PriorityQueue.top_mem htop)
      refine if_neg ?_
      simp only [hbusy, Bool.false_or, decide_eq_true_eq]
      omega

/-- Whoever starts has not run before. -/
theorem Together.dispatch_idle (h : Together a e t) (hidle : t.idle = true) {p : Process}
    (htop : D.top t.arrived = some p) : t.dispatch = { t with
      arrived := D.pop t.arrived
      ongoing := { p with firstRun := t.time }
      idle := false } := by
  have hfresh := (h.fresh p (Multiset.mem_add.mpr (Or.inr (PriorityQueue.top_mem htop)))).2.2
  simp only [Stcf.State.dispatch, htop, hidle, Bool.true_or, if_true, hfresh]

theorem Paired.dispatch (ht : Together a 0 t) (h : Paired 0 s t) :
    Paired 1 { s.dispatch with time := s.time + 1 } { t.dispatch with time := t.time + 1 } := by
  have htime : t.time + 1 = s.time + 1 := congrArg (· + 1) h.time
  cases hidle : t.idle with
  | false =>
      have hsidle : s.idle = false := h.idle ▸ hidle
      have hs : s.dispatch = s := if_neg (by simp [hsidle])
      obtain ⟨done, r, hcomplete, hdone, harr, hrun, hend, hleft⟩ := h.busy hidle
      rw [ht.dispatch_busy hidle, hs]
      refine ⟨h.workload, h.arrived, htime, h.idle, h.free, fun _ =>
        ⟨done, r, hcomplete, hdone, harr, hrun, hend, ?_⟩⟩
      show t.ongoing.duration = s.timeend - (s.time + 1) + 1
      omega
  | true =>
      have hsidle : s.idle = true := h.idle ▸ hidle
      cases htop : D.top t.arrived with
      | none =>
          have hs : s.dispatch = s := by
            have hfront : (WaitingLine.ofPriority D).front s.arrived = none := h.arrived ▸ htop
            rw [Nonpreemptive.State.dispatch, if_pos hsidle, hfront]
          have hstay : t.dispatch = t := by
            rw [Stcf.State.dispatch, htop]
          rw [hstay, hs]
          refine ⟨h.workload, h.arrived, htime, h.idle, h.free, fun hbusy => ?_⟩
          have hbusy' : t.idle = false := hbusy
          rw [hidle] at hbusy'
          cases hbusy'
      | some p =>
          have hs : s.dispatch = { s with
              arrived := (WaitingLine.ofPriority D).pop s.arrived
              idle := false
              timeend := s.time + p.duration
              complete := s.complete ++
                [{ p with firstRun := s.time, completion := s.time + p.duration }] } := by
            have hfront : (WaitingLine.ofPriority D).front s.arrived = some p := h.arrived ▸ htop
            simp only [Nonpreemptive.State.dispatch, hsidle, if_true, hfront]
          rw [ht.dispatch_idle hidle htop, hs]
          refine ⟨h.workload, congrArg D.pop h.arrived, htime, rfl, fun hfree => ?_, fun _ =>
            ⟨s.complete, _, rfl, h.free hidle, rfl, h.time.symm, rfl, ?_⟩⟩
          · cases hfree
          · show p.duration = s.time + p.duration - (s.time + 1) + 1
            omega

theorem Together.dispatch (h : Together a 0 t) :
    Together a 1 { t.dispatch with time := t.time + 1 } := by
  cases hidle : t.idle with
  | false =>
      have hlate : a ≤ t.time := by
        by_contra hnot
        have hfree := (h.before (by omega)).1
        rw [hidle] at hfree
        cases hfree
      rw [h.dispatch_busy hidle]
      refine ⟨h.fresh, fun hearly => ?_, fun _ => h.after (by omega), h.shortest⟩
      have : t.time + 1 < a + 1 := hearly
      omega
  | true =>
      cases htop : D.top t.arrived with
      | none =>
          have hstay : t.dispatch = t := by
            rw [Stcf.State.dispatch, htop]
          rw [hstay]
          refine ⟨h.fresh, fun _ => ⟨hidle, D.items_of_top_none _ htop⟩, fun hlate => ?_,
            h.shortest⟩
          have : a + 1 ≤ t.time + 1 := hlate
          exact h.after (by omega)
      | some p =>
          have hitems := D.items_of_top _ _ htop
          have hlate : a ≤ t.time := by
            by_contra hnot
            have hzero := (h.before (by omega)).2
            rw [hitems] at hzero
            exact Multiset.cons_ne_zero hzero
          have hp := h.fresh p (Multiset.mem_add.mpr (Or.inr (PriorityQueue.top_mem htop)))
          rw [h.dispatch_idle hidle htop]
          refine ⟨fun q hq => h.fresh q ?_, fun hearly => ?_, fun _ => h.after (by omega),
            fun _ => ⟨hp.2.1, fun q hq => ?_⟩⟩
          · rw [hitems, Multiset.add_cons]
            exact Multiset.mem_cons_of_mem hq
          · have : t.time + 1 < a + 1 := hearly
            omega
          · refine duration_le (D.top_first _ _ htop q ?_)
            rw [hitems]
            exact Multiset.mem_cons_of_mem hq

/-- One iteration of both loops. -/
theorem Paired.iteration (ht : Together a 1 t) (h : Paired 1 s t) :
    (∃ s' t', s.body = .inl s' ∧ t.body = .inl t' ∧ Paired 1 s' t' ∧ Together a 1 t') ∨
      ∃ records records', s.body = .inr records ∧ t.body = .inr records' ∧
        records'.map (·.story) = records.map (·.story) := by
  have hguard : (t.idle && A.isEmpty t.workload && D.isEmpty t.arrived) =
      (s.idle && A.isEmpty s.workload && (WaitingLine.ofPriority D).isEmpty s.arrived) := by
    rw [h.idle, h.workload, h.arrived]
    rfl
  by_cases hstop : (t.idle && A.isEmpty t.workload && D.isEmpty t.arrived) = true
  · right
    refine ⟨s.complete, t.complete, if_pos (hguard ▸ hstop), if_pos hstop, h.free ?_⟩
    simp only [Bool.and_eq_true] at hstop
    exact hstop.1.1
  · left
    have htogether := ht.tick.admitArrived
    have hpaired := h.tick.admitArrived.dispatch htogether
    have hstime : s.tick.admitArrived.time = s.time := Nonpreemptive.tick_fields.1
    have httime : t.tick.admitArrived.time = t.time := stcf_tick_fields.1
    have hnext := htogether.dispatch
    rw [httime] at hnext
    rw [hstime, httime] at hpaired
    exact ⟨_, _, if_neg (hguard ▸ hstop), if_neg hstop, hpaired, hnext⟩

end InStep

/-! ## The three schedulers -/

/-- Among processes that arrive together, whoever is first has the least
duration. -/
theorem Dispatched.byDuration {prior : Process → Process → Prop} {a clock : Int}
    {workload : Multiset Process} {records : List Process}
    (hprior : ∀ p q : Process, p.arrival = q.arrival → prior p q → p.duration ≤ q.duration)
    (hall : ∀ p ∈ workload, p.arrival = a)
    (htimes : (records.map (·.times) : Multiset (Int × Int)) = workload.map (·.times))
    (h : Dispatched prior clock records) :
    (∀ r ∈ records, r.arrival = a) ∧
      Dispatched (fun p q => p.duration ≤ q.duration) clock records := by
  have harrival : ∀ r ∈ records, r.arrival = a := by
    intro r hr
    obtain ⟨p, hp, hpr⟩ := mem_of_times htimes hr
    rw [← (times_eq.mp hpr).1]
    exact hall p hp
  refine ⟨harrival, h.imp fun p hp q hq hpq => hprior p q ?_ hpq⟩
  rw [harrival p hp, harrival q hq]

/-- **Simultaneous arrivals.** When all processes arrive at the same time, `fifo`
and `sjf` return the same list, and the records of `stcf` agree with it in
`arrival`, `first_run` and `completion`, in the same order. The times are unbounded
integers. -/
theorem simultaneous_coincide {A : PqueueArrival} (D : PqueueDuration) (junk : Process)
    (workload : A.Queue) (a : Int) (hfresh : ∀ p ∈ A.items workload, p.Fresh)
    (hall : ∀ p ∈ A.items workload, p.arrival = a) :
    ∃ byFifo bySjf byStcf : List Process,
      (∃ n, ∀ fuel, n < fuel → fifo fuel workload = some byFifo ∧
        sjf D fuel workload = some bySjf ∧ stcf D junk fuel workload = some byStcf) ∧
      bySjf = byFifo ∧ byStcf.map (·.story) = byFifo.map (·.story) := by
  have htimed : ∀ p ∈ A.items workload, p.Timed := fun p hp =>
    ⟨(hfresh p hp).arrival, (hfresh p hp).duration⟩
  obtain ⟨byFifo, ⟨htimes, hdispatched⟩, n, hfifo⟩ :=
    Nonpreemptive.run_dispatched (WaitingLine.keeps_fifo arrivalComparator)
      (fun _ _ => arrivalComparator_eq_false.mp) arrivesFirst_byTimes htimed
  obtain ⟨bySjf, ⟨htimes', hdispatched'⟩, n', hsjf⟩ :=
    Nonpreemptive.run_dispatched (WaitingLine.keeps_ofPriority D arrivalComparator)
      (fun _ _ => durationComparator_eq_false.mp) shorter_byTimes htimed
  have hsame : bySjf = byFifo := by
    obtain ⟨harrival, hfirst⟩ := hdispatched.byDuration (a := a) (fun p q hpq h => by
      unfold ArrivesFirst at h
      omega) hall htimes
    obtain ⟨-, hfirst'⟩ := hdispatched'.byDuration (a := a) (fun p q hpq h => by
      unfold Shorter at h
      omega) hall htimes'
    exact (hfirst.unique hfirst' harrival
      (Multiset.coe_eq_coe.mp (htimes.trans htimes'.symm))).symm
  have hpaired : Paired 1 (Nonpreemptive.start (L := WaitingLine.ofPriority D) workload)
      (Stcf.start junk workload) := by
    refine ⟨rfl, rfl, rfl, rfl, fun _ => rfl, fun hbusy => ?_⟩
    cases hbusy
  have htogether : Together a 1 (Stcf.start (D := D) junk workload) := by
    refine ⟨fun p hp => ?_, fun _ => ⟨rfl, D.items_empty⟩, fun hlate => ?_, fun hbusy => ?_⟩
    · have hp' : p ∈ A.items workload + D.items D.empty := hp
      rw [D.items_empty, Multiset.add_zero] at hp'
      exact ⟨hall p hp', (hfresh p hp').duration, (hfresh p hp').firstRun⟩
    · -- the loop starts at 0, and nobody arrives before
      have hlate' : a + 1 ≤ 0 := hlate
      refine Multiset.eq_zero_of_forall_notMem fun p hp => ?_
      have := (hfresh p hp).arrival
      have := hall p hp
      omega
    · cases hbusy
  obtain ⟨byStcf, hstcf, hstory⟩ := loop_lockstep (g := Stcf.State.body)
    (R := fun s t => Paired 1 s t ∧ Together a 1 t)
    (S := fun records records' => records'.map (·.story) = records.map (·.story))
    (fun s t h => h.1.iteration h.2) ⟨hpaired, htogether⟩ (hsjf (n' + 1) (Nat.lt_succ_self n'))
  refine ⟨byFifo, bySjf, byStcf, ⟨max n n', fun fuel hfuel => ?_⟩, hsame, hsame ▸ hstory⟩
  rw [max_lt_iff] at hfuel
  exact ⟨hfifo fuel hfuel.1, hsjf fuel hfuel.2, loop_mono hstcf hfuel.2⟩

/-- Two equal processes and a shorter one. -/
theorem simultaneous_coincide_three : ∃ byFifo bySjf byStcf : List Process,
    (∃ n, ∀ fuel, n < fuel →
      fifo fuel (sortedByArrival.ofList [⟨2, -1, 3, -1⟩, ⟨2, -1, 1, -1⟩, ⟨2, -1, 3, -1⟩]) =
        some byFifo ∧
      sjf sortedByDuration fuel
        (sortedByArrival.ofList [⟨2, -1, 3, -1⟩, ⟨2, -1, 1, -1⟩, ⟨2, -1, 3, -1⟩]) = some bySjf ∧
      stcf sortedByDuration ⟨0, 0, 0, 0⟩ fuel
        (sortedByArrival.ofList [⟨2, -1, 3, -1⟩, ⟨2, -1, 1, -1⟩, ⟨2, -1, 3, -1⟩]) =
        some byStcf) ∧
    bySjf = byFifo ∧ byStcf.map (·.story) = byFifo.map (·.story) :=
  simultaneous_coincide sortedByDuration ⟨0, 0, 0, 0⟩ _ 2
    (by rw [PriorityQueue.items_ofList]; decide) (by rw [PriorityQueue.items_ofList]; decide)

end Os377.Sched
