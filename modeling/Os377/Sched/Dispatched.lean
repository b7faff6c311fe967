import Mathlib.Algebra.Order.BigOperators.Group.Multiset
import Mathlib.Algebra.Order.Group.Int
import Mathlib.Data.List.Chain
import Mathlib.Order.Bounds.Basic
import Mathlib.Order.Lattice
import Os377.Sched.Nonpreemptive

/-!
# The order in which `fifo` and `sjf` serve their workloads

A processor without preemption that never waits while a process is there: the
next process starts as soon as the processor is free and somebody has arrived,
it is the first of those who have arrived, and it runs to its end
(`Dispatched`). `fifo` and `sjf` differ in who is first.

The loop is read from its end: what it returns from a state on is what it has
completed so far, followed by the records of the processes that are left,
dispatched from the time on at which the processor is free again.
-/

namespace Os377.Sched

open Os377.Lib

/-- The fields that are known before a process runs. -/
def Process.times (p : Process) : Int × Int := (p.arrival, p.duration)

/-- A process that arrives at some time and takes some. -/
structure Process.Timed (p : Process) : Prop where
  arrival : 0 ≤ p.arrival
  duration : 1 ≤ p.duration

instance (p : Process) : Decidable p.Timed :=
  decidable_of_iff (0 ≤ p.arrival ∧ 1 ≤ p.duration)
    ⟨fun h => ⟨h.1, h.2⟩, fun h => ⟨h.arrival, h.duration⟩⟩

/-- The order of `(arrival, duration)`. -/
def ArrivesFirst (p q : Process) : Prop :=
  p.arrival < q.arrival ∨ p.arrival = q.arrival ∧ p.duration ≤ q.duration

/-- The order of `(duration, arrival)`. -/
def Shorter (p q : Process) : Prop :=
  p.duration < q.duration ∨ p.duration = q.duration ∧ p.arrival ≤ q.arrival

/-- `r` is the record of the next process on a processor that is free from
`clock` on, and `rest` are the other ones that are left. -/
structure StartsNext (prior : Process → Process → Prop) (clock : Int) (r : Process)
    (rest : List Process) : Prop where
  start : ∃ a, IsLeast { x | ∃ q ∈ r :: rest, q.arrival = x } a ∧ r.firstRun = max clock a
  arrived : r.arrival ≤ r.firstRun
  first : ∀ q ∈ rest, q.arrival ≤ r.firstRun → prior r q
  completion : r.completion = r.firstRun + r.duration

/-- The records of a processor that is free from `clock` on. -/
def Dispatched (prior : Process → Process → Prop) : Int → List Process → Prop
  | _, [] => True
  | clock, r :: rest => StartsNext prior clock r rest ∧ Dispatched prior r.completion rest

/-- When the processor is free for record `k`. -/
def freeAt (clock : Int) (records : List Process) : Nat → Int
  | 0 => clock
  | k + 1 => (records[k]?.map (·.completion)).getD clock

section Order

variable {p q p' q' : Process}

theorem arrivalComparator_eq_false : arrivalComparator p q = false ↔ ArrivesFirst p q := by
  unfold arrivalComparator ArrivesFirst
  split_ifs with h
  · rw [decide_eq_false_iff_not]
    omega
  · rw [decide_eq_false_iff_not]
    omega

theorem durationComparator_eq_false : durationComparator p q = false ↔ Shorter p q := by
  unfold durationComparator Shorter
  split_ifs with h
  · rw [decide_eq_false_iff_not]
    omega
  · rw [decide_eq_false_iff_not]
    omega

theorem times_eq : p.times = q.times ↔ p.arrival = q.arrival ∧ p.duration = q.duration := by
  rw [Process.times, Process.times, Prod.mk.injEq]

/-- The relation looks at the times only. -/
def ByTimes (prior : Process → Process → Prop) : Prop :=
  ∀ p q p' q' : Process, p.times = p'.times → q.times = q'.times → prior p q → prior p' q'

theorem arrivesFirst_byTimes : ByTimes ArrivesFirst := by
  intro p q p' q' hp hq h
  obtain ⟨hp₁, hp₂⟩ := times_eq.mp hp
  obtain ⟨hq₁, hq₂⟩ := times_eq.mp hq
  unfold ArrivesFirst at h ⊢
  omega

theorem shorter_byTimes : ByTimes Shorter := by
  intro p q p' q' hp hq h
  obtain ⟨hp₁, hp₂⟩ := times_eq.mp hp
  obtain ⟨hq₁, hq₂⟩ := times_eq.mp hq
  unfold Shorter at h ⊢
  omega

/-- A record stands for a process with its times. -/
theorem mem_of_times {out : List Process} {m : Multiset Process}
    (h : (out.map (·.times) : Multiset (Int × Int)) = m.map (·.times)) (hq : q ∈ out) :
    ∃ q' ∈ m, q'.times = q.times := by
  have hmem : q.times ∈ m.map (·.times) := by
    rw [← h]
    exact List.mem_map_of_mem hq
  exact Multiset.mem_map.mp hmem

end Order

section Records

variable {prior : Process → Process → Prop} {clock : Int} {r : Process}
  {rest records : List Process}

/-- Some process of a list arrives first. -/
theorem exists_least_arrival (r : Process) (rest : List Process) :
    ∃ a, IsLeast { x | ∃ q ∈ r :: rest, q.arrival = x } a := by
  induction rest generalizing r with
  | nil =>
      refine ⟨r.arrival, ⟨r, List.mem_cons_self, rfl⟩, ?_⟩
      rintro x ⟨q, hq, rfl⟩
      rw [List.mem_singleton.mp hq]
  | cons s rest ih =>
      obtain ⟨a, ⟨q, hq, rfl⟩, hle⟩ := ih s
      refine ⟨min r.arrival q.arrival, ?_, ?_⟩
      · rcases min_choice r.arrival q.arrival with h | h
        · exact ⟨r, List.mem_cons_self, h.symm⟩
        · exact ⟨q, List.mem_cons_of_mem _ hq, h.symm⟩
      · rintro x ⟨q', hq', rfl⟩
        rcases List.mem_cons.mp hq' with heq | hq'
        · rw [heq]
          exact min_le_left _ _
        · exact (min_le_right _ _).trans (hle ⟨q', hq', rfl⟩)

theorem Dispatched.imp {prior' : Process → Process → Prop}
    (himp : ∀ p ∈ records, ∀ q ∈ records, prior p q → prior' p q)
    (h : Dispatched prior clock records) : Dispatched prior' clock records := by
  induction records generalizing clock with
  | nil => trivial
  | cons r rest ih =>
      refine ⟨⟨h.1.start, h.1.arrived, fun q hq harr => ?_, h.1.completion⟩,
        ih (fun p hp q hq => ?_) h.2⟩
      · exact himp r List.mem_cons_self q (List.mem_cons_of_mem _ hq) (h.1.first q hq harr)
      · exact himp p (List.mem_cons_of_mem _ hp) q (List.mem_cons_of_mem _ hq)

/-- Record by record. -/
theorem dispatched_iff : Dispatched prior clock records ↔ ∀ k (hk : k < records.length),
    StartsNext prior (freeAt clock records k) records[k] (records.drop (k + 1)) := by
  induction records generalizing clock with
  | nil => simp [Dispatched]
  | cons r rest ih =>
      -- record `k + 1` of the list is record `k` of its tail
      have hfree : ∀ k < rest.length, freeAt clock (r :: rest) (k + 1) =
          freeAt r.completion rest k := by
        intro k hk
        cases k with
        | zero => rfl
        | succ k =>
            have hk' : k < rest.length := by omega
            simp only [freeAt, List.getElem?_cons_succ, List.getElem?_eq_getElem hk',
              Option.map_some, Option.getD_some]
      rw [Dispatched, ih]
      constructor
      · rintro ⟨hfirst, hrest⟩ k hk
        cases k with
        | zero => exact hfirst
        | succ k =>
            have hk' : k < rest.length := Nat.lt_of_succ_lt_succ hk
            rw [hfree k hk']
            exact hrest k hk'
      · intro h
        refine ⟨h 0 (Nat.succ_pos _), fun k hk => ?_⟩
        rw [← hfree k hk]
        exact h (k + 1) (Nat.succ_lt_succ hk)

end Records

namespace Nonpreemptive

variable {A : PqueueArrival} {L : WaitingLine Process}

/-- The processes that have not started. -/
def State.left (s : State A L) : Multiset Process := A.items s.workload + L.items s.arrived

/-- At the top of an iteration. -/
structure Serving (Ok : L.Queue → Prop) (s : State A L) : Prop where
  timed : ∀ p ∈ s.left, p.Timed
  later : ∀ p ∈ A.items s.workload, s.time ≤ p.arrival
  here : ∀ p ∈ L.items s.arrived, p.arrival < s.time
  ok : Ok s.arrived
  idle : s.idle = true → L.items s.arrived = 0
  busy : s.idle = false → s.time ≤ s.timeend

/-- `m` is `s` after the processor was freed and the arrivals were admitted. -/
structure Admitted (Ok : L.Queue → Prop) (s m : State A L) : Prop where
  time : m.time = s.time
  timeend : m.timeend = s.timeend
  complete : m.complete = s.complete
  left : m.left = s.left
  later : ∀ p ∈ A.items m.workload, s.time < p.arrival
  here : ∀ p ∈ L.items m.arrived, p.arrival ≤ s.time
  ok : Ok m.arrived
  idle : m.idle = true ↔ s.idle = true ∨ s.time = s.timeend
  /-- An idle processor waits for an arrival. -/
  now : s.idle = true → ∀ p ∈ s.left, s.time ≤ p.arrival

variable {comp : Process → Process → Bool} {Ok : L.Queue → Prop} {s m : State A L}

theorem tick_idle : s.tick.idle = true ↔ s.idle = true ∨ s.time = s.timeend := by
  rw [State.tick]
  split_ifs with h1 h2
  · simp [h1]
  · simp [h2]
  · simp [h1, h2]

theorem tick_fields : s.tick.time = s.time ∧ s.tick.timeend = s.timeend ∧
    s.tick.complete = s.complete ∧ s.tick.workload = s.workload ∧ s.tick.arrived = s.arrived := by
  rw [State.tick]
  split_ifs <;> exact ⟨rfl, rfl, rfl, rfl, rfl⟩

/-- Admission moves processes, no more. -/
theorem admitArrived_left : s.admitArrived.left = s.left := by
  obtain ⟨moved, hpush, hitems, -⟩ :=
    admitAll_ordered (fun p => decide (s.time ≥ p.arrival)) L.push s.workload s.arrived (by
      intro a _ b _ hab hb
      rw [decide_eq_true_eq] at hb ⊢
      omega)
  show A.items (admitAll _ L.push s.workload s.arrived).1 +
    L.items (admitAll _ L.push s.workload s.arrived).2 = _
  rw [hpush, WaitingLine.items_foldl_push, State.left, hitems,
    Multiset.add_comm (L.items s.arrived), ← Multiset.add_assoc,
    Multiset.add_comm _ (moved : Multiset Process)]

/-- The loop goes on while somebody is left. -/
theorem body_of_left (h : s.idle = true → s.left ≠ 0) :
    s.body = .inl { s.tick.admitArrived.dispatch with time := s.time + 1 } := by
  refine if_neg fun hstop => ?_
  simp only [Bool.and_eq_true] at hstop
  refine h hstop.1.1 ?_
  rw [State.left, PriorityQueue.isEmpty_iff.mp hstop.1.2, WaitingLine.isEmpty_iff.mp hstop.2]
  rfl

/-- Freeing the processor, and admission. -/
theorem Serving.admitted (hk : L.Keeps arrivalComparator comp Ok) (h : Serving Ok s) :
    Admitted Ok s s.tick.admitArrived := by
  obtain ⟨htime, htimeend, hcomplete, hworkload, harrived⟩ := tick_fields (s := s)
  obtain ⟨moved, hpush, hitems, hsorted, hall, hrest⟩ :=
    admitAll_ordered (fun p => decide (s.tick.time ≥ p.arrival)) L.push s.tick.workload
      s.tick.arrived (by
        intro a _ b _ hab hb
        rw [decide_eq_true_eq] at hb ⊢
        omega)
  have hpushed : L.items s.tick.admitArrived.arrived = L.items s.arrived + moved := by
    show L.items (admitAll _ L.push s.tick.workload s.tick.arrived).2 = _
    rw [hpush, WaitingLine.items_foldl_push, harrived]
  rw [hworkload] at hitems
  have hnow : ∀ p ∈ moved, p.arrival = s.time := by
    intro p hp
    have hready := of_decide_eq_true (hall p hp)
    have hlater := h.later p (by rw [hitems]; exact Multiset.mem_add.mpr (Or.inl hp))
    omega
  refine ⟨htime, htimeend, hcomplete, ?_, fun p hp => ?_, fun p hp => ?_, ?_, tick_idle,
    fun hidle p hp => ?_⟩
  · rw [admitArrived_left, State.left, hworkload, harrived, State.left]
  · have hlate := hrest p hp
    rw [decide_eq_true_eq] at hlate
    omega
  · rw [hpushed, Multiset.mem_add] at hp
    rcases hp with hp | hp
    · exact (h.here p hp).le
    · exact (hnow p hp).le
  · show Ok (admitAll _ L.push s.tick.workload s.tick.arrived).2
    rw [hpush]
    refine hk.foldl_push (harrived ▸ h.ok) hsorted fun b hb a ha => ?_
    rw [harrived] at hb
    have hbefore := h.here b hb
    have hat := hnow a ha
    exact arrivalComparator_eq_false.mpr (Or.inl (by omega))
  · rw [State.left, h.idle hidle, Multiset.add_zero] at hp
    exact h.later p hp

/-- What the loop returns from a state on. -/
def Continues (prior : Process → Process → Prop) (s : State A L) (records : List Process) : Prop :=
  ∃ out, records = s.complete ++ out ∧
    (out.map (·.times) : Multiset (Int × Int)) = s.left.map (·.times) ∧
    ∀ clock, (s.idle = true → clock ≤ s.time) → (s.idle = false → clock = s.timeend) →
      Dispatched prior clock out

/-- Iterations that remain at most. -/
def todo (limit : Int) (s : State A L) : Nat :=
  (s.left.map fun p => (p.duration + 1).toNat).sum +
    (if s.idle then 0 else (s.timeend - s.time + 1).toNat) + (limit + 1 - s.time).toNat

/-- What an iteration has to leave behind. -/
def Goes (prior : Process → Process → Prop) (Ok : L.Queue → Prop) (limit : Int)
    (s s' : State A L) : Prop :=
  Serving Ok s' ∧ (∀ p ∈ A.items s'.workload, p.arrival ≤ limit) ∧ todo limit s' < todo limit s ∧
    ∀ records, Continues prior s' records → Continues prior s records

section Iteration

variable {prior : Process → Process → Prop} {limit : Int}

theorem Admitted.workload_sub (h : Serving Ok s) (hm : Admitted Ok s m) {p : Process}
    (hp : p ∈ A.items m.workload) : p ∈ A.items s.workload := by
  have hleft : p ∈ s.left := hm.left ▸ Multiset.mem_add.mpr (Or.inl hp)
  refine (Multiset.mem_add.mp hleft).resolve_right fun harr => ?_
  have hearly := h.here p harr
  have hlate := hm.later p hp
  omega

/-- The process that has the processor has had it before, and not to the end. -/
theorem Admitted.goes_on (h : Serving Ok s) (hm : Admitted Ok s m) (hidle : m.idle = false) :
    s.idle = false ∧ s.time < s.timeend := by
  have hnot := mt hm.idle.mpr (by simp [hidle])
  rw [not_or, Bool.not_eq_true] at hnot
  have := h.busy hnot.1
  exact ⟨hnot.1, by omega⟩

/-- The unit that passes counts: somebody runs, or is still to come. -/
theorem Admitted.waits_todo (h : Serving Ok s)
    (hlimit : ∀ p ∈ A.items s.workload, p.arrival ≤ limit) (hm : Admitted Ok s m)
    (hmore : s.idle = true → s.left ≠ 0) :
    todo limit { m with time := m.time + 1 } < todo limit s := by
  have hleft : State.left { m with time := m.time + 1 } = s.left := hm.left
  unfold todo
  rw [hleft]
  show _ + (if m.idle then 0 else (m.timeend - (m.time + 1) + 1).toNat) +
    (limit + 1 - (m.time + 1)).toNat < _
  rw [hm.time, hm.timeend]
  cases hidle : s.idle with
  | true =>
      -- the processor waits for a process that is still to come
      have hitems : s.left = A.items s.workload := by
        rw [State.left, h.idle hidle, Multiset.add_zero]
      obtain ⟨p, hp⟩ := Multiset.exists_mem_of_ne_zero (hitems ▸ hmore hidle)
      have hlate := h.later p hp
      have hbound := hlimit p hp
      have hmid : m.idle = true := hm.idle.mpr (Or.inl hidle)
      simp only [hmid, if_true]
      omega
  | false =>
      have hle := h.busy hidle
      simp only [Bool.false_eq_true, if_false]
      cases hmid : m.idle with
      | true =>
          simp only [if_true]
          omega
      | false =>
          have := (hm.goes_on h hmid).2
          simp only [Bool.false_eq_true, if_false]
          omega

/-- Nobody starts. -/
theorem Admitted.waits (h : Serving Ok s) (hlimit : ∀ p ∈ A.items s.workload, p.arrival ≤ limit)
    (hm : Admitted Ok s m) (hnone : m.idle = true → L.items m.arrived = 0)
    (hmore : s.idle = true → s.left ≠ 0) (hstay : m.dispatch = m) :
    Goes prior Ok limit s { m.dispatch with time := m.time + 1 } := by
  rw [hstay]
  have hleft : State.left { m with time := m.time + 1 } = s.left := hm.left
  refine ⟨⟨?_, fun p hp => ?_, fun p hp => ?_, hm.ok, hnone, fun hidle => ?_⟩,
    fun p hp => hlimit p (hm.workload_sub h hp), hm.waits_todo h hlimit hmore, ?_⟩
  · rw [hleft]
    exact h.timed
  · have := hm.later p hp
    have := hm.time
    show m.time + 1 ≤ p.arrival
    omega
  · have := hm.here p hp
    have := hm.time
    show p.arrival < m.time + 1
    omega
  · have := (hm.goes_on h hidle).2
    have := hm.time
    have := hm.timeend
    show m.time + 1 ≤ m.timeend
    omega
  · rintro records ⟨out, hout, htimes, hdispatched⟩
    refine ⟨out, hm.complete ▸ hout, hleft ▸ htimes, fun clock hfree hend => ?_⟩
    refine hdispatched clock (fun hidle => ?_) fun hidle => ?_
    · show clock ≤ m.time + 1
      rw [hm.time]
      cases hs : s.idle with
      | true => exact (hfree hs).trans (by omega)
      | false =>
          have hnow := (hm.idle.mp hidle).resolve_left (by simp [hs])
          have := hend hs
          omega
    · exact (hend (hm.goes_on h hidle).1).trans hm.timeend.symm

/-- The record of a process that starts when the processor is free and it is the
first of those who are there. -/
theorem Admitted.startsNext (hm : Admitted Ok s m) (hidle : m.idle = true) {p : Process}
    {clock : Int} {out : List Process} (hp : p ∈ s.left) (harr : p.arrival ≤ s.time)
    (hfree : s.idle = true → clock ≤ s.time) (hend : s.idle = false → clock = s.timeend)
    (hout : ∀ q ∈ out, (∃ q' ∈ s.left, q'.times = q.times) ∧ (q.arrival ≤ s.time → prior p q))
    (hprior : ByTimes prior) : StartsNext prior clock
      { p with firstRun := s.time, completion := s.time + p.duration } out := by
  refine ⟨?_, harr, fun q hq hqarr => hprior p q _ q rfl rfl ((hout q hq).2 hqarr), rfl⟩
  obtain ⟨a, hleast⟩ := exists_least_arrival
    { p with firstRun := s.time, completion := s.time + p.duration } out
  refine ⟨a, hleast, ?_⟩
  have hle : a ≤ s.time := (hleast.2 ⟨_, List.mem_cons_self, rfl⟩).trans harr
  show s.time = max clock a
  cases hs : s.idle with
  | false =>
      -- it starts when the last one ends
      have hnow := (hm.idle.mp hidle).resolve_left (by simp [hs])
      rw [hend hs, ← hnow, max_eq_left hle]
  | true =>
      -- it starts when the first of those who are left arrives
      obtain ⟨q, hq, hqa⟩ := hleast.1
      have hge : s.time ≤ a := by
        rcases List.mem_cons.mp hq with heq | hq
        · rw [← hqa, heq]
          exact hm.now hs p hp
        · obtain ⟨⟨q', hq', htimes⟩, -⟩ := hout q hq
          rw [← hqa, ← (times_eq.mp htimes).1]
          exact hm.now hs q' hq'
      rw [max_eq_right ((hfree hs).trans hge)]
      omega

/-- The process in front starts. -/
theorem Admitted.starts (hk : L.Keeps arrivalComparator comp Ok)
    (hcomp : ∀ p q, comp p q = false → prior p q) (hprior : ByTimes prior) (h : Serving Ok s)
    (hlimit : ∀ p ∈ A.items s.workload, p.arrival ≤ limit) (hm : Admitted Ok s m) {p : Process}
    (hidle : m.idle = true) (hfront : L.front m.arrived = some p) :
    Goes prior Ok limit s { m.dispatch with time := m.time + 1 } := by
  have hdispatch : m.dispatch = { m with
      arrived := L.pop m.arrived
      idle := false
      timeend := s.time + p.duration
      complete := s.complete ++
        [{ p with firstRun := s.time, completion := s.time + p.duration }] } := by
    simp only [State.dispatch, hidle, if_true, hfront, hm.time, hm.complete]
  have hitems := L.items_of_front _ _ hfront
  have hleft : s.left = p ::ₘ State.left { m.dispatch with time := m.time + 1 } := by
    rw [← hm.left, hdispatch, State.left, State.left, hitems, Multiset.add_cons]
  have hp : p ∈ s.left := hleft ▸ Multiset.mem_cons_self p _
  have hpos := (h.timed p hp).duration
  have harr : p.arrival ≤ s.time := hm.here p (hitems ▸ Multiset.mem_cons_self p _)
  have hback : ∀ q ∈ State.left { m.dispatch with time := m.time + 1 }, q ∈ s.left := fun q hq =>
    hleft ▸ Multiset.mem_cons_of_mem hq
  have hafter : ∀ q ∈ L.items (L.pop m.arrived), q ∈ L.items m.arrived := fun q hq =>
    hitems ▸ Multiset.mem_cons_of_mem hq
  refine ⟨⟨fun q hq => h.timed q (hback q hq), ?_, ?_, ?_, ?_, ?_⟩, ?_, ?_, ?_⟩
  · rw [hdispatch, hm.time]
    exact hm.later
  · rw [hdispatch, hm.time]
    exact fun q hq => Int.lt_add_one_of_le (hm.here q (hafter q hq))
  · rw [hdispatch]
    exact hk.pop _ hm.ok
  · rw [hdispatch]
    exact fun hbusy => absurd hbusy (by simp)
  · rw [hdispatch, hm.time]
    intro _
    show s.time + 1 ≤ s.time + p.duration
    omega
  · rw [hdispatch]
    exact fun q hq => hlimit q (hm.workload_sub h hq)
  · rw [todo, todo, hleft, Multiset.map_cons, Multiset.sum_cons]
    rw [hdispatch, hm.time]
    simp only [Bool.false_eq_true, if_false]
    split_ifs <;> omega
  · rintro records ⟨out, hout, htimes, hdispatched⟩
    refine ⟨{ p with firstRun := s.time, completion := s.time + p.duration } :: out, ?_, ?_,
      fun clock hfree hend => ⟨hm.startsNext hidle hp harr hfree hend (fun q hq => ?_) hprior, ?_⟩⟩
    · rw [hout, hdispatch, List.append_assoc, List.singleton_append]
    · rw [hleft, Multiset.map_cons, ← htimes, List.map_cons, ← Multiset.cons_coe]
      rfl
    · obtain ⟨q', hq', hqtimes⟩ := mem_of_times htimes hq
      refine ⟨⟨q', hback q' hq', hqtimes⟩, fun hqarr => ?_⟩
      refine hprior p q' p q rfl hqtimes (hcomp _ _ (hk.front _ _ hm.ok hfront q' ?_))
      rw [hdispatch] at hq'
      refine (Multiset.mem_add.mp hq').resolve_left fun hlate => ?_
      have hlater := hm.later q' hlate
      have := (times_eq.mp hqtimes).1
      omega
    · refine hdispatched _ (fun hbusy => ?_) fun _ => ?_
      · rw [hdispatch] at hbusy
        exact absurd hbusy (by simp)
      · rw [hdispatch]

/-- One iteration, or the end of the loop. -/
theorem Serving.iteration (hk : L.Keeps arrivalComparator comp Ok)
    (hcomp : ∀ p q, comp p q = false → prior p q) (hprior : ByTimes prior) (h : Serving Ok s)
    (hlimit : ∀ p ∈ A.items s.workload, p.arrival ≤ limit) :
    (∃ s', s.body = .inl s' ∧ Goes prior Ok limit s s') ∨
      (s.body = .inr s.complete ∧ s.left = 0) := by
  by_cases hstop : (s.idle && A.isEmpty s.workload && L.isEmpty s.arrived) = true
  · right
    refine ⟨if_pos hstop, ?_⟩
    simp only [Bool.and_eq_true] at hstop
    rw [State.left, PriorityQueue.isEmpty_iff.mp hstop.1.2, WaitingLine.isEmpty_iff.mp hstop.2]
    rfl
  · left
    have hmore : s.idle = true → s.left ≠ 0 := by
      intro hidle hzero
      have hworkload : A.items s.workload = 0 := Multiset.le_zero.mp
        (hzero ▸ Multiset.le_add_right _ _)
      have harrived : L.items s.arrived = 0 := Multiset.le_zero.mp
        (hzero ▸ Multiset.le_add_left _ _)
      refine hstop ?_
      rw [hidle, PriorityQueue.isEmpty_iff.mpr hworkload, WaitingLine.isEmpty_iff.mpr harrived]
      rfl
    refine ⟨_, body_of_left hmore, ?_⟩
    have hm := h.admitted hk
    rw [← hm.time]
    cases hidle : s.tick.admitArrived.idle with
    | false =>
        refine hm.waits h hlimit (fun htrue => ?_) hmore (if_neg (by simp [hidle]))
        rw [hidle] at htrue
        cases htrue
    | true =>
        cases hfront : L.front s.tick.admitArrived.arrived with
        | none =>
            have hstay : s.tick.admitArrived.dispatch = s.tick.admitArrived := by
              rw [State.dispatch, if_pos hidle, hfront]
            exact hm.waits h hlimit (fun _ => L.items_of_front_none _ hfront) hmore hstay
        | some p => exact hm.starts hk hcomp hprior h hlimit hidle hfront

/-- **The whole run.** -/
theorem run_dispatched (hk : L.Keeps arrivalComparator comp Ok)
    (hcomp : ∀ p q, comp p q = false → prior p q) (hprior : ByTimes prior) {workload : A.Queue}
    (hw : ∀ p ∈ A.items workload, p.Timed) :
    ∃ records, ((records.map (·.times) : Multiset (Int × Int)) =
        (A.items workload).map (·.times) ∧ Dispatched prior 0 records) ∧
      ∃ n, ∀ fuel, n < fuel → loop State.body fuel (start (L := L) workload) = some records := by
  obtain ⟨limit, hlimit⟩ : ∃ limit : Int, ∀ p ∈ A.items workload, p.arrival ≤ limit := by
    refine ⟨((A.items workload).map (·.arrival)).sum, fun p hp => ?_⟩
    refine Multiset.single_le_sum (fun a ha => ?_) _ (Multiset.mem_map_of_mem _ hp)
    obtain ⟨q, hq, rfl⟩ := Multiset.mem_map.mp ha
    exact (hw q hq).arrival
  have hleft : (start (L := L) workload).left = A.items workload := by
    rw [State.left, start, L.items_empty, Multiset.add_zero]
  have hinv : Serving Ok (start (L := L) workload) := by
    refine ⟨hleft ▸ hw, fun p hp => (hw p hp).arrival, fun p hp => ?_, hk.empty,
      fun _ => L.items_empty, fun hbusy => ?_⟩
    · rw [start, L.items_empty] at hp
      exact absurd hp (Multiset.notMem_zero p)
    · cases hbusy
  obtain ⟨records, ⟨out, hout, htimes, hdispatched⟩, hrun⟩ :=
    loop_total_from (Q := Continues prior)
      (I := fun n s => Serving Ok s ∧ (∀ p ∈ A.items s.workload, p.arrival ≤ limit) ∧
        todo limit s = n)
      (by
        rintro n s ⟨h, hbound, rfl⟩
        rcases h.iteration hk hcomp hprior hbound with ⟨s', hb, hinv', hbound', hlt, hback⟩ |
          ⟨hb, hzero⟩
        · exact Or.inl ⟨s', _, hb, hlt, ⟨hinv', hbound', rfl⟩, hback⟩
        · refine Or.inr ⟨_, hb, [], (List.append_nil _).symm, ?_, fun _ _ _ => trivial⟩
          rw [hzero]
          rfl)
      ⟨hinv, hlimit, rfl⟩
  obtain rfl : records = out := hout
  refine ⟨records, ⟨hleft ▸ htimes, hdispatched 0 (fun _ => le_refl 0) fun hbusy => ?_⟩, _, hrun⟩
  cases hbusy

end Iteration

end Nonpreemptive

/-! ## `fifo` and `sjf` -/

/-- In the order of arrival, whoever is first of those who have arrived is first
of all. -/
theorem Dispatched.sorted {clock : Int} {records : List Process}
    (h : Dispatched ArrivesFirst clock records) : records.Pairwise ArrivesFirst := by
  induction records generalizing clock with
  | nil => exact List.Pairwise.nil
  | cons r rest ih =>
      refine List.pairwise_cons.mpr ⟨fun q hq => ?_, ih h.2⟩
      by_cases harr : q.arrival ≤ r.firstRun
      · exact h.1.first q hq harr
      · have := h.1.arrived
        exact Or.inl (by omega)

/-- Then the least arrival is that of the next process. -/
theorem StartsNext.firstRun_eq {clock : Int} {r : Process} {rest : List Process}
    (h : StartsNext ArrivesFirst clock r rest) (hfirst : ∀ q ∈ rest, ArrivesFirst r q) :
    r.firstRun = max clock r.arrival := by
  obtain ⟨a, ⟨⟨q, hq, rfl⟩, hle⟩, hrun⟩ := h.start
  have hqr : q.arrival ≤ r.arrival := hle ⟨r, List.mem_cons_self, rfl⟩
  have hrq : r.arrival ≤ q.arrival := by
    rcases List.mem_cons.mp hq with heq | hq
    · rw [heq]
    · have := hfirst q hq
      unfold ArrivesFirst at this
      omega
  rw [hrun, le_antisymm hqr hrq]

/-- The recurrence of `fifo`: each process starts when it has arrived and the one
before it is done. -/
theorem Dispatched.recurrence {clock : Int} {records : List Process}
    (h : Dispatched ArrivesFirst clock records) :
    (∀ r, records.head? = some r → r.firstRun = max clock r.arrival) ∧
      records.IsChain fun p r => r.firstRun = max p.completion r.arrival := by
  induction records generalizing clock with
  | nil => exact ⟨fun r hr => absurd hr (by simp), List.IsChain.nil⟩
  | cons r rest ih =>
      obtain ⟨hhead, hchain⟩ := ih h.2
      refine ⟨fun r' hr' => ?_, ?_⟩
      · obtain rfl : r = r' := Option.some.inj hr'
        exact h.1.firstRun_eq (List.pairwise_cons.mp h.sorted).1
      · cases rest with
        | nil => exact List.isChain_singleton r
        | cons q rest => exact List.isChain_cons_cons.mpr ⟨hhead q rfl, hchain⟩

theorem Dispatched.completion {prior : Process → Process → Prop} {clock : Int}
    {records : List Process} (h : Dispatched prior clock records) :
    ∀ r ∈ records, r.completion = r.firstRun + r.duration := by
  induction records generalizing clock with
  | nil => exact fun r hr => absurd hr List.not_mem_nil
  | cons r rest ih => exact List.forall_mem_cons.mpr ⟨h.1.completion, ih h.2⟩

/-- **`fifo` follows its recurrence.** On every workload the loop ends, and the
processes are returned in the order of arrival and duration; the first one
starts when it arrives, each later one when it has arrived and its predecessor
has completed, and each runs to its end. -/
theorem fifo_recurrence {A : PqueueArrival} (workload : A.Queue)
    (hw : ∀ p ∈ A.items workload, p.Timed) :
    ∃ records, (∃ n, ∀ fuel, n < fuel → fifo fuel workload = some records) ∧
      (records.map (·.times) : Multiset (Int × Int)) = (A.items workload).map (·.times) ∧
      records.Pairwise ArrivesFirst ∧
      (∀ r, records.head? = some r → r.firstRun = r.arrival) ∧
      records.IsChain (fun p r => r.firstRun = max r.arrival p.completion) ∧
      ∀ r ∈ records, r.completion = r.firstRun + r.duration := by
  obtain ⟨records, ⟨htimes, hdispatched⟩, hrun⟩ :=
    Nonpreemptive.run_dispatched (WaitingLine.keeps_fifo arrivalComparator)
      (fun _ _ => arrivalComparator_eq_false.mp) arrivesFirst_byTimes hw
  obtain ⟨hhead, hchain⟩ := hdispatched.recurrence
  refine ⟨records, hrun, htimes, hdispatched.sorted, fun r hr => ?_,
    hchain.imp fun p r h => h.trans (max_comm _ _), hdispatched.completion⟩
  obtain ⟨p, hp, hptimes⟩ := mem_of_times htimes (List.mem_of_mem_head? hr)
  rw [hhead r hr, ← (times_eq.mp hptimes).1, max_eq_right (hw p hp).arrival]

/-- Two processes with a gap between them, pushed in the wrong order. -/
theorem fifo_recurrence_gap : ∃ records : List Process,
    (∃ n, ∀ fuel, n < fuel →
      fifo fuel (sortedByArrival.ofList [⟨7, -1, 2, -1⟩, ⟨1, -1, 3, -1⟩]) = some records) ∧
    records.Pairwise ArrivesFirst := by
  obtain ⟨records, hrun, -, hsorted, -⟩ := fifo_recurrence
    (sortedByArrival.ofList [⟨7, -1, 2, -1⟩, ⟨1, -1, 3, -1⟩])
    (by rw [PriorityQueue.items_ofList]; decide)
  exact ⟨records, hrun, hsorted⟩

/-- **`sjf` picks the shortest arrived process.** On every workload the loop ends
and returns each process once; record `k` starts when the one before it has
completed and one of those that are left has arrived, it is the first of the
arrived ones by duration and arrival, and it runs to its end. -/
theorem sjf_shortest {A : PqueueArrival} (D : PqueueDuration) (workload : A.Queue)
    (hw : ∀ p ∈ A.items workload, p.Timed) :
    ∃ records, (∃ n, ∀ fuel, n < fuel → sjf D fuel workload = some records) ∧
      (records.map (·.times) : Multiset (Int × Int)) = (A.items workload).map (·.times) ∧
      ∀ k (hk : k < records.length),
        StartsNext Shorter (freeAt 0 records k) records[k] (records.drop (k + 1)) := by
  obtain ⟨records, ⟨htimes, hdispatched⟩, hrun⟩ :=
    Nonpreemptive.run_dispatched (WaitingLine.keeps_ofPriority D arrivalComparator)
      (fun _ _ => durationComparator_eq_false.mp) shorter_byTimes hw
  exact ⟨records, hrun, htimes, dispatched_iff.mp hdispatched⟩

/-- A long process runs while two shorter ones arrive. -/
theorem sjf_shortest_three : ∃ records : List Process,
    (∃ n, ∀ fuel, n < fuel → sjf sortedByDuration fuel (sortedByArrival.ofList
      [⟨0, -1, 5, -1⟩, ⟨1, -1, 3, -1⟩, ⟨2, -1, 1, -1⟩]) = some records) ∧
    ∀ k (hk : k < records.length),
      StartsNext Shorter (freeAt 0 records k) records[k] (records.drop (k + 1)) := by
  obtain ⟨records, hrun, -, hnext⟩ := sjf_shortest sortedByDuration
    (sortedByArrival.ofList [⟨0, -1, 5, -1⟩, ⟨1, -1, 3, -1⟩, ⟨2, -1, 1, -1⟩])
    (by rw [PriorityQueue.items_ofList]; decide)
  exact ⟨records, hrun, hnext⟩

end Os377.Sched
