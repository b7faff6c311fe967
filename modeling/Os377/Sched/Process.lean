import Os377.Lib.PriorityQueue
import Mathlib.Tactic.SplitIfs

/-!
# Processes and their queues

`scheduling.h`: the process record, the two comparators and the two priority
queues, and the admission loop that every scheduler of `scheduling.cpp` runs
at the start of a tick. A result about the schedulers holds for every
implementation of the queues.
-/

namespace Os377.Sched

open Os377.Lib

/-- `struct Process`. The times are unbounded integers here; the loops on the `int`s
of the compiled code are compared with the ones on these. -/
structure Process where
  arrival : Int
  firstRun : Int
  duration : Int
  completion : Int
  deriving DecidableEq, Repr

/-- `ongoing.duration--`. -/
def Process.charge (p : Process) : Process := { p with duration := p.duration - 1 }

/-- `ArrivalComparator`. -/
def arrivalComparator (lhs rhs : Process) : Bool :=
  if lhs.arrival ≠ rhs.arrival then
    decide (lhs.arrival > rhs.arrival)
  else
    decide (lhs.duration > rhs.duration)

/-- `DurationComparator`. -/
def durationComparator (lhs rhs : Process) : Bool :=
  if lhs.duration ≠ rhs.duration then
    decide (lhs.duration > rhs.duration)
  else
    decide (lhs.arrival > rhs.arrival)

abbrev PqueueArrival := PriorityQueue Process arrivalComparator

abbrev PqueueDuration := PriorityQueue Process durationComparator

/-- A process on top of a `pqueue_arrival` arrived first. -/
theorem arrival_le {lhs rhs : Process} (h : arrivalComparator lhs rhs = false) :
    lhs.arrival ≤ rhs.arrival := by
  unfold arrivalComparator at h
  split_ifs at h with hne
  · simpa using h
  · omega

/-- A process on top of a `pqueue_duration` needs the least time. -/
theorem duration_le {lhs rhs : Process} (h : durationComparator lhs rhs = false) :
    lhs.duration ≤ rhs.duration := by
  unfold durationComparator at h
  split_ifs at h with hne
  · simpa using h
  · omega

/-- `pqueue_arrival` over a sorted list. -/
def sortedByArrival : PqueueArrival :=
  sortedListQueue arrivalComparator
    (by
      intro a b
      simp only [arrivalComparator]
      split_ifs <;> simp <;> omega)
    (by
      intro a b c
      simp only [arrivalComparator]
      split_ifs <;> simp <;> omega)

/-- `pqueue_duration` over a sorted list. -/
def sortedByDuration : PqueueDuration :=
  sortedListQueue durationComparator
    (by
      intro a b
      simp only [durationComparator]
      split_ifs <;> simp <;> omega)
    (by
      intro a b c
      simp only [durationComparator]
      split_ifs <;> simp <;> omega)

section Admit

variable {A : PqueueArrival} {β : Type} (ready : Process → Bool) (push : β → Process → β)

/-- `while (!workload.empty())`: move the top process while it is ready.
`fuel` bounds the iterations. -/
def admitLoop : Nat → A.Queue → β → A.Queue × β
  | 0, workload, arrived => (workload, arrived)
  | fuel + 1, workload, arrived =>
      match A.top workload with
      | none => (workload, arrived)
      | some p =>
          if ready p then admitLoop fuel (A.pop workload) (push arrived p)
          else (workload, arrived)

/-- The admission loop: it moves at most all of `workload`. -/
def admitAll (workload : A.Queue) (arrived : β) : A.Queue × β :=
  admitLoop ready push (A.size workload) workload arrived

variable {ready push}

/-- With enough fuel the loop moves exactly the ready processes, and in their
order, if whoever arrived before a ready process is ready too. -/
theorem admitLoop_spec {fuel : Nat} {workload : A.Queue} (arrived : β)
    (hdown : ∀ a ∈ A.items workload, ∀ b ∈ A.items workload, a.arrival ≤ b.arrival →
      ready b = true → ready a = true)
    (hfuel : (A.items workload).card ≤ fuel) :
    ∃ moved : List Process,
      (admitLoop ready push fuel workload arrived).2 = moved.foldl push arrived ∧
      A.items workload = moved + A.items (admitLoop ready push fuel workload arrived).1 ∧
      moved.Pairwise (arrivalComparator · · = false) ∧ (∀ a ∈ moved, ready a = true) ∧
      ∀ b ∈ A.items (admitLoop ready push fuel workload arrived).1, ¬ ready b = true := by
  induction fuel generalizing workload arrived with
  | zero =>
      have hnil : A.items workload = 0 := Multiset.card_eq_zero.mp (by omega)
      exact ⟨[], rfl, by simp [admitLoop], List.Pairwise.nil, by simp, by simp [admitLoop, hnil]⟩
  | succ fuel ih =>
      cases htop : A.top workload with
      | none =>
          have hnil : A.items workload = 0 := A.items_of_top_none _ htop
          exact ⟨[], by simp [admitLoop, htop], by simp [admitLoop, htop], List.Pairwise.nil,
            by simp, by simp [admitLoop, htop, hnil]⟩
      | some p =>
          have hitems := A.items_of_top _ _ htop
          cases hready : ready p with
          | true =>
              have hloop : admitLoop ready push (fuel + 1) workload arrived =
                  admitLoop ready push fuel (A.pop workload) (push arrived p) := by
                simp [admitLoop, htop, hready]
              have hcard : (A.items (A.pop workload)).card ≤ fuel := by
                rw [hitems, Multiset.card_cons] at hfuel
                omega
              have hsub : ∀ a ∈ A.items (A.pop workload), a ∈ A.items workload := fun a ha =>
                hitems ▸ Multiset.mem_cons_of_mem ha
              obtain ⟨moved, hpush, hmoved, hsorted, hall, hrest⟩ := ih (push arrived p)
                (fun a ha b hb => hdown a (hsub a ha) b (hsub b hb)) hcard
              rw [hloop]
              refine ⟨p :: moved, hpush, ?_, List.pairwise_cons.mpr ⟨fun a ha => ?_, hsorted⟩,
                List.forall_mem_cons.mpr ⟨hready, hall⟩, hrest⟩
              · rw [hitems, ← Multiset.cons_coe, Multiset.cons_add, ← hmoved]
              · refine A.top_first _ _ htop a (hsub a ?_)
                rw [hmoved]
                exact Multiset.mem_add.mpr (Or.inl ha)
          | false =>
              -- the top is not ready, and everything else arrives no earlier
              have hloop : admitLoop ready push (fuel + 1) workload arrived =
                  (workload, arrived) := by
                simp [admitLoop, htop, hready]
              have hnone : ∀ b ∈ A.items workload, ¬ ready b = true := by
                intro b hb hrb
                have := hdown p (PriorityQueue.top_mem htop) b hb
                  (arrival_le (A.top_first _ _ htop b hb)) hrb
                simp [hready] at this
              rw [hloop]
              exact ⟨[], rfl, by simp, List.Pairwise.nil, by simp, hnone⟩

variable (ready push) in
theorem admitAll_ordered (workload : A.Queue) (arrived : β)
    (hdown : ∀ a ∈ A.items workload, ∀ b ∈ A.items workload, a.arrival ≤ b.arrival →
      ready b = true → ready a = true) :
    ∃ moved : List Process,
      (admitAll ready push workload arrived).2 = moved.foldl push arrived ∧
      A.items workload = moved + A.items (admitAll ready push workload arrived).1 ∧
      moved.Pairwise (arrivalComparator · · = false) ∧ (∀ a ∈ moved, ready a = true) ∧
      ∀ b ∈ A.items (admitAll ready push workload arrived).1, ¬ ready b = true :=
  admitLoop_spec arrived hdown (A.size_eq workload).ge

variable (ready push) in
theorem admitAll_spec (workload : A.Queue) (arrived : β)
    (hdown : ∀ a ∈ A.items workload, ∀ b ∈ A.items workload, a.arrival ≤ b.arrival →
      ready b = true → ready a = true) :
    ∃ moved : List Process,
      (admitAll ready push workload arrived).2 = moved.foldl push arrived ∧
      (moved : Multiset Process) = (A.items workload).filter (ready · = true) ∧
      A.items (admitAll ready push workload arrived).1
        = (A.items workload).filter (¬ ready · = true) := by
  obtain ⟨moved, hpush, hmoved, -, hall, hrest⟩ :=
    admitAll_ordered ready push workload arrived hdown
  refine ⟨moved, hpush, ?_, ?_⟩
  · rw [hmoved, Multiset.filter_add, Multiset.filter_eq_self.mpr hall,
      Multiset.filter_eq_nil.mpr hrest, Multiset.add_zero]
  · have hnil : (moved : Multiset Process).filter (¬ ready · = true) = 0 :=
      Multiset.filter_eq_nil.mpr fun a ha => not_not_intro (hall a ha)
    rw [hmoved, Multiset.filter_add, hnil, Multiset.filter_eq_self.mpr hrest, Multiset.zero_add]

end Admit

end Os377.Sched
