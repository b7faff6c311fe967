import Os377.Lib.Loop
import Os377.Lib.WaitingLine
import Os377.Sched.Process

/-!
# First in, first out and shortest job first

`fifo` and `sjf` of `scheduling.cpp` are one loop over two kinds of queue: a
process that has started runs to its end, which is known when it starts
(`timeend`). The record is complete at the start, and the process stays on the
processor until the clock shows its end.
-/

namespace Os377.Sched

open Os377.Lib

namespace Nonpreemptive

/-- The variables of `fifo` and `sjf`. -/
structure State (A : PqueueArrival) (L : WaitingLine Process) where
  complete : List Process
  workload : A.Queue
  arrived : L.Queue
  time : Int
  timeend : Int
  idle : Bool

variable {A : PqueueArrival} {L : WaitingLine Process}

def start (workload : A.Queue) : State A L where
  complete := []
  workload := workload
  arrived := L.empty
  time := 0
  timeend := 0
  idle := true

namespace State

variable (s : State A L)

/-- The processor is free again when the running process ends. -/
def tick : State A L :=
  if s.idle then s
  else if s.time = s.timeend then { s with idle := true }
  else s

/-- Admit the processes that have arrived. -/
def admitArrived : State A L :=
  let (workload, arrived) :=
    admitAll (fun p => decide (s.time ≥ p.arrival)) L.push s.workload s.arrived
  { s with workload := workload, arrived := arrived }

/-- Start the process in front of the queue when the processor is free. -/
def dispatch : State A L :=
  if s.idle then
    match L.front s.arrived with
    | none => s
    | some newP =>
        let timeend := s.time + newP.duration
        { s with
          arrived := L.pop s.arrived
          idle := false
          timeend := timeend
          complete := s.complete ++ [{ newP with firstRun := s.time, completion := timeend }] }
  else s

/-- One iteration of the `while (1)` loop. -/
def body : State A L ⊕ List Process :=
  if s.idle && A.isEmpty s.workload && L.isEmpty s.arrived then .inr s.complete
  else .inl { s.tick.admitArrived.dispatch with time := s.time + 1 }

end State

end Nonpreemptive

/-- `fifo(workload)`, for at most `fuel` iterations. -/
def fifo {A : PqueueArrival} (fuel : Nat) (workload : A.Queue) : Option (List Process) :=
  loop Nonpreemptive.State.body fuel
    (Nonpreemptive.start (L := WaitingLine.fifo Process) workload)

/-- `sjf(workload)`, for at most `fuel` iterations. -/
def sjf {A : PqueueArrival} (D : PqueueDuration) (fuel : Nat) (workload : A.Queue) :
    Option (List Process) :=
  loop Nonpreemptive.State.body fuel
    (Nonpreemptive.start (L := WaitingLine.ofPriority D) workload)

example : fifo 20 (sortedByArrival.ofList [⟨3, -1, 1, -1⟩, ⟨0, -1, 2, -1⟩, ⟨1, -1, 2, -1⟩]) =
    some [⟨0, 0, 2, 2⟩, ⟨1, 2, 2, 4⟩, ⟨3, 4, 1, 5⟩] := by
  decide

end Os377.Sched
