import Os377.Lib.Loop
import Os377.Lib.Schedule
import Os377.Sched.Process

/-!
# Shortest time to completion first

`stcf` of `scheduling.cpp`. One iteration of its loop charges the running
process for the tick that has passed, admits the processes that have arrived
and picks the process that runs in the tick that starts; a process that was
preempted goes back to the queue with the time it still needs.

The loop refines `Jobs.Srpt`: the invariant `Inv` ties the state at the top of
an iteration to a schedule of the ticks before it.
-/

namespace Os377.Sched

open Os377.Lib Function

namespace Stcf

/-- The variables of `stcf`. -/
structure State (A : PqueueArrival) (D : PqueueDuration) where
  complete : List Process
  workload : A.Queue
  arrived : D.Queue
  ongoing : Process
  idle : Bool
  time : Int

variable {A : PqueueArrival} {D : PqueueDuration}

/-- `junk` is what the uninitialised `ongoing` holds. -/
def start (junk : Process) (workload : A.Queue) : State A D where
  complete := []
  workload := workload
  arrived := D.empty
  ongoing := junk
  idle := true
  time := 0

namespace State

variable (s : State A D)

/-- Charge the running process; if it needs no more time it is complete. -/
def tick : State A D :=
  if s.idle then s
  else
    let ongoing := s.ongoing.charge
    if ongoing.duration = 0 then
      let ongoing := { ongoing with completion := s.time }
      { s with ongoing := ongoing, complete := s.complete ++ [ongoing], idle := true }
    else { s with ongoing := ongoing }

/-- Admit the processes that have arrived. -/
def admitArrived : State A D :=
  let (workload, arrived) :=
    admitAll (fun p => decide (s.time ≥ p.arrival)) D.push s.workload s.arrived
  { s with workload := workload, arrived := arrived }

/-- Start the process on top of `arrived` when the processor is idle or the
running process needs more time than the top one; the running process goes
back first, and then the top is read again. -/
def dispatch : State A D :=
  match D.top s.arrived with
  | none => s
  | some top =>
      if s.idle || s.ongoing.duration > top.duration then
        let arrived := if s.idle then s.arrived else D.push s.arrived s.ongoing
        match D.top arrived with
        | none => s   -- not taken: `arrived` is not empty
        | some p =>
            let ongoing := if p.firstRun = -1 then { p with firstRun := s.time } else p
            { s with arrived := D.pop arrived, ongoing := ongoing, idle := false }
      else s

/-- One iteration of the `while (1)` loop. -/
def body : State A D ⊕ List Process :=
  if s.idle && A.isEmpty s.workload && D.isEmpty s.arrived then .inr s.complete
  else .inl { s.tick.admitArrived.dispatch with time := s.time + 1 }

end State

end Stcf

/-- `stcf(workload)`, for at most `fuel` iterations. -/
def stcf {A : PqueueArrival} (D : PqueueDuration) (junk : Process) (fuel : Nat)
    (workload : A.Queue) : Option (List Process) :=
  loop Stcf.State.body fuel (Stcf.start (D := D) junk workload)

end Os377.Sched
