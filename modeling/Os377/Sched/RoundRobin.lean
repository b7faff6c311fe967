import Os377.Lib.Loop
import Os377.Sched.Process

/-!
# Round robin

`rr` of `scheduling.cpp`. A process that has had its tick goes to the end of the
queue unless it is done. The loop charges `ongoing` in every iteration, also when
the queue is empty: then `ongoing` is the process that has just completed, or
whatever the uninitialised variable holds.
-/

namespace Os377.Sched

open Os377.Lib

namespace RoundRobin

/-- The variables of `rr`. -/
structure State (A : PqueueArrival) where
  complete : List Process
  workload : A.Queue
  arrived : List Process
  ongoing : Process
  idle : Bool
  time : Int

variable {A : PqueueArrival}

/-- `junk` is what the uninitialised `ongoing` holds. -/
def start (junk : Process) (workload : A.Queue) : State A where
  complete := []
  workload := workload
  arrived := []
  ongoing := junk
  idle := true
  time := 0

namespace State

variable (s : State A)

/-- Admit the processes that arrive now; the others wait, or are too late. -/
def admitArrived : State A :=
  let (workload, arrived) :=
    admitAll (fun p => decide (s.time = p.arrival)) (fun arrived p => arrived ++ [p])
      s.workload s.arrived
  { s with workload := workload, arrived := arrived }

/-- The process in front gets the tick. -/
def dispatch : State A :=
  match s.arrived with
  | [] => s
  | p :: arrived =>
      let ongoing := if p.firstRun = -1 then { p with firstRun := s.time } else p
      { s with arrived := arrived, ongoing := ongoing, idle := false }

/-- The tick passes: charge `ongoing`, whoever it is. -/
def tick : State A :=
  let time := s.time + 1
  let ongoing := s.ongoing.charge
  if ongoing.duration = 0 then
    let ongoing := { ongoing with completion := time }
    { s with
      time := time, ongoing := ongoing, complete := s.complete ++ [ongoing], idle := true }
  else { s with time := time, ongoing := ongoing, arrived := s.arrived ++ [ongoing] }

/-- One iteration of the `while (1)` loop. -/
def body : State A ⊕ List Process :=
  if s.idle && A.isEmpty s.workload && s.arrived.isEmpty then .inr s.complete
  else .inl s.admitArrived.dispatch.tick

end State

end RoundRobin

/-- `rr(workload)`, for at most `fuel` iterations. -/
def rr {A : PqueueArrival} (junk : Process) (fuel : Nat) (workload : A.Queue) :
    Option (List Process) :=
  loop RoundRobin.State.body fuel (RoundRobin.start junk workload)

end Os377.Sched
