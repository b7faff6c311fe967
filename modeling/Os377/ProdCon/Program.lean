import Os377.ProdCon.Monitor
import Mathlib.Data.Fintype.Sum

/-!
# One `InitProducerConsumer` call

The threads of `ProducerConsumer.cpp`: `main` creating and joining, `p`
producers and `c` consumers, all over one `BoundedBuffer` of capacity 1. Every
access to a shared variable is a step of its own; the mutexes `p_lock` and
`c_lock` are explicit, since `done` and `buffer_cnt` are read without the lock
that protects their writes. The region under `f_lock` only writes to `file`
and is one step. `usleep` has no effect on the state.

A label names the thread that moves; `v` is what the environment supplies
where a step needs a value (`rand()`, the clock, the word behind a dangling
`threadID`), and `woken` the waiters its signal wakes.
-/

namespace Os377.ProdCon

open Os377.Lib Function

/-- Where a producer stands in `producer`. -/
inductive ProdPc where
  /-- `pthread_create` not called yet. -/
  | unborn
  /-- `int pid = *(int *)threadID` -/
  | start
  /-- `pthread_mutex_lock(&p_lock)` -/
  | lock
  /-- `if (produced == item_size)` -/
  | test
  /-- `done = true` -/
  | setDone
  /-- unlock and `pthread_exit` -/
  | unlockExit
  /-- `++produced; int p_cnt = produced` -/
  | incr
  /-- unlock, with `p_cnt` set -/
  | unlock (pCnt : Int)
  /-- `int data = rand() % 100` and the call of `append` -/
  | call (pCnt : Int)
  /-- inside `buffer->append(data)` -/
  | append (pCnt data : Int)
  /-- writing the line under `f_lock` -/
  | log (pCnt data : Int)
  | exited
  deriving DecidableEq, Repr

/-- Where a consumer stands in `consumer`. -/
inductive ConsPc where
  /-- `pthread_create` not called yet. -/
  | unborn
  /-- `int pid = *(int *)threadID` -/
  | start
  /-- `pthread_mutex_lock(&c_lock)` -/
  | lock
  /-- the `isEmpty()` of `if (buffer->isEmpty() && done)` -/
  | testEmpty
  /-- the `done` of that test, `isEmpty()` having been true -/
  | testDone
  /-- unlock and `pthread_exit` -/
  | unlockExit
  /-- the call of `remove` -/
  | call
  /-- inside `buffer->remove()` -/
  | remove
  /-- unlock, with `data` set -/
  | unlock (data : Int)
  /-- writing the line under `f_lock` -/
  | log (data : Int)
  | exited
  deriving DecidableEq, Repr

/-- Where `InitProducerConsumer` itself stands; the creating loops hand out
the address of their own counter. -/
inductive MainPc where
  | createP (i : Nat)
  | incP (i : Nat)
  | createC (j : Nat)
  | incC (j : Nat)
  | joinP (a : Nat)
  | joinC (b : Nat)
  | returned
  deriving DecidableEq, Repr

/-- The value of `i` while it is in scope. -/
def MainPc.i : MainPc → Option Int
  | .createP i => some i
  | .incP i => some i
  | _ => none

/-- The value of `j` while it is in scope. -/
def MainPc.j : MainPc → Option Int
  | .createC j => some j
  | .incC j => some j
  | _ => none

/-- A line of `output.txt`. -/
inductive Line where
  | producer (pid time pCnt data : Int)
  | consumer (pid time data : Int)
  deriving DecidableEq, Repr

/-- The globals of `ProducerConsumer.cpp` and the threads of one call. -/
structure Program (p c : Nat) where
  mon : Monitor.State (Fin p ⊕ Fin c)
  itemSize : Int
  produced : Int
  done : Bool
  pLock : Option (Fin p)
  cLock : Option (Fin c)
  prod : Fin p → ProdPc
  cons : Fin c → ConsPc
  prodPid : Fin p → Int
  consPid : Fin c → Int
  main : MainPc
  file : List Line

namespace Program

variable {p c : Nat}

inductive Act (p c : Nat) where
  | main
  | prod (i : Fin p) (v : Int) (woken : Fin p ⊕ Fin c → Bool)
  | cons (j : Fin c) (v : Int) (woken : Fin p ⊕ Fin c → Bool)
  | spurious (t : Fin p ⊕ Fin c)

/-- No thread is woken. -/
def nobody : Fin p ⊕ Fin c → Bool := fun _ => false

/-- One step of `InitProducerConsumer` after its initialisations. -/
def mainNext (s : Program p c) : Option (Program p c) :=
  match s.main with
  | .createP i =>
      if h : i < p then some { s with prod := update s.prod ⟨i, h⟩ .start, main := .incP i }
      else some { s with main := .createC 0 }
  | .incP i => some { s with main := .createP (i + 1) }
  | .createC j =>
      if h : j < c then some { s with cons := update s.cons ⟨j, h⟩ .start, main := .incC j }
      else some { s with main := .joinP 0 }
  | .incC j => some { s with main := .createC (j + 1) }
  | .joinP a =>
      if h : a < p then
        if s.prod ⟨a, h⟩ = .exited then some { s with main := .joinP (a + 1) } else none
      else some { s with main := .joinC 0 }
  | .joinC b =>
      if h : b < c then
        if s.cons ⟨b, h⟩ = .exited then some { s with main := .joinC (b + 1) } else none
      else some { s with main := .returned }
  | .returned => none

/-- One step of producer `i`. -/
def prodNext (s : Program p c) (i : Fin p) (v : Int) (woken : Fin p ⊕ Fin c → Bool) :
    Option (Program p c) :=
  match s.prod i with
  | .unborn => none
  | .start =>
      some { s with
        prod := update s.prod i .lock
        prodPid := update s.prodPid i (s.main.i.getD v) }
  | .lock =>
      if s.pLock = none then some { s with pLock := some i, prod := update s.prod i .test }
      else none
  | .test =>
      some { s with
        prod := update s.prod i (if s.produced = s.itemSize then .setDone else .incr) }
  | .setDone => some { s with done := true, prod := update s.prod i .unlockExit }
  | .unlockExit => some { s with pLock := none, prod := update s.prod i .exited }
  | .incr =>
      some { s with
        produced := s.produced + 1
        prod := update s.prod i (.unlock (s.produced + 1)) }
  | .unlock pCnt => some { s with pLock := none, prod := update s.prod i (.call pCnt) }
  | .call pCnt =>
      (Monitor.next s.mon (.callAppend (.inl i) (v % 100))).map fun m =>
        { s with mon := m, prod := update s.prod i (.append pCnt (v % 100)) }
  | .append pCnt data =>
      (Monitor.next s.mon (.lockAppend (.inl i) woken)).map fun m =>
        if m.phase (.inl i) = .out then
          { s with mon := m, prod := update s.prod i (.log pCnt data) }
        else { s with mon := m }
  | .log pCnt data =>
      some { s with
        file := s.file ++ [.producer (s.prodPid i) v pCnt data]
        prod := update s.prod i .lock }
  | .exited => none

/-- One step of consumer `j`. -/
def consNext (s : Program p c) (j : Fin c) (v : Int) (woken : Fin p ⊕ Fin c → Bool) :
    Option (Program p c) :=
  match s.cons j with
  | .unborn => none
  | .start =>
      some { s with
        cons := update s.cons j .lock
        consPid := update s.consPid j (s.main.j.getD v) }
  | .lock =>
      if s.cLock = none then some { s with cLock := some j, cons := update s.cons j .testEmpty }
      else none
  | .testEmpty =>
      some { s with cons := update s.cons j (if s.mon.buf.isEmpty then .testDone else .call) }
  | .testDone => some { s with cons := update s.cons j (if s.done then .unlockExit else .call) }
  | .unlockExit => some { s with cLock := none, cons := update s.cons j .exited }
  | .call =>
      (Monitor.next s.mon (.callRemove (.inr j))).map fun m =>
        { s with mon := m, cons := update s.cons j .remove }
  | .remove =>
      -- the value `remove` returns is the one it read under the lock
      (Monitor.next s.mon (.lockRemove (.inr j) woken)).map fun m =>
        match s.mon.buf.remove with
        | some (data, _) => { s with mon := m, cons := update s.cons j (.unlock data) }
        | none => { s with mon := m }
  | .unlock data => some { s with cLock := none, cons := update s.cons j (.log data) }
  | .log data =>
      some { s with
        file := s.file ++ [.consumer (s.consPid j) v data]
        cons := update s.cons j .lock }
  | .exited => none

def next (s : Program p c) : Act p c → Option (Program p c)
  | .main => s.mainNext
  | .prod i v woken => s.prodNext i v woken
  | .cons j v woken => s.consNext j v woken
  | .spurious t => (Monitor.next s.mon (.spurious t)).map fun m => { s with mon := m }

/-- The state after the initialisations of `InitProducerConsumer(p, c, _, _,
items)`: a new buffer of capacity 1. `produced` and `done` are globals no call
resets. -/
def start (p c : Nat) (items produced : Int) (done : Bool) (mem : Int → Int) : Program p c :=
  { mon := Monitor.start 1 mem
    itemSize := items
    produced := produced
    done := done
    pLock := none
    cLock := none
    prod := fun _ => .unborn
    cons := fun _ => .unborn
    prodPid := fun _ => 0
    consPid := fun _ => 0
    main := .createP 0
    file := [] }

end Program

/-- `InitProducerConsumer(p, c, _, _, items)` in a process that has `produced` and `done`
as given. -/
def callFrom (p c : Nat) (items produced : Int) (done : Bool) :
    TSys (Program p c) (Program.Act p c) where
  init s := ∃ mem, s = Program.start p c items produced done mem
  next := Program.next

/-- The first `InitProducerConsumer` call of a process: `produced = 0`,
`done = false`. -/
def program (p c : Nat) (items : Int) : TSys (Program p c) (Program.Act p c) where
  init s := ∃ mem, s = Program.start p c items 0 false mem
  next := Program.next

end Os377.ProdCon
