import Os377.Lib.TSys
import Mathlib.Logic.Function.Basic

/-!
# The lock-free stack

`NoLockStack.cpp` as steps on shared memory, in any interleaving: every load
and store of `head`, of `count` and of a `next` field is a step, and so is a
`compare_exchange_weak` together with its write-back of the expected value.
Nodes are named by their addresses, `0` being the null pointer; no node is
freed while the stack is in use. Following the null pointer is not enabled.

History variables: `linked` is the `next` a node had when its `push` made it
the head, `pushed` and `popped` list the nodes whose `push` and `pop` have
exchanged the head.
-/

namespace Os377.NoLock

open Os377.Lib Function

abbrev Addr := Nat

/-- Where a thread stands in its call. -/
inductive Pc where
  /-- Outside `push` and `pop`. -/
  | idle
  /-- `newnode->next = head` -/
  | pushNext (newnode : Addr)
  /-- `head.compare_exchange_weak(newnode->next, newnode)` -/
  | pushExchange (newnode : Addr)
  /-- The load of `count.exchange(count + 1)`. -/
  | pushCount
  /-- Its exchange. -/
  | pushStore (count : Int)
  /-- `Node* n = node->next` -/
  | popNext (node : Addr)
  /-- `head.compare_exchange_weak(node->next, n)` -/
  | popExchange (node n : Addr)
  /-- The load of `count.exchange(count - 1)`. -/
  | popCount
  /-- Its exchange. -/
  | popStore (count : Int)
  deriving DecidableEq, Repr

structure State where
  head : Addr
  count : Int
  data : Addr → Int
  next : Addr → Addr
  /-- The addresses `new` has handed out. -/
  allocated : Addr → Bool
  pc : Nat → Pc
  linked : Addr → Addr
  pushed : List Addr
  popped : List Addr

inductive Act where
  /-- Thread `t` calls `push(data)`; `new` returns `newnode`. -/
  | push (t : Nat) (data : Int) (newnode : Addr)
  /-- Thread `t` calls `pop` and loads `head`. -/
  | pop (t : Nat)
  /-- The next step of thread `t`. -/
  | step (t : Nat)
  /-- The `compare_exchange_weak` of thread `t` fails spuriously. -/
  | spurious (t : Nat)
  deriving DecidableEq, Repr

namespace State

variable (s : State)

def setPc (t : Nat) (pc : Pc) : State := { s with pc := update s.pc t pc }

/-- `a->next = b` -/
def setNext (a b : Addr) : State := { s with next := update s.next a b }

/-- `new Node{data}` -/
def alloc (newnode : Addr) (data : Int) : State :=
  { s with
    data := update s.data newnode data
    next := update s.next newnode 0
    allocated := update s.allocated newnode true }

/-- `push` has made `newnode` the head. -/
def link (newnode : Addr) : State :=
  { s with
    head := newnode
    linked := update s.linked newnode (s.next newnode)
    pushed := newnode :: s.pushed }

/-- `pop` has replaced the head by `n`. -/
def unlink (node n : Addr) : State := { s with head := n, popped := node :: s.popped }

end State

section Updates

variable {s : State} {t t' : Nat} {pc : Pc}

@[simp] theorem setPc_self : (s.setPc t pc).pc t = pc := update_self ..

@[simp] theorem setNext_self {a b : Addr} : (s.setNext a b).next a = b := update_self ..

theorem setPc_of_ne (h : t' ≠ t) : (s.setPc t pc).pc t' = s.pc t' := update_of_ne h _ _

/-- What a thread does after one of them has moved. -/
theorem setPc_cases (s : State) (t : Nat) (pc : Pc) (t' : Nat) :
    (t' ≠ t ∧ (s.setPc t pc).pc t' = s.pc t') ∨ (t' = t ∧ (s.setPc t pc).pc t' = pc) := by
  by_cases h : t' = t
  · exact Or.inr ⟨h, by rw [h, setPc_self]⟩
  · exact Or.inl ⟨h, setPc_of_ne h⟩

end Updates

/-- A failed `compare_exchange_weak` stores the head in its first argument. -/
def fail (s : State) (t : Nat) : Option State :=
  match s.pc t with
  | .pushExchange newnode => some (s.setNext newnode s.head)
  | .popExchange node _ => some (s.setNext node s.head)
  | _ => none

/-- The next step of thread `t` within its call. -/
def step (s : State) (t : Nat) : Option State :=
  match s.pc t with
  | .idle => none
  | .pushNext newnode => some ((s.setNext newnode s.head).setPc t (.pushExchange newnode))
  | .pushExchange newnode =>
      if s.head = s.next newnode then some ((s.link newnode).setPc t .pushCount)
      else fail s t
  | .pushCount => some (s.setPc t (.pushStore s.count))
  | .pushStore count => some ({ s with count := count + 1 }.setPc t .idle)
  | .popNext node => if node = 0 then none else some (s.setPc t (.popExchange node (s.next node)))
  | .popExchange node n =>
      if s.head = s.next node then some ((s.unlink node n).setPc t .popCount)
      else fail s t
  | .popCount => some (s.setPc t (.popStore s.count))
  | .popStore count => some ({ s with count := count - 1 }.setPc t .idle)

def next (s : State) : Act → Option State
  | .push t data newnode =>
      if s.pc t = .idle ∧ newnode ≠ 0 ∧ s.allocated newnode = false then
        some ((s.alloc newnode data).setPc t (.pushNext newnode))
      else none
  | .pop t => if s.pc t = .idle then some (s.setPc t (.popNext s.head)) else none
  | .step t => step s t
  | .spurious t => fail s t

/-- `NoLockStack()` -/
def empty : State where
  head := 0
  count := 0
  data := fun _ => 0
  next := fun _ => 0
  allocated := fun _ => false
  pc := fun _ => .idle
  linked := fun _ => 0
  pushed := []
  popped := []

def system : TSys State Act where
  init s := s = empty
  next := next

/-- All calls have finished. -/
def Quiescent (s : State) : Prop := ∀ t, s.pc t = .idle

end Os377.NoLock
