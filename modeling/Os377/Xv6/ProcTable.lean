import Os377.Lib.TSys
import Mathlib.Data.List.FinRange
import Mathlib.Logic.Function.Basic

/-!
# The xv6 process table

`proc.c` (with `clone` and `join`) and the two ends of `exec.c`, as steps on the
process table. A region under `ptable.lock` is one step; what a process does to
an entry it is still building is a step of its own, and between any two steps
the process can be preempted. Labels carry what the table does not decide: who
runs, the page `kalloc` hands out, whether `copyout` fails, the image `exec`
loaded.

Pages are named by their addresses, `0` being the null pointer. Only the pages
the table points to are tracked (`kstack`, `pgdir`); the user pages below a
directory, open files, `cwd` and `name` are left out. A step that ends in a
`panic` is not enabled.

`leader` is a history variable: the process whose address space an entry runs
in. It is what `fork`, `clone` and `exec` make of it, and `none` from the moment
a slot is given back until its next `pgdir` is stored.

`next_step` says what a step can do (`Step`, `OwnStep`); every invariant of the
system is derived from it.
-/

namespace Os377.Xv6

open Os377.Lib Function

/-- `NPROC` of `param.h`. -/
def nproc : Nat := 64

/-- `PGSIZE` of `mmu.h`. -/
def pgsize : Nat := 4096

/-- An entry of the process table, standing for its `struct proc *`. -/
abbrev Proc := Fin nproc

/-- The first process; `userinit` finds slot 0 of the zeroed table. -/
def initproc : Proc := ⟨0, by decide⟩

/-- `enum procstate` -/
inductive ProcState where
  | unused | embryo | sleeping | runnable | running | zombie
  deriving DecidableEq, Repr

/-- A sleep channel: the processes in `wait` and `join` sleep on their own entry. -/
inductive Chan where
  | proc (p : Proc)
  | other (addr : Nat)
  deriving DecidableEq, Repr

/-- The fields of `struct trapframe` that the calls below store to. -/
structure TrapFrame where
  eax : BitVec 32
  ebp : BitVec 32
  esp : BitVec 32
  eip : BitVec 32
  deriving DecidableEq, Repr

/-- `struct proc` -/
structure Entry where
  sz : BitVec 32
  pgdir : Nat
  kstack : Nat
  state : ProcState
  pid : BitVec 32
  parent : Option Proc
  tf : TrapFrame
  chan : Option Chan
  killed : Bool
  deriving DecidableEq, Repr

/-- The two calls that build a new entry. `arg` only goes to the thread's
stack, which is user memory. -/
inductive Call where
  | fork
  | clone (fcn arg stack : BitVec 32)
  deriving DecidableEq, Repr

/-- Where a process stands in its system call. -/
inductive Doing where
  | user
  /-- In `allocproc`, which has found `np`, before `kalloc`. -/
  | claimed (c : Call) (np : Proc)
  /-- `allocproc` has returned `np`. -/
  | allocated (c : Call) (np : Proc)
  /-- `np` is filled in, before `np->state = RUNNABLE`. -/
  | filled (c : Call) (np : Proc)
  /-- In `clone`, before `return np->pid`. -/
  | started (np : Proc)
  | waiting
  | joining
  /-- In `exec`, with a page directory of its own making. -/
  | execing (pgdir : Nat)
  deriving DecidableEq, Repr

structure State where
  table : Proc → Entry
  doing : Proc → Doing
  nextpid : BitVec 32
  /-- The pages `kalloc` has handed out. -/
  pages : Nat → Bool
  leader : Proc → Option Proc

/-- The entries in the order of the loops over `ptable.proc`. -/
def slots : List Proc := List.finRange nproc

namespace State

def setEntry (s : State) (p : Proc) (e : Entry) : State :=
  { s with table := update s.table p e }

def setDoing (s : State) (p : Proc) (d : Doing) : State :=
  { s with doing := update s.doing p d }

/-- `syscall`: the value goes to `tf->eax`, the process back to user space. -/
def ret (s : State) (p : Proc) (v : BitVec 32) : State :=
  (s.setEntry p { s.table p with tf := { (s.table p).tf with eax := v } }).setDoing p .user

/-- `kalloc` may hand out page `a`. -/
def free (s : State) (a : Nat) : Prop := a ≠ 0 ∧ s.pages a = false

instance (s : State) (a : Nat) : Decidable (s.free a) :=
  inferInstanceAs (Decidable (_ ∧ _))

def take (s : State) (a : Nat) : State := { s with pages := update s.pages a true }

def kfree (s : State) (a : Nat) : State := { s with pages := update s.pages a false }

/-- `panic("freevm: no pgdir")` on the null pointer. -/
def freevm (s : State) (pgdir : Nat) : Option State :=
  if pgdir = 0 then none else some (s.kfree pgdir)

/-- `sleep(chan, &ptable.lock)` up to `sched`. -/
def sleep (s : State) (p : Proc) (c : Chan) : State :=
  s.setEntry p { s.table p with chan := some c, state := .sleeping }

end State

/-- The body of the loop in `wakeup1`. -/
def Entry.wakeup1 (e : Entry) (c : Option Chan) : Entry :=
  if e.state = .sleeping ∧ e.chan = c then { e with state := .runnable } else e

/-- `wakeup1(chan)` -/
def State.wakeup1 (s : State) (c : Option Chan) : State :=
  { s with table := fun q => (s.table q).wakeup1 c }

/-! ## Building an entry: `allocproc`, `fork`, `clone` -/

/-- The part of `allocproc` under the lock. -/
def allocproc (s : State) (p : Proc) (c : Call) : State :=
  match slots.find? (fun q => (s.table q).state == .unused) with
  | none => s.ret p (-1)
  | some np =>
      { s with
        table := update s.table np { s.table np with state := .embryo, pid := s.nextpid }
        nextpid := s.nextpid + 1
        doing := update s.doing p (.claimed c np) }

/-- The rest of `allocproc`; `page` is what `kalloc` returns. -/
def allocKstack (s : State) (p : Proc) (c : Call) (np : Proc) (page : Option Nat) :
    Option State :=
  match page with
  | none =>
      some ((s.setEntry np { s.table np with kstack := 0, state := .unused }).ret p (-1))
  | some k =>
      if s.free k then
        some (((s.take k).setEntry np { s.table np with kstack := k }).setDoing p
          (.allocated c np))
      else none

/-- `fork` from `copyuvm` to the last store to `np`; `page` is the directory
`copyuvm` returns. -/
def forkCopy (s : State) (p np : Proc) (page : Option Nat) : Option State :=
  let curproc := s.table p
  match page with
  | none =>
      some (((s.kfree (s.table np).kstack).setEntry np
        { s.table np with pgdir := 0, kstack := 0, state := .unused }).ret p (-1))
  | some d =>
      if s.free d then
        let s' := (s.take d).setEntry np
          { s.table np with
            pgdir := d, sz := curproc.sz, parent := some p, tf := { curproc.tf with eax := 0 } }
        some ({ s' with leader := update s.leader np (some np) }.setDoing p (.filled .fork np))
      else none

/-- `clone` from the tests of `stack` to the last store to `np`. None of its
three early returns gives `np` back. -/
def cloneShare (s : State) (p np : Proc) (fcn arg stack : BitVec 32) (copyoutOk : Bool) :
    State :=
  let curproc := s.table p
  let stackTop := stack + BitVec.ofNat 32 pgsize - 8
  if stack.toNat % pgsize ≠ 0 then s.ret p (-1)
  else if (curproc.sz - stack).toNat < pgsize then s.ret p (-1)
  else
    let e := { s.table np with
      pgdir := curproc.pgdir, sz := curproc.sz, parent := some p, tf := curproc.tf }
    let s' := { s with leader := update s.leader np (s.leader p) }
    if copyoutOk then
      (s'.setEntry np { e with tf :=
        { eax := 0, ebp := stackTop, esp := stackTop, eip := fcn } }).setDoing p
          (.filled (.clone fcn arg stack) np)
    else (s'.setEntry np e).ret p (-1)

/-- `np->state = RUNNABLE`, and what follows it: `fork` returns the `pid` it
has read before, `clone` has yet to read it. -/
def ready (s : State) (p : Proc) (c : Call) (np : Proc) : State :=
  let s' := s.setEntry np { s.table np with state := .runnable }
  match c with
  | .fork => s'.ret p (s.table np).pid
  | .clone .. => s'.setDoing p (.started np)

/-! ## Leaving: `exit`, `wait`, `join` -/

/-- Pass an abandoned child of `p` to `initproc`. -/
def Entry.reparent (e : Entry) (p : Proc) : Entry :=
  if e.parent = some p then { e with parent := some initproc } else e

/-- `exit`, for a process other than `initproc`: wake the parent, pass the
children to `initproc`, become a zombie. -/
def exit (s : State) (p : Proc) : State :=
  let s₁ := s.wakeup1 ((s.table p).parent.map .proc)
  let s₂ := { s₁ with table := fun q => (s₁.table q).reparent p }
  let s₃ :=
    if slots.any (fun q => (s₁.table q).parent == some p && (s₁.table q).state == .zombie) then
      s₂.wakeup1 (some (.proc initproc))
    else s₂
  s₃.setEntry p { s₃.table p with state := .zombie }

/-- What `wait` and `join` both do to the zombie they found. -/
def reap (s : State) (q : Proc) : State :=
  let s' := (s.kfree (s.table q).kstack).setEntry q
    { s.table q with kstack := 0, pid := 0, parent := none, killed := false, state := .unused }
  { s' with leader := update s.leader q none }

/-- The zombie the scan stops at, `mine` being its test for a child. -/
def zombieOf (s : State) (mine : Proc → Bool) : Option Proc :=
  slots.find? (fun q => mine q && (s.table q).state == .zombie)

/-- One scan of the table by `wait` or `join`, with the `sleep` after it. -/
def scanChildren (s : State) (p : Proc) (mine : Proc → Bool)
    (collect : State → Proc → Option State) : Option State :=
  match zombieOf s mine with
  | some q => (collect s q).map fun s' => s'.ret p (s.table q).pid
  | none =>
      if slots.all (fun q => !mine q) || (s.table p).killed then some (s.ret p (-1))
      else some (s.sleep p (.proc p))

/-- `p->parent == curproc` -/
def childOf (s : State) (p q : Proc) : Bool := (s.table q).parent == some p

/-- `p->pgdir == curproc->pgdir` and `p->parent == curproc` -/
def threadOf (s : State) (p q : Proc) : Bool :=
  (s.table q).pgdir == (s.table p).pgdir && (s.table q).parent == some p

def wait (s : State) (p : Proc) : Option State :=
  scanChildren s p (childOf s p) fun s q => (reap s q).freevm (s.table q).pgdir

def join (s : State) (p : Proc) : Option State :=
  scanChildren s p (threadOf s p) fun s q => some (reap s q)

/-! ## `exec` -/

/-- `setupkvm` of `exec`. -/
def execSetup (s : State) (p : Proc) (page : Option Nat) : Option State :=
  match page with
  | none => some (s.ret p (-1))
  | some d => if s.free d then some ((s.take d).setDoing p (.execing d)) else none

/-- Commit to the user image. -/
def execCommit (s : State) (p : Proc) (pgdir : Nat) (sz eip esp : BitVec 32) : Option State :=
  let curproc := s.table p
  let s' := s.setEntry p { curproc with
    pgdir := pgdir, sz := sz, tf := { curproc.tf with eip := eip, esp := esp } }
  let s' := { s' with leader := update s.leader p (some p) }
  (s'.freevm curproc.pgdir).map fun s' => s'.ret p 0

/-- The `bad` label. -/
def execBad (s : State) (p : Proc) (pgdir : Nat) : Option State :=
  (s.freevm pgdir).map fun s' => s'.ret p (-1)

/-! ## `kill` -/

/-- Mark the entry and wake it from sleep if necessary. -/
def Entry.kill (e : Entry) : Entry :=
  { e with
    killed := true
    state := if e.state = .sleeping then .runnable else e.state }

def kill (s : State) (p : Proc) (pid : BitVec 32) : State :=
  match slots.find? (fun q => (s.table q).pid == pid) with
  | none => s.ret p (-1)
  | some q => (s.setEntry q (s.table q).kill).ret p 0

/-! ## The system -/

inductive Act where
  /-- The scheduler switches to `p`; a `sleep` it resumes clears `chan`. -/
  | schedule (p : Proc)
  /-- A timer interrupt takes the processor from `p`. -/
  | yield (p : Proc)
  /-- `p` sleeps on a channel of the other subsystems. -/
  | sleep (p : Proc) (addr : Nat)
  /-- Some wake-up of that channel. -/
  | wakeup (addr : Nat)
  /-- `p` calls `fork` or `clone`. -/
  | create (p : Proc) (c : Call)
  | kalloc (p : Proc) (page : Option Nat)
  | copyuvm (p : Proc) (page : Option Nat)
  | share (p : Proc) (copyoutOk : Bool)
  | ready (p : Proc)
  /-- `return np->pid` of `clone`. -/
  | cloned (p : Proc)
  | exit (p : Proc)
  /-- `p` calls `wait`. -/
  | wait (p : Proc)
  /-- `p` calls `join`. -/
  | join (p : Proc)
  /-- The next scan of `p`'s `wait` or `join`. -/
  | scan (p : Proc)
  /-- `p` calls `exec`, which gets as far as `setupkvm`. -/
  | exec (p : Proc) (page : Option Nat)
  | execCommit (p : Proc) (sz eip esp : BitVec 32)
  | execBad (p : Proc)
  | kill (p : Proc) (pid : BitVec 32)
  deriving DecidableEq, Repr

/-- The step of a running process `p` that stands at `d`. -/
def own (s : State) (d : Doing) : Act → Option State
  | .sleep p addr =>
      match d with
      | .user | .execing _ => some (s.sleep p (.other addr))
      | _ => none
  | .create p c => if d = .user then some (allocproc s p c) else none
  | .kalloc p page =>
      match d with
      | .claimed c np => allocKstack s p c np page
      | _ => none
  | .copyuvm p page =>
      match d with
      | .allocated .fork np => forkCopy s p np page
      | _ => none
  | .share p copyoutOk =>
      match d with
      | .allocated (.clone fcn arg stack) np => some (cloneShare s p np fcn arg stack copyoutOk)
      | _ => none
  | .ready p =>
      match d with
      | .filled c np => some (ready s p c np)
      | _ => none
  | .cloned p =>
      match d with
      | .started np => some (s.ret p (s.table np).pid)
      | _ => none
  | .exit p => if d = .user ∧ p ≠ initproc then some (exit s p) else none
  | .wait p => if d = .user then some (s.setDoing p .waiting) else none
  | .join p => if d = .user then some (s.setDoing p .joining) else none
  | .scan p =>
      match d with
      | .waiting => Xv6.wait s p
      | .joining => Xv6.join s p
      | _ => none
  | .exec p page => if d = .user then execSetup s p page else none
  | .execCommit p sz eip esp =>
      match d with
      | .execing pgdir => Xv6.execCommit s p pgdir sz eip esp
      | _ => none
  | .execBad p =>
      match d with
      | .execing pgdir => Xv6.execBad s p pgdir
      | _ => none
  | .kill p pid => if d = .user then some (Xv6.kill s p pid) else none
  | _ => none

/-- The process whose step a label is, for the steps a process takes itself. -/
def Act.proc : Act → Option Proc
  | .schedule _ | .wakeup _ => none
  | .yield p | .sleep p _ | .create p _ | .kalloc p _ | .copyuvm p _ | .share p _ | .ready p
  | .cloned p | .exit p | .wait p | .join p | .scan p | .exec p _ | .execCommit p _ _ _
  | .execBad p | .kill p _ => some p

def next (s : State) (a : Act) : Option State :=
  match a with
  | .schedule p =>
      if (s.table p).state = .runnable then
        some (s.setEntry p { s.table p with state := .running, chan := none })
      else none
  | .wakeup addr => some (s.wakeup1 (some (.other addr)))
  | .yield p =>
      if (s.table p).state = .running then
        some (s.setEntry p { s.table p with state := .runnable })
      else none
  | a =>
      match a.proc with
      | none => none
      | some p => if (s.table p).state = .running then own s (s.doing p) a else none

/-- A slot of the zeroed table. -/
def Entry.zero : Entry :=
  { sz := 0, pgdir := 0, kstack := 0, state := .unused, pid := 0, parent := none
    tf := { eax := 0, ebp := 0, esp := 0, eip := 0 }, chan := none, killed := false }

/-- The system when `userinit` has made `initproc` runnable, with the pages
`kalloc` gave it. -/
def userinit (kstack pgdir : Nat) : State where
  table := update (fun _ => Entry.zero) initproc
    { Entry.zero with
      sz := BitVec.ofNat 32 pgsize, pgdir := pgdir, kstack := kstack, state := .runnable
      pid := 1, tf := { eax := 0, ebp := 0, esp := BitVec.ofNat 32 pgsize, eip := 0 } }
  doing := fun _ => .user
  nextpid := 2
  pages := fun a => a == kstack || a == pgdir
  leader := update (fun _ => none) initproc (some initproc)

def system : TSys State Act where
  init s := ∃ kstack pgdir, kstack ≠ 0 ∧ pgdir ≠ 0 ∧ kstack ≠ pgdir ∧ s = userinit kstack pgdir
  next := next

/-! ## What a step can do -/

/-- The steps of a running process `p`, with the place in its call where each is taken. -/
inductive OwnStep (s : State) (p : Proc) (s' : State) : Act → Prop
  | sleep {addr} : (s.doing p = .user ∨ ∃ d, s.doing p = .execing d) →
      s' = s.sleep p (.other addr) → OwnStep s p s' (.sleep p addr)
  | create {c} : s.doing p = .user → s' = allocproc s p c → OwnStep s p s' (.create p c)
  | kalloc {c np page} : s.doing p = .claimed c np → allocKstack s p c np page = some s' →
      OwnStep s p s' (.kalloc p page)
  | copyuvm {np page} : s.doing p = .allocated .fork np → forkCopy s p np page = some s' →
      OwnStep s p s' (.copyuvm p page)
  | share {fcn arg stack np ok} : s.doing p = .allocated (.clone fcn arg stack) np →
      s' = cloneShare s p np fcn arg stack ok → OwnStep s p s' (.share p ok)
  | ready {c np} : s.doing p = .filled c np → s' = Xv6.ready s p c np →
      OwnStep s p s' (.ready p)
  | cloned {np} : s.doing p = .started np → s' = s.ret p (s.table np).pid →
      OwnStep s p s' (.cloned p)
  | exit : s.doing p = .user → p ≠ initproc → s' = Xv6.exit s p → OwnStep s p s' (.exit p)
  | wait : s.doing p = .user → s' = s.setDoing p .waiting → OwnStep s p s' (.wait p)
  | join : s.doing p = .user → s' = s.setDoing p .joining → OwnStep s p s' (.join p)
  | waitScan : s.doing p = .waiting → Xv6.wait s p = some s' → OwnStep s p s' (.scan p)
  | joinScan : s.doing p = .joining → Xv6.join s p = some s' → OwnStep s p s' (.scan p)
  | exec {page} : s.doing p = .user → execSetup s p page = some s' →
      OwnStep s p s' (.exec p page)
  | execCommit {pgdir sz eip esp} : s.doing p = .execing pgdir →
      Xv6.execCommit s p pgdir sz eip esp = some s' → OwnStep s p s' (.execCommit p sz eip esp)
  | execBad {pgdir} : s.doing p = .execing pgdir → Xv6.execBad s p pgdir = some s' →
      OwnStep s p s' (.execBad p)
  | kill {pid} : s.doing p = .user → s' = Xv6.kill s p pid → OwnStep s p s' (.kill p pid)

theorem own_step {s s' : State} {p : Proc} {a : Act} (hap : a.proc = some p)
    (h : own s (s.doing p) a = some s') : OwnStep s p s' a := by
  cases a <;> simp only [Act.proc, Option.some.injEq, reduceCtorEq] at hap <;> subst hap <;>
    simp only [own] at h
  case sleep addr =>
    split at h <;> simp only [Option.some.injEq, reduceCtorEq] at h
    · next hd => exact .sleep (Or.inl hd) h.symm
    · next hd => exact .sleep (Or.inr ⟨_, hd⟩) h.symm
  case create c =>
    simp only [Option.ite_none_right_eq_some, Option.some.injEq] at h
    exact .create h.1 h.2.symm
  case kalloc page =>
    split at h
    · next hd => exact .kalloc hd h
    · cases h
  case copyuvm page =>
    split at h
    · next hd => exact .copyuvm hd h
    · cases h
  case share ok =>
    split at h <;> simp only [Option.some.injEq, reduceCtorEq] at h
    next hd => exact .share hd h.symm
  case ready =>
    split at h <;> simp only [Option.some.injEq, reduceCtorEq] at h
    next hd => exact .ready hd h.symm
  case cloned =>
    split at h <;> simp only [Option.some.injEq, reduceCtorEq] at h
    next hd => exact .cloned hd h.symm
  case exit =>
    simp only [Option.ite_none_right_eq_some, Option.some.injEq] at h
    exact .exit h.1.1 h.1.2 h.2.symm
  case wait =>
    simp only [Option.ite_none_right_eq_some, Option.some.injEq] at h
    exact .wait h.1 h.2.symm
  case join =>
    simp only [Option.ite_none_right_eq_some, Option.some.injEq] at h
    exact .join h.1 h.2.symm
  case scan =>
    split at h
    · next hd => exact .waitScan hd h
    · next hd => exact .joinScan hd h
    · cases h
  case exec page =>
    simp only [Option.ite_none_right_eq_some] at h
    exact .exec h.1 h.2
  case execCommit sz eip esp =>
    split at h
    · next hd => exact .execCommit hd h
    · cases h
  case execBad =>
    split at h
    · next hd => exact .execBad hd h
    · cases h
  case kill pid =>
    simp only [Option.ite_none_right_eq_some, Option.some.injEq] at h
    exact .kill h.1 h.2.symm
  -- `yield` is not a step of a call
  case yield => cases h

/-- The steps of the system: those of the scheduler and of the other subsystems, and
those of a running process. -/
inductive Step (s s' : State) : Act → Prop
  | schedule {p} : (s.table p).state = .runnable →
      s' = s.setEntry p { s.table p with state := .running, chan := none } →
      Step s s' (.schedule p)
  | wakeup {addr} : s' = s.wakeup1 (some (.other addr)) → Step s s' (.wakeup addr)
  | yield {p} : (s.table p).state = .running →
      s' = s.setEntry p { s.table p with state := .runnable } → Step s s' (.yield p)
  | own {a p} : a.proc = some p → (s.table p).state = .running → OwnStep s p s' a → Step s s' a

/-- **Everything a step can do.** -/
theorem next_step {s s' : State} {a : Act} (h : next s a = some s') : Step s s' a := by
  cases a with
  | schedule p =>
      simp only [next, Option.ite_none_right_eq_some, Option.some.injEq] at h
      exact .schedule h.1 h.2.symm
  | wakeup addr =>
      simp only [next, Option.some.injEq] at h
      exact .wakeup h.symm
  | yield p =>
      simp only [next, Option.ite_none_right_eq_some, Option.some.injEq] at h
      exact .yield h.1 h.2.symm
  | _ =>
      obtain ⟨hp, h⟩ := Option.ite_none_right_eq_some.mp h
      exact .own rfl hp (own_step rfl h)

end Os377.Xv6
