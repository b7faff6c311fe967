import Os377.Lib.Custody
import Os377.Xv6.ProcTable

/-!
# What the process table does to address spaces

The part of the table that decides who uses which page directory (`View`), and
everything a step can do to it (`Change`, `step_change`): most steps do nothing,
a call of `fork` or `clone` takes a slot through its stages, `exit` passes
children on, `wait` and `join` give a slot back, `exec` swaps a directory. The
second index of `Change` is the directory that `wait` or `exec` passes to
`freevm`, with the entry it belongs to.
-/

namespace Os377.Xv6

open Os377.Lib Function

/-- A `procstate` as far as address spaces go: a process that can still run is
`active`. -/
inductive Kind where
  | unused | embryo | active | zombie
  deriving DecidableEq, Repr

def ProcState.kind : ProcState → Kind
  | .unused => .unused
  | .embryo => .embryo
  | .sleeping | .runnable | .running => .active
  | .zombie => .zombie

/-- What a process in a call has in its hands: an entry without an address
space, an entry with one, a page directory outside the table. -/
inductive Stage where
  | idle
  | making (np : Proc)
  | made (np : Proc)
  | building (pgdir : Nat)
  deriving DecidableEq, Repr

def Doing.stage : Doing → Stage
  | .user | .started _ | .waiting | .joining => .idle
  | .claimed _ np | .allocated _ np => .making np
  | .filled _ np => .made np
  | .execing pgdir => .building pgdir

/-- The entry a process is building. -/
def Stage.target : Stage → Option Proc
  | .making np | .made np => some np
  | _ => none

@[ext]
structure View where
  kind : Proc → Kind
  stage : Proc → Stage
  pgdir : Proc → Nat
  kstack : Proc → Nat
  parent : Proc → Option Proc
  leader : Proc → Option Proc
  pages : Nat → Bool

def State.view (s : State) : View where
  kind q := (s.table q).state.kind
  stage q := (s.doing q).stage
  pgdir q := (s.table q).pgdir
  kstack q := (s.table q).kstack
  parent q := (s.table q).parent
  leader := s.leader
  pages := s.pages

/-! ## The view of an updated state -/

section View

variable (s : State) (p : Proc)

theorem view_setEntry (e : Entry) : (s.setEntry p e).view =
    { s.view with
      kind := update s.view.kind p e.state.kind
      pgdir := update s.view.pgdir p e.pgdir
      kstack := update s.view.kstack p e.kstack
      parent := update s.view.parent p e.parent } := by
  ext q <;> by_cases hq : q = p <;> simp [State.view, State.setEntry, update_apply, hq]

theorem view_setDoing (d : Doing) :
    (s.setDoing p d).view = { s.view with stage := update s.view.stage p d.stage } := by
  ext q <;> by_cases hq : q = p <;> simp [State.view, State.setDoing, update_apply, hq]

@[simp] theorem update_kind_self :
    update s.view.kind p (s.table p).state.kind = s.view.kind := update_eq_self p s.view.kind

@[simp] theorem update_pgdir_self :
    update s.view.pgdir p (s.table p).pgdir = s.view.pgdir := update_eq_self p s.view.pgdir

@[simp] theorem update_kstack_self :
    update s.view.kstack p (s.table p).kstack = s.view.kstack := update_eq_self p s.view.kstack

@[simp] theorem update_parent_self :
    update s.view.parent p (s.table p).parent = s.view.parent := update_eq_self p s.view.parent

/-- Changing only what the view does not show. -/
theorem view_setEntry_self (e : Entry) (hk : e.state.kind = (s.table p).state.kind)
    (hd : e.pgdir = (s.table p).pgdir) (hs : e.kstack = (s.table p).kstack)
    (hp : e.parent = (s.table p).parent) : (s.setEntry p e).view = s.view := by
  rw [view_setEntry, hk, hd, hs, hp]
  simp only [update_kind_self, update_pgdir_self, update_kstack_self, update_parent_self]

@[simp] theorem view_ret (v : BitVec 32) :
    (s.ret p v).view = { s.view with stage := update s.view.stage p .idle } := by
  have hself : (s.setEntry p { s.table p with tf := { (s.table p).tf with eax := v } }).view =
      s.view := view_setEntry_self s p _ rfl rfl rfl rfl
  rw [State.ret, view_setDoing, hself, Doing.stage]

theorem view_setLeader (l : Proc → Option Proc) :
    ({ s with leader := l } : State).view = { s.view with leader := l } := rfl

@[simp] theorem view_take (a : Nat) :
    (s.take a).view = { s.view with pages := update s.view.pages a true } := rfl

@[simp] theorem view_kfree (a : Nat) :
    (s.kfree a).view = { s.view with pages := update s.view.pages a false } := rfl

@[simp] theorem view_wakeup1 (c : Option Chan) : (s.wakeup1 c).view = s.view := by
  ext q
  case kind =>
    simp only [State.view, State.wakeup1, Entry.wakeup1]
    split
    · next h => simp [h.1, ProcState.kind]
    · rfl
  all_goals simp only [State.view, State.wakeup1, Entry.wakeup1] <;> split <;> rfl

/-- Returning from a call that holds nothing. -/
theorem view_ret_idle {p : Proc} (h : s.view.stage p = .idle) (v : BitVec 32) :
    (s.ret p v).view = s.view := by
  rw [view_ret, ← h, update_eq_self]

theorem view_sleep {p : Proc} (h : (s.table p).state = .running) (c : Chan) :
    (s.sleep p c).view = s.view :=
  view_setEntry_self s p _ (by simp [h, ProcState.kind]) rfl rfl rfl

end View

/-! ## What a step can do -/

/-- Slot `q` after `reap`. -/
def View.reap (v : View) (q : Proc) : View :=
  { v with
    kind := update v.kind q .unused
    kstack := update v.kstack q 0
    parent := update v.parent q none
    leader := update v.leader q none
    pages := update v.pages (v.kstack q) false }

inductive Change (v : View) : Option (Proc × Nat) → View → Prop
  | quiet : Change v none v
  /-- `allocproc` finds a slot. -/
  | found {p np} : v.kind p = .active → v.stage p = .idle → v.kind np = .unused →
      Change v none { v with
        kind := update v.kind np .embryo
        stage := update v.stage p (.making np) }
  /-- `allocproc` gets a kernel stack. -/
  | stack {p np k} : v.stage p = .making np → k ≠ 0 → v.pages k = false →
      Change v none { v with
        kstack := update v.kstack np k
        pages := update v.pages k true }
  /-- `allocproc` or `fork` fails and gives the slot back. -/
  | abandon {p np d pages} : v.stage p = .making np →
      pages = v.pages ∨ pages = update v.pages (v.kstack np) false →
      Change v none { v with
        kind := update v.kind np .unused
        stage := update v.stage p .idle
        pgdir := update v.pgdir np d
        kstack := update v.kstack np 0
        pages := pages }
  /-- `clone` rejects `stack` and keeps the slot. -/
  | desert {p np} : v.stage p = .making np →
      Change v none { v with stage := update v.stage p .idle }
  /-- `fork` has copied the address space. -/
  | own {p np d} : v.stage p = .making np → d ≠ 0 → v.pages d = false →
      Change v none { v with
        stage := update v.stage p (.made np)
        pgdir := update v.pgdir np d
        parent := update v.parent np (some p)
        leader := update v.leader np (some np)
        pages := update v.pages d true }
  /-- `clone` has shared the address space; it gives up if `copyout` fails. -/
  | share {p np stage} : v.stage p = .making np → stage = .made np ∨ stage = .idle →
      Change v none { v with
        stage := update v.stage p stage
        pgdir := update v.pgdir np (v.pgdir p)
        parent := update v.parent np (some p)
        leader := update v.leader np (v.leader p) }
  | ready {p np} : v.stage p = .made np →
      Change v none { v with
        kind := update v.kind np .active
        stage := update v.stage p .idle }
  | exit {p} : v.kind p = .active → v.stage p = .idle → p ≠ initproc →
      Change v none { v with
        kind := update v.kind p .zombie
        parent := fun q => if v.parent q = some p then some initproc else v.parent q }
  | wait {p q} : v.kind p = .active → v.kind q = .zombie → v.parent q = some p →
      Change v (some (q, v.pgdir q)) { v.reap q with
        pages := update (v.reap q).pages (v.pgdir q) false }
  | join {p q} : v.kind p = .active → v.kind q = .zombie → v.parent q = some p →
      v.pgdir q = v.pgdir p → Change v none (v.reap q)
  /-- `setupkvm` of `exec`. -/
  | build {p d} : v.kind p = .active → v.stage p = .idle → d ≠ 0 → v.pages d = false →
      Change v none { v with
        stage := update v.stage p (.building d)
        pages := update v.pages d true }
  | commit {p d} : v.stage p = .building d →
      Change v (some (p, v.pgdir p)) { v with
        stage := update v.stage p .idle
        pgdir := update v.pgdir p d
        leader := update v.leader p (some p)
        pages := update v.pages (v.pgdir p) false }
  | bad {p d} : v.stage p = .building d →
      Change v (some (p, d)) { v with
        stage := update v.stage p .idle
        pages := update v.pages d false }

/-- The directory a step passes to `freevm` in `wait` or `exec`, and the entry
of the process it belongs to. -/
def freed (s : State) : Act → Option (Proc × Nat)
  | .scan p =>
      if s.doing p = .waiting then
        (zombieOf s (childOf s p)).map fun q => (q, (s.table q).pgdir)
      else none
  | .execCommit p _ _ _ =>
      match s.doing p with
      | .execing _ => some (p, (s.table p).pgdir)
      | _ => none
  | .execBad p =>
      match s.doing p with
      | .execing pgdir => some (p, pgdir)
      | _ => none
  | _ => none

section Steps

variable {s s' : State} {p np : Proc}

theorem kind_of_running (hp : (s.table p).state = .running) : s.view.kind p = .active := by
  simp [State.view, hp, ProcState.kind]

theorem stage_of_doing {d : Doing} (hd : s.doing p = d) : s.view.stage p = d.stage := by
  rw [← hd]
  rfl

theorem allocproc_change (hp : (s.table p).state = .running) (hd : s.doing p = .user)
    (c : Call) : Change s.view none (allocproc s p c).view := by
  have hidle : s.view.stage p = .idle := stage_of_doing hd
  unfold allocproc
  cases hfind : slots.find? (fun q => (s.table q).state == .unused) with
  | none =>
      rw [view_ret_idle s hidle]
      exact .quiet
  | some np =>
      have hnp : (s.table np).state = .unused := by simpa using List.find?_some hfind
      have hk : s.view.kind np = .unused := by simp [State.view, hnp, ProcState.kind]
      convert Change.found (kind_of_running hp) hidle hk using 1
      change ((s.setEntry np _).setDoing p _).view = _
      rw [view_setDoing, view_setEntry]
      simp only [update_pgdir_self, update_kstack_self, update_parent_self]
      rfl

theorem allocKstack_change {c : Call} (hd : s.doing p = .claimed c np) {page : Option Nat}
    (h : allocKstack s p c np page = some s') : Change s.view none s'.view := by
  have hst : s.view.stage p = .making np := stage_of_doing hd
  cases page with
  | none =>
      simp only [allocKstack, Option.some.injEq] at h
      subst h
      convert Change.abandon (d := (s.table np).pgdir) hst (.inl rfl) using 1
      rw [view_ret, view_setEntry]
      simp only [update_pgdir_self, update_parent_self]
      rfl
  | some k =>
      simp only [allocKstack, Option.ite_none_right_eq_some, Option.some.injEq] at h
      obtain ⟨⟨hk0, hk⟩, rfl⟩ := h
      convert Change.stack hst hk0 hk using 1
      rw [view_setDoing, view_setEntry, view_take]
      simp only [update_kind_self, update_pgdir_self, update_parent_self, Doing.stage, ← hst,
        update_eq_self]

theorem forkCopy_change (hd : s.doing p = .allocated .fork np) {page : Option Nat}
    (h : forkCopy s p np page = some s') : Change s.view none s'.view := by
  have hst : s.view.stage p = .making np := stage_of_doing hd
  cases page with
  | none =>
      simp only [forkCopy, Option.some.injEq] at h
      subst h
      convert Change.abandon (d := 0) hst (.inr rfl) using 1
      rw [view_ret, view_setEntry, view_kfree]
      simp only [update_parent_self]
      rfl
  | some d =>
      simp only [forkCopy, Option.ite_none_right_eq_some, Option.some.injEq] at h
      obtain ⟨⟨hd0, hfree⟩, rfl⟩ := h
      convert Change.own hst hd0 hfree using 1
      rw [view_setDoing, view_setLeader, view_setEntry, view_take]
      simp only [update_kind_self, update_kstack_self, Doing.stage]
      rfl

theorem cloneShare_change {fcn arg stack : BitVec 32}
    (hd : s.doing p = .allocated (.clone fcn arg stack) np) (ok : Bool) :
    Change s.view none (cloneShare s p np fcn arg stack ok).view := by
  have hst : s.view.stage p = .making np := stage_of_doing hd
  by_cases halign : stack.toNat % pgsize ≠ 0
  · rw [cloneShare, if_pos halign, view_ret]
    exact .desert hst
  by_cases hroom : ((s.table p).sz - stack).toNat < pgsize
  · rw [cloneShare, if_neg halign, if_pos hroom, view_ret]
    exact .desert hst
  rw [cloneShare, if_neg halign, if_neg hroom]
  cases ok with
  | false =>
      convert Change.share hst (.inr rfl) using 1
      rw [if_neg (by decide), view_ret, view_setEntry, view_setLeader]
      simp only [update_kind_self, update_kstack_self]
      rfl
  | true =>
      convert Change.share hst (.inl rfl) using 1
      rw [if_pos rfl, view_setDoing, view_setEntry, view_setLeader]
      simp only [update_kind_self, update_kstack_self]
      rfl

theorem ready_change {c : Call} (hd : s.doing p = .filled c np) :
    Change s.view none (ready s p c np).view := by
  have hst : s.view.stage p = .made np := stage_of_doing hd
  convert Change.ready hst using 1
  cases c with
  | fork =>
      rw [ready, view_ret, view_setEntry]
      simp only [update_pgdir_self, update_kstack_self, update_parent_self]
      rfl
  | clone fcn arg stack =>
      rw [ready, view_setDoing, view_setEntry]
      simp only [update_pgdir_self, update_kstack_self, update_parent_self]
      rfl

/-- The children of `p` passed to `initproc`. -/
theorem view_reparent (s : State) (p : Proc) :
    ({ s with table := fun q => (s.table q).reparent p } : State).view =
      { s.view with
        parent := fun q =>
          if s.view.parent q = some p then some initproc else s.view.parent q } := by
  ext q
  case parent =>
    simp only [State.view, Entry.reparent]
    split <;> simp_all
  all_goals simp only [State.view, Entry.reparent] <;> split <;> rfl

theorem exit_change (hp : (s.table p).state = .running) (hd : s.doing p = .user)
    (hinit : p ≠ initproc) : Change s.view none (exit s p).view := by
  have hidle : s.view.stage p = .idle := stage_of_doing hd
  convert Change.exit (kind_of_running hp) hidle hinit using 1
  unfold exit
  rw [view_setEntry]
  simp only [update_pgdir_self, update_kstack_self, update_parent_self]
  split
  all_goals simp only [view_wakeup1, view_reparent, ProcState.kind]

/-- Giving the slot of a zombie back. -/
theorem view_reap (q : Proc) : (reap s q).view = s.view.reap q := by
  rw [reap, view_setLeader, view_setEntry, view_kfree]
  simp only [update_pgdir_self]
  rfl

theorem zombieOf_some {mine : Proc → Bool} {q : Proc} (h : zombieOf s mine = some q) :
    mine q = true ∧ (s.table q).state = .zombie := by
  simpa using List.find?_some h

/-- The ends of a scan that finds no zombie. -/
theorem scanChildren_none {mine : Proc → Bool} {collect : State → Proc → Option State}
    (hp : (s.table p).state = .running) (hidle : s.view.stage p = .idle)
    (hz : zombieOf s mine = none) (h : scanChildren s p mine collect = some s') :
    s'.view = s.view := by
  rw [scanChildren, hz] at h
  dsimp only at h
  split at h
  · rw [Option.some.injEq] at h
    rw [← h, view_ret_idle s hidle]
  · rw [Option.some.injEq] at h
    rw [← h, view_sleep s hp]

theorem wait_change (hp : (s.table p).state = .running) (hd : s.doing p = .waiting)
    (h : wait s p = some s') : Change s.view (freed s (.scan p)) s'.view := by
  have hidle : s.view.stage p = .idle := stage_of_doing hd
  rw [freed, if_pos hd]
  cases hz : zombieOf s (childOf s p) with
  | none =>
      rw [scanChildren_none hp hidle hz h]
      exact .quiet
  | some q =>
      obtain ⟨hmine, hq⟩ := zombieOf_some hz
      have hkind : s.view.kind q = .zombie := by simp [State.view, hq, ProcState.kind]
      have hpar : s.view.parent q = some p := by simpa [childOf, State.view] using hmine
      rw [wait, scanChildren, hz] at h
      simp only [State.freevm] at h
      split at h
      · simp at h
      · rw [Option.map_some, Option.some.injEq] at h
        subst h
        change Change s.view (some (q, s.view.pgdir q)) _
        convert Change.wait (kind_of_running hp) hkind hpar using 1
        rw [view_ret, view_kfree, view_reap]
        simp only [View.reap, ← hidle, update_eq_self]
        rfl

theorem join_change (hp : (s.table p).state = .running) (hd : s.doing p = .joining)
    (h : join s p = some s') : Change s.view none s'.view := by
  have hidle : s.view.stage p = .idle := stage_of_doing hd
  cases hz : zombieOf s (threadOf s p) with
  | none =>
      rw [scanChildren_none hp hidle hz h]
      exact .quiet
  | some q =>
      obtain ⟨hmine, hq⟩ := zombieOf_some hz
      have hkind : s.view.kind q = .zombie := by simp [State.view, hq, ProcState.kind]
      simp only [threadOf, Bool.and_eq_true, beq_iff_eq] at hmine
      rw [join, scanChildren, hz] at h
      simp only [Option.map_some, Option.some.injEq] at h
      subst h
      convert Change.join (kind_of_running hp) hkind hmine.2 hmine.1 using 1
      rw [view_ret, view_reap]
      simp only [View.reap, ← hidle, update_eq_self]

theorem execSetup_change (hp : (s.table p).state = .running) (hd : s.doing p = .user)
    {page : Option Nat} (h : execSetup s p page = some s') : Change s.view none s'.view := by
  have hidle : s.view.stage p = .idle := stage_of_doing hd
  cases page with
  | none =>
      simp only [execSetup, Option.some.injEq] at h
      rw [← h, view_ret_idle s hidle]
      exact .quiet
  | some d =>
      simp only [execSetup, Option.ite_none_right_eq_some, Option.some.injEq] at h
      obtain ⟨⟨hd0, hfree⟩, rfl⟩ := h
      rw [view_setDoing, view_take]
      exact .build (kind_of_running hp) hidle hd0 hfree

theorem execCommit_change {d : Nat} (hd : s.doing p = .execing d) {sz eip esp : BitVec 32}
    (h : execCommit s p d sz eip esp = some s') :
    Change s.view (some (p, (s.table p).pgdir)) s'.view := by
  have hst : s.view.stage p = .building d := stage_of_doing hd
  simp only [execCommit, State.freevm] at h
  split at h
  · simp at h
  · rw [Option.map_some, Option.some.injEq] at h
    subst h
    change Change s.view (some (p, s.view.pgdir p)) _
    convert Change.commit hst using 1
    rw [view_ret, view_kfree, view_setLeader, view_setEntry]
    simp only [update_kind_self, update_kstack_self, update_parent_self]
    rfl

theorem execBad_change {d : Nat} (hd : s.doing p = .execing d)
    (h : execBad s p d = some s') : Change s.view (some (p, d)) s'.view := by
  have hst : s.view.stage p = .building d := stage_of_doing hd
  simp only [execBad, State.freevm] at h
  split at h
  · simp at h
  · rw [Option.map_some, Option.some.injEq] at h
    subst h
    rw [view_ret, view_kfree]
    exact .bad hst

theorem kill_quiet (hd : s.doing p = .user) (pid : BitVec 32) :
    (kill s p pid).view = s.view := by
  have hidle : s.view.stage p = .idle := stage_of_doing hd
  have hself : ∀ q, (s.setEntry q (s.table q).kill).view = s.view := by
    intro q
    refine view_setEntry_self s q _ ?_ rfl rfl rfl
    simp only [Entry.kill]
    split
    · next h => simp [h, ProcState.kind]
    · rfl
  unfold kill
  cases slots.find? (fun q => (s.table q).pid == pid) with
  | none => exact view_ret_idle s hidle _
  | some q => rw [view_ret, hself, ← hidle, update_eq_self]

theorem change_of_view_eq (hv : s'.view = s.view) : Change s.view none s'.view := by
  rw [hv]
  exact .quiet

/-- A step of a running process, call by call. -/
theorem own_change {a : Act} (hp : (s.table p).state = .running) (h : OwnStep s p s' a) :
    Change s.view (freed s a) s'.view := by
  cases h with
  | @sleep addr hd hs => exact change_of_view_eq (hs ▸ view_sleep s hp _)
  | create hd hs =>
      subst hs
      exact allocproc_change hp hd _
  | kalloc hd hs => exact allocKstack_change hd hs
  | copyuvm hd hs => exact forkCopy_change hd hs
  | share hd hs => exact hs ▸ cloneShare_change hd _
  | ready hd hs => exact hs ▸ ready_change hd
  | cloned hd hs => exact change_of_view_eq (hs ▸ view_ret_idle s (stage_of_doing hd) _)
  | exit hd hinit hs =>
      subst hs
      exact exit_change hp hd hinit
  | wait hd hs | join hd hs =>
      subst hs
      have hidle : s.view.stage p = .idle := stage_of_doing hd
      refine change_of_view_eq ?_
      rw [view_setDoing, Doing.stage, ← hidle, update_eq_self]
  | waitScan hd hs => exact wait_change hp hd hs
  | joinScan hd hs =>
      rw [freed, if_neg (by simp [hd])]
      exact join_change hp hd hs
  | exec hd hs => exact execSetup_change hp hd hs
  | execCommit hd hs =>
      simp only [freed, hd]
      exact execCommit_change hd hs
  | execBad hd hs =>
      simp only [freed, hd]
      exact execBad_change hd hs
  | kill hd hs => exact change_of_view_eq (hs ▸ kill_quiet hd _)

/-- **Everything a step can do to address spaces.** -/
theorem step_change {a : Act} (h : next s a = some s') : Change s.view (freed s a) s'.view := by
  cases next_step h with
  | wakeup hs => exact change_of_view_eq (hs ▸ view_wakeup1 s _)
  | @schedule p hp hs | @yield p hp hs =>
      subst hs
      exact change_of_view_eq (view_setEntry_self s p _ (by simp [hp, ProcState.kind]) rfl rfl rfl)
  | own _ hp hown => exact own_change hp hown

end Steps

end Os377.Xv6
