import Os377.Xv6.Lifetime
import Os377.Xv6.Paging

/-!
# Threads and the size of their address space

`growproc` and `sbrk` next to `fork` and `clone`. A thread gets a copy of its
creator's `sz` with its `pgdir`, and `growproc` stores the new size to the entry
of the caller only: as long as a process that changes its size shares its
directory with nobody, all entries with one directory have one size, and the
directory holds exactly the pages of that size.

The runs are those in which no directory is freed or replaced and no slot of
the table is given back: neither `wait` nor `join` reaps, and nobody calls
`exec`. A whole `sbrk` is one step.
-/

namespace Os377.Xv6

open Os377.Lib Function

/-- The process table and what is mapped below each page directory. -/
structure VmState where
  procs : State
  dirs : Nat → PageDir

namespace VmState

variable (s : VmState)

def setDir (pgdir : Nat) (d : PageDir) : VmState := { s with dirs := update s.dirs pgdir d }

/-- `curproc->sz = sz` -/
def setSz (p : Proc) (sz : Addr) : VmState :=
  { s with procs := s.procs.setEntry p { s.procs.table p with sz := sz } }

end VmState

/-! ## `growproc`, `sbrk` -/

/-- What `growproc` makes of the size that `allocuvm` or `deallocuvm` returns. -/
def resize (s : VmState) (p : Proc) (grown : Addr × PageDir) : BitVec 32 × VmState :=
  let s' := s.setDir (s.procs.table p).pgdir grown.2
  if grown.1 = 0 then (-1, s') else (0, s'.setSz p grown.1)

/-- `growproc(n)` by process `p`, when `kalloc` can hand out `avail` pages;
`none` is `panic("remap")`. -/
def growproc (s : VmState) (p : Proc) (n : BitVec 32) (avail : Nat) :
    Option (BitVec 32 × VmState) :=
  let curproc := s.procs.table p
  let d := s.dirs curproc.pgdir
  if 0 < n.toInt then (allocuvm d curproc.sz (curproc.sz + n) avail).map (resize s p)
  else if n.toInt < 0 then some (resize s p (deallocuvm d curproc.sz (curproc.sz + n)))
  else some (0, s.setSz p curproc.sz)

/-- `sys_sbrk` -/
def sbrk (s : VmState) (p : Proc) (n : BitVec 32) (avail : Nat) : Option VmState :=
  (growproc s p n avail).map fun grown =>
    let addr := (s.procs.table p).sz
    { grown.2 with
      procs := grown.2.procs.ret p (if grown.1.toInt < 0 then -1 else addr) }

/-! ## Pointers passed to system calls -/

/-- `fetchint`, for a process of `sz` bytes; `word` is its memory. -/
def fetchint (sz : Addr) (word : Addr → BitVec 32) (addr : Addr) : Option (BitVec 32) :=
  if sz ≤ addr ∨ sz < addr + 4 then none else some (word addr)

/-- `argint` -/
def argint (sz esp : Addr) (word : Addr → BitVec 32) (n : BitVec 32) : Option (BitVec 32) :=
  fetchint sz word (esp + 4 + 4 * n)

/-- `argptr` -/
def argptr (sz esp : Addr) (word : Addr → BitVec 32) (n size : BitVec 32) : Option Addr :=
  (argint sz esp word n).bind fun i =>
    if size.toInt < 0 ∨ sz ≤ i ∨ sz < i + size then none else some i

/-! ## The system -/

/-- Steps that free or replace no page directory and give no slot back. -/
def Act.keeps : Act → Bool
  | .scan _ | .exec _ _ | .execCommit _ _ _ _ | .execBad _ => false
  | _ => true

/-- The process whose directory `fork` copies, and the page of the copy. -/
def copied : Act → Option (Proc × Nat)
  | .copyuvm p (some d) => some (p, d)
  | _ => none

inductive VmAct where
  /-- A step of the process table. -/
  | table (a : Act)
  /-- `p` calls `sbrk(n)`. -/
  | sbrk (p : Proc) (n : BitVec 32) (avail : Nat)
  deriving DecidableEq, Repr

/-- What a step of the table maps: `fork` copies the address space. -/
def mapStep (s : VmState) (a : Act) : Option (Nat → PageDir) :=
  match copied a with
  | none => some s.dirs
  | some (p, d) =>
      (copyuvm (s.dirs (s.procs.table p).pgdir) (s.procs.table p).sz).map fun new =>
        update s.dirs d new

def vmNext (s : VmState) : VmAct → Option VmState
  | .table a =>
      if a.keeps then
        (next s.procs a).bind fun procs => (mapStep s a).map fun dirs => ⟨procs, dirs⟩
      else none
  | .sbrk p n avail =>
      if (s.procs.table p).state = .running ∧ s.procs.doing p = .user then sbrk s p n avail
      else none

/-- `inituvm` maps the first page. -/
def inituvm : PageDir := (PageDir.empty.addTable 0).setPte 0 true

def vmInit (kstack pgdir : Nat) : VmState where
  procs := userinit kstack pgdir
  dirs := update (fun _ => .empty) pgdir inituvm

def vm : TSys VmState VmAct where
  init s := ∃ kstack pgdir, kstack ≠ 0 ∧ pgdir ≠ 0 ∧ kstack ≠ pgdir ∧ s = vmInit kstack pgdir
  next := vmNext

/-! ## The property and the condition -/

/-- Entries with one page directory have one size, and the directory holds the
pages below it. -/
structure Agree (s : VmState) : Prop where
  size : ∀ p q, (s.procs.table p).state ≠ .unused → (s.procs.table q).state ≠ .unused →
    (s.procs.table p).pgdir = (s.procs.table q).pgdir →
    (s.procs.table p).sz = (s.procs.table q).sz
  pages : ∀ p, (s.procs.table p).state ≠ .unused → ∀ va < kernbase,
    (s.dirs (s.procs.table p).pgdir).mapped va = true ↔ va < pgroundup (s.procs.table p).sz

/-- The call returns 0 to `sys_sbrk`. -/
def Accepted (s : VmState) : VmAct → Prop
  | .sbrk p n avail => ((growproc s p n avail).any fun grown => grown.1 = 0) = true
  | .table _ => True

/-- `sbrk(n)` changes the size of a process of `sz` bytes: it grows, or shrinks
by no more than it has. -/
def Moves (sz : Addr) (n : BitVec 32) : Prop := 0 < n.toInt ∨ n.toInt < 0 ∧ sz + n < sz

/-- Who changes its size shares its page directory with no other entry. -/
def Sole (s : VmState) : VmAct → Prop
  | .sbrk p n _ => Moves (s.procs.table p).sz n → Alone s.procs.view p (s.procs.table p).pgdir
  | .table _ => True

instance (s : VmState) : (a : VmAct) → Decidable (Accepted s a)
  | .sbrk _ _ _ => inferInstanceAs (Decidable (_ = _))
  | .table _ => inferInstanceAs (Decidable True)

instance (sz : Addr) (n : BitVec 32) : Decidable (Moves sz n) := inferInstanceAs (Decidable (_ ∨ _))

instance (v : View) (i : Proc) (d : Nat) : Decidable (Alone v i d) :=
  inferInstanceAs (Decidable (∀ _, _))

instance (s : VmState) : (a : VmAct) → Decidable (Sole s a)
  | .sbrk _ _ _ => inferInstanceAs (Decidable (_ → _))
  | .table _ => inferInstanceAs (Decidable True)

/-! ## What a step does to sizes -/

/-- The part of the table that says who has which address space, of what size. -/
@[ext]
structure Space where
  sz : Proc → Addr
  pgdir : Proc → Nat
  leader : Proc → Option Proc

def State.space (s : State) : Space where
  sz q := (s.table q).sz
  pgdir q := (s.table q).pgdir
  leader := s.leader

section Space

variable (s : State) (p : Proc)

theorem space_setEntry (e : Entry) : (s.setEntry p e).space =
    { s.space with sz := update s.space.sz p e.sz, pgdir := update s.space.pgdir p e.pgdir } := by
  ext q <;> by_cases hq : q = p <;> simp [State.space, State.setEntry, update_apply, hq]

@[simp] theorem update_space_sz_self : update s.space.sz p (s.table p).sz = s.space.sz :=
  update_eq_self p s.space.sz

@[simp] theorem update_space_pgdir_self :
    update s.space.pgdir p (s.table p).pgdir = s.space.pgdir := update_eq_self p s.space.pgdir

/-- A store to another field. -/
theorem space_setEntry_self (e : Entry) (hsz : e.sz = (s.table p).sz)
    (hd : e.pgdir = (s.table p).pgdir) : (s.setEntry p e).space = s.space := by
  rw [space_setEntry, hsz, hd, update_space_sz_self, update_space_pgdir_self]

@[simp] theorem space_setDoing (d : Doing) : (s.setDoing p d).space = s.space := rfl

@[simp] theorem space_ret (v : BitVec 32) : (s.ret p v).space = s.space :=
  space_setEntry_self s p _ rfl rfl

@[simp] theorem space_kfree (a : Nat) : (s.kfree a).space = s.space := rfl

@[simp] theorem space_wakeup1 (c : Option Chan) : (s.wakeup1 c).space = s.space := by
  ext q
  case leader => rfl
  all_goals
    simp only [State.space, State.wakeup1, Entry.wakeup1]
    split <;> rfl

theorem space_reparent : ({ s with table := fun q => (s.table q).reparent p } : State).space =
    s.space := by
  ext q
  case leader => rfl
  all_goals
    simp only [State.space, Entry.reparent]
    split <;> rfl

end Space

/-- What a step can do to sizes and directories. -/
inductive Settle (v : View) (m : Space) : Option (Proc × Nat) → Space → Prop
  | keep : Settle v m none m
  /-- `fork` fails. -/
  | drop {p np} : v.stage p = .making np →
      Settle v m none { m with pgdir := update m.pgdir np 0 }
  /-- `fork` has copied the address space to page `d`. -/
  | copy {p np d} : v.stage p = .making np → d ≠ 0 → v.pages d = false →
      Settle v m (some (p, d))
        { sz := update m.sz np (m.sz p)
          pgdir := update m.pgdir np d
          leader := update m.leader np (some np) }
  /-- `clone` has shared it. -/
  | share {p np} : v.stage p = .making np →
      Settle v m none
        { sz := update m.sz np (m.sz p)
          pgdir := update m.pgdir np (m.pgdir p)
          leader := update m.leader np (m.leader p) }

section Steps

variable {s s' : State} {p np : Proc}

theorem settle_of_eq {v : View} (h : s'.space = s.space) : Settle v s.space none s'.space := by
  rw [h]
  exact .keep

theorem allocproc_space (c : Call) : (allocproc s p c).space = s.space := by
  unfold allocproc
  cases slots.find? (fun q => (s.table q).state == .unused) with
  | none => exact space_ret s p _
  | some np => exact space_setEntry_self s np _ rfl rfl

theorem allocKstack_space {c : Call} {page : Option Nat}
    (h : allocKstack s p c np page = some s') : s'.space = s.space := by
  cases page with
  | none =>
      simp only [allocKstack, Option.some.injEq] at h
      subst h
      rw [space_ret]
      exact space_setEntry_self s np _ rfl rfl
  | some k =>
      simp only [allocKstack, Option.ite_none_right_eq_some, Option.some.injEq] at h
      obtain ⟨-, rfl⟩ := h
      rw [space_setDoing]
      exact space_setEntry_self (s.take k) np _ rfl rfl

theorem forkCopy_settle (hd : s.doing p = .allocated .fork np) {page : Option Nat}
    (h : forkCopy s p np page = some s') :
    Settle s.view s.space (copied (.copyuvm p page)) s'.space := by
  have hst : s.view.stage p = .making np := stage_of_doing hd
  cases page with
  | none =>
      simp only [forkCopy, Option.some.injEq] at h
      subst h
      show Settle s.view s.space none _
      convert Settle.drop hst using 1
      rw [space_ret, space_setEntry, space_kfree]
      simp only [update_space_sz_self]
  | some d =>
      simp only [forkCopy, Option.ite_none_right_eq_some, Option.some.injEq] at h
      obtain ⟨⟨hd0, hfree⟩, rfl⟩ := h
      show Settle s.view s.space (some (p, d)) _
      convert Settle.copy hst hd0 hfree using 1
      rw [space_setDoing]
      show Space.mk ((s.take d).setEntry np _).space.sz ((s.take d).setEntry np _).space.pgdir _ = _
      rw [space_setEntry]
      rfl

theorem cloneShare_settle {fcn arg stack : BitVec 32}
    (hd : s.doing p = .allocated (.clone fcn arg stack) np) (ok : Bool) :
    Settle s.view s.space none (cloneShare s p np fcn arg stack ok).space := by
  have hst : s.view.stage p = .making np := stage_of_doing hd
  unfold cloneShare
  dsimp only
  split
  · exact settle_of_eq (space_ret s p _)
  split
  · exact settle_of_eq (space_ret s p _)
  have hfill : ∀ e : Entry, e.sz = (s.table p).sz → e.pgdir = (s.table p).pgdir →
      Settle s.view s.space none
        (({ s with leader := update s.leader np (s.leader p) } : State).setEntry np e).space := by
    intro e hsz hpgdir
    convert Settle.share hst using 1
    rw [space_setEntry, hsz, hpgdir]
    rfl
  split
  · rw [space_setDoing]
    exact hfill _ rfl rfl
  · rw [space_ret]
    exact hfill _ rfl rfl

theorem ready_space (c : Call) : (ready s p c np).space = s.space := by
  have hself : (s.setEntry np { s.table np with state := .runnable }).space = s.space :=
    space_setEntry_self s np _ rfl rfl
  cases c with
  | fork => rw [ready, space_ret, hself]
  | clone fcn arg stack => rw [ready, space_setDoing, hself]

theorem exit_space : (exit s p).space = s.space := by
  unfold exit
  rw [space_setEntry]
  simp only [update_space_sz_self, update_space_pgdir_self]
  split
  all_goals simp only [space_wakeup1, space_reparent]

theorem kill_space (pid : BitVec 32) : (kill s p pid).space = s.space := by
  unfold kill
  cases slots.find? (fun q => (s.table q).pid == pid) with
  | none => exact space_ret s p _
  | some q =>
      rw [space_ret]
      exact space_setEntry_self s q _ rfl rfl

/-- A step of a running process, call by call. -/
theorem own_settle {a : Act} (hkeeps : a.keeps = true) (h : OwnStep s p s' a) :
    Settle s.view s.space (copied a) s'.space := by
  cases h with
  | sleep hd hs => exact settle_of_eq (hs ▸ space_setEntry_self s _ _ rfl rfl)
  | create hd hs => exact settle_of_eq (hs ▸ allocproc_space _)
  | kalloc hd hs => exact settle_of_eq (allocKstack_space hs)
  | copyuvm hd hs => exact forkCopy_settle hd hs
  | share hd hs => exact hs ▸ cloneShare_settle hd _
  | ready hd hs => exact settle_of_eq (hs ▸ ready_space _)
  | cloned hd hs => exact settle_of_eq (hs ▸ space_ret s _ _)
  | exit hd hinit hs => exact settle_of_eq (hs ▸ exit_space)
  | wait hd hs | join hd hs => exact settle_of_eq (hs ▸ space_setDoing s _ _)
  | kill hd hs => exact settle_of_eq (hs ▸ kill_space _)
  | waitScan | joinScan | exec | execCommit | execBad => cases hkeeps

theorem next_settle {a : Act} (hkeeps : a.keeps = true) (h : next s a = some s') :
    Settle s.view s.space (copied a) s'.space := by
  cases next_step h with
  | wakeup hs => exact settle_of_eq (hs ▸ space_wakeup1 s _)
  | schedule hp hs | yield hp hs => exact settle_of_eq (hs ▸ space_setEntry_self s _ _ rfl rfl)
  | own _ _ hown => exact own_settle hkeeps hown

end Steps

end Os377.Xv6
