import Os377.Xv6.Paging

/-!
# What a failed `clone` leaves behind

One call of `clone` from its first step to the one that returns to user space
(`clone`), with `uva2ka` and `copyout` of `vm.c`. `allocproc` comes first, and only
it gives the slot back when it fails; each test behind it returns -1 and leaves
the slot an `EMBRYO` that holds a kernel stack, though none of them depends on the
slot.
-/

namespace Os377.Xv6

open Function

/-! ## `copyout` -/

/-- `PTE_P` of `mmu.h`. -/
def pteP : BitVec 32 := 0x001

/-- `PTE_U` of `mmu.h`. -/
def pteU : BitVec 32 := 0x004

/-- `P2V(PTE_ADDR(pte))` -/
def p2v (pte : BitVec 32) : Addr := (pte &&& ~~~(pgbytes - 1)) + kernbase

/-- `uva2ka(pgdir, uva)`; `pte` is what `walkpgdir(pgdir, uva, 0)` points to. -/
def uva2ka (pte : Addr → BitVec 32) (uva : Addr) : Addr :=
  if pte uva &&& pteP = 0 then 0
  else if pte uva &&& pteU = 0 then 0
  else p2v (pte uva)

/-- The loop of `copyout`, which takes at least one of the `len` bytes each time;
whether it gets to its end. -/
def copyoutLoop (pte : Addr → BitVec 32) : Nat → Addr → BitVec 32 → Bool
  | 0, _, len => len == 0
  | fuel + 1, va, len =>
      if len = 0 then true
      else
        let va0 := pgrounddown va
        if uva2ka pte va0 = 0 then false
        else
          let n := if pgbytes - (va - va0) > len then len else pgbytes - (va - va0)
          copyoutLoop pte fuel (va0 + pgbytes) (len - n)

/-- `copyout(pgdir, va, p, len) == 0` -/
def copyout (pte : Addr → BitVec 32) (va : Addr) (len : BitVec 32) : Bool :=
  copyoutLoop pte len.toNat va len

/-! ## One call -/

/-- The steps of a call of `p`, one after the other, up to its return. -/
def untilUser (p : Proc) : List Act → State → Option State
  | [], s => some s
  | a :: acts, s =>
      (next s a).bind fun s' => if s'.doing p = .user then some s' else untilUser p acts s'

/-- `clone(fcn, arg, stack)` as `p` runs it when nobody comes in between. `page` is what
`kalloc` returns, `pte d` the entries of the page directory `d`. -/
def clone (s : State) (p : Proc) (fcn arg stack : BitVec 32) (page : Option Nat)
    (pte : Nat → Addr → BitVec 32) : Option State :=
  untilUser p [.create p (.clone fcn arg stack), .kalloc p page,
    .share p (copyout (pte (s.table p).pgdir) (stack + pgbytes - 8) 8), .ready p, .cloned p] s

/-- The returned value. -/
def State.eax (s : State) (p : Proc) : BitVec 32 := (s.table p).tf.eax

/-- Every slot has the state, the parent, the directory and the kernel stack it had, and
the same pages are allocated. -/
structure NoTrace (s s' : State) : Prop where
  slots : ∀ q, (s'.table q).state = (s.table q).state ∧ (s'.table q).parent = (s.table q).parent ∧
    (s'.table q).pgdir = (s.table q).pgdir ∧ (s'.table q).kstack = (s.table q).kstack
  pages : s'.pages = s.pages

/-- The slot `allocproc` finds. -/
def foundSlot (s : State) : Option Proc := slots.find? fun q => (s.table q).state == .unused

/-- The tests of `clone` that come after `allocproc`. -/
def StackFits (s : State) (p : Proc) (stack : BitVec 32) (pte : Nat → Addr → BitVec 32) : Prop :=
  stack.toNat % pgsize = 0 ∧ pgsize ≤ ((s.table p).sz - stack).toNat ∧
    copyout (pte (s.table p).pgdir) (stack + pgbytes - 8) 8 = true

/-- `allocproc` fails, or all tests behind it pass. -/
def FailsEarly (s : State) (p : Proc) (stack : BitVec 32) (page : Option Nat)
    (pte : Nat → Addr → BitVec 32) : Prop :=
  match foundSlot s, page with
  | none, _ => True
  | some np, none => (s.table np).kstack = 0
  | some _, some _ => StackFits s p stack pte ∧ s.nextpid ≠ -1

instance (s : State) (p : Proc) (stack : BitVec 32) (pte : Nat → Addr → BitVec 32) :
    Decidable (StackFits s p stack pte) :=
  inferInstanceAs (Decidable (_ ∧ _ ∧ _))

section Call

variable {s : State} {p np : Proc} {fcn arg stack : BitVec 32} {c : Call} {k : Nat}

theorem foundSlot_unused (h : foundSlot s = some np) : (s.table np).state = .unused := by
  simpa using List.find?_some h

theorem ret_doing (v : BitVec 32) : (s.ret p v).doing p = .user := update_self ..

theorem ret_eax (v : BitVec 32) : (s.ret p v).eax p = v := by
  simp only [State.eax, State.ret, State.setEntry, State.setDoing, update_self]

/-- Only registers of the caller change. -/
theorem ret_noTrace (v : BitVec 32) : NoTrace s (s.ret p v) := by
  refine ⟨fun q => ?_, rfl⟩
  by_cases hq : q = p
  · subst hq
    simp [State.ret, State.setEntry, State.setDoing]
  · simp [State.ret, State.setEntry, State.setDoing, hq]

/-- Nor do `ret`'s stores hide a trace. -/
theorem noTrace_ret_iff {s' : State} (v : BitVec 32) :
    NoTrace s (s'.ret p v) ↔ NoTrace s s' := by
  have hret := ret_noTrace (s := s') (p := p) v
  constructor
  · intro h
    refine ⟨fun q => ?_, hret.pages.symm.trans h.pages⟩
    obtain ⟨h1, h2, h3, h4⟩ := h.slots q
    obtain ⟨h1', h2', h3', h4'⟩ := hret.slots q
    exact ⟨h1'.symm.trans h1, h2'.symm.trans h2, h3'.symm.trans h3, h4'.symm.trans h4⟩
  · intro h
    refine ⟨fun q => ?_, hret.pages.trans h.pages⟩
    obtain ⟨h1, h2, h3, h4⟩ := h.slots q
    obtain ⟨h1', h2', h3', h4'⟩ := hret.slots q
    exact ⟨h1'.trans h1, h2'.trans h2, h3'.trans h3, h4'.trans h4⟩

theorem untilUser_stop {a : Act} {acts : List Act} {s' : State} (h : next s a = some s')
    (huser : s'.doing p = .user) : untilUser p (a :: acts) s = some s' := by
  rw [untilUser, h, Option.bind_some, if_pos huser]

theorem untilUser_go {a : Act} {acts : List Act} {s' : State} (h : next s a = some s')
    (hbusy : s'.doing p ≠ .user) : untilUser p (a :: acts) s = untilUser p acts s' := by
  rw [untilUser, h, Option.bind_some, if_neg hbusy]

/-- `allocproc` with a slot at hand. -/
theorem allocproc_found (h : foundSlot s = some np) : allocproc s p c = { s with
    table := update s.table np { s.table np with state := .embryo, pid := s.nextpid }
    nextpid := s.nextpid + 1
    doing := update s.doing p (.claimed c np) } := by
  rw [allocproc]
  unfold foundSlot at h
  rw [h]

theorem allocproc_none (h : foundSlot s = none) : allocproc s p c = s.ret p (-1) := by
  rw [allocproc]
  unfold foundSlot at h
  rw [h]

/-- The state when `allocproc` has returned `np` with the kernel stack `k`. -/
def allocated (s : State) (p np : Proc) (c : Call) (k : Nat) : State :=
  { s with
    table := update s.table np
      { s.table np with state := .embryo, pid := s.nextpid, kstack := k }
    nextpid := s.nextpid + 1
    pages := update s.pages k true
    doing := update s.doing p (.allocated c np) }

theorem allocated_caller (hne : np ≠ p) : (allocated s p np c k).table p = s.table p :=
  update_of_ne hne.symm ..

theorem allocated_slot : (allocated s p np c k).table np =
    { s.table np with state := .embryo, pid := s.nextpid, kstack := k } := update_self ..

section Found

variable (hrun : (s.table p).state = .running) (huser : s.doing p = .user)
  (hfound : foundSlot s = some np)

include hrun hfound in
theorem found_ne : np ≠ p := by
  rintro rfl
  rw [foundSlot_unused hfound] at hrun
  cases hrun

include hrun huser in
theorem next_create : next s (.create p c) = some (allocproc s p c) := by
  show (if (s.table p).state = .running then own s (s.doing p) (.create p c) else none) = _
  rw [if_pos hrun, huser]
  rfl

include hrun hfound in
theorem next_kalloc (page : Option Nat) :
    next (allocproc s p c) (.kalloc p page) = allocKstack (allocproc s p c) p c np page := by
  have hp : ((allocproc s p c).table p).state = .running := by
    rw [allocproc_found hfound]
    simp only [update_of_ne (found_ne hrun hfound).symm]
    exact hrun
  have hd : (allocproc s p c).doing p = .claimed c np := by
    rw [allocproc_found hfound]
    exact update_self ..
  show (if _ = ProcState.running then own _ ((allocproc s p c).doing p) (.kalloc p page)
    else none) = _
  rw [if_pos hp, hd]
  rfl

include hfound in
/-- `kalloc` hands out a page. -/
theorem allocKstack_some (hfree : s.free k) :
    allocKstack (allocproc s p c) p c np (some k) = some (allocated s p np c k) := by
  rw [allocproc_found hfound]
  refine (if_pos hfree).trans (congrArg some ?_)
  simp only [State.take, State.setEntry, State.setDoing, update_self, update_idem, allocated]

variable (fcn arg stack k) in
include hrun hfound in
theorem next_share (ok : Bool) :
    next (allocated s p np (.clone fcn arg stack) k) (.share p ok) =
      some (cloneShare (allocated s p np (.clone fcn arg stack) k) p np fcn arg stack ok) := by
  have hp : ((allocated s p np (.clone fcn arg stack) k).table p).state = .running := by
    rw [allocated_caller (found_ne hrun hfound)]
    exact hrun
  have hd : (allocated s p np (.clone fcn arg stack) k).doing p =
      .allocated (.clone fcn arg stack) np := update_self ..
  show (if _ = ProcState.running then own _ ((allocated s p np _ k).doing p) (.share p ok)
    else none) = _
  rw [if_pos hp, hd]
  rfl

variable (fcn arg k) in
include hrun hfound in
/-- The first two tests and the call of `copyout` leave the slot as `allocproc` made it. -/
theorem cloneShare_fails {ok : Bool} (hfails : ¬ (stack.toNat % pgsize = 0 ∧
      pgsize ≤ ((s.table p).sz - stack).toNat ∧ ok = true)) :
    ∃ t : State, cloneShare (allocated s p np (.clone fcn arg stack) k) p np fcn arg stack ok =
        t.ret p (-1) ∧ (t.table np).state = .embryo := by
  have hnp : ((allocated s p np (.clone fcn arg stack) k).table np).state = .embryo := by
    rw [allocated_slot]
  have hp : (allocated s p np (.clone fcn arg stack) k).table p = s.table p :=
    allocated_caller (found_ne hrun hfound)
  simp only [cloneShare, hp]
  split_ifs with haligned hsize hok
  · exact ⟨_, rfl, hnp⟩
  · exact ⟨_, rfl, hnp⟩
  · exact absurd ⟨not_not.mp haligned, not_lt.mp hsize, hok⟩ hfails
  · refine ⟨_, rfl, ?_⟩
    simp only [State.setEntry, update_self]
    exact hnp

variable (fcn arg k) in
include hrun hfound in
/-- When all tests pass, the call goes on to its last step. -/
theorem cloneShare_passes (haligned : stack.toNat % pgsize = 0)
    (hsize : pgsize ≤ ((s.table p).sz - stack).toNat) :
    ∃ t, cloneShare (allocated s p np (.clone fcn arg stack) k) p np fcn arg stack true = t ∧
      t.doing p = .filled (.clone fcn arg stack) np ∧ (t.table p).state = .running ∧
      (t.table np).pid = s.nextpid := by
  have hne := found_ne hrun hfound
  have hp : (allocated s p np (.clone fcn arg stack) k).table p = s.table p :=
    allocated_caller hne
  have hpid : ((allocated s p np (.clone fcn arg stack) k).table np).pid = s.nextpid := by
    rw [allocated_slot]
  refine ⟨_, rfl, ?_⟩
  simp only [cloneShare, hp, haligned, ne_eq, not_true_eq_false, if_false, not_lt.mpr hsize,
    if_true]
  refine ⟨update_self .., ?_, ?_⟩
  · simp only [State.setDoing, State.setEntry, update_of_ne hne.symm, hp]
    exact hrun
  · simp only [State.setDoing, State.setEntry, update_self]
    exact hpid

end Found

/-- Publishing the child and returning its `pid`. -/
theorem untilUser_ready {t : State} (hne : np ≠ p)
    (hd : t.doing p = .filled (.clone fcn arg stack) np) (hrun : (t.table p).state = .running) :
    ∃ s', untilUser p [.ready p, .cloned p] t = some s' ∧ s'.doing p = .user ∧
      s'.eax p = (t.table np).pid ∧ (s'.table np).state = .runnable := by
  have hready : next t (.ready p) =
      some ((t.setEntry np { t.table np with state := .runnable }).setDoing p (.started np)) := by
    show (if (t.table p).state = .running then own t (t.doing p) (.ready p) else none) = _
    rw [if_pos hrun, hd]
    rfl
  set u := (t.setEntry np { t.table np with state := .runnable }).setDoing p (.started np) with hu
  have hup : (u.table p).state = .running := by
    simp only [hu, State.setDoing, State.setEntry, update_of_ne hne.symm]
    exact hrun
  have hunp : u.table np = { t.table np with state := .runnable } := by
    simp only [hu, State.setDoing, State.setEntry, update_self]
  have hud : u.doing p = .started np := update_self ..
  have hcloned : next u (.cloned p) = some (u.ret p (u.table np).pid) := by
    show (if (u.table p).state = .running then own u (u.doing p) (.cloned p) else none) = _
    rw [if_pos hup, hud]
    rfl
  refine ⟨u.ret p (u.table np).pid, ?_, ret_doing _, ?_, ?_⟩
  · rw [untilUser_go hready (by rw [hud]; exact fun h => by cases h)]
    exact untilUser_stop hcloned (ret_doing _)
  · rw [ret_eax, hunp]
  · simp only [State.ret, State.setDoing, State.setEntry, update_of_ne hne, hunp]

end Call

/-! ## The three ways a call can go -/

section Outcomes

variable {s : State} {p np : Proc} {k : Nat} (fcn arg stack : BitVec 32)
  (pte : Nat → Addr → BitVec 32) (hrun : (s.table p).state = .running) (huser : s.doing p = .user)

include hrun huser

/-- No slot. -/
theorem clone_no_slot (hfound : foundSlot s = none) (page : Option Nat) :
    ∃ s', clone s p fcn arg stack page pte = some s' ∧ s'.doing p = .user ∧ s'.eax p = -1 ∧
      NoTrace s s' := by
  have hcreate := next_create (c := .clone fcn arg stack) hrun huser
  rw [allocproc_none hfound] at hcreate
  exact ⟨_, untilUser_stop hcreate (ret_doing _), ret_doing _, ret_eax _, ret_noTrace _⟩

/-- The first step of a call that finds a slot. -/
theorem clone_claims (hfound : foundSlot s = some np) (page : Option Nat) :
    clone s p fcn arg stack page pte = untilUser p [.kalloc p page,
      .share p (copyout (pte (s.table p).pgdir) (stack + pgbytes - 8) 8), .ready p, .cloned p]
      (allocproc s p (.clone fcn arg stack)) := by
  refine untilUser_go (next_create hrun huser) ?_
  rw [allocproc_found hfound]
  show update s.doing p (.claimed (.clone fcn arg stack) np) p ≠ .user
  rw [update_self]
  exact fun h => by cases h

/-- A slot, and no page for its kernel stack: the slot is given back. -/
theorem clone_no_page (hfound : foundSlot s = some np) :
    ∃ s', clone s p fcn arg stack none pte = some s' ∧ s'.doing p = .user ∧ s'.eax p = -1 ∧
      (NoTrace s s' ↔ (s.table np).kstack = 0) := by
  have hkalloc := next_kalloc (c := .clone fcn arg stack) hrun hfound none
  rw [allocKstack] at hkalloc
  refine ⟨_, (clone_claims fcn arg stack pte hrun huser hfound none).trans
    (untilUser_stop hkalloc (ret_doing _)), ret_doing _, ret_eax _, ?_⟩
  rw [noTrace_ret_iff, allocproc_found hfound]
  have hunused := foundSlot_unused hfound
  constructor
  · intro h
    have hslot := (h.slots np).2.2.2
    simp only [State.setEntry, update_self] at hslot
    exact hslot.symm
  · intro hzero
    refine ⟨fun q => ?_, rfl⟩
    by_cases hq : q = np
    · subst hq
      simp only [State.setEntry, update_self]
      exact ⟨hunused.symm, trivial, trivial, hzero.symm⟩
    · simp only [State.setEntry, update_of_ne hq, and_self]

/-- A slot and a kernel stack: the slot is not given back any more. -/
theorem clone_keeps_slot (hfound : foundSlot s = some np) (hfree : s.free k) :
    ∃ s', clone s p fcn arg stack (some k) pte = some s' ∧ s'.doing p = .user ∧
      s'.eax p = (if StackFits s p stack pte then s.nextpid else -1) ∧ ¬ NoTrace s s' := by
  have hne := found_ne hrun hfound
  have hkalloc := next_kalloc (c := .clone fcn arg stack) hrun hfound (some k)
  rw [allocKstack_some hfound hfree] at hkalloc
  have hgo : (allocated s p np (.clone fcn arg stack) k).doing p ≠ .user := by
    show update s.doing p (.allocated (.clone fcn arg stack) np) p ≠ .user
    rw [update_self]
    exact fun h => by cases h
  have hclone := (clone_claims fcn arg stack pte hrun huser hfound
    (some k)).trans (untilUser_go hkalloc hgo)
  have hunused := foundSlot_unused hfound
  by_cases hfits : StackFits s p stack pte
  · obtain ⟨haligned, hsize, hok⟩ := hfits
    obtain ⟨t, hshare, hd, htrun, hpid⟩ :=
      cloneShare_passes fcn arg k hrun hfound haligned hsize
    have hnext := next_share fcn arg stack k hrun hfound true
    rw [hshare] at hnext
    obtain ⟨s', hs', huser', heax, hstate⟩ := untilUser_ready hne hd htrun
    refine ⟨s', ?_, huser', ?_, fun h => ?_⟩
    · rw [hclone, hok, untilUser_go hnext (by rw [hd]; exact fun h => by cases h)]
      exact hs'
    · rw [if_pos ⟨haligned, hsize, hok⟩, heax, hpid]
    · have hslot := (h.slots np).1
      rw [hstate, hunused] at hslot
      cases hslot
  · obtain ⟨t, hshare, hstate⟩ := cloneShare_fails fcn arg k hrun hfound hfits
    have hnext := next_share fcn arg stack k hrun hfound
      (copyout (pte (s.table p).pgdir) (stack + pgbytes - 8) 8)
    rw [hshare] at hnext
    refine ⟨t.ret p (-1), ?_, ret_doing _, ?_, fun h => ?_⟩
    · rw [hclone]
      exact untilUser_stop hnext (ret_doing _)
    · rw [if_neg hfits, ret_eax]
    · have hslot := (((noTrace_ret_iff _).mp h).slots np).1
      rw [hstate, hunused] at hslot
      cases hslot

end Outcomes

/-- **A failed `clone`.** In every state and for all arguments the call returns. If what
it returns is -1, it leaves no trace, exactly if `allocproc` has failed or the call has
passed all its tests. -/
theorem clone_failure_iff (s : State) (p : Proc) (fcn arg stack : BitVec 32) (page : Option Nat)
    (pte : Nat → Addr → BitVec 32) (hrun : (s.table p).state = .running)
    (huser : s.doing p = .user) (hpage : ∀ k, page = some k → s.free k) :
    ∃ s', clone s p fcn arg stack page pte = some s' ∧ s'.doing p = .user ∧
      ((s'.eax p = -1 → NoTrace s s') ↔ FailsEarly s p stack page pte) := by
  unfold FailsEarly
  cases hfound : foundSlot s with
  | none =>
      obtain ⟨s', hs', huser', -, htrace⟩ :=
        clone_no_slot fcn arg stack pte hrun huser hfound page
      exact ⟨s', hs', huser', iff_of_true (fun _ => htrace) trivial⟩
  | some np =>
      cases page with
      | none =>
          obtain ⟨s', hs', huser', heax, htrace⟩ :=
            clone_no_page fcn arg stack pte hrun huser hfound
          exact ⟨s', hs', huser', (imp_iff_right heax).trans htrace⟩
      | some k =>
          obtain ⟨s', hs', huser', heax, htrace⟩ :=
            clone_keeps_slot fcn arg stack pte hrun huser hfound (hpage k rfl)
          refine ⟨s', hs', huser', ?_⟩
          dsimp only
          rw [heax]
          by_cases hfits : StackFits s p stack pte
          · rw [if_pos hfits]
            constructor
            · exact fun h => ⟨hfits, fun hpid => htrace (h hpid)⟩
            · exact fun h hpid => absurd hpid h.2
          · rw [if_neg hfits]
            constructor
            · exact fun h => absurd (h rfl) htrace
            · exact fun h => absurd h.1 hfits

/-- `initproc` has the processor for the first time. -/
def booted : State := (userinit 1 2).setEntry initproc
  { (userinit 1 2).table initproc with state := .running, chan := none }

theorem booted_reachable : system.Reachable booted := by
  have hinit : system.Reachable (userinit 1 2) :=
    .init ⟨1, 2, by decide, by decide, by decide, rfl⟩
  have hstep : system.next (userinit 1 2) (.schedule initproc) = some booted := rfl
  exact hinit.step hstep

/-- A call without a free page for the kernel stack. -/
theorem clone_failure_iff_no_page : ∃ s',
    clone booted initproc 0 0 1 none (fun _ _ => 0) = some s' ∧
    (s'.eax initproc = -1 → NoTrace booted s') := by
  obtain ⟨s', hs', -, htrace⟩ := clone_failure_iff booted initproc 0 0 1 none (fun _ _ => 0)
    rfl rfl (fun k hk => by cases hk)
  have hfound : foundSlot booted = some ⟨1, by decide⟩ := by decide +kernel
  refine ⟨s', hs', htrace.mpr ?_⟩
  unfold FailsEarly
  rw [hfound]
  rfl

/-- The stack page has no `PTE_U`, so `copyout` fails: the slot stays an `EMBRYO` with a
kernel stack, and a `join` of the caller sleeps on it. -/
theorem clone_leaves_trace : ∃ s', system.Reachable booted ∧ booted.free 3 ∧
    clone booted initproc 0 0 0 (some 3) (fun _ _ => pteP) = some s' ∧ s'.eax initproc = -1 ∧
    ¬ NoTrace booted s' ∧
    ((next s' (.join initproc)).bind (next · (.scan initproc))).any
      (fun t => (t.table initproc).state == .sleeping) = true := by
  have hfree : booted.free 3 := ⟨by decide, rfl⟩
  have hrun : (clone booted initproc 0 0 0 (some 3) (fun _ _ => pteP)).any (fun s' =>
      s'.eax initproc == -1 && s'.pages 3 &&
        ((next s' (.join initproc)).bind (next · (.scan initproc))).any
          fun t => (t.table initproc).state == .sleeping) = true := by
    decide +kernel
  obtain ⟨s', hs', hend⟩ := (Option.any_eq_true _ _).mp hrun
  simp only [Bool.and_eq_true, beq_iff_eq] at hend
  obtain ⟨⟨heax, hpage⟩, hjoin⟩ := hend
  refine ⟨s', booted_reachable, hfree, hs', heax, fun h => ?_, hjoin⟩
  rw [h.pages, hfree.2] at hpage
  cases hpage

end Os377.Xv6
