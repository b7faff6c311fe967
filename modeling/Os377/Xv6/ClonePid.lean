import Os377.Xv6.CloneFailure
import Os377.Xv6.Wakeup

/-!
# The `pid` that `clone` returns

`clone` makes the child `RUNNABLE`, releases `ptable.lock` and only then reads
`np->pid`. The child may have run and exited by then, but its slot is not given back:
only its parent can do that, in `wait` or `join`, and the parent is in `clone`.

`Deal` says what a step does to the part of an entry that counts here (`Card`).
`recorded` adds a history variable to the system: for each process the `pid` that
`allocproc` stored in its last call.
-/

namespace Os377.Xv6

open Os377.Lib Function

/-- An entry as far as its `pid` goes. -/
structure Card where
  pid : BitVec 32
  parent : Option Proc
  kind : Kind

def Entry.card (e : Entry) : Card := ⟨e.pid, e.parent, e.state.kind⟩

def State.cards (s : State) (q : Proc) : Card := (s.table q).card

/-- The cards after `exit` of `p`. -/
def exitCards (cards : Proc → Card) (p : Proc) : Proc → Card :=
  let passed := fun q => { cards q with
    parent := if (cards q).parent = some p then some initproc else (cards q).parent }
  update passed p { passed p with kind := .zombie }

/-- What a step does to the cards. -/
inductive Deal (s : State) : Act → (Proc → Card) → Prop
  | same {a} : Deal s a s.cards
  /-- `allocproc` finds a slot. -/
  | found {p c np} : foundSlot s = some np →
      Deal s (.create p c) (update s.cards np ⟨s.nextpid, (s.table np).parent, .embryo⟩)
  /-- A call goes on with the entry it builds. -/
  | build {a p np parent kind} : a.proc = some p → (s.doing p).stage.target = some np →
      Deal s a (update s.cards np ⟨(s.table np).pid, parent, kind⟩)
  | exit {p} : (s.table p).state = .running → Deal s (.exit p) (exitCards s.cards p)
  | reap {p q} : (s.table q).state = .zombie → (s.table q).parent = some p →
      Deal s (.scan p) (update s.cards q ⟨0, none, .unused⟩)

/-- A step deals, and puts no other process to another place in its call. -/
structure Dealt (s : State) (a : Act) (s' : State) : Prop where
  deal : Deal s a s'.cards
  others : ∀ q, a.proc ≠ some q → s'.doing q = s.doing q

section Cards

variable (s : State) (p : Proc)

theorem cards_setEntry (e : Entry) : (s.setEntry p e).cards = update s.cards p e.card := by
  funext q
  by_cases hq : q = p
  · subst hq
    simp [State.cards, State.setEntry]
  · simp [State.cards, State.setEntry, hq]

theorem card_setEntry (e : Entry) : (s.setEntry p e).cards p = e.card := by
  rw [cards_setEntry, update_self]

/-- Changing only what the card does not show. -/
theorem cards_setEntry_self (e : Entry) (h : e.card = (s.table p).card) :
    (s.setEntry p e).cards = s.cards := by
  rw [cards_setEntry, h]
  exact update_eq_self p s.cards

@[simp] theorem cards_setDoing (d : Doing) : (s.setDoing p d).cards = s.cards := rfl

@[simp] theorem cards_take (a : Nat) : (s.take a).cards = s.cards := rfl

@[simp] theorem cards_kfree (a : Nat) : (s.kfree a).cards = s.cards := rfl

theorem cards_setLeader (l : Proc → Option Proc) :
    ({ s with leader := l } : State).cards = s.cards := rfl

@[simp] theorem cards_ret (v : BitVec 32) : (s.ret p v).cards = s.cards :=
  cards_setEntry_self s p _ rfl

@[simp] theorem cards_wakeup1 (c : Option Chan) : (s.wakeup1 c).cards = s.cards := by
  funext q
  simp only [State.cards, State.wakeup1, Entry.wakeup1]
  split
  · next h => simp only [Entry.card, h.1, ProcState.kind]
  · rfl

theorem cards_sleep (h : (s.table p).state = .running) (c : Chan) :
    (s.sleep p c).cards = s.cards :=
  cards_setEntry_self s p _ (by simp only [Entry.card, h, ProcState.kind])

end Cards

/-! ## Function by function -/

section Dealt

variable {s s' : State} {a : Act} {p np : Proc} {d : Doing}

theorem dealt_update (hap : a.proc = some p) (hdeal : Deal s a s'.cards)
    (hd : s'.doing = update s.doing p d) : Dealt s a s' := by
  refine ⟨hdeal, fun q hq => ?_⟩
  have hqp : q ≠ p := by
    rintro rfl
    exact hq hap
  rw [hd, update_of_ne hqp]

theorem dealt_quiet (hcards : s'.cards = s.cards) (hd : s'.doing = s.doing) : Dealt s a s' := by
  refine ⟨?_, fun q _ => by rw [hd]⟩
  rw [hcards]
  exact .same

/-- A call that ends, or goes to another place, without touching the table. -/
theorem dealt_self (hap : a.proc = some p) (hcards : s'.cards = s.cards)
    (hd : s'.doing = update s.doing p d) : Dealt s a s' := by
  refine dealt_update hap ?_ hd
  rw [hcards]
  exact .same

theorem allocproc_dealt (c : Call) : Dealt s (.create p c) (allocproc s p c) := by
  cases hfound : foundSlot s with
  | none =>
      rw [allocproc_none hfound]
      exact dealt_self rfl (cards_ret s p _) rfl
  | some np =>
      rw [allocproc_found hfound]
      refine dealt_update rfl ?_ rfl
      have hcards : ({ s with
          table := update s.table np { s.table np with state := .embryo, pid := s.nextpid }
          nextpid := s.nextpid + 1
          doing := update s.doing p (.claimed c np) } : State).cards =
          update s.cards np ⟨s.nextpid, (s.table np).parent, .embryo⟩ := cards_setEntry s np _
      rw [hcards]
      exact .found hfound

theorem allocKstack_dealt {c : Call} (hd : s.doing p = .claimed c np) {page : Option Nat}
    (h : allocKstack s p c np page = some s') : Dealt s (.kalloc p page) s' := by
  have hst : (s.doing p).stage.target = some np := by rw [hd]; rfl
  cases page with
  | none =>
      simp only [allocKstack, Option.some.injEq] at h
      subst h
      refine dealt_update (p := p) rfl ?_ rfl
      rw [cards_ret, cards_setEntry]
      exact .build rfl hst
  | some k =>
      simp only [allocKstack, Option.ite_none_right_eq_some, Option.some.injEq] at h
      obtain ⟨-, rfl⟩ := h
      refine dealt_self (p := p) rfl ?_ rfl
      rw [cards_setDoing]
      exact cards_setEntry_self _ np _ rfl

theorem forkCopy_dealt (hd : s.doing p = .allocated .fork np) {page : Option Nat}
    (h : forkCopy s p np page = some s') : Dealt s (.copyuvm p page) s' := by
  have hst : (s.doing p).stage.target = some np := by rw [hd]; rfl
  cases page with
  | none =>
      simp only [forkCopy, Option.some.injEq] at h
      subst h
      refine dealt_update (p := p) rfl ?_ rfl
      rw [cards_ret, cards_setEntry, cards_kfree]
      exact .build rfl hst
  | some d =>
      simp only [forkCopy, Option.ite_none_right_eq_some, Option.some.injEq] at h
      obtain ⟨-, rfl⟩ := h
      refine dealt_update (p := p) rfl ?_ rfl
      rw [cards_setDoing, cards_setLeader, cards_setEntry, cards_take]
      exact .build rfl hst

theorem cloneShare_dealt {fcn arg stack : BitVec 32}
    (hd : s.doing p = .allocated (.clone fcn arg stack) np) (ok : Bool) :
    Dealt s (.share p ok) (cloneShare s p np fcn arg stack ok) := by
  have hst : (s.doing p).stage.target = some np := by rw [hd]; rfl
  rw [cloneShare]
  dsimp only
  split_ifs with haligned hsize hok
  · exact dealt_self rfl (cards_ret s p _) rfl
  · exact dealt_self rfl (cards_ret s p _) rfl
  · refine dealt_update (p := p) rfl ?_ rfl
    rw [cards_setDoing, cards_setEntry, cards_setLeader]
    exact .build rfl hst
  · refine dealt_update (p := p) rfl ?_ rfl
    rw [cards_ret, cards_setEntry, cards_setLeader]
    exact .build rfl hst

theorem ready_dealt {c : Call} (hd : s.doing p = .filled c np) :
    Dealt s (.ready p) (ready s p c np) := by
  have hst : (s.doing p).stage.target = some np := by rw [hd]; rfl
  cases c with
  | fork =>
      refine dealt_update (p := p) rfl ?_ rfl
      rw [ready, cards_ret, cards_setEntry]
      exact .build rfl hst
  | clone fcn arg stack =>
      refine dealt_update (p := p) rfl ?_ rfl
      rw [ready, cards_setDoing, cards_setEntry]
      exact .build rfl hst

/-- The children of `p` passed to `initproc`. -/
theorem cards_reparent (s : State) (p : Proc) :
    ({ s with table := fun q => (s.table q).reparent p } : State).cards = fun q =>
      { s.cards q with
        parent := if (s.cards q).parent = some p then some initproc else (s.cards q).parent } := by
  funext q
  by_cases hpar : (s.table q).parent = some p
  · simp only [State.cards, Entry.reparent, Entry.card, hpar, if_true]
  · simp only [State.cards, Entry.reparent, Entry.card, hpar, if_false]

theorem exit_dealt (hp : (s.table p).state = .running) : Dealt s (.exit p) (exit s p) := by
  have hzombie : ∀ t : State, t.cards = (fun q => { s.cards q with
        parent := if (s.cards q).parent = some p then some initproc else (s.cards q).parent }) →
      (t.setEntry p { t.table p with state := .zombie }).cards = exitCards s.cards p := by
    intro t ht
    rw [cards_setEntry, exitCards, ← ht]
    rfl
  have hreparent := cards_reparent (s.wakeup1 ((s.table p).parent.map .proc)) p
  rw [cards_wakeup1] at hreparent
  have hcards : (exit s p).cards = exitCards s.cards p := by
    unfold exit
    dsimp only
    split_ifs
    · exact hzombie _ ((cards_wakeup1 _ _).trans hreparent)
    · exact hzombie _ hreparent
  refine ⟨hcards ▸ .exit hp, fun q _ => ?_⟩
  rw [exit_doing]

theorem scanChildren_dealt {mine : Proc → Bool} {collect : State → Proc → Option State}
    (hp : (s.table p).state = .running)
    (hmine : ∀ q, mine q = true → (s.table q).parent = some p)
    (hcollect : ∀ q t, collect s q = some t → t.cards = (reap s q).cards ∧ t.doing = s.doing)
    (h : scanChildren s p mine collect = some s') : Dealt s (.scan p) s' := by
  rw [scanChildren] at h
  cases hz : zombieOf s mine with
  | none =>
      simp only [hz] at h
      split_ifs at h
      · rw [← Option.some.inj h]
        exact dealt_self rfl (cards_ret s p _) rfl
      · rw [← Option.some.inj h]
        exact dealt_quiet (cards_sleep s p hp _) rfl
  | some q =>
      obtain ⟨hq, hzombie⟩ := zombieOf_some hz
      simp only [hz, Option.map_eq_some_iff] at h
      obtain ⟨t, ht, rfl⟩ := h
      obtain ⟨hcards, hdoing⟩ := hcollect q t ht
      refine dealt_update (p := p) rfl ?_ (show _ = update s.doing p .user by rw [← hdoing]; rfl)
      have hreap : (reap s q).cards = update s.cards q ⟨0, none, .unused⟩ := by
        rw [reap, cards_setLeader, cards_setEntry, cards_kfree]
        rfl
      rw [cards_ret, hcards, hreap]
      exact .reap hzombie (hmine q hq)

theorem kill_dealt (pid : BitVec 32) : Dealt s (.kill p pid) (kill s p pid) := by
  have hself : ∀ q, (s.setEntry q (s.table q).kill).cards = s.cards := by
    intro q
    refine cards_setEntry_self s q _ ?_
    simp only [Entry.card, Entry.kill]
    split
    · next h => simp only [h, ProcState.kind]
    · rfl
  rw [kill]
  cases slots.find? (fun q => (s.table q).pid == pid) with
  | none => exact dealt_self (p := p) rfl (cards_ret s p _) rfl
  | some q =>
      refine dealt_self (p := p) rfl ?_ rfl
      rw [cards_ret, hself]

theorem wait_dealt (hp : (s.table p).state = .running) (h : wait s p = some s') :
    Dealt s (.scan p) s' := by
  refine scanChildren_dealt hp (fun q hq => ?_) (fun q t ht => ?_) h
  · simpa only [childOf, beq_iff_eq] using hq
  · rw [State.freevm] at ht
    split_ifs at ht
    rw [← Option.some.inj ht]
    exact ⟨cards_kfree _ _, rfl⟩

theorem join_dealt (hp : (s.table p).state = .running) (h : join s p = some s') :
    Dealt s (.scan p) s' := by
  refine scanChildren_dealt hp (fun q hq => ?_) (fun q t ht => ?_) h
  · simp only [threadOf, Bool.and_eq_true, beq_iff_eq] at hq
    exact hq.2
  · rw [← Option.some.inj ht]
    exact ⟨rfl, rfl⟩

theorem execSetup_dealt {page : Option Nat} (h : execSetup s p page = some s') :
    Dealt s (.exec p page) s' := by
  cases page with
  | none =>
      simp only [execSetup, Option.some.injEq] at h
      exact h ▸ dealt_self (p := p) rfl (cards_ret s p _) rfl
  | some d =>
      simp only [execSetup, Option.ite_none_right_eq_some, Option.some.injEq] at h
      obtain ⟨-, rfl⟩ := h
      exact dealt_self (p := p) rfl rfl rfl

theorem execCommit_dealt {pgdir : Nat} {sz eip esp : BitVec 32}
    (h : execCommit s p pgdir sz eip esp = some s') : Dealt s (.execCommit p sz eip esp) s' := by
  simp only [execCommit, State.freevm] at h
  split_ifs at h
  · cases h
  · rw [Option.map_some, Option.some.injEq] at h
    subst h
    refine dealt_self (p := p) rfl ?_ rfl
    rw [cards_ret, cards_kfree, cards_setLeader]
    exact cards_setEntry_self s p _ rfl

theorem execBad_dealt {pgdir : Nat} (h : execBad s p pgdir = some s') :
    Dealt s (.execBad p) s' := by
  simp only [execBad, State.freevm] at h
  split_ifs at h
  · cases h
  · rw [Option.map_some, Option.some.injEq] at h
    subst h
    exact dealt_self (p := p) rfl (cards_ret _ p _) rfl

/-- A step of a running process, call by call. -/
theorem own_dealt (hp : (s.table p).state = .running) (h : OwnStep s p s' a) : Dealt s a s' := by
  cases h with
  | sleep hd hs => exact hs ▸ dealt_quiet (cards_sleep s p hp _) rfl
  | create hd hs => exact hs ▸ allocproc_dealt _
  | kalloc hd hs => exact allocKstack_dealt hd hs
  | copyuvm hd hs => exact forkCopy_dealt hd hs
  | share hd hs => exact hs ▸ cloneShare_dealt hd _
  | ready hd hs => exact hs ▸ ready_dealt hd
  | cloned hd hs => exact hs ▸ dealt_self rfl (cards_ret s p _) rfl
  | exit hd hinit hs => exact hs ▸ exit_dealt hp
  | wait hd hs | join hd hs => exact hs ▸ dealt_self rfl (cards_setDoing s p _) rfl
  | waitScan hd hs => exact wait_dealt hp hs
  | joinScan hd hs => exact join_dealt hp hs
  | exec hd hs => exact execSetup_dealt hs
  | execCommit hd hs => exact execCommit_dealt hs
  | execBad hd hs => exact execBad_dealt hs
  | kill hd hs => exact hs ▸ kill_dealt _

/-- **Everything a step can do to a `pid`, a parent and a kind.** -/
theorem next_dealt (h : next s a = some s') : Dealt s a s' := by
  cases next_step h with
  | wakeup hs => exact hs ▸ dealt_quiet (cards_wakeup1 s _) rfl
  | @schedule p hp hs | @yield p hp hs =>
      subst hs
      refine dealt_quiet (cards_setEntry_self s p _ ?_) rfl
      simp only [Entry.card, hp, ProcState.kind]
  | own _ hp hown => exact own_dealt hp hown

end Dealt

/-! ## The child of a call -/

/-- What is known of the child of `p`'s call, when `allocproc` has stored `pid` in it. -/
def Tagged (cards : Proc → Card) (p : Proc) (pid : BitVec 32) : Doing → Prop
  | .claimed _ np | .allocated _ np => (cards np).pid = pid
  | .filled _ np => (cards np).pid = pid ∧ (cards np).parent = some p
  | .started np => (cards np).pid = pid ∧ (cards np).parent = some p ∧
      ((cards np).kind = .active ∨ (cards np).kind = .zombie)
  | _ => True

/-- The `pid` that `allocproc` stored in the last call of each process. -/
def assign (s : State) (a : Act) (assigned : Proc → BitVec 32) : Proc → BitVec 32 :=
  match a with
  | .create p _ => if (foundSlot s).isSome then update assigned p s.nextpid else assigned
  | _ => assigned

def recorded : TSys (State × (Proc → BitVec 32)) Act := system.record (fun _ => 0) assign

/-- Everybody's child carries its `pid`. -/
structure PidInv (x : State × (Proc → BitVec 32)) : Prop where
  roles : Roles x.1.view
  tagged : ∀ p, Tagged x.1.cards p (x.2 p) (x.1.doing p)

section Keeps

variable {s s' : State} {a : Act} {p q r np : Proc} {pid : BitVec 32} {cards : Proc → Card}

/-- `exit` of somebody else, seen by an entry whose parent is `p`. -/
theorem exitCards_other (cards : Proc → Card) (hrp : r ≠ p) (hq : q ≠ r) :
    (exitCards cards r q).pid = (cards q).pid ∧ (exitCards cards r q).kind = (cards q).kind ∧
      ((cards q).parent = some p → (exitCards cards r q).parent = some p) := by
  rw [exitCards, update_of_ne hq]
  refine ⟨rfl, rfl, fun hpar => ?_⟩
  have hne : ¬ (cards q).parent = some r := by
    rw [hpar]
    exact fun h => hrp (Option.some.inj h).symm
  exact (if_neg hne).trans hpar

/-- The step of another process leaves an entry under construction its `pid` and, if it
has got its parent, that. -/
theorem Deal.embryo (hR : Roles s.view) (h : Deal s a cards) (hother : a.proc ≠ some p)
    (hnp : (s.doing p).stage.target = some np) :
    (cards np).pid = (s.cards np).pid ∧
      ((s.cards np).parent = some p → (cards np).parent = some p) := by
  have hkind : (s.table np).state.kind = .embryo := hR.embryo p np hnp
  cases h with
  | same => exact ⟨rfl, id⟩
  | @found r c m hfound =>
      have hne : np ≠ m := by
        rintro rfl
        rw [foundSlot_unused hfound] at hkind
        cases hkind
      rw [update_of_ne hne]
      exact ⟨rfl, id⟩
  | @build a r m parent kind hr ht =>
      have hne : np ≠ m := by
        rintro rfl
        have hrp : r = p := hR.single r p np ht hnp
        exact hother (hrp ▸ hr)
      rw [update_of_ne hne]
      exact ⟨rfl, id⟩
  | @exit r hrun =>
      have hne : np ≠ r := by
        rintro rfl
        rw [hrun] at hkind
        cases hkind
      obtain ⟨hpid, -, hpar⟩ := exitCards_other s.cards
        (fun hrp : r = p => hother (congrArg some hrp)) hne
      exact ⟨hpid, hpar⟩
  | @reap r m hzombie hpar =>
      have hne : np ≠ m := by
        rintro rfl
        rw [hzombie] at hkind
        cases hkind
      rw [update_of_ne hne]
      exact ⟨rfl, id⟩

/-- It leaves a child that can run to its parent: only the parent can give the slot
back. -/
theorem Deal.started (hR : Roles s.view) (h : Deal s a cards) (hother : a.proc ≠ some p)
    (hpar : (s.cards np).parent = some p)
    (hkind : (s.cards np).kind = .active ∨ (s.cards np).kind = .zombie) :
    (cards np).pid = (s.cards np).pid ∧ (cards np).parent = some p ∧
      ((cards np).kind = .active ∨ (cards np).kind = .zombie) := by
  have hstays : ∀ {m : Proc} {card : Card}, np ≠ m →
      (update s.cards m card np).pid = (s.cards np).pid ∧
        (update s.cards m card np).parent = some p ∧
        ((update s.cards m card np).kind = .active ∨
          (update s.cards m card np).kind = .zombie) := by
    intro m card hne
    rw [update_of_ne hne]
    exact ⟨rfl, hpar, hkind⟩
  cases h with
  | same => exact ⟨rfl, hpar, hkind⟩
  | @found r c m hfound =>
      refine hstays ?_
      rintro rfl
      have hunused : (s.cards np).kind = .unused := by
        rw [State.cards, Entry.card, foundSlot_unused hfound]
        rfl
      rw [hunused] at hkind
      rcases hkind with hkind | hkind <;> cases hkind
  | @build a r m parent kind hr ht =>
      refine hstays ?_
      rintro rfl
      have hembryo : (s.cards np).kind = .embryo := hR.embryo r np ht
      rw [hembryo] at hkind
      rcases hkind with hkind | hkind <;> cases hkind
  | @exit r hrun =>
      have hrp : r ≠ p := fun hrp => hother (congrArg some hrp)
      by_cases hne : np = r
      · -- the child itself exits
        subst hne
        have hpassed : ¬ (s.cards np).parent = some np := by
          rw [hpar]
          exact fun h => hrp (Option.some.inj h).symm
        rw [exitCards, update_self]
        exact ⟨rfl, (if_neg hpassed).trans hpar, Or.inr rfl⟩
      · obtain ⟨hpid, hsame, hparent⟩ := exitCards_other s.cards hrp hne
        exact ⟨hpid, hparent hpar, hsame ▸ hkind⟩
  | @reap r m hzombie hchild =>
      refine hstays ?_
      rintro rfl
      have hrp : some r = some p := hchild.symm.trans hpar
      exact hother hrp

/-- The step of another process. -/
theorem Tagged.other (hR : Roles s.view) (h : Deal s a cards) (hother : a.proc ≠ some p)
    (ht : Tagged s.cards p pid (s.doing p)) : Tagged cards p pid (s.doing p) := by
  cases hd : s.doing p with
  | claimed c np | allocated c np =>
      rw [hd] at ht
      exact (h.embryo hR hother (by rw [hd]; rfl)).1.trans ht
  | filled c np =>
      rw [hd] at ht
      have htarget : (s.doing p).stage.target = some np := by rw [hd]; rfl
      obtain ⟨hpid, hpar⟩ := h.embryo hR hother htarget
      exact ⟨hpid.trans ht.1, hpar ht.2⟩
  | started np =>
      rw [hd] at ht
      obtain ⟨hpid, hrest⟩ := h.started hR hother ht.2.1 ht.2.2
      exact ⟨hpid.trans ht.1, hrest⟩
  | user | waiting | joining | execing => trivial

end Keeps

/-! ## The steps of the call -/

/-- Inside `clone`. -/
def InClone : Doing → Prop
  | .claimed (.clone ..) _ | .allocated (.clone ..) _ | .filled (.clone ..) _ | .started _ => True
  | _ => False

/-- The step `a` from `s` to `s'` ends a call of `clone` by `p`. -/
structure Returns (s : State) (p : Proc) (a : Act) (s' : State) : Prop where
  proc : a.proc = some p
  call : InClone (s.doing p) ∨ ∃ fcn arg stack, a = .create p (.clone fcn arg stack)
  back : s'.doing p = .user

/-- After a step of `p`: its child, and the value if `clone` returns. -/
structure Follows (s : State) (p : Proc) (pid : BitVec 32) (a : Act) (s' : State) : Prop where
  tagged : Tagged s'.cards p pid (s'.doing p)
  value : Returns s p a s' → s'.eax p = -1 ∨ s'.eax p = pid

section Own

variable {s s' : State} {a : Act} {p np : Proc} {pid : BitVec 32}

/-- A step outside `clone`, and of no other call that builds an entry. -/
theorem follows_idle (hcall : ¬ InClone (s.doing p))
    (hcreate : ∀ c, a ≠ .create p c) (htagged : Tagged s'.cards p pid (s'.doing p)) :
    Follows s p pid a s' := by
  refine ⟨htagged, fun h => ?_⟩
  rcases h.call with hin | ⟨fcn, arg, stack, rfl⟩
  · exact absurd hin hcall
  · exact absurd rfl (hcreate _)

/-- A call that gives up. -/
theorem follows_fail {t : State} (hs' : s' = t.ret p (-1)) : Follows s p pid a s' := by
  subst hs'
  refine ⟨?_, fun _ => Or.inl (ret_eax _)⟩
  rw [ret_doing]
  trivial

/-- A call that goes on. -/
theorem follows_on {t : State} {d : Doing} (hs' : s' = t.setDoing p d) (hbusy : d ≠ .user)
    (htagged : Tagged t.cards p pid d) : Follows s p pid a s' := by
  subst hs'
  have hdoing : (t.setDoing p d).doing p = d := update_self ..
  refine ⟨?_, fun h => absurd (hdoing.symm.trans h.back) hbusy⟩
  rw [hdoing, cards_setDoing]
  exact htagged

theorem create_follows (c : Call) (assigned : Proc → BitVec 32) :
    Follows s p (assign s (.create p c) assigned p) (.create p c) (allocproc s p c) := by
  cases hfound : foundSlot s with
  | none => exact follows_fail (allocproc_none hfound)
  | some np =>
      have hpid : assign s (.create p c) assigned p = s.nextpid := by
        simp only [assign, hfound, Option.isSome_some, if_true, update_self]
      have hstate : allocproc s p c = (({ s with nextpid := s.nextpid + 1 } : State).setEntry np
          { s.table np with state := .embryo, pid := s.nextpid }).setDoing p (.claimed c np) :=
        allocproc_found hfound
      refine follows_on hstate (fun h => by cases h) ?_
      show (State.cards _ np).pid = _
      rw [card_setEntry, hpid]
      rfl

theorem kalloc_follows {c : Call} {page : Option Nat}
    (h : allocKstack s p c np page = some s') (ht : (s.cards np).pid = pid) :
    Follows s p pid (.kalloc p page) s' := by
  cases page with
  | none =>
      simp only [allocKstack, Option.some.injEq] at h
      exact follows_fail h.symm
  | some k =>
      simp only [allocKstack, Option.ite_none_right_eq_some, Option.some.injEq] at h
      refine follows_on h.2.symm (fun h => by cases h) ?_
      show (State.cards _ np).pid = pid
      rw [card_setEntry]
      exact ht

theorem copyuvm_follows {page : Option Nat} (h : forkCopy s p np page = some s')
    (ht : (s.cards np).pid = pid) : Follows s p pid (.copyuvm p page) s' := by
  cases page with
  | none =>
      simp only [forkCopy, Option.some.injEq] at h
      exact follows_fail h.symm
  | some d =>
      simp only [forkCopy, Option.ite_none_right_eq_some, Option.some.injEq] at h
      refine follows_on h.2.symm (fun h => by cases h) ?_
      show (State.cards _ np).pid = pid ∧ (State.cards _ np).parent = some p
      rw [cards_setLeader, card_setEntry]
      exact ⟨ht, rfl⟩

theorem share_follows {fcn arg stack : BitVec 32} (ok : Bool) (ht : (s.cards np).pid = pid) :
    Follows s p pid (.share p ok) (cloneShare s p np fcn arg stack ok) := by
  rw [cloneShare]
  dsimp only
  split_ifs with haligned hsize hok
  · exact follows_fail rfl
  · exact follows_fail rfl
  · refine follows_on rfl (fun h => by cases h) ?_
    show (State.cards _ np).pid = pid ∧ (State.cards _ np).parent = some p
    rw [card_setEntry]
    exact ⟨ht, rfl⟩
  · exact follows_fail rfl

theorem ready_follows {c : Call} (hd : s.doing p = .filled c np) (hpid : (s.cards np).pid = pid)
    (hpar : (s.cards np).parent = some p) : Follows s p pid (.ready p) (ready s p c np) := by
  cases c with
  | fork =>
      refine follows_idle (by rw [hd]; exact id) (fun c h => by cases h) ?_
      rw [ready, ret_doing]
      trivial
  | clone fcn arg stack =>
      refine follows_on rfl (fun h => by cases h) ?_
      show (State.cards _ np).pid = pid ∧ (State.cards _ np).parent = some p ∧
        ((State.cards _ np).kind = .active ∨ (State.cards _ np).kind = .zombie)
      rw [card_setEntry]
      exact ⟨hpid, hpar, Or.inl rfl⟩

/-- The read of `np->pid`. -/
theorem cloned_follows (hpid : (s.cards np).pid = pid) :
    Follows s p pid (.cloned p) (s.ret p (s.table np).pid) := by
  refine ⟨?_, fun _ => Or.inr ((ret_eax _).trans hpid)⟩
  rw [ret_doing]
  trivial

/-- In user mode, or in a call that builds no entry. -/
def Outside : Doing → Prop
  | .user | .waiting | .joining | .execing _ => True
  | _ => False

theorem Outside.tagged {cards : Proc → Card} {d : Doing} (hd : Outside d) :
    Tagged cards p pid d := by
  cases d with
  | user | waiting | joining | execing => trivial
  | claimed | allocated | filled | started => exact hd.elim

theorem outside_at {d : Doing} (hdoing : s.doing p = d) (hd : Outside d) :
    Outside (s.doing p) := hdoing ▸ hd

/-- A step of another call. -/
theorem follows_outside (hd : Outside (s.doing p)) (hcreate : ∀ c, a ≠ .create p c)
    (hd' : Outside (s'.doing p)) : Follows s p pid a s' := by
  refine follows_idle (fun hin => ?_) hcreate hd'.tagged
  cases hdoing : s.doing p with
  | user | waiting | joining | execing =>
      rw [hdoing] at hin
      exact hin
  | claimed | allocated | filled | started =>
      rw [hdoing] at hd
      exact hd

theorem outside_ret (t : State) (v : BitVec 32) : Outside ((t.ret p v).doing p) := by
  rw [ret_doing]
  trivial

theorem outside_setDoing (t : State) {d : Doing} (hd : Outside d) :
    Outside ((t.setDoing p d).doing p) := outside_at (update_self ..) hd

theorem scanChildren_outside {mine : Proc → Bool} {collect : State → Proc → Option State}
    (hd : Outside (s.doing p)) (h : scanChildren s p mine collect = some s') :
    Outside (s'.doing p) := by
  rw [scanChildren] at h
  cases hz : zombieOf s mine with
  | none =>
      simp only [hz] at h
      split_ifs at h
      · rw [← Option.some.inj h]
        exact outside_ret s _
      · rw [← Option.some.inj h]
        exact hd
  | some q =>
      simp only [hz, Option.map_eq_some_iff] at h
      obtain ⟨t, -, rfl⟩ := h
      exact outside_ret t _

theorem execSetup_outside {page : Option Nat} (h : execSetup s p page = some s') :
    Outside (s'.doing p) := by
  cases page with
  | none =>
      simp only [execSetup, Option.some.injEq] at h
      exact h ▸ outside_ret s _
  | some d =>
      simp only [execSetup, Option.ite_none_right_eq_some, Option.some.injEq] at h
      exact h.2 ▸ outside_setDoing _ trivial

theorem execCommit_outside {pgdir : Nat} {sz eip esp : BitVec 32}
    (h : execCommit s p pgdir sz eip esp = some s') : Outside (s'.doing p) := by
  simp only [execCommit, Option.map_eq_some_iff] at h
  obtain ⟨t, -, rfl⟩ := h
  exact outside_ret t _

theorem execBad_outside {pgdir : Nat} (h : execBad s p pgdir = some s') :
    Outside (s'.doing p) := by
  simp only [execBad, Option.map_eq_some_iff] at h
  obtain ⟨t, -, rfl⟩ := h
  exact outside_ret t _

theorem kill_outside (pid : BitVec 32) : Outside ((kill s p pid).doing p) := by
  rw [kill]
  split <;> exact outside_ret _ _

/-- A step of `p`, call by call. -/
theorem own_follows {assigned : Proc → BitVec 32} (h : OwnStep s p s' a)
    (ht : Tagged s.cards p (assigned p) (s.doing p)) :
    Follows s p (assign s a assigned p) a s' := by
  cases h with
  | sleep hd hs =>
      have hout : Outside (s.doing p) := by
        rcases hd with hd | ⟨d, hd⟩ <;> exact outside_at hd trivial
      exact hs ▸ follows_outside hout (fun c h => by cases h) hout
  | create hd hs => exact hs ▸ create_follows _ assigned
  | kalloc hd hs =>
      rw [hd] at ht
      exact kalloc_follows hs ht
  | copyuvm hd hs =>
      rw [hd] at ht
      exact copyuvm_follows hs ht
  | share hd hs =>
      rw [hd] at ht
      exact hs ▸ share_follows _ ht
  | ready hd hs =>
      rw [hd] at ht
      exact hs ▸ ready_follows hd ht.1 ht.2
  | cloned hd hs =>
      rw [hd] at ht
      exact hs ▸ cloned_follows ht.1
  | exit hd hinit hs =>
      subst hs
      have hout := outside_at hd trivial
      exact follows_outside hout (fun c h => by cases h) (by rw [exit_doing]; exact hout)
  | wait hd hs | join hd hs =>
      subst hs
      exact follows_outside (outside_at hd trivial) (fun c h => by cases h)
        (outside_setDoing s trivial)
  | waitScan hd hs | joinScan hd hs =>
      have hout := outside_at hd trivial
      exact follows_outside hout (fun c h => by cases h) (scanChildren_outside hout hs)
  | exec hd hs =>
      exact follows_outside (outside_at hd trivial) (fun c h => by cases h) (execSetup_outside hs)
  | execCommit hd hs =>
      exact follows_outside (outside_at hd trivial) (fun c h => by cases h) (execCommit_outside hs)
  | execBad hd hs =>
      exact follows_outside (outside_at hd trivial) (fun c h => by cases h) (execBad_outside hs)
  | kill hd hs =>
      subst hs
      exact follows_outside (outside_at hd trivial) (fun c h => by cases h) (kill_outside _)

/-- A step of `p`. -/
theorem next_follows {assigned : Proc → BitVec 32} (hap : a.proc = some p)
    (h : next s a = some s') (ht : Tagged s.cards p (assigned p) (s.doing p)) :
    Follows s p (assign s a assigned p) a s' := by
  cases next_step h with
  | schedule | wakeup => cases hap
  | @yield q hq hs =>
      subst hs
      have hcards : (s.setEntry q { s.table q with state := .runnable }).cards = s.cards := by
        refine cards_setEntry_self s q _ ?_
        simp only [Entry.card, hq, ProcState.kind]
      refine ⟨by rw [hcards]; exact ht, fun hret => ?_⟩
      -- the process stays where it was in its call
      have huser : s.doing p = .user := hret.back
      rcases hret.call with hin | ⟨fcn, arg, stack, hcreate⟩
      · rw [huser] at hin
        exact hin.elim
      · cases hcreate
  | own hq _ hown =>
      obtain rfl := Option.some.inj (hap.symm.trans hq)
      exact own_follows hown ht

end Own

/-! ## Every run -/

section Runs

variable {s s' : State} {a : Act} {p : Proc}

theorem assign_other (h : a.proc ≠ some p) (assigned : Proc → BitVec 32) :
    assign s a assigned p = assigned p := by
  cases a with
  | create q c =>
      have hne : p ≠ q := fun hpq => h (congrArg some hpq.symm)
      rw [assign]
      split
      · exact update_of_ne hne _ _
      · rfl
  | _ => rfl

theorem PidInv.step {assigned : Proc → BitVec 32} (hI : PidInv (s, assigned))
    (h : next s a = some s') : PidInv (s', assign s a assigned) := by
  refine ⟨hI.roles.step (step_change h), fun p => ?_⟩
  by_cases hap : a.proc = some p
  · exact (next_follows hap h (hI.tagged p)).tagged
  · have hdealt := next_dealt h
    show Tagged s'.cards p (assign s a assigned p) (s'.doing p)
    rw [assign_other hap, hdealt.others p hap]
    exact (hI.tagged p).other hI.roles hdealt.deal hap

theorem recorded_next {x x' : State × (Proc → BitVec 32)} (h : recorded.next x a = some x') :
    next x.1 a = some x'.1 ∧ x'.2 = assign x.1 a x.2 := by
  obtain ⟨s', hs', rfl⟩ := Option.map_eq_some_iff.mp h
  exact ⟨hs', rfl⟩

theorem recorded_inv : recorded.Invariant PidInv := by
  refine TSys.Inductive.invariant ⟨?_, ?_⟩
  · rintro ⟨s, assigned⟩ ⟨⟨kstack, pgdir, hk, hd, hne, rfl⟩, -⟩
    exact ⟨(inv_userinit hk hd hne).roles, fun p => trivial⟩
  · rintro ⟨s, assigned⟩ a x' hI - h
    obtain ⟨hnext, hassigned⟩ := recorded_next h
    have hstep := hI.step hnext
    rw [← hassigned] at hstep
    exact hstep

/-- **`clone` returns the `pid` of the new child.** In every run, a call that ends with
another value than -1 ends with the `pid` that `allocproc` stored in that call. -/
theorem clone_returns_pid : ∀ x, recorded.Reachable x →
    ∀ p a x', recorded.next x a = some x' → Returns x.1 p a x'.1 →
      x'.1.eax p = -1 ∨ x'.1.eax p = x'.2 p := by
  intro x hx p a x' h hret
  obtain ⟨hnext, hassigned⟩ := recorded_next h
  rw [hassigned]
  exact (next_follows hret.proc hnext ((recorded_inv x hx).tagged p)).value hret

end Runs

/-- `initproc` clones a thread, which runs and exits before its `pid` is read. -/
def outlived : List Act :=
  [.schedule initproc, .create initproc (.clone 0 0 0), .kalloc initproc (some 3),
    .share initproc true, .ready initproc, .yield initproc, .schedule child, .exit child,
    .schedule initproc]

theorem clone_returns_pid_outlived : ∃ x x', recorded.Reachable x ∧
    recorded.next x (.cloned initproc) = some x' ∧ (x.1.table child).state = .zombie ∧
    x'.1.eax initproc = x'.2 initproc ∧ x'.1.eax initproc = 2 := by
  have hrun : (recorded.run (userinit 1 2, fun _ => 0) outlived).any (fun x =>
      decide (x.1.doing initproc = .started child ∧ (x.1.table child).state = .zombie) &&
        (recorded.next x (.cloned initproc)).any
          fun x' => decide (x'.1.doing initproc = .user ∧ x'.1.eax initproc = 2)) = true := by
    decide +kernel
  obtain ⟨x, hx, hend⟩ := (Option.any_eq_true _ _).mp hrun
  rw [Bool.and_eq_true, decide_eq_true_eq, Option.any_eq_true] at hend
  obtain ⟨⟨hdoing, hzombie⟩, x', hstep, hover⟩ := hend
  obtain ⟨huser, heax⟩ := of_decide_eq_true hover
  have hinit : recorded.Reachable (userinit 1 2, fun _ => 0) :=
    .init ⟨⟨1, 2, by decide, by decide, by decide, rfl⟩, rfl⟩
  have hreach : recorded.Reachable x := hinit.run hx
  have hret : Returns x.1 initproc (.cloned initproc) x'.1 :=
    ⟨rfl, Or.inl (by rw [hdoing]; trivial), huser⟩
  have hpid := (clone_returns_pid x hreach initproc _ x' hstep hret).resolve_left
    (by rw [heax]; decide)
  exact ⟨x, x', hreach, hstep, hzombie, hpid, heax⟩

end Os377.Xv6
