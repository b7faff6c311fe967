import Os377.Xv6.Lifetime

/-!
# No missed wake-up in `wait` and `join`

A process that sleeps on its own entry is in `wait` or `join`, and has no
zombie child that its scan would reap. `exit` wakes the parent before it turns
into a zombie, and `initproc` before it inherits one; no other step adds to
what a sleeping process waits for (`Still`, `step_still`).
-/

namespace Os377.Xv6

open Os377.Lib Function

variable {s s' s'' : State} {p q np : Proc}

/-- `q` is `SLEEPING` on its own entry. -/
def Sleeps (s : State) (q : Proc) : Prop :=
  (s.table q).state = .sleeping ∧ (s.table q).chan = some (.proc q)

/-- `p` is a zombie that the scan of `q` would reap; the scan of `join` also
compares the page directories. -/
def Reapable (s : State) (q p : Proc) : Prop :=
  (s.table p).state = .zombie ∧ childOf s q p = true ∧
    (s.doing q = .joining → threadOf s q p = true)

/-- Who sleeps on its own entry is in a scan, and has nothing to reap. -/
def NoMissedWakeup (s : State) : Prop :=
  ∀ q, Sleeps s q → (s.doing q = .waiting ∨ s.doing q = .joining) ∧ ∀ p, ¬ Reapable s q p

/-! ## Steps that neither put to sleep nor leave a zombie -/

/-- Every process that sleeps on its own entry and every zombie of `s'` was
there in `s`, with the same parent and directory. -/
structure Still (s s' : State) : Prop where
  sleeps : ∀ q, Sleeps s' q →
    Sleeps s q ∧ s'.doing q = s.doing q ∧ (s'.table q).pgdir = (s.table q).pgdir
  zombie : ∀ q, (s'.table q).state = .zombie → (s.table q).state = .zombie ∧
    (s'.table q).parent = (s.table q).parent ∧ (s'.table q).pgdir = (s.table q).pgdir

/-- Such a step gives no sleeping process anything to reap. -/
theorem Still.noMissedWakeup (h : Still s s') (hs : NoMissedWakeup s) : NoMissedWakeup s' := by
  intro q hq
  obtain ⟨hsleep, hdoing, hdir⟩ := h.sleeps q hq
  obtain ⟨hscan, hnone⟩ := hs q hsleep
  rw [hdoing]
  refine ⟨hscan, ?_⟩
  rintro p ⟨hz, hchild, hthread⟩
  obtain ⟨hzombie, hparent, hpdir⟩ := h.zombie p hz
  refine hnone p ⟨hzombie, ?_, fun hj => ?_⟩
  · rwa [childOf, hparent] at hchild
  · have := hthread (hdoing.trans hj)
    rwa [threadOf, hpdir, hdir, hparent] at this

namespace Still

theorem trans (h : Still s s') (h' : Still s' s'') : Still s s'' where
  sleeps q hq := by
    obtain ⟨h1, h2, h3⟩ := h'.sleeps q hq
    obtain ⟨h4, h5, h6⟩ := h.sleeps q h1
    exact ⟨h4, h2.trans h5, h3.trans h6⟩
  zombie q hq := by
    obtain ⟨h1, h2, h3⟩ := h'.zombie q hq
    obtain ⟨h4, h5, h6⟩ := h.zombie q h1
    exact ⟨h4, h2.trans h5, h3.trans h6⟩

variable (p np) in
/-- Only the process `p` that runs and an entry `np` change, and `np` is
neither asleep nor a zombie afterwards. -/
theorem frame (htable : ∀ q, q ≠ p → q ≠ np → s'.table q = s.table q)
    (hdoing : ∀ q, q ≠ p → s'.doing q = s.doing q)
    (hp : (s'.table p).state = .running)
    (hnp : (s'.table np).state ≠ .sleeping ∧ (s'.table np).state ≠ .zombie) : Still s s' where
  sleeps q hq := by
    have hqp : q ≠ p := by
      intro heq
      subst heq
      simp [Sleeps, hp] at hq
    have hqn : q ≠ np := by
      intro heq
      subst heq
      exact hnp.1 hq.1
    rw [Sleeps, htable q hqp hqn] at hq
    rw [htable q hqp hqn]
    exact ⟨hq, hdoing q hqp, rfl⟩
  zombie q hq := by
    have hqp : q ≠ p := by
      intro heq
      subst heq
      simp [hp] at hq
    have hqn : q ≠ np := by
      intro heq
      subst heq
      exact hnp.2 hq
    rw [htable q hqp hqn] at hq ⊢
    exact ⟨hq, rfl, rfl⟩

/-- Only `p` changes, and does not sleep on its own entry afterwards. -/
theorem setEntry {e : Entry} (hz : e.state ≠ .zombie)
    (hs : e.state = .sleeping → e.chan ≠ some (.proc p)) : Still s (s.setEntry p e) where
  sleeps q hq := by
    have hqp : q ≠ p := by
      intro heq
      subst heq
      simp only [Sleeps, State.setEntry, update_self] at hq
      exact hs hq.1 hq.2
    simpa [Sleeps, State.setEntry, update_of_ne hqp] using hq
  zombie q hq := by
    have hqp : q ≠ p := by
      intro heq
      subst heq
      exact hz (by simpa [State.setEntry] using hq)
    simpa [State.setEntry, update_of_ne hqp] using hq

/-- The running process returns from its call. -/
theorem ret (hp : (s.table p).state = .running) (v : BitVec 32) : Still s (s.ret p v) := by
  refine frame p p ?_ ?_ ?_ ?_
  all_goals simp +contextual [State.ret, State.setEntry, State.setDoing, hp]

/-- The running process goes on within its call. -/
theorem setDoing (hp : (s.table p).state = .running) (d : Doing) :
    Still s (s.setDoing p d) := by
  refine frame p p ?_ ?_ ?_ ?_
  all_goals simp +contextual [State.setDoing, hp]

theorem wakeup1 (c : Option Chan) : Still s (s.wakeup1 c) where
  sleeps q hq := by
    simp only [Sleeps, State.wakeup1, Entry.wakeup1] at hq ⊢
    split at hq
    · simp at hq
    · next hne =>
        rw [if_neg hne]
        exact ⟨hq, trivial, rfl⟩
  zombie q hq := by
    simp only [State.wakeup1, Entry.wakeup1] at hq ⊢
    split at hq
    · simp at hq
    · next hne => exact ⟨hq, by rw [if_neg hne], by rw [if_neg hne]⟩

end Still

/-! ## The calls -/

section Calls

variable (hp : (s.table p).state = .running)
include hp

/-- Storing to an entry under construction, then returning. -/
theorem store_ret_still {e : Entry} (hne : p ≠ np)
    (he : e.state ≠ .sleeping ∧ e.state ≠ .zombie) (v : BitVec 32) :
    Still s ((s.setEntry np e).ret p v) := by
  refine .frame p np ?_ ?_ ?_ ?_
  all_goals simp +contextual [State.ret, State.setEntry, State.setDoing, hp, hne, hne.symm, he]

/-- Storing to an entry under construction, then going on. -/
theorem store_setDoing_still {e : Entry} (hne : p ≠ np)
    (he : e.state ≠ .sleeping ∧ e.state ≠ .zombie) (d : Doing) :
    Still s ((s.setEntry np e).setDoing p d) := by
  refine .frame p np ?_ ?_ ?_ ?_
  all_goals simp +contextual [State.setEntry, State.setDoing, hp, hne, he]

theorem ne_of_state {st : ProcState} (hq : (s.table q).state = st) (hst : st ≠ .running) :
    p ≠ q := by
  intro heq
  subst heq
  exact hst (hq.symm.trans hp)

theorem allocproc_still (c : Call) : Still s (allocproc s p c) := by
  unfold allocproc
  cases hfind : slots.find? (fun q => (s.table q).state == .unused) with
  | none => exact .ret hp _
  | some np =>
      have hnp : (s.table np).state = .unused := by simpa using List.find?_some hfind
      have hne := ne_of_state hp hnp (by simp)
      refine .frame p np ?_ ?_ ?_ ?_
      all_goals simp +contextual [hp, hne]

variable (hnp : (s.table np).state = .embryo)
include hnp

theorem allocKstack_still {c : Call} {page : Option Nat}
    (h : allocKstack s p c np page = some s') : Still s s' := by
  have hne := ne_of_state hp hnp (by simp)
  cases page with
  | none =>
      simp only [allocKstack, Option.some.injEq] at h
      exact h ▸ store_ret_still hp hne (by simp) _
  | some k =>
      simp only [allocKstack, Option.ite_none_right_eq_some, Option.some.injEq] at h
      obtain ⟨-, rfl⟩ := h
      refine .frame p np ?_ ?_ ?_ ?_
      all_goals simp +contextual [State.setEntry, State.setDoing, State.take, hp, hne, hnp]

theorem forkCopy_still {page : Option Nat} (h : forkCopy s p np page = some s') :
    Still s s' := by
  have hne := ne_of_state hp hnp (by simp)
  cases page with
  | none =>
      simp only [forkCopy, Option.some.injEq] at h
      subst h
      refine .frame p np ?_ ?_ ?_ ?_
      all_goals
        simp +contextual [State.ret, State.setEntry, State.setDoing, State.kfree, hp, hne, hne.symm]
  | some d =>
      simp only [forkCopy, Option.ite_none_right_eq_some, Option.some.injEq] at h
      obtain ⟨-, rfl⟩ := h
      refine .frame p np ?_ ?_ ?_ ?_
      all_goals simp +contextual [State.setEntry, State.setDoing, State.take, hp, hne, hnp]

theorem cloneShare_still (fcn arg stack : BitVec 32) (ok : Bool) :
    Still s (cloneShare s p np fcn arg stack ok) := by
  have hne := ne_of_state hp hnp (by simp)
  unfold cloneShare
  dsimp only
  split
  · exact .ret hp _
  split
  · exact .ret hp _
  refine .frame p np ?_ ?_ ?_ ?_
  all_goals split
  all_goals
    simp +contextual [State.ret, State.setEntry, State.setDoing, hp, hne, hne.symm, hnp]

theorem ready_still (c : Call) : Still s (ready s p c np) := by
  have hne := ne_of_state hp hnp (by simp)
  cases c with
  | fork => exact store_ret_still hp hne (by simp) _
  | clone fcn arg stack => exact store_setDoing_still hp hne (by simp) _

omit hnp

/-- Giving back the slot of a zombie. -/
theorem reap_still (hq : (s.table q).state = .zombie) (a : Nat) (v : BitVec 32) :
    Still s (((reap s q).kfree a).ret p v) ∧ Still s ((reap s q).ret p v) := by
  have hne := ne_of_state hp hq (by simp)
  constructor
  all_goals
    refine .frame p q ?_ ?_ ?_ ?_
    all_goals
      simp +contextual [reap, State.ret, State.setEntry, State.setDoing, State.kfree, hp, hne,
        hne.symm]

theorem execSetup_still {page : Option Nat} (h : execSetup s p page = some s') : Still s s' := by
  cases page with
  | none =>
      simp only [execSetup, Option.some.injEq] at h
      exact h ▸ .ret hp _
  | some d =>
      simp only [execSetup, Option.ite_none_right_eq_some, Option.some.injEq] at h
      obtain ⟨-, rfl⟩ := h
      refine .frame p p ?_ ?_ ?_ ?_
      all_goals simp +contextual [State.setDoing, State.take, hp]

theorem execCommit_still {d : Nat} {sz eip esp : BitVec 32}
    (h : execCommit s p d sz eip esp = some s') : Still s s' := by
  simp only [execCommit, State.freevm] at h
  split at h
  · simp at h
  · rw [Option.map_some, Option.some.injEq] at h
    subst h
    refine .frame p p ?_ ?_ ?_ ?_
    all_goals simp +contextual [State.ret, State.setEntry, State.setDoing, State.kfree, hp]

theorem execBad_still {d : Nat} (h : execBad s p d = some s') : Still s s' := by
  simp only [execBad, State.freevm] at h
  split at h
  · simp at h
  · rw [Option.map_some, Option.some.injEq] at h
    subst h
    refine .frame p p ?_ ?_ ?_ ?_
    all_goals simp +contextual [State.ret, State.setEntry, State.setDoing, State.kfree, hp]

/-- `kill` wakes a process, but puts none to sleep. -/
theorem kill_still (pid : BitVec 32) : Still s (kill s p pid) := by
  have hkill : ∀ q, Still s (s.setEntry q (s.table q).kill) := by
    intro q
    refine ⟨fun r hr => ?_, fun r hr => ?_⟩
    · by_cases hrq : r = q
      · subst hrq
        simp only [Sleeps, State.setEntry, update_self, Entry.kill] at hr
        split at hr <;> simp_all
      · simpa [Sleeps, State.setEntry, update_of_ne hrq] using hr
    · by_cases hrq : r = q
      · subst hrq
        simp only [State.setEntry, update_self, Entry.kill] at hr ⊢
        split at hr
        · simp at hr
        · simpa using hr
      · simpa [State.setEntry, update_of_ne hrq] using hr
  unfold kill
  cases slots.find? (fun q => (s.table q).pid == pid) with
  | none => exact .ret hp _
  | some q =>
      refine (hkill q).trans (.ret ?_ 0)
      by_cases hpq : p = q
      · subst hpq
        simp [State.setEntry, Entry.kill, hp]
      · simpa [State.setEntry, update_of_ne hpq] using hp

end Calls

/-! ## Falling asleep in a scan -/

theorem zombieOf_none {mine : Proc → Bool} (h : zombieOf s mine = none) (hq : mine q = true) :
    (s.table q).state ≠ .zombie := by
  intro hz
  have := List.find?_eq_none.mp h q (List.mem_finRange q)
  simp [hq, hz] at this

/-- A scan that found nothing puts `p` to sleep with nothing to reap. -/
theorem sleep_noMissedWakeup (hs : NoMissedWakeup s) (hp : (s.table p).state = .running)
    (hscan : s.doing p = .waiting ∨ s.doing p = .joining) (hnone : ∀ z, ¬ Reapable s p z) :
    NoMissedWakeup (s.sleep p (.proc p)) := by
  -- neither the zombies nor what a scan compares has changed
  have hreap : ∀ q z, Reapable (s.sleep p (.proc p)) q z → Reapable s q z := by
    rintro q z ⟨hz, hchild, hthread⟩
    have hdir : ∀ r, ((s.sleep p (.proc p)).table r).pgdir = (s.table r).pgdir := by
      intro r
      by_cases hrp : r = p <;> simp [State.sleep, State.setEntry, hrp]
    have hzp : z ≠ p := by
      intro heq
      subst heq
      simp [State.sleep, State.setEntry] at hz
    have htable : (s.sleep p (.proc p)).table z = s.table z := by
      simp [State.sleep, State.setEntry, update_of_ne hzp]
    refine ⟨htable ▸ hz, ?_, fun hj => ?_⟩
    · rwa [childOf, htable] at hchild
    · have := hthread hj
      rwa [threadOf, hdir q, htable] at this
  intro q hq
  by_cases hqp : q = p
  · subst hqp
    exact ⟨hscan, fun z hz => hnone z (hreap q z hz)⟩
  · have hold : Sleeps s q := by
      simpa [Sleeps, State.sleep, State.setEntry, update_of_ne hqp] using hq
    exact ⟨(hs q hold).1, fun z hz => (hs q hold).2 z (hreap q z hz)⟩

/-- A scan of `wait` or `join`. -/
theorem scan_noMissedWakeup (hs : NoMissedWakeup s) (hp : (s.table p).state = .running)
    (hscan : s.doing p = .waiting ∨ s.doing p = .joining) {mine : Proc → Bool}
    (hmine : ∀ z, Reapable s p z → mine z = true) {collect : State → Proc → Option State}
    (hcollect : ∀ q t v, (s.table q).state = .zombie → collect s q = some t →
      Still s (t.ret p v)) (h : scanChildren s p mine collect = some s') :
    NoMissedWakeup s' := by
  rw [scanChildren] at h
  cases hz : zombieOf s mine with
  | some q =>
      rw [hz] at h
      obtain ⟨t, ht, rfl⟩ := Option.map_eq_some_iff.mp h
      exact (hcollect q t _ (zombieOf_some hz).2 ht).noMissedWakeup hs
  | none =>
      rw [hz] at h
      dsimp only at h
      split at h
      · rw [Option.some.injEq] at h
        exact h ▸ (Still.ret hp _).noMissedWakeup hs
      · rw [Option.some.injEq] at h
        exact h ▸ sleep_noMissedWakeup hs hp hscan fun z hr =>
          zombieOf_none hz (hmine z hr) hr.1

theorem wait_noMissedWakeup (hs : NoMissedWakeup s) (hp : (s.table p).state = .running)
    (hd : s.doing p = .waiting) (h : wait s p = some s') : NoMissedWakeup s' := by
  refine scan_noMissedWakeup hs hp (.inl hd) (fun z hz => hz.2.1) ?_ h
  intro q t v hq ht
  simp only [State.freevm, Option.ite_none_left_eq_some, Option.some.injEq] at ht
  obtain ⟨-, rfl⟩ := ht
  exact (reap_still hp hq _ v).1

theorem join_noMissedWakeup (hs : NoMissedWakeup s) (hp : (s.table p).state = .running)
    (hd : s.doing p = .joining) (h : join s p = some s') : NoMissedWakeup s' := by
  refine scan_noMissedWakeup hs hp (.inr hd) (fun z hz => hz.2.2 hd) ?_ h
  intro q t v hq ht
  rw [Option.some.injEq] at ht
  exact ht ▸ (reap_still hp hq 0 v).2

/-! ## `exit` -/

section Exit

variable {c : Option Chan} {z : Proc}

theorem wakeup1_sleeps (h : Sleeps (s.wakeup1 c) q) : Sleeps s q ∧ c ≠ some (.proc q) := by
  obtain ⟨hold, -, -⟩ := (Still.wakeup1 c).sleeps q h
  refine ⟨hold, ?_⟩
  intro heq
  subst heq
  simp [Sleeps, State.wakeup1, Entry.wakeup1, hold.1, hold.2] at h

/-- A wake-up leaves the rest of an entry alone. -/
theorem wakeup1_entry (e : Entry) : (e.wakeup1 c).parent = e.parent ∧
    (e.wakeup1 c).pgdir = e.pgdir ∧ ((e.wakeup1 c).state = .zombie ↔ e.state = .zombie) := by
  rw [Entry.wakeup1]
  split
  · next h => simp [h.1]
  · exact ⟨rfl, rfl, Iff.rfl⟩

/-- So does passing it to `initproc`. -/
theorem reparent_entry (e : Entry) : (e.reparent p).state = e.state ∧
    (e.reparent p).chan = e.chan ∧ (e.reparent p).pgdir = e.pgdir ∧
    (e.reparent p).parent = if e.parent = some p then some initproc else e.parent := by
  rw [Entry.reparent]
  split <;> exact ⟨rfl, rfl, rfl, rfl⟩

/-- An entry after `exit` has woken the parent and passed the children on. -/
def passed (s : State) (p q : Proc) : Entry :=
  ((s.table q).wakeup1 ((s.table p).parent.map .proc)).reparent p

theorem passed_fields (s : State) (p q : Proc) : (passed s p q).pgdir = (s.table q).pgdir ∧
    ((passed s p q).state = .zombie ↔ (s.table q).state = .zombie) ∧
    (passed s p q).parent =
      if (s.table q).parent = some p then some initproc else (s.table q).parent := by
  obtain ⟨h1, h2, h3⟩ := wakeup1_entry (c := (s.table p).parent.map .proc) (s.table q)
  obtain ⟨h4, -, h5, h6⟩ := reparent_entry (p := p)
    ((s.table q).wakeup1 ((s.table p).parent.map .proc))
  rw [passed, h4, h5, h6, h1]
  exact ⟨h2, h3, rfl⟩

/-- Before `p` becomes a zombie: `initproc` is woken unless no child of `p` is
a zombie. -/
theorem exit_table (s : State) (p : Proc) : ∃ t : Proc → Entry,
    (exit s p).table = update t p { t p with state := .zombie } ∧
    (t = passed s p ∧ (∀ z, (s.table z).state = .zombie → (s.table z).parent ≠ some p) ∨
      t = fun q => (passed s p q).wakeup1 (some (.proc initproc))) := by
  unfold exit
  dsimp only
  split
  · exact ⟨_, rfl, .inr rfl⟩
  · next hany =>
      refine ⟨_, rfl, .inl ⟨rfl, fun z hz hpar => hany ?_⟩⟩
      obtain ⟨h1, -, h3⟩ := wakeup1_entry (c := (s.table p).parent.map .proc) (s.table z)
      refine List.any_eq_true.mpr ⟨z, List.mem_finRange z, ?_⟩
      rw [Bool.and_eq_true, beq_iff_eq, beq_iff_eq]
      exact ⟨h1.trans hpar, h3.mpr hz⟩

theorem exit_doing (s : State) (p : Proc) : (exit s p).doing = s.doing := by
  simp only [exit, State.setEntry]
  split <;> rfl

/-- Who still sleeps after `exit` is not the parent, nor `initproc` if there
is a zombie to inherit. -/
theorem exit_sleeps (hq : Sleeps (exit s p) q) :
    Sleeps s q ∧ ((exit s p).table q).pgdir = (s.table q).pgdir ∧ (s.table p).parent ≠ some q ∧
      ∀ z, (s.table z).state = .zombie → (s.table z).parent = some p → q ≠ initproc := by
  obtain ⟨t, htable, ht⟩ := exit_table s p
  have hqp : q ≠ p := by
    intro heq
    subst heq
    simp [Sleeps, htable] at hq
  rw [Sleeps, htable, update_of_ne hqp] at hq
  rw [htable, update_of_ne hqp]
  have hpassed : (passed s p q).state = .sleeping ∧ (passed s p q).chan = some (.proc q) →
      Sleeps s q ∧ (s.table p).parent ≠ some q := by
    intro h
    obtain ⟨h4, h5, -, -⟩ := reparent_entry (p := p)
      ((s.table q).wakeup1 ((s.table p).parent.map .proc))
    rw [passed, h4, h5] at h
    obtain ⟨hsleep, hne⟩ := wakeup1_sleeps (c := (s.table p).parent.map .proc) h
    refine ⟨hsleep, fun hpar => hne ?_⟩
    rw [hpar, Option.map_some]
  rcases ht with ⟨rfl, hnone⟩ | rfl
  · obtain ⟨hsleep, hpar⟩ := hpassed hq
    exact ⟨hsleep, (passed_fields s p q).1, hpar, fun z hz hz' => absurd hz' (hnone z hz)⟩
  · obtain ⟨hq', hne⟩ := wakeup1_sleeps (s := { s with table := passed s p }) hq
    obtain ⟨hsleep, hpar⟩ := hpassed hq'
    refine ⟨hsleep, (wakeup1_entry _).2.1.trans (passed_fields s p q).1, hpar, fun _ _ _ => ?_⟩
    intro heq
    subst heq
    exact hne rfl

/-- The zombies after `exit`: `p`, and those that were there. -/
theorem exit_zombie (hz : ((exit s p).table z).state = .zombie) :
    (z = p ∨ (s.table z).state = .zombie) ∧
      ((exit s p).table z).pgdir = (s.table z).pgdir ∧
      ((exit s p).table z).parent =
        if (s.table z).parent = some p then some initproc else (s.table z).parent := by
  obtain ⟨t, htable, ht⟩ := exit_table s p
  have hfields : (t z).pgdir = (s.table z).pgdir ∧
      ((t z).state = .zombie ↔ (s.table z).state = .zombie) ∧
      (t z).parent = if (s.table z).parent = some p then some initproc else (s.table z).parent := by
    rcases ht with ⟨rfl, -⟩ | rfl
    · exact passed_fields s p z
    · obtain ⟨h1, h2, h3⟩ := wakeup1_entry (c := some (.proc initproc)) (passed s p z)
      obtain ⟨h4, h5, h6⟩ := passed_fields s p z
      exact ⟨h2.trans h4, h3.trans h5, h1.trans h6⟩
  rw [htable] at hz ⊢
  by_cases hzp : z = p
  · subst hzp
    rw [update_self]
    exact ⟨.inl rfl, hfields.1, hfields.2.2⟩
  · rw [update_of_ne hzp] at hz ⊢
    exact ⟨.inr (hfields.2.1.mp hz), hfields.1, hfields.2.2⟩

/-- A process exits: the parent is awake, and so is `initproc` if it inherits
a zombie. -/
theorem exit_noMissedWakeup (hs : NoMissedWakeup s) (hself : (s.table p).parent ≠ some p) :
    NoMissedWakeup (exit s p) := by
  intro q hq
  obtain ⟨hsleep, hdir, hparent, hinit⟩ := exit_sleeps hq
  have hdoing : (exit s p).doing q = s.doing q := by
    rw [exit_doing]
  obtain ⟨hscan, hnone⟩ := hs q hsleep
  rw [hdoing]
  refine ⟨hscan, ?_⟩
  rintro z ⟨hz, hchild, hthread⟩
  obtain ⟨hold, hzdir, hzpar⟩ := exit_zombie hz
  have hchild' : (if (s.table z).parent = some p then some initproc else (s.table z).parent)
      = some q := by
    rw [← hzpar]
    simpa [childOf] using hchild
  rcases hold with rfl | hold
  · rw [if_neg hself] at hchild'
    exact hparent hchild'
  · by_cases hpar : (s.table z).parent = some p
    · rw [if_pos hpar] at hchild'
      exact hinit z hold hpar (Option.some.inj hchild').symm
    · rw [if_neg hpar] at hchild' hzpar
      refine hnone z ⟨hold, by simpa [childOf] using hchild', fun hj => ?_⟩
      have := hthread (hdoing.trans hj)
      rwa [threadOf, hzdir, hdir, hzpar] at this

end Exit

/-! ## Along runs -/

/-- No process is its own parent. -/
theorem Change.parent_ne {v v' : View} {f : Option (Proc × Nat)} (hR : Roles v)
    (h : Change v f v') (hv : ∀ i, v.parent i ≠ some i) : ∀ i, v'.parent i ≠ some i := by
  have hfill : ∀ {p np}, v.stage p = .making np →
      ∀ i, update v.parent np (some p) i ≠ some i := by
    intro p np hst i
    have hnp := hR.embryo p np (by rw [hst]; rfl)
    have hp := hR.busy p (by simp [hst])
    by_cases hi : i = np
    · subst hi
      rw [update_self]
      rintro h
      rw [Option.some.inj h, hnp] at hp
      cases hp
    · rw [update_of_ne hi]
      exact hv i
  have hreap : ∀ q i, update v.parent q none i ≠ some i := by
    intro q i
    by_cases hi : i = q
    · simp [hi]
    · rw [update_of_ne hi]
      exact hv i
  cases h with
  | own hst _ _ | share hst _ => exact hfill hst
  | wait _ _ _ | join _ _ _ _ => exact hreap _
  | exit _ _ _ =>
      intro i
      dsimp only
      split
      · next hi =>
          intro hinit
          rw [← Option.some.inj hinit, hR.init_parent] at hi
          cases hi
      · exact hv i
  | _ => exact hv

/-- What holds in every state: the roles, and nobody misses a wake-up. -/
structure Attended (s : State) : Prop where
  roles : Roles s.view
  parent_ne : ∀ i, (s.table i).parent ≠ some i
  awake : NoMissedWakeup s

theorem own_noMissedWakeup (hs : Attended s) {a : Act} (hp : (s.table p).state = .running)
    (h : OwnStep s p s' a) : NoMissedWakeup s' := by
  have hembryo : ∀ np, (s.doing p).stage.target = some np → (s.table np).state = .embryo := by
    intro np hnp
    have := hs.roles.embryo p np hnp
    simp only [State.view] at this
    cases hst : (s.table np).state <;> simp_all [ProcState.kind]
  cases h with
  | sleep hd h => exact h ▸ (Still.setEntry (by simp) (by simp)).noMissedWakeup hs.awake
  | create hd h => exact h ▸ (allocproc_still hp _).noMissedWakeup hs.awake
  | kalloc hd h =>
      exact (allocKstack_still hp (hembryo _ (by rw [hd]; rfl)) h).noMissedWakeup hs.awake
  | copyuvm hd h =>
      exact (forkCopy_still hp (hembryo _ (by rw [hd]; rfl)) h).noMissedWakeup hs.awake
  | share hd h =>
      exact h ▸ (cloneShare_still hp (hembryo _ (by rw [hd]; rfl)) _ _ _ _).noMissedWakeup hs.awake
  | ready hd h => exact h ▸ (ready_still hp (hembryo _ (by rw [hd]; rfl)) _).noMissedWakeup hs.awake
  | cloned hd h => exact h ▸ (Still.ret hp _).noMissedWakeup hs.awake
  | exit hd hinit h => exact h ▸ exit_noMissedWakeup hs.awake (hs.parent_ne _)
  | wait hd h | join hd h => exact h ▸ (Still.setDoing hp _).noMissedWakeup hs.awake
  | waitScan hd h => exact wait_noMissedWakeup hs.awake hp hd h
  | joinScan hd h => exact join_noMissedWakeup hs.awake hp hd h
  | exec hd h => exact (execSetup_still hp h).noMissedWakeup hs.awake
  | execCommit hd h => exact (execCommit_still hp h).noMissedWakeup hs.awake
  | execBad hd h => exact (execBad_still hp h).noMissedWakeup hs.awake
  | kill hd h => exact h ▸ (kill_still hp _).noMissedWakeup hs.awake

theorem step_noMissedWakeup (hs : Attended s) {a : Act} (h : next s a = some s') :
    NoMissedWakeup s' := by
  cases next_step h with
  | wakeup hto => exact hto ▸ (Still.wakeup1 _).noMissedWakeup hs.awake
  | schedule hp hto | yield hp hto =>
      subst hto
      exact (Still.setEntry (by simp) (by simp)).noMissedWakeup hs.awake
  | own _ hp hown => exact own_noMissedWakeup hs hp hown

theorem attended_inductive : system.Inductive (fun _ _ => True) Attended where
  init s hs := by
    obtain ⟨kstack, pgdir, hk, hd, hne, rfl⟩ := hs
    refine ⟨(inv_userinit hk hd hne).roles, fun i => ?_, fun q hq => ?_⟩
    · by_cases hi : i = initproc <;> simp [userinit, hi, Entry.zero]
    · by_cases hqi : q = initproc <;> simp [Sleeps, userinit, hqi, Entry.zero] at hq
  step s a s' hs _ hn := by
    have hchange := step_change hn
    exact ⟨hs.roles.step hchange, hchange.parent_ne hs.roles hs.parent_ne,
      step_noMissedWakeup hs hn⟩

/-- **No missed wake-up.** In every reachable state, no process sleeps in
`wait` or `join` while there is a zombie that its scan would reap. -/
theorem no_missed_wakeup : system.Invariant NoMissedWakeup :=
  fun s hs => (attended_inductive.invariant s hs).awake

end Os377.Xv6
