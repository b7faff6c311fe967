import Os377.ProdCon.ProgramInv

/-!
# Shutdown of the producer/consumer program

A consumer quits when it sees the buffer empty and `done` set. Both parts of
that test can be wrong:

* `done` is set late, by a producer that finds `produced == item_size` some
  time after the last append. A consumer that tests in between goes into
  `remove()` on a buffer that stays empty (`stuck_schedule`).
* `done` is set early with respect to appends: an item is counted in
  `produced` before it is appended, and `isEmpty()` is read before `done`. A
  consumer may quit with items still to come (`undrained_schedule`).

For each defect the step that takes the wrong turn is characterised by the
state before it, and the runs without such a step behave.
-/

namespace Os377.ProdCon

open Os377.Lib Function

namespace Program

variable {p c : Nat}

/-- Every producer is gone and a consumer is blocked in `remove()` on an empty
buffer: the join of the consumers never returns. -/
def Stuck (s : Program p c) : Prop :=
  (∀ i, s.prod i = .exited) ∧
  (∃ j, (s.mon.phase (.inr j)).onNotEmpty = true) ∧ s.mon.buf.bufferCnt = 0

instance (s : Program p c) : Decidable s.Stuck := inferInstanceAs (Decidable (_ ∧ _ ∧ _))

/-- A consumer reads `done` as false although nothing is left to come: every
item is counted, none is owed, the buffer is empty. -/
def TestsTooLate (s : Program p c) : Act p c → Prop
  | .cons j _ _ => s.cons j = .testDone ∧ s.done = false ∧ s.produced = s.itemSize ∧
      s.mon.buf.bufferCnt = 0 ∧ ∀ i, (s.prod i).pending = false
  | _ => False

instance (s : Program p c) (a : Act p c) : Decidable (TestsTooLate s a) :=
  match a with
  | .cons _ _ _ => inferInstanceAs (Decidable (_ ∧ _ ∧ _ ∧ _ ∧ _))
  | .main | .prod _ _ _ | .spurious _ => isFalse id

/-- Only a consumer's completed critical section removes an item. -/
theorem Step.removed {s s' : Program p c} {a : Act p c} (h : Step s a s') :
    s'.mon.removed = s.mon.removed ∨
      ∃ j v w data, a = .cons j v w ∧ s'.cons = update s.cons j (.unlock data) := by
  have hmon : ∀ {b m}, Monitor.next s.mon b = some m → (∀ t w, b ≠ .lockRemove t w) →
      m.removed = s.mon.removed := by
    intro b m hm hb
    cases Monitor.step_of_next hm <;> first | rfl | exact absurd rfl (hb _ _)
  cases h with
  | prodCall _ hm => exact .inl (hmon hm (by simp))
  | prodWaits _ hm _ => exact .inl (hmon hm (by simp))
  | prodAppends _ hm _ => exact .inl (hmon hm (by simp))
  | consCall _ hm => exact .inl (hmon hm (by simp))
  | consWaits _ hm hrem =>
      cases Monitor.step_of_next hm with
      | removeWaits _ _ => exact .inl rfl
      | removes _ hb _ => rw [hrem] at hb; cases hb
  | consRemoves _ _ _ => exact .inr ⟨_, _, _, _, rfl, rfl⟩
  | spurious hm => exact .inl (hmon hm (by simp))
  | _ => exact .inl rfl

/-- A consumer on its way into `remove()` still has something to take. -/
def Served (items : Int) (s : Program p c) : Prop :=
  ∀ j, s.cons j = .call ∨ s.cons j = .remove → (s.mon.removed.length : Int) < items

/-- Nothing left to come means every item was removed, and conversely. -/
theorem Inv.removed_lt {items : Int} {stale : Bool} {s : Program p c} (h : Inv items stale s)
    (hleft : ¬ (s.produced = items ∧ s.mon.buf.bufferCnt = 0 ∧
      ∀ i, (s.prod i).pending = false)) : (s.mon.removed.length : Int) < items := by
  have hbal := h.balance
  have hle := h.prods.le
  have hcnt := h.fifo.wf.cnt_nonneg
  by_contra hge
  refine hleft ⟨by omega, by omega, ?_⟩
  exact tally_eq_zero.mp (by omega)

theorem step_served {items : Int} {s s' : Program p c} {a : Act p c} (hinv : Inv items false s)
    (h : Served items s) (hc : ¬ TestsTooLate s a) (hs : Step s a s') : Served items s' := by
  rcases hs.removed with hrem | ⟨j, v, w, data, rfl, hcons⟩
  · -- nothing was removed: only the consumer that just passed its test matters
    have hold : ∀ {b j}, s'.cons = update s.cons j b → b ≠ .call → b ≠ .remove →
        Served items s' := by
      intro b j hupd hb hb' k hk
      rw [hupd] at hk
      by_cases hkj : k = j
      · subst hkj
        rw [update_self] at hk
        exact absurd hk (by simp [hb, hb'])
      · rw [update_of_ne hkj] at hk
        rw [hrem]
        exact h k hk
    have hpass : ∀ {b j}, s'.cons = update s.cons j b →
        (s.mon.removed.length : Int) < items → Served items s' := by
      intro b j _ hlt k _
      rw [hrem]
      exact hlt
    have hsame : s'.cons = s.cons → Served items s' := by
      intro heq k hk
      rw [heq] at hk
      rw [hrem]
      exact h k hk
    cases hs with
    | createC _ => exact hold rfl (by simp) (by simp)
    | consStart _ => exact hold rfl (by simp) (by simp)
    | consLock _ _ => exact hold rfl (by simp) (by simp)
    | consEmpty _ _ => exact hold rfl (by simp) (by simp)
    | consNonempty _ hne => exact hpass rfl (hinv.removed_lt fun hl => hne hl.2.1)
    | consQuit _ _ => exact hold rfl (by simp) (by simp)
    | consStay hpc hd =>
        refine hpass rfl (hinv.removed_lt fun hl => hc ?_)
        exact ⟨hpc, hd, by rw [hinv.prods.size]; exact hl.1, hl.2⟩
    | consExit _ => exact hold rfl (by simp) (by simp)
    | @consCall j _ _ _ hpc _ => exact hpass rfl (h j (.inl hpc))
    | consRemoves _ _ _ => exact hold rfl (by simp) (by simp)
    | consUnlock _ => exact hold rfl (by simp) (by simp)
    | consLog _ => exact hold rfl (by simp) (by simp)
    | _ => exact hsame rfl
  · -- the remover leaves `remove`, and it is alone under `c_lock`
    intro k hk
    have hmutex := (step_consInv hinv.conss hs).mutex
    have hj : s'.cons j = .unlock data := by rw [hcons, update_self]
    have hkj : k = j := by
      refine hmutex.unique ?_ (by rw [hj]; rfl)
      rcases hk with hk | hk <;> rw [hk] <;> rfl
    rw [hkj, hj] at hk
    simp at hk

theorem served_invariant {items : Int} (hitems : 0 ≤ items) :
    (program p c items).InvariantUnder (fun s a => ¬ TestsTooLate s a) (Served items) := by
  refine TSys.Invariant.stepUnder (inv_invariant hitems) ?_ ?_
  · rintro s ⟨mem, rfl⟩ j hj
    simp [start] at hj
  · intro s a s' hinv h hc hn
    exact step_served hinv h hc (step_of_next hn)

/-- **No stuck consumer** in any run in which no consumer reads `done` as false
once all items are counted, appended and removed. -/
theorem no_stuck_consumer (p c : Nat) (hp : 1 ≤ p) (items : Int) (hitems : 0 ≤ items) :
    (program p c items).InvariantUnder (fun s a => ¬ TestsTooLate s a) fun s => ¬ s.Stuck := by
  rintro s hs ⟨hexit, ⟨j, hj⟩, hcnt⟩
  have hinv := inv_invariant hitems s hs.reachable
  have hserved := served_invariant hitems s hs
  -- all producers exited: `done`, so everything is counted, and nothing is owed
  have hdone : s.done = true := by
    have := hinv.prods.ok ⟨0, hp⟩
    rwa [hexit] at this
  have hpend : tally s.prod ProdPc.pending = 0 :=
    tally_eq_zero.mpr fun i => by rw [hexit i]; rfl
  have hpc : s.cons j = .remove := by
    by_contra hne
    rw [hinv.conss.out rfl hne] at hj
    cases hj
  have hlt := hserved j (.inr hpc)
  have hbal := hinv.balance
  have hfull := hinv.done hdone
  omega

/-- `main` creates one producer and one consumer and goes to join. -/
def createOneOne : List (Act 1 1) := [.main, .main, .main, .main, .main, .main]

/-- Three items, each of them removed before the next one is counted; then the producer
exits, and the consumer comes to its last test. -/
def inTurns : List (Act 1 1) :=
  createOneOne ++ [.prod 0 0 nobody, .cons 0 0 nobody] ++
    (List.replicate 3 (List.replicate 7 (.prod 0 0 nobody) ++
      List.replicate 6 (.cons 0 0 nobody))).flatten ++
    List.replicate 4 (.prod 0 0 nobody) ++ List.replicate 2 (.cons 0 0 nobody)

/-- The producer has exited and the buffer is empty, and the consumer is not in `remove`. -/
theorem no_stuck_consumer_one_one : ∃ s : Program 1 1, s.cons 0 = .testDone ∧
    s.prod 0 = .exited ∧ s.mon.removed.length = 3 ∧ s.mon.buf.bufferCnt = 0 ∧ ¬ s.Stuck := by
  obtain ⟨s, hs, hcons, hprod, hremoved, hcnt⟩ := (program 1 1 3).exists_of_runChecked
    (C := fun s a => ¬ TestsTooLate s a)
    (P := fun s => s.cons 0 = .testDone ∧ s.prod 0 = .exited ∧ s.mon.removed.length = 3 ∧
      s.mon.buf.bufferCnt = 0)
    (start 1 1 3 0 false fun _ => 0) inTurns ⟨_, rfl⟩ (by decide +kernel)
  exact ⟨s, hcons, hprod, hremoved, hcnt, no_stuck_consumer 1 1 (by decide) 3 (by decide) s hs⟩

/-- With no items: the consumer tests before the producer has set `done`. -/
def stuckSchedule : List (Act 1 1) :=
  createOneOne ++ List.replicate 6 (.cons 0 0 nobody) ++ List.replicate 5 (.prod 0 0 nobody)

/-- The consumer waits for an item nobody will append. -/
theorem stuck_schedule : ¬ (program 1 1 0).Invariant fun s => ¬ s.Stuck :=
  TSys.not_invariant_of_run (start 1 1 0 0 false fun _ => 0) stuckSchedule
    ⟨_, rfl⟩ (by decide)

/-! ## Draining -/

/-- When every consumer is gone, every item was removed, the buffer is empty
and no producer owes an item. -/
def Drained (s : Program p c) : Prop :=
  (∀ j, s.cons j = .exited) →
    (s.mon.removed.length : Int) = s.itemSize ∧ s.mon.buf.bufferCnt = 0 ∧
      ∀ i, (s.prod i).pending = false

instance (s : Program p c) : Decidable s.Drained := inferInstanceAs (Decidable (_ → _))

/-- The last consumer reads `done` as true although its `isEmpty()` is out of
date or a producer still owes an item. -/
def QuitsTooEarly (s : Program p c) : Act p c → Prop
  | .cons j _ _ => s.cons j = .testDone ∧ s.done = true ∧ (∀ k, k ≠ j → s.cons k = .exited) ∧
      (s.mon.buf.bufferCnt ≠ 0 ∨ ∃ i, (s.prod i).pending = true)
  | _ => False

instance (s : Program p c) (a : Act p c) : Decidable (QuitsTooEarly s a) :=
  match a with
  | .cons _ _ _ => inferInstanceAs (Decidable (_ ∧ _ ∧ _ ∧ _))
  | .main | .prod _ _ _ | .spurious _ => isFalse id

/-- Once every consumer is gone or has decided to go, everything is removed. -/
def Settled (items : Int) (s : Program p c) : Prop :=
  (∀ j, s.cons j = .exited ∨ s.cons j = .unlockExit) → (s.mon.removed.length : Int) = items

theorem step_settled {items : Int} {s s' : Program p c} {a : Act p c} (hinv : Inv items false s)
    (h : Settled items s) (hc : ¬ QuitsTooEarly s a) (hs : Step s a s') : Settled items s' := by
  intro hall
  -- a consumer that moved anywhere else is not leaving
  have hstays : ∀ {b j}, s'.cons = update s.cons j b → b ≠ .exited → b ≠ .unlockExit → False := by
    intro b j hupd hb hb'
    have := hall j
    rw [hupd, update_self] at this
    rcases this with h1 | h1
    · exact hb h1
    · exact hb' h1
  have hrem : s'.mon.removed = s.mon.removed := by
    rcases hs.removed with hrem | ⟨j, v, w, data, rfl, hcons⟩
    · exact hrem
    · exact (hstays hcons (by simp) (by simp)).elim
  have hsame : s'.cons = s.cons → (s.mon.removed.length : Int) = items :=
    fun heq => h fun j => heq ▸ hall j
  rw [hrem]
  cases hs with
  | createC _ => exact (hstays rfl (by simp) (by simp)).elim
  | consStart _ => exact (hstays rfl (by simp) (by simp)).elim
  | consLock _ _ => exact (hstays rfl (by simp) (by simp)).elim
  | consEmpty _ _ => exact (hstays rfl (by simp) (by simp)).elim
  | consNonempty _ _ => exact (hstays rfl (by simp) (by simp)).elim
  | @consQuit j v w hpc hd =>
      -- the others cannot be leaving too: `j` holds `c_lock`
      have hothers : ∀ k, k ≠ j → s.cons k = .exited := by
        intro k hkj
        have := hall k
        simp only [update_of_ne hkj] at this
        rcases this with h1 | h1
        · exact h1
        · exact absurd (hinv.conss.mutex.unique (by rw [h1]; rfl) (by rw [hpc]; rfl)) hkj
      have hok : ¬ (s.mon.buf.bufferCnt ≠ 0 ∨ ∃ i, (s.prod i).pending = true) :=
        fun hbad => hc ⟨hpc, hd, hothers, hbad⟩
      push Not at hok
      have hpend : tally s.prod ProdPc.pending = 0 :=
        tally_eq_zero.mpr fun i => by simpa using hok.2 i
      have hbal := hinv.balance
      have hfull := hinv.done hd
      omega
  | consStay _ _ => exact (hstays rfl (by simp) (by simp)).elim
  | @consExit j v w hpc =>
      refine h fun k => ?_
      by_cases hkj : k = j
      · subst hkj
        exact .inr hpc
      · have := hall k
        simpa only [update_of_ne hkj] using this
  | consCall _ _ => exact (hstays rfl (by simp) (by simp)).elim
  | consRemoves _ _ _ => exact (hstays rfl (by simp) (by simp)).elim
  | consUnlock _ => exact (hstays rfl (by simp) (by simp)).elim
  | consLog _ => exact (hstays rfl (by simp) (by simp)).elim
  | _ => exact hsame rfl

theorem settled_invariant {items : Int} (hc : 1 ≤ c) (hitems : 0 ≤ items) :
    (program p c items).InvariantUnder (fun s a => ¬ QuitsTooEarly s a) (Settled items) := by
  refine TSys.Invariant.stepUnder (inv_invariant hitems) ?_ ?_
  · rintro s ⟨mem, rfl⟩ hall
    have := hall ⟨0, hc⟩
    simp [start] at this
  · intro s a s' hinv h hq hn
    exact step_settled hinv h hq (step_of_next hn)

/-- The decision and the exit that follow a quit, spelled out. -/
theorem exit_of_quit {s : Program p c} {j : Fin c} (v : Int) (w : Fin p ⊕ Fin c → Bool)
    (hpc : s.cons j = .testDone) (hd : s.done = true) :
    (program p c s.itemSize).run s [.cons j v w, .cons j v w] =
      some { s with cLock := none, cons := update s.cons j .exited } := by
  simp [TSys.run, program, next, consNext, hpc, hd]

/-- **Consumers drain everything before quitting** in every run in which the
last consumer, reading `done` as true, has an up-to-date `isEmpty()` and no
producer owes an item; a reachable step that breaks this is one exit away from
a state that is not drained. -/
theorem consumers_drain (p c : Nat) (hc : 1 ≤ c) (items : Int) (hitems : 0 ≤ items) :
    (program p c items).InvariantUnder (fun s a => ¬ QuitsTooEarly s a) Drained ∧
    ∀ s a, (program p c items).Reachable s → QuitsTooEarly s a →
      ∃ t, (program p c items).run s [a, a] = some t ∧ ¬ t.Drained := by
  constructor
  · intro s hs hall
    have hinv := inv_invariant hitems s hs.reachable
    have hrem := settled_invariant hc hitems s hs fun j => .inl (hall j)
    have hbal := hinv.balance
    have hle := hinv.prods.le
    have hcnt := hinv.fifo.wf.cnt_nonneg
    refine ⟨by rw [hinv.prods.size]; exact hrem, by omega, ?_⟩
    exact tally_eq_zero.mp (by omega)
  · intro s a hs hq
    have hinv := inv_invariant hitems s hs
    match a, hq with
    | .cons j v w, ⟨hpc, hd, hothers, hbad⟩ =>
        have hrun := exit_of_quit v w hpc hd
        rw [hinv.prods.size] at hrun
        refine ⟨_, hrun, fun hdrained => ?_⟩
        have hgone : ∀ k, update s.cons j .exited k = .exited := by
          intro k
          by_cases hkj : k = j
          · rw [hkj, update_self]
          · rw [update_of_ne hkj]
            exact hothers k hkj
        obtain ⟨_, hcnt, hpend⟩ := hdrained hgone
        rcases hbad with hne | ⟨i, hi⟩
        · exact hne hcnt
        · have := hpend i
          simp only [hi] at this
          cases this

/-- The call goes on to its end. -/
theorem consumers_drain_one_one : ∃ s : Program 1 1, s.cons 0 = .exited ∧ s.prod 0 = .exited ∧
    (s.mon.removed.length : Int) = s.itemSize ∧ s.itemSize = 3 ∧ s.mon.buf.bufferCnt = 0 := by
  obtain ⟨s, hs, hcons, hprod, hsize⟩ := (program 1 1 3).exists_of_runChecked
    (C := fun s a => ¬ QuitsTooEarly s a)
    (P := fun s => s.cons 0 = .exited ∧ s.prod 0 = .exited ∧ s.itemSize = 3)
    (start 1 1 3 0 false fun _ => 0) (inTurns ++ List.replicate 2 (.cons 0 0 nobody))
    ⟨_, rfl⟩ (by decide +kernel)
  have hall : ∀ j, s.cons j = .exited := by
    intro j
    rw [Subsingleton.elim j 0, hcons]
  obtain ⟨hremoved, hcnt, -⟩ := (consumers_drain 1 1 (by decide) 3 (by decide)).1 s hs hall
  exact ⟨s, hcons, hprod, hremoved, hsize, hcnt⟩

/-- With one item: the consumer finds the buffer empty, the producer appends
the item and finishes, and the consumer then reads `done`. -/
def undrainedSchedule : List (Act 1 1) :=
  createOneOne ++ List.replicate 3 (.cons 0 0 nobody) ++
    List.replicate 11 (.prod 0 0 nobody) ++ List.replicate 2 (.cons 0 0 nobody)

/-- The only consumer quits with the item in the buffer. -/
theorem undrained_schedule : ¬ (program 1 1 1).Invariant Drained :=
  TSys.not_invariant_of_run (start 1 1 1 0 false fun _ => 0) undrainedSchedule
    ⟨_, rfl⟩ (by decide)

end Program

end Os377.ProdCon
