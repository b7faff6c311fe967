import Os377.ProdCon.Numbering
import Os377.ProdCon.Leaving
import Os377.ProdCon.Schedules

/-!
# Several calls in one process

`produced` and `done` are globals that no call of `InitProducerConsumer` sets. A call
that returns leaves `produced` at its own number of items and `done` set, so the next one
starts where it stopped: it appends the difference, or does not stop at all. Where no call
had items there is nothing left in `produced`, but the stale `done` sends the consumers away
before the second item; and even in a first call they may go while two items are on their
way.
-/

namespace Os377.ProdCon

open Os377.Lib Function

/-- The arguments of `InitProducerConsumer` that count here. -/
structure Call where
  p : Nat
  c : Nat
  items : Int
  one_le_p : 1 ≤ p
  one_le_c : 1 ≤ c
  items_nonneg : 0 ≤ items

/-- A call in a process that has `produced` and `done` as given. -/
abbrev Call.system (k : Call) (produced : Int) (done : Bool) :
    TSys (Program k.p k.c) (Program.Act k.p k.c) :=
  callFrom k.p k.c k.items produced done

/-- The producers of the call append its own items: never more, exactly as many when they have
exited, and they can always still get there, without a wake-up that nobody has caused. -/
def Call.Exact (k : Call) (produced : Int) (done : Bool) : Prop :=
  (k.system produced done).Invariant fun s =>
    (s.mon.appended.length : Int) ≤ k.items ∧
    ((∀ i, s.prod i = .exited) → (s.mon.appended.length : Int) = k.items) ∧
    ∃ t, (k.system produced done).PathUnder Program.Caused s t ∧ (∀ i, t.prod i = .exited) ∧
      (t.mon.appended.length : Int) = k.items

/-- `produced` and `done` after `calls` have returned, one after the other. -/
inductive History : List Call → Int → Bool → Prop
  | start : History [] 0 false
  | call {calls produced done} (k : Call) {s : Program k.p k.c} : History calls produced done →
      (k.system produced done).Reachable s → s.main = .returned →
      History (calls ++ [k]) s.produced s.done

namespace Program

variable {p c : Nat}

/-! ## What a call leaves behind -/

/-- The producers that have been joined. -/
def Joined (s : Program p c) : Prop :=
  match s.main with
  | .joinP a => ∀ i : Fin p, i < a → s.prod i = .exited
  | .joinC _ | .returned => ∀ i, s.prod i = .exited
  | _ => True

section Steps

variable {items first : Int} {stale : Bool} {s s' : Program p c} {l : Ledger} {a : Act p c}

/-- A producer that has exited stays so. -/
theorem exited_stays (h : Numbered items first stale (s, l)) (hn : next s a = some s')
    {i : Fin p} (hi : s.prod i = .exited) : s'.prod i = .exited := by
  have hother : ∀ {k : Fin p} {b : ProdPc}, s.prod k ≠ .exited →
      update s.prod k b i = .exited := by
    intro k b hk
    have hik : i ≠ k := by
      rintro rfl
      exact hk hi
    rw [update_of_ne hik]
    exact hi
  cases step_of_next hn with
  | @createP k hm =>
      have hun : s.prod k = .unborn := h.unborn k (by simp [hm, MainPc.createdP])
      exact hother (by rw [hun]; simp)
  | prodStart hpc | prodLock hpc _ | prodFull hpc _ | prodRoom hpc _ | prodSetDone hpc
  | prodExit hpc | prodIncr hpc | prodUnlock hpc | prodCall hpc _ | prodAppends hpc _ _
  | prodLog hpc => exact hother (by rw [hpc]; simp)
  | _ => exact hi

/-- The step of `main`, which joins a producer when it has exited. -/
theorem Joined.main (hj : Joined s) (hn : mainNext s = some s') : Joined s' := by
  cases hmain : s.main with
  | createP i =>
      simp only [mainNext, hmain] at hn
      split at hn
      · rw [← Option.some.inj hn]
        trivial
      · rw [← Option.some.inj hn]
        trivial
  | createC j =>
      simp only [mainNext, hmain] at hn
      split at hn
      · rw [← Option.some.inj hn]
        trivial
      · rw [← Option.some.inj hn]
        -- nobody has been joined yet
        intro i hi
        exact absurd hi (Nat.not_lt_zero _)
  | incP i | incC i =>
      simp only [mainNext, hmain] at hn
      rw [← Option.some.inj hn]
      trivial
  | joinP b =>
      simp only [mainNext, hmain] at hn
      simp only [Joined, hmain] at hj
      split at hn
      · next hb =>
          rw [Option.ite_none_right_eq_some] at hn
          obtain ⟨hexited, hn⟩ := hn
          rw [← Option.some.inj hn]
          intro i hi
          -- those before, and the one that is joined now
          rcases Nat.lt_succ_iff_lt_or_eq.mp hi with hlt | heq
          · exact hj i hlt
          · have hfin : i = ⟨b, hb⟩ := Fin.ext heq
            rw [hfin]
            exact hexited
      · next hb =>
          rw [← Option.some.inj hn]
          intro i
          exact hj i (lt_of_lt_of_le i.isLt (not_lt.mp hb))
  | joinC b =>
      simp only [mainNext, hmain] at hn
      simp only [Joined, hmain] at hj
      split at hn
      · rw [Option.ite_none_right_eq_some] at hn
        rw [← Option.some.inj hn.2]
        exact hj
      · rw [← Option.some.inj hn]
        exact hj
  | returned =>
      simp only [mainNext, hmain] at hn
      cases hn

/-- Whoever has been joined stays so. -/
theorem Joined.step (h : Numbered items first stale (s, l)) (hj : Joined s)
    (hn : next s a = some s') : Joined s' := by
  have hstays : s'.main = s.main → Joined s' := by
    intro hmain
    rw [Joined, hmain]
    cases hpc : s.main with
    | joinP b =>
        simp only [Joined, hpc] at hj
        exact fun i hi => exited_stays h hn (hj i hi)
    | joinC b | returned =>
        simp only [Joined, hpc] at hj
        exact fun i => exited_stays h hn (hj i)
    | _ => trivial
  cases a with
  | main => exact hj.main hn
  | prod i v w =>
      refine hstays ?_
      cases step_of_next hn <;> rfl
  | cons j v w =>
      refine hstays ?_
      cases step_of_next hn <;> rfl
  | spurious t =>
      refine hstays ?_
      cases step_of_next hn
      rfl

end Steps

section Runs

variable {items first : Int} {stale : Bool} {s : Program p c}

theorem callFrom_inv (hs : (callFrom p c items first stale).Reachable s) :
    Joined s ∧ ∃ l, Numbered items first stale (s, l) := by
  obtain ⟨l, hl⟩ := hs.record ⟨[], []⟩ Ledger.note
  have hjoined : (numberedFrom p c items first stale).Invariant fun x => Joined x.1 := by
    refine numberedFrom_inv.stepUnder (C := fun _ _ => True) ?_ ?_
    · rintro ⟨s, l⟩ ⟨⟨mem, rfl⟩, -⟩
      trivial
    · rintro ⟨s, l⟩ a x' h hj - hn
      obtain ⟨s', hs', rfl⟩ := Option.map_eq_some_iff.mp hn
      exact hj.step h hs'
  exact ⟨hjoined _ hl, l, numberedFrom_inv _ hl⟩

/-- A call that returns leaves `produced` at its number of items, which is no less than it
has found there. -/
theorem returned (hp : 1 ≤ p) (hs : (callFrom p c items first stale).Reachable s)
    (hmain : s.main = .returned) : s.produced = items ∧ first ≤ items := by
  obtain ⟨hj, l, h⟩ := callFrom_inv hs
  rw [Joined, hmain] at hj
  obtain ⟨heq, -⟩ := h.exited hp hj
  exact ⟨heq, heq ▸ h.first_le⟩

/-- A call that finds 0 in `produced` appends no more than its items, and all of them when its
producers exit. -/
theorem appended_of_zero (hp : 1 ≤ p) (hitems : 0 ≤ items) :
    (callFrom p c items 0 stale).Invariant fun s => (s.mon.appended.length : Int) ≤ items ∧
      ((∀ i, s.prod i = .exited) → (s.mon.appended.length : Int) = items) := by
  intro s hs
  obtain ⟨-, l, h⟩ := callFrom_inv hs
  refine ⟨?_, fun hexited => ?_⟩
  · have hstarted : (l.started.length : Int) ≤ s.produced - 0 := h.started_le
    have hopen : l.started.length = s.mon.appended.length + tally s.prod ProdPc.appending :=
      h.started
    have hle : s.produced ≤ items := h.le hitems
    omega
  · obtain ⟨-, -, -, happended⟩ := h.exited hp hexited
    rw [happended, sub_zero]

end Runs

end Program

section Calls

variable {k : Call} {calls : List Call} {produced : Int} {done : Bool}

/-- A call that finds 0 in `produced` and keeps room for its producers is exact. -/
theorem Call.exact_of_room
    (hroom : (k.system 0 done).Invariant Program.Room) : k.Exact 0 done := by
  intro s hs
  have happended : (k.system 0 done).Invariant _ :=
    Program.appended_of_zero k.one_le_p k.items_nonneg
  obtain ⟨t, hst, hexited⟩ := Program.producers_exit k.items_nonneg hroom s hs
  have ht : (k.system 0 done).Reachable t := hs.path (fun _ _ _ => trivial) hst
  exact ⟨(happended s hs).1, (happended s hs).2, t, hst, hexited, (happended t ht).2 hexited⟩

/-- A call that has a dead end is not exact. -/
theorem Call.not_exact_of_dead_end {s : Program k.p k.c} (hs : (k.system produced done).Reachable s)
    (hdead : Program.DeadEnd k.items s) : ¬ k.Exact produced done := by
  intro hexact
  obtain ⟨-, -, t, hst, -, happended⟩ := hexact s hs
  have hmissing := (hdead.path hs hst).missing
  omega

/-- A call that does not find 0 in `produced` is not exact. -/
theorem Call.not_exact (hfirst : 0 < produced) : ¬ k.Exact produced done := by
  intro hexact
  rcases lt_or_ge k.items produced with hlt | hge
  · -- it never stops
    obtain ⟨s, hs, -, -, happended⟩ := Program.reaches_items k.one_le_p k.one_le_c k.items
      produced done (n := k.items.toNat + 1) fun n _ => by omega
    have hle := (hexact s hs).1
    have hnonneg := k.items_nonneg
    omega
  · -- it appends the difference
    obtain ⟨s, hs, h, hproduced, happended⟩ := Program.reaches_items k.one_le_p k.one_le_c k.items
      produced done (n := (k.items - produced).toNat) fun n hn => by omega
    obtain ⟨t, ht, hprod, -, -, hmon⟩ := Program.reaches_exit hs h (by omega) (le_refl k.p)
    have hall : ∀ i, t.prod i = .exited := fun i => by simp [hprod]
    have heq := (hexact t ht).2.1 hall
    rw [hmon] at heq
    omega

/-- `produced` after some calls: 0 as long as no call had items. -/
theorem History.produced_eq_zero (h : History calls produced done) :
    0 ≤ produced ∧ (produced = 0 ↔ ∀ k ∈ calls, k.items = 0) := by
  induction h with
  | start => simp
  | @call calls first stale k s _ hs hmain ih =>
      obtain ⟨heq, hle⟩ := Program.returned k.one_le_p hs hmain
      rw [heq]
      refine ⟨k.items_nonneg, ?_⟩
      simp only [List.mem_append, List.mem_singleton, or_imp, forall_and, forall_eq]
      constructor
      · intro hzero
        exact ⟨ih.2.mp (by omega), hzero⟩
      · exact fun h => h.2

/-- `done` after some calls that left nothing in `produced`. -/
theorem History.done_iff (h : History calls produced done) (hzero : produced = 0) :
    done = true ↔ calls ≠ [] := by
  cases h with
  | start => simp
  | @call calls first stale k s h hs hmain =>
      obtain ⟨hnonneg, -⟩ := h.produced_eq_zero
      obtain ⟨heq, hle⟩ := Program.returned k.one_le_p hs hmain
      obtain rfl : first = 0 := by omega
      -- a producer has exited, and has set `done` before
      obtain ⟨hjoined, -⟩ := Program.callFrom_inv hs
      rw [Program.Joined, hmain] at hjoined
      have hok := (Program.inv_invariant k.items_nonneg s hs).prods.ok ⟨0, k.one_le_p⟩
      rw [hjoined] at hok
      have hdone : s.done = true := hok
      exact iff_of_true hdone (by simp)

/-- **A call appends exactly its items** if no call before it had any, and it has at most one
itself, or it is the first call and has one producer, or two and several consumers; and only
then. -/
theorem exact_iff (h : History calls produced done) (k : Call) :
    k.Exact produced done ↔ (∀ e ∈ calls, e.items = 0) ∧
      (k.items ≤ 1 ∨ calls = [] ∧ (k.p = 1 ∨ k.p = 2 ∧ 2 ≤ k.c)) := by
  obtain ⟨hnonneg, hzero⟩ := h.produced_eq_zero
  rw [← hzero]
  constructor
  · intro hexact
    obtain rfl : produced = 0 := by
      by_contra hne
      exact Call.not_exact (by omega) hexact
    refine ⟨rfl, ?_⟩
    by_contra hmany
    rw [not_or, not_le] at hmany
    by_cases hcalls : calls = []
    · have hfew : ¬ (k.p = 1 ∨ k.p = 2 ∧ 2 ≤ k.c) := fun hfew => hmany.2 ⟨hcalls, hfew⟩
      obtain ⟨p, c, items, hp, hc, hitems⟩ := k
      simp only at hmany hfew
      by_cases hthree : 3 ≤ p
      · obtain ⟨s, hs, hdead⟩ : ∃ s : Program p c, (callFrom p c items 0 done).Reachable s ∧
            Program.DeadEnd items s := Program.crowd_dead_end hthree hc hmany.1
        exact Call.not_exact_of_dead_end hs hdead hexact
      · obtain rfl : c = 1 := by omega
        obtain ⟨s, hs, hdead⟩ : ∃ s : Program p 1, (callFrom p 1 items 0 done).Reachable s ∧
            Program.DeadEnd items s := Program.late_dead_end (by omega : 2 ≤ p) hmany.1
        exact Call.not_exact_of_dead_end hs hdead hexact
    · obtain rfl : done = true := (h.done_iff rfl).mpr hcalls
      obtain ⟨s, hs, hdead⟩ := Program.stale_dead_end k.one_le_p k.one_le_c hmany.1
      exact Call.not_exact_of_dead_end hs hdead hexact
  · rintro ⟨rfl, hle | ⟨hcalls, hfew⟩⟩
    · refine Call.exact_of_room fun s hs => ?_
      exact (Program.inv_invariant k.items_nonneg s hs).room_of_le_one hle
    · have hdone : done = false := by
        rw [Bool.eq_false_iff, ne_eq, h.done_iff rfl]
        exact not_not.mpr hcalls
      rw [hdone]
      refine Call.exact_of_room fun s hs => ?_
      exact (Program.leaving_invariant k.items_nonneg hfew s hs).room
        (Program.inv_invariant k.items_nonneg s hs) k.one_le_c

/-- One producer, one consumer. -/
def Call.oneOne (items : Nat) : Call :=
  ⟨1, 1, items, le_refl 1, le_refl 1, Int.natCast_nonneg items⟩

theorem exact_iff_first : (Call.oneOne 2).Exact 0 false :=
  (exact_iff History.start (Call.oneOne 2)).mpr ⟨by simp, .inr ⟨rfl, .inl rfl⟩⟩

end Calls

/-- One item, from the creation of the threads to the return. -/
def wholeCall : List (Program.Act 1 1) :=
  List.replicate 6 .main ++ List.replicate 12 (.prod ⟨0, Nat.one_pos⟩ 0 Program.nobody) ++
    List.replicate 11 (.cons ⟨0, Nat.one_pos⟩ 0 Program.nobody) ++ List.replicate 4 .main

/-- The second of two calls with one item each appends nothing. -/
theorem second_call_appends_nothing : ∃ produced done, History [Call.oneOne 1] produced done ∧
    ¬ (Call.oneOne 1).Exact produced done := by
  have hrun : ((callFrom 1 1 1 0 false).run (Program.start 1 1 1 0 false fun _ => 0) wholeCall).any
      (fun s => decide (s.main = .returned ∧ s.produced = 1)) = true := by
    decide +kernel
  obtain ⟨s, hs, hend⟩ := (Option.any_eq_true _ _).mp hrun
  obtain ⟨hmain, hproduced⟩ := of_decide_eq_true hend
  have hreach : ((Call.oneOne 1).system 0 false).Reachable s :=
    TSys.Reachable.run (.init ⟨_, rfl⟩) hs
  refine ⟨1, s.done, hproduced ▸ History.start.call (Call.oneOne 1) hreach hmain, fun hexact => ?_⟩
  -- `done` is stale or not, the producer does not look at it
  have hnext : ((callFrom 1 1 1 1 s.done).run (Program.start 1 1 1 1 s.done fun _ => 0)
      (.main :: List.replicate 5 (.prod 0 0 Program.nobody))).any
      (fun t => decide (t.prod 0 = .exited ∧ t.mon.appended = [])) = true := by
    cases s.done <;> decide +kernel
  obtain ⟨t, ht, hend⟩ := (Option.any_eq_true _ _).mp hnext
  obtain ⟨hexited, happended⟩ := of_decide_eq_true hend
  have hall : ∀ i : Fin 1, t.prod i = .exited := by
    intro i
    rw [Subsingleton.elim i 0]
    exact hexited
  have heq := (hexact t (TSys.Reachable.run (.init ⟨_, rfl⟩) ht)).2.1 hall
  rw [happended] at heq
  cases heq

end Os377.ProdCon
