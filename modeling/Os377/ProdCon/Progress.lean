import Os377.ProdCon.ProgramInv

/-!
# When the producers get to the end

A producer with an item in hand needs room in the buffer of one, and room comes from a
consumer. As long as a consumer is left whenever the buffer is full and a producer is inside
`append` (`Room`), the producers of a call can always get to their exit: some thread has a
step that lowers `weight`, which adds up what the threads and the items have still before
them.
-/

namespace Os377.ProdCon

open Os377.Lib Function

/-- What `main` has still to create. -/
def MainPc.weight (p c : Nat) : MainPc → Nat
  | .createP i => 2 * (p - i) + 2 * c + 3
  | .incP i => 2 * (p - (i + 1)) + 2 * c + 4
  | .createC j => 2 * (c - j) + 1
  | .incC j => 2 * (c - (j + 1)) + 2
  | _ => 0

/-- How far a producer is from its exit, apart from the items that are not counted yet. -/
def ProdPc.weight : ProdPc → Nat
  | .unborn => 6
  | .start => 5
  | .lock => 4
  | .test => 3
  | .setDone | .incr => 2
  | .unlockExit => 1
  | .unlock _ => 8
  | .call _ => 7
  | .append _ _ => 6
  | .log _ _ => 5
  | .exited => 0

/-- How far a consumer is from its next item, or from its exit. -/
def ConsPc.weight : ConsPc → Nat
  | .unborn => 6
  | .start | .log _ => 6
  | .lock => 5
  | .unlock _ => 7
  | .testEmpty => 4
  | .testDone => 3
  | .call => 2
  | .remove | .unlockExit => 1
  | .exited => 0

namespace Program

variable {p c : Nat} {items : Int} {stale : Bool} {s s' : Program p c}

/-- Not a wake-up that nobody has caused. -/
def Caused (_ : Program p c) (a : Act p c) : Prop := ∀ t, a ≠ .spurious t

/-- When the buffer is full and a producer is inside `append`, a consumer is left. -/
def Room (s : Program p c) : Prop :=
  ∀ i n data, s.prod i = .append n data → s.mon.buf.bufferCnt = 1 → ∃ j, s.cons j ≠ .exited

/-- What the threads, the items to be counted and those to be removed have before them. -/
def weight (s : Program p c) : Nat :=
  s.main.weight p c + ∑ i, (s.prod i).weight + ∑ j, (s.cons j).weight +
    7 * (s.itemSize - s.produced).toNat + 7 * (s.itemSize - s.mon.removed.length).toNat

/-- A step that lowers the weight, of a thread that is not woken for nothing. -/
def Advances (s : Program p c) : Prop :=
  ∃ a t, Caused s a ∧ next s a = some t ∧ t.weight < s.weight

/-! ## Nobody is forgotten -/

/-- The threads that are created are born. -/
structure Born (s : Program p c) : Prop where
  prods : ∀ i : Fin p, (i : Nat) < s.main.createdP p → s.prod i ≠ .unborn
  conss : ∀ j : Fin c, (j : Nat) < s.main.createdC c → s.cons j ≠ .unborn

/-- The creating loops give birth to one thread after the other. -/
theorem Born.main (h : Born s) (hn : mainNext s = some s') : Born s' := by
  have hmove : ∀ m, some { s with main := m } = some s' → m.createdP p = s.main.createdP p →
      m.createdC c = s.main.createdC c → Born s' := by
    intro m hm hp hc
    rw [← Option.some.inj hm]
    exact ⟨fun i hi => h.prods i (hp ▸ hi), fun j hj => h.conss j (hc ▸ hj)⟩
  cases hm : s.main with
  | createP i =>
      simp only [mainNext, hm] at hn
      split at hn
      · next hi =>
          rw [← Option.some.inj hn]
          refine ⟨fun k hk => ?_, fun j hj => absurd hj (Nat.not_lt_zero _)⟩
          show update s.prod ⟨i, hi⟩ .start k ≠ .unborn
          by_cases hki : k = ⟨i, hi⟩
          · rw [hki, update_self]
            simp
          · rw [update_of_ne hki]
            have hne : (k : Nat) ≠ i := fun heq => hki (Fin.ext heq)
            simp only [MainPc.createdP] at hk
            exact h.prods k (by simp only [hm, MainPc.createdP]; omega)
      · refine hmove _ hn ?_ ?_
        · simp only [hm, MainPc.createdP]
          omega
        · simp [hm, MainPc.createdC]
  | createC j =>
      simp only [mainNext, hm] at hn
      split at hn
      · next hj =>
          rw [← Option.some.inj hn]
          refine ⟨fun k hk => h.prods k (by rw [hm]; exact hk), fun k hk => ?_⟩
          show update s.cons ⟨j, hj⟩ .start k ≠ .unborn
          by_cases hkj : k = ⟨j, hj⟩
          · rw [hkj, update_self]
            simp
          · rw [update_of_ne hkj]
            have hne : (k : Nat) ≠ j := fun heq => hkj (Fin.ext heq)
            simp only [MainPc.createdC] at hk
            exact h.conss k (by simp only [hm, MainPc.createdC]; omega)
      · refine hmove _ hn (by rw [hm]; rfl) ?_
        simp only [hm, MainPc.createdC]
        omega
  | incP i | incC i =>
      simp only [mainNext, hm] at hn
      exact hmove _ hn (by rw [hm]; rfl) (by rw [hm]; rfl)
  | joinP b | joinC b =>
      simp only [mainNext, hm] at hn
      split at hn
      · rw [Option.ite_none_right_eq_some] at hn
        exact hmove _ hn.2 (by rw [hm]; rfl) (by rw [hm]; rfl)
      · exact hmove _ hn (by rw [hm]; rfl) (by rw [hm]; rfl)
  | returned =>
      simp only [mainNext, hm] at hn
      cases hn

/-- Nobody goes back to before the birth. -/
theorem Born.step {a : Act p c} (h : Born s) (hn : next s a = some s') : Born s' := by
  have hprod : ∀ {i : Fin p} {b : ProdPc}, b ≠ .unborn → ∀ k : Fin p,
      (k : Nat) < s.main.createdP p → update s.prod i b k ≠ .unborn := fun hb =>
    forall_update (P := fun (k : Fin p) (pc : ProdPc) =>
      (k : Nat) < s.main.createdP p → pc ≠ .unborn) h.prods fun _ => hb
  have hcons : ∀ {j : Fin c} {b : ConsPc}, b ≠ .unborn → ∀ k : Fin c,
      (k : Nat) < s.main.createdC c → update s.cons j b k ≠ .unborn := fun hb =>
    forall_update (P := fun (k : Fin c) (pc : ConsPc) =>
      (k : Nat) < s.main.createdC c → pc ≠ .unborn) h.conss fun _ => hb
  cases a with
  | main => exact h.main hn
  | prod i v w =>
      cases step_of_next hn with
      | prodWaits => exact ⟨h.prods, h.conss⟩
      | _ => exact ⟨hprod (by simp), h.conss⟩
  | cons j v w =>
      cases step_of_next hn with
      | consWaits => exact ⟨h.prods, h.conss⟩
      | _ => exact ⟨h.prods, hcons (by simp)⟩
  | spurious t =>
      cases step_of_next hn
      exact ⟨h.prods, h.conss⟩

/-- The whole of what the progress argument needs of a state. -/
structure Going (items : Int) (stale : Bool) (s : Program p c) : Prop where
  inv : Inv items stale s
  awake : Monitor.Awake 1 s.mon
  born : Born s

theorem going_invariant (hitems : 0 ≤ items) :
    (callFrom p c items 0 stale).Invariant (Going items stale) := by
  have hborn : (callFrom p c items 0 stale).Invariant Born := by
    refine TSys.Inductive.invariant ⟨?_, fun _ _ _ h _ hn => h.step hn⟩
    rintro s ⟨mem, rfl⟩
    exact ⟨fun i hi => absurd hi (by simp [start, MainPc.createdP]),
      fun j hj => absurd hj (by simp [start, MainPc.createdC])⟩
  exact fun s hs => ⟨inv_invariant hitems s hs,
    (Monitor.awake_invariant (by decide) _ (reachable_mon hs)).2, hborn s hs⟩

/-! ## Who can go on -/

/-- Waking whoever waits is a signal. -/
theorem signalOk_all (phase : Fin p ⊕ Fin c → Phase) (waits : Phase → Bool) :
    Monitor.SignalOk phase waits fun t => waits (phase t) :=
  ⟨fun _ h => h, fun ⟨t, h⟩ => ⟨t, h⟩⟩

/-- `main` goes on with its creating loops. -/
theorem main_advances (hn : mainNext s = some s')
    (hlt : s'.main.weight p c + ∑ i, (s'.prod i).weight + ∑ j, (s'.cons j).weight <
      s.main.weight p c + ∑ i, (s.prod i).weight + ∑ j, (s.cons j).weight)
    (hsize : s'.itemSize = s.itemSize) (hproduced : s'.produced = s.produced)
    (hmon : s'.mon = s.mon) : Advances s := by
  refine ⟨.main, s', fun t => by simp, hn, ?_⟩
  rw [weight, weight, hsize, hproduced, hmon]
  omega

/-- Until all threads are created, `main` can go on. -/
theorem Going.creates (h : Going items stale s)
    (hm : s.main.createdP p < p ∨ s.main.createdC c < c) : Advances s := by
  cases hmain : s.main with
  | createP i =>
      by_cases hi : i < p
      · have hunborn : s.prod ⟨i, hi⟩ = .unborn :=
          h.inv.prods.unborn _ (by simp [hmain, MainPc.createdP])
        have hsum := sum_update s.prod ProdPc.weight ⟨i, hi⟩ .start
        rw [hunborn] at hsum
        simp only [ProdPc.weight] at hsum
        have hn : mainNext s = some { s with
            prod := update s.prod ⟨i, hi⟩ .start, main := .incP i } := by simp [mainNext, hmain, hi]
        refine main_advances hn ?_ rfl rfl rfl
        simp only [hmain, MainPc.weight, ProdPc.weight]
        omega
      · have hn : mainNext s = some { s with main := .createC 0 } := by simp [mainNext, hmain, hi]
        refine main_advances hn ?_ rfl rfl rfl
        simp only [hmain, MainPc.weight]
        omega
  | incP i =>
      have hn : mainNext s = some { s with main := .createP (i + 1) } := by simp [mainNext, hmain]
      refine main_advances hn ?_ rfl rfl rfl
      simp only [hmain, MainPc.weight]
      omega
  | createC j =>
      by_cases hj : j < c
      · have hunborn : s.cons ⟨j, hj⟩ = .unborn :=
          h.inv.conss.unborn _ (by simp [hmain, MainPc.createdC])
        have hsum := sum_update s.cons ConsPc.weight ⟨j, hj⟩ .start
        rw [hunborn] at hsum
        simp only [ConsPc.weight] at hsum
        have hn : mainNext s = some { s with
            cons := update s.cons ⟨j, hj⟩ .start, main := .incC j } := by simp [mainNext, hmain, hj]
        refine main_advances hn ?_ rfl rfl rfl
        simp only [hmain, MainPc.weight, ConsPc.weight]
        omega
      · have hn : mainNext s = some { s with main := .joinP 0 } := by simp [mainNext, hmain, hj]
        refine main_advances hn ?_ rfl rfl rfl
        simp only [hmain, MainPc.weight]
        omega
  | incC j =>
      have hn : mainNext s = some { s with main := .createC (j + 1) } := by simp [mainNext, hmain]
      refine main_advances hn ?_ rfl rfl rfl
      simp only [hmain, MainPc.weight]
      omega
  | joinP _ | joinC _ | returned =>
      simp [hmain, MainPc.createdP, MainPc.createdC] at hm

/-- A producer that can make a step. -/
def ProdReady (s : Program p c) (i : Fin p) : Prop :=
  match s.prod i with
  | .unborn | .exited => False
  | .lock => s.pLock = none
  | .append _ _ => s.mon.buf.bufferCnt = 0 ∧ (s.mon.phase (.inl i)).appending.isSome
  | _ => True

/-- A consumer that can make a step, and does not have to wait for an item. -/
def ConsReady (s : Program p c) (j : Fin c) : Prop :=
  match s.cons j with
  | .unborn | .exited => False
  | .lock => s.cLock = none
  | .remove => s.mon.buf.bufferCnt = 1 ∧ (s.mon.phase (.inr j)).removing = true
  | _ => True

/-- A producer moves without counting or appending. -/
theorem prod_advances {i : Fin p} {b : ProdPc} (hn : prodNext s i 0 nobody = some s')
    (hprod : s'.prod = update s.prod i b) (hlt : b.weight < (s.prod i).weight)
    (hmain : s'.main = s.main) (hcons : s'.cons = s.cons) (hsize : s'.itemSize = s.itemSize)
    (hproduced : s'.produced = s.produced) (hremoved : s'.mon.removed = s.mon.removed) :
    Advances s := by
  refine ⟨.prod i 0 nobody, s', fun t => by simp, hn, ?_⟩
  have hsum := sum_update s.prod ProdPc.weight i b
  rw [weight, weight, hmain, hcons, hsize, hproduced, hremoved, hprod]
  omega

/-- `append` finds room: its item is in the buffer, and whoever waits for one is woken. -/
theorem append_advances {i : Fin p} {n data d : Int} (hpc : s.prod i = .append n data)
    (hsize : s.mon.buf.bufferSize = 1) (hempty : s.mon.buf.bufferCnt = 0)
    (hd : (s.mon.phase (.inl i)).appending = some d) : Advances s := by
  obtain ⟨b, hb⟩ : ∃ b, s.mon.buf.append d = some b :=
    Option.ne_none_iff_exists'.mp fun hnone => by
      have hfull := BoundedBuffer.append_eq_none.mp hnone
      omega
  have hsignal := signalOk_all s.mon.phase Phase.onNotEmpty
  refine ⟨.prod i 0 fun t => (s.mon.phase t).onNotEmpty, { s with
    mon := { s.mon with
      buf := b
      phase := update (Monitor.signal (fun t => (s.mon.phase t).onNotEmpty) s.mon.phase)
        (.inl i) .out
      appended := s.mon.appended ++ [d] }
    prod := update s.prod i (.log n data) }, fun t => by simp, ?_, ?_⟩
  · simp [next, prodNext, hpc, Monitor.next, hd, hb, hsignal]
  · have hsum := sum_update s.prod ProdPc.weight i (.log n data)
    rw [hpc] at hsum
    simp only [ProdPc.weight] at hsum
    simp only [weight, ProdPc.weight]
    omega

theorem ProdReady.advances {i : Fin p} (h : Going items stale s) (hi : ProdReady s i) :
    Advances s := by
  cases hpc : s.prod i with
  | unborn | exited =>
      simp only [ProdReady, hpc] at hi
  | start =>
      have hn : prodNext s i 0 nobody = some { s with
          prod := update s.prod i .lock, prodPid := update s.prodPid i (s.main.i.getD 0) } := by
        simp [prodNext, hpc]
      exact prod_advances hn rfl (by simp [hpc, ProdPc.weight]) rfl rfl rfl rfl rfl
  | lock =>
      simp only [ProdReady, hpc] at hi
      have hn : prodNext s i 0 nobody = some { s with
          pLock := some i, prod := update s.prod i .test } := by
        simp [prodNext, hpc, hi]
      exact prod_advances hn rfl (by simp [hpc, ProdPc.weight]) rfl rfl rfl rfl rfl
  | test =>
      have hn : prodNext s i 0 nobody = some { s with
          prod := update s.prod i (if s.produced = s.itemSize then .setDone else .incr) } := by
        simp [prodNext, hpc]
      refine prod_advances hn rfl ?_ rfl rfl rfl rfl rfl
      split <;> simp [hpc, ProdPc.weight]
  | setDone =>
      have hn : prodNext s i 0 nobody = some { s with
          done := true, prod := update s.prod i .unlockExit } := by
        simp [prodNext, hpc]
      exact prod_advances hn rfl (by simp [hpc, ProdPc.weight]) rfl rfl rfl rfl rfl
  | unlockExit =>
      have hn : prodNext s i 0 nobody = some { s with
          pLock := none, prod := update s.prod i .exited } := by
        simp [prodNext, hpc]
      exact prod_advances hn rfl (by simp [hpc, ProdPc.weight]) rfl rfl rfl rfl rfl
  | incr =>
      -- the one step to a position with more weight: an item less is to be counted
      have hne : s.produced ≠ items := by simpa only [hpc, ProdPc.Ok] using h.inv.prods.ok i
      have hle := h.inv.prods.le
      have hsize := h.inv.prods.size
      have hsum := sum_update s.prod ProdPc.weight i (.unlock (s.produced + 1))
      rw [hpc] at hsum
      simp only [ProdPc.weight] at hsum
      refine ⟨.prod i 0 nobody, { s with
        produced := s.produced + 1, prod := update s.prod i (.unlock (s.produced + 1)) },
        fun t => by simp, by simp [next, prodNext, hpc], ?_⟩
      simp only [weight, ProdPc.weight]
      omega
  | unlock n =>
      have hn : prodNext s i 0 nobody = some { s with
          pLock := none, prod := update s.prod i (.call n) } := by
        simp [prodNext, hpc]
      exact prod_advances hn rfl (by simp [hpc, ProdPc.weight]) rfl rfl rfl rfl rfl
  | call n =>
      have hout : s.mon.phase (.inl i) = .out := h.inv.prods.out hpc (by simp)
      have hn : prodNext s i 0 nobody = some { s with
          mon := { s.mon with phase := update s.mon.phase (.inl i) (.appendLock 0) }
          prod := update s.prod i (.append n 0) } := by
        simp [prodNext, hpc, Monitor.next, hout]
      exact prod_advances hn rfl (by simp [hpc, ProdPc.weight]) rfl rfl rfl rfl rfl
  | append n data =>
      simp only [ProdReady, hpc] at hi
      obtain ⟨d, hd⟩ := Option.isSome_iff_exists.mp hi.2
      exact append_advances hpc h.inv.fifo.wf.size hi.1 hd
  | log n data =>
      have hn : prodNext s i 0 nobody = some { s with
          file := s.file ++ [.producer (s.prodPid i) 0 n data]
          prod := update s.prod i .lock } := by
        simp [prodNext, hpc]
      exact prod_advances hn rfl (by simp [hpc, ProdPc.weight]) rfl rfl rfl rfl rfl

/-- A consumer moves without removing. -/
theorem cons_advances {j : Fin c} {b : ConsPc} (hn : consNext s j 0 nobody = some s')
    (hcons : s'.cons = update s.cons j b) (hlt : b.weight < (s.cons j).weight)
    (hmain : s'.main = s.main) (hprod : s'.prod = s.prod) (hsize : s'.itemSize = s.itemSize)
    (hproduced : s'.produced = s.produced) (hremoved : s'.mon.removed = s.mon.removed) :
    Advances s := by
  refine ⟨.cons j 0 nobody, s', fun t => by simp, hn, ?_⟩
  have hsum := sum_update s.cons ConsPc.weight j b
  rw [weight, weight, hmain, hprod, hsize, hproduced, hremoved, hcons]
  omega

/-- `remove` finds an item, and one less is to be removed. -/
theorem remove_advances {j : Fin c} (h : Inv items stale s) (hpc : s.cons j = .remove)
    (hfull : s.mon.buf.bufferCnt = 1) (hrem : (s.mon.phase (.inr j)).removing = true) :
    Advances s := by
  obtain ⟨⟨data, b⟩, hb⟩ : ∃ r, s.mon.buf.remove = some r :=
    Option.ne_none_iff_exists'.mp fun hnone => by
      have hempty := BoundedBuffer.remove_eq_none.mp hnone
      omega
  have hsignal := signalOk_all s.mon.phase Phase.onNotFull
  refine ⟨.cons j 0 fun t => (s.mon.phase t).onNotFull, { s with
    mon := { s.mon with
      buf := b
      phase := update (Monitor.signal (fun t => (s.mon.phase t).onNotFull) s.mon.phase)
        (.inr j) .out
      removed := s.mon.removed ++ [data] }
    cons := update s.cons j (.unlock data) }, fun t => by simp, ?_, ?_⟩
  · simp [next, consNext, hpc, Monitor.next, hrem, hb, hsignal]
  · have hsum := sum_update s.cons ConsPc.weight j (.unlock data)
    rw [hpc] at hsum
    simp only [ConsPc.weight] at hsum
    have hbal := h.balance
    have hle := h.prods.le
    have hsize := h.prods.size
    simp only [weight, ConsPc.weight, List.length_append, List.length_singleton]
    omega

theorem ConsReady.advances {j : Fin c} (h : Inv items stale s) (hj : ConsReady s j) :
    Advances s := by
  cases hpc : s.cons j with
  | unborn | exited =>
      simp only [ConsReady, hpc] at hj
  | start =>
      have hn : consNext s j 0 nobody = some { s with
          cons := update s.cons j .lock, consPid := update s.consPid j (s.main.j.getD 0) } := by
        simp [consNext, hpc]
      exact cons_advances hn rfl (by simp [hpc, ConsPc.weight]) rfl rfl rfl rfl rfl
  | lock =>
      simp only [ConsReady, hpc] at hj
      have hn : consNext s j 0 nobody = some { s with
          cLock := some j, cons := update s.cons j .testEmpty } := by
        simp [consNext, hpc, hj]
      exact cons_advances hn rfl (by simp [hpc, ConsPc.weight]) rfl rfl rfl rfl rfl
  | testEmpty =>
      have hn : consNext s j 0 nobody = some { s with
          cons := update s.cons j (if s.mon.buf.isEmpty then .testDone else .call) } := by
        simp [consNext, hpc]
      refine cons_advances hn rfl ?_ rfl rfl rfl rfl rfl
      split <;> simp [hpc, ConsPc.weight]
  | testDone =>
      have hn : consNext s j 0 nobody = some { s with
          cons := update s.cons j (if s.done then .unlockExit else .call) } := by
        simp [consNext, hpc]
      refine cons_advances hn rfl ?_ rfl rfl rfl rfl rfl
      split <;> simp [hpc, ConsPc.weight]
  | unlockExit =>
      have hn : consNext s j 0 nobody = some { s with
          cLock := none, cons := update s.cons j .exited } := by
        simp [consNext, hpc]
      exact cons_advances hn rfl (by simp [hpc, ConsPc.weight]) rfl rfl rfl rfl rfl
  | call =>
      have hout : s.mon.phase (.inr j) = .out := h.conss.out hpc (by simp)
      have hn : consNext s j 0 nobody = some { s with
          mon := { s.mon with phase := update s.mon.phase (.inr j) .removeLock }
          cons := update s.cons j .remove } := by
        simp [consNext, hpc, Monitor.next, hout]
      exact cons_advances hn rfl (by simp [hpc, ConsPc.weight]) rfl rfl rfl rfl rfl
  | remove =>
      simp only [ConsReady, hpc] at hj
      exact remove_advances h hpc hj.1 hj.2
  | unlock data =>
      have hn : consNext s j 0 nobody = some { s with
          cLock := none, cons := update s.cons j (.log data) } := by
        simp [consNext, hpc]
      exact cons_advances hn rfl (by simp [hpc, ConsPc.weight]) rfl rfl rfl rfl rfl
  | log data =>
      have hn : consNext s j 0 nobody = some { s with
          file := s.file ++ [.consumer (s.consPid j) 0 data]
          cons := update s.cons j .lock } := by
        simp [consNext, hpc]
      exact cons_advances hn rfl (by simp [hpc, ConsPc.weight]) rfl rfl rfl rfl rfl

/-! ## Some thread can go on -/

/-- Whoever is woken because there is room is a producer that can make a step. -/
theorem Going.woken_append (h : Going items stale s) (hempty : s.mon.buf.bufferCnt = 0)
    {t : Fin p ⊕ Fin c} (ht : (s.mon.phase t).wokenNotFull = true) : ∃ i, ProdReady s i := by
  cases t with
  | inl i =>
      obtain ⟨n, data, hpc, happending⟩ := (h.inv.prods.phase i).wokenNotFull ht
      refine ⟨i, ?_⟩
      simp only [ProdReady, hpc]
      exact ⟨hempty, happending⟩
  | inr j =>
      rw [(h.inv.conss.phase j).wokenNotFull] at ht
      cases ht

/-- Whoever is woken because there is an item is a consumer that can make a step. -/
theorem Going.woken_remove (h : Going items stale s) (hfull : s.mon.buf.bufferCnt = 1)
    {t : Fin p ⊕ Fin c} (ht : (s.mon.phase t).wokenNotEmpty = true) : ∃ j, ConsReady s j := by
  cases t with
  | inl i =>
      rw [(h.inv.prods.phase i).wokenNotEmpty] at ht
      cases ht
  | inr j =>
      obtain ⟨hpc, hremoving⟩ := (h.inv.conss.phase j).wokenNotEmpty ht
      refine ⟨j, ?_⟩
      simp only [ConsReady, hpc]
      exact ⟨hfull, hremoving⟩

/-- A producer inside `append`, and room: it can go on, or one that was woken before it. -/
theorem Going.append_ready (h : Going items stale s) {i : Fin p} {n data : Int}
    (hpc : s.prod i = .append n data) (hempty : s.mon.buf.bufferCnt = 0) :
    ∃ k, ProdReady s k := by
  have hin := h.inv.prods.phase i
  rw [hpc] at hin
  have hready : (s.mon.phase (.inl i)).appending.isSome → ∃ k, ProdReady s k := by
    intro happending
    refine ⟨i, ?_⟩
    simp only [ProdReady, hpc]
    exact ⟨hempty, happending⟩
  rcases hin with hph | hph | hph
  · exact hready (by rw [hph]; rfl)
  · -- it waits, so a signal is on its way to somebody
    have hwaits : 0 < tally s.mon.phase Phase.onNotFull := tally_pos.mpr ⟨.inl i, by rw [hph]; rfl⟩
    have hwoken := h.awake.notFull hwaits
    obtain ⟨t, ht⟩ := tally_pos.mp (by omega : 0 < tally s.mon.phase Phase.wokenNotFull)
    exact h.woken_append hempty ht
  · exact hready (by rw [hph]; rfl)

/-- A consumer inside `remove`, and an item: it can go on, or one that was woken before it. -/
theorem Going.remove_ready (h : Going items stale s) {j : Fin c} (hpc : s.cons j = .remove)
    (hfull : s.mon.buf.bufferCnt = 1) : ∃ k, ConsReady s k := by
  have hin := h.inv.conss.phase j
  rw [hpc] at hin
  have hready : (s.mon.phase (.inr j)).removing = true → ∃ k, ConsReady s k := by
    intro hremoving
    refine ⟨j, ?_⟩
    simp only [ConsReady, hpc]
    exact ⟨hfull, hremoving⟩
  rcases hin with hph | hph | hph
  · exact hready (by rw [hph]; rfl)
  · have hwaits : 0 < tally s.mon.phase Phase.onNotEmpty := tally_pos.mpr ⟨.inr j, by rw [hph]; rfl⟩
    have hwoken := h.awake.notEmpty hwaits
    obtain ⟨t, ht⟩ := tally_pos.mp (by omega : 0 < tally s.mon.phase Phase.wokenNotEmpty)
    exact h.woken_remove hfull ht
  · exact hready (by rw [hph]; rfl)

/-- The buffer is full and a consumer is left: a consumer can go on. -/
theorem Going.cons_ready (h : Going items stale s) (hcreated : c ≤ s.main.createdC c)
    (hfull : s.mon.buf.bufferCnt = 1) (hleft : ∃ j, s.cons j ≠ .exited) :
    ∃ j, ConsReady s j := by
  cases hlock : s.cLock with
  | some j =>
      -- whoever holds `c_lock`
      have hholds : (s.cons j).holds = true := (h.inv.conss.mutex j).mpr hlock
      cases hpc : s.cons j with
      | remove => exact h.remove_ready hpc hfull
      | unborn | start | lock | log _ | exited =>
          rw [hpc] at hholds
          cases hholds
      | _ => exact ⟨j, by simp only [ConsReady, hpc]⟩
  | none =>
      obtain ⟨j, hj⟩ := hleft
      have hborn := h.born.conss j (lt_of_lt_of_le j.isLt hcreated)
      have hfree : (s.cons j).holds ≠ true := by
        rw [ne_eq, h.inv.conss.mutex j, hlock]
        simp
      refine ⟨j, ?_⟩
      cases hpc : s.cons j with
      | unborn => exact absurd hpc hborn
      | exited => exact absurd hpc hj
      | lock => simpa only [ConsReady, hpc] using hlock
      | start | log _ => simp only [ConsReady, hpc]
      | _ =>
          rw [hpc] at hfree
          exact absurd rfl hfree

/-- **Somebody can go on** until the producers have exited. -/
theorem Going.advances (h : Going items stale s) (hroom : Room s)
    (hleft : ∃ i, s.prod i ≠ .exited) : Advances s := by
  by_cases hm : s.main.createdP p < p ∨ s.main.createdC c < c
  · exact h.creates hm
  rw [not_or, not_lt, not_lt] at hm
  cases hlock : s.pLock with
  | some i =>
      have hholds : (s.prod i).holds = true := (h.inv.prods.mutex i).mpr hlock
      refine ProdReady.advances (i := i) h ?_
      cases hpc : s.prod i with
      | unborn | start | lock | call _ | append _ _ | log _ _ | exited =>
          rw [hpc] at hholds
          cases hholds
      | _ => simp only [ProdReady, hpc]
  | none =>
      obtain ⟨i, hi⟩ := hleft
      have hborn := h.born.prods i (lt_of_lt_of_le i.isLt hm.1)
      cases hpc : s.prod i with
      | unborn => exact absurd hpc hborn
      | exited => exact absurd hpc hi
      | lock => exact ProdReady.advances (i := i) h (by simpa only [ProdReady, hpc] using hlock)
      | append n data =>
          have hwf := h.inv.fifo.wf
          rcases (by have := hwf.cnt_nonneg; have := hwf.cnt_le; omega :
            s.mon.buf.bufferCnt = 0 ∨ s.mon.buf.bufferCnt = 1) with hempty | hfull
          · obtain ⟨k, hk⟩ := h.append_ready hpc hempty
            exact hk.advances h
          · obtain ⟨j, hj⟩ := h.cons_ready hm.2 hfull (hroom i n data hpc hfull)
            exact hj.advances h.inv
      | _ => exact ProdReady.advances (i := i) h (by simp only [ProdReady, hpc])

/-- **The producers can always get to their exit** in a call that keeps room for them. -/
theorem producers_exit (hitems : 0 ≤ items) (hroom : (callFrom p c items 0 stale).Invariant Room) :
    (callFrom p c items 0 stale).Invariant fun s =>
      ∃ t, (callFrom p c items 0 stale).PathUnder Caused s t ∧ ∀ i, t.prod i = .exited := by
  intro s hs
  have hprogress : ∀ s, (callFrom p c items 0 stale).Reachable s → (¬ ∀ i, s.prod i = .exited) →
      ∃ t, (callFrom p c items 0 stale).PathUnder Caused s t ∧
        (callFrom p c items 0 stale).Reachable t ∧ t.weight < s.weight := by
    intro s hs hleft
    rw [not_forall] at hleft
    obtain ⟨a, t, ha, hn, hlt⟩ := (going_invariant hitems s hs).advances (hroom s hs) hleft
    exact ⟨t, TSys.PathUnder.refl.step ha hn, hs.step hn, hlt⟩
  obtain ⟨t, hst, -, ht⟩ := TSys.PathUnder.of_measure weight hprogress hs
  exact ⟨t, hst, ht⟩

end Program

end Os377.ProdCon
