import Os377.ProdCon.ProgramInv

/-!
# Schedules of a call

What some run of a call comes to, whatever `produced` and `done` it finds: `main` creates the
threads, the producers append one item after the other, each of which a consumer removes at
once, and the producers exit when the count is right. Three schedules end in a dead end: the
consumers are gone, the buffer is full, and items are still missing.
-/

namespace Os377.ProdCon

open Os377.Lib Function

namespace Program

variable {p c : Nat} {items first : Int} {stale : Bool} {s s' : Program p c}

theorem signal_nobody (phase : Fin p ⊕ Fin c → Phase) :
    Monitor.signal nobody phase = phase := rfl

/-- One thread is at `b`, and nobody else in the buffer: there is nobody to wake. -/
theorem nobody_ok {phase : Fin p ⊕ Fin c → Phase} {waits : Phase → Bool}
    (hout : ∀ t, phase t = .out) (t : Fin p ⊕ Fin c) {b : Phase} (hb : waits b = false)
    (hidle : waits .out = false) : Monitor.SignalOk (update phase t b) waits nobody := by
  refine ⟨fun u hu => by simp [nobody] at hu, ?_⟩
  rintro ⟨u, hu⟩
  by_cases hut : u = t
  · rw [hut, update_self, hb] at hu
    cases hu
  · rw [update_of_ne hut, hout, hidle] at hu
    cases hu

/-! ## The moves of one thread -/

/-- A producer takes a number. -/
theorem reaches_take (hs : (callFrom p c items first stale).Reachable s) {i : Fin p}
    (hlock : s.prod i = .lock) (hfree : s.pLock = none) (hne : s.produced ≠ s.itemSize) :
    (callFrom p c items first stale).Reachable { s with
      produced := s.produced + 1, prod := update s.prod i (.call (s.produced + 1)) } := by
  refine hs.run (?_ : TSys.run _ s (List.replicate 4 (.prod i 0 nobody)) = _)
  simp [TSys.run, callFrom, next, prodNext, hlock, hfree, hne, List.replicate]

/-- With nobody else in the empty buffer, it appends its item. -/
theorem reaches_append (hs : (callFrom p c items first stale).Reachable s) {i : Fin p} {n : Int}
    (hcall : s.prod i = .call n) (hout : ∀ t, s.mon.phase t = .out)
    (hsize : s.mon.buf.bufferSize = 1) (hempty : s.mon.buf.bufferCnt = 0) :
    ∃ m : Monitor.State (Fin p ⊕ Fin c), m.phase = s.mon.phase ∧
      m.appended = s.mon.appended ++ [0] ∧ m.buf.bufferSize = 1 ∧ m.buf.bufferCnt = 1 ∧
      (callFrom p c items first stale).Reachable { s with
        mon := m, prod := update s.prod i (.log n 0) } := by
  obtain ⟨b, hb⟩ : ∃ b, s.mon.buf.append 0 = some b :=
    Option.ne_none_iff_exists'.mp fun hnone => by
      have hfull := BoundedBuffer.append_eq_none.mp hnone
      omega
  have hb' : b.bufferSize = 1 ∧ b.bufferCnt = 1 := by
    simp only [BoundedBuffer.append, hempty, hsize] at hb
    norm_num at hb
    rw [← hb]
    exact ⟨rfl, rfl⟩
  -- into the monitor and out again
  have hback : update s.mon.phase (.inl i) .out = s.mon.phase := by
    rw [← hout (.inl i), update_eq_self]
  have hsignal : Monitor.SignalOk (update s.mon.phase (.inl i) (.appendLock 0)) Phase.onNotEmpty
      nobody := nobody_ok hout (.inl i) rfl rfl
  refine ⟨{ s.mon with buf := b, appended := s.mon.appended ++ [0] }, rfl, rfl, hb'.1, hb'.2,
    hs.run (?_ : TSys.run _ s (List.replicate 2 (.prod i 0 nobody)) = _)⟩
  simp [TSys.run, callFrom, next, prodNext, hcall, Monitor.next, hout, hb, hsignal,
    Phase.appending, List.replicate, signal_nobody, hback]

/-- It writes its line. -/
theorem reaches_line (hs : (callFrom p c items first stale).Reachable s) {i : Fin p}
    {n data : Int} (hlog : s.prod i = .log n data) :
    ∃ f, (callFrom p c items first stale).Reachable { s with
      file := f, prod := update s.prod i .lock } := by
  have hn : (callFrom p c items first stale).next s (.prod i 0 nobody) = some { s with
      file := s.file ++ [.producer (s.prodPid i) 0 n data]
      prod := update s.prod i .lock } := by
    simp [callFrom, next, prodNext, hlog]
  exact ⟨_, hs.step hn⟩

/-- When `produced` is right, it exits. -/
theorem reaches_stop (hs : (callFrom p c items first stale).Reachable s) {i : Fin p}
    (hlock : s.prod i = .lock) (hfree : s.pLock = none) (hfull : s.produced = s.itemSize) :
    (callFrom p c items first stale).Reachable { s with
      done := true, prod := update s.prod i .exited } := by
  refine hs.run (?_ : TSys.run _ s (List.replicate 4 (.prod i 0 nobody)) = _)
  simp [TSys.run, callFrom, next, prodNext, hlock, hfree, hfull, List.replicate]

/-- A consumer removes an item. -/
theorem reaches_remove (hs : (callFrom p c items first stale).Reachable s) {j : Fin c}
    (hlock : s.cons j = .lock) (hfree : s.cLock = none) (hout : ∀ t, s.mon.phase t = .out)
    (hsize : s.mon.buf.bufferSize = 1) (hcnt : s.mon.buf.bufferCnt = 1) :
    ∃ (m : Monitor.State (Fin p ⊕ Fin c)) (f : List Line), m.phase = s.mon.phase ∧
      m.appended = s.mon.appended ∧ m.buf.bufferSize = 1 ∧ m.buf.bufferCnt = 0 ∧
      (callFrom p c items first stale).Reachable { s with mon := m, file := f } := by
  have hempty : s.mon.buf.isEmpty = false := by
    rw [BoundedBuffer.isEmpty, hcnt]
    rfl
  obtain ⟨⟨data, b⟩, hb⟩ : ∃ r, s.mon.buf.remove = some r := by
    rw [BoundedBuffer.remove, hempty]
    exact ⟨_, rfl⟩
  have hb' : b.bufferSize = 1 ∧ b.bufferCnt = 0 := by
    rw [BoundedBuffer.remove, hempty] at hb
    obtain ⟨-, rfl⟩ := Prod.mk.inj (Option.some.inj hb)
    exact ⟨hsize, by rw [hcnt]; rfl⟩
  have hback : update s.mon.phase (.inr j) .out = s.mon.phase := by
    rw [← hout (.inr j), update_eq_self]
  have hsignal : Monitor.SignalOk (update s.mon.phase (.inr j) .removeLock) Phase.onNotFull
      nobody := nobody_ok hout (.inr j) rfl rfl
  have hcons : update s.cons j .lock = s.cons := by
    rw [← hlock, update_eq_self]
  refine ⟨{ s.mon with buf := b, removed := s.mon.removed ++ [data] },
    s.file ++ [.consumer (s.consPid j) 0 data], rfl, rfl, hb'.1, hb'.2,
    hs.run (?_ : TSys.run _ s (List.replicate 6 (.cons j 0 nobody)) = _)⟩
  simp [TSys.run, callFrom, next, consNext, hlock, hfree, hempty, Monitor.next, hout, hb,
    hsignal, Phase.removing, List.replicate, signal_nobody, hback, hcons]

/-- A consumer that has seen the buffer empty finds `done` set, and quits. -/
theorem reaches_leave (hs : (callFrom p c items first stale).Reachable s) {j : Fin c}
    (htest : s.cons j = .testDone) (hdone : s.done = true) :
    (callFrom p c items first stale).Reachable { s with
      cLock := none, cons := update s.cons j .exited } := by
  refine hs.run (?_ : TSys.run _ s (List.replicate 2 (.cons j 0 nobody)) = _)
  simp [TSys.run, callFrom, next, consNext, htest, hdone, List.replicate]

/-- The consumers find the buffer empty and `done` set, and quit one after the other. -/
theorem reaches_quit (hs : (callFrom p c items first stale).Reachable s) (hdone : s.done = true)
    (hempty : s.mon.buf.bufferCnt = 0) (hfree : s.cLock = none) (hlock : ∀ j, s.cons j = .lock)
    {n : Nat} (hn : n ≤ c) :
    (callFrom p c items first stale).Reachable { s with
      cons := fun j => if (j : Nat) < n then .exited else .lock } := by
  induction n with
  | zero =>
      have hcons : (fun j : Fin c => if (j : Nat) < 0 then ConsPc.exited else .lock) = s.cons := by
        funext j
        simp [hlock]
      rw [hcons]
      exact hs
  | succ n ih =>
      have hnc : n < c := by omega
      have hisEmpty : s.mon.buf.isEmpty = true := by
        rw [BoundedBuffer.isEmpty, hempty]
        rfl
      have hcons : (fun j : Fin c => if (j : Nat) < n + 1 then ConsPc.exited else .lock) =
          update (fun j : Fin c => if (j : Nat) < n then ConsPc.exited else .lock) ⟨n, hnc⟩
            .exited := by
        funext j
        by_cases hj : j = ⟨n, hnc⟩
        · rw [hj, update_self]
          simp
        · rw [update_of_ne hj]
          have hne : (j : Nat) ≠ n := fun heq => hj (Fin.ext heq)
          exact if_congr (by omega) rfl rfl
      have hs' := ih (by omega)
      refine hs'.run (?_ : TSys.run _ _ (List.replicate 4 (.cons ⟨n, hnc⟩ 0 nobody)) = _)
      rw [hcons]
      simp [TSys.run, callFrom, next, consNext, hfree, hisEmpty, hdone, List.replicate]

/-! ## One item after the other -/

/-- All threads that exist are at the top of their loops and outside the buffer, which is
empty. -/
structure Resting (items : Int) (i j : Nat) (s : Program p c) : Prop where
  size : s.itemSize = items
  prods : ∀ k : Fin p, k < i → s.prod k = .lock
  conss : ∀ k : Fin c, k < j → s.cons k = .lock
  pLock : s.pLock = none
  cLock : s.cLock = none
  out : ∀ t, s.mon.phase t = .out
  bufferSize : s.mon.buf.bufferSize = 1
  bufferCnt : s.mon.buf.bufferCnt = 0

/-- The creating loop of the producers, each of which reads its number at once. -/
theorem reaches_producers (p c : Nat) (items first : Int) (stale : Bool) {i : Nat} (hi : i ≤ p) :
    ∃ s : Program p c, (callFrom p c items first stale).Reachable s ∧ Resting items i 0 s ∧
      s.main = .createP i ∧ s.produced = first ∧ s.mon.appended = [] := by
  induction i with
  | zero =>
      refine ⟨start p c items first stale fun _ => 0, .init ⟨_, rfl⟩, ?_, rfl, rfl, rfl⟩
      exact ⟨rfl, fun k hk => absurd hk (by omega), fun k hk => absurd hk (by omega), rfl, rfl,
        fun _ => rfl, rfl, rfl⟩
  | succ i ih =>
      obtain ⟨s, hs, h, hmain, hproduced, happended⟩ := ih (by omega)
      have hip : i < p := by omega
      -- created, its number read, and only then the increment
      have hrun : (callFrom p c items first stale).run s
          [.main, .prod ⟨i, hip⟩ 0 nobody, .main] = some { s with
            prod := update s.prod ⟨i, hip⟩ .lock
            prodPid := update s.prodPid ⟨i, hip⟩ i
            main := .createP (i + 1) } := by
        simp [TSys.run, callFrom, next, mainNext, prodNext, hmain, hip, MainPc.i]
      refine ⟨_, hs.run hrun, { h with prods := fun k hk => ?_ }, rfl, hproduced, happended⟩
      show update s.prod ⟨i, hip⟩ .lock k = .lock
      by_cases hki : k = ⟨i, hip⟩
      · rw [hki, update_self]
      · rw [update_of_ne hki]
        have hne : (k : Nat) ≠ i := fun heq => hki (Fin.ext heq)
        exact h.prods k (by omega)

/-- The creating loop of the consumers. -/
theorem reaches_consumers (p c : Nat) (items first : Int) (stale : Bool) {j : Nat} (hj : j ≤ c) :
    ∃ s : Program p c, (callFrom p c items first stale).Reachable s ∧ Resting items p j s ∧
      s.main = .createC j ∧ s.produced = first ∧ s.mon.appended = [] := by
  induction j with
  | zero =>
      obtain ⟨s, hs, h, hmain, hproduced, happended⟩ :=
        reaches_producers p c items first stale (le_refl p)
      have hnext : (callFrom p c items first stale).next s .main =
          some { s with main := .createC 0 } := by
        simp [callFrom, next, mainNext, hmain]
      exact ⟨_, hs.step hnext, { h with }, rfl, hproduced, happended⟩
  | succ j ih =>
      obtain ⟨s, hs, h, hmain, hproduced, happended⟩ := ih (by omega)
      have hjc : j < c := by omega
      have hrun : (callFrom p c items first stale).run s
          [.main, .cons ⟨j, hjc⟩ 0 nobody, .main] = some { s with
            cons := update s.cons ⟨j, hjc⟩ .lock
            consPid := update s.consPid ⟨j, hjc⟩ j
            main := .createC (j + 1) } := by
        simp [TSys.run, callFrom, next, mainNext, consNext, hmain, hjc, MainPc.j]
      refine ⟨_, hs.run hrun, { h with conss := fun k hk => ?_ }, rfl, hproduced, happended⟩
      show update s.cons ⟨j, hjc⟩ .lock k = .lock
      by_cases hkj : k = ⟨j, hjc⟩
      · rw [hkj, update_self]
      · rw [update_of_ne hkj]
        have hne : (k : Nat) ≠ j := fun heq => hkj (Fin.ext heq)
        exact h.conss k (by omega)

/-- One item: a producer appends it, a consumer removes it. -/
theorem Resting.item (hs : (callFrom p c items first stale).Reachable s) (h : Resting items p c s)
    (i : Fin p) (j : Fin c) (hne : s.produced ≠ items) :
    ∃ s' : Program p c, (callFrom p c items first stale).Reachable s' ∧ Resting items p c s' ∧
      s'.produced = s.produced + 1 ∧
      s'.mon.appended.length = s.mon.appended.length + 1 := by
  have hlock : s.prod i = .lock := h.prods i i.isLt
  have htake := reaches_take hs hlock h.pLock (h.size ▸ hne)
  obtain ⟨m, hphase, happended, hsize, hcnt, happend⟩ :=
    reaches_append htake (update_self i _ _) h.out h.bufferSize h.bufferCnt
  obtain ⟨f, hline⟩ := reaches_line happend (update_self i _ _)
  -- the item goes at once, so the buffer of one has room again
  have hout : ∀ t, m.phase t = .out := fun t => (congrFun hphase t).trans (h.out t)
  obtain ⟨m', f', hphase', happended', hsize', hcnt', hremove⟩ :=
    reaches_remove hline (h.conss j j.isLt) h.cLock hout hsize hcnt
  refine ⟨_, hremove, ⟨h.size, fun k hk => ?_, h.conss, h.pLock, h.cLock,
    fun t => (congrFun hphase' t).trans (hout t), hsize', hcnt'⟩, rfl, ?_⟩
  · show update (update (update s.prod i _) i _) i .lock k = .lock
    rw [update_idem, update_idem, ← hlock, update_eq_self]
    exact (h.prods k hk).trans hlock.symm
  · show m'.appended.length = _
    rw [happended', happended, List.length_append, List.length_singleton]

/-- As many items as `produced` is away from the call's own number, or any number of them
if it never gets there. -/
theorem reaches_items (hp : 1 ≤ p) (hc : 1 ≤ c) (items first : Int) (stale : Bool) {n : Nat}
    (hn : ∀ k : Nat, k < n → first + k ≠ items) :
    ∃ s : Program p c, (callFrom p c items first stale).Reachable s ∧ Resting items p c s ∧
      s.produced = first + n ∧ s.mon.appended.length = n := by
  induction n with
  | zero =>
      obtain ⟨s, hs, h, -, hproduced, happended⟩ :=
        reaches_consumers p c items first stale (le_refl c)
      exact ⟨s, hs, h, by simpa using hproduced, by rw [happended]; rfl⟩
  | succ n ih =>
      obtain ⟨s, hs, h, hproduced, happended⟩ := ih fun k hk => hn k (by omega)
      obtain ⟨s', hs', h', hproduced', happended'⟩ :=
        h.item hs ⟨0, hp⟩ ⟨0, hc⟩ (hproduced ▸ hn n (by omega))
      exact ⟨s', hs', h', by push_cast; omega, by omega⟩

/-- When `produced` is right, the producers exit one after the other. -/
theorem reaches_exit (hs : (callFrom p c items first stale).Reachable s)
    (h : Resting items p c s) (heq : s.produced = items) {n : Nat} (hn : n ≤ p) :
    ∃ s' : Program p c, (callFrom p c items first stale).Reachable s' ∧
      (∀ k : Fin p, s'.prod k = if (k : Nat) < n then .exited else .lock) ∧ s'.pLock = none ∧
      s'.produced = s'.itemSize ∧ s'.mon = s.mon := by
  induction n with
  | zero =>
      exact ⟨s, hs, fun k => by simp [h.prods k k.isLt], h.pLock, heq.trans h.size.symm, rfl⟩
  | succ n ih =>
      obtain ⟨t, ht, hprod, hfree, hfull, hmon⟩ := ih (by omega)
      have hnp : n < p := by omega
      have hlock : t.prod ⟨n, hnp⟩ = .lock := by simp [hprod]
      refine ⟨_, reaches_stop ht hlock hfree hfull, fun k => ?_, hfree, hfull, hmon⟩
      show update t.prod ⟨n, hnp⟩ .exited k = _
      by_cases hk : k = ⟨n, hnp⟩
      · rw [hk, update_self]
        simp
      · rw [update_of_ne hk, hprod]
        have hne : (k : Nat) ≠ n := fun heq => hk (Fin.ext heq)
        exact if_congr (by omega) rfl rfl

/-! ## Dead ends -/

/-- The consumers are gone, the buffer is full, and items are missing. -/
structure DeadEnd (items : Int) (s : Program p c) : Prop where
  gone : ∀ j, s.cons j = .exited
  full : s.mon.buf.bufferCnt = s.mon.buf.bufferSize
  missing : (s.mon.appended.length : Int) < items

/-- Nobody gets out of a dead end. -/
theorem DeadEnd.step {a : Act p c} (hcons : ConsInv s) (h : DeadEnd items s) (hs : Step s a s') :
    DeadEnd items s' := by
  have hnone : ∀ d, s.mon.buf.append d = none := fun d => BoundedBuffer.append_eq_none.mpr h.full
  have hgone : ∀ {j pc}, s.cons j = pc → pc ≠ .exited → False :=
    fun hpc hne => hne (hpc.symm.trans (h.gone _))
  have hmon : ∀ {t w m}, Monitor.next s.mon (.lockAppend t w) = some m →
      m.buf = s.mon.buf ∧ m.appended = s.mon.appended := by
    intro t w m hm
    cases Monitor.step_of_next hm with
    | appendWaits _ _ => exact ⟨rfl, rfl⟩
    | appends _ hb _ =>
        rw [hnone] at hb
        cases hb
  cases hs with
  | @createC j hm =>
      exact (hgone (hcons.unborn j (by simp [hm, MainPc.createdC])) (by simp)).elim
  | prodCall _ hm =>
      cases Monitor.step_of_next hm
      exact ⟨h.gone, h.full, h.missing⟩
  | prodWaits _ hm _ | prodAppends _ hm _ =>
      obtain ⟨hbuf, happended⟩ := hmon hm
      exact ⟨h.gone, by simp only [hbuf, h.full], by simpa only [happended] using h.missing⟩
  | consStart hpc | consLock hpc _ | consEmpty hpc _ | consNonempty hpc _ | consQuit hpc _
  | consStay hpc _ | consExit hpc | consCall hpc _ | consWaits hpc _ _ | consRemoves hpc _ _
  | consUnlock hpc | consLog hpc => exact (hgone hpc (by simp)).elim
  | spurious hm =>
      cases Monitor.step_of_next hm with
      | _ => exact ⟨h.gone, h.full, h.missing⟩
  | _ => exact ⟨h.gone, h.full, h.missing⟩

/-- However a run goes on from a dead end, the items stay missing. -/
theorem DeadEnd.path {C : Program p c → Act p c → Prop}
    (hs : (callFrom p c items first stale).Reachable s) (h : DeadEnd items s)
    (hst : (callFrom p c items first stale).PathUnder C s s') : DeadEnd items s' := by
  have hcons : (callFrom p c items first stale).Invariant ConsInv := by
    refine TSys.Inductive.invariant ⟨?_, fun _ _ _ h _ hn => step_consInv h (step_of_next hn)⟩
    rintro s ⟨mem, rfl⟩
    exact start_consInv mem
  have hboth : (callFrom p c items first stale).Reachable s' ∧ DeadEnd items s' := by
    induction hst with
    | refl => exact ⟨hs, h⟩
    | step _ _ hn ih => exact ⟨ih.1.step hn, ih.2.step (hcons _ ih.1) (step_of_next hn)⟩
  exact hboth.2

/-- A stale `done` stays. -/
theorem stale_done : (callFrom p c items first true).Invariant fun s => s.done = true := by
  refine TSys.Inductive.invariant ⟨?_, fun s a s' h _ hn => ?_⟩
  · rintro s ⟨mem, rfl⟩
    rfl
  · cases step_of_next hn with
    | prodSetDone _ => rfl
    | _ => exact h

/-- `done` is left over from another call: the consumers quit at once, and the second item
finds the buffer full. -/
theorem stale_dead_end (hp : 1 ≤ p) (hc : 1 ≤ c) (hitems : 2 ≤ items) :
    ∃ s : Program p c, (callFrom p c items 0 true).Reachable s ∧ DeadEnd items s := by
  obtain ⟨s, hs, h, hproduced, happended⟩ :=
    reaches_items hp hc items 0 true (n := 0) fun k hk => absurd hk (Nat.not_lt_zero k)
  have hquit := reaches_quit hs (stale_done s hs) h.bufferCnt h.cLock
    (fun j => h.conss j j.isLt) (le_refl c)
  have htake := reaches_take hquit (i := ⟨0, hp⟩) (h.prods _ hp) h.pLock (by
    show s.produced ≠ s.itemSize
    rw [h.size]
    omega)
  obtain ⟨m, -, happended', hsize, hcnt, happend⟩ :=
    reaches_append htake (update_self _ _ _) h.out h.bufferSize h.bufferCnt
  refine ⟨_, happend, fun j => if_pos j.isLt, hcnt.trans hsize.symm, ?_⟩
  show (m.appended.length : Int) < items
  rw [happended', List.length_append, happended, List.length_singleton]
  omega

/-- Two producers have an item in hand and a third one sets `done`: the consumers quit, and
the second of the two finds the buffer full. -/
theorem crowd_dead_end (hp : 3 ≤ p) (hc : 1 ≤ c) (hitems : 2 ≤ items) :
    ∃ s : Program p c, (callFrom p c items 0 stale).Reachable s ∧ DeadEnd items s := by
  obtain ⟨s, hs, h, hproduced, happended⟩ :=
    reaches_items (by omega : 1 ≤ p) hc items 0 stale (n := (items - 2).toNat) fun k hk => by omega
  have hsize := h.size
  have hlock : ∀ i, s.prod i = .lock := fun i => h.prods i i.isLt
  set i₀ : Fin p := ⟨0, by omega⟩
  set i₁ : Fin p := ⟨1, by omega⟩
  set i₂ : Fin p := ⟨2, by omega⟩
  have h01 : i₀ ≠ i₁ := by simp [i₀, i₁]
  have h02 : i₂ ≠ i₀ := by simp [i₀, i₂]
  have h12 : i₂ ≠ i₁ := by simp [i₁, i₂]
  have htake := reaches_take hs (hlock i₀) h.pLock (by omega)
  have hlock₁ : update s.prod i₀ (.call (s.produced + 1)) i₁ = .lock :=
    (update_of_ne h01.symm _ _).trans (hlock i₁)
  have htake' := reaches_take (i := i₁) htake hlock₁ h.pLock
    (by show s.produced + 1 ≠ s.itemSize; omega)
  set taken := update (update s.prod i₀ (.call (s.produced + 1))) i₁ (.call (s.produced + 1 + 1))
  have hlock₂ : taken i₂ = .lock :=
    (update_of_ne h12 _ _).trans ((update_of_ne h02 _ _).trans (hlock i₂))
  have hstop := reaches_stop (i := i₂) htake' hlock₂ h.pLock
    (by show s.produced + 1 + 1 = s.itemSize; omega)
  have hquit := reaches_quit hstop rfl h.bufferCnt h.cLock (fun j => h.conss j j.isLt) (le_refl c)
  have hcall : update taken i₂ .exited i₀ = .call (s.produced + 1) :=
    (update_of_ne h02.symm _ _).trans ((update_of_ne h01 _ _).trans (update_self _ _ _))
  obtain ⟨m, -, happended', hsize', hcnt, happend⟩ :=
    reaches_append (i := i₀) hquit hcall h.out h.bufferSize h.bufferCnt
  refine ⟨_, happend, fun j => if_pos j.isLt, hcnt.trans hsize'.symm, ?_⟩
  show (m.appended.length : Int) < items
  rw [happended', List.length_append, happended, List.length_singleton]
  omega

/-- The only consumer has seen the buffer empty before the last two items were counted: it
quits when the first of them is in the buffer, and the second one finds it full. -/
theorem late_dead_end (hp : 2 ≤ p) (hitems : 2 ≤ items) :
    ∃ s : Program p 1, (callFrom p 1 items 0 stale).Reachable s ∧ DeadEnd items s := by
  obtain ⟨s, hs, h, hproduced, happended⟩ :=
    reaches_items (by omega : 1 ≤ p) (le_refl 1) items 0 stale (n := (items - 2).toNat)
      fun k hk => by omega
  have hsize := h.size
  have hlock : ∀ i, s.prod i = .lock := fun i => h.prods i i.isLt
  have hcons : s.cons 0 = .lock := h.conss 0 Nat.one_pos
  have hempty : s.mon.buf.isEmpty = true := by
    rw [BoundedBuffer.isEmpty, h.bufferCnt]
    rfl
  set i₀ : Fin p := ⟨0, by omega⟩
  set i₁ : Fin p := ⟨1, by omega⟩
  have h01 : i₀ ≠ i₁ := by simp [i₀, i₁]
  -- `isEmpty()` is true, and `done` not read yet
  have htest : (callFrom p 1 items 0 stale).Reachable { s with
      cLock := some 0, cons := update s.cons 0 .testDone } := by
    refine hs.run (?_ : TSys.run _ s (List.replicate 2 (.cons 0 0 nobody)) = _)
    simp [TSys.run, callFrom, next, consNext, hcons, h.cLock, hempty, List.replicate]
  have htake := reaches_take htest (hlock i₀) h.pLock (by show s.produced ≠ s.itemSize; omega)
  have hlock₁ : update s.prod i₀ (.call (s.produced + 1)) i₁ = .lock :=
    (update_of_ne h01.symm _ _).trans (hlock i₁)
  have htake' := reaches_take (i := i₁) htake hlock₁ h.pLock
    (by show s.produced + 1 ≠ s.itemSize; omega)
  set taken := update (update s.prod i₀ (.call (s.produced + 1))) i₁ (.call (s.produced + 1 + 1))
  have hcall : taken i₁ = .call (s.produced + 1 + 1) := update_self _ _ _
  obtain ⟨m, -, happended', hsize', hcnt, happend⟩ :=
    reaches_append (i := i₁) htake' hcall h.out h.bufferSize h.bufferCnt
  set logging := update taken i₁ (.log (s.produced + 1 + 1) 0)
  have hlog : logging i₁ = .log (s.produced + 1 + 1) 0 := update_self _ _ _
  obtain ⟨f, hline⟩ := reaches_line (i := i₁) happend hlog
  have hback : update logging i₁ .lock i₁ = .lock := update_self _ _ _
  have hstop := reaches_stop (i := i₁) hline hback h.pLock
    (by show s.produced + 1 + 1 = s.itemSize; omega)
  have hquit := reaches_leave (j := 0) hstop rfl rfl
  refine ⟨_, hquit, fun j => ?_, hcnt.trans hsize'.symm, ?_⟩
  · show update (update s.cons 0 .testDone) 0 .exited j = .exited
    rw [Subsingleton.elim j 0, update_self]
  · show (m.appended.length : Int) < items
    rw [happended', List.length_append, happended, List.length_singleton]
    omega

end Program

end Os377.ProdCon
