import Os377.Lib.Mutex
import Os377.ProdCon.Program

/-!
# Invariants of one producer/consumer run

`Step` says once what a step of the program can do; the invariants are proved
against it. They come in two halves that hardly meet:

* `ProdInv` — the producers: who holds `p_lock`, how `produced`, the appends
  done and the appends still owed fit together, and what `done` tells;
* `ConsInv` — the consumers: who holds `c_lock` and where they are inside the
  buffer.

Each half is stable under the other half's steps because a critical section of
the buffer shows the remaining threads nothing but a wake-up
(`Monitor.Step.other`).
-/

namespace Os377.ProdCon

open Os377.Lib Function

namespace Monitor

variable {T : Type} [Fintype T] [DecidableEq T]

/-- The thread a label moves. -/
def Act.thread : Act T → T
  | .callAppend t _ => t
  | .callRemove t => t
  | .lockAppend t _ => t
  | .lockRemove t _ => t
  | .spurious t => t

omit [Fintype T] [DecidableEq T] in
theorem signal_or_wake (woken : T → Bool) (phase : T → Phase) (u : T) :
    signal woken phase u = phase u ∨ signal woken phase u = (phase u).wake := by
  unfold signal
  split
  · exact .inr rfl
  · exact .inl rfl

omit [Fintype T] in
/-- A step of one thread leaves the others where they are or wakes them. -/
theorem Step.other {s s' : State T} {a : Act T} (h : Step s a s') {u : T}
    (hu : u ≠ a.thread) : s'.phase u = s.phase u ∨ s'.phase u = (s.phase u).wake := by
  cases h with
  | callAppend _ => exact .inl (update_of_ne hu _ _)
  | callRemove _ => exact .inl (update_of_ne hu _ _)
  | appendWaits _ _ => exact .inl (update_of_ne hu _ _)
  | @appends t data woken b _ _ _ =>
      have heq : update (signal woken s.phase) t .out u = signal woken s.phase u :=
        update_of_ne hu _ _
      simp only [heq]
      exact signal_or_wake woken s.phase u
  | removeWaits _ _ => exact .inl (update_of_ne hu _ _)
  | @removes t data woken b _ _ _ =>
      have heq : update (signal woken s.phase) t .out u = signal woken s.phase u :=
        update_of_ne hu _ _
      simp only [heq]
      exact signal_or_wake woken s.phase u
  | spuriousNotFull _ => exact .inl (update_of_ne hu _ _)
  | spuriousNotEmpty _ => exact .inl (update_of_ne hu _ _)

omit [Fintype T] in
/-- Of a spurious wake-up no thread sees more than a wake-up. -/
theorem Step.spurious_phase {s s' : State T} {t : T} (h : Step s (.spurious t) s') (u : T) :
    s'.phase u = s.phase u ∨ s'.phase u = (s.phase u).wake := by
  by_cases hu : u = t
  · subst hu
    cases h with
    | spuriousNotFull hph => exact .inr (by simp [hph, Phase.wake])
    | spuriousNotEmpty hph => exact .inr (by simp [hph, Phase.wake])
  · exact h.other hu

end Monitor

/-- How many of the `p` producers exist. -/
def MainPc.createdP (p : Nat) : MainPc → Nat
  | .createP i => min i p
  | .incP i => min (i + 1) p
  | _ => p

/-- How many of the `c` consumers exist. -/
def MainPc.createdC (c : Nat) : MainPc → Nat
  | .createP _ | .incP _ => 0
  | .createC j => min j c
  | .incC j => min (j + 1) c
  | _ => c

/-- Inside the region of `p_lock`. -/
def ProdPc.holds : ProdPc → Bool
  | .test | .setDone | .unlockExit | .incr | .unlock _ => true
  | _ => false

/-- Counted in `produced`, not appended yet. -/
def ProdPc.pending : ProdPc → Bool
  | .unlock _ | .call _ | .append _ _ => true
  | _ => false

/-- Inside the region of `c_lock`. -/
def ConsPc.holds : ConsPc → Bool
  | .testEmpty | .testDone | .unlockExit | .call | .remove | .unlock _ => true
  | _ => false

/-- What a producer's position says about the shared variables. -/
def ProdPc.Ok (items produced : Int) (done : Bool) : ProdPc → Prop
  | .incr => produced ≠ items
  | .setDone => produced = items
  | .unlockExit => done = true
  | .exited => done = true
  | _ => True

/-- Where a producer at `pc` stands in the monitor. -/
def ProdPc.InBuffer (pc : ProdPc) (ph : Phase) : Prop :=
  match pc with
  | .append _ data => ph = .appendLock data ∨ ph = .appendWait data ∨ ph = .appendWoken data
  | _ => ph = .out

/-- Where a consumer at `pc` stands in the monitor. -/
def ConsPc.InBuffer (pc : ConsPc) (ph : Phase) : Prop :=
  match pc with
  | .remove => ph = .removeLock ∨ ph = .removeWait ∨ ph = .removeWoken
  | _ => ph = .out

theorem ProdPc.InBuffer.wake {pc : ProdPc} {ph : Phase} (h : pc.InBuffer ph) :
    pc.InBuffer ph.wake := by
  cases pc with
  | append pCnt data => rcases h with rfl | rfl | rfl <;> simp [InBuffer, Phase.wake]
  | _ => simp only [InBuffer] at h ⊢; rw [h]; rfl

theorem ConsPc.InBuffer.wake {pc : ConsPc} {ph : Phase} (h : pc.InBuffer ph) :
    pc.InBuffer ph.wake := by
  cases pc with
  | remove => rcases h with rfl | rfl | rfl <;> simp [InBuffer, Phase.wake]
  | _ => simp only [InBuffer] at h ⊢; rw [h]; rfl

/-- A producer woken from `buffer_not_full` is inside `append`. -/
theorem ProdPc.InBuffer.wokenNotFull {pc : ProdPc} {ph : Phase} (h : pc.InBuffer ph)
    (hw : ph.wokenNotFull = true) : ∃ n data, pc = .append n data ∧ ph.appending.isSome := by
  cases pc with
  | append n data =>
      refine ⟨n, data, rfl, ?_⟩
      rcases h with rfl | rfl | rfl
      · rfl
      · cases hw
      · rfl
  | _ =>
      have hout : ph = .out := h
      rw [hout] at hw
      cases hw

/-- A consumer woken from `buffer_not_empty` is inside `remove`. -/
theorem ConsPc.InBuffer.wokenNotEmpty {pc : ConsPc} {ph : Phase} (h : pc.InBuffer ph)
    (hw : ph.wokenNotEmpty = true) : pc = .remove ∧ ph.removing = true := by
  cases pc with
  | remove =>
      refine ⟨rfl, ?_⟩
      rcases h with rfl | rfl | rfl
      · rfl
      · cases hw
      · rfl
  | _ =>
      have hout : ph = .out := h
      rw [hout] at hw
      cases hw

/-- No producer waits for an item. -/
theorem ProdPc.InBuffer.wokenNotEmpty {pc : ProdPc} {ph : Phase} (h : pc.InBuffer ph) :
    ph.wokenNotEmpty = false := by
  cases pc with
  | append _ _ => rcases h with rfl | rfl | rfl <;> rfl
  | _ => exact congrArg Phase.wokenNotEmpty (h : ph = .out)

/-- No consumer waits for room. -/
theorem ConsPc.InBuffer.wokenNotFull {pc : ConsPc} {ph : Phase} (h : pc.InBuffer ph) :
    ph.wokenNotFull = false := by
  cases pc with
  | remove => rcases h with rfl | rfl | rfl <;> rfl
  | _ => exact congrArg Phase.wokenNotFull (h : ph = .out)

namespace Program

variable {p c : Nat}

/-! ## What a step can do -/

/-- The steps of the program, one constructor per outcome of a source line. -/
inductive Step (s : Program p c) : Act p c → Program p c → Prop
  | main {m} : s.main.createdP p ≤ m.createdP p → s.main.createdC c ≤ m.createdC c →
      Step s .main { s with main := m }
  | createP {i : Fin p} : s.main = .createP i →
      Step s .main { s with prod := update s.prod i .start, main := .incP i }
  | createC {j : Fin c} : s.main = .createC j →
      Step s .main { s with cons := update s.cons j .start, main := .incC j }
  | prodStart {i v w n} : s.prod i = .start →
      Step s (.prod i v w) { s with prod := update s.prod i .lock, prodPid := n }
  | prodLock {i v w} : s.prod i = .lock → s.pLock = none →
      Step s (.prod i v w) { s with pLock := some i, prod := update s.prod i .test }
  | prodFull {i v w} : s.prod i = .test → s.produced = s.itemSize →
      Step s (.prod i v w) { s with prod := update s.prod i .setDone }
  | prodRoom {i v w} : s.prod i = .test → s.produced ≠ s.itemSize →
      Step s (.prod i v w) { s with prod := update s.prod i .incr }
  | prodSetDone {i v w} : s.prod i = .setDone →
      Step s (.prod i v w) { s with done := true, prod := update s.prod i .unlockExit }
  | prodExit {i v w} : s.prod i = .unlockExit →
      Step s (.prod i v w) { s with pLock := none, prod := update s.prod i .exited }
  | prodIncr {i v w} : s.prod i = .incr →
      Step s (.prod i v w)
        { s with
          produced := s.produced + 1
          prod := update s.prod i (.unlock (s.produced + 1)) }
  | prodUnlock {i v w n} : s.prod i = .unlock n →
      Step s (.prod i v w) { s with pLock := none, prod := update s.prod i (.call n) }
  | prodCall {i v w n m} : s.prod i = .call n →
      Monitor.next s.mon (.callAppend (.inl i) (v % 100)) = some m →
      Step s (.prod i v w) { s with mon := m, prod := update s.prod i (.append n (v % 100)) }
  | prodWaits {i v w n data m} : s.prod i = .append n data →
      Monitor.next s.mon (.lockAppend (.inl i) w) = some m → m.phase (.inl i) ≠ .out →
      Step s (.prod i v w) { s with mon := m }
  | prodAppends {i v w n data m} : s.prod i = .append n data →
      Monitor.next s.mon (.lockAppend (.inl i) w) = some m → m.phase (.inl i) = .out →
      Step s (.prod i v w) { s with mon := m, prod := update s.prod i (.log n data) }
  | prodLog {i v w n data f} : s.prod i = .log n data →
      Step s (.prod i v w) { s with file := f, prod := update s.prod i .lock }
  | consStart {j v w n} : s.cons j = .start →
      Step s (.cons j v w) { s with cons := update s.cons j .lock, consPid := n }
  | consLock {j v w} : s.cons j = .lock → s.cLock = none →
      Step s (.cons j v w) { s with cLock := some j, cons := update s.cons j .testEmpty }
  | consEmpty {j v w} : s.cons j = .testEmpty → s.mon.buf.bufferCnt = 0 →
      Step s (.cons j v w) { s with cons := update s.cons j .testDone }
  | consNonempty {j v w} : s.cons j = .testEmpty → s.mon.buf.bufferCnt ≠ 0 →
      Step s (.cons j v w) { s with cons := update s.cons j .call }
  | consQuit {j v w} : s.cons j = .testDone → s.done = true →
      Step s (.cons j v w) { s with cons := update s.cons j .unlockExit }
  | consStay {j v w} : s.cons j = .testDone → s.done = false →
      Step s (.cons j v w) { s with cons := update s.cons j .call }
  | consExit {j v w} : s.cons j = .unlockExit →
      Step s (.cons j v w) { s with cLock := none, cons := update s.cons j .exited }
  | consCall {j v w m} : s.cons j = .call → Monitor.next s.mon (.callRemove (.inr j)) = some m →
      Step s (.cons j v w) { s with mon := m, cons := update s.cons j .remove }
  | consWaits {j v w m} : s.cons j = .remove →
      Monitor.next s.mon (.lockRemove (.inr j) w) = some m → s.mon.buf.remove = none →
      Step s (.cons j v w) { s with mon := m }
  | consRemoves {j v w m data b} : s.cons j = .remove →
      Monitor.next s.mon (.lockRemove (.inr j) w) = some m → s.mon.buf.remove = some (data, b) →
      Step s (.cons j v w) { s with mon := m, cons := update s.cons j (.unlock data) }
  | consUnlock {j v w data} : s.cons j = .unlock data →
      Step s (.cons j v w) { s with cLock := none, cons := update s.cons j (.log data) }
  | consLog {j v w data f} : s.cons j = .log data →
      Step s (.cons j v w) { s with file := f, cons := update s.cons j .lock }
  | spurious {t m} : Monitor.next s.mon (.spurious t) = some m →
      Step s (.spurious t) { s with mon := m }

theorem step_of_mainNext {s s' : Program p c} (h : s.mainNext = some s') : Step s .main s' := by
  -- apart from the two creations, `main` only moves its own counter
  have hmove : ∀ m, some { s with main := m } = some s' →
      s.main.createdP p ≤ m.createdP p → s.main.createdC c ≤ m.createdC c → Step s .main s' := by
    intro m hm hp hc
    injection hm with hm
    subst hm
    exact .main hp hc
  unfold mainNext at h
  split at h <;> rename_i hpc
  · split at h
    · injection h with h
      subst h
      exact .createP hpc
    · exact hmove _ h (by simp [hpc, MainPc.createdP]) (by simp [hpc, MainPc.createdC])
  · exact hmove _ h (by simp [hpc, MainPc.createdP]) (by simp [hpc, MainPc.createdC])
  · split at h
    · injection h with h
      subst h
      exact .createC hpc
    · exact hmove _ h (by simp [hpc, MainPc.createdP]) (by simp [hpc, MainPc.createdC])
  · exact hmove _ h (by simp [hpc, MainPc.createdP]) (by simp [hpc, MainPc.createdC])
  · split at h
    · rw [Option.ite_none_right_eq_some] at h
      exact hmove _ h.2 (by simp [hpc, MainPc.createdP]) (by simp [hpc, MainPc.createdC])
    · exact hmove _ h (by simp [hpc, MainPc.createdP]) (by simp [hpc, MainPc.createdC])
  · split at h
    · rw [Option.ite_none_right_eq_some] at h
      exact hmove _ h.2 (by simp [hpc, MainPc.createdP]) (by simp [hpc, MainPc.createdC])
    · exact hmove _ h (by simp [hpc, MainPc.createdP]) (by simp [hpc, MainPc.createdC])
  · cases h

theorem step_of_prodNext {s s' : Program p c} {i : Fin p} {v : Int}
    {w : Fin p ⊕ Fin c → Bool} (h : s.prodNext i v w = some s') : Step s (.prod i v w) s' := by
  unfold prodNext at h
  split at h <;> rename_i hpc
  · cases h
  · injection h with h
    subst h
    exact .prodStart hpc
  · rw [Option.ite_none_right_eq_some] at h
    obtain ⟨hfree, h⟩ := h
    injection h with h
    subst h
    exact .prodLock hpc hfree
  · injection h with h
    subst h
    by_cases hfull : s.produced = s.itemSize
    · simpa [hfull] using Step.prodFull (v := v) (w := w) hpc hfull
    · simpa [hfull] using Step.prodRoom (v := v) (w := w) hpc hfull
  · injection h with h
    subst h
    exact .prodSetDone hpc
  · injection h with h
    subst h
    exact .prodExit hpc
  · injection h with h
    subst h
    exact .prodIncr hpc
  · injection h with h
    subst h
    exact .prodUnlock hpc
  · rw [Option.map_eq_some_iff] at h
    obtain ⟨m, hm, rfl⟩ := h
    exact .prodCall hpc hm
  · rw [Option.map_eq_some_iff] at h
    obtain ⟨m, hm, rfl⟩ := h
    split
    · rename_i hout
      exact .prodAppends hpc hm hout
    · rename_i hout
      exact .prodWaits hpc hm hout
  · injection h with h
    subst h
    exact .prodLog hpc
  · cases h

theorem step_of_consNext {s s' : Program p c} {j : Fin c} {v : Int}
    {w : Fin p ⊕ Fin c → Bool} (h : s.consNext j v w = some s') : Step s (.cons j v w) s' := by
  unfold consNext at h
  split at h <;> rename_i hpc
  · cases h
  · injection h with h
    subst h
    exact .consStart hpc
  · rw [Option.ite_none_right_eq_some] at h
    obtain ⟨hfree, h⟩ := h
    injection h with h
    subst h
    exact .consLock hpc hfree
  · injection h with h
    subst h
    by_cases hempty : s.mon.buf.bufferCnt = 0
    · simpa [BoundedBuffer.isEmpty, hempty] using Step.consEmpty (v := v) (w := w) hpc hempty
    · simpa [BoundedBuffer.isEmpty, hempty] using
        Step.consNonempty (v := v) (w := w) hpc hempty
  · injection h with h
    subst h
    by_cases hdone : s.done = true
    · simpa only [if_pos hdone] using Step.consQuit (v := v) (w := w) hpc hdone
    · simpa only [if_neg hdone] using
        Step.consStay (v := v) (w := w) hpc (Bool.eq_false_iff.mpr hdone)
  · injection h with h
    subst h
    exact .consExit hpc
  · rw [Option.map_eq_some_iff] at h
    obtain ⟨m, hm, rfl⟩ := h
    exact .consCall hpc hm
  · rw [Option.map_eq_some_iff] at h
    obtain ⟨m, hm, rfl⟩ := h
    split
    · rename_i data b hrem
      exact .consRemoves hpc hm hrem
    · rename_i hrem
      exact .consWaits hpc hm hrem
  · injection h with h
    subst h
    exact .consUnlock hpc
  · injection h with h
    subst h
    exact .consLog hpc
  · cases h

theorem step_of_next {s s' : Program p c} {a : Act p c} (h : next s a = some s') :
    Step s a s' := by
  cases a with
  | main => exact step_of_mainNext h
  | prod i v w => exact step_of_prodNext h
  | cons j v w => exact step_of_consNext h
  | spurious t =>
      simp only [next, Option.map_eq_some_iff] at h
      obtain ⟨m, hm, rfl⟩ := h
      exact .spurious hm

/-! ## The program uses the buffer only through the monitor -/

/-- A step of the program is at most one step of the monitor. -/
theorem Step.mon {s s' : Program p c} {a : Act p c} (h : Step s a s') :
    s'.mon = s.mon ∨ ∃ b, Monitor.next s.mon b = some s'.mon := by
  cases h with
  | prodCall _ hm => exact .inr ⟨_, hm⟩
  | prodWaits _ hm _ => exact .inr ⟨_, hm⟩
  | prodAppends _ hm _ => exact .inr ⟨_, hm⟩
  | consCall _ hm => exact .inr ⟨_, hm⟩
  | consWaits _ hm _ => exact .inr ⟨_, hm⟩
  | consRemoves _ hm _ => exact .inr ⟨_, hm⟩
  | spurious hm => exact .inr ⟨_, hm⟩
  | _ => exact .inl rfl

/-- **Refinement**: the buffer of every reachable program state is a reachable
monitor state, so everything proved of the monitor holds of the program. -/
theorem reachable_mon {items first : Int} {stale : Bool} {s : Program p c}
    (hs : (callFrom p c items first stale).Reachable s) :
    (monitor (Fin p ⊕ Fin c) 1).Reachable s.mon := by
  induction hs with
  | init h0 =>
      obtain ⟨mem, rfl⟩ := h0
      exact .init ⟨mem, rfl⟩
  | step _ _ hn ih =>
      rcases (step_of_next hn).mon with heq | ⟨b, hb⟩
      · rw [heq]
        exact ih
      · exact ih.step hb

/-! ## The producers -/

variable {items : Int} {stale : Bool}

/-- The producers' half of the invariant. `count` is its core: an item is
counted in `produced` before it is appended, and owed in between. -/
structure ProdInv (items : Int) (stale : Bool) (s : Program p c) : Prop where
  size : s.itemSize = items
  unborn : ∀ i : Fin p, s.main.createdP p ≤ i → s.prod i = .unborn
  mutex : MutexInv ProdPc.holds s.prod s.pLock
  count : s.produced = s.mon.appended.length + tally s.prod ProdPc.pending
  le : s.produced ≤ items
  done : s.done = true → stale = true ∨ s.produced = items
  ok : ∀ i, (s.prod i).Ok items s.produced s.done
  phase : ∀ i, (s.prod i).InBuffer (s.mon.phase (.inl i))

/-- The consumers' half of the invariant. -/
structure ConsInv (s : Program p c) : Prop where
  unborn : ∀ j : Fin c, s.main.createdC c ≤ j → s.cons j = .unborn
  mutex : MutexInv ConsPc.holds s.cons s.cLock
  phase : ∀ j, (s.cons j).InBuffer (s.mon.phase (.inr j))

theorem forall_update {I β : Type} [DecidableEq I] {P : I → β → Prop} {f : I → β} {i : I} {b : β}
    (h : ∀ k, P k (f k)) (hb : P i b) : ∀ k, P k (update f i b k) := by
  intro k
  by_cases hk : k = i
  · subst hk
    rw [update_self]
    exact hb
  · rw [update_of_ne hk]
    exact h k

/-- Producer `i` moves to `b`, whatever it does to the shared variables on the
way, provided they still add up. -/
theorem ProdInv.set {produced : Int} {done : Bool} {s : Program p c} {i : Fin p}
    {b : ProdPc} {l : Option (Fin p)} {m : Monitor.State (Fin p ⊕ Fin c)}
    {n : Fin p → Int} {f : List Line} (h : ProdInv items stale s) (hborn : s.prod i ≠ .unborn)
    (hmutex : MutexInv ProdPc.holds (update s.prod i b) l)
    (hcount : produced = m.appended.length + tally (update s.prod i b) ProdPc.pending)
    (hle : produced ≤ items) (hdone : done = true → stale = true ∨ produced = items)
    (hok : b.Ok items produced done) (hoks : ∀ k, k ≠ i → (s.prod k).Ok items produced done)
    (hphase : b.InBuffer (m.phase (.inl i)))
    (hphases : ∀ k, k ≠ i → m.phase (.inl k) = s.mon.phase (.inl k) ∨
      m.phase (.inl k) = (s.mon.phase (.inl k)).wake) :
    ProdInv items stale
      { s with mon := m, produced := produced, done := done, pLock := l
               prod := update s.prod i b, prodPid := n, file := f } where
  size := h.size
  unborn := by
    intro k hk
    have hki : k ≠ i := by
      intro heq
      subst heq
      exact hborn (h.unborn k hk)
    simp only [update_of_ne hki]
    exact h.unborn k hk
  mutex := hmutex
  count := hcount
  le := hle
  done := hdone
  ok := by
    intro k
    by_cases hki : k = i
    · subst hki
      simp only [update_self]
      exact hok
    · simp only [update_of_ne hki]
      exact hoks k hki
  phase := by
    intro k
    by_cases hki : k = i
    · subst hki
      simp only [update_self]
      exact hphase
    · simp only [update_of_ne hki]
      rcases hphases k hki with heq | heq <;> rw [heq]
      · exact h.phase k
      · exact (h.phase k).wake

/-- A producer moves without touching `produced`, `done` or the buffer. -/
theorem ProdInv.move {s : Program p c} {i : Fin p} {pc b : ProdPc}
    {lock : Option (Fin p)} {n : Fin p → Int} {f : List Line} (h : ProdInv items stale s)
    (hpc : s.prod i = pc) (hborn : pc ≠ .unborn)
    (hmutex : MutexInv ProdPc.holds (update s.prod i b) lock) (hpend : pc.pending = b.pending)
    (hok : b.Ok items s.produced s.done) (hphase : b.InBuffer (s.mon.phase (.inl i))) :
    ProdInv items stale
      { s with pLock := lock, prod := update s.prod i b, prodPid := n, file := f } := by
  subst hpc
  exact h.set hborn hmutex (by rw [tally_update_same hpend]; exact h.count) h.le h.done hok
    (fun k _ => h.ok k) hphase (fun _ _ => .inl rfl)

/-- The producers see nothing of a consumer's step but a wake-up. -/
theorem ProdInv.foreign {s : Program p c} {m : Monitor.State (Fin p ⊕ Fin c)}
    {lock : Option (Fin c)} {cs : Fin c → ConsPc} {n : Fin c → Int} {f : List Line}
    (h : ProdInv items stale s) (happ : m.appended = s.mon.appended)
    (hph : ∀ i, m.phase (.inl i) = s.mon.phase (.inl i) ∨
      m.phase (.inl i) = (s.mon.phase (.inl i)).wake) :
    ProdInv items stale
      { s with mon := m, cLock := lock, cons := cs, consPid := n, file := f } where
  size := h.size
  unborn := h.unborn
  mutex := h.mutex
  count := by
    simp only [happ]
    exact h.count
  le := h.le
  done := h.done
  ok := h.ok
  phase := by
    intro i
    rcases hph i with heq | heq <;> simp only [heq]
    · exact h.phase i
    · exact (h.phase i).wake

/-- A consumer moves without touching the buffer. -/
theorem ConsInv.move {s : Program p c} {j : Fin c} {b : ConsPc} {lock : Option (Fin c)}
    {n : Fin c → Int} {f : List Line} (h : ConsInv s) (hborn : s.cons j ≠ .unborn)
    (hmutex : MutexInv ConsPc.holds (update s.cons j b) lock)
    (hphase : b.InBuffer (s.mon.phase (.inr j))) :
    ConsInv { s with cLock := lock, cons := update s.cons j b, consPid := n, file := f } where
  unborn := by
    intro k hk
    have hkj : k ≠ j := by
      intro heq
      subst heq
      exact hborn (h.unborn k hk)
    simp only [update_of_ne hkj]
    exact h.unborn k hk
  mutex := hmutex
  phase := forall_update
    (P := fun k (pc : ConsPc) => pc.InBuffer (s.mon.phase (.inr k))) h.phase hphase

/-- The consumers see nothing of a producer's step but a wake-up. -/
theorem ConsInv.foreign {s : Program p c} {m : Monitor.State (Fin p ⊕ Fin c)}
    {lock : Option (Fin p)} {ps : Fin p → ProdPc} {n : Fin p → Int} {f : List Line}
    {produced : Int} {done : Bool} (h : ConsInv s)
    (hph : ∀ j, m.phase (.inr j) = s.mon.phase (.inr j) ∨
      m.phase (.inr j) = (s.mon.phase (.inr j)).wake) :
    ConsInv { s with mon := m, pLock := lock, prod := ps, prodPid := n, file := f
                     produced := produced, done := done } where
  unborn := h.unborn
  mutex := h.mutex
  phase := by
    intro j
    rcases hph j with heq | heq <;> simp only [heq]
    · exact h.phase j
    · exact (h.phase j).wake

theorem ne_unborn {s : Program p c} {i : Fin p} {pc : ProdPc} (h : s.prod i = pc)
    (hne : pc ≠ .unborn) : s.prod i ≠ .unborn := h ▸ hne

/-- `main` creates a producer: it was unborn, hence outside everything. -/
theorem ProdInv.create {s : Program p c} {i : Fin p} (h : ProdInv items stale s)
    (hm : s.main = .createP i) :
    ProdInv items stale { s with prod := update s.prod i .start, main := .incP i } where
  size := h.size
  unborn := by
    intro k hk
    simp only [MainPc.createdP] at hk
    have hki : k ≠ i := by
      intro heq
      subst heq
      have := k.isLt
      omega
    simp only [update_of_ne hki]
    refine h.unborn k ?_
    simp only [hm, MainPc.createdP]
    have := k.isLt
    omega
  mutex := h.mutex.keep (by rw [h.unborn i (by simp [hm, MainPc.createdP])]; rfl)
  count := by
    rw [tally_update_same (by rw [h.unborn i (by simp [hm, MainPc.createdP])]; rfl)]
    exact h.count
  le := h.le
  done := h.done
  ok := forall_update (P := fun _ (pc : ProdPc) => pc.Ok items s.produced s.done) h.ok trivial
  phase := forall_update (P := fun k (pc : ProdPc) => pc.InBuffer (s.mon.phase (.inl k))) h.phase
    (by
      have := h.phase i
      rw [h.unborn i (by simp [hm, MainPc.createdP])] at this
      exact this)

/-- Outside `append` a producer is outside the monitor. -/
theorem ProdInv.out {s : Program p c} {i : Fin p} {pc : ProdPc}
    (h : ProdInv items stale s) (hpc : s.prod i = pc) (hne : ∀ n d, pc ≠ .append n d) :
    s.mon.phase (.inl i) = .out := by
  have := h.phase i
  rw [hpc] at this
  cases pc <;> first | exact this | exact absurd rfl (hne _ _)

/-- `++produced`: the incrementing producer is alone under `p_lock`, and it
tested `produced` there. -/
theorem ProdInv.incr {s : Program p c} {i : Fin p} (h : ProdInv items stale s)
    (hpc : s.prod i = .incr) :
    ProdInv items stale
      { s with produced := s.produced + 1
               prod := update s.prod i (.unlock (s.produced + 1)) } := by
  have hne : s.produced ≠ items := by simpa only [hpc, ProdPc.Ok] using h.ok i
  have hle := h.le
  have hstale : s.done = true → stale = true := fun hd => (h.done hd).resolve_right hne
  have hholds : (s.prod i).holds = true := by rw [hpc]; rfl
  refine h.set (ne_unborn hpc (by simp)) (h.mutex.keep (by rw [hpc]; rfl)) ?_ (by omega)
    (fun hd => .inl (hstale hd)) trivial ?_ (h.out hpc (by simp)) (fun _ _ => .inl rfl)
  · have := tally_update s.prod ProdPc.pending i (.unlock (s.produced + 1))
    rw [hpc] at this
    simp only [ProdPc.pending, Bool.toNat_false, Bool.toNat_true] at this
    have hc := h.count
    omega
  · -- any other producer whose position constrains `produced` would hold `p_lock`
    intro k hki
    have hok := h.ok k
    cases hk : s.prod k with
    | incr => exact absurd (h.mutex.unique (by rw [hk]; rfl) hholds) hki
    | setDone => exact absurd (h.mutex.unique (by rw [hk]; rfl) hholds) hki
    | unlockExit => rw [hk] at hok; exact hok
    | exited => rw [hk] at hok; exact hok
    | _ => trivial

/-- `done = true`: `produced` was tested under the same lock. -/
theorem ProdInv.setDone {s : Program p c} {i : Fin p} (h : ProdInv items stale s)
    (hpc : s.prod i = .setDone) :
    ProdInv items stale { s with done := true, prod := update s.prod i .unlockExit } := by
  have heq : s.produced = items := by simpa only [hpc, ProdPc.Ok] using h.ok i
  refine h.set (ne_unborn hpc (by simp)) (h.mutex.keep (by rw [hpc]; rfl)) ?_ h.le
    (fun _ => .inr heq) rfl ?_ (h.out hpc (by simp)) (fun _ _ => .inl rfl)
  · rw [tally_update_same (by rw [hpc]; rfl)]
    exact h.count
  · intro k _
    have hok := h.ok k
    cases hk : s.prod k <;> rw [hk] at hok <;> first | exact hok | rfl

theorem inl_ne {i k : Fin p} (h : k ≠ i) : (Sum.inl k : Fin p ⊕ Fin c) ≠ .inl i :=
  fun he => h (Sum.inl.inj he)

/-- The call of `append` enters the monitor. -/
theorem ProdInv.call {v : Int} {s : Program p c} {i : Fin p} {n : Int}
    {m : Monitor.State (Fin p ⊕ Fin c)} (h : ProdInv items stale s) (hpc : s.prod i = .call n)
    (hm : Monitor.next s.mon (.callAppend (.inl i) v) = some m) :
    ProdInv items stale { s with mon := m, prod := update s.prod i (.append n v) } := by
  cases Monitor.step_of_next hm with
  | callAppend _ =>
      refine h.set (ne_unborn hpc (by simp)) (h.mutex.keep (by rw [hpc]; rfl)) ?_ h.le h.done
        trivial (fun k _ => h.ok k) (.inl (update_self _ _ _)) ?_
      · rw [tally_update_same (by rw [hpc]; rfl)]
        exact h.count
      · intro k hki
        exact .inl (update_of_ne (inl_ne hki) _ _)

/-- A critical section of `append`, completed or not: a completed one turns an
owed item into an appended one. -/
theorem ProdInv.append {s : Program p c} {i : Fin p} {n data : Int}
    {w : Fin p ⊕ Fin c → Bool} {m : Monitor.State (Fin p ⊕ Fin c)} (h : ProdInv items stale s)
    (hpc : s.prod i = .append n data)
    (hm : Monitor.next s.mon (.lockAppend (.inl i) w) = some m) :
    (m.phase (.inl i) ≠ .out → ProdInv items stale { s with mon := m }) ∧
    (m.phase (.inl i) = .out →
      ProdInv items stale { s with mon := m, prod := update s.prod i (.log n data) }) := by
  have hstep := Monitor.step_of_next hm
  have hothers : ∀ k, k ≠ i → m.phase (.inl k) = s.mon.phase (.inl k) ∨
      m.phase (.inl k) = (s.mon.phase (.inl k)).wake :=
    fun k hki => hstep.other (inl_ne hki)
  have hin := h.phase i
  rw [hpc] at hin
  cases hstep with
  | @appendWaits _ d _ hd hb =>
      refine ⟨fun _ => ?_, fun hout => by simp at hout⟩
      have hsame : update s.prod i (.append n data) = s.prod := by
        rw [← hpc]
        exact update_eq_self i s.prod
      have hd' : d = data := by
        rcases hin with h1 | h1 | h1 <;> rw [h1] at hd <;>
          simp only [Phase.appending, Option.some.injEq, reduceCtorEq] at hd
        · exact hd.symm
        · exact hd.symm
      subst hd'
      have hset := h.set (b := .append n d) (l := s.pLock) (n := s.prodPid) (f := s.file)
        (ne_unborn hpc (by simp)) (by rw [hsame]; exact h.mutex)
        (by rw [hsame]; exact h.count) h.le h.done trivial (fun k _ => h.ok k)
        (.inr (.inl (update_self _ _ _))) hothers
      rw [hsame] at hset
      exact hset
  | appends hd hb hsig =>
      refine ⟨fun hne => absurd (update_self _ _ _) hne, fun _ => ?_⟩
      refine h.set (ne_unborn hpc (by simp)) (h.mutex.keep (by rw [hpc]; rfl)) ?_ h.le h.done
        trivial (fun k _ => h.ok k) (update_self _ _ _) hothers
      have := tally_update s.prod ProdPc.pending i (.log n data)
      rw [hpc] at this
      simp only [ProdPc.pending, Bool.toNat_false, Bool.toNat_true] at this
      have hc := h.count
      simp only [List.length_append, List.length_singleton]
      omega

/-- One step keeps the producers' half. -/
theorem step_prodInv {s s' : Program p c} {a : Act p c} (h : ProdInv items stale s)
    (hs : Step s a s') : ProdInv items stale s' := by
  cases hs with
  | main hp _ => exact { h with unborn := fun i hi => h.unborn i (le_trans hp hi) }
  | createP hm => exact h.create hm
  | createC hm =>
      refine { h with unborn := fun i hi => h.unborn i ?_ }
      rw [hm]
      exact hi
  | prodStart hpc =>
      exact h.move hpc (by simp) (h.mutex.keep (by rw [hpc]; rfl)) rfl trivial (h.out hpc (by simp))
  | prodLock hpc hfree =>
      exact h.move hpc (by simp) ((hfree ▸ h.mutex).acquire rfl) rfl trivial (h.out hpc (by simp))
  | prodFull hpc heq =>
      exact h.move hpc (by simp) (h.mutex.keep (by rw [hpc]; rfl)) rfl (h.size ▸ heq)
        (h.out hpc (by simp))
  | prodRoom hpc hne =>
      exact h.move hpc (by simp) (h.mutex.keep (by rw [hpc]; rfl)) rfl (h.size ▸ hne)
        (h.out hpc (by simp))
  | prodSetDone hpc => exact h.setDone hpc
  | @prodExit i _ _ hpc =>
      have hdone : s.done = true := by simpa only [hpc, ProdPc.Ok] using h.ok i
      exact h.move hpc (by simp) (h.mutex.release (by rw [hpc]; rfl) rfl) rfl
        hdone (h.out hpc (by simp))
  | prodIncr hpc => exact h.incr hpc
  | prodUnlock hpc =>
      exact h.move hpc (by simp) (h.mutex.release (by rw [hpc]; rfl) rfl) rfl
        trivial (h.out hpc (by simp))
  | prodCall hpc hm => exact h.call hpc hm
  | prodWaits hpc hm hout => exact (h.append hpc hm).1 hout
  | prodAppends hpc hm hout => exact (h.append hpc hm).2 hout
  | prodLog hpc =>
      exact h.move hpc (by simp) (h.mutex.keep (by rw [hpc]; rfl)) rfl trivial (h.out hpc (by simp))
  | consCall _ hm =>
      have hstep := Monitor.step_of_next hm
      refine h.foreign ?_ fun i => hstep.other (by simp [Monitor.Act.thread])
      cases hstep; rfl
  | consWaits _ hm _ =>
      have hstep := Monitor.step_of_next hm
      refine h.foreign ?_ fun i => hstep.other (by simp [Monitor.Act.thread])
      cases hstep <;> rfl
  | consRemoves _ hm _ =>
      have hstep := Monitor.step_of_next hm
      refine h.foreign ?_ fun i => hstep.other (by simp [Monitor.Act.thread])
      cases hstep <;> rfl
  | @spurious t m hm =>
      have hstep := Monitor.step_of_next hm
      exact h.foreign (by cases hstep <;> rfl) fun i => hstep.spurious_phase (.inl i)
  | _ => exact h.foreign rfl fun i => .inl rfl

/-! ## The consumers -/

theorem cons_ne_unborn {s : Program p c} {j : Fin c} {pc : ConsPc} (h : s.cons j = pc)
    (hne : pc ≠ .unborn) : s.cons j ≠ .unborn := h ▸ hne

/-- Outside `remove` a consumer is outside the monitor. -/
theorem ConsInv.out {s : Program p c} {j : Fin c} {pc : ConsPc}
    (h : ConsInv s) (hpc : s.cons j = pc) (hne : pc ≠ .remove) :
    s.mon.phase (.inr j) = .out := by
  have := h.phase j
  rw [hpc] at this
  cases pc <;> first | exact this | exact absurd rfl hne

/-- A consumer moves outside `remove`, and keeps the lock or stays without it. -/
theorem ConsInv.stay {s : Program p c} {j : Fin c} {pc b : ConsPc} {n : Fin c → Int}
    {f : List Line} (h : ConsInv s) (hpc : s.cons j = pc) (hne : pc ≠ .unborn ∧ pc ≠ .remove)
    (hholds : b.holds = pc.holds) (hout : b.InBuffer .out) :
    ConsInv { s with cons := update s.cons j b, consPid := n, file := f } := by
  refine h.move (cons_ne_unborn hpc hne.1) (h.mutex.keep ?_) ?_
  · rw [hholds, hpc]
  · rw [h.out hpc hne.2]
    exact hout

/-- A consumer moves along with a step of the monitor it takes. -/
theorem ConsInv.set {s : Program p c} {j : Fin c} {b : ConsPc}
    {m : Monitor.State (Fin p ⊕ Fin c)} {a : Monitor.Act (Fin p ⊕ Fin c)} (h : ConsInv s)
    (hborn : s.cons j ≠ .unborn) (hmutex : MutexInv ConsPc.holds (update s.cons j b) s.cLock)
    (hstep : Monitor.Step s.mon a m) (ha : a.thread = .inr j)
    (hphase : b.InBuffer (m.phase (.inr j))) :
    ConsInv { s with mon := m, cons := update s.cons j b } where
  unborn := by
    intro k hk
    have hkj : k ≠ j := by
      intro heq
      subst heq
      exact hborn (h.unborn k hk)
    simp only [update_of_ne hkj]
    exact h.unborn k hk
  mutex := hmutex
  phase := by
    intro k
    by_cases hkj : k = j
    · subst hkj
      simp only [update_self]
      exact hphase
    · simp only [update_of_ne hkj]
      rcases hstep.other (u := .inr k) (by simp [ha, hkj]) with heq | heq <;> rw [heq]
      · exact h.phase k
      · exact (h.phase k).wake

/-- `main` creates a consumer: it was unborn, hence outside everything. -/
theorem ConsInv.create {s : Program p c} {j : Fin c} (h : ConsInv s) (hm : s.main = .createC j) :
    ConsInv { s with cons := update s.cons j .start, main := .incC j } where
  unborn := by
    intro k hk
    simp only [MainPc.createdC] at hk
    have hkj : k ≠ j := by
      intro heq
      subst heq
      have := k.isLt
      omega
    simp only [update_of_ne hkj]
    refine h.unborn k ?_
    simp only [hm, MainPc.createdC]
    have := k.isLt
    omega
  mutex := h.mutex.keep (by rw [h.unborn j (by simp [hm, MainPc.createdC])]; rfl)
  phase := by
    have hun : s.cons j = .unborn := h.unborn j (by simp [hm, MainPc.createdC])
    refine forall_update (P := fun k (pc : ConsPc) => pc.InBuffer (s.mon.phase (.inr k)))
      h.phase ?_
    exact h.out hun (by simp)

/-- One step keeps the consumers' half. -/
theorem step_consInv {s s' : Program p c} {a : Act p c} (h : ConsInv s) (hs : Step s a s') :
    ConsInv s' := by
  cases hs with
  | main _ hc => exact { h with unborn := fun j hj => h.unborn j (le_trans hc hj) }
  | createP hm =>
      refine { h with unborn := fun j hj => h.unborn j ?_ }
      rw [hm]
      exact hj
  | createC hm => exact h.create hm
  | prodCall _ hm =>
      have hstep := Monitor.step_of_next hm
      exact h.foreign fun j => hstep.other (by simp [Monitor.Act.thread])
  | prodWaits _ hm _ =>
      have hstep := Monitor.step_of_next hm
      exact h.foreign fun j => hstep.other (by simp [Monitor.Act.thread])
  | prodAppends _ hm _ =>
      have hstep := Monitor.step_of_next hm
      exact h.foreign fun j => hstep.other (by simp [Monitor.Act.thread])
  | consStart hpc => exact h.stay hpc ⟨by simp, by simp⟩ rfl rfl
  | consLock hpc hfree =>
      exact h.move (cons_ne_unborn hpc (by simp)) ((hfree ▸ h.mutex).acquire rfl)
        (h.out hpc (by simp))
  | consEmpty hpc _ => exact h.stay hpc ⟨by simp, by simp⟩ rfl rfl
  | consNonempty hpc _ => exact h.stay hpc ⟨by simp, by simp⟩ rfl rfl
  | consQuit hpc _ => exact h.stay hpc ⟨by simp, by simp⟩ rfl rfl
  | consStay hpc _ => exact h.stay hpc ⟨by simp, by simp⟩ rfl rfl
  | consExit hpc =>
      exact h.move (cons_ne_unborn hpc (by simp)) (h.mutex.release (by rw [hpc]; rfl) rfl)
        (h.out hpc (by simp))
  | consCall hpc hm =>
      have hstep := Monitor.step_of_next hm
      refine h.set (cons_ne_unborn hpc (by simp)) (h.mutex.keep (by rw [hpc]; rfl)) hstep rfl ?_
      cases hstep
      exact .inl (update_self _ _ _)
  | @consWaits j _ _ m hpc hm hrem =>
      have hstep := Monitor.step_of_next hm
      have hsame : update s.cons j .remove = s.cons := by
        rw [← hpc]
        exact update_eq_self j s.cons
      have hset := h.set (b := .remove) (cons_ne_unborn hpc (by simp))
        (by rw [hsame]; exact h.mutex) hstep rfl ?_
      · rw [hsame] at hset
        exact hset
      · cases hstep with
        | removeWaits _ _ => exact .inr (.inl (update_self _ _ _))
        | removes _ hb _ => rw [hrem] at hb; cases hb
  | consRemoves hpc hm hrem =>
      have hstep := Monitor.step_of_next hm
      refine h.set (cons_ne_unborn hpc (by simp)) (h.mutex.keep (by rw [hpc]; rfl)) hstep rfl ?_
      cases hstep with
      | removeWaits _ hb => rw [hrem] at hb; cases hb
      | removes _ _ _ => exact update_self _ _ _
  | consUnlock hpc =>
      exact h.move (cons_ne_unborn hpc (by simp)) (h.mutex.release (by rw [hpc]; rfl) rfl)
        (h.out hpc (by simp))
  | consLog hpc => exact h.stay hpc ⟨by simp, by simp⟩ rfl rfl
  | @spurious t m hm =>
      have hstep := Monitor.step_of_next hm
      exact h.foreign fun j => hstep.spurious_phase (.inr j)
  | _ => exact h.foreign fun j => .inl rfl

/-! ## The program's invariant -/

/-- The buffer's, the producers' and the consumers' invariants together. -/
structure Inv (items : Int) (stale : Bool) (s : Program p c) : Prop where
  fifo : Monitor.Fifo 1 s.mon
  prods : ProdInv items stale s
  conss : ConsInv s

theorem start_prodInv (hitems : 0 ≤ items) (mem : Int → Int) :
    ProdInv items stale (start p c items 0 stale mem) where
  size := rfl
  unborn := fun _ _ => rfl
  mutex := fun i => by simp [start, ProdPc.holds]
  count := by
    have : tally (fun _ : Fin p => ProdPc.unborn) ProdPc.pending = 0 :=
      tally_eq_zero.mpr fun _ => rfl
    simp [start, Monitor.start, this]
  le := hitems
  done := fun hd => .inl hd
  ok := fun _ => trivial
  phase := fun _ => rfl

theorem start_consInv {first : Int} (mem : Int → Int) :
    ConsInv (start p c items first stale mem) where
  unborn := fun _ _ => rfl
  mutex := fun j => by simp [start, ConsPc.holds]
  phase := fun _ => rfl

/-- The buffer's part comes from the monitor by refinement, the other two by
induction over the run. -/
theorem inv_invariant (hitems : 0 ≤ items) :
    (callFrom p c items 0 stale).Invariant (Inv items stale) := by
  intro s hs
  have hboth : ProdInv items stale s ∧ ConsInv s := by
    refine TSys.Inductive.invariant (M := callFrom p c items 0 stale)
      (P := fun s => ProdInv items stale s ∧ ConsInv s) ⟨?_, ?_⟩ s hs
    · rintro s ⟨mem, rfl⟩
      exact ⟨start_prodInv hitems mem, start_consInv mem⟩
    · intro s a s' h _ hn
      have hstep := step_of_next hn
      exact ⟨step_prodInv h.1 hstep, step_consInv h.2 hstep⟩
  exact ⟨Monitor.fifo_invariant (by decide) _ (reachable_mon hs), hboth.1, hboth.2⟩

/-- In the first call `done` says that everything is counted. -/
theorem Inv.done {s : Program p c} (h : Inv items false s) (hd : s.done = true) :
    s.produced = items := (h.prods.done hd).resolve_left (by simp)

/-- Items removed, in the buffer, owed and not yet counted add up. -/
theorem Inv.balance {s : Program p c} (h : Inv items stale s) :
    s.produced = s.mon.removed.length + s.mon.buf.bufferCnt + tally s.prod ProdPc.pending := by
  have hlen := congrArg List.length h.fifo.queue
  rw [List.length_append] at hlen
  have hcont := BoundedBuffer.contents_length h.fifo.wf
  have hcount := h.prods.count
  omega

end Program

end Os377.ProdCon
