import Os377.Lib.TSys
import Os377.Lib.Count
import Os377.ProdCon.BoundedBuffer
import Mathlib.Data.Fintype.Basic

/-!
# `BoundedBuffer` as a monitor

Any number of threads call `append` and `remove` on one buffer. A critical
section under `buffer_lock` is one step, from taking the lock to the unlock or
to the wait that releases it; a thread woken from a condition variable has to
take the lock again and re-check its guard, and any other thread may get there
first (Mesa semantics). `pthread_cond_signal` wakes at least one waiter if
there is one, and a waiter may wake for no reason at all.

* `fifo_invariant` — every run refines a FIFO queue;
* `awake_invariant` — the counting invariant behind the single signals.
-/

namespace Os377.ProdCon

open Os377.Lib Function

/-- Where a thread stands with respect to the buffer. -/
inductive Phase where
  /-- Outside `append` and `remove`. -/
  | out
  /-- In `append(data)`, about to lock `buffer_lock`. -/
  | appendLock (data : Int)
  /-- Blocked on `buffer_not_full`. -/
  | appendWait (data : Int)
  /-- Woken from `buffer_not_full`, waiting to re-acquire the lock. -/
  | appendWoken (data : Int)
  /-- In `remove()`, about to lock `buffer_lock`. -/
  | removeLock
  /-- Blocked on `buffer_not_empty`. -/
  | removeWait
  /-- Woken from `buffer_not_empty`, waiting to re-acquire the lock. -/
  | removeWoken
  deriving DecidableEq, Repr

namespace Phase

/-- The argument of an `append` that can take the lock. -/
def appending : Phase → Option Int
  | .appendLock data => some data
  | .appendWoken data => some data
  | _ => none

/-- A `remove` that can take the lock. -/
def removing : Phase → Bool
  | .removeLock => true
  | .removeWoken => true
  | _ => false

def onNotFull : Phase → Bool
  | .appendWait _ => true
  | _ => false

def onNotEmpty : Phase → Bool
  | .removeWait => true
  | _ => false

def wokenNotFull : Phase → Bool
  | .appendWoken _ => true
  | _ => false

def wokenNotEmpty : Phase → Bool
  | .removeWoken => true
  | _ => false

/-- About to lock, or woken and waiting to lock again. -/
def runnable (ph : Phase) : Bool := ph.appending.isSome || ph.removing

/-- A blocked thread leaves its condition variable. -/
def wake : Phase → Phase
  | .appendWait data => .appendWoken data
  | .removeWait => .removeWoken
  | ph => ph

end Phase

variable {T : Type} [Fintype T] [DecidableEq T]

namespace Monitor

/-- The buffer, the threads, and the two histories (values appended and values
returned, both in lock order). -/
structure State (T : Type) where
  buf : BoundedBuffer
  phase : T → Phase
  appended : List Int
  removed : List Int

/-- Moves. `woken` says which waiters the signal at the end of a critical
section wakes. -/
inductive Act (T : Type) where
  | callAppend (t : T) (data : Int)
  | callRemove (t : T)
  | lockAppend (t : T) (woken : T → Bool)
  | lockRemove (t : T) (woken : T → Bool)
  | spurious (t : T)

/-- `pthread_cond_signal` on the condition `waits` describes: it wakes only
its waiters, and at least one of them if there is one. -/
def SignalOk (phase : T → Phase) (waits : Phase → Bool) (woken : T → Bool) : Prop :=
  (∀ t, woken t = true → waits (phase t) = true) ∧
  ((∃ t, waits (phase t) = true) → ∃ t, woken t = true)

instance (phase : T → Phase) (waits : Phase → Bool) (woken : T → Bool) :
    Decidable (SignalOk phase waits woken) :=
  inferInstanceAs (Decidable (_ ∧ _))

/-- The threads after a signal woke `woken`. -/
def signal (woken : T → Bool) (phase : T → Phase) : T → Phase :=
  fun t => if woken t then (phase t).wake else phase t

def next (s : State T) : Act T → Option (State T)
  | .callAppend t data =>
      if s.phase t = .out then some { s with phase := update s.phase t (.appendLock data) }
      else none
  | .callRemove t =>
      if s.phase t = .out then some { s with phase := update s.phase t .removeLock }
      else none
  | .lockAppend t woken =>
      match (s.phase t).appending with
      | none => none
      | some data =>
          match s.buf.append data with
          | none => some { s with phase := update s.phase t (.appendWait data) }
          | some b =>
              if SignalOk s.phase Phase.onNotEmpty woken then
                some { s with
                  buf := b
                  phase := update (signal woken s.phase) t .out
                  appended := s.appended ++ [data] }
              else none
  | .lockRemove t woken =>
      if (s.phase t).removing then
        match s.buf.remove with
        | none => some { s with phase := update s.phase t .removeWait }
        | some (data, b) =>
            if SignalOk s.phase Phase.onNotFull woken then
              some { s with
                buf := b
                phase := update (signal woken s.phase) t .out
                removed := s.removed ++ [data] }
            else none
      else none
  | .spurious t =>
      if (s.phase t).onNotFull || (s.phase t).onNotEmpty then
        some { s with phase := update s.phase t (s.phase t).wake }
      else none

/-- A fresh buffer of capacity `N` and no thread inside it. -/
def start (N : Int) (mem : Int → Int) : State T :=
  { buf := .new N mem, phase := fun _ => .out, appended := [], removed := [] }

end Monitor

open Monitor

/-- The monitor of capacity `N` over the threads `T`. -/
def monitor (T : Type) [Fintype T] [DecidableEq T] (N : Int) : TSys (State T) (Act T) where
  init s := ∃ mem, s = start N mem
  next := Monitor.next

namespace Monitor

/-! ## What a step can do -/

/-- The steps of the monitor, one constructor per outcome. -/
inductive Step (s : State T) : Act T → State T → Prop
  | callAppend {t data} : s.phase t = .out →
      Step s (.callAppend t data) { s with phase := update s.phase t (.appendLock data) }
  | callRemove {t} : s.phase t = .out →
      Step s (.callRemove t) { s with phase := update s.phase t .removeLock }
  | appendWaits {t data woken} : (s.phase t).appending = some data →
      s.buf.append data = none →
      Step s (.lockAppend t woken) { s with phase := update s.phase t (.appendWait data) }
  | appends {t data woken b} : (s.phase t).appending = some data →
      s.buf.append data = some b → SignalOk s.phase Phase.onNotEmpty woken →
      Step s (.lockAppend t woken)
        { s with
          buf := b
          phase := update (signal woken s.phase) t .out
          appended := s.appended ++ [data] }
  | removeWaits {t woken} : (s.phase t).removing = true → s.buf.remove = none →
      Step s (.lockRemove t woken) { s with phase := update s.phase t .removeWait }
  | removes {t data woken b} : (s.phase t).removing = true →
      s.buf.remove = some (data, b) → SignalOk s.phase Phase.onNotFull woken →
      Step s (.lockRemove t woken)
        { s with
          buf := b
          phase := update (signal woken s.phase) t .out
          removed := s.removed ++ [data] }
  | spuriousNotFull {t data} : s.phase t = .appendWait data →
      Step s (.spurious t) { s with phase := update s.phase t (.appendWoken data) }
  | spuriousNotEmpty {t} : s.phase t = .removeWait →
      Step s (.spurious t) { s with phase := update s.phase t .removeWoken }

theorem step_of_next {s s' : State T} {a : Act T} (h : next s a = some s') : Step s a s' := by
  cases a with
  | callAppend t data =>
      simp only [next, Option.ite_none_right_eq_some, Option.some.injEq] at h
      obtain ⟨hout, rfl⟩ := h
      exact .callAppend hout
  | callRemove t =>
      simp only [next, Option.ite_none_right_eq_some, Option.some.injEq] at h
      obtain ⟨hout, rfl⟩ := h
      exact .callRemove hout
  | lockAppend t woken =>
      simp only [next] at h
      cases hd : (s.phase t).appending with
      | none => simp [hd] at h
      | some data =>
          cases hb : s.buf.append data with
          | none =>
              simp only [hd, hb, Option.some.injEq] at h
              subst h
              exact .appendWaits hd hb
          | some b =>
              simp only [hd, hb, Option.ite_none_right_eq_some, Option.some.injEq] at h
              obtain ⟨hsig, rfl⟩ := h
              exact .appends hd hb hsig
  | lockRemove t woken =>
      simp only [next, Option.ite_none_right_eq_some] at h
      obtain ⟨hrem, h⟩ := h
      cases hb : s.buf.remove with
      | none =>
          simp only [hb, Option.some.injEq] at h
          subst h
          exact .removeWaits hrem hb
      | some r =>
          obtain ⟨data, b⟩ := r
          simp only [hb, Option.ite_none_right_eq_some, Option.some.injEq] at h
          obtain ⟨hsig, rfl⟩ := h
          exact .removes hrem hb hsig
  | spurious t =>
      simp only [next, Option.ite_none_right_eq_some, Option.some.injEq] at h
      obtain ⟨hw, rfl⟩ := h
      cases hph : s.phase t <;> simp [hph, Phase.onNotFull, Phase.onNotEmpty] at hw
      · exact .spuriousNotFull hph
      · exact .spuriousNotEmpty hph

/-! ## Refinement of a FIFO queue -/

/-- The buffer is well formed, and what was removed followed by what is in the
ring is what was appended. -/
structure Fifo (N : Int) (s : State T) : Prop where
  wf : s.buf.Wf N
  queue : s.removed ++ s.buf.contents = s.appended

omit [Fintype T] [DecidableEq T] in
theorem start_fifo {N : Int} (hN : 1 ≤ N) (mem : Int → Int) :
    Fifo N (start N mem : State T) :=
  ⟨BoundedBuffer.new_wf hN mem, by simp [start]⟩

omit [Fintype T] in
/-- One step keeps the refinement: only the two completed critical sections
touch the buffer or a history. -/
theorem step_fifo {N : Int} {s s' : State T} {a : Act T} (h : Fifo N s)
    (hs : Step s a s') : Fifo N s' := by
  cases hs with
  | callAppend _ => exact ⟨h.wf, h.queue⟩
  | callRemove _ => exact ⟨h.wf, h.queue⟩
  | appendWaits _ _ => exact ⟨h.wf, h.queue⟩
  | appends _ hb _ =>
      obtain ⟨hwf, _, hcont⟩ := BoundedBuffer.append_spec h.wf hb
      refine ⟨hwf, ?_⟩
      simp only [hcont]
      rw [← List.append_assoc, h.queue]
  | removeWaits _ _ => exact ⟨h.wf, h.queue⟩
  | removes _ hb _ =>
      obtain ⟨hwf, _, hcont⟩ := BoundedBuffer.remove_spec h.wf hb
      refine ⟨hwf, ?_⟩
      have := h.queue
      rw [hcont] at this
      simpa using this
  | spuriousNotFull _ => exact ⟨h.wf, h.queue⟩
  | spuriousNotEmpty _ => exact ⟨h.wf, h.queue⟩

theorem fifo_invariant {N : Int} (hN : 1 ≤ N) : (monitor T N).Invariant (Fifo N) :=
  TSys.Inductive.invariant
    { init := by
        rintro s ⟨mem, rfl⟩
        exact start_fifo hN mem
      step := fun _ _ _ hP _ hn => step_fifo hP (step_of_next hn) }

/-! ## Single signals are enough

A completed `append` adds one item and signals one waiter. Threads that barge
in may take the item of a signalled waiter, but then they also lower the
count; so while somebody is blocked on `buffer_not_empty`, every item in the
buffer is matched by a woken `remove`. `buffer_not_full` is the mirror image. -/

/-- The counting invariant. -/
structure Awake (N : Int) (s : State T) : Prop where
  notEmpty : 0 < tally s.phase Phase.onNotEmpty →
    s.buf.bufferCnt ≤ tally s.phase Phase.wokenNotEmpty
  notFull : 0 < tally s.phase Phase.onNotFull →
    N - s.buf.bufferCnt ≤ tally s.phase Phase.wokenNotFull

/-- The end of a critical section seen by a tally the signal does not touch:
only the signaller `t` itself leaves it. -/
theorem tally_signal_other {phase : T → Phase} {waits p : Phase → Bool} {woken : T → Bool}
    {t : T} (hsig : SignalOk phase waits woken)
    (hp : ∀ ph, waits ph = true → p ph.wake = p ph) (hout : p .out = false) :
    tally (update (signal woken phase) t .out) p ≤ tally phase p ∧
      tally phase p ≤ tally (update (signal woken phase) t .out) p + 1 := by
  have heq : ∀ u, p (signal woken phase u) = p (phase u) := by
    intro u
    unfold signal
    split
    · rename_i hw
      exact hp _ (hsig.1 u hw)
    · rfl
  have hsame : tally (signal woken phase) p = tally phase p := by
    simp only [tally, heq]
  have hupd := tally_update (signal woken phase) p t .out
  have hone : (p (signal woken phase t)).toNat ≤ 1 := Bool.toNat_le _
  rw [hout, hsame, Bool.toNat_false] at hupd
  omega

/-- A signal leaves the waiters it did not wake, so a remaining waiter means
somebody was woken; the woken tally `q` grows even without the signaller
`t`. -/
theorem tally_signal_woken {phase : T → Phase} {waits q : Phase → Bool} {woken : T → Bool}
    {t : T} (hsig : SignalOk phase waits woken)
    (hwake : ∀ ph, waits ph = true → q ph.wake = true ∧ q ph = false)
    (hout : waits .out = false) (htw : waits (phase t) = false) (htq : q (phase t) = false)
    (hstill : 0 < tally (update (signal woken phase) t .out) waits)
    (hclear : ∀ ph, waits ph = true → waits ph.wake = false) :
    0 < tally phase waits ∧
      tally phase q < tally (update (signal woken phase) t .out) q := by
  have hne : ∀ u, waits (phase u) = true → u ≠ t := by
    rintro u hu rfl
    rw [htw] at hu
    cases hu
  obtain ⟨u, hu⟩ := tally_pos.mp hstill
  have hut : u ≠ t := by
    intro heq
    subst heq
    rw [update_self, hout] at hu
    cases hu
  -- the waiter that is still blocked was blocked before the signal
  have huw : waits (phase u) = true := by
    rw [update_of_ne hut] at hu
    unfold signal at hu
    split at hu
    · rename_i hw
      rw [hclear _ (hsig.1 u hw)] at hu
      cases hu
    · exact hu
  refine ⟨tally_pos.mpr ⟨u, huw⟩, tally_lt ?_ ?_⟩
  · intro v hv
    have hvt : v ≠ t := by
      intro heq
      subst heq
      rw [htq] at hv
      cases hv
    rw [update_of_ne hvt]
    unfold signal
    split
    · rename_i hw
      exact (hwake _ (hsig.1 v hw)).1
    · exact hv
  · obtain ⟨v, hv⟩ := hsig.2 ⟨u, huw⟩
    have hvw := hsig.1 v hv
    refine ⟨v, ?_, (hwake _ hvw).2⟩
    rw [update_of_ne (hne v hvw)]
    simp only [signal, hv, if_true]
    exact (hwake _ hvw).1

theorem Phase.appending_cases {ph : Phase} {data : Int} (h : ph.appending = some data) :
    ph = .appendLock data ∨ ph = .appendWoken data := by
  cases ph <;> simp [Phase.appending] at h <;> simp [h]

theorem Phase.removing_cases {ph : Phase} (h : ph.removing = true) :
    ph = .removeLock ∨ ph = .removeWoken := by
  cases ph <;> simp [Phase.removing] at h <;> simp

theorem append_awake {N : Int} {s : State T} {t : T} {data : Int} {b : BoundedBuffer}
    {woken : T → Bool} (hf : Fifo N s) (h : Awake N s)
    (hd : (s.phase t).appending = some data) (hb : s.buf.append data = some b)
    (hsig : SignalOk s.phase Phase.onNotEmpty woken) :
    Awake N { s with buf := b, phase := update (signal woken s.phase) t .out
                     appended := s.appended ++ [data] } := by
  obtain ⟨_, hcnt, _⟩ := BoundedBuffer.append_spec hf.wf hb
  have hph := Phase.appending_cases hd
  refine ⟨fun hw => ?_, fun hw => ?_⟩
  · -- a remaining waiter means the signal woke one: one more item, one more woken
    have hboth := tally_signal_woken (q := Phase.wokenNotEmpty) (t := t) hsig
      (by intro ph; cases ph <;> simp [Phase.onNotEmpty, Phase.wake, Phase.wokenNotEmpty])
      rfl (by rcases hph with h | h <;> rw [h] <;> rfl)
      (by rcases hph with h | h <;> rw [h] <;> rfl) hw
      (by intro ph; cases ph <;> simp [Phase.onNotEmpty, Phase.wake])
    have := h.notEmpty hboth.1
    simp only [hcnt]
    omega
  · -- the appender may have been a woken one, but it also used up a free cell
    have hwait := tally_signal_other (p := Phase.onNotFull) (t := t) hsig
      (by intro ph; cases ph <;> simp [Phase.onNotEmpty, Phase.wake, Phase.onNotFull]) rfl
    have hwoken := tally_signal_other (p := Phase.wokenNotFull) (t := t) hsig
      (by intro ph; cases ph <;> simp [Phase.onNotEmpty, Phase.wake, Phase.wokenNotFull]) rfl
    have := h.notFull (lt_of_lt_of_le hw hwait.1)
    simp only [hcnt]
    omega

theorem remove_awake {N : Int} {s : State T} {t : T} {data : Int} {b : BoundedBuffer}
    {woken : T → Bool} (hf : Fifo N s) (h : Awake N s)
    (hd : (s.phase t).removing = true) (hb : s.buf.remove = some (data, b))
    (hsig : SignalOk s.phase Phase.onNotFull woken) :
    Awake N { s with buf := b, phase := update (signal woken s.phase) t .out
                     removed := s.removed ++ [data] } := by
  obtain ⟨_, hcnt, _⟩ := BoundedBuffer.remove_spec hf.wf hb
  have hph := Phase.removing_cases hd
  refine ⟨fun hw => ?_, fun hw => ?_⟩
  · have hwait := tally_signal_other (p := Phase.onNotEmpty) (t := t) hsig
      (by intro ph; cases ph <;> simp [Phase.onNotFull, Phase.wake, Phase.onNotEmpty]) rfl
    have hwoken := tally_signal_other (p := Phase.wokenNotEmpty) (t := t) hsig
      (by intro ph; cases ph <;> simp [Phase.onNotFull, Phase.wake, Phase.wokenNotEmpty]) rfl
    have := h.notEmpty (lt_of_lt_of_le hw hwait.1)
    simp only [hcnt]
    omega
  · have hboth := tally_signal_woken (q := Phase.wokenNotFull) (t := t) hsig
      (by intro ph; cases ph <;> simp [Phase.onNotFull, Phase.wake, Phase.wokenNotFull])
      rfl (by rcases hph with h | h <;> rw [h] <;> rfl)
      (by rcases hph with h | h <;> rw [h] <;> rfl) hw
      (by intro ph; cases ph <;> simp [Phase.onNotFull, Phase.wake])
    have := h.notFull hboth.1
    simp only [hcnt]
    omega

/-- A debt to the waiters `p` covered by the woken `q` stays covered when a
thread moves between phases neither tells apart. -/
theorem covered_update {phase : T → Phase} {p q : Phase → Bool} {x : Int} {t : T} {ph : Phase}
    (h : 0 < tally phase p → x ≤ tally phase q)
    (hp : p (phase t) = p ph) (hq : q (phase t) = q ph) :
    0 < tally (update phase t ph) p → x ≤ tally (update phase t ph) q := by
  rw [tally_update_same hp, tally_update_same hq]
  exact h

/-- A waiter that becomes woken moves from the debt to its cover. -/
theorem covered_wake {phase : T → Phase} {p q : Phase → Bool} {x : Int} {t : T} {ph : Phase}
    (h : 0 < tally phase p → x ≤ tally phase q)
    (hp : p (phase t) = true) (hq : q (phase t) = false) (hq' : q ph = true) :
    0 < tally (update phase t ph) p → x ≤ tally (update phase t ph) q := by
  intro _
  have hold := h (tally_pos.mpr ⟨t, hp⟩)
  have hnew := tally_update phase q t ph
  rw [hq, hq', Bool.toNat_false, Bool.toNat_true] at hnew
  omega

/-- One step keeps the counting invariant. -/
theorem step_awake {N : Int} {s s' : State T} {a : Act T} (hf : Fifo N s) (h : Awake N s)
    (hs : Step s a s') : Awake N s' := by
  cases hs with
  | callAppend hout =>
      exact ⟨covered_update h.notEmpty (by rw [hout]; rfl) (by rw [hout]; rfl),
        covered_update h.notFull (by rw [hout]; rfl) (by rw [hout]; rfl)⟩
  | callRemove hout =>
      exact ⟨covered_update h.notEmpty (by rw [hout]; rfl) (by rw [hout]; rfl),
        covered_update h.notFull (by rw [hout]; rfl) (by rw [hout]; rfl)⟩
  | appendWaits hd hb =>
      -- an appender only waits on a full buffer, where nothing is owed to it
      have hfull := BoundedBuffer.append_eq_none.mp hb
      rw [hf.wf.size] at hfull
      have hph := Phase.appending_cases hd
      refine ⟨covered_update h.notEmpty ?_ ?_, fun _ => by simp only [hfull]; omega⟩
      · rcases hph with h | h <;> rw [h] <;> rfl
      · rcases hph with h | h <;> rw [h] <;> rfl
  | appends hd hb hsig => exact append_awake hf h hd hb hsig
  | removeWaits hd hb =>
      have hempty := BoundedBuffer.remove_eq_none.mp hb
      have hph := Phase.removing_cases hd
      refine ⟨fun _ => by simp only [hempty]; omega, covered_update h.notFull ?_ ?_⟩
      · rcases hph with h | h <;> rw [h] <;> rfl
      · rcases hph with h | h <;> rw [h] <;> rfl
  | removes hd hb hsig => exact remove_awake hf h hd hb hsig
  | spuriousNotFull hph =>
      exact ⟨covered_update h.notEmpty (by rw [hph]; rfl) (by rw [hph]; rfl),
        covered_wake h.notFull (by rw [hph]; rfl) (by rw [hph]; rfl) rfl⟩
  | spuriousNotEmpty hph =>
      exact ⟨covered_wake h.notEmpty (by rw [hph]; rfl) (by rw [hph]; rfl) rfl,
        covered_update h.notFull (by rw [hph]; rfl) (by rw [hph]; rfl)⟩

omit [DecidableEq T] in
theorem start_awake {N : Int} (mem : Int → Int) : Awake N (start N mem : State T) := by
  constructor <;> intro hw <;> obtain ⟨t, ht⟩ := tally_pos.mp hw <;> cases ht

/-- Both invariants, together: the counting argument needs the buffer's. -/
theorem awake_invariant {N : Int} (hN : 1 ≤ N) :
    (monitor T N).Invariant fun s => Fifo N s ∧ Awake N s :=
  TSys.Inductive.invariant
    { init := by
        rintro s ⟨mem, rfl⟩
        exact ⟨start_fifo hN mem, start_awake mem⟩
      step := fun _ _ _ hP _ hn =>
        ⟨step_fifo hP.1 (step_of_next hn), step_awake hP.1 hP.2 (step_of_next hn)⟩ }

/-! ## Results -/

/-- **The bounded buffer is a FIFO queue**, for every capacity, any number of
threads and every schedule. -/
theorem bounded_buffer_fifo (N : Int) (hN : 1 ≤ N) :
    (monitor T N).Invariant fun s =>
      (0 ≤ s.buf.bufferCnt ∧ s.buf.bufferCnt ≤ N) ∧
      (0 ≤ s.buf.bufferFirst ∧ s.buf.bufferFirst < N) ∧
      (0 ≤ s.buf.bufferLast ∧ s.buf.bufferLast < N) ∧
      s.buf.bufferLast = (s.buf.bufferFirst + s.buf.bufferCnt) % N ∧
      s.removed ++ (List.range s.buf.bufferCnt.toNat).map (fun k : Nat =>
        s.buf.buffer ((s.buf.bufferFirst + (k : Int)) % N)) = s.appended := by
  intro s hs
  obtain ⟨hwf, hq⟩ := fifo_invariant hN s hs
  refine ⟨⟨hwf.cnt_nonneg, hwf.cnt_le⟩, ⟨hwf.first_nonneg, hwf.first_lt⟩,
    ⟨hwf.last_nonneg, hwf.last_lt⟩, hwf.last_eq, ?_⟩
  rw [BoundedBuffer.contents, ringRead, hwf.size] at hq
  exact hq

/-- Of four items in a ring of three, the first is removed before the last is appended in
its place. -/
theorem bounded_buffer_fifo_two_threads : ∃ s : State (Fin 2),
    s.removed = [5] ∧ s.buf.bufferFirst = 1 ∧ s.buf.bufferLast = 1 ∧
      (List.range 3).map (fun k : Nat => s.buf.buffer ((s.buf.bufferFirst + (k : Int)) % 3)) =
        [6, 7, 8] := by
  obtain ⟨s, hs, hremoved, happended, hcnt, hfirst⟩ :=
    (monitor (Fin 2) 3).exists_of_run
      (P := fun s => s.removed = [5] ∧ s.appended = [5, 6, 7, 8] ∧ s.buf.bufferCnt = 3 ∧
        s.buf.bufferFirst = 1)
      (start 3 fun _ => 0)
      [.callAppend 0 5, .lockAppend 0 (fun _ => false), .callAppend 0 6,
        .lockAppend 0 (fun _ => false), .callAppend 0 7, .callRemove 1,
        .lockRemove 1 (fun _ => false), .lockAppend 0 (fun _ => false), .callAppend 0 8,
        .lockAppend 0 (fun _ => false)]
      ⟨_, rfl⟩ (by decide)
  obtain ⟨-, -, -, hlast, hcontents⟩ := bounded_buffer_fifo 3 (by decide) s hs
  rw [hcnt, hfirst] at hlast
  rw [hcnt, hremoved, happended] at hcontents
  exact ⟨s, hremoved, hfirst, hlast, (List.cons.inj hcontents).2⟩

/-- **No lost wake-up**: if no thread inside the monitor can run (between steps
the lock is free), nobody is blocked on a condition that holds. -/
theorem no_lost_wakeup (N : Int) (hN : 1 ≤ N) :
    (monitor T N).Invariant fun s =>
      ¬ ((∀ t, (s.phase t).runnable = false) ∧
        (((∃ t, (s.phase t).onNotEmpty = true) ∧ 0 < s.buf.bufferCnt) ∨
         ((∃ t, (s.phase t).onNotFull = true) ∧ s.buf.bufferCnt < N))) := by
  rintro s hs ⟨hrun, hstuck⟩
  obtain ⟨_, hawake⟩ := awake_invariant hN s hs
  -- nobody runnable means nobody woken, so the counting invariant owes nothing
  have hempty : tally s.phase Phase.wokenNotEmpty = 0 := by
    refine tally_eq_zero.mpr fun t => ?_
    have := hrun t
    cases hph : s.phase t <;> rw [hph] at this <;>
      simp_all [Phase.runnable, Phase.appending, Phase.removing, Phase.wokenNotEmpty]
  have hfull : tally s.phase Phase.wokenNotFull = 0 := by
    refine tally_eq_zero.mpr fun t => ?_
    have := hrun t
    cases hph : s.phase t <;> rw [hph] at this <;>
      simp_all [Phase.runnable, Phase.appending, Phase.removing, Phase.wokenNotFull]
  rcases hstuck with ⟨hw, hpos⟩ | ⟨hw, hlt⟩
  · have := hawake.notEmpty (tally_pos.mpr hw)
    omega
  · have := hawake.notFull (tally_pos.mpr hw)
    omega

/-- Two threads wait for an item, and a third one appends it: one of them can run. -/
theorem no_lost_wakeup_three_threads : ∃ s : State (Fin 3), (s.phase 1).onNotEmpty = true ∧
    s.buf.bufferCnt = 1 ∧ ∃ t, (s.phase t).runnable = true := by
  obtain ⟨s, hs, hwait, hcnt⟩ := (monitor (Fin 3) 2).exists_of_run
    (P := fun s => (s.phase 1).onNotEmpty = true ∧ s.buf.bufferCnt = 1)
    (start 2 fun _ => 0)
    [.callRemove 0, .lockRemove 0 (fun _ => false), .callRemove 1,
      .lockRemove 1 (fun _ => false), .callAppend 2 7, .lockAppend 2 (fun t => t = 0)]
    ⟨_, rfl⟩ (by decide)
  refine ⟨s, hwait, hcnt, ?_⟩
  by_contra hnone
  push Not at hnone
  refine no_lost_wakeup 2 (by decide) s hs ⟨fun t => ?_, Or.inl ⟨⟨1, hwait⟩, by omega⟩⟩
  exact Bool.eq_false_iff.mpr (hnone t)

end Monitor

end Os377.ProdCon
