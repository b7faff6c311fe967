import Os377.Xv6.ProcTable
import Mathlib.Data.Fintype.Card
import Mathlib.Data.List.Nodup

/-!
# The xv6 ticket lock

`acquire_t` and `release_t` (`proc.c`) as sequences of shared-memory steps of
up to `NPROC` processes in any interleaving: the `holding_t` test, the atomic
`fetch_and_add`, every read of `turn` in the spin loop, the store and the clear
of `proc`, the increment of `turn`. `ticket` and `turn` are 32-bit and wrap.

The argument is a queue: `faaLog` records the order of the `fetch_and_add`s,
`served` counts the increments of `turn`, and `queue`, the log without its
first `served` entries, lists the processes between their `fetch_and_add` and
their increment. It has no duplicates, so it is never longer than `NPROC`, far
below the wrap-around: comparing tickets modulo `2 ^ 32` compares positions.

A process that exits does so outside the lock, which leaves its slot idle for
the next one.
-/

namespace Os377.Xv6

open Os377.Lib Function

/-- `struct ticketlock`; `none` is the null `proc`. -/
structure TicketLock where
  ticket : BitVec 32
  turn : BitVec 32
  proc : Option Proc
  deriving DecidableEq, Repr

namespace TicketLock

def initlockT : TicketLock := { ticket := 0, turn := 0, proc := none }

/-- `holding_t`, called by `me`. -/
def holdingT (lk : TicketLock) (me : Proc) : Bool :=
  lk.proc == some me && lk.ticket != lk.turn

/-- Where a process stands in its calls. The flag of a test, and of a panic,
says whether the caller held the lock when it called. -/
inductive Pc where
  /-- Outside both functions, without the lock. -/
  | idle
  /-- `if (holding_t(lk)) panic(...)` of `acquire_t` -/
  | acquireTest (own : Bool)
  /-- `fetch_and_add(&lk->ticket, 1)` -/
  | fetchAndAdd
  /-- `while (lk->turn != currticket)` -/
  | spin (currticket : BitVec 32)
  /-- `lk->proc = myproc()` -/
  | setProc
  /-- Outside both functions, holding the lock. -/
  | held
  /-- `if (!holding_t(lk)) panic(...)` of `release_t` -/
  | releaseTest (own : Bool)
  /-- `lk->proc = 0` -/
  | clearProc
  /-- `++lk->turn` -/
  | incTurn
  | panic (own : Bool)
  deriving DecidableEq, Repr

namespace Pc

/-- Between leaving the spin loop and the increment of `turn`. -/
def inside : Pc → Bool
  | .setProc | .held | .clearProc | .incTurn => true
  | .acquireTest own | .releaseTest own | .panic own => own
  | _ => false

/-- Between the `fetch_and_add` and the increment of `turn`. -/
def queued : Pc → Bool
  | .spin _ => true
  | pc => pc.inside

/-- Between the store and the clear of `proc`. -/
def owns : Pc → Bool
  | .held | .clearProc => true
  | .acquireTest own | .releaseTest own | .panic own => own
  | _ => false

def panicked : Pc → Bool
  | .panic _ => true
  | _ => false

theorem inside_of_owns {pc : Pc} (h : pc.owns = true) : pc.inside = true := by
  cases pc <;> simp_all [owns, inside]

theorem queued_of_inside {pc : Pc} (h : pc.inside = true) : pc.queued = true := by
  cases pc <;> simp_all [queued, inside]

end Pc

/-- The lock and its users, with the histories the results speak of: the order
of the `fetch_and_add`s, the order of leaving the spin loop, and the number of
increments of `turn`. -/
structure State where
  lk : TicketLock
  pc : Proc → Pc
  faaLog : List Proc
  exitLog : List Proc
  served : Nat

inductive Act where
  /-- Process `p` calls `acquire_t`. -/
  | acquire (p : Proc)
  /-- Process `p` calls `release_t`. -/
  | release (p : Proc)
  /-- Process `p` takes its next step inside a call. -/
  | step (p : Proc)
  deriving DecidableEq, Repr

/-- The next step of `p` inside `acquire_t` or `release_t`. -/
def State.stepNext (s : State) (p : Proc) : Option State :=
  match s.pc p with
  | .acquireTest own =>
      some { s with pc := update s.pc p (if s.lk.holdingT p then .panic own else .fetchAndAdd) }
  | .fetchAndAdd =>
      some { s with
        lk := { s.lk with ticket := s.lk.ticket + 1 }
        pc := update s.pc p (.spin s.lk.ticket)
        faaLog := s.faaLog ++ [p] }
  | .spin currticket =>
      if s.lk.turn = currticket then
        some { s with pc := update s.pc p .setProc, exitLog := s.exitLog ++ [p] }
      else some s
  | .setProc => some { s with lk := { s.lk with proc := some p }, pc := update s.pc p .held }
  | .releaseTest own =>
      some { s with pc := update s.pc p (if s.lk.holdingT p then .clearProc else .panic own) }
  | .clearProc => some { s with lk := { s.lk with proc := none }, pc := update s.pc p .incTurn }
  | .incTurn =>
      some { s with
        lk := { s.lk with turn := s.lk.turn + 1 }
        pc := update s.pc p .idle
        served := s.served + 1 }
  | _ => none

def next (s : State) : Act → Option State
  | .acquire p =>
      match s.pc p with
      | .idle => some { s with pc := update s.pc p (.acquireTest false) }
      | .held => some { s with pc := update s.pc p (.acquireTest true) }
      | _ => none
  | .release p =>
      match s.pc p with
      | .idle => some { s with pc := update s.pc p (.releaseTest false) }
      | .held => some { s with pc := update s.pc p (.releaseTest true) }
      | _ => none
  | .step p => s.stepNext p

def start : State :=
  { lk := initlockT, pc := fun _ => .idle, faaLog := [], exitLog := [], served := 0 }

/-- One ticket lock, initialised by `initlock_t`, and its users. -/
def machine : TSys State Act where
  init s := s = start
  next := next

/-! ## What a step can do -/

inductive Step (s : State) : Act → State → Prop
  | acquire {p} : s.pc p = .idle →
      Step s (.acquire p) { s with pc := update s.pc p (.acquireTest false) }
  | acquireAgain {p} : s.pc p = .held →
      Step s (.acquire p) { s with pc := update s.pc p (.acquireTest true) }
  | releaseUnheld {p} : s.pc p = .idle →
      Step s (.release p) { s with pc := update s.pc p (.releaseTest false) }
  | release {p} : s.pc p = .held →
      Step s (.release p) { s with pc := update s.pc p (.releaseTest true) }
  | acquirePanics {p own} : s.pc p = .acquireTest own → s.lk.holdingT p = true →
      Step s (.step p) { s with pc := update s.pc p (.panic own) }
  | acquirePasses {p own} : s.pc p = .acquireTest own → s.lk.holdingT p = false →
      Step s (.step p) { s with pc := update s.pc p .fetchAndAdd }
  | fetchAndAdd {p} : s.pc p = .fetchAndAdd →
      Step s (.step p)
        { s with
          lk := { s.lk with ticket := s.lk.ticket + 1 }
          pc := update s.pc p (.spin s.lk.ticket)
          faaLog := s.faaLog ++ [p] }
  | spinExits {p} : s.pc p = .spin s.lk.turn →
      Step s (.step p) { s with pc := update s.pc p .setProc, exitLog := s.exitLog ++ [p] }
  | spins {p t} : s.pc p = .spin t → s.lk.turn ≠ t → Step s (.step p) s
  | setProc {p} : s.pc p = .setProc →
      Step s (.step p) { s with lk := { s.lk with proc := some p }, pc := update s.pc p .held }
  | releasePasses {p own} : s.pc p = .releaseTest own → s.lk.holdingT p = true →
      Step s (.step p) { s with pc := update s.pc p .clearProc }
  | releasePanics {p own} : s.pc p = .releaseTest own → s.lk.holdingT p = false →
      Step s (.step p) { s with pc := update s.pc p (.panic own) }
  | clearProc {p} : s.pc p = .clearProc →
      Step s (.step p) { s with lk := { s.lk with proc := none }, pc := update s.pc p .incTurn }
  | incTurn {p} : s.pc p = .incTurn →
      Step s (.step p)
        { s with
          lk := { s.lk with turn := s.lk.turn + 1 }
          pc := update s.pc p .idle
          served := s.served + 1 }

theorem step_of_stepNext {s s' : State} {p : Proc} (h : s.stepNext p = some s') :
    Step s (.step p) s' := by
  unfold State.stepNext at h
  cases hpc : s.pc p with
  | acquireTest own =>
      rw [hpc] at h
      obtain rfl := Option.some.inj h
      by_cases hh : s.lk.holdingT p = true
      · simpa only [if_pos hh] using Step.acquirePanics hpc hh
      · simpa only [if_neg hh] using Step.acquirePasses hpc (Bool.eq_false_iff.mpr hh)
  | fetchAndAdd =>
      rw [hpc] at h
      obtain rfl := Option.some.inj h
      exact .fetchAndAdd hpc
  | spin t =>
      rw [hpc] at h
      by_cases ht : s.lk.turn = t
      · simp only [if_pos ht] at h
        obtain rfl := Option.some.inj h
        exact .spinExits (ht ▸ hpc)
      · simp only [if_neg ht] at h
        obtain rfl := Option.some.inj h
        exact .spins hpc ht
  | setProc =>
      rw [hpc] at h
      obtain rfl := Option.some.inj h
      exact .setProc hpc
  | releaseTest own =>
      rw [hpc] at h
      obtain rfl := Option.some.inj h
      by_cases hh : s.lk.holdingT p = true
      · simpa only [if_pos hh] using Step.releasePasses hpc hh
      · simpa only [if_neg hh] using Step.releasePanics hpc (Bool.eq_false_iff.mpr hh)
  | clearProc =>
      rw [hpc] at h
      obtain rfl := Option.some.inj h
      exact .clearProc hpc
  | incTurn =>
      rw [hpc] at h
      obtain rfl := Option.some.inj h
      exact .incTurn hpc
  | _ => rw [hpc] at h; cases h

theorem step_of_next {s s' : State} {a : Act} (h : next s a = some s') : Step s a s' := by
  cases a with
  | acquire p =>
      simp only [next] at h
      cases hpc : s.pc p with
      | idle =>
          rw [hpc] at h
          obtain rfl := Option.some.inj h
          exact .acquire hpc
      | held =>
          rw [hpc] at h
          obtain rfl := Option.some.inj h
          exact .acquireAgain hpc
      | _ => rw [hpc] at h; cases h
  | release p =>
      simp only [next] at h
      cases hpc : s.pc p with
      | idle =>
          rw [hpc] at h
          obtain rfl := Option.some.inj h
          exact .releaseUnheld hpc
      | held =>
          rw [hpc] at h
          obtain rfl := Option.some.inj h
          exact .release hpc
      | _ => rw [hpc] at h; cases h
  | step p => exact step_of_stepNext h

/-! ## The queue -/

/-- The processes between their `fetch_and_add` and their increment of `turn`,
in ticket order. -/
def State.queue (s : State) : List Proc := s.faaLog.drop s.served

structure Inv (s : State) : Prop where
  le : s.served ≤ s.faaLog.length
  ticket : s.lk.ticket = BitVec.ofNat 32 s.faaLog.length
  turn : s.lk.turn = BitVec.ofNat 32 s.served
  nodup : s.queue.Nodup
  mem : ∀ p, p ∈ s.queue ↔ (s.pc p).queued = true
  spin : ∀ p t, s.pc p = .spin t →
    ∃ k, s.queue[k]? = some p ∧ t = BitVec.ofNat 32 (s.served + k)
  front : ∀ p, (s.pc p).inside = true → s.queue.head? = some p
  owner : ∀ p, s.lk.proc = some p ↔ (s.pc p).owns = true
  exits : s.exitLog <+: s.faaLog
  exitsOut : (∀ p, (s.pc p).inside = false) → s.exitLog.length = s.served
  exitsIn : ∀ p, (s.pc p).inside = true → s.exitLog.length = s.served + 1

/-- Two tickets less than `NPROC` apart agree modulo `2 ^ 32` only if they are
equal. -/
theorem ofNat_inj {n k : Nat} (hk : k ≤ nproc)
    (h : BitVec.ofNat 32 (n + k) = BitVec.ofNat 32 n) : k = 0 := by
  have h' := congrArg BitVec.toNat h
  simp only [BitVec.toNat_ofNat] at h'
  unfold nproc at hk
  omega

theorem Inv.queue_length {s : State} (h : Inv s) :
    s.queue.length ≤ nproc ∧ s.faaLog.length = s.served + s.queue.length := by
  have hle := h.le
  constructor
  · simpa using h.nodup.length_le_card
  · rw [State.queue, List.length_drop]
    omega

/-- At most one process is inside. -/
theorem Inv.inside_unique {s : State} (h : Inv s) {p q : Proc}
    (hp : (s.pc p).inside = true) (hq : (s.pc q).inside = true) : p = q := by
  have hpf := h.front p hp
  rw [h.front q hq] at hpf
  exact (Option.some.inj hpf).symm

/-- `holding_t` tells the truth: it holds exactly between the store and the
clear of `proc`. -/
theorem Inv.holdingT_eq {s : State} (h : Inv s) (p : Proc) :
    s.lk.holdingT p = (s.pc p).owns := by
  cases hown : (s.pc p).owns with
  | false =>
      have hne : s.lk.proc ≠ some p := fun he => by
        rw [(h.owner p).mp he] at hown
        cases hown
      simp [holdingT, hne]
  | true =>
      have hproc := (h.owner p).mpr hown
      -- `p` itself is queued, so `ticket` is ahead of `turn`
      have hmem : p ∈ s.queue :=
        (h.mem p).mpr (Pc.queued_of_inside (Pc.inside_of_owns hown))
      have hpos : 0 < s.queue.length := List.length_pos_of_mem hmem
      obtain ⟨hbound, hlen⟩ := h.queue_length
      have hne : s.lk.ticket ≠ s.lk.turn := by
        rw [h.ticket, h.turn, hlen]
        intro heq
        have := ofNat_inj hbound heq
        omega
      simp [holdingT, hproc, hne]

/-- A predicate that does not tell two positions apart does not see a process
move between them. -/
theorem update_blind {β : Type} {c : Proc → Pc} {p : Proc} {b : Pc} (f : Pc → β)
    (hf : f b = f (c p)) (k : Proc) : f (update c p b k) = f (c k) := by
  by_cases hk : k = p
  · subst hk
    rw [update_self, hf]
  · rw [update_of_ne hk]

/-- A process moves between positions the invariant does not tell apart. -/
theorem Inv.move {s s' : State} {p : Proc} {b : Pc} (h : Inv s)
    (hs' : s' = { s with pc := update s.pc p b })
    (hq : b.queued = (s.pc p).queued) (hi : b.inside = (s.pc p).inside)
    (ho : b.owns = (s.pc p).owns) (hs : ∀ t, b ≠ .spin t) : Inv s' := by
  have hqueue : s'.queue = s.queue := by rw [hs']; rfl
  have hpc : s'.pc = update s.pc p b := by rw [hs']
  have hinside := fun k => update_blind (c := s.pc) Pc.inside hi k
  refine
    { le := by rw [hs']; exact h.le
      ticket := by rw [hs']; exact h.ticket
      turn := by rw [hs']; exact h.turn
      nodup := by rw [hqueue]; exact h.nodup
      mem := fun k => by rw [hqueue, hpc, update_blind Pc.queued hq]; exact h.mem k
      spin := ?_
      front := fun k hk => by rw [hpc, hinside] at hk; rw [hqueue]; exact h.front k hk
      owner := fun k => by rw [hpc, update_blind Pc.owns ho, hs']; exact h.owner k
      exits := by rw [hs']; exact h.exits
      exitsOut := fun hk => by
        rw [hs']
        exact h.exitsOut fun k => by rw [← hinside, ← hpc]; exact hk k
      exitsIn := fun k hk => by
        rw [hpc, hinside] at hk
        rw [hs']
        exact h.exitsIn k hk }
  intro k t hk
  rw [hpc] at hk
  rw [hqueue, hs']
  by_cases hkp : k = p
  · subst hkp
    rw [update_self] at hk
    exact absurd hk (hs t)
  · rw [update_of_ne hkp] at hk
    exact h.spin k t hk

/-- The `fetch_and_add` puts its caller at the back of the queue. -/
theorem Inv.fetchAndAdd {s s' : State} {p : Proc} (h : Inv s) (hpc : s.pc p = .fetchAndAdd)
    (hs' : s' = { s with
      lk := { s.lk with ticket := s.lk.ticket + 1 }
      pc := update s.pc p (.spin s.lk.ticket)
      faaLog := s.faaLog ++ [p] }) : Inv s' := by
  have hqueue : s'.queue = s.queue ++ [p] := by
    rw [hs']
    exact List.drop_append_of_le_length h.le
  have hpc' : s'.pc = update s.pc p (.spin s.lk.ticket) := by rw [hs']
  have hnew : p ∉ s.queue := fun hm => by
    have := (h.mem p).mp hm
    rw [hpc] at this
    cases this
  have hinside : ∀ k, (s'.pc k).inside = (s.pc k).inside := by
    rw [hpc']
    exact update_blind Pc.inside (by rw [hpc]; rfl)
  refine
    { le := by rw [hs']; simpa using Nat.le_succ_of_le h.le
      ticket := ?_
      turn := by rw [hs']; exact h.turn
      nodup := by rw [hqueue]; exact List.Nodup.append h.nodup (by simp) (by simpa using hnew)
      mem := ?_
      spin := ?_
      front := fun k hk => by
        rw [hinside] at hk
        rw [hqueue, List.head?_append, h.front k hk]
        rfl
      owner := fun k => by
        rw [hpc', update_blind Pc.owns (by rw [hpc]; rfl), hs']
        exact h.owner k
      exits := by rw [hs']; exact h.exits.trans (List.prefix_append _ _)
      exitsOut := fun hk => by
        rw [hs']
        exact h.exitsOut fun k => by rw [← hinside]; exact hk k
      exitsIn := fun k hk => by
        rw [hinside] at hk
        rw [hs']
        exact h.exitsIn k hk }
  · simp only [hs', h.ticket, List.length_append, List.length_singleton]
    exact (BitVec.ofNat_add _ _).symm
  · intro k
    rw [hqueue, hpc', List.mem_append, List.mem_singleton]
    by_cases hk : k = p
    · subst hk
      simp [Pc.queued]
    · simp [hk, h.mem k]
  · intro k t hk
    rw [hpc'] at hk
    rw [hqueue]
    have hserved : s'.served = s.served := by rw [hs']
    rw [hserved]
    by_cases hkp : k = p
    · subst hkp
      rw [update_self, Pc.spin.injEq] at hk
      refine ⟨s.queue.length, by simp, ?_⟩
      rw [← hk, h.ticket, h.queue_length.2]
    · rw [update_of_ne hkp] at hk
      obtain ⟨i, hi, ht⟩ := h.spin k t hk
      refine ⟨i, ?_, ht⟩
      rw [List.getElem?_append_left (List.getElem?_eq_some_iff.mp hi).1]
      exact hi

/-- The process that leaves the spin loop is the one at the front. -/
theorem Inv.spin_front {s : State} {p : Proc} (h : Inv s) (hpc : s.pc p = .spin s.lk.turn) :
    s.queue.head? = some p := by
  obtain ⟨k, hk, ht⟩ := h.spin p _ hpc
  have hlt : k < s.queue.length := (List.getElem?_eq_some_iff.mp hk).1
  rw [h.turn] at ht
  have hk0 : k = 0 := ofNat_inj (by have := h.queue_length.1; omega) ht.symm
  rw [hk0] at hk
  rw [List.head?_eq_getElem?]
  exact hk

/-- Nobody is inside while the front of the queue still spins. -/
theorem Inv.nobody_inside {s : State} {p : Proc} (h : Inv s) (hpc : s.pc p = .spin s.lk.turn)
    (k : Proc) : (s.pc k).inside = false := by
  cases hk : (s.pc k).inside with
  | false => rfl
  | true =>
      have hfront := h.front k hk
      rw [h.spin_front hpc, Option.some.injEq] at hfront
      rw [← hfront, hpc] at hk
      cases hk

/-- Leaving the spin loop: the exits follow the tickets. -/
theorem Inv.spinExits {s s' : State} {p : Proc} (h : Inv s) (hpc : s.pc p = .spin s.lk.turn)
    (hs' : s' = { s with pc := update s.pc p .setProc, exitLog := s.exitLog ++ [p] }) :
    Inv s' := by
  have hqueue : s'.queue = s.queue := by rw [hs']; rfl
  have hpc' : s'.pc = update s.pc p .setProc := by rw [hs']
  have hfront := h.spin_front hpc
  have hlen : s.exitLog.length = s.served := h.exitsOut (h.nobody_inside hpc)
  have honly : ∀ k, (s'.pc k).inside = true → k = p := by
    intro k hk
    by_contra hkp
    rw [hpc', update_of_ne hkp, h.nobody_inside hpc k] at hk
    cases hk
  refine
    { le := by rw [hs']; exact h.le
      ticket := by rw [hs']; exact h.ticket
      turn := by rw [hs']; exact h.turn
      nodup := by rw [hqueue]; exact h.nodup
      mem := fun k => by
        rw [hqueue, hpc', update_blind Pc.queued (by rw [hpc]; rfl)]
        exact h.mem k
      spin := ?_
      front := fun k hk => by rw [hqueue, honly k hk]; exact hfront
      owner := fun k => by
        rw [hpc', update_blind Pc.owns (by rw [hpc]; rfl), hs']
        exact h.owner k
      exits := ?_
      exitsOut := fun hk => by
        have := hk p
        rw [hpc', update_self] at this
        cases this
      exitsIn := fun k _ => by rw [hs']; simp [hlen] }
  · intro k t hk
    rw [hpc'] at hk
    rw [hqueue, hs']
    by_cases hkp : k = p
    · subst hkp
      rw [update_self] at hk
      cases hk
    · rw [update_of_ne hkp] at hk
      exact h.spin k t hk
  · -- the entry of the log after the exits so far is the front of the queue
    have htake : s.exitLog = s.faaLog.take s.served := by
      rw [← hlen]
      exact List.prefix_iff_eq_take.mp h.exits
    rw [State.queue, List.head?_drop] at hfront
    rw [hs']
    show s.exitLog ++ [p] <+: s.faaLog
    rw [htake]
    have hsucc : s.faaLog.take (s.served + 1) = s.faaLog.take s.served ++ [p] := by
      rw [List.take_add_one, hfront]
      rfl
    rw [← hsucc]
    exact List.take_prefix _ _

/-- Storing or clearing `proc`: only a process inside does it, and it is alone
there. -/
theorem Inv.setOwner {s s' : State} {p : Proc} {b : Pc} {proc : Option Proc} (h : Inv s)
    (hs' : s' = { s with lk := { s.lk with proc := proc }, pc := update s.pc p b })
    (hin : (s.pc p).inside = true) (hb : b.inside = true)
    (hq : b.queued = true) (hs : ∀ t, b ≠ .spin t)
    (hproc : proc = if b.owns then some p else none) : Inv s' := by
  have hqueue : s'.queue = s.queue := by rw [hs']; rfl
  have hpc' : s'.pc = update s.pc p b := by rw [hs']
  -- move `p` first with the old `proc`, then look at the owner alone
  have hinside := fun k => update_blind (c := s.pc) Pc.inside (hb.trans hin.symm) k
  refine
    { le := by rw [hs']; exact h.le
      ticket := by rw [hs']; exact h.ticket
      turn := by rw [hs']; exact h.turn
      nodup := by rw [hqueue]; exact h.nodup
      mem := fun k => by
        rw [hqueue, hpc', update_blind Pc.queued (hq.trans (Pc.queued_of_inside hin).symm)]
        exact h.mem k
      spin := ?_
      front := fun k hk => by rw [hpc', hinside] at hk; rw [hqueue]; exact h.front k hk
      owner := ?_
      exits := by rw [hs']; exact h.exits
      exitsOut := fun hk => by
        rw [hs']
        exact h.exitsOut fun k => by rw [← hinside, ← hpc']; exact hk k
      exitsIn := fun k hk => by
        rw [hpc', hinside] at hk
        rw [hs']
        exact h.exitsIn k hk }
  · intro k t hk
    rw [hpc'] at hk
    rw [hqueue, hs']
    by_cases hkp : k = p
    · subst hkp
      rw [update_self] at hk
      exact absurd hk (hs t)
    · rw [update_of_ne hkp] at hk
      exact h.spin k t hk
  · intro k
    have hlk : s'.lk.proc = proc := by rw [hs']
    rw [hlk, hproc, hpc']
    by_cases hkp : k = p
    · subst hkp
      rw [update_self]
      cases b.owns <;> simp
    · rw [update_of_ne hkp]
      have hno : (s.pc k).owns ≠ true := fun ho =>
        hkp (h.inside_unique (Pc.inside_of_owns ho) hin)
      cases b.owns <;> simp [hno, Ne.symm hkp]

/-- Whoever is inside is at the front of the queue. -/
theorem Inv.queue_cons {s : State} {p : Proc} (h : Inv s) (hin : (s.pc p).inside = true) :
    s.queue = p :: s.queue.tail := by
  obtain ⟨rest, hrest⟩ := List.head?_eq_some_iff.mp (h.front p hin)
  rw [hrest]
  rfl

/-- When it leaves, nobody is inside. -/
theorem Inv.none_inside {s : State} {p : Proc} (h : Inv s) (hin : (s.pc p).inside = true)
    (k : Proc) : (update s.pc p .idle k).inside = false := by
  by_cases hkp : k = p
  · subst hkp
    rw [update_self]
    rfl
  · rw [update_of_ne hkp]
    exact Bool.eq_false_iff.mpr fun hk => hkp (h.inside_unique hk hin)

/-- The others are one place nearer to the front, and one turn. -/
theorem Inv.spin_tail {s : State} {p k : Proc} {t : BitVec 32} (h : Inv s)
    (hin : (s.pc p).inside = true) (hkp : k ≠ p) (hk : s.pc k = .spin t) :
    ∃ i, s.queue.tail[i]? = some k ∧ t = BitVec.ofNat 32 (s.served + 1 + i) := by
  obtain ⟨i, hi, ht⟩ := h.spin k t hk
  rw [h.queue_cons hin] at hi
  cases i with
  | zero => exact absurd (Option.some.inj hi).symm hkp
  | succ i =>
      refine ⟨i, hi, ?_⟩
      rw [ht]
      congr 1
      omega

/-- The increment of `turn` takes its caller off the front of the queue. -/
theorem Inv.incTurn {s s' : State} {p : Proc} (h : Inv s) (hpc : s.pc p = .incTurn)
    (hs' : s' = { s with
      lk := { s.lk with turn := s.lk.turn + 1 }
      pc := update s.pc p .idle
      served := s.served + 1 }) : Inv s' := by
  have hin : (s.pc p).inside = true := by rw [hpc]; rfl
  have hcons := h.queue_cons hin
  have htail : s'.queue = s.queue.tail := by
    rw [hs']
    simp [State.queue, List.tail_drop]
  have hnodup := h.nodup
  rw [hcons, List.nodup_cons] at hnodup
  have hpc' : s'.pc = update s.pc p .idle := by rw [hs']
  have hserved : s'.served = s.served + 1 := by rw [hs']
  have hempty : ∀ k, (s'.pc k).inside = false := hpc' ▸ h.none_inside hin
  refine
    { le := ?_
      ticket := by rw [hs']; exact h.ticket
      turn := ?_
      nodup := htail ▸ hnodup.2
      mem := ?_
      spin := ?_
      front := fun k hk => by rw [hempty k] at hk; cases hk
      owner := fun k => by
        rw [hpc', update_blind Pc.owns (by rw [hpc]; rfl), hs']
        exact h.owner k
      exits := by rw [hs']; exact h.exits
      exitsOut := fun _ => by
        have := h.exitsIn p hin
        rw [hs']
        exact this
      exitsIn := fun k hk => by rw [hempty k] at hk; cases hk }
  · have := h.queue_length.2
    rw [hcons, List.length_cons] at this
    rw [hserved, hs']
    show s.served + 1 ≤ s.faaLog.length
    omega
  · simp only [hs', h.turn]
    exact (BitVec.ofNat_add _ _).symm
  · intro k
    have hmem := h.mem k
    rw [hcons, List.mem_cons] at hmem
    rw [hpc', htail]
    by_cases hkp : k = p
    · subst hkp
      rw [update_self]
      simp [Pc.queued, Pc.inside, hnodup.1]
    · rw [update_of_ne hkp, ← hmem]
      simp [hkp]
  · intro k t hk
    rw [hpc'] at hk
    have hkp : k ≠ p := by
      rintro rfl
      rw [update_self] at hk
      cases hk
    rw [update_of_ne hkp] at hk
    rw [htail, hserved]
    exact h.spin_tail hin hkp hk

theorem start_inv : Inv start where
  le := Nat.le_refl _
  ticket := rfl
  turn := rfl
  nodup := List.nodup_nil
  mem := fun p => by simp [start, State.queue, Pc.queued, Pc.inside]
  spin := fun p t h => by simp [start] at h
  front := fun p h => by simp [start, Pc.inside] at h
  owner := fun p => by simp [start, initlockT, Pc.owns]
  exits := List.prefix_rfl
  exitsOut := fun _ => rfl
  exitsIn := fun p h => by simp [start, Pc.inside] at h

/-- One step of any process keeps the queue. -/
theorem step_inv {s s' : State} {a : Act} (h : Inv s) (hs : Step s a s') : Inv s' := by
  cases hs with
  | acquire hpc =>
      exact h.move rfl (by rw [hpc]; rfl) (by rw [hpc]; rfl) (by rw [hpc]; rfl) (by simp)
  | acquireAgain hpc =>
      exact h.move rfl (by rw [hpc]; rfl) (by rw [hpc]; rfl) (by rw [hpc]; rfl) (by simp)
  | releaseUnheld hpc =>
      exact h.move rfl (by rw [hpc]; rfl) (by rw [hpc]; rfl) (by rw [hpc]; rfl) (by simp)
  | release hpc =>
      exact h.move rfl (by rw [hpc]; rfl) (by rw [hpc]; rfl) (by rw [hpc]; rfl) (by simp)
  | acquirePanics hpc _ =>
      exact h.move rfl (by rw [hpc]; rfl) (by rw [hpc]; rfl) (by rw [hpc]; rfl) (by simp)
  | @acquirePasses p own hpc hh =>
      -- the test fails only for a caller that does not own the lock
      rw [h.holdingT_eq, hpc] at hh
      have hown : own = false := hh
      subst hown
      exact h.move rfl (by rw [hpc]; rfl) (by rw [hpc]; rfl) (by rw [hpc]; rfl) (by simp)
  | fetchAndAdd hpc => exact h.fetchAndAdd hpc rfl
  | spinExits hpc => exact h.spinExits hpc rfl
  | spins _ _ => exact h
  | setProc hpc => exact h.setOwner rfl (by rw [hpc]; rfl) rfl rfl (by simp) rfl
  | @releasePasses p own hpc hh =>
      rw [h.holdingT_eq, hpc] at hh
      have hown : own = true := hh
      subst hown
      exact h.move rfl (by rw [hpc]; rfl) (by rw [hpc]; rfl) (by rw [hpc]; rfl) (by simp)
  | releasePanics hpc _ =>
      exact h.move rfl (by rw [hpc]; rfl) (by rw [hpc]; rfl) (by rw [hpc]; rfl) (by simp)
  | clearProc hpc => exact h.setOwner rfl (by rw [hpc]; rfl) rfl rfl (by simp) rfl
  | incTurn hpc => exact h.incTurn hpc rfl

theorem inv_invariant : machine.Invariant Inv :=
  TSys.Inductive.invariant
    { init := fun _ h => h ▸ start_inv
      step := fun _ _ _ hP _ hn => step_inv hP (step_of_next hn) }

/-! ## Results -/

/-- Each process alternates `acquire_t` and `release_t`. -/
def Alternates (s : State) : Act → Prop
  | .acquire p => s.pc p = .idle
  | .release p => s.pc p = .held
  | .step _ => True

/-- What alternation excludes: a test by the wrong caller, and a panic. -/
def Pc.fair : Pc → Bool
  | .acquireTest own => !own
  | .releaseTest own => own
  | .panic _ => false
  | _ => true

theorem fair_invariant : machine.InvariantUnder Alternates fun s => ∀ p, (s.pc p).fair = true := by
  refine TSys.Invariant.stepUnder inv_invariant ?_ ?_
  · rintro s rfl p
    rfl
  · intro s a s' hinv hP hc hn q
    have hkeep : ∀ {p b}, s'.pc = update s.pc p b → b.fair = true → (s'.pc q).fair = true := by
      intro p b hpc hb
      rw [hpc]
      by_cases hq : q = p
      · subst hq
        rw [update_self]
        exact hb
      · rw [update_of_ne hq]
        exact hP q
    cases step_of_next hn with
    | acquire _ => exact hkeep rfl rfl
    | acquireAgain hpc => simp [Alternates, hpc] at hc
    | releaseUnheld hpc => simp [Alternates, hpc] at hc
    | release _ => exact hkeep rfl rfl
    | @acquirePanics p own hpc hh =>
        -- a fair caller does not own the lock, so its test cannot succeed
        have hfair := hP p
        rw [hinv.holdingT_eq, hpc] at hh
        rw [hpc] at hfair
        cases own <;> simp_all [Pc.fair, Pc.owns]
    | acquirePasses _ _ => exact hkeep rfl rfl
    | fetchAndAdd _ => exact hkeep rfl rfl
    | spinExits _ => exact hkeep rfl rfl
    | spins _ _ => exact hP q
    | setProc _ => exact hkeep rfl rfl
    | releasePasses _ _ => exact hkeep rfl rfl
    | @releasePanics p own hpc hh =>
        have hfair := hP p
        rw [hinv.holdingT_eq, hpc] at hh
        rw [hpc] at hfair
        cases own <;> simp_all [Pc.fair, Pc.owns]
    | clearProc _ => exact hkeep rfl rfl
    | incTurn _ => exact hkeep rfl rfl

/-- The position of a process that called the wrong function. -/
def Pc.doomed : Pc → Bool
  | .acquireTest own => own
  | .releaseTest own => !own
  | _ => false

/-- The process a label moves. -/
def Act.proc : Act → Proc
  | .acquire p => p
  | .release p => p
  | .step p => p

/-- A step moves one process. -/
theorem next_other {s s' : State} {a : Act} {p : Proc} (hn : next s a = some s')
    (ha : p ≠ a.proc) : s'.pc p = s.pc p := by
  cases step_of_next hn <;> first | rfl | exact update_of_ne ha _ _

/-- A process outside both functions is the only one that can call. -/
theorem next_call {s s' : State} {a : Act} {p : Proc} (hn : next s a = some s')
    (ha : a.proc = p) (hstep : a ≠ .step p) : s.pc p = .idle ∨ s.pc p = .held := by
  subst ha
  cases step_of_next hn with
  | acquire hpc => exact .inl hpc
  | acquireAgain hpc => exact .inr hpc
  | releaseUnheld hpc => exact .inl hpc
  | release hpc => exact .inr hpc
  | _ => exact absurd rfl hstep

/-- A doomed process stays where it is until it takes its step, and that step
panics. -/
theorem doomed_step {s s' : State} {a : Act} {p : Proc} (hinv : Inv s)
    (h : (s.pc p).doomed = true) (hn : next s a = some s') :
    if a = .step p then (s'.pc p).panicked = true else s'.pc p = s.pc p := by
  have hhold := hinv.holdingT_eq p
  split
  · rename_i ha
    subst ha
    cases step_of_next hn with
    | acquirePanics _ _ => simp [Pc.panicked]
    | releasePanics _ _ => simp [Pc.panicked]
    | acquirePasses hpc hh =>
        rw [hhold, hpc] at hh
        rw [hpc] at h
        simp_all [Pc.doomed, Pc.owns]
    | releasePasses hpc hh =>
        rw [hhold, hpc] at hh
        rw [hpc] at h
        simp_all [Pc.doomed, Pc.owns]
    | fetchAndAdd hpc => rw [hpc] at h; cases h
    | spinExits hpc => rw [hpc] at h; cases h
    | spins hpc _ => rw [hpc] at h; cases h
    | setProc hpc => rw [hpc] at h; cases h
    | clearProc hpc => rw [hpc] at h; cases h
    | incTurn hpc => rw [hpc] at h; cases h
  · rename_i ha
    by_cases hp : p = a.proc
    · rcases next_call hn hp.symm ha with hpc | hpc <;> rw [hpc] at h <;> cases h
    · exact next_other hn hp

/-- A panicked process takes no further step. -/
theorem next_panicked {s : State} {a : Act} (h : (s.pc a.proc).panicked = true) :
    next s a = none := by
  cases hpc : s.pc a.proc with
  | panic own =>
      cases a with
      | acquire p => simp only [Act.proc] at hpc; simp only [next, hpc]
      | release p => simp only [Act.proc] at hpc; simp only [next, hpc]
      | step p =>
          simp only [Act.proc] at hpc
          show s.stepNext p = none
          unfold State.stepNext
          rw [hpc]
  | _ => rw [hpc] at h; cases h

theorem panicked_step {s s' : State} {a : Act} {p : Proc} (h : (s.pc p).panicked = true)
    (hn : next s a = some s') : (s'.pc p).panicked = true := by
  by_cases hp : p = a.proc
  · rw [next_panicked (hp ▸ h)] at hn
    cases hn
  · rw [next_other hn hp]
    exact h

theorem panicked_run {s s' : State} {acts : List Act} {p : Proc}
    (h : (s.pc p).panicked = true) (hr : machine.run s acts = some s') :
    (s'.pc p).panicked = true := by
  induction acts generalizing s with
  | nil =>
      obtain rfl := Option.some.inj hr
      exact h
  | cons a rest ih =>
      simp only [TSys.run, Option.bind_eq_some_iff] at hr
      obtain ⟨t, hn, hr⟩ := hr
      exact ih (panicked_step h hn) hr

/-- The step of a doomed process is enabled. -/
theorem doomed_enabled {s : State} {p : Proc} (h : (s.pc p).doomed = true) :
    ∃ s', next s (.step p) = some s' := by
  show ∃ s', s.stepNext p = some s'
  unfold State.stepNext
  cases hpc : s.pc p with
  | acquireTest own => exact ⟨_, rfl⟩
  | releaseTest own => exact ⟨_, rfl⟩
  | _ => rw [hpc] at h; cases h

/-- Whatever the others do, a doomed process stays doomed as long as it does not
move. -/
theorem doomed_waits {s s' : State} {acts : List Act} {p : Proc} (hs : machine.Reachable s)
    (h : (s.pc p).doomed = true) (hr : machine.run s acts = some s')
    (hstep : .step p ∉ acts) : machine.Reachable s' ∧ (s'.pc p).doomed = true := by
  induction acts generalizing s with
  | nil =>
      obtain rfl := Option.some.inj hr
      exact ⟨hs, h⟩
  | cons a rest ih =>
      simp only [TSys.run, Option.bind_eq_some_iff] at hr
      obtain ⟨t, hn, hr⟩ := hr
      have hone := doomed_step (inv_invariant s hs) h hn
      rw [List.mem_cons, not_or] at hstep
      rw [if_neg fun ha => hstep.1 ha.symm] at hone
      exact ih (hs.step hn) (by rw [hone]; exact h) hr hstep.2

/-- And it has panicked once it has taken a step. -/
theorem doomed_run {s s' : State} {acts : List Act} {p : Proc} (hs : machine.Reachable s)
    (h : (s.pc p).doomed = true) (hr : machine.run s acts = some s')
    (hstep : .step p ∈ acts) : (s'.pc p).panicked = true := by
  induction acts generalizing s with
  | nil => cases hstep
  | cons a rest ih =>
      simp only [TSys.run, Option.bind_eq_some_iff] at hr
      obtain ⟨t, hn, hr⟩ := hr
      have hone := doomed_step (inv_invariant s hs) h hn
      by_cases ha : a = .step p
      · rw [if_pos ha] at hone
        exact panicked_run hone hr
      · rw [if_neg ha] at hone
        refine ih (hs.step hn) (by rw [hone]; exact h) hr ?_
        rcases List.mem_cons.mp hstep with heq | hmem
        · exact absurd heq.symm ha
        · exact hmem

/-- Process `p` calls `acquire_t` with the lock, or `release_t` without it. -/
def Misuses (s : State) (p : Proc) (a : Act) : Prop :=
  a = .acquire p ∧ s.pc p = .held ∨ a = .release p ∧ s.pc p = .idle

/-- Such a call can be made, and leaves its caller doomed. -/
theorem Misuses.doomed {s : State} {p : Proc} {a : Act} (h : Misuses s p a) :
    ∃ t, machine.next s a = some t ∧ (t.pc p).doomed = true := by
  rcases h with ⟨rfl, hpc⟩ | ⟨rfl, hpc⟩
  · exact ⟨{ s with pc := update s.pc p (.acquireTest true) },
      by simp only [machine, next, hpc], by simp [Pc.doomed]⟩
  · exact ⟨{ s with pc := update s.pc p (.releaseTest false) },
      by simp only [machine, next, hpc], by simp [Pc.doomed]⟩

/-- **The ticket lock is correct.** In every run at most one process is between
leaving the spin loop and its increment of `turn`, and processes leave the
loop in the order of their `fetch_and_add`; if processes alternate `acquire_t`
and `release_t` nobody panics. A process may call `acquire_t` while holding the
lock, or `release_t` while not; then, whatever the others do, its next step
stays possible and is the panic, and once it has taken a step it stays there. -/
theorem ticket_lock_correct :
    (machine.Invariant fun s =>
      (∀ p q, (s.pc p).inside = true → (s.pc q).inside = true → p = q) ∧
      s.exitLog <+: s.faaLog) ∧
    (machine.InvariantUnder Alternates fun s => ∀ p, (s.pc p).panicked = false) ∧
    (∀ (s : State) (p : Proc) (a : Act), machine.Reachable s → Misuses s p a →
      ∃ t, machine.next s a = some t ∧
        ∀ (acts : List Act) (s' : State), machine.run t acts = some s' →
          (.step p ∉ acts → ∃ s'', machine.next s' (.step p) = some s'' ∧
            (s''.pc p).panicked = true) ∧
          (.step p ∈ acts → (s'.pc p).panicked = true)) := by
  refine ⟨fun s hs => ?_, fun s hs p => ?_, fun s p a hs hbad => ?_⟩
  · have hinv := inv_invariant s hs
    exact ⟨fun p q hp hq => hinv.inside_unique hp hq, hinv.exits⟩
  · have hfair := fair_invariant s hs p
    cases hpc : s.pc p <;> rw [hpc] at hfair <;> first | rfl | cases hfair
  · obtain ⟨t, hn, hdoomed⟩ := hbad.doomed
    have ht := hs.step hn
    refine ⟨t, hn, fun acts s' hr => ⟨fun hstep => ?_, doomed_run ht hdoomed hr⟩⟩
    obtain ⟨hs', hstill⟩ := doomed_waits ht hdoomed hr hstep
    obtain ⟨s'', hn'⟩ := doomed_enabled hstill
    have hone := doomed_step (inv_invariant s' hs') hstill hn'
    rw [if_pos rfl] at hone
    exact ⟨s'', hn', hone⟩

/-- Process 0 takes the lock and calls `acquire_t` again; process 1 begins a call of
its own before process 0 goes on, and process 0 panics. -/
theorem ticket_lock_correct_twice : ∃ s t s', machine.Reachable s ∧ s.pc initproc = .held ∧
    machine.next s (.acquire initproc) = some t ∧
    machine.run t [.acquire ⟨1, by decide⟩, .step ⟨1, by decide⟩, .step initproc] = some s' ∧
    (s'.pc initproc).panicked = true := by
  have hrun : (machine.run start
      [.acquire initproc, .step initproc, .step initproc, .step initproc, .step initproc]).any
      (fun s => decide (s.pc initproc = .held) && (machine.next s (.acquire initproc)).any
        fun t => (machine.run t
          [.acquire ⟨1, by decide⟩, .step ⟨1, by decide⟩, .step initproc]).isSome) = true := by
    decide +kernel
  obtain ⟨s, hs, hend⟩ := (Option.any_eq_true _ _).mp hrun
  rw [Bool.and_eq_true, decide_eq_true_eq, Option.any_eq_true] at hend
  obtain ⟨hheld, t, ht, hend⟩ := hend
  obtain ⟨s', hs'⟩ := Option.isSome_iff_exists.mp hend
  have hreach : machine.Reachable s := TSys.Reachable.run (.init rfl) hs
  obtain ⟨t', ht', hlater⟩ :=
    ticket_lock_correct.2.2 s initproc (.acquire initproc) hreach (.inl ⟨rfl, hheld⟩)
  obtain rfl := Option.some.inj (ht.symm.trans ht')
  exact ⟨s, t, s', hreach, hheld, ht, hs', (hlater _ s' hs').2 (by decide)⟩

end TicketLock

end Os377.Xv6
