import Mathlib.Algebra.Order.BigOperators.Group.Finset
import Os377.Lib.Count
import Os377.Lib.Mutex
import Os377.Xv6.Log

/-!
# Room in the xv6 log

`begin_op` reserves `MAXOPBLOCKS` entries for every operation in progress, and
`log_write` panics in a log that is full. Both are about `log.lh.n`, which only a commit
brings down again.

* `sleeper_attended` — who sleeps in `begin_op` has to, and somebody is there to wake
  it up;
* `Room.bound` — how full operations of at most `budget` blocks can make the log.
-/

namespace Os377.Xv6.Log

open Os377.Lib Function

variable {sb : Super} {s s' : State} {a : Label} {p q : Proc}

/-! ## Who is where -/

def Pc.isCommitting : Pc → Bool
  | .committing => true
  | _ => false

/-- Who is in an operation, who commits, and who sleeps. -/
structure Control (s : State) : Prop where
  counted : s.outstanding = tally s.pc Pc.inOp
  quiet : s.commit ≠ none → ∀ p, (s.pc p).inOp = false
  committer : ∃ owner, MutexInv Pc.isCommitting s.pc owner ∧ (owner = none ↔ s.commit = none)
  booting : s.boot ≠ none → s.commit = none ∧ ∀ p, s.pc p = .idle
  cleared : s.boot = none → s.commit = none → s.outstanding = 0 → s.lh = []
  finished : s.commit = some .finish → s.lh = []
  asleep : ∀ p, s.pc p = .asleep → s.commit ≠ none ∨ s.scarce

theorem wakeup_inOp : (s.wakeup.pc p).inOp = (s.pc p).inOp := by
  show (if s.pc p = .asleep then Pc.woken else s.pc p).inOp = (s.pc p).inOp
  split
  · next h => rw [h]; rfl
  · rfl

theorem wakeup_isCommitting : (s.wakeup.pc p).isCommitting = (s.pc p).isCommitting := by
  show (if s.pc p = .asleep then Pc.woken else s.pc p).isCommitting = (s.pc p).isCommitting
  split
  · next h => rw [h]; rfl
  · rfl

theorem wakeup_not_asleep : s.wakeup.pc p ≠ .asleep := by
  show (if s.pc p = .asleep then Pc.woken else s.pc p) ≠ .asleep
  split
  · exact Pc.noConfusion
  · assumption

theorem tally_wakeup : tally s.wakeup.pc Pc.inOp = tally s.pc Pc.inOp := by
  unfold tally
  simp only [wakeup_inOp]

theorem isCommitting_iff {pc : Pc} : pc.isCommitting = true ↔ pc = .committing := by
  cases pc <;> simp [Pc.isCommitting]

/-- The lock-like part survives a wake-up. -/
theorem mutex_wakeup {owner : Option Proc} (h : MutexInv Pc.isCommitting s.pc owner) :
    MutexInv Pc.isCommitting s.wakeup.pc owner := by
  intro q
  rw [wakeup_isCommitting]
  exact h q

namespace Control

theorem off (disk : Nat → Block) : Control (State.off disk) where
  counted := (tally_eq_zero.mpr fun _ => rfl).symm
  quiet h := absurd rfl h
  committer := ⟨none, fun _ => by simp [State.off, Pc.isCommitting], by simp [State.off]⟩
  booting _ := ⟨rfl, fun _ => rfl⟩
  cleared _ _ _ := rfl
  finished h := by cases h
  asleep p h := by cases h

/-- Only these fields matter. -/
theorem congr (h : Control s) (hpc : s'.pc = s.pc) (hout : s'.outstanding = s.outstanding)
    (hlh : s'.lh = s.lh) (hcommit : s'.commit = s.commit) (hboot : s'.boot = s.boot) :
    Control s' where
  counted := by rw [hout, hpc]; exact h.counted
  quiet hc p := by rw [hpc]; exact h.quiet (hcommit ▸ hc) p
  committer := by rw [hpc, hcommit]; exact h.committer
  booting hb := by rw [hpc, hcommit]; exact h.booting (hboot ▸ hb)
  cleared hb hc ho := by rw [hlh]; exact h.cleared (hboot ▸ hb) (hcommit ▸ hc) (hout ▸ ho)
  finished hc := by rw [hlh]; exact h.finished (hcommit ▸ hc)
  asleep p hp := by
    rw [hcommit, State.scarce, hlh, hout]
    exact h.asleep p (hpc ▸ hp)

theorem boot_of_pc (h : Control s) (hp : s.pc p ≠ .idle) : s.boot = none := by
  by_contra hb
  exact hp ((h.booting hb).2 p)

theorem commit_of_inOp (h : Control s) (hp : (s.pc p).inOp = true) : s.commit = none := by
  by_contra hc
  have := h.quiet hc p
  rw [hp] at this
  cases this

theorem inOp_outstanding (h : Control s) (hp : (s.pc p).inOp = true) : 0 < s.outstanding := by
  rw [h.counted]
  exact tally_pos.mpr ⟨p, hp⟩

/-- A process moves between phases that neither commit nor count differently. -/
theorem move {pc : Pc} (h : Control s) (hin : (s.pc p).inOp = pc.inOp)
    (hcom : (s.pc p).isCommitting = pc.isCommitting) (hboot : s.boot = none)
    (hasleep : pc = .asleep → s.commit ≠ none ∨ s.scarce) : Control (s.setPc p pc) where
  counted := by
    show s.outstanding = tally (update s.pc p pc) Pc.inOp
    rw [tally_update_same hin]
    exact h.counted
  quiet hc q := by
    show (update s.pc p pc q).inOp = false
    by_cases hqp : q = p
    · subst hqp
      rw [update_self, ← hin]
      exact h.quiet hc q
    · rw [update_of_ne hqp]
      exact h.quiet hc q
  committer := by
    obtain ⟨owner, hmutex, howner⟩ := h.committer
    exact ⟨owner, hmutex.keep hcom.symm, howner⟩
  booting hb := absurd hboot hb
  cleared := h.cleared
  finished := h.finished
  asleep q hq := by
    change update s.pc p pc q = .asleep at hq
    by_cases hqp : q = p
    · subst hqp
      rw [update_self] at hq
      exact hasleep hq
    · rw [update_of_ne hqp] at hq
      exact h.asleep q hq

theorem enter (h : Control s) (hpc : s.pc p = .idle ∨ s.pc p = .woken) (hboot : s.boot = none)
    (hcommit : s.commit = none) :
    Control { s.setPc p (.op []) with outstanding := s.outstanding + 1 } where
  counted := by
    show s.outstanding + 1 = tally (update s.pc p (.op [])) Pc.inOp
    have hold : (s.pc p).inOp = false := by rcases hpc with hpc | hpc <;> rw [hpc] <;> rfl
    have htally := tally_update s.pc Pc.inOp p (.op [])
    have hcount := h.counted
    rw [hold] at htally
    simp only [Bool.toNat_false, Pc.inOp, Bool.toNat_true] at htally
    omega
  quiet hc := absurd hcommit hc
  committer := by
    obtain ⟨owner, hmutex, howner⟩ := h.committer
    refine ⟨owner, hmutex.keep ?_, howner⟩
    rcases hpc with hpc | hpc <;> rw [hpc] <;> rfl
  booting hb := absurd hboot hb
  cleared _ _ hout := absurd hout (Nat.succ_ne_zero _)
  finished := h.finished
  asleep q hq := by
    change update s.pc p (.op []) q = .asleep at hq
    by_cases hqp : q = p
    · subst hqp
      rw [update_self] at hq
      cases hq
    · rw [update_of_ne hqp] at hq
      rcases h.asleep q hq with hc | hs
      · exact Or.inl hc
      · refine Or.inr ?_
        unfold State.scarce at hs ⊢
        exact Nat.lt_of_lt_of_le hs (by simp only [State.setPc]; unfold maxOpBlocks; omega)

/-- The process `p` leaves its operation, and is somewhere else in `s'`. -/
theorem leave {pc : Pc} (h : Control s) (hin : (s.pc p).inOp = true) (hpc : pc.inOp = false) :
    s.outstanding - 1 = tally (update s.pc p pc) Pc.inOp ∧ 0 < s.outstanding := by
  have htally := tally_update s.pc Pc.inOp p pc
  have hcount := h.counted
  have hpos := h.inOp_outstanding hin
  rw [hin, hpc] at htally
  simp only [Bool.toNat_true, Bool.toNat_false] at htally
  omega

theorem endCommit {wrote : List Nat} (h : Control s) (hpc : s.pc p = .op wrote)
    (hcommit : s.commit = none) (hlast : s.outstanding - 1 = 0) :
    Control { { s with outstanding := s.outstanding - 1 }.setPc p .committing with
      commit := some (if 0 < s.lh.length then .writeLog 0 else .finish) } where
  counted := (h.leave (by rw [hpc]; rfl) rfl).1
  quiet _ := by
    have hcount : _ = tally (update s.pc p .committing) Pc.inOp :=
      (h.leave (by rw [hpc]; rfl) rfl).1
    rw [hlast] at hcount
    exact tally_eq_zero.mp hcount.symm
  committer := by
    obtain ⟨owner, hmutex, howner⟩ := h.committer
    rw [howner.mpr hcommit] at hmutex
    exact ⟨some p, hmutex.acquire rfl, by simp⟩
  booting hb := absurd (h.boot_of_pc (by rw [hpc]; exact Pc.noConfusion)) hb
  cleared _ hc := by cases hc
  finished hc := by
    split at hc
    · cases hc
    · next hz => exact List.length_eq_zero_iff.mp (Nat.eq_zero_of_not_pos hz)
  asleep _ _ := Or.inl (Option.some_ne_none _)

theorem endWake {wrote : List Nat} (h : Control s) (hpc : s.pc p = .op wrote)
    (hcommit : s.commit = none) (hlast : s.outstanding - 1 ≠ 0) :
    Control ({ s with outstanding := s.outstanding - 1 }.setPc p .idle).wakeup where
  counted := by
    rw [tally_wakeup]
    exact (h.leave (by rw [hpc]; rfl) rfl).1
  quiet hc := absurd hcommit hc
  committer := by
    obtain ⟨owner, hmutex, howner⟩ := h.committer
    exact ⟨owner, mutex_wakeup (hmutex.keep (by rw [hpc]; rfl)), howner⟩
  booting hb := absurd (h.boot_of_pc (by rw [hpc]; exact Pc.noConfusion)) hb
  cleared _ _ hout := absurd hout hlast
  finished := h.finished
  asleep _ hq := absurd hq wakeup_not_asleep

/-- The commit goes on. -/
theorem commitOn {c : CommitStep} (h : Control s) (hcommit : s.commit ≠ none)
    (hpc : s'.pc = s.pc) (hout : s'.outstanding = s.outstanding) (hboot : s'.boot = s.boot)
    (hc : s'.commit = some c) (hfinish : c = .finish → s'.lh = []) : Control s' where
  counted := by rw [hout, hpc]; exact h.counted
  quiet _ q := by rw [hpc]; exact h.quiet hcommit q
  committer := by
    obtain ⟨owner, hmutex, howner⟩ := h.committer
    rw [hpc, hc]
    refine ⟨owner, hmutex, ?_⟩
    have hne : owner ≠ none := fun heq => hcommit (howner.mp heq)
    simp [hne]
  booting hb := absurd (h.booting (hboot ▸ hb)).1 hcommit
  cleared _ hn := by rw [hc] at hn; cases hn
  finished hf := hfinish (by rw [hc] at hf; exact Option.some.inj hf)
  asleep _ _ := Or.inl (by rw [hc]; exact Option.some_ne_none _)

theorem finish (h : Control s) (hpc : s.pc p = .committing) (hcommit : s.commit = some .finish) :
    Control { (s.setPc p .idle).wakeup with commit := none } where
  counted := by
    show s.outstanding = tally (s.setPc p .idle).wakeup.pc Pc.inOp
    rw [tally_wakeup]
    show s.outstanding = tally (update s.pc p .idle) Pc.inOp
    rw [tally_update_same (by rw [hpc]; rfl)]
    exact h.counted
  quiet hc := absurd rfl hc
  committer := by
    obtain ⟨owner, hmutex, -⟩ := h.committer
    refine ⟨none, mutex_wakeup (hmutex.release ?_ rfl), by simp⟩
    rw [hpc]
    rfl
  booting hb := absurd (h.boot_of_pc (by rw [hpc]; exact Pc.noConfusion)) hb
  cleared _ _ _ := h.finished hcommit
  finished hc := by cases hc
  asleep _ hq := absurd hq wakeup_not_asleep

/-- The recovery goes on. -/
theorem bootOn {b : Option BootStep} (h : Control s) (hboot : s.boot ≠ none) (hpc : s'.pc = s.pc)
    (hout : s'.outstanding = s.outstanding) (hcommit : s'.commit = s.commit) (hb : s'.boot = b)
    (hdone : b = none → s'.lh = []) : Control s' where
  counted := by rw [hout, hpc]; exact h.counted
  quiet hc := absurd (h.booting hboot).1 (hcommit ▸ hc)
  committer := by rw [hpc, hcommit]; exact h.committer
  booting _ := by rw [hpc, hcommit]; exact h.booting hboot
  cleared hn _ _ := hdone (hb ▸ hn)
  finished hf := by rw [hcommit, (h.booting hboot).1] at hf; cases hf
  asleep q hq := by
    rw [hpc, (h.booting hboot).2 q] at hq
    cases hq

theorem step (h : Control s) (hs : Step sb s a s') : Control s' := by
  cases hs with
  | enter hboot hpc hcommit _ => exact h.enter hpc hboot hcommit
  | sleep hboot hpc hwait =>
      refine h.move ?_ ?_ hboot fun _ => hwait
      all_goals rcases hpc with hpc | hpc <;> rw [hpc] <;> rfl
  | bread _ _ _ => exact h.congr rfl rfl rfl rfl rfl
  | brelse _ _ => exact h.congr rfl rfl rfl rfl rfl
  | @store p b wrote data hpc _ =>
      have hboot := h.boot_of_pc (p := p) (by rw [hpc]; exact Pc.noConfusion)
      have hmove : Control (s.setPc p (.stored wrote b)) :=
        h.move (by rw [hpc]; rfl) (by rw [hpc]; rfl) hboot (fun heq => by cases heq)
      exact hmove.congr rfl rfl rfl rfl rfl
  | tooBig _ _ => exact h.congr rfl rfl rfl rfl rfl
  | @check p wrote b hpc _ =>
      have hboot := h.boot_of_pc (p := p) (by rw [hpc]; exact Pc.noConfusion)
      exact h.move (by rw [hpc]; rfl) (by rw [hpc]; rfl) hboot (fun heq => by cases heq)
  | @append p wrote b hpc =>
      have hin : (s.pc p).inOp = true := by rw [hpc]; rfl
      have hboot := h.boot_of_pc (p := p) (by rw [hpc]; exact Pc.noConfusion)
      have hmove : Control (s.setPc p (.op (wrote.insert b))) :=
        h.move (by rw [hpc]; rfl) (by rw [hpc]; rfl) hboot (fun heq => by cases heq)
      have hgrow : s.lh.length ≤ (if b ∈ s.lh then s.lh else s.lh ++ [b]).length := by
        split
        · exact Nat.le_refl _
        · rw [List.length_append]
          exact Nat.le_add_right _ _
      refine ⟨hmove.counted, hmove.quiet, hmove.committer, hmove.booting, ?_, ?_, ?_⟩
      · intro _ _ hout
        exact absurd (hout ▸ h.inOp_outstanding hin) (Nat.lt_irrefl 0)
      · intro hc
        cases (h.commit_of_inOp hin).symm.trans hc
      · intro q hq
        rcases hmove.asleep q hq with hc | hscarce
        · exact Or.inl hc
        · refine Or.inr (Nat.lt_of_lt_of_le hscarce ?_)
          exact Nat.add_le_add_right hgrow _
  | @endPanic p wrote hpc hcommit =>
      exact absurd (h.commit_of_inOp (p := p) (by rw [hpc]; rfl)) hcommit
  | endCommit hpc hcommit hlast => exact h.endCommit hpc hcommit hlast
  | endWake hpc hcommit hlast => exact h.endWake hpc hcommit hlast
  | copyOut _ hc _ _ _ =>
      exact h.commitOn (by rw [hc]; exact Option.some_ne_none _) rfl rfl rfl rfl
        (fun heq => by cases heq)
  | commitHead _ hc _ =>
      exact h.commitOn (by rw [hc]; exact Option.some_ne_none _) rfl rfl rfl rfl
        (fun heq => by cases heq)
  | copyHome _ hc _ _ _ =>
      exact h.commitOn (by rw [hc]; exact Option.some_ne_none _) rfl rfl rfl rfl
        (fun heq => by cases heq)
  | clearHead _ hc _ =>
      exact h.commitOn (by rw [hc]; exact Option.some_ne_none _) rfl rfl rfl rfl (fun _ => rfl)
  | finish hpc hcommit => exact h.finish hpc hcommit
  | readHead hb =>
      exact h.bootOn (by rw [hb]; exact Option.some_ne_none _) rfl rfl rfl rfl
        (fun heq => by cases heq)
  | reinstall hb _ =>
      exact h.bootOn (by rw [hb]; exact Option.some_ne_none _) rfl rfl rfl rfl
        (fun heq => by cases heq)
  | booted hb _ =>
      exact h.bootOn (by rw [hb]; exact Option.some_ne_none _) rfl rfl rfl rfl (fun _ => rfl)
  | evict _ _ => exact h.congr rfl rfl rfl rfl rfl
  | @kill p hpc =>
      have hboot := h.boot_of_pc (p := p) (by rw [hpc]; exact Pc.noConfusion)
      exact h.move (by rw [hpc]; rfl) (by rw [hpc]; rfl) hboot (fun heq => by cases heq)
  | crash => exact off s.disk

end Control

/-- Holds in every run, whatever the callers do. -/
theorem control_invariant (base : Nat → Block) : (system sb base).Invariant Control := by
  refine TSys.Inductive.invariant ⟨?_, fun _ _ _ h _ hn => h.step (next_step hn)⟩
  rintro s rfl
  exact .off base

/-- **Nobody sleeps in `begin_op` for nothing.** Whoever sleeps there finds, if it were to
test again, that it has to wait, and there is a process in an operation or in a commit, at
whose end it is woken up. -/
theorem sleeper_attended (base : Nat → Block) :
    (system sb base).Invariant fun s => ∀ p, s.pc p = .asleep →
      (s.commit ≠ none ∨ s.scarce) ∧ ∃ q, (s.pc q).inOp = true ∨ s.pc q = .committing := by
  intro s hs p hp
  have h := control_invariant base s hs
  refine ⟨h.asleep p hp, ?_⟩
  by_cases hcommit : s.commit = none
  · -- without an operation in progress the log is empty, and has room
    have hboot := h.boot_of_pc (p := p) (by rw [hp]; exact Pc.noConfusion)
    have hpos : 0 < s.outstanding := by
      by_contra hzero
      have hout : s.outstanding = 0 := Nat.eq_zero_of_not_pos hzero
      rcases h.asleep p hp with hc | hscarce
      · exact hc hcommit
      · rw [State.scarce, h.cleared hboot hcommit hout, hout, List.length_nil] at hscarce
        exact absurd hscarce (by unfold logSize maxOpBlocks; omega)
    rw [h.counted] at hpos
    obtain ⟨q, hq⟩ := tally_pos.mp hpos
    exact ⟨q, Or.inl hq⟩
  · obtain ⟨owner, hmutex, howner⟩ := h.committer
    obtain ⟨q, rfl⟩ := Option.ne_none_iff_exists'.mp fun heq => hcommit (howner.mp heq)
    exact ⟨q, Or.inr (isCommitting_iff.mp ((hmutex q).mpr rfl))⟩

/-! ## How full the log can be -/

/-- The blocks that the operation of a process has logged. -/
def Pc.wrote : Pc → List Nat
  | .op wrote | .stored wrote _ | .checked wrote _ => wrote
  | _ => []

/-- What operations that have ended can have left in the log while `n` are in progress. -/
def leftover (budget : Nat) : Nat → Nat
  | 1 => maxOpBlocks + budget
  | 2 => maxOpBlocks
  | _ => 0

/-- How many blocks the operations in progress have logged. -/
def State.inProgress (s : State) : Nat := ∑ p, (s.pc p).wrote.length

/-- What the operations in progress have logged: at most `budget` blocks each, also with
the one on its way. -/
structure Written (budget : Nat) (pc : Proc → Pc) (lh : List Nat) : Prop where
  within : ∀ p, (pc p).wrote.length ≤ budget
  pending : ∀ p wrote b, pc p = .stored wrote b ∨ pc p = .checked wrote b →
    b ∈ wrote ∨ wrote.length < budget
  logged : ∀ p, ∀ b ∈ (pc p).wrote, b ∈ lh

/-- The room that is left, with at most `budget` blocks to an operation. -/
structure Room (budget : Nat) (s : State) : Prop where
  written : Written budget s.pc s.lh
  few : s.outstanding ≤ 3
  reserved : s.boot = none → s.commit = none →
    s.lh.length ≤ leftover budget s.outstanding + s.inProgress
  committed : s.boot = none → s.commit ≠ none → s.lh.length ≤ maxOpBlocks + 2 * budget

theorem wrote_of_not_inOp {pc : Pc} (h : pc.inOp = false) : pc.wrote = [] := by
  cases pc <;> first | rfl | cases h

theorem wakeup_wrote : (s.wakeup.pc p).wrote = (s.pc p).wrote := by
  show (if s.pc p = .asleep then Pc.woken else s.pc p).wrote = (s.pc p).wrote
  split
  · next h => rw [h]; rfl
  · rfl

theorem wakeup_pending {wrote : List Nat} {b : Nat}
    (h : s.wakeup.pc p = .stored wrote b ∨ s.wakeup.pc p = .checked wrote b) :
    s.pc p = .stored wrote b ∨ s.pc p = .checked wrote b := by
  change (if s.pc p = .asleep then Pc.woken else s.pc p) = .stored wrote b ∨
    (if s.pc p = .asleep then Pc.woken else s.pc p) = .checked wrote b at h
  split at h
  · rcases h with h | h <;> cases h
  · exact h

/-- What a process in an operation has logged changes; the others stay. -/
theorem inProgress_setPc (s : State) (p : Proc) (pc : Pc) :
    (s.setPc p pc).inProgress + (s.pc p).wrote.length = s.inProgress + pc.wrote.length :=
  sum_update s.pc (fun pc => pc.wrote.length) p pc

theorem inProgress_wakeup : s.wakeup.inProgress = s.inProgress := by
  unfold State.inProgress
  simp only [wakeup_wrote]

section Budget

variable {budget : Nat}

theorem Written.moved {pc : Proc → Pc} {lh lh' : List Nat} {new : Pc}
    (h : Written budget pc lh) (hsub : ∀ c ∈ lh, c ∈ lh') (hlen : new.wrote.length ≤ budget)
    (hpend : ∀ wrote b, new = .stored wrote b ∨ new = .checked wrote b →
      b ∈ wrote ∨ wrote.length < budget)
    (hlog : ∀ b ∈ new.wrote, b ∈ lh') : Written budget (update pc p new) lh' := by
  have hcases : ∀ q, update pc p new q = new ∨ update pc p new q = pc q := by
    intro q
    by_cases hqp : q = p
    · subst hqp
      exact Or.inl (update_self ..)
    · exact Or.inr (update_of_ne hqp ..)
  refine ⟨fun q => ?_, fun q wrote b hq => ?_, fun q b hb => ?_⟩
  · rcases hcases q with heq | heq <;> rw [heq]
    · exact hlen
    · exact h.within q
  · rcases hcases q with heq | heq <;> rw [heq] at hq
    · exact hpend wrote b hq
    · exact h.pending q wrote b hq
  · rcases hcases q with heq | heq <;> rw [heq] at hb
    · exact hlog b hb
    · exact hsub b (h.logged q b hb)

/-- Nobody is in an operation. -/
theorem Written.quiet {pc : Proc → Pc} (lh : List Nat) (h : ∀ p, (pc p).inOp = false) :
    Written budget pc lh where
  within p := by rw [wrote_of_not_inOp (h p)]; exact Nat.zero_le _
  pending p wrote b hp := by
    have := h p
    rcases hp with hp | hp <;> rw [hp] at this <;> cases this
  logged p b hb := by
    rw [wrote_of_not_inOp (h p)] at hb
    exact absurd hb List.not_mem_nil

theorem Written.wakeup {lh : List Nat} (h : Written budget s.pc lh) :
    Written budget s.wakeup.pc lh where
  within q := by rw [wakeup_wrote]; exact h.within q
  pending q wrote b hq := h.pending q wrote b (wakeup_pending hq)
  logged q b hb := h.logged q b (by rwa [wakeup_wrote] at hb)

/-- Nothing is promised where nothing has been logged. -/
theorem not_pending {pc : Pc} (h : pc.inOp = false ∨ ∃ wrote, pc = .op wrote) :
    ∀ wrote b, pc = .stored wrote b ∨ pc = .checked wrote b →
      b ∈ wrote ∨ wrote.length < budget := by
  rintro wrote b (rfl | rfl)
  all_goals rcases h with h | ⟨w, h⟩ <;> cases h

/-- What one operation logged is left behind when it ends. -/
theorem leftover_step {n k w : Nat} (hbudget : budget ≤ maxOpBlocks) (hw : w ≤ budget)
    (hn : n ≤ 3) (hlast : n - 1 ≠ 0) (hk : k ≤ leftover budget n + w) :
    k ≤ leftover budget (n - 1) := by
  unfold maxOpBlocks at hbudget
  match n, hn with
  | 0, _ => exact absurd rfl hlast
  | 1, _ => exact absurd rfl hlast
  | 2, _ => simp only [leftover, maxOpBlocks] at hk ⊢; omega
  | 3, _ => simp only [leftover, maxOpBlocks] at hk ⊢; omega

namespace Room

theorem off (disk : Nat → Block) : Room budget (State.off disk) where
  written := .quiet _ fun _ => rfl
  few := Nat.zero_le _
  reserved h := by cases h
  committed h := by cases h

theorem inProgress_le (h : Room budget s) (hc : Control s) :
    s.inProgress ≤ s.outstanding * budget := by
  have hin : s.inProgress = ∑ p ∈ Finset.univ.filter fun p => (s.pc p).inOp = true,
      (s.pc p).wrote.length := by
    refine (Finset.sum_filter_of_ne fun p _ hne => ?_).symm
    by_contra hnot
    exact hne (by rw [wrote_of_not_inOp (Bool.eq_false_iff.mpr hnot)]; rfl)
  rw [hin, hc.counted]
  exact Finset.sum_le_card_nsmul _ _ budget fun p _ => h.written.within p

/-- The log never holds more than this. -/
theorem bound (h : Room budget s) (hc : Control s) (hbudget : budget ≤ maxOpBlocks)
    (hboot : s.boot = none) : s.lh.length ≤ maxOpBlocks + 2 * budget := by
  by_cases hcommit : s.commit = none
  · have hres := h.reserved hboot hcommit
    have hsum := h.inProgress_le hc
    have hfew := h.few
    unfold maxOpBlocks at *
    match hout : s.outstanding, hfew with
    | 0, _ => rw [hc.cleared hboot hcommit hout]; exact Nat.zero_le _
    | 1, _ => rw [hout] at hres hsum; simp only [leftover, maxOpBlocks] at hres; omega
    | 2, _ => rw [hout] at hres hsum; simp only [leftover, maxOpBlocks] at hres; omega
    | 3, _ => rw [hout] at hres hsum; simp only [leftover] at hres; omega
  · exact h.committed hboot hcommit

/-- Only these fields matter. -/
theorem congr (h : Room budget s) (hpc : s'.pc = s.pc) (hout : s'.outstanding = s.outstanding)
    (hlh : s'.lh = s.lh) (hcommit : s'.commit = s.commit) (hboot : s'.boot = s.boot) :
    Room budget s' where
  written := by rw [hpc, hlh]; exact h.written
  few := hout ▸ h.few
  reserved hb hc := by
    rw [hlh, hout, State.inProgress, hpc]
    exact h.reserved (hboot ▸ hb) (hcommit ▸ hc)
  committed hb hc := by rw [hlh]; exact h.committed (hboot ▸ hb) (hcommit ▸ hc)

/-- A process moves on without having logged anything more. -/
theorem move {pc : Pc} (h : Room budget s) (hwrote : pc.wrote = (s.pc p).wrote)
    (hpend : ∀ wrote b, pc = .stored wrote b ∨ pc = .checked wrote b →
      b ∈ wrote ∨ wrote.length < budget) : Room budget (s.setPc p pc) where
  written := h.written.moved (fun _ hc => hc) (hwrote ▸ h.written.within p) hpend
    (hwrote ▸ h.written.logged p)
  few := h.few
  reserved hb hc := by
    have hsum := inProgress_setPc s p pc
    rw [hwrote] at hsum
    rw [Nat.add_right_cancel hsum]
    exact h.reserved hb hc
  committed := h.committed

theorem enter (h : Room budget s) (hc : Control s) (hpc : s.pc p = .idle ∨ s.pc p = .woken)
    (hboot : s.boot = none) (hcommit : s.commit = none) (hroom : ¬ s.scarce) :
    Room budget { s.setPc p (.op []) with outstanding := s.outstanding + 1 } := by
  have hold : (s.pc p).wrote = [] := by rcases hpc with hpc | hpc <;> rw [hpc] <;> rfl
  have hmove : Room budget (s.setPc p (.op [])) :=
    h.move hold.symm (not_pending (Or.inr ⟨[], rfl⟩))
  unfold State.scarce logSize maxOpBlocks at hroom
  refine ⟨hmove.written, ?_, fun _ _ => ?_, hmove.committed⟩
  · show s.outstanding + 1 ≤ 3
    omega
  · show s.lh.length ≤ leftover budget (s.outstanding + 1) + (s.setPc p (.op [])).inProgress
    have hfew : s.outstanding + 1 ≤ 3 := by omega
    match hout : s.outstanding, hfew with
    | 0, _ => rw [hc.cleared hboot hcommit hout]; exact Nat.zero_le _
    | 1, _ => simp only [leftover, maxOpBlocks]; omega
    | 2, _ => omega

theorem append {wrote : List Nat} {b : Nat} (h : Room budget s) (hc : Control s)
    (hpc : s.pc p = .checked wrote b) :
    Room budget { s.setPc p (.op (wrote.insert b)) with
      lh := if b ∈ s.lh then s.lh else s.lh ++ [b]
      cache := update s.cache b (some { s.buf b with dirty := true }) } := by
  have hcommit := hc.commit_of_inOp (p := p) (by rw [hpc]; rfl)
  have hsub : ∀ c ∈ s.lh, c ∈ if b ∈ s.lh then s.lh else s.lh ++ [b] := by
    intro c hcm
    split
    · exact hcm
    · exact List.mem_append_left _ hcm
  have hnew : b ∈ if b ∈ s.lh then s.lh else s.lh ++ [b] := by
    split
    · assumption
    · exact List.mem_append_right _ (List.mem_singleton_self b)
  have hwithin := h.written.within p
  have hlogged := h.written.logged p
  rw [hpc] at hwithin hlogged
  have hlen : (wrote.insert b).length ≤ budget := by
    by_cases hmem : b ∈ wrote
    · rw [List.insert_of_mem hmem]
      exact hwithin
    · rw [List.length_insert_of_not_mem hmem]
      exact (h.written.pending p wrote b (Or.inr hpc)).resolve_left hmem
  refine ⟨h.written.moved hsub hlen (not_pending (Or.inr ⟨_, rfl⟩)) ?_, h.few, ?_,
    fun _ hn => absurd hcommit hn⟩
  · intro c hcm
    rcases List.mem_insert_iff.mp hcm with rfl | hcm
    · exact hnew
    · exact hsub c (hlogged c hcm)
  · intro hb _
    show (if b ∈ s.lh then s.lh else s.lh ++ [b]).length
      ≤ leftover budget s.outstanding + (s.setPc p (.op (wrote.insert b))).inProgress
    have hsum := inProgress_setPc s p (.op (wrote.insert b))
    have hres := h.reserved hb hcommit
    rw [hpc] at hsum
    change _ + wrote.length = _ + (wrote.insert b).length at hsum
    by_cases hmem : b ∈ wrote
    · -- the entry is there already
      rw [if_pos (hlogged b hmem)]
      rw [List.insert_of_mem hmem] at hsum
      rw [List.insert_of_mem hmem]
      omega
    · have hgrow : (if b ∈ s.lh then s.lh else s.lh ++ [b]).length ≤ s.lh.length + 1 := by
        split
        · exact Nat.le_succ _
        · rw [List.length_append, List.length_singleton]
      rw [List.length_insert_of_not_mem hmem] at hsum
      omega

/-- The process `p` ends its operation, and the others stay. -/
theorem leave {wrote : List Nat} {pc : Pc} (h : Room budget s) (hpc : s.pc p = .op wrote)
    (hpc' : pc.inOp = false) : Written budget (update s.pc p pc) s.lh ∧
      (s.setPc p pc).inProgress + wrote.length = s.inProgress ∧ wrote.length ≤ budget := by
  have hw := wrote_of_not_inOp hpc'
  have hsum := inProgress_setPc s p pc
  have hwithin := h.written.within p
  rw [hpc] at hsum hwithin
  rw [hw, List.length_nil, Nat.add_zero] at hsum
  refine ⟨h.written.moved (fun _ hc => hc) ?_ (not_pending (Or.inl hpc')) ?_, hsum, hwithin⟩
  · rw [hw]
    exact Nat.zero_le _
  · rw [hw]
    exact fun _ hb => absurd hb List.not_mem_nil

theorem endWake {wrote : List Nat} (h : Room budget s) (hc : Control s)
    (hbudget : budget ≤ maxOpBlocks) (hpc : s.pc p = .op wrote) (hlast : s.outstanding - 1 ≠ 0) :
    Room budget ({ s with outstanding := s.outstanding - 1 }.setPc p .idle).wakeup := by
  have hcommit := hc.commit_of_inOp (p := p) (by rw [hpc]; rfl)
  have hleave : Written budget (update s.pc p .idle) s.lh ∧ _ := h.leave hpc rfl
  obtain ⟨hwritten, hsum, hw⟩ := hleave
  refine ⟨hwritten.wakeup (s := { s with outstanding := s.outstanding - 1 }.setPc p .idle), ?_,
    fun hb _ => ?_, fun _ hn => absurd hcommit hn⟩
  · exact Nat.le_trans (Nat.sub_le _ _) h.few
  · rw [inProgress_wakeup]
    show s.lh.length ≤ leftover budget (s.outstanding - 1) + (s.setPc p .idle).inProgress
    have hres := h.reserved hb hcommit
    have hleft := leftover_step hbudget hw h.few hlast
      (k := s.lh.length - (s.setPc p .idle).inProgress) (by omega)
    omega

theorem endCommit {wrote : List Nat} {c : CommitStep} (h : Room budget s) (hc : Control s)
    (hbudget : budget ≤ maxOpBlocks) (hpc : s.pc p = .op wrote) :
    Room budget { { s with outstanding := s.outstanding - 1 }.setPc p .committing with
      commit := some c } where
  written := (h.leave hpc rfl).1
  few := Nat.le_trans (Nat.sub_le _ _) h.few
  reserved _ hn := by cases hn
  committed hb _ := h.bound hc hbudget hb

/-- Nobody is in an operation, and the log stays or is emptied. -/
theorem quiet (h : Room budget s) (hq : ∀ p, (s'.pc p).inOp = false)
    (hout : s'.outstanding = s.outstanding)
    (hlh : s'.boot = none → s'.lh = [] ∨
      s'.lh = s.lh ∧ s.boot = none ∧ s.commit ≠ none ∧ s'.commit ≠ none) : Room budget s' where
  written := .quiet _ hq
  few := hout ▸ h.few
  reserved hb hc := by
    rcases hlh hb with hnil | ⟨-, -, -, hne⟩
    · rw [hnil]
      exact Nat.zero_le _
    · exact absurd hc hne
  committed hb _ := by
    rcases hlh hb with hnil | ⟨heq, hboot, hcommit, -⟩
    · rw [hnil]
      exact Nat.zero_le _
    · rw [heq]
      exact h.committed hboot hcommit

theorem step (h : Room budget s) (hc : Control s) (hbudget : budget ≤ maxOpBlocks)
    (hpolite : Polite sb budget s a) (hs : Step sb s a s') : Room budget s' := by
  have hcommitting : ∀ {p}, s.pc p = .committing → s.boot = none := fun hpc =>
    hc.boot_of_pc (by rw [hpc]; exact Pc.noConfusion)
  have hbooting : s.boot ≠ none → ∀ p, (s.pc p).inOp = false := fun hb p => by
    rw [(hc.booting hb).2 p]
    rfl
  cases hs with
  | enter hboot hpc hcommit hroom => exact h.enter hc hpc hboot hcommit hroom
  | sleep _ hpc _ =>
      refine h.move ?_ (not_pending (Or.inl rfl))
      rcases hpc with hpc | hpc <;> rw [hpc] <;> rfl
  | bread _ _ _ => exact h.congr rfl rfl rfl rfl rfl
  | brelse _ _ => exact h.congr rfl rfl rfl rfl rfl
  | @store p b wrote data hpc _ =>
      have hmove : Room budget (s.setPc p (.stored wrote b)) := by
        refine h.move (by rw [hpc]; rfl) fun w c heq => ?_
        rcases heq with heq | heq <;> cases heq
        exact hpolite wrote hpc
      exact hmove.congr rfl rfl rfl rfl rfl
  | tooBig _ _ => exact h.congr rfl rfl rfl rfl rfl
  | @check p wrote b hpc _ =>
      refine h.move (by rw [hpc]; rfl) fun w c heq => ?_
      rcases heq with heq | heq <;> cases heq
      exact h.written.pending p wrote b (Or.inl hpc)
  | append hpc => exact h.append hc hpc
  | @endPanic p wrote hpc hcommit =>
      exact absurd (hc.commit_of_inOp (p := p) (by rw [hpc]; rfl)) hcommit
  | endCommit hpc _ _ => exact h.endCommit hc hbudget hpc
  | endWake hpc _ hlast => exact h.endWake hc hbudget hpc hlast
  | copyOut hpc hcom _ _ _ =>
      have hne : s.commit ≠ none := by rw [hcom]; exact Option.some_ne_none _
      exact h.quiet (hc.quiet hne) rfl fun _ =>
        Or.inr ⟨rfl, hcommitting hpc, hne, Option.some_ne_none _⟩
  | commitHead hpc hcom _ =>
      have hne : s.commit ≠ none := by rw [hcom]; exact Option.some_ne_none _
      exact h.quiet (hc.quiet hne) rfl fun _ =>
        Or.inr ⟨rfl, hcommitting hpc, hne, Option.some_ne_none _⟩
  | copyHome hpc hcom _ _ _ =>
      have hne : s.commit ≠ none := by rw [hcom]; exact Option.some_ne_none _
      exact h.quiet (hc.quiet hne) rfl fun _ =>
        Or.inr ⟨rfl, hcommitting hpc, hne, Option.some_ne_none _⟩
  | clearHead hpc hcom _ =>
      have hne : s.commit ≠ none := by rw [hcom]; exact Option.some_ne_none _
      exact h.quiet (hc.quiet hne) rfl fun _ => Or.inl rfl
  | @finish p hpc hcom =>
      have hne : s.commit ≠ none := by rw [hcom]; exact Option.some_ne_none _
      refine h.quiet (fun q => ?_) rfl fun _ => Or.inl (hc.finished hcom)
      show ((s.setPc p .idle).wakeup.pc q).inOp = false
      rw [wakeup_inOp]
      show (update s.pc p .idle q).inOp = false
      by_cases hqp : q = p
      · subst hqp
        rw [update_self]
        rfl
      · rw [update_of_ne hqp]
        exact hc.quiet hne q
  | readHead hb =>
      have hne : s.boot ≠ none := by rw [hb]; exact Option.some_ne_none _
      exact h.quiet (hbooting hne) rfl fun hn => by cases hn
  | reinstall hb _ =>
      have hne : s.boot ≠ none := by rw [hb]; exact Option.some_ne_none _
      exact h.quiet (hbooting hne) rfl fun hn => by cases hn
  | booted hb _ =>
      have hne : s.boot ≠ none := by rw [hb]; exact Option.some_ne_none _
      exact h.quiet (hbooting hne) rfl fun _ => Or.inl rfl
  | evict _ _ => exact h.congr rfl rfl rfl rfl rfl
  | kill hpc => exact h.move (by rw [hpc]; rfl) (not_pending (Or.inl rfl))
  | crash => exact off s.disk

end Room

/-- The machine has not panicked as long as the log has room. -/
theorem step_panicked (hc : Control s) (hroom : s.lh.length < min logSize (sb.nlog - 1))
    (hs : Step sb s a s') (h : s.panicked = false) : s'.panicked = false := by
  cases hs with
  | @tooBig p wrote b hpc hrefused =>
      have hpos := hc.inOp_outstanding (p := p) (by rw [hpc]; rfl)
      have hlt := Nat.lt_min.mp hroom
      unfold State.refused at hrefused
      omega
  | @endPanic p wrote hpc hcommit =>
      exact absurd (hc.commit_of_inOp (p := p) (by rw [hpc]; rfl)) hcommit
  | crash => rfl
  | _ => exact h

end Budget

end Os377.Xv6.Log
