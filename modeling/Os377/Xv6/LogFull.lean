import Os377.Xv6.LogSpace

/-!
# When `log_write` panics

`log_write` panics with "too big a transaction" when the log is full. Operations that log
at most `budget` blocks leave `maxOpBlocks + 2 * budget` entries at the most, and runs
that get there are built below, so `log_room_iff` says exactly when the panic is out of
reach. With the `MAXOPBLOCKS` blocks that `param.h` allows an operation it is not, for any
size of the log; with one block less it is, in the log that `mkfs` lays out.
-/

namespace Os377.Xv6.Log

open Os377.Lib Function

variable {sb : Super} {base : Nat → Block} {budget : Nat}

/-- A run has got to `s`: the processes stand at `pc`, the log has the entries `lh`, `out`
operations are in progress, the buffers are held as in `locks`, and no commit and no
recovery is going on. -/
structure At (sb : Super) (base : Nat → Block) (budget : Nat) (s : State) (pc : Proc → Pc)
    (lh : List Nat) (out : Nat) (locks : Nat → Option Proc) : Prop where
  reachable : (system sb base).ReachableUnder (Polite sb budget) s
  pc_eq : s.pc = pc
  lh_eq : s.lh = lh
  out_eq : s.outstanding = out
  commit_eq : s.commit = none
  boot_eq : s.boot = none
  unfrozen : s.panicked = false
  locks_eq : s.lockedBy = locks

variable {s s' : State} {pc : Proc → Pc} {lh : List Nat} {out : Nat} {p : Proc} {b : Nat}
  {locks : Nat → Option Proc} {wrote : List Nat}

namespace At

theorem next_eq (h : At sb base budget s pc lh out locks) (a : Label) :
    next sb s a = running sb s a := by
  rw [next, h.unfrozen]
  rfl

theorem step (h : At sb base budget s pc lh out locks) (a : Label)
    (hpolite : Polite sb budget s a) (hn : running sb s a = some s') :
    (system sb base).ReachableUnder (Polite sb budget) s' :=
  h.reachable.step hpolite ((h.next_eq a).trans hn)

theorem bread (h : At sb base budget s pc lh out locks) (hp : pc p = .op wrote)
    (hb : Home sb b) (hfree : locks b = none) :
    ∃ s', At sb base budget s' pc lh out (update locks b (some p)) := by
  have hn : running sb s (.bread p b) =
      some { s.load b with lockedBy := update s.lockedBy b (some p) } := by
    show Log.bread s p b = _
    unfold Log.bread
    rw [h.pc_eq, hp]
    refine if_pos ⟨h.boot_eq, ?_⟩
    show s.lockedBy b = none
    rw [h.locks_eq, hfree]
  exact ⟨_, h.step (.bread p b) hb hn, h.pc_eq, h.lh_eq, h.out_eq, h.commit_eq, h.boot_eq,
    h.unfrozen, congrArg (update · b (some p)) h.locks_eq⟩

theorem store (h : At sb base budget s pc lh out locks) (hp : pc p = .op wrote)
    (hheld : locks b = some p) (hbudget : b ∈ wrote ∨ wrote.length < budget) :
    ∃ s', At sb base budget s' (update pc p (.stored wrote b)) lh out locks := by
  have hn : running sb s (.store p b (base b)) = some
      { s.setPc p (.stored wrote b) with
        cache := update s.cache b (some { s.buf b with data := base b }) } := by
    show Log.store s p b (base b) = _
    unfold Log.store
    rw [h.pc_eq, hp]
    refine if_pos ?_
    rw [h.locks_eq, hheld]
  refine ⟨_, h.step (.store p b (base b)) (fun w hw => ?_) hn, congrArg (update · p _) h.pc_eq,
    h.lh_eq, h.out_eq, h.commit_eq, h.boot_eq, h.unfrozen, h.locks_eq⟩
  rw [h.pc_eq, hp] at hw
  obtain rfl := Pc.op.inj hw
  exact hbudget

theorem check (h : At sb base budget s pc lh out locks) (hp : pc p = .stored wrote b)
    (hout : 0 < out) (hroom : lh.length < min logSize (sb.nlog - 1)) :
    ∃ s', At sb base budget s' (update pc p (.checked wrote b)) lh out locks := by
  have hn : running sb s (.logWrite p) = some (s.setPc p (.checked wrote b)) := by
    show logWrite sb s p = _
    unfold logWrite
    rw [h.pc_eq, hp]
    refine if_neg ?_
    have hlt := Nat.lt_min.mp hroom
    rw [State.refused, h.lh_eq, h.out_eq]
    omega
  exact ⟨_, h.step (.logWrite p) trivial hn, congrArg (update · p _) h.pc_eq, h.lh_eq, h.out_eq,
    h.commit_eq, h.boot_eq, h.unfrozen, h.locks_eq⟩

theorem refuse (h : At sb base budget s pc lh out locks) (hp : pc p = .stored wrote b)
    (hfull : min logSize (sb.nlog - 1) ≤ lh.length) :
    ∃ s', (system sb base).ReachableUnder (Polite sb budget) s' ∧ s'.panicked = true := by
  have hn : running sb s (.logWrite p) = some { s with panicked := true } := by
    show logWrite sb s p = _
    unfold logWrite
    rw [h.pc_eq, hp]
    refine if_pos ?_
    rw [State.refused, h.lh_eq, h.out_eq]
    omega
  exact ⟨_, h.step (.logWrite p) trivial hn, rfl⟩

theorem append (h : At sb base budget s pc lh out locks) (hp : pc p = .checked wrote b) :
    ∃ s', At sb base budget s' (update pc p (.op (wrote.insert b)))
      (if b ∈ lh then lh else lh ++ [b]) out locks := by
  have hn : running sb s (.logWrite p) = some
      { s.setPc p (.op (wrote.insert b)) with
        lh := if b ∈ s.lh then s.lh else s.lh ++ [b]
        cache := update s.cache b (some { s.buf b with dirty := true }) } := by
    show logWrite sb s p = _
    unfold logWrite
    rw [h.pc_eq, hp]
  refine ⟨_, h.step (.logWrite p) trivial hn, congrArg (update · p _) h.pc_eq, ?_, h.out_eq,
    h.commit_eq, h.boot_eq, h.unfrozen, h.locks_eq⟩
  rw [← h.lh_eq]

theorem brelse (h : At sb base budget s pc lh out locks) (hp : pc p = .op wrote)
    (hheld : locks b = some p) : ∃ s', At sb base budget s' pc lh out (update locks b none) := by
  have hn : running sb s (.brelse p b) =
      some { s with lockedBy := update s.lockedBy b none } := by
    show Log.brelse s p b = _
    unfold Log.brelse
    rw [h.pc_eq, hp]
    refine if_pos ?_
    rw [h.locks_eq, hheld]
  exact ⟨_, h.step (.brelse p b) trivial hn, h.pc_eq, h.lh_eq, h.out_eq, h.commit_eq, h.boot_eq,
    h.unfrozen, congrArg (update · b none) h.locks_eq⟩

end At

/-- A run can get there with all buffers free, and with nobody asleep. -/
def Reaches (sb : Super) (base : Nat → Block) (budget : Nat) (pc : Proc → Pc) (lh : List Nat)
    (out : Nat) : Prop :=
  (∃ s, At sb base budget s pc lh out fun _ => none) ∧ ∀ q, pc q ≠ .asleep

theorem awake_update {new : Pc} (h : ∀ q, pc q ≠ .asleep) (hnew : new ≠ .asleep) (q : Proc) :
    update pc p new q ≠ .asleep := by
  by_cases hqp : q = p
  · rwa [hqp, update_self]
  · rw [update_of_ne hqp]
    exact h q

theorem reaches_boot (hbase : readHeader (base sb.logstart) = []) :
    Reaches sb base budget (fun _ => .idle) [] 0 := by
  have hoff : (system sb base).ReachableUnder (Polite sb budget) (State.off base) := .init rfl
  have hread : next sb (State.off base) .recover = some
      { (State.off base).load sb.logstart with lh := [], boot := some (.install 0) } := by
    show some _ = some _
    rw [show ((State.off base).buf sb.logstart).data = base sb.logstart from rfl, hbase]
  have h1 := hoff.step (show Polite sb budget _ .recover from trivial) hread
  have hclear : next sb
      { (State.off base).load sb.logstart with lh := [], boot := some (.install 0) } .recover
      = some _ := rfl
  have h2 := h1.step (show Polite sb budget _ .recover from trivial) hclear
  exact ⟨⟨_, h2, rfl, rfl, rfl, rfl, rfl, rfl, rfl⟩, fun _ => Pc.noConfusion⟩

namespace Reaches

theorem enter (h : Reaches sb base budget pc lh out) (hp : pc p = .idle)
    (hroom : lh.length + (out + 1) * maxOpBlocks ≤ logSize) :
    Reaches sb base budget (update pc p (.op [])) lh (out + 1) := by
  obtain ⟨⟨s, h⟩, hawake⟩ := h
  have hn : running sb s (.beginOp p) =
      some { s.setPc p (.op []) with outstanding := s.outstanding + 1 } := by
    show beginOp s p = _
    unfold beginOp
    rw [if_pos ⟨h.boot_eq, Or.inl (h.pc_eq ▸ hp)⟩]
    refine if_neg ?_
    rw [State.scarce, h.commit_eq, h.lh_eq, h.out_eq]
    simpa using hroom
  exact ⟨⟨_, h.step (.beginOp p) trivial hn, congrArg (update · p _) h.pc_eq, h.lh_eq,
    congrArg (· + 1) h.out_eq, h.commit_eq, h.boot_eq, h.unfrozen, h.locks_eq⟩,
    awake_update hawake Pc.noConfusion⟩

theorem leave (h : Reaches sb base budget pc lh out) (hp : pc p = .op wrote) (hout : 1 < out) :
    Reaches sb base budget (update pc p .idle) lh (out - 1) := by
  obtain ⟨⟨s, h⟩, hawake⟩ := h
  have hn : running sb s (.endOp p) =
      some ({ s with outstanding := s.outstanding - 1 }.setPc p .idle).wakeup := by
    show endOp s p = _
    unfold endOp
    rw [h.pc_eq, hp]
    dsimp only
    rw [if_neg (by simp [h.commit_eq]), if_neg (by rw [h.out_eq]; omega)]
  have hidle : ∀ q, update pc p .idle q ≠ .asleep := awake_update hawake Pc.noConfusion
  have hpc : ({ s with outstanding := s.outstanding - 1 }.setPc p .idle).wakeup.pc
      = update pc p .idle := by
    rw [← h.pc_eq] at hidle ⊢
    funext q
    exact if_neg (hidle q)
  exact ⟨⟨_, h.step (.endOp p) trivial hn, hpc, h.lh_eq, congrArg (· - 1) h.out_eq,
    h.commit_eq, h.boot_eq, h.unfrozen, h.locks_eq⟩, hidle⟩

/-- Taking the buffer of a block and storing into it. -/
theorem stored (h : Reaches sb base budget pc lh out) (hp : pc p = .op wrote) (hb : Home sb b)
    (hbudget : b ∈ wrote ∨ wrote.length < budget) :
    ∃ s, At sb base budget s (update pc p (.stored wrote b)) lh out
      (update (fun _ => none) b (some p)) := by
  obtain ⟨⟨s, h⟩, -⟩ := h
  obtain ⟨s1, h1⟩ := h.bread hp hb rfl
  exact h1.store hp (update_self ..) hbudget

theorem log (h : Reaches sb base budget pc lh out) (hp : pc p = .op wrote) (hb : Home sb b)
    (hbudget : b ∈ wrote ∨ wrote.length < budget) (hout : 0 < out)
    (hroom : lh.length < min logSize (sb.nlog - 1)) :
    Reaches sb base budget (update pc p (.op (wrote.insert b)))
      (if b ∈ lh then lh else lh ++ [b]) out := by
  obtain ⟨s1, h1⟩ := h.stored hp hb hbudget
  obtain ⟨s2, h2⟩ := h1.check (update_self ..) hout hroom
  obtain ⟨s3, h3⟩ := h2.append (update_self ..)
  obtain ⟨s4, h4⟩ := h3.brelse (update_self ..) (update_self ..)
  rw [update_idem, update_idem, update_idem, update_eq_self] at h4
  exact ⟨⟨s4, h4⟩, awake_update h.2 Pc.noConfusion⟩

/-- A `log_write` in a full log panics. -/
theorem panics (h : Reaches sb base budget pc lh out) (hp : pc p = .op wrote) (hb : Home sb b)
    (hbudget : b ∈ wrote ∨ wrote.length < budget)
    (hfull : min logSize (sb.nlog - 1) ≤ lh.length) :
    ∃ s, (system sb base).ReachableUnder (Polite sb budget) s ∧ s.panicked = true := by
  obtain ⟨s1, h1⟩ := h.stored hp hb hbudget
  exact h1.refuse (update_self ..) hfull

end Reaches

/-! ## Filling the log -/

/-- The first `n` blocks behind the log. -/
def behindLog (sb : Super) (n : Nat) : List Nat :=
  (List.range n).map fun i => sb.logstart + sb.nlog + i

theorem behindLog_length (n : Nat) : (behindLog sb n).length = n := by
  rw [behindLog, List.length_map, List.length_range]

theorem mem_behindLog {n : Nat} :
    b ∈ behindLog sb n ↔ sb.logstart + sb.nlog ≤ b ∧ b < sb.logstart + sb.nlog + n := by
  rw [behindLog, List.mem_map]
  constructor
  · rintro ⟨i, hi, rfl⟩
    have := List.mem_range.mp hi
    omega
  · rintro ⟨h1, h2⟩
    exact ⟨b - (sb.logstart + sb.nlog), List.mem_range.mpr (by omega), by omega⟩

theorem behindLog_succ (n : Nat) :
    behindLog sb (n + 1) = behindLog sb n ++ [sb.logstart + sb.nlog + n] := by
  rw [behindLog, List.range_succ, List.map_append, List.map_singleton, behindLog]

section Fill

variable (hdisk : sb.logstart + sb.nlog + logSize < fsSize)
include hdisk

theorem home_behindLog {n : Nat} (hn : n ≤ logSize + 1) (hb : b ∈ behindLog sb n) :
    Home sb b := by
  rw [mem_behindLog] at hb
  unfold Home
  omega

/-- The operation of `p` logs one more block. -/
theorem Reaches.logNext {n : Nat} (h : Reaches sb base budget pc (behindLog sb n) out)
    (hp : pc p = .op wrote) (hsub : ∀ c ∈ wrote, c ∈ behindLog sb n)
    (hbudget : wrote.length < budget) (hout : 0 < out) (hn : n < min logSize (sb.nlog - 1)) :
    ∃ wrote', wrote'.length = wrote.length + 1 ∧ (∀ c ∈ wrote', c ∈ behindLog sb (n + 1)) ∧
      Reaches sb base budget (update pc p (.op wrote')) (behindLog sb (n + 1)) out := by
  have hnew : sb.logstart + sb.nlog + n ∈ behindLog sb (n + 1) :=
    mem_behindLog.mpr ⟨by omega, by omega⟩
  have hnot : sb.logstart + sb.nlog + n ∉ behindLog sb n := by
    rw [mem_behindLog]
    omega
  have hlt := Nat.lt_min.mp hn
  have hlog := h.log hp (home_behindLog hdisk (by omega) hnew) (Or.inr hbudget) hout
    (by rwa [behindLog_length])
  rw [if_neg hnot, ← behindLog_succ] at hlog
  refine ⟨_, List.length_insert_of_not_mem fun hc => hnot (hsub _ hc), fun c hc => ?_, hlog⟩
  rcases List.mem_insert_iff.mp hc with rfl | hc
  · exact hnew
  · rw [behindLog_succ]
    exact List.mem_append_left _ (hsub c hc)

/-- It logs `k` more. -/
theorem Reaches.logMany {n k : Nat} (h : Reaches sb base budget pc (behindLog sb n) out)
    (hp : pc p = .op wrote) (hsub : ∀ c ∈ wrote, c ∈ behindLog sb n)
    (hbudget : wrote.length + k ≤ budget) (hout : 0 < out)
    (hn : n + k ≤ min logSize (sb.nlog - 1)) :
    ∃ wrote', wrote'.length = wrote.length + k ∧ (∀ c ∈ wrote', c ∈ behindLog sb (n + k)) ∧
      Reaches sb base budget (update pc p (.op wrote')) (behindLog sb (n + k)) out := by
  induction k with
  | zero =>
      refine ⟨wrote, rfl, hsub, ?_⟩
      rwa [← hp, update_eq_self]
  | succ k ih =>
      obtain ⟨w, hlen, hw, hreach⟩ := ih (by omega) (by omega)
      obtain ⟨w', hlen', hw', hreach'⟩ :=
        hreach.logNext hdisk (update_self ..) hw (by omega) hout (by omega)
      rw [update_idem] at hreach'
      exact ⟨w', by omega, hw', hreach'⟩

/-- While `p` stays in its operation, others log a block each. -/
theorem reaches_others {n : Nat} {q : Proc} (hbase : readHeader (base sb.logstart) = [])
    (hpq : p ≠ q) (hbudget : 1 ≤ budget) (hn : n ≤ min logSize (sb.nlog - 1))
    (hmax : n ≤ maxOpBlocks) :
    Reaches sb base budget (update (fun _ => .idle) p (.op [])) (behindLog sb n) 1 := by
  induction n with
  | zero =>
      exact (reaches_boot hbase).enter rfl (by unfold logSize maxOpBlocks; simp)
  | succ n ih =>
      have hreach := ih (by omega) (by omega)
      have henter := hreach.enter (p := q) (update_of_ne hpq.symm ..)
        (by rw [behindLog_length]; unfold logSize maxOpBlocks at *; omega)
      obtain ⟨w, -, -, hlog⟩ := henter.logNext hdisk (update_self ..)
        (fun c hc => absurd hc List.not_mem_nil) hbudget (by omega) (by omega)
      have hleave := hlog.leave (p := q) (update_self ..) (by omega)
      rw [update_idem, update_idem, update_eq_iff.mpr ⟨?_, fun _ _ => rfl⟩] at hleave
      · exact hleave
      · rw [update_of_ne hpq.symm]

/-- A full log, and a process in an operation that may call `log_write`. -/
theorem reaches_panic (hbase : readHeader (base sb.logstart) = []) (hbudget : 1 ≤ budget)
    (hfull : min logSize (sb.nlog - 1) ≤ maxOpBlocks + 2 * budget) :
    ∃ s, (system sb base).ReachableUnder (Polite sb budget) s ∧ s.panicked = true := by
  generalize hm : min logSize (sb.nlog - 1) = m at *
  have hle : m ≤ logSize := hm ▸ Nat.min_le_left _ _
  -- operations that have ended, then the last one of these, then the one that stays
  obtain ⟨x, y, z, hx, hy, hz, hsum⟩ : ∃ x y z, x ≤ maxOpBlocks ∧ y ≤ budget ∧ z ≤ budget ∧
      x + y + z = m :=
    ⟨min m maxOpBlocks, min (m - maxOpBlocks) budget, m - maxOpBlocks - budget, by omega,
      by omega, by omega, by omega⟩
  have hne : (⟨0, by decide⟩ : Proc) ≠ ⟨1, by decide⟩ := by decide
  have h0 : Reaches sb base budget _ (behindLog sb x) 1 :=
    reaches_others hdisk hbase hne hbudget (by omega) hx
  have h1 := h0.enter (p := ⟨1, by decide⟩) (update_of_ne hne.symm ..)
    (by rw [behindLog_length]; unfold logSize maxOpBlocks at *; omega)
  obtain ⟨w1, -, -, h2⟩ := h1.logMany hdisk (k := y) (update_self ..)
    (fun c hc => absurd hc List.not_mem_nil) (by simpa using hy) (by omega) (by omega)
  have hp0 : update (update (update (fun _ => Pc.idle) ⟨0, by decide⟩ (.op [])) ⟨1, by decide⟩
      (.op [])) ⟨1, by decide⟩ (.op w1) (⟨0, by decide⟩ : Proc) = .op [] := by
    rw [update_of_ne hne, update_of_ne hne, update_self]
  obtain ⟨w0, hlen, hw0, h3⟩ := h2.logMany hdisk (k := z) hp0
    (fun c hc => absurd hc List.not_mem_nil) (by simpa using hz) (by omega) (by omega)
  rw [hsum] at hw0 h3
  rw [List.length_nil, Nat.zero_add] at hlen
  have hend : m ≤ (behindLog sb m).length := by rw [behindLog_length]
  by_cases hlt : w0.length < budget
  · have hnew : sb.logstart + sb.nlog + m ∈ behindLog sb (m + 1) :=
      mem_behindLog.mpr ⟨by omega, by omega⟩
    exact h3.panics (update_self ..) (home_behindLog hdisk (by omega) hnew) (Or.inr hlt)
      (by rw [hm]; exact hend)
  · -- every block it may log is there: it logs one of them again
    obtain ⟨c, hc⟩ := List.exists_mem_of_length_pos (l := w0) (by omega)
    exact h3.panics (update_self ..) (home_behindLog hdisk (by omega) (hw0 c hc)) (Or.inl hc)
      (by rw [hm]; exact hend)

end Fill

/-- **When `log_write` does not panic.** Over all runs whose operations log at most `budget`
blocks, from a disk with an empty log and with as many blocks behind it as the log can
name. -/
theorem log_room_iff (hbase : readHeader (base sb.logstart) = [])
    (hdisk : sb.logstart + sb.nlog + logSize < fsSize) (hbudget : 1 ≤ budget)
    (hmax : budget ≤ maxOpBlocks) :
    (system sb base).InvariantUnder (Polite sb budget) (fun s => s.panicked = false) ↔
      maxOpBlocks + 2 * budget < min logSize (sb.nlog - 1) := by
  constructor
  · intro h
    by_contra hfull
    obtain ⟨s, hs, hpanic⟩ := reaches_panic hdisk hbase hbudget (Nat.not_lt.mp hfull)
    rw [h s hs] at hpanic
    cases hpanic
  · intro hroom
    have hstart : ∀ s, (system sb base).init s → s.panicked = false := by
      rintro s rfl
      rfl
    have hboth : (system sb base).InvariantUnder (Polite sb budget)
        (fun s => Room budget s ∧ s.panicked = false) := by
      refine (control_invariant base).stepUnder ?_ ?_
      · rintro s rfl
        exact ⟨.off base, rfl⟩
      · rintro s a s' hc ⟨h, hpanic⟩ hpolite hn
        have hstep := next_step hn
        refine ⟨h.step hc hmax hpolite hstep, ?_⟩
        by_cases hboot : s.boot = none
        · exact step_panicked hc (Nat.lt_of_le_of_lt (h.bound hc hmax hboot) hroom) hstep hpanic
        · -- nobody calls `log_write` during the recovery
          have hidle := (hc.booting hboot).2
          cases hstep with
          | tooBig hpc _ => rw [hidle] at hpc; cases hpc
          | endPanic hpc _ => rw [hidle] at hpc; cases hpc
          | crash => rfl
          | _ => exact hpanic
    exact fun s hs => (hboth s hs).2

/-- The log of 30 blocks that `mkfs` makes, with nine blocks to an operation. -/
theorem log_room_mkfs :
    (system { logstart := 2, nlog := 30 } (fun _ _ => 0)).InvariantUnder
      (Polite { logstart := 2, nlog := 30 } 9) (fun s => s.panicked = false) :=
  (log_room_iff readHeader_zero (by decide) (by decide) (by decide)).mpr (by decide)

end Os377.Xv6.Log
