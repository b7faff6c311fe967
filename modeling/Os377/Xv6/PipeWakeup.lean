import Os377.Xv6.PipeFlow

/-!
# Wake-ups at an xv6 pipe

Who sleeps in `piperead` sleeps on an empty pipe with its write end open, and who sleeps in
`pipewrite` on a full one with its read end open. There is one exception: a `pipewrite`
that fills the pipe and then finds that it has been killed returns without waking up the
readers (`sleepers_attended`).
-/

namespace Os377.Xv6.Pipe

open Os377.Lib Function

variable {s s' : State} {a : Label} {p q : Proc} {e : End} {k : Call}

/-- The call that a process waits in, or is about to wait in. -/
def Pc.waiting : Pc → Option Call
  | .drowsy k | .asleep k => some k
  | _ => none

/-- A call on this end has to wait. -/
def State.stuck (s : State) : End → Prop
  | .read => s.empty ∧ s.isopen .write = true
  | .write => s.full ∧ s.isopen .read = true

/-- The lock is held by who is about to sleep, and by nobody else. -/
def Locked (s : State) : Prop := ∀ q, (s.pc q).isDrowsy = true ↔ s.lockedBy = some q

theorem isDrowsy_of_isOut {pc : Pc} (h : pc.isOut = true) : pc.isDrowsy = false := by
  cases pc with
  | out r => rfl
  | _ => cases h

namespace Locked

theorem free (h : Locked s) (hlock : s.lockedBy = none) (q : Proc) : (s.pc q).isDrowsy = false := by
  rw [Bool.eq_false_iff]
  intro hq
  rw [(h q).mp hq] at hlock
  cases hlock

/-- The process `p` neither takes nor releases the lock. -/
theorem keep {pc : Pc} {c : Option End} (h : Locked s) (hm : Moved s s' p pc c)
    (hsame : pc.isDrowsy = (s.pc p).isDrowsy) (hlock : s'.lockedBy = s.lockedBy) : Locked s' := by
  intro q
  rw [hlock, ← h q]
  by_cases hqp : q = p
  · rw [hqp, hm.self, hsame]
  · rw [hm.isDrowsy hqp]

theorem acquire {pc : Pc} {c : Option End} (h : Locked s) (hm : Moved s s' p pc c)
    (hfree : s.lockedBy = none) (hpc : pc.isDrowsy = true) (hlock : s'.lockedBy = some p) :
    Locked s' := by
  intro q
  rw [hlock]
  by_cases hqp : q = p
  · rw [hqp, hm.self]
    exact iff_of_true hpc rfl
  · rw [hm.isDrowsy hqp, h.free hfree q]
    exact iff_of_false Bool.false_ne_true fun heq => hqp (Option.some.inj heq).symm

theorem release {pc : Pc} {c : Option End} (h : Locked s) (hm : Moved s s' p pc c)
    (hold : (s.pc p).isDrowsy = true) (hpc : pc.isDrowsy = false) (hlock : s'.lockedBy = none) :
    Locked s' := by
  intro q
  rw [hlock]
  refine iff_of_false (fun hq => ?_) fun heq => by cases heq
  by_cases hqp : q = p
  · rw [hqp, hm.self, hpc] at hq
    cases hq
  · rw [hm.isDrowsy hqp, h q, (h p).mp hold] at hq
    exact hqp (Option.some.inj hq).symm

theorem step (h : Locked s) (hs : Step s a s') : Locked s' := by
  cases hs with
  | call hout _ _ => exact h.keep (.setPc rfl) (isDrowsy_of_isOut hout).symm rfl
  | writeAll _ hpc _ =>
      rw [puts_eq]
      exact h.keep (.wake rfl) (by rw [hpc]; rfl) rfl
  | writeFail _ hpc _ _ _ =>
      rw [puts_eq]
      exact h.keep (.setPc rfl) (by rw [hpc]; rfl) rfl
  | writeWait hlock _ _ _ _ =>
      rw [puts_eq]
      exact h.acquire (.wake rfl) hlock rfl rfl
  | readFail _ hpc _ _ _ => exact h.keep (.setPc rfl) (by rw [hpc]; rfl) rfl
  | readWait hlock _ _ _ => exact h.acquire (.setPc rfl) hlock rfl rfl
  | readSome _ hpc _ => exact h.keep (.wake rfl) (by rw [hpc]; rfl) rfl
  | @pipeclose p e _ hpc =>
      obtain ⟨freed, heq, -⟩ := Refs.pipeclose_eq s p e
      rw [heq]
      exact h.keep (.wake rfl) (by rw [hpc]; rfl) rfl
  | sleep hpc => exact h.release (.setPc rfl) (by rw [hpc]; rfl) rfl rfl
  | @kill p =>
      refine h.keep (.setPc rfl) ?_ rfl
      cases s.pc p <;> rfl
  | dup _ _ => exact h
  | fork _ _ _ => exact h
  | close hout _ =>
      unfold fileclose
      dsimp only
      split
      · exact h
      · exact h.keep (.setPc rfl) (isDrowsy_of_isOut hout).symm rfl

end Locked

/-- Whoever waits, or is about to, has to. -/
def Waiting (s : State) : Prop := ∀ q k, (s.pc q).waiting = some k → s.stuck k.on

/-- Who waits afterwards waited before, unless it was on the channel `c`. -/
theorem Moved.waiting {pc : Pc} {c : Option End} (h : Moved s s' p pc c) (hqp : q ≠ p)
    (hq : (s'.pc q).waiting = some k) :
    (s.pc q).waiting = some k ∧ ((s.pc q).isDrowsy = true ∨ some k.on ≠ c) := by
  rw [h.others q hqp] at hq
  cases c with
  | none => exact ⟨hq, Or.inr fun heq => by cases heq⟩
  | some c =>
      cases hpc : s.pc q with
      | asleep k' =>
          rw [hpc] at hq
          change (if k'.on = c then Pc.enter k' else .asleep k').waiting = some k at hq
          split at hq
          · cases hq
          · next hne =>
              obtain rfl := Option.some.inj hq
              exact ⟨rfl, Or.inr fun heq => hne (Option.some.inj heq)⟩
      | drowsy k' =>
          rw [hpc] at hq
          exact ⟨hq, Or.inl rfl⟩
      | _ =>
          rw [hpc] at hq
          cases hq

namespace Waiting

variable {pc : Pc} {c : Option End}

theorem calling_of_waiting {pc : Pc} (h : pc.waiting = some k) : pc.calling = some k := by
  cases pc with
  | drowsy k' => exact h
  | asleep k' => exact h
  | _ => cases h

/-- A step of a process that runs: those on the channel `c` are woken up, and for the
others nothing changes. -/
theorem move (h : Waiting s) (hm : Moved s s' p pc c)
    (hself : ∀ k, pc.waiting = some k → s'.stuck k.on)
    (hothers : ∀ q k, q ≠ p → (s.pc q).waiting = some k →
      (s.pc q).isDrowsy = true ∨ some k.on ≠ c → s.stuck k.on → s'.stuck k.on) : Waiting s' := by
  intro q k hq
  by_cases hqp : q = p
  · rw [hqp, hm.self] at hq
    exact hself k hq
  · obtain ⟨hwait, hchan⟩ := hm.waiting hqp hq
    exact hothers q k hqp hwait hchan (h q k hwait)

/-- A writer that stores bytes wakes up the readers; if another writer waits, then there
was no room to store any. -/
theorem stored {bytes : List UInt8} (h : Waiting s) (hl : Locked s) (hfree : s.lockedBy = none)
    (hroom : s.count + bytes.length ≤ pipeSize) (hm : Moved s s' p pc (some .read))
    (hr : s'.nread = s.nread) (hw : s'.nwrite = (s.puts bytes).nwrite)
    (hopen : s'.isopen = s.isopen) (hself : ∀ k, pc.waiting = some k → s'.stuck k.on) :
    Waiting s' := by
  refine h.move hm hself fun q k hqp hq hchan hstuck => ?_
  rw [hl.free hfree q] at hchan
  have hon : k.on ≠ .read := fun heq => hchan.resolve_left Bool.false_ne_true (congrArg some heq)
  have hwrite : k.on = .write := by
    cases hk : k.on with
    | read => exact absurd hk hon
    | write => rfl
  rw [hwrite] at hstuck ⊢
  obtain ⟨hfull, hro⟩ := hstuck
  have hnil : bytes = [] := by
    rw [full_iff.mp hfull] at hroom
    exact List.length_eq_zero_iff.mp (by omega)
  refine ⟨?_, by rw [hopen]; exact hro⟩
  unfold State.full at hfull ⊢
  rw [hr, hw, hnil]
  exact hfull

end Waiting

/-- A writer that has been killed stores all of its bytes or none. -/
def Polite (s : State) : Label → Prop
  | .run p => ∀ n rest, s.pc p = .enter (.write n rest) → s.killed p = true →
      s.count + rest.length ≤ pipeSize ∨ s.count = pipeSize
  | _ => True

theorem Waiting.step (h : Waiting s) (hl : Locked s) (hrefs : Refs s) (hpolite : Polite s a)
    (hs : Step s a s') : Waiting s' := by
  have hnone : ∀ {pc : Pc}, pc.isOut = true → pc.waiting = none := by
    intro pc hpc
    cases pc with
    | out r => rfl
    | _ => cases hpc
  cases hs with
  | call _ _ _ => exact h.move (.setPc rfl) (fun k hk => by cases hk) fun _ _ _ _ _ hstuck => hstuck
  | @writeAll p n rest hlock hpc hroom =>
      have hm : Moved s (((s.puts rest).wakeup .read).setPc p (.out n)) p (.out n) (some .read) :=
        .wake (by rw [puts_eq]; rfl)
      exact h.stored hl hlock hroom hm (by rw [puts_eq]; rfl) rfl (by rw [puts_eq]; rfl)
        fun k hk => by cases hk
  | @writeFail p n rest k hlock hpc hk hsum hfail =>
      have hm : Moved s ((s.puts (rest.take k)).setPc p (.out (-1))) p (.out (-1)) none :=
        .setPc (by rw [puts_eq]; rfl)
      refine h.move hm (fun k hk => by cases hk) fun q k' _ hq _ hstuck => ?_
      by_cases hzero : k = 0
      · rw [hzero]
        exact hstuck
      -- it has stored something and has not been killed, so nobody can read
      have hclosed : s.isopen .read = false := by
        refine hfail.resolve_right fun hkilled => ?_
        have := hpolite n rest hpc hkilled
        omega
      have hcalling := Waiting.calling_of_waiting hq
      cases hk' : k'.on with
      | read =>
          have hopen := hrefs.isopen hcalling
          rw [hk', hclosed] at hopen
          cases hopen
      | write =>
          rw [hk'] at hstuck
          have hopen := hstuck.2
          rw [hclosed] at hopen
          cases hopen
  | @writeWait p n rest k hlock hpc hk hsum hopen =>
      have hlen : (rest.take k).length = k := by
        rw [List.length_take, Nat.min_eq_left (Nat.le_of_lt hk)]
      have hroom : s.count + (rest.take k).length ≤ pipeSize := by
        rw [hlen]
        exact Nat.le_of_eq hsum
      refine h.stored hl hlock hroom (.wake (by rw [puts_eq]; rfl)) (by rw [puts_eq]; rfl) rfl
        (by rw [puts_eq]; rfl) fun k' hk' => ?_
      obtain rfl := Option.some.inj hk'
      have hfull : (s.puts (rest.take k)).full := by
        rw [full_iff, puts_count hroom, hlen, hsum]
      refine ⟨hfull, ?_⟩
      show (s.puts (rest.take k)).isopen .read = true
      rw [puts_eq]
      exact hopen
  | readFail _ _ _ _ _ =>
      exact h.move (.setPc rfl) (fun k hk => by cases hk) fun _ _ _ _ _ hstuck => hstuck
  | readWait _ _ hempty hopen =>
      refine h.move (.setPc rfl) (fun k hk => ?_) fun _ _ _ _ _ hstuck => hstuck
      obtain rfl := Option.some.inj hk
      exact ⟨hempty, hopen⟩
  | @readSome p n hlock hpc hsome =>
      refine h.move (c := some .write) (.wake rfl) (fun k hk => by cases hk)
        fun q k' _ hq hchan hstuck => ?_
      rw [hl.free hlock q] at hchan
      have hon := hchan.resolve_left Bool.false_ne_true
      cases hk' : k'.on with
      | write => exact absurd (congrArg some hk') hon
      | read =>
          -- nobody waits to read what is there, or at the end of the file
          rw [hk'] at hstuck
          rcases hsome with hne | hclosed
          · exact absurd hstuck.1 hne
          · rw [hstuck.2] at hclosed
            cases hclosed
  | @pipeclose p e hlock hpc =>
      obtain ⟨freed, heq, -⟩ := Refs.pipeclose_eq s p e
      rw [heq]
      refine h.move (c := some e.other) (.wake rfl) (fun k hk => by cases hk)
        fun q k' _ hq hchan hstuck => ?_
      rw [hl.free hlock q] at hchan
      have hon := hchan.resolve_left Bool.false_ne_true
      have hzero := (hrefs.closing p e (by rw [hpc]; rfl)).1
      have hpos := hrefs.ref_pos (hrefs.inside q k' (Waiting.calling_of_waiting hq))
      have hne : k'.on ≠ e := by
        rintro rfl
        omega
      cases hk' : k'.on <;> cases e <;> simp [hk', End.other] at hon hne
  | @sleep p k hpc =>
      refine h.move (.setPc rfl) (fun k' hk' => ?_) fun _ _ _ _ _ hstuck => hstuck
      obtain rfl := Option.some.inj hk'
      exact h p k (by rw [hpc]; rfl)
  | @kill p =>
      refine h.move (.setPc rfl) (fun k hk => ?_) fun _ _ _ _ _ hstuck => hstuck
      cases hpc : s.pc p with
      | drowsy k' =>
          rw [hpc] at hk
          exact h p k (by rw [hpc]; exact hk)
      | _ =>
          rw [hpc] at hk
          cases hk
  | dup _ _ => exact h
  | fork _ _ _ => exact h
  | close hout _ =>
      unfold fileclose
      dsimp only
      split
      · exact h
      · exact h.move (.setPc rfl) (fun k hk => by cases hk) fun _ _ _ _ _ hstuck => hstuck

/-- Whoever sleeps has to, and somebody else can still wake it up, unless the sleeper has
the other end open itself. -/
def Attended (s : State) : Prop := ∀ p k, s.pc p = .asleep k → s.stuck k.on ∧
  (s.fds k.on.other p = 0 →
    ∃ q, q ≠ p ∧ (0 < s.fds k.on.other q ∨ s.pc q = .closing k.on.other))

theorem waiting_invariant :
    system.InvariantUnder Polite fun s => Locked s ∧ Waiting s := by
  refine refs_invariant.stepUnder ?_ ?_
  · rintro s ⟨p, data, killed, rfl⟩
    refine ⟨fun q => iff_of_false Bool.false_ne_true fun heq => ?_, fun q k hq => ?_⟩
    · cases heq
    · cases hq
  · rintro s a s' ⟨hrefs, hbound⟩ ⟨hl, h⟩ hpolite hn
    have hs := next_step hbound hn
    exact ⟨hl.step hs, h.step hl hrefs hpolite hs⟩

theorem attended (h : Waiting s) (hrefs : Refs s) : Attended s := by
  intro p k hp
  have hstuck := h p k (by rw [hp]; rfl)
  refine ⟨hstuck, fun hnone => ?_⟩
  have hopen : s.isopen k.on.other = true := by
    cases hk : k.on with
    | read => rw [hk] at hstuck; exact hstuck.2
    | write => rw [hk] at hstuck; exact hstuck.2
  rcases hrefs.opened _ hopen with hpos | ⟨q, hq⟩
  · rw [hrefs.counted] at hpos
    obtain ⟨q, -, hq⟩ := Finset.exists_ne_zero_of_sum_ne_zero (Nat.ne_of_gt hpos)
    refine ⟨q, ?_, Or.inl (Nat.pos_of_ne_zero hq)⟩
    rintro rfl
    exact hq hnone
  · refine ⟨q, ?_, Or.inr ?_⟩
    · rintro rfl
      rw [hp] at hq
      cases hq
    cases hpc : s.pc q with
    | closing e =>
        rw [hpc] at hq
        exact congrArg Pc.closing (Option.some.inj hq)
    | _ =>
        rw [hpc] at hq
        cases hq

/-! ## The writer that has been killed -/

/-- It fills the pipe, and nobody else moves. -/
theorem killed_writer_fills {n : Nat} {rest : List UInt8} (hbound : s.count ≤ pipeSize)
    (hlock : s.lockedBy = none) (hpc : s.pc p = .enter (.write n rest))
    (hkilled : s.killed p = true) (hmany : pipeSize < s.count + rest.length) :
    ∃ s', system.next s (.run p) = some s' ∧ s'.count = pipeSize ∧
      ∀ q, q ≠ p → s'.pc q = s.pc q := by
  have hn : system.next s (.run p) = some (pipewrite s p n rest) := by
    show run s p = _
    unfold run
    rw [if_pos hlock, hpc]
  refine ⟨_, hn, ?_⟩
  rcases pipewrite_cases p n rest hbound with
    ⟨hroom, -⟩ | ⟨k, hk, hsum, heq⟩
  · exact absurd hroom (Nat.not_le.mpr hmany)
  · rw [heq, if_pos (Or.inr hkilled)]
    have hlen : (rest.take k).length = k := by
      rw [List.length_take, Nat.min_eq_left (Nat.le_of_lt hk)]
    constructor
    · show (s.puts (rest.take k)).count = pipeSize
      rw [puts_count (by rw [hlen]; exact Nat.le_of_eq hsum), hlen, hsum]
    · intro q hqp
      show update (s.puts (rest.take k)).pc p (.out (-1)) q = s.pc q
      rw [update_of_ne hqp, puts_eq]

theorem reach_call (hs : system.Reachable s) (hout : (s.pc p).isOut = true)
    (hfd : 0 < s.fds k.on p) (hbegins : k.begins) : system.Reachable (s.setPc p (.enter k)) := by
  have hn : system.next s (.call p k) = some (s.setPc p (.enter k)) := if_pos ⟨hout, hfd, hbegins⟩
  exact hs.step hn

/-- A `piperead` that goes to sleep. -/
theorem reach_asleep {n : Nat} (hs : system.Reachable s) (hlock : s.lockedBy = none)
    (hpc : s.pc p = .enter (.read n)) (hempty : s.empty) (hopen : s.isopen .write = true)
    (hkilled : s.killed p = false) : system.Reachable (s.setPc p (.asleep (.read n))) := by
  have hrun : system.next s (.run p) =
      some { s.setPc p (.drowsy (.read n)) with lockedBy := some p } := by
    show run s p = _
    unfold run
    rw [if_pos hlock, hpc]
    dsimp only
    unfold piperead
    rw [if_pos ⟨hempty, hopen⟩, hkilled]
    rfl
  have hsleep : system.next { s.setPc p (.drowsy (.read n)) with lockedBy := some p } (.sleep p) =
      some (s.setPc p (.asleep (.read n))) := by
    show sleep _ p = _
    have hself : (update s.pc p (.drowsy (.read n))) p = .drowsy (.read n) := update_self ..
    unfold sleep
    dsimp only [State.setPc]
    rw [hself]
    dsimp only
    rw [update_idem, ← hlock]
  exact (hs.step hrun).step hsleep

theorem reach_kill (hs : system.Reachable s) (hout : (s.pc p).isOut = true) :
    system.Reachable { s with killed := update s.killed p true } := by
  have hsame : (s.pc p).rouse = s.pc p := by
    cases hpc : s.pc p with
    | out r => rfl
    | _ => rw [hpc] at hout; cases hout
  have hn : system.next s (.kill p) = some { s with killed := update s.killed p true } := by
    show some _ = some _
    rw [hsame, State.setPc, update_eq_self]
  exact hs.step hn

/-- A reader that sleeps on a pipe with bytes in it. -/
theorem lost_wakeup : ¬ system.Invariant Attended := by
  intro hinv
  let p : Proc := ⟨0, by decide⟩
  let q : Proc := ⟨1, by decide⟩
  let bytes : List UInt8 := List.replicate (pipeSize + 1) 0
  have hlen : bytes.length = pipeSize + 1 := List.length_replicate
  have hqp : q ≠ p := by decide
  -- the processes `p` and `q` have both ends
  obtain ⟨s1, h1, hout, hlock, hfds, hempty, hopen, hkilled⟩ : ∃ s, system.Reachable s ∧
      (∀ r, s.pc r = .out 0) ∧ s.lockedBy = none ∧ (∀ e, 0 < s.fds e p ∧ 0 < s.fds e q) ∧
      s.empty ∧ s.isopen .write = true ∧ s.killed q = false := by
    have h0 : system.Reachable (State.new p (fun _ => 0) fun _ => false) := .init ⟨p, _, _, rfl⟩
    have hn : system.next (State.new p (fun _ => 0) fun _ => false) (.fork p q) = some _ := rfl
    exact ⟨_, h0.step hn, fun _ => rfl, rfl, fun _ => ⟨Nat.one_pos, Nat.one_pos⟩, rfl, rfl, rfl⟩
  have h2 := reach_call (p := q) (k := .read 1) h1 (by rw [hout]; rfl) (hfds _).2 trivial
  have h3 := reach_asleep h2 hlock (s1.setPc_self q _) hempty hopen hkilled
  rw [State.setPc_setPc] at h3
  have hp3 : (s1.setPc q (.asleep (.read 1))).pc p = .out 0 := by
    rw [State.setPc_of_ne s1 hqp.symm, hout]
  have h4 := reach_kill (p := p) h3 (by rw [hp3]; rfl)
  have h5 := reach_call (p := p) (k := .write (pipeSize + 1) bytes) h4
    (congrArg Pc.isOut hp3) (hfds _).1 hlen
  have hdead : update s1.killed p true p = true := update_self ..
  obtain ⟨s', hn, hcount, hsame⟩ := killed_writer_fills (refs_invariant _ h5).2 hlock
    (State.setPc_self _ p _) hdead
    (by rw [hlen]; exact Nat.lt_of_lt_of_le (Nat.lt_succ_self _) (Nat.le_add_left _ _))
  have hsleep : s'.pc q = .asleep (.read 1) := by
    rw [hsame q hqp, State.setPc_of_ne _ hqp]
    exact s1.setPc_self q _
  obtain ⟨⟨hempty', -⟩, -⟩ := hinv s' (h5.step hn) q _ hsleep
  rw [← bytes_length, empty_iff.mp hempty'] at hcount
  cases hcount

/-- **Nobody sleeps at a pipe for nothing**, in every run in which no writer that has been
killed stores a part of its bytes; with such a writer, a reader can sleep on while the pipe
is full. -/
theorem sleepers_attended :
    system.InvariantUnder Polite Attended ∧ ¬ system.Invariant Attended := by
  refine ⟨fun s hs => ?_, lost_wakeup⟩
  exact attended (waiting_invariant s hs).2 (refs_invariant s hs.reachable).1

end Os377.Xv6.Pipe
