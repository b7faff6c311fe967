import Mathlib.Algebra.Order.BigOperators.Group.Finset
import Os377.Xv6.Pipe

/-!
# What goes through an xv6 pipe

* `pipe_freed` — the page of the pipe is given back when, and only when, nobody can use it
  any more;
* `pipe_fifo` — the bytes come out in the order in which they were stored, each writer's
  in the order it wrote them, and an end of file is the end;
* `sleepers_attended` — who sleeps has to, and somebody is there to wake it up, unless a
  writer that has been killed fills the pipe.
-/

namespace Os377.Xv6.Pipe

open Os377.Lib Function

variable {s s' : State} {a : Label} {p q : Proc} {e c : End}

/-! ## Who moves -/

/-- The call that a process is in. -/
def Pc.calling : Pc → Option Call
  | .enter call | .drowsy call | .asleep call => some call
  | _ => none

/-- The end that a process has to close. -/
def Pc.closes : Pc → Option End
  | .closing e => some e
  | _ => none

/-- What is left to be written in the call of a process. -/
def Pc.rest (pc : Pc) : List UInt8 :=
  match pc.calling with
  | some (.write _ rest) => rest
  | _ => []

@[simp] theorem wake_calling (pc : Pc) : (pc.wake c).calling = pc.calling := by
  cases pc with
  | asleep k =>
      show (if k.on = c then Pc.enter k else .asleep k).calling = _
      split <;> rfl
  | _ => rfl

@[simp] theorem wake_closes (pc : Pc) : (pc.wake c).closes = pc.closes := by
  cases pc with
  | asleep k =>
      show (if k.on = c then Pc.enter k else .asleep k).closes = _
      split <;> rfl
  | _ => rfl

@[simp] theorem wake_isDrowsy (pc : Pc) : (pc.wake c).isDrowsy = pc.isDrowsy := by
  cases pc with
  | asleep k =>
      show (if k.on = c then Pc.enter k else .asleep k).isDrowsy = _
      split <;> rfl
  | _ => rfl

theorem calling_of_isOut {pc : Pc} (h : pc.isOut = true) :
    pc.calling = none ∧ pc.closes = none := by
  cases pc with
  | out ret => exact ⟨rfl, rfl⟩
  | _ => cases h

/-- `p` moves to `pc`, and who slept on the channel `c` is woken up. -/
structure Moved (s s' : State) (p : Proc) (pc : Pc) (c : Option End) : Prop where
  self : s'.pc p = pc
  others : ∀ q, q ≠ p → s'.pc q = match c with
    | some c => (s.pc q).wake c
    | none => s.pc q

namespace Moved

variable {pc : Pc} {c : Option End}

theorem setPc (h : s'.pc = update s.pc p pc) : Moved s s' p pc none where
  self := by rw [h, update_self]
  others q hqp := by rw [h, update_of_ne hqp]

theorem wake {c : End} (h : s'.pc = update (fun q => (s.pc q).wake c) p pc) :
    Moved s s' p pc (some c) where
  self := by rw [h, update_self]
  others q hqp := by rw [h, update_of_ne hqp]

theorem calling (h : Moved s s' p pc c) (hqp : q ≠ p) : (s'.pc q).calling = (s.pc q).calling := by
  rw [h.others q hqp]
  cases c with
  | none => rfl
  | some c => exact wake_calling _

theorem closes (h : Moved s s' p pc c) (hqp : q ≠ p) : (s'.pc q).closes = (s.pc q).closes := by
  rw [h.others q hqp]
  cases c with
  | none => rfl
  | some c => exact wake_closes _

theorem isDrowsy (h : Moved s s' p pc c) (hqp : q ≠ p) :
    (s'.pc q).isDrowsy = (s.pc q).isDrowsy := by
  rw [h.others q hqp]
  cases c with
  | none => rfl
  | some c => exact wake_isDrowsy _

end Moved

/-! ## The references -/

/-- The references on the two ends, and the flags of the pipe. -/
structure Refs (s : State) : Prop where
  counted : ∀ e, s.ref e = ∑ p, s.fds e p
  inside : ∀ p call, (s.pc p).calling = some call → 0 < s.fds call.on p
  closing : ∀ p e, (s.pc p).closes = some e → s.ref e = 0 ∧ s.isopen e = true
  once : ∀ p q e, (s.pc p).closes = some e → (s.pc q).closes = some e → p = q
  opened : ∀ e, s.isopen e = true → 0 < s.ref e ∨ ∃ p, (s.pc p).closes = some e
  referenced : ∀ e, 0 < s.ref e → s.isopen e = true
  freed : s.freed = true ↔ ∀ e, s.isopen e = false

namespace Refs

theorem ref_pos (h : Refs s) (hp : 0 < s.fds e p) : 0 < s.ref e := by
  rw [h.counted]
  exact Nat.lt_of_lt_of_le hp
    (Finset.single_le_sum (f := s.fds e) (fun _ _ => Nat.zero_le _) (Finset.mem_univ p))

/-- Who is in a call has its end open. -/
theorem isopen {call : Call} (h : Refs s) (hp : (s.pc p).calling = some call) :
    s.isopen call.on = true :=
  h.referenced _ (h.ref_pos (h.inside p call hp))

theorem fds_zero (h : Refs s) (he : s.ref e = 0) (p : Proc) : s.fds e p = 0 := by
  by_contra hne
  exact absurd (h.ref_pos (Nat.pos_of_ne_zero hne)) (by omega)

theorem new (p : Proc) (data : Nat → UInt8) (killed : Proc → Bool) :
    Refs (State.new p data killed) where
  counted e := by
    have hsum := sum_update (fun _ : Proc => 0) (fun n : Nat => n) p 1
    show 1 = ∑ q, update (fun _ => 0) p 1 q
    simpa using hsum.symm
  inside q call hq := by cases hq
  closing q e hq := by cases hq
  once q r e hq _ := by cases hq
  opened _ _ := Or.inl Nat.one_pos
  referenced _ _ := rfl
  freed := ⟨fun h => Bool.noConfusion h, fun h => Bool.noConfusion (h .read)⟩

/-- The process `p` moves within its call, or into or out of one. -/
theorem move {pc : Pc} {c : Option End} (h : Refs s) (hm : Moved s s' p pc c)
    (hsame : pc.closes = (s.pc p).closes)
    (hcall : ∀ call, pc.calling = some call → 0 < s.fds call.on p)
    (hfds : s'.fds = s.fds) (href : s'.ref = s.ref) (hopen : s'.isopen = s.isopen)
    (hfreed : s'.freed = s.freed) : Refs s' := by
  have hcloses : ∀ q, (s'.pc q).closes = (s.pc q).closes := by
    intro q
    by_cases hqp : q = p
    · rw [hqp, hm.self, hsame]
    · exact hm.closes hqp
  refine ⟨?_, ?_, ?_, ?_, ?_, ?_, ?_⟩
  · rw [hfds, href]
    exact h.counted
  · intro q call hq
    rw [hfds]
    by_cases hqp : q = p
    · rw [hqp, hm.self] at hq
      exact hqp ▸ hcall call hq
    · rw [hm.calling hqp] at hq
      exact h.inside q call hq
  · intro q e hq
    rw [hcloses] at hq
    rw [href, hopen]
    exact h.closing q e hq
  · intro q r e hq hr
    rw [hcloses] at hq hr
    exact h.once q r e hq hr
  · intro e he
    rw [hopen] at he
    rw [href]
    simpa only [hcloses] using h.opened e he
  · rw [href, hopen]
    exact h.referenced
  · rw [hfreed, hopen]
    exact h.freed

theorem dup (h : Refs s) (hfd : 0 < s.fds e p) :
    Refs { s with
      ref := update s.ref e (s.ref e + 1)
      fds := update s.fds e (update (s.fds e) p (s.fds e p + 1)) } := by
  have hopen : s.isopen e = true := h.referenced e (h.ref_pos hfd)
  refine ⟨fun e' => ?_, fun q call hq => ?_, fun q e' hq => ?_, h.once, fun e' he => ?_,
    fun e' he => ?_, h.freed⟩
  · show update s.ref e (s.ref e + 1) e' = ∑ q, update s.fds e (update (s.fds e) p _) e' q
    by_cases hee : e' = e
    · subst hee
      rw [update_self, update_self]
      have hsum := sum_update (s.fds e') (fun n => n) p (s.fds e' p + 1)
      have hcount := h.counted e'
      omega
    · rw [update_of_ne hee, update_of_ne hee]
      exact h.counted e'
  · show 0 < update s.fds e (update (s.fds e) p _) call.on q
    have hpos := h.inside q call hq
    by_cases hee : call.on = e
    · subst hee
      rw [update_self]
      by_cases hqp : q = p
      · rw [hqp, update_self]
        exact Nat.succ_pos _
      · rwa [update_of_ne hqp]
    · rwa [update_of_ne hee]
  · obtain ⟨hzero, hopen'⟩ := h.closing q e' hq
    refine ⟨?_, hopen'⟩
    show update s.ref e (s.ref e + 1) e' = 0
    rw [update_of_ne]
    · exact hzero
    · rintro rfl
      exact absurd (h.ref_pos hfd) (by omega)
  · by_cases hee : e' = e
    · subst hee
      left
      show 0 < update s.ref e' (s.ref e' + 1) e'
      rw [update_self]
      exact Nat.succ_pos _
    · show 0 < update s.ref e (s.ref e + 1) e' ∨ _
      rw [update_of_ne hee]
      exact h.opened e' he
  · by_cases hee : e' = e
    · exact hee ▸ hopen
    · change 0 < update s.ref e (s.ref e + 1) e' at he
      rw [update_of_ne hee] at he
      exact h.referenced e' he

theorem fork (h : Refs s) (hq : (s.pc q).isOut = true) (hnone : ∀ e, s.fds e q = 0) :
    Refs { s with
      ref := fun e => s.ref e + s.fds e p
      fds := fun e => update (s.fds e) q (s.fds e p)
      killed := update s.killed q false } := by
  refine ⟨fun e => ?_, fun r call hr => ?_, fun r e hr => ?_, h.once, fun e he => ?_,
    fun e he => ?_, h.freed⟩
  · show s.ref e + s.fds e p = ∑ r, update (s.fds e) q (s.fds e p) r
    have hsum := sum_update (s.fds e) (fun n => n) q (s.fds e p)
    have hcount := h.counted e
    have hzero := hnone e
    omega
  · show 0 < update (s.fds call.on) q (s.fds call.on p) r
    by_cases hrq : r = q
    · rw [hrq, (calling_of_isOut hq).1] at hr
      cases hr
    · rw [update_of_ne hrq]
      exact h.inside r call hr
  · obtain ⟨hzero, hopen⟩ := h.closing r e hr
    refine ⟨?_, hopen⟩
    show s.ref e + s.fds e p = 0
    rw [hzero, h.fds_zero hzero]
  · exact (h.opened e he).imp (fun hpos => Nat.add_pos_left hpos _) id
  · refine h.referenced e ?_
    by_contra hnot
    have hzero : s.ref e = 0 := by omega
    change 0 < s.ref e + s.fds e p at he
    rw [hzero, h.fds_zero hzero] at he
    exact absurd he (Nat.lt_irrefl 0)

theorem close (h : Refs s) (hout : (s.pc p).isOut = true) (hfd : 0 < s.fds e p) :
    Refs (fileclose s p e) := by
  obtain ⟨hnocall, hnoclose⟩ := calling_of_isOut hout
  have hpos := h.ref_pos hfd
  have hopen := h.referenced e hpos
  have hcount : ∀ e', update s.ref e (s.ref e - 1) e'
      = ∑ q, update s.fds e (update (s.fds e) p (s.fds e p - 1)) e' q := by
    intro e'
    by_cases hee : e' = e
    · subst hee
      rw [update_self, update_self]
      have hsum := sum_update (s.fds e') (fun n => n) p (s.fds e' p - 1)
      have hold := h.counted e'
      omega
    · rw [update_of_ne hee, update_of_ne hee]
      exact h.counted e'
  have hinside : ∀ q call, q ≠ p → (s.pc q).calling = some call →
      0 < update s.fds e (update (s.fds e) p (s.fds e p - 1)) call.on q := by
    intro q call hqp hq
    by_cases hee : call.on = e
    · rw [hee, update_self, update_of_ne hqp, ← hee]
      exact h.inside q call hq
    · rw [update_of_ne hee]
      exact h.inside q call hq
  have hclosing : ∀ q e', (s.pc q).closes = some e' → e' ≠ e := by
    rintro q e' hq rfl
    exact absurd (h.closing q e' hq).1 (by omega)
  unfold fileclose
  dsimp only
  split
  · next hmore =>
      refine ⟨hcount, fun q call hq => ?_, fun q e' hq => ?_, h.once, fun e' he => ?_,
        fun e' he => ?_, h.freed⟩
      · refine hinside q call (fun hqp => ?_) hq
        rw [hqp, hnocall] at hq
        cases hq
      · show update s.ref e _ e' = 0 ∧ _
        rw [update_of_ne (hclosing q e' hq)]
        exact h.closing q e' hq
      · show 0 < update s.ref e _ e' ∨ _
        by_cases hee : e' = e
        · subst hee
          rw [update_self]
          exact Or.inl hmore
        · rw [update_of_ne hee]
          exact h.opened e' he
      · by_cases hee : e' = e
        · exact hee ▸ hopen
        · change 0 < update s.ref e _ e' at he
          rw [update_of_ne hee] at he
          exact h.referenced e' he
  · next hlast =>
      have hzero : s.ref e - 1 = 0 := by omega
      have hself : ∀ pc, (update s.pc p (.closing e) p).closes = pc → some e = pc := by
        intro pc hpc
        rwa [update_self] at hpc
      refine ⟨hcount, fun q call hq => ?_, fun q e' hq => ?_, fun q r e' hq hr => ?_,
        fun e' he => ?_, fun e' he => ?_, h.freed⟩
      · change (update s.pc p (.closing e) q).calling = some call at hq
        by_cases hqp : q = p
        · rw [hqp, update_self] at hq
          cases hq
        · rw [update_of_ne hqp] at hq
          exact hinside q call hqp hq
      · change (update s.pc p (.closing e) q).closes = some e' at hq
        show update s.ref e _ e' = 0 ∧ s.isopen e' = true
        by_cases hqp : q = p
        · subst hqp
          obtain rfl := Option.some.inj (hself _ hq)
          rw [update_self]
          exact ⟨hzero, hopen⟩
        · rw [update_of_ne hqp] at hq
          rw [update_of_ne (hclosing q e' hq)]
          exact h.closing q e' hq
      · change (update s.pc p (.closing e) q).closes = some e' at hq
        change (update s.pc p (.closing e) r).closes = some e' at hr
        by_cases hqp : q = p <;> by_cases hrp : r = p
        · rw [hqp, hrp]
        · rw [update_of_ne hrp] at hr
          rw [hqp] at hq
          exact absurd (Option.some.inj (hself _ hq)).symm (hclosing r e' hr)
        · rw [update_of_ne hqp] at hq
          rw [hrp] at hr
          exact absurd (Option.some.inj (hself _ hr)).symm (hclosing q e' hq)
        · rw [update_of_ne hqp] at hq
          rw [update_of_ne hrp] at hr
          exact h.once q r e' hq hr
      · show 0 < update s.ref e _ e' ∨ ∃ q, (update s.pc p (.closing e) q).closes = some e'
        by_cases hee : e' = e
        · refine Or.inr ⟨p, ?_⟩
          rw [update_self, hee]
          rfl
        · rw [update_of_ne hee]
          refine (h.opened e' he).imp id fun ⟨q, hq⟩ => ⟨q, ?_⟩
          rw [update_of_ne]
          · exact hq
          · rintro rfl
            rw [hnoclose] at hq
            cases hq
      · change 0 < update s.ref e _ e' at he
        by_cases hee : e' = e
        · exact hee ▸ hopen
        · rw [update_of_ne hee] at he
          exact h.referenced e' he

/-- The fields of the pipe after `pipeclose`. -/
theorem pipeclose_eq (s : State) (p : Proc) (e : End) : ∃ freed,
    pipeclose s p e = { (s.wakeup e.other).setPc p (.out 0) with
      isopen := update s.isopen e false, freed := freed } ∧
    (freed = true ↔ s.freed = true ∨ ∀ c, update s.isopen e false c = false) := by
  have hall : (∀ c, update s.isopen e false c = false) ↔
      update s.isopen e false .read = false ∧ update s.isopen e false .write = false :=
    ⟨fun h => ⟨h .read, h .write⟩, fun h c => by cases c; exacts [h.1, h.2]⟩
  unfold pipeclose
  dsimp only
  split
  · next hboth => exact ⟨true, rfl, fun _ => Or.inr (hall.mpr hboth), fun _ => rfl⟩
  · next hnot => exact ⟨s.freed, rfl, Or.inl, fun h => h.resolve_right (hnot ∘ hall.mp)⟩

theorem pipeclose (h : Refs s) (hpc : s.pc p = .closing e) : Refs (pipeclose s p e) := by
  have hcloses : (s.pc p).closes = some e := by rw [hpc]; rfl
  obtain ⟨hzero, hopen⟩ := h.closing p e hcloses
  obtain ⟨freed, heq, hfreed⟩ := pipeclose_eq s p e
  rw [heq]
  have hm : Moved s { (s.wakeup e.other).setPc p (.out 0) with
      isopen := update s.isopen e false, freed := freed } p (.out 0) (some e.other) := .wake rfl
  have hne : ∀ q e', q ≠ p → (s.pc q).closes = some e' → e' ≠ e := by
    rintro q e' hqp hq rfl
    exact hqp (h.once q p e' hq hcloses)
  refine ⟨h.counted, fun q call hq => ?_, fun q e' hq => ?_, fun q r e' hq hr => ?_,
    fun e' he => ?_, fun e' he => ?_, ?_⟩
  · by_cases hqp : q = p
    · rw [hqp, hm.self] at hq
      cases hq
    · rw [hm.calling hqp] at hq
      exact h.inside q call hq
  · by_cases hqp : q = p
    · rw [hqp, hm.self] at hq
      cases hq
    · rw [hm.closes hqp] at hq
      show s.ref e' = 0 ∧ update s.isopen e false e' = true
      rw [update_of_ne (hne q e' hqp hq)]
      exact h.closing q e' hq
  · by_cases hqp : q = p
    · rw [hqp, hm.self] at hq
      cases hq
    · by_cases hrp : r = p
      · rw [hrp, hm.self] at hr
        cases hr
      · rw [hm.closes hqp] at hq
        rw [hm.closes hrp] at hr
        exact h.once q r e' hq hr
  · change update s.isopen e false e' = true at he
    by_cases hee : e' = e
    · rw [hee, update_self] at he
      cases he
    · rw [update_of_ne hee] at he
      refine (h.opened e' he).imp id fun ⟨q, hq⟩ => ⟨q, ?_⟩
      rw [hm.closes]
      · exact hq
      · rintro rfl
        rw [hcloses] at hq
        exact hee (Option.some.inj hq).symm
  · show update s.isopen e false e' = true
    have hee : e' ≠ e := by
      rintro rfl
      exact absurd he (by show ¬ 0 < s.ref e'; omega)
    rw [update_of_ne hee]
    exact h.referenced e' he
  · show freed = true ↔ ∀ c, update s.isopen e false c = false
    rw [hfreed, h.freed]
    refine ⟨fun hor => hor.elim (fun hall => ?_) id, Or.inr⟩
    rw [hall e] at hopen
    cases hopen

theorem step (h : Refs s) (hs : Step s a s') : Refs s' := by
  cases hs with
  | call hout hfd _ =>
      refine h.move (.setPc rfl) (calling_of_isOut hout).2.symm (fun c hc => ?_) rfl rfl rfl rfl
      cases hc
      exact hfd
  | @writeAll p n rest _ hpc _ =>
      rw [puts_eq]
      exact h.move (.wake rfl) (by rw [hpc]; rfl) (fun c hc => by cases hc) rfl rfl rfl rfl
  | writeFail _ hpc _ _ _ =>
      rw [puts_eq]
      exact h.move (.setPc rfl) (by rw [hpc]; rfl) (fun c hc => by cases hc) rfl rfl rfl rfl
  | @writeWait p n rest k _ hpc _ _ _ =>
      rw [puts_eq]
      refine h.move (.wake rfl) (by rw [hpc]; rfl) (fun c hc => ?_) rfl rfl rfl rfl
      cases hc
      exact h.inside p (.write n rest) (by rw [hpc]; rfl)
  | readFail _ hpc _ _ _ =>
      exact h.move (.setPc rfl) (by rw [hpc]; rfl) (fun c hc => by cases hc) rfl rfl rfl rfl
  | @readWait p n _ hpc _ _ =>
      refine h.move (.setPc rfl) (by rw [hpc]; rfl) (fun c hc => ?_) rfl rfl rfl rfl
      cases hc
      exact h.inside p (.read n) (by rw [hpc]; rfl)
  | readSome _ hpc _ =>
      exact h.move (.wake rfl) (by rw [hpc]; rfl) (fun c hc => by cases hc) rfl rfl rfl rfl
  | pipeclose _ hpc => exact h.pipeclose hpc
  | @sleep p call hpc =>
      refine h.move (.setPc rfl) (by rw [hpc]; rfl) (fun c hc => ?_) rfl rfl rfl rfl
      cases hc
      exact h.inside p call (by rw [hpc]; rfl)
  | @kill p =>
      have hsame : (s.pc p).rouse.calling = (s.pc p).calling ∧
          (s.pc p).rouse.closes = (s.pc p).closes := by
        cases s.pc p <;> exact ⟨rfl, rfl⟩
      refine h.move (.setPc rfl) hsame.2 (fun c hc => ?_) rfl rfl rfl rfl
      exact h.inside p c (hsame.1 ▸ hc)
  | dup _ hfd => exact h.dup hfd
  | fork _ hq hnone => exact h.fork hq hnone
  | close hout hfd => exact h.close hout hfd

end Refs

/-! ## The bytes -/

theorem puts_nwrite (bytes : List UInt8) :
    (s.puts bytes).nwrite = s.nwrite + BitVec.ofNat 32 bytes.length := by
  induction bytes generalizing s with
  | nil => exact (BitVec.add_zero _).symm
  | cons c rest ih =>
      rw [puts_cons, ih, List.length_cons, BitVec.ofNat_add]
      show s.nwrite + 1 + BitVec.ofNat 32 rest.length
        = s.nwrite + (BitVec.ofNat 32 rest.length + 1)
      ring

/-- The bytes that were stored and those that were read, each with the process that did;
what each process has passed to `pipewrite`, less what a call that failed did not store; and
whether a `piperead` has returned 0 for an end of file. -/
structure History where
  sent : List (Proc × UInt8)
  received : List (Proc × UInt8)
  asked : Proc → List UInt8
  ended : Bool

def History.empty : History :=
  { sent := [], received := [], asked := fun _ => [], ended := false }

/-- The process `p` stored `bytes`, and gave up on `lost` more. -/
def History.store (h : History) (p : Proc) (bytes : List UInt8) (lost : Nat) : History :=
  { h with
    sent := h.sent ++ bytes.map fun c => (p, c)
    asked := update h.asked p ((h.asked p).take ((h.asked p).length - lost)) }

def note (s : State) (a : Label) (h : History) : History :=
  match a with
  | .call p (.write _ rest) => { h with asked := update h.asked p (h.asked p ++ rest) }
  | .run p =>
      match s.pc p with
      | .enter (.write n rest) =>
          let s' := pipewrite s p n rest
          let stored := (s'.nwrite - s.nwrite).toNat
          h.store p (rest.take stored) (if s'.pc p = .out (-1) then rest.length - stored else 0)
      | .enter (.read n) =>
          let s' := piperead s p n
          match s'.pc p with
          | .out (.ofNat k) =>
              { h with
                received := h.received ++ (s'.got p).map fun c => (p, c)
                ended := h.ended || decide (0 < n ∧ k = 0) }
          | _ => h
      | _ => h
  | _ => h

/-- The pipe, with its history. -/
def recorded : TSys (State × History) Label := system.record History.empty note

/-- The bytes of one process. -/
def History.sentBy (h : History) (p : Proc) : List UInt8 :=
  (h.sent.filter fun x => x.1 = p).map Prod.snd

/-- The pipe and its history. -/
structure Flow (s : State) (h : History) : Prop where
  bounded : s.count ≤ pipeSize
  fifo : h.received.map Prod.snd ++ s.bytes = h.sent.map Prod.snd
  order : ∀ p, h.sentBy p ++ (s.pc p).rest = h.asked p
  ended : h.ended = true → s.empty ∧ s.isopen .write = false

namespace Flow

variable {h h' : History}

theorem bytes_congr (hdata : s'.data = s.data) (hr : s'.nread = s.nread)
    (hw : s'.nwrite = s.nwrite) : s'.bytes = s.bytes := by
  rw [State.bytes, hdata, hr, hw, State.bytes]

theorem sentBy_store_self (bytes : List UInt8) (lost : Nat) :
    (h.store p bytes lost).sentBy p = h.sentBy p ++ bytes := by
  unfold History.sentBy History.store
  rw [List.filter_append, List.map_append]
  congr 1
  rw [List.filter_eq_self.mpr, List.map_map]
  · exact List.map_id bytes
  · intro x hx
    obtain ⟨c, -, rfl⟩ := List.mem_map.mp hx
    exact decide_eq_true rfl

theorem sentBy_store_of_ne (bytes : List UInt8) (lost : Nat) (hqp : q ≠ p) :
    (h.store p bytes lost).sentBy q = h.sentBy q := by
  have hnone : (bytes.map fun c => (p, c)).filter (fun x => x.1 = q) = [] := by
    refine List.filter_eq_nil_iff.mpr fun x hx => ?_
    obtain ⟨c, -, rfl⟩ := List.mem_map.mp hx
    simpa using Ne.symm hqp
  unfold History.sentBy History.store
  rw [List.filter_append, hnone, List.append_nil]

/-- Nobody stores or reads. -/
theorem move {pc : Pc} {c : Option End} (hf : Flow s h) (hm : Moved s s' p pc c)
    (hrest : pc.rest = (s.pc p).rest) (hdata : s'.data = s.data) (hr : s'.nread = s.nread)
    (hw : s'.nwrite = s.nwrite) (hopen : s.isopen .write = false → s'.isopen .write = false) :
    Flow s' h where
  bounded := by
    rw [← bytes_length, bytes_congr hdata hr hw, bytes_length]
    exact hf.bounded
  fifo := by
    rw [bytes_congr hdata hr hw]
    exact hf.fifo
  order q := by
    have hsame : (s'.pc q).rest = (s.pc q).rest := by
      by_cases hqp : q = p
      · rw [hqp, hm.self, hrest]
      · unfold Pc.rest
        rw [hm.calling hqp]
    rw [hsame]
    exact hf.order q
  ended he := by
    obtain ⟨hempty, hclosed⟩ := hf.ended he
    refine ⟨?_, hopen hclosed⟩
    rw [empty_iff, bytes_congr hdata hr hw]
    exact empty_iff.mp hempty

/-- The process `p` stores the first `k` bytes of its call, and goes on to `pc`. -/
theorem stored {n k : Nat} {rest : List UInt8} {pc : Pc} {c : Option End} {lost : Nat}
    (hf : Flow s h) (hrefs : Refs s) (hpc : s.pc p = .enter (.write n rest))
    (hk : k ≤ rest.length) (hroom : s.count + k ≤ pipeSize) (hm : Moved s s' p pc c)
    (hdata : s'.data = (s.puts (rest.take k)).data) (hr : s'.nread = s.nread)
    (hw : s'.nwrite = (s.puts (rest.take k)).nwrite)
    (hlost : pc.rest.length + lost = rest.length - k ∧ (pc.rest = rest.drop k ∨ pc.rest = [])) :
    Flow s' (h.store p (rest.take k) lost) := by
  have hcalling : (s.pc p).calling = some (.write n rest) := by rw [hpc]; rfl
  have hlen : (rest.take k).length = k := by rw [List.length_take, Nat.min_eq_left hk]
  have hputs : s'.bytes = s.bytes ++ rest.take k := by
    rw [← puts_bytes (by rw [hlen]; exact hroom)]
    refine bytes_congr hdata ?_ hw
    rw [hr, puts_eq]
  refine ⟨?_, ?_, fun q => ?_, fun he => ?_⟩
  · rw [← bytes_length, hputs, List.length_append, bytes_length, hlen]
    exact hroom
  · show h.received.map Prod.snd ++ s'.bytes = (h.sent ++ _).map Prod.snd
    rw [hputs, ← List.append_assoc, hf.fifo, List.map_append, List.map_map]
    congr 1
    exact (List.map_id _).symm
  · by_cases hqp : q = p
    · subst hqp
      have horder := hf.order q
      have hrest : (s.pc q).rest = rest := by rw [hpc]; rfl
      rw [hrest] at horder
      have hsplit : h.sentBy q ++ rest.take k ++ rest.drop k = h.asked q := by
        rw [List.append_assoc, List.take_append_drop, horder]
      rw [sentBy_store_self, hm.self]
      show _ = update h.asked q _ q
      rw [update_self]
      obtain ⟨hcount, hpart⟩ := hlost
      rcases hpart with hpart | hpart
      · have hzero : lost = 0 := by
          rw [hpart, List.length_drop] at hcount
          omega
        rw [hpart, hsplit, hzero, Nat.sub_zero, List.take_length]
      · have hl : lost = (rest.drop k).length := by
          rw [hpart] at hcount
          rw [List.length_drop]
          simpa using hcount
        have hcut : (h.sentBy q ++ rest.take k ++ rest.drop k).length - (rest.drop k).length
            = (h.sentBy q ++ rest.take k).length := by
          rw [List.length_append, Nat.add_sub_cancel]
        rw [hpart, List.append_nil, ← hsplit, hl, hcut, List.take_left]
    · rw [sentBy_store_of_ne _ _ hqp]
      show _ = update h.asked p _ q
      rw [update_of_ne hqp, Pc.rest, hm.calling hqp]
      exact hf.order q
  · -- an end of file is told only when nobody writes
    have hopen : s.isopen .write = true := hrefs.isopen hcalling
    rw [(hf.ended he).2] at hopen
    cases hopen

/-- Who stores, and how far it got. -/
theorem stored_count {k : Nat} {bytes : List UInt8} (hk : k ≤ bytes.length)
    (hroom : s.count + k ≤ pipeSize) : ((s.puts (bytes.take k)).nwrite - s.nwrite).toNat = k := by
  unfold pipeSize at hroom
  rw [puts_nwrite, add_sub_cancel_left, List.length_take, Nat.min_eq_left hk, BitVec.toNat_ofNat,
    Nat.mod_eq_of_lt (by omega)]

/-- What `note` makes of a `pipewrite` whose outcome is known. -/
theorem note_write {n k lost : Nat} {rest : List UInt8} (hpc : s.pc p = .enter (.write n rest))
    (hk : k ≤ rest.length) (hroom : s.count + k ≤ pipeSize)
    (hw : (pipewrite s p n rest).nwrite = (s.puts (rest.take k)).nwrite)
    (hlost : (if (pipewrite s p n rest).pc p = .out (-1) then rest.length - k else 0) = lost) :
    note s (.run p) h = h.store p (rest.take k) lost := by
  simp only [note, hpc]
  rw [hw, stored_count hk hroom, hlost]

theorem run_write {n : Nat} {rest : List UInt8} (hlock : s.lockedBy = none)
    (hpc : s.pc p = .enter (.write n rest)) (hn : next s (.run p) = some s') :
    pipewrite s p n rest = s' := by
  change run s p = some s' at hn
  unfold run at hn
  rw [if_pos hlock, hpc] at hn
  exact Option.some.inj hn

theorem run_read {n : Nat} (hlock : s.lockedBy = none) (hpc : s.pc p = .enter (.read n))
    (hn : next s (.run p) = some s') : piperead s p n = s' := by
  change run s p = some s' at hn
  unfold run at hn
  rw [if_pos hlock, hpc] at hn
  exact Option.some.inj hn

theorem rest_of_isOut {pc : Pc} (h : pc.isOut = true) : pc.rest = [] := by
  rw [Pc.rest, (calling_of_isOut h).1]

/-- A process begins a call. -/
theorem call {k : Call} (hf : Flow s h) (hout : (s.pc p).isOut = true) :
    Flow (s.setPc p (.enter k)) (note s (.call p k) h) := by
  have hm : Moved s (s.setPc p (.enter k)) p (.enter k) none := .setPc rfl
  cases k with
  | read n => exact hf.move hm (rest_of_isOut hout).symm rfl rfl rfl id
  | write n rest =>
      refine ⟨hf.bounded, hf.fifo, fun q => ?_, hf.ended⟩
      show h.sentBy q ++ _ = update h.asked p (h.asked p ++ rest) q
      by_cases hqp : q = p
      · subst hqp
        have horder := hf.order q
        rw [rest_of_isOut hout, List.append_nil] at horder
        rw [update_self, ← horder, hm.self]
        rfl
      · rw [update_of_ne hqp, ← hf.order q, Pc.rest, hm.calling hqp]
        rfl

theorem writeAll {n : Nat} {rest : List UInt8} (hf : Flow s h) (hrefs : Refs s)
    (hpc : s.pc p = .enter (.write n rest)) (hroom : s.count + rest.length ≤ pipeSize)
    (hres : pipewrite s p n rest = ((s.puts rest).wakeup .read).setPc p (.out n)) :
    Flow (pipewrite s p n rest) (note s (.run p) h) := by
  have hself : (pipewrite s p n rest).pc p = .out n := by
    rw [hres]
    exact update_self ..
  have hnote : note s (.run p) h = h.store p (rest.take rest.length) 0 := by
    refine note_write hpc (Nat.le_refl _) hroom (by rw [hres, List.take_length]; rfl) (if_neg ?_)
    rw [hself]
    intro heq
    injection heq with heq
    omega
  rw [hnote, hres, puts_eq]
  refine hf.stored hrefs hpc (Nat.le_refl _) hroom (.wake (c := .read) rfl) ?_ rfl ?_
    ⟨?_, Or.inr rfl⟩
  · rw [List.take_length]
    rfl
  · rw [List.take_length]
    rfl
  · rw [Nat.sub_self]
    rfl

theorem writeFail {n k : Nat} {rest : List UInt8} (hf : Flow s h) (hrefs : Refs s)
    (hpc : s.pc p = .enter (.write n rest)) (hk : k < rest.length) (hsum : s.count + k = pipeSize)
    (hres : pipewrite s p n rest = (s.puts (rest.take k)).setPc p (.out (-1))) :
    Flow (pipewrite s p n rest) (note s (.run p) h) := by
  have hself : (pipewrite s p n rest).pc p = .out (-1) := by
    rw [hres]
    exact update_self ..
  have hroom : s.count + k ≤ pipeSize := Nat.le_of_eq hsum
  have hnote : note s (.run p) h = h.store p (rest.take k) (rest.length - k) :=
    note_write hpc (Nat.le_of_lt hk) hroom (by rw [hres]; rfl) (if_pos hself)
  rw [hnote, hres, puts_eq]
  refine hf.stored hrefs hpc (Nat.le_of_lt hk) hroom (.setPc rfl) rfl rfl rfl ⟨?_, Or.inr rfl⟩
  exact Nat.zero_add _

theorem writeWait {n k : Nat} {rest : List UInt8} (hf : Flow s h) (hrefs : Refs s)
    (hpc : s.pc p = .enter (.write n rest)) (hk : k < rest.length) (hsum : s.count + k = pipeSize)
    (hres : pipewrite s p n rest =
      { ((s.puts (rest.take k)).wakeup .read).setPc p (.drowsy (.write n (rest.drop k))) with
        lockedBy := some p }) :
    Flow (pipewrite s p n rest) (note s (.run p) h) := by
  have hself : (pipewrite s p n rest).pc p = .drowsy (.write n (rest.drop k)) := by
    rw [hres]
    exact update_self ..
  have hroom : s.count + k ≤ pipeSize := Nat.le_of_eq hsum
  have hnote : note s (.run p) h = h.store p (rest.take k) 0 := by
    refine note_write hpc (Nat.le_of_lt hk) hroom (by rw [hres]; rfl) (if_neg ?_)
    rw [hself]
    exact Pc.noConfusion
  rw [hnote, hres, puts_eq]
  exact hf.stored hrefs hpc (Nat.le_of_lt hk) hroom (.wake (c := .read) rfl) rfl rfl rfl
    ⟨List.length_drop .., Or.inl rfl⟩

theorem readSome {n : Nat} (hf : Flow s h) (hpc : s.pc p = .enter (.read n))
    (hsome : ¬ s.empty ∨ s.isopen .write = false)
    (hres : piperead s p n =
      { ((s.skip n).wakeup .write).setPc p (.out (s.bytes.take n).length) with
        got := update s.got p (s.bytes.take n) }) :
    Flow (piperead s p n) (note s (.run p) h) := by
  have hm : Moved s (piperead s p n) p (.out (s.bytes.take n).length) (some .write) := by
    rw [hres]
    exact .wake rfl
  have hgot : (piperead s p n).got p = s.bytes.take n := by
    rw [hres]
    exact update_self ..
  have hnote : note s (.run p) h = { h with
      received := h.received ++ (s.bytes.take n).map fun c => (p, c)
      ended := h.ended || decide (0 < n ∧ (s.bytes.take n).length = 0) } := by
    simp only [note, hpc]
    rw [hm.self, hgot]
  have hbytes : (piperead s p n).bytes = s.bytes.drop n := by
    rw [hres, ← skip_bytes]
    rfl
  rw [hnote]
  refine ⟨?_, ?_, fun q => ?_, fun he => ?_⟩
  · rw [← bytes_length, hbytes, List.length_drop, bytes_length]
    exact Nat.le_trans (Nat.sub_le _ _) hf.bounded
  · show (h.received ++ _).map Prod.snd ++ _ = _
    rw [hbytes, List.map_append, List.map_map, ← hf.fifo, List.append_assoc]
    congr 1
    show (s.bytes.take n).map id ++ s.bytes.drop n = s.bytes
    rw [List.map_id, List.take_append_drop]
  · have hsame : ((piperead s p n).pc q).rest = (s.pc q).rest := by
      by_cases hqp : q = p
      · rw [hqp, hm.self, hpc]
        rfl
      · unfold Pc.rest
        rw [hm.calling hqp]
    rw [hsame]
    exact hf.order q
  · have hdone : s.empty ∧ s.isopen .write = false := by
      rcases Bool.or_eq_true_iff.mp he with hended | hnow
      · exact hf.ended hended
      · obtain ⟨hpos, hzero⟩ := of_decide_eq_true hnow
        have hempty : s.empty := by
          rw [empty_iff, ← List.length_eq_zero_iff]
          rw [List.length_take] at hzero
          omega
        exact ⟨hempty, hsome.resolve_left (not_not.mpr hempty)⟩
    have hopen : (piperead s p n).isopen = s.isopen := by
      rw [hres]
      rfl
    rw [empty_iff, hbytes, empty_iff.mp hdone.1, hopen]
    exact ⟨List.drop_nil, hdone.2⟩

theorem pipeclose (hf : Flow s h) (hpc : s.pc p = .closing e) : Flow (pipeclose s p e) h := by
  obtain ⟨freed, heq, -⟩ := Refs.pipeclose_eq s p e
  rw [heq]
  refine hf.move (.wake (c := e.other) rfl) (by rw [hpc]; rfl) rfl rfl rfl fun hclosed => ?_
  show update s.isopen e false .write = false
  by_cases hee : End.write = e
  · rw [hee, update_self]
  · rwa [update_of_ne hee]

theorem fileclose (hf : Flow s h) (hout : (s.pc p).isOut = true) : Flow (fileclose s p e) h := by
  unfold Pipe.fileclose
  dsimp only
  split
  · exact ⟨hf.bounded, hf.fifo, hf.order, hf.ended⟩
  · exact hf.move (.setPc rfl) (rest_of_isOut hout).symm rfl rfl rfl id

theorem step (hf : Flow s h) (hrefs : Refs s) (hs : Step s a s')
    (hn : next s a = some s') : Flow s' (note s a h) := by
  cases hs with
  | call hout _ _ => exact hf.call hout
  | writeAll hlock hpc hroom =>
      have hres := run_write hlock hpc hn
      exact hres ▸ hf.writeAll hrefs hpc hroom hres
  | writeFail hlock hpc hk hsum _ =>
      have hres := run_write hlock hpc hn
      exact hres ▸ hf.writeFail hrefs hpc hk hsum hres
  | writeWait hlock hpc hk hsum _ =>
      have hres := run_write hlock hpc hn
      exact hres ▸ hf.writeWait hrefs hpc hk hsum hres
  | @readFail p n hlock hpc _ _ _ =>
      have hres := run_read hlock hpc hn
      have hself : (piperead s p n).pc p = .out (-1) := hres ▸ update_self ..
      have hnote : note s (.run p) h = h := by
        simp only [note, hpc]
        rw [hself]
        rfl
      rw [hnote]
      exact hf.move (.setPc rfl) (by rw [hpc]; rfl) rfl rfl rfl id
  | @readWait p n hlock hpc _ _ =>
      have hres := run_read hlock hpc hn
      have hself : (piperead s p n).pc p = .drowsy (.read n) := hres ▸ update_self ..
      have hnote : note s (.run p) h = h := by
        simp only [note, hpc]
        rw [hself]
      rw [hnote]
      exact hf.move (.setPc rfl) (by rw [hpc]; rfl) rfl rfl rfl id
  | readSome hlock hpc hsome =>
      have hres := run_read hlock hpc hn
      exact hres ▸ hf.readSome hpc hsome hres
  | @pipeclose p e hlock hpc =>
      have hnote : note s (.run p) h = h := by simp only [note, hpc]
      rw [hnote]
      exact hf.pipeclose hpc
  | sleep hpc => exact hf.move (.setPc rfl) (by rw [hpc]; rfl) rfl rfl rfl id
  | @kill p =>
      refine hf.move (.setPc rfl) ?_ rfl rfl rfl id
      cases s.pc p <;> rfl
  | dup _ _ => exact ⟨hf.bounded, hf.fifo, hf.order, hf.ended⟩
  | fork _ _ _ => exact ⟨hf.bounded, hf.fifo, hf.order, hf.ended⟩
  | close hout _ => exact hf.fileclose hout

theorem new (p : Proc) (data : Nat → UInt8) (killed : Proc → Bool) :
    Flow (State.new p data killed) .empty := by
  have hbytes : (State.new p data killed).bytes = [] := held_self
  refine ⟨?_, ?_, fun _ => rfl, fun he => Bool.noConfusion he⟩
  · rw [← bytes_length, hbytes]
    exact Nat.zero_le _
  · rw [hbytes]
    rfl

end Flow

/-- Holds in every run. -/
theorem flow_invariant : recorded.Invariant fun x => Refs x.1 ∧ Flow x.1 x.2 := by
  refine TSys.Inductive.invariant ⟨?_, ?_⟩
  · rintro ⟨s, h⟩ ⟨⟨p, data, killed, rfl⟩, rfl⟩
    exact ⟨.new p data killed, .new p data killed⟩
  · rintro ⟨s, h⟩ a ⟨s', h'⟩ ⟨hrefs, hf⟩ - hn
    obtain ⟨s'', hnext, heq⟩ := Option.map_eq_some_iff.mp hn
    obtain ⟨rfl, rfl⟩ := Prod.mk.inj heq
    have hs := next_step hf.bounded hnext
    exact ⟨hrefs.step hs, hf.step hrefs hs hnext⟩

/-- The references are right in every run. -/
theorem refs_invariant : system.Invariant fun s => Refs s ∧ s.count ≤ pipeSize := by
  intro s hs
  obtain ⟨h, hx⟩ := hs.record History.empty note
  obtain ⟨hrefs, hf⟩ := flow_invariant (s, h) hx
  exact ⟨hrefs, hf.bounded⟩

/-- **First in, first out.** In every state of every run, the bytes that have been read and
those in the pipe are, in order, the bytes that have been stored, each process has stored
what it passed to its `pipewrite`s, in order and up to where it is, and after a `piperead`
that returned 0 there is and there will be nothing more. -/
theorem pipe_fifo : recorded.Invariant fun x =>
    x.1.count ≤ pipeSize ∧
    x.2.received.map Prod.snd ++ x.1.bytes = x.2.sent.map Prod.snd ∧
    (∀ p, x.2.sentBy p ++ (x.1.pc p).rest = x.2.asked p) ∧
    (x.2.ended = true → x.2.received.map Prod.snd = x.2.sent.map Prod.snd ∧
      x.1.isopen .write = false) := by
  intro x hx
  obtain ⟨-, hf⟩ := flow_invariant x hx
  refine ⟨hf.bounded, hf.fifo, hf.order, fun he => ?_⟩
  obtain ⟨hempty, hclosed⟩ := hf.ended he
  have hfifo := hf.fifo
  rw [empty_iff.mp hempty, List.append_nil] at hfifo
  exact ⟨hfifo, hclosed⟩

/-- **The page of the pipe** is given back exactly when no process has a descriptor of it
and none is in a call on it or has one to make. -/
theorem pipe_freed : system.Invariant fun s =>
    s.freed = true ↔ ∀ p, (∀ e, s.fds e p = 0) ∧ (s.pc p).isOut = true := by
  intro s hs
  obtain ⟨h, -⟩ := refs_invariant s hs
  have hout : ∀ pc : Pc, pc.isOut = true ↔ pc.calling = none ∧ pc.closes = none := by
    intro pc
    cases pc <;> simp [Pc.isOut, Pc.calling, Pc.closes]
  constructor
  · intro hfreed p
    have hclosed := h.freed.mp hfreed
    have hzero : ∀ e, s.fds e p = 0 := by
      intro e
      by_contra hne
      have hopen := h.referenced e (h.ref_pos (Nat.pos_of_ne_zero hne))
      rw [hclosed e] at hopen
      cases hopen
    refine ⟨hzero, (hout _).mpr ⟨?_, ?_⟩⟩
    · rw [Option.eq_none_iff_forall_ne_some]
      intro k hk
      exact absurd (h.inside p k hk) (by rw [hzero]; exact Nat.lt_irrefl 0)
    · rw [Option.eq_none_iff_forall_ne_some]
      intro e he
      have hopen := (h.closing p e he).2
      rw [hclosed e] at hopen
      cases hopen
  · intro hall
    refine h.freed.mpr fun e => ?_
    rw [Bool.eq_false_iff]
    intro hopen
    rcases h.opened e hopen with hpos | ⟨p, hp⟩
    · rw [h.counted] at hpos
      exact absurd hpos (by simp [fun p => (hall p).1 e])
    · rw [((hout _).mp (hall p).2).2] at hp
      cases hp

end Os377.Xv6.Pipe
