import Os377.Lib.Count
import Os377.Lib.Counters
import Os377.Lib.Mutex
import Os377.Lib.TSys
import Os377.Xv6.ProcTable

/-!
# The xv6 pipe

`pipe.c`, with the references that `file.c` counts on the two ends: any number of
processes with descriptors of either end, for any interleaving of their calls.

Whoever holds `p->lock` runs alone up to its release, and that is one step; between the
tests of a loop and `sleep`, the lock is held and a `kill` can come in, so going to sleep is
a step of its own. `nread` and `nwrite` are `uint`s that count on and wrap
(`Lib/Counters`).
-/

namespace Os377.Xv6.Pipe

open Os377.Lib Function

/-- `PIPESIZE` -/
def pipeSize : Nat := 512

/-- An end of the pipe, which is one `struct file`. Readers sleep on `&p->nread`, the
channel `read`, and writers on `&p->nwrite`, the channel `write`. -/
inductive End where
  | read
  | write
  deriving DecidableEq, Repr

def End.other : End → End
  | .read => .write
  | .write => .read

/-- A call on the pipe. Of a `pipewrite` of `n` bytes, `rest` is still to be stored. -/
inductive Call where
  | write (n : Nat) (rest : List UInt8)
  | read (n : Nat)
  deriving DecidableEq, Repr

/-- The end that a call is made on. -/
def Call.on : Call → End
  | .write _ _ => .write
  | .read _ => .read

/-- Where a process stands. -/
inductive Pc where
  /-- In no call on the pipe; the last one returned `ret`. -/
  | out (ret : Int)
  /-- About to take `p->lock`. -/
  | enter (call : Call)
  /-- Holds `p->lock`, and is about to `sleep`. -/
  | drowsy (call : Call)
  | asleep (call : Call)
  /-- Has closed the last descriptor of an end, and calls `pipeclose`. -/
  | closing (e : End)
  deriving DecidableEq, Repr

def Pc.isDrowsy : Pc → Bool
  | .drowsy _ => true
  | _ => false

/-- What `kill` does to who sleeps. -/
def Pc.rouse : Pc → Pc
  | .asleep call => .enter call
  | pc => pc

/-- What `wakeup` does to who sleeps. -/
def Pc.wake (c : End) : Pc → Pc
  | .asleep call => if call.on = c then .enter call else .asleep call
  | pc => pc

/-- `struct pipe`, its two `struct file`s (`ref`), the descriptors of the processes (`fds`),
and what the last `piperead` of a process has put at `addr` (`got`). -/
structure State where
  data : Nat → UInt8
  nread : BitVec 32
  nwrite : BitVec 32
  isopen : End → Bool
  freed : Bool
  lockedBy : Option Proc
  ref : End → Nat
  fds : End → Proc → Nat
  killed : Proc → Bool
  pc : Proc → Pc
  got : Proc → List UInt8

namespace State

variable (s : State)

/-- How many bytes are in the pipe. -/
def count : Nat := (s.nwrite - s.nread).toNat

def full : Prop := s.nwrite = s.nread + BitVec.ofNat 32 pipeSize

instance : Decidable s.full := by unfold full; infer_instance

def empty : Prop := s.nread = s.nwrite

instance : Decidable s.empty := by unfold empty; infer_instance

def wakeup (c : End) : State := { s with pc := fun q => (s.pc q).wake c }

def setPc (p : Proc) (pc : Pc) : State := { s with pc := update s.pc p pc }

@[simp] theorem setPc_self (p : Proc) (pc : Pc) : (s.setPc p pc).pc p = pc := update_self ..

@[simp] theorem setPc_setPc (p : Proc) (pc pc' : Pc) :
    (s.setPc p pc).setPc p pc' = s.setPc p pc' := by
  unfold setPc
  dsimp only
  rw [update_idem]

theorem setPc_of_ne {p q : Proc} (h : q ≠ p) (pc : Pc) : (s.setPc p pc).pc q = s.pc q :=
  update_of_ne h ..

/-- `p->data[p->nwrite++ % PIPESIZE] = c` -/
def put (c : UInt8) : State :=
  { s with data := update s.data (s.nwrite.toNat % pipeSize) c, nwrite := s.nwrite + 1 }

/-- The loop of `pipewrite` that stores bytes, as long as it gets through. -/
def puts (bytes : List UInt8) : State := bytes.foldl put s

end State

/-- `pipewrite` under the lock, up to its release. -/
def pipewrite (s : State) (p : Proc) (n : Nat) : List UInt8 → State
  | [] => (s.wakeup .read).setPc p (.out n)
  | c :: rest =>
      if s.full then
        if s.isopen .read = false ∨ s.killed p = true then s.setPc p (.out (-1))
        else
          { (s.wakeup .read).setPc p (.drowsy (.write n (c :: rest))) with lockedBy := some p }
      else pipewrite (s.put c) p n rest

/-- The second loop of `piperead`, and what it copies. -/
def take (s : State) : Nat → State × List UInt8
  | 0 => (s, [])
  | n + 1 =>
      if s.empty then (s, [])
      else
        let (s', bytes) := take { s with nread := s.nread + 1 } n
        (s', s.data (s.nread.toNat % pipeSize) :: bytes)

/-- `piperead` under the lock, up to its release. -/
def piperead (s : State) (p : Proc) (n : Nat) : State :=
  if s.empty ∧ s.isopen .write = true then
    if s.killed p = true then s.setPc p (.out (-1))
    else { s.setPc p (.drowsy (.read n)) with lockedBy := some p }
  else
    let (s', bytes) := take s n
    { (s'.wakeup .write).setPc p (.out bytes.length) with got := update s.got p bytes }

def pipeclose (s : State) (p : Proc) (e : End) : State :=
  let s' := { (s.wakeup e.other).setPc p (.out 0) with isopen := update s.isopen e false }
  if s'.isopen .read = false ∧ s'.isopen .write = false then { s' with freed := true } else s'

/-- A process takes `p->lock`. -/
def run (s : State) (p : Proc) : Option State :=
  if s.lockedBy = none then
    match s.pc p with
    | .enter (.write n rest) => some (pipewrite s p n rest)
    | .enter (.read n) => some (piperead s p n)
    | .closing e => some (pipeclose s p e)
    | _ => none
  else none

/-- `sleep`: the process is `SLEEPING` before it releases the lock. -/
def sleep (s : State) (p : Proc) : Option State :=
  match s.pc p with
  | .drowsy call => some { s.setPc p (.asleep call) with lockedBy := none }
  | _ => none

/-- `fileclose` of a descriptor of `p`. -/
def fileclose (s : State) (p : Proc) (e : End) : State :=
  let s' := { s with
    ref := update s.ref e (s.ref e - 1)
    fds := update s.fds e (update (s.fds e) p (s.fds e p - 1)) }
  if 0 < s.ref e - 1 then s' else s'.setPc p (.closing e)

inductive Label where
  /-- A process calls `pipewrite` or `piperead`. -/
  | call (p : Proc) (call : Call)
  | run (p : Proc)
  | sleep (p : Proc)
  | kill (p : Proc)
  /-- `sys_dup` of a descriptor. -/
  | dup (p : Proc) (e : End)
  /-- `fork` or `clone`: the process `q` gets the descriptors of `p`. -/
  | fork (p q : Proc)
  /-- `sys_close` of a descriptor, or one round of the loop in `exit`. -/
  | close (p : Proc) (e : End)

/-- Not in a call. -/
def Pc.isOut : Pc → Bool
  | .out _ => true
  | _ => false

/-- A call as it begins. -/
def Call.begins : Call → Prop
  | .write n rest => rest.length = n
  | .read _ => True

instance (c : Call) : Decidable c.begins := by unfold Call.begins; cases c <;> infer_instance

def next (s : State) : Label → Option State
  | .call p call =>
      if (s.pc p).isOut ∧ 0 < s.fds call.on p ∧ call.begins then some (s.setPc p (.enter call))
      else none
  | .run p => run s p
  | .sleep p => sleep s p
  | .kill p => some { s.setPc p (s.pc p).rouse with killed := update s.killed p true }
  | .dup p e =>
      if (s.pc p).isOut ∧ 0 < s.fds e p then
        some { s with
          ref := update s.ref e (s.ref e + 1)
          fds := update s.fds e (update (s.fds e) p (s.fds e p + 1)) }
      else none
  | .fork p q =>
      if (s.pc p).isOut ∧ (s.pc q).isOut ∧ s.fds .read q = 0 ∧ s.fds .write q = 0 then
        some { s with
          ref := fun e => s.ref e + s.fds e p
          fds := fun e => update (s.fds e) q (s.fds e p)
          killed := update s.killed q false }
      else none
  | .close p e =>
      if (s.pc p).isOut ∧ 0 < s.fds e p then some (fileclose s p e) else none

/-- What `pipealloc` and `sys_pipe` leave. -/
def State.new (p : Proc) (data : Nat → UInt8) (killed : Proc → Bool) : State :=
  { data := data, nread := 0, nwrite := 0, isopen := fun _ => true, freed := false,
    lockedBy := none, ref := fun _ => 1, fds := fun _ => update (fun _ => 0) p 1,
    killed := killed, pc := fun _ => .out 0, got := fun _ => [] }

def system : TSys State Label where
  init s := ∃ p data killed, s = State.new p data killed
  next := next

/-! ## The bytes in the pipe -/

/-- The bytes in the pipe, the next one to be read first. -/
def State.bytes (s : State) : List UInt8 := held s.data pipeSize s.nread s.nwrite

/-- The pipe after a `piperead` of `n` bytes has copied what there is. -/
def State.skip (s : State) (n : Nat) : State :=
  { s with nread := s.nread + BitVec.ofNat 32 (min n s.count) }

/-! ## What a step can do -/

inductive Step (s : State) : Label → State → Prop
  | call {p call} : (s.pc p).isOut = true → 0 < s.fds call.on p → call.begins →
      Step s (.call p call) (s.setPc p (.enter call))
  | writeAll {p n rest} : s.lockedBy = none → s.pc p = .enter (.write n rest) →
      s.count + rest.length ≤ pipeSize →
      Step s (.run p) (((s.puts rest).wakeup .read).setPc p (.out n))
  | writeFail {p n rest k} : s.lockedBy = none → s.pc p = .enter (.write n rest) →
      k < rest.length → s.count + k = pipeSize → s.isopen .read = false ∨ s.killed p = true →
      Step s (.run p) ((s.puts (rest.take k)).setPc p (.out (-1)))
  | writeWait {p n rest k} : s.lockedBy = none → s.pc p = .enter (.write n rest) →
      k < rest.length → s.count + k = pipeSize → s.isopen .read = true →
      Step s (.run p)
        { ((s.puts (rest.take k)).wakeup .read).setPc p (.drowsy (.write n (rest.drop k))) with
          lockedBy := some p }
  | readFail {p n} : s.lockedBy = none → s.pc p = .enter (.read n) → s.empty →
      s.isopen .write = true → s.killed p = true → Step s (.run p) (s.setPc p (.out (-1)))
  | readWait {p n} : s.lockedBy = none → s.pc p = .enter (.read n) → s.empty →
      s.isopen .write = true →
      Step s (.run p) { s.setPc p (.drowsy (.read n)) with lockedBy := some p }
  | readSome {p n} : s.lockedBy = none → s.pc p = .enter (.read n) →
      ¬ s.empty ∨ s.isopen .write = false →
      Step s (.run p)
        { ((s.skip n).wakeup .write).setPc p (.out (s.bytes.take n).length) with
          got := update s.got p (s.bytes.take n) }
  | pipeclose {p e} : s.lockedBy = none → s.pc p = .closing e →
      Step s (.run p) (pipeclose s p e)
  | sleep {p call} : s.pc p = .drowsy call →
      Step s (.sleep p) { s.setPc p (.asleep call) with lockedBy := none }
  | kill {p} : Step s (.kill p)
      { s.setPc p (s.pc p).rouse with killed := update s.killed p true }
  | dup {p e} : (s.pc p).isOut = true → 0 < s.fds e p →
      Step s (.dup p e)
        { s with
          ref := update s.ref e (s.ref e + 1)
          fds := update s.fds e (update (s.fds e) p (s.fds e p + 1)) }
  | fork {p q} : (s.pc p).isOut = true → (s.pc q).isOut = true → (∀ e, s.fds e q = 0) →
      Step s (.fork p q)
        { s with
          ref := fun e => s.ref e + s.fds e p
          fds := fun e => update (s.fds e) q (s.fds e p)
          killed := update s.killed q false }
  | close {p e} : (s.pc p).isOut = true → 0 < s.fds e p → Step s (.close p e) (fileclose s p e)

variable {s s' : State} {a : Label} {p q : Proc} {e : End}

theorem bytes_length : s.bytes.length = s.count := held_length

theorem empty_iff : s.empty ↔ s.bytes = [] := held_eq_nil.symm

theorem full_iff : s.full ↔ s.count = pipeSize :=
  eq_add_cap_iff (by unfold pipeSize; omega)

theorem pipeSize_dvd : pipeSize ∣ 2 ^ 32 := ⟨2 ^ 23, by unfold pipeSize; rfl⟩

theorem put_count (c : UInt8) (h : s.count < pipeSize) : (s.put c).count = s.count + 1 := by
  have hlt : s.count + 1 < 2 ^ 32 := by
    unfold pipeSize at h
    omega
  exact toNat_sub_succ hlt

theorem put_bytes (c : UInt8) (h : s.count < pipeSize) : (s.put c).bytes = s.bytes ++ [c] := by
  have hlt : s.count + 1 < 2 ^ 32 := by
    unfold pipeSize at h
    omega
  exact held_push pipeSize_dvd h hlt c

theorem puts_cons (c : UInt8) (rest : List UInt8) : s.puts (c :: rest) = (s.put c).puts rest :=
  rfl

/-- Storing bytes changes nothing but the ring and its counter. -/
theorem puts_eq (bytes : List UInt8) :
    s.puts bytes = { s with data := (s.puts bytes).data, nwrite := (s.puts bytes).nwrite } := by
  induction bytes generalizing s with
  | nil => rfl
  | cons c rest ih =>
      rw [puts_cons, ih]
      rfl

theorem puts_bytes {bytes : List UInt8} (h : s.count + bytes.length ≤ pipeSize) :
    (s.puts bytes).bytes = s.bytes ++ bytes := by
  induction bytes generalizing s with
  | nil => exact (List.append_nil _).symm
  | cons c rest ih =>
      rw [List.length_cons] at h
      have hlt : s.count < pipeSize := by omega
      rw [puts_cons, ih (by rw [put_count c hlt]; omega), put_bytes c hlt, List.append_assoc]
      rfl

theorem puts_count {bytes : List UInt8} (h : s.count + bytes.length ≤ pipeSize) :
    (s.puts bytes).count = s.count + bytes.length := by
  rw [← bytes_length, puts_bytes h, List.length_append, bytes_length]

/-- `pipewrite` stores what there is room for. -/
theorem pipewrite_cases (p : Proc) (n : Nat) (rest : List UInt8) (h : s.count ≤ pipeSize) :
    (s.count + rest.length ≤ pipeSize ∧
      pipewrite s p n rest = ((s.puts rest).wakeup .read).setPc p (.out n)) ∨
    ∃ k, k < rest.length ∧ s.count + k = pipeSize ∧ pipewrite s p n rest =
      if s.isopen .read = false ∨ s.killed p = true then
        (s.puts (rest.take k)).setPc p (.out (-1))
      else
        { ((s.puts (rest.take k)).wakeup .read).setPc p (.drowsy (.write n (rest.drop k))) with
          lockedBy := some p } := by
  induction rest generalizing s with
  | nil => exact Or.inl ⟨h, rfl⟩
  | cons c rest ih =>
      by_cases hfull : s.full
      · refine Or.inr ⟨0, Nat.succ_pos _, full_iff.mp hfull, ?_⟩
        rw [pipewrite, if_pos hfull]
        rfl
      · have hlt : s.count < pipeSize := Nat.lt_of_le_of_ne h (hfull ∘ full_iff.mpr)
        have hcount := put_count c hlt
        rw [pipewrite, if_neg hfull]
        rcases ih (s := s.put c) (by omega) with ⟨hroom, heq⟩ | ⟨k, hk, hsum, heq⟩
        · refine Or.inl ⟨?_, heq⟩
          rw [List.length_cons]
          omega
        · refine Or.inr ⟨k + 1, Nat.succ_lt_succ hk, by omega, ?_⟩
          rw [heq]
          rfl

/-- The second loop of `piperead` takes the first `n` bytes, or all. -/
theorem take_eq {n : Nat} : take s n =
    ({ s with nread := s.nread + BitVec.ofNat 32 (min n s.count) }, s.bytes.take n) := by
  induction n generalizing s with
  | zero =>
      rw [take, Nat.zero_min, List.take_zero]
      show (s, []) = ({ s with nread := s.nread + 0#32 }, [])
      rw [BitVec.add_zero]
  | succ n ih =>
      rw [take]
      by_cases hempty : s.empty
      · have hcount : s.count = 0 := by
          rw [← bytes_length, empty_iff.mp hempty]
          rfl
        rw [if_pos hempty, hcount, Nat.min_zero, empty_iff.mp hempty]
        show (s, []) = ({ s with nread := s.nread + 0#32 }, [])
        rw [BitVec.add_zero]
      · rw [if_neg hempty]
        have hpop : s.bytes = s.data (s.nread.toNat % pipeSize)
            :: State.bytes { s with nread := s.nread + 1 } := held_pop hempty
        have hcount : s.count = State.count { s with nread := s.nread + 1 } + 1 :=
          toNat_sub_pred hempty
        rw [ih, hpop, List.take_succ_cons, hcount, Nat.succ_min_succ]
        show (({ s with nread := s.nread + 1 + _ } : State), _) = (_, _)
        rw [BitVec.add_assoc, show (1 : BitVec 32) + BitVec.ofNat 32 (min n _)
          = BitVec.ofNat 32 (min n (State.count { s with nread := s.nread + 1 }) + 1) by
            rw [BitVec.ofNat_add]; exact add_comm ..]

theorem skip_bytes (n : Nat) : (s.skip n).bytes = s.bytes.drop n := by
  have hpart : ∀ k, ∀ s : State, k ≤ s.count →
      State.bytes { s with nread := s.nread + BitVec.ofNat 32 k } = s.bytes.drop k := by
    intro k
    induction k with
    | zero =>
        intro s _
        show State.bytes { s with nread := s.nread + 0#32 } = s.bytes
        rw [BitVec.add_zero]
    | succ k ih =>
        intro s hk
        have hempty : ¬ s.empty := by
          rw [empty_iff, ← List.length_eq_zero_iff, bytes_length]
          omega
        have hcount : s.count = State.count { s with nread := s.nread + 1 } + 1 :=
          toNat_sub_pred hempty
        have hpop : s.bytes = s.data (s.nread.toNat % pipeSize)
            :: State.bytes { s with nread := s.nread + 1 } := held_pop hempty
        have hnext := ih { s with nread := s.nread + 1 } (by omega)
        rw [hpop, List.drop_succ_cons, ← hnext, BitVec.ofNat_add]
        congr 2
        show s.nread + (BitVec.ofNat 32 k + 1) = s.nread + 1 + BitVec.ofNat 32 k
        ring
  rw [State.skip, hpart _ s (Nat.min_le_right _ _)]
  rcases Nat.le_total n s.count with hle | hle
  · rw [Nat.min_eq_left hle]
  · rw [Nat.min_eq_right hle, ← bytes_length, List.drop_length,
      List.drop_eq_nil_of_le (bytes_length ▸ hle)]

theorem run_step (hbound : s.count ≤ pipeSize) (h : run s p = some s') : Step s (.run p) s' := by
  obtain ⟨hlock, h⟩ := Option.ite_none_right_eq_some.mp h
  split at h
  · next n rest hpc =>
      obtain rfl := Option.some.inj h
      rcases pipewrite_cases p n rest hbound with ⟨hroom, heq⟩ | ⟨k, hk, hsum, heq⟩
      · rw [heq]
        exact .writeAll hlock hpc hroom
      · rw [heq]
        split
        · next hfail => exact .writeFail hlock hpc hk hsum hfail
        · next hwait =>
            exact .writeWait hlock hpc hk hsum (Bool.not_eq_false _ ▸ (not_or.mp hwait).1)
  · next n hpc =>
      obtain rfl := Option.some.inj h
      unfold piperead
      split
      · next hwait =>
          split
          · next hkilled => exact .readFail hlock hpc hwait.1 hwait.2 hkilled
          · exact .readWait hlock hpc hwait.1 hwait.2
      · next hsome =>
          rw [take_eq]
          refine .readSome hlock hpc ?_
          rcases not_and_or.mp hsome with hne | hclosed
          · exact Or.inl hne
          · exact Or.inr (Bool.not_eq_true _ ▸ hclosed)
  · next e hpc =>
      obtain rfl := Option.some.inj h
      exact .pipeclose hlock hpc
  · cases h

/-- Everything that a step can do. -/
theorem next_step (hbound : s.count ≤ pipeSize) (h : next s a = some s') : Step s a s' := by
  cases a with
  | call p call =>
      obtain ⟨⟨hout, hfd, hbegins⟩, hs⟩ := Option.ite_none_right_eq_some.mp h
      obtain rfl := Option.some.inj hs
      exact .call hout hfd hbegins
  | run p => exact run_step hbound h
  | sleep p =>
      change sleep s p = some s' at h
      unfold sleep at h
      split at h
      · next hpc =>
          obtain rfl := Option.some.inj h
          exact .sleep hpc
      · cases h
  | kill p =>
      obtain rfl := Option.some.inj h
      exact .kill
  | dup p e =>
      obtain ⟨⟨hout, hfd⟩, hs⟩ := Option.ite_none_right_eq_some.mp h
      obtain rfl := Option.some.inj hs
      exact .dup hout hfd
  | fork p q =>
      obtain ⟨⟨hp, hq, hr, hw⟩, hs⟩ := Option.ite_none_right_eq_some.mp h
      obtain rfl := Option.some.inj hs
      refine .fork hp hq fun e => ?_
      cases e with
      | read => exact hr
      | write => exact hw
  | close p e =>
      obtain ⟨⟨hout, hfd⟩, hs⟩ := Option.ite_none_right_eq_some.mp h
      obtain rfl := Option.some.inj hs
      exact .close hout hfd

end Os377.Xv6.Pipe
