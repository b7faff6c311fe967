import Os377.Lib.Bytes
import Os377.Lib.RedoLog
import Os377.Lib.TSys
import Os377.Xv6.ProcTable

/-!
# The xv6 log

`log.c`, for any interleaving of the file-system calls of the processes, with crashes
at any point, also during a commit and during a recovery.

A region under `log.lock` is one step, and so is a copy of one block to the disk; the
two tests of `log_write` are made before the lock is taken and are a step of their own.
A process of the file system reads and holds any number of buffers, and stores into one
it holds only to call `log_write` on it next, as all of `fs.c` does.

The buffer cache is seen through `bread`, `bwrite` and `brelse`: a block is cached or
not, a cached block is `B_DIRTY` or not, and a block that is not `B_DIRTY` can be
recycled whenever nobody holds its buffer. Blocks are byte-addressed, so the log header
is the bytes that `write_head` stores and `read_head` loads.

`next_step` says what a step can do (`Step`); the invariants are derived from it.
-/

namespace Os377.Xv6

open Os377.Lib Function

/-- A disk block; only its first `BSIZE` bytes are ever accessed. -/
abbrev Block := Mem

/-- `MAXOPBLOCKS` of `param.h`. -/
def maxOpBlocks : Nat := 10

/-- `LOGSIZE` of `param.h`. -/
def logSize : Nat := maxOpBlocks * 3

/-- `FSSIZE` of `param.h`. -/
def fsSize : Nat := 1000

namespace Log

/-! ## The header block -/

/-- `lh->n` and `lh->block[0..n)` of the header in `m`, as `read_head` copies them. -/
def readHeader (m : Block) : List Nat :=
  (List.range (getInt m 0).toNat).map fun i => (getInt m (4 + 4 * i)).toNat

/-- The loop of `write_head`, from the entry `i` on. -/
def storeBlocks (m : Block) (i : Nat) : List Nat → Block
  | [] => m
  | b :: rest => storeBlocks (putInt m (4 + 4 * i) b) (i + 1) rest

/-- What `write_head` makes of the header block `m`; it leaves the entries behind `n`. -/
def writeHeader (m : Block) (blocks : List Nat) : Block :=
  storeBlocks (putInt m 0 blocks.length) 0 blocks

theorem storeBlocks_before {m : Block} {i x : Nat} {blocks : List Nat} (h : x + 4 ≤ 4 + 4 * i) :
    getInt (storeBlocks m i blocks) x = getInt m x := by
  induction blocks generalizing m i with
  | nil => rfl
  | cons b rest ih =>
      rw [storeBlocks, ih (by omega)]
      exact getInt_putInt_of_disjoint (by omega)

theorem storeBlocks_entry {m : Block} {i k : Nat} {blocks : List Nat}
    (hb : ∀ b ∈ blocks, b < 2 ^ 31) (hk : k < blocks.length) :
    getInt (storeBlocks m i blocks) (4 + 4 * (i + k)) = blocks[k] := by
  induction blocks generalizing m i k with
  | nil => exact absurd hk (Nat.not_lt_zero k)
  | cons b rest ih =>
      rw [storeBlocks]
      cases k with
      | zero =>
          have hlt := hb b List.mem_cons_self
          rw [storeBlocks_before (by omega), Nat.add_zero, getInt_putInt (by omega) (by omega)]
          rfl
      | succ k =>
          have hrest : ∀ c ∈ rest, c < 2 ^ 31 := fun c hc => hb c (List.mem_cons_of_mem b hc)
          rw [show 4 + 4 * (i + (k + 1)) = 4 + 4 * (i + 1 + k) by omega]
          exact ih hrest (Nat.lt_of_succ_lt_succ hk)

/-- The header reads back as it was written. -/
theorem readHeader_writeHeader {m : Block} {blocks : List Nat} (hb : ∀ b ∈ blocks, b < 2 ^ 31)
    (hn : blocks.length < 2 ^ 31) : readHeader (writeHeader m blocks) = blocks := by
  have hcount : getInt (writeHeader m blocks) 0 = blocks.length := by
    rw [writeHeader, storeBlocks_before (by omega), getInt_putInt (by omega) (by omega)]
  rw [readHeader, hcount, Int.toNat_natCast]
  apply List.ext_getElem
  · rw [List.length_map, List.length_range]
  · intro k hk hk'
    have hentry := storeBlocks_entry (m := putInt m 0 blocks.length) (i := 0) hb hk'
    rw [Nat.zero_add] at hentry
    rw [List.getElem_map, List.getElem_range, writeHeader, hentry, Int.toNat_natCast]

theorem readHeader_zero : readHeader (fun _ => 0) = [] := by
  rw [readHeader, getInt_zero]
  rfl

/-! ## The state -/

/-- The fields of `struct superblock` that `initlog` reads. -/
structure Super where
  logstart : Nat
  nlog : Nat
  deriving DecidableEq, Repr

/-- The blocks outside of the log. -/
def Home (sb : Super) (b : Nat) : Prop :=
  b < fsSize ∧ (b < sb.logstart ∨ sb.logstart + sb.nlog ≤ b)

instance (sb : Super) (b : Nat) : Decidable (Home sb b) := by unfold Home; infer_instance

/-- A cached block: `data` and the flag `B_DIRTY`. -/
structure Buf where
  data : Block
  dirty : Bool

/-- Where a process stands. `wrote` are the blocks that its operation has logged. -/
inductive Pc where
  /-- Not between `begin_op` and `end_op`. -/
  | idle
  /-- `sleep(&log, &log.lock)` in `begin_op` -/
  | asleep
  /-- Woken there, and about to test again. -/
  | woken
  /-- Between `begin_op` and `end_op`. -/
  | op (wrote : List Nat)
  /-- Has stored into the buffer of `b`, and calls `log_write`. -/
  | stored (wrote : List Nat) (b : Nat)
  /-- Past the two tests of `log_write`. -/
  | checked (wrote : List Nat) (b : Nat)
  /-- In `commit`, called by `end_op`. -/
  | committing
  deriving DecidableEq, Repr

/-- In an operation: counted in `log.outstanding`. -/
def Pc.inOp : Pc → Bool
  | .op _ | .stored _ _ | .checked _ _ => true
  | _ => false

/-- How far a commit is. -/
inductive CommitStep where
  /-- `write_log`, before the entry `tail`; behind the last one, `write_head`. -/
  | writeLog (tail : Nat)
  /-- `install_trans`, before the entry `tail`; behind the last one, the second `write_head`. -/
  | install (tail : Nat)
  /-- Back in `end_op`, before `log.committing = 0`. -/
  | finish
  deriving DecidableEq, Repr

/-- How far `recover_from_log` is. -/
inductive BootStep where
  | readHead
  | install (tail : Nat)
  deriving DecidableEq, Repr

/-- The disk, the buffer cache and `struct log`. `log.committing` is set while `commit` is
some step, and `lh` is `log.lh.block[0..log.lh.n)`. A `panic` freezes the machine. -/
structure State where
  disk : Nat → Block
  cache : Nat → Option Buf
  lockedBy : Nat → Option Proc
  outstanding : Nat
  lh : List Nat
  commit : Option CommitStep
  boot : Option BootStep
  pc : Proc → Pc
  panicked : Bool

/-- The machine before `initlog`, with the disk as it is. -/
def State.off (disk : Nat → Block) : State :=
  { disk := disk, cache := fun _ => none, lockedBy := fun _ => none, outstanding := 0, lh := [],
    commit := none, boot := some .readHead, pc := fun _ => .idle, panicked := false }

namespace State

variable (s : State)

/-- The buffer `bread` returns. -/
def buf (b : Nat) : Buf := (s.cache b).getD { data := s.disk b, dirty := false }

/-- `bread` leaves the block cached. -/
def load (b : Nat) : State := { s with cache := update s.cache b (some (s.buf b)) }

/-- `bwrite` of the buffer of `b`, which holds `data`. -/
def bwrite (b : Nat) (data : Block) : State :=
  { s with
    disk := update s.disk b data
    cache := update s.cache b (some { data := data, dirty := false }) }

/-- `memmove(to->data, from->data, BSIZE); bwrite(to);` -/
def copy (src dst : Nat) : State := (s.load src).bwrite dst (s.buf src).data

/-- `write_head` -/
def writeHead (sb : Super) : State :=
  s.bwrite sb.logstart (writeHeader (s.buf sb.logstart).data s.lh)

def setPc (p : Proc) (pc : Pc) : State := { s with pc := update s.pc p pc }

@[simp] theorem setPc_self (p : Proc) (pc : Pc) : (s.setPc p pc).pc p = pc := update_self ..

theorem setPc_of_ne {p q : Proc} (h : q ≠ p) (pc : Pc) : (s.setPc p pc).pc q = s.pc q :=
  update_of_ne h ..

/-- `wakeup(&log)` -/
def wakeup : State :=
  { s with pc := fun q => if s.pc q = .asleep then .woken else s.pc q }

/-- `log.lh.n + (log.outstanding+1)*MAXOPBLOCKS > LOGSIZE` -/
def scarce : Prop := logSize < s.lh.length + (s.outstanding + 1) * maxOpBlocks

instance : Decidable s.scarce := by unfold scarce; infer_instance

/-- The tests of `log_write` that panic. -/
def refused (sb : Super) : Prop :=
  logSize ≤ s.lh.length ∨ sb.nlog - 1 ≤ s.lh.length ∨ s.outstanding < 1

instance (sb : Super) : Decidable (s.refused sb) := by unfold refused; infer_instance

/-- Nobody holds the buffer of `b`. -/
def unlocked (b : Nat) : Prop := s.lockedBy b = none

instance (b : Nat) : Decidable (s.unlocked b) := by unfold unlocked; infer_instance

end State

/-- `begin_op`, one round of the loop. -/
def beginOp (s : State) (p : Proc) : Option State :=
  if s.boot = none ∧ (s.pc p = .idle ∨ s.pc p = .woken) then
    if s.commit ≠ none ∨ s.scarce then some (s.setPc p .asleep)
    else some { s.setPc p (.op []) with outstanding := s.outstanding + 1 }
  else none

/-- A process that is `idle` or in an operation takes the buffer of a block. -/
def bread (s : State) (p : Proc) (b : Nat) : Option State :=
  match s.pc p with
  | .idle | .op _ =>
      if s.boot = none ∧ s.unlocked b then
        some { s.load b with lockedBy := update s.lockedBy b (some p) }
      else none
  | _ => none

def brelse (s : State) (p : Proc) (b : Nat) : Option State :=
  match s.pc p with
  | .idle | .op _ =>
      if s.lockedBy b = some p then some { s with lockedBy := update s.lockedBy b none } else none
  | _ => none

/-- Storing into a buffer, before `log_write`. -/
def store (s : State) (p : Proc) (b : Nat) (data : Block) : Option State :=
  match s.pc p with
  | .op wrote =>
      if s.lockedBy b = some p then
        some { s.setPc p (.stored wrote b) with
          cache := update s.cache b (some { s.buf b with data := data }) }
      else none
  | _ => none

/-- `log_write`: the two tests, then the region under the lock. -/
def logWrite (sb : Super) (s : State) (p : Proc) : Option State :=
  match s.pc p with
  | .stored wrote b =>
      if s.refused sb then some { s with panicked := true }
      else some (s.setPc p (.checked wrote b))
  | .checked wrote b =>
      some { s.setPc p (.op (wrote.insert b)) with
        lh := if b ∈ s.lh then s.lh else s.lh ++ [b]
        cache := update s.cache b (some { s.buf b with dirty := true }) }
  | _ => none

/-- `end_op`, up to the call of `commit`. -/
def endOp (s : State) (p : Proc) : Option State :=
  match s.pc p with
  | .op _ =>
      let s' := { s with outstanding := s.outstanding - 1 }
      if s.commit ≠ none then some { s' with panicked := true }
      else if s'.outstanding = 0 then
        some { s'.setPc p .committing with
          commit := some (if 0 < s.lh.length then .writeLog 0 else .finish) }
      else some (s'.setPc p .idle).wakeup
  | _ => none

/-- The next step of `commit`, and the rest of `end_op`. -/
def commit (sb : Super) (s : State) (p : Proc) : Option State :=
  if s.pc p = .committing then
    match s.commit with
    | some (.writeLog tail) =>
        match s.lh[tail]? with
        | some b =>
            let slot := sb.logstart + tail + 1
            if s.unlocked b ∧ s.unlocked slot then
              some { s.copy b slot with commit := some (.writeLog (tail + 1)) }
            else none
        | none => some { s.writeHead sb with commit := some (.install 0) }
    | some (.install tail) =>
        match s.lh[tail]? with
        | some b =>
            let slot := sb.logstart + tail + 1
            if s.unlocked b ∧ s.unlocked slot then
              some { s.copy slot b with commit := some (.install (tail + 1)) }
            else none
        | none => some { { s with lh := [] }.writeHead sb with commit := some .finish }
    | some .finish => some { (s.setPc p .idle).wakeup with commit := none }
    | none => none
  else none

/-- The next step of `recover_from_log`. -/
def recover (sb : Super) (s : State) : Option State :=
  match s.boot with
  | some .readHead =>
      some { s.load sb.logstart with
        lh := readHeader (s.buf sb.logstart).data, boot := some (.install 0) }
  | some (.install tail) =>
      match s.lh[tail]? with
      | some b => some { s.copy (sb.logstart + tail + 1) b with boot := some (.install (tail + 1)) }
      | none => some { { s with lh := [] }.writeHead sb with boot := none }
  | none => none

/-- `bget` recycles the buffer of `b` for another block. -/
def evict (s : State) (b : Nat) : Option State :=
  match s.cache b with
  | some ⟨_, false⟩ =>
      if s.unlocked b then some { s with cache := update s.cache b none } else none
  | _ => none

inductive Label where
  | beginOp (p : Proc)
  | bread (p : Proc) (b : Nat)
  | brelse (p : Proc) (b : Nat)
  | store (p : Proc) (b : Nat) (data : Block)
  | logWrite (p : Proc)
  | endOp (p : Proc)
  | commit (p : Proc)
  | recover
  | evict (b : Nat)
  /-- `kill` wakes a process that sleeps. -/
  | kill (p : Proc)
  | crash

def Label.isCrash : Label → Bool
  | .crash => true
  | _ => false

/-- The steps of a machine that runs. -/
def running (sb : Super) (s : State) : Label → Option State
  | .beginOp p => beginOp s p
  | .bread p b => bread s p b
  | .brelse p b => brelse s p b
  | .store p b data => store s p b data
  | .logWrite p => logWrite sb s p
  | .endOp p => endOp s p
  | .commit p => commit sb s p
  | .recover => recover sb s
  | .evict b => evict s b
  | .kill p => if s.pc p = .asleep then some (s.setPc p .woken) else none
  | .crash => some (State.off s.disk)

/-- A machine that has panicked can only be switched off. -/
def next (sb : Super) (s : State) (a : Label) : Option State :=
  if s.panicked = true ∧ a.isCrash = false then none else running sb s a

/-- The machine that is switched on with the disk `base`. -/
def system (sb : Super) (base : Nat → Block) : TSys State Label where
  init s := s = State.off base
  next := next sb

/-- What `fs.c` promises: it takes only blocks outside of the log, and it logs at most
`budget` different blocks in an operation. -/
def Polite (sb : Super) (budget : Nat) (s : State) : Label → Prop
  | .bread _ b => Home sb b
  | .store p b _ =>
      ∀ wrote, s.pc p = .op wrote → b ∈ wrote ∨ wrote.length < budget
  | _ => True

/-! ## What a step can do -/

section Step

variable (sb : Super)

inductive Step (s : State) : Label → State → Prop
  | enter {p} : s.boot = none → s.pc p = .idle ∨ s.pc p = .woken → s.commit = none →
      ¬ s.scarce →
      Step s (.beginOp p) { s.setPc p (.op []) with outstanding := s.outstanding + 1 }
  | sleep {p} : s.boot = none → s.pc p = .idle ∨ s.pc p = .woken →
      s.commit ≠ none ∨ s.scarce → Step s (.beginOp p) (s.setPc p .asleep)
  | bread {p b} : s.boot = none → s.unlocked b → s.pc p = .idle ∨ (∃ w, s.pc p = .op w) →
      Step s (.bread p b) { s.load b with lockedBy := update s.lockedBy b (some p) }
  | brelse {p b} : s.lockedBy b = some p → s.pc p = .idle ∨ (∃ w, s.pc p = .op w) →
      Step s (.brelse p b) { s with lockedBy := update s.lockedBy b none }
  | store {p b wrote data} : s.pc p = .op wrote → s.lockedBy b = some p →
      Step s (.store p b data)
        { s.setPc p (.stored wrote b) with
          cache := update s.cache b (some { s.buf b with data := data }) }
  | tooBig {p wrote b} : s.pc p = .stored wrote b → s.refused sb →
      Step s (.logWrite p) { s with panicked := true }
  | check {p wrote b} : s.pc p = .stored wrote b → ¬ s.refused sb →
      Step s (.logWrite p) (s.setPc p (.checked wrote b))
  | append {p wrote b} : s.pc p = .checked wrote b →
      Step s (.logWrite p)
        { s.setPc p (.op (wrote.insert b)) with
          lh := if b ∈ s.lh then s.lh else s.lh ++ [b]
          cache := update s.cache b (some { s.buf b with dirty := true }) }
  | endPanic {p wrote} : s.pc p = .op wrote → s.commit ≠ none →
      Step s (.endOp p) { s with outstanding := s.outstanding - 1, panicked := true }
  | endCommit {p wrote} : s.pc p = .op wrote → s.commit = none → s.outstanding - 1 = 0 →
      Step s (.endOp p)
        { { s with outstanding := s.outstanding - 1 }.setPc p .committing with
          commit := some (if 0 < s.lh.length then .writeLog 0 else .finish) }
  | endWake {p wrote} : s.pc p = .op wrote → s.commit = none → s.outstanding - 1 ≠ 0 →
      Step s (.endOp p) ({ s with outstanding := s.outstanding - 1 }.setPc p .idle).wakeup
  | copyOut {p tail b} : s.pc p = .committing → s.commit = some (.writeLog tail) →
      s.lh[tail]? = some b → s.unlocked b → s.unlocked (sb.logstart + tail + 1) →
      Step s (.commit p)
        { s.copy b (sb.logstart + tail + 1) with commit := some (.writeLog (tail + 1)) }
  | commitHead {p tail} : s.pc p = .committing → s.commit = some (.writeLog tail) →
      s.lh[tail]? = none →
      Step s (.commit p) { s.writeHead sb with commit := some (.install 0) }
  | copyHome {p tail b} : s.pc p = .committing → s.commit = some (.install tail) →
      s.lh[tail]? = some b → s.unlocked b → s.unlocked (sb.logstart + tail + 1) →
      Step s (.commit p)
        { s.copy (sb.logstart + tail + 1) b with commit := some (.install (tail + 1)) }
  | clearHead {p tail} : s.pc p = .committing → s.commit = some (.install tail) →
      s.lh[tail]? = none →
      Step s (.commit p) { { s with lh := [] }.writeHead sb with commit := some .finish }
  | finish {p} : s.pc p = .committing → s.commit = some .finish →
      Step s (.commit p) { (s.setPc p .idle).wakeup with commit := none }
  | readHead : s.boot = some .readHead →
      Step s .recover
        { s.load sb.logstart with
          lh := readHeader (s.buf sb.logstart).data, boot := some (.install 0) }
  | reinstall {tail b} : s.boot = some (.install tail) → s.lh[tail]? = some b →
      Step s .recover
        { s.copy (sb.logstart + tail + 1) b with boot := some (.install (tail + 1)) }
  | booted {tail} : s.boot = some (.install tail) → s.lh[tail]? = none →
      Step s .recover { { s with lh := [] }.writeHead sb with boot := none }
  | evict {b data} : s.cache b = some ⟨data, false⟩ → s.unlocked b →
      Step s (.evict b) { s with cache := update s.cache b none }
  | kill {p} : s.pc p = .asleep → Step s (.kill p) (s.setPc p .woken)
  | crash : Step s .crash (State.off s.disk)

variable {sb} {s s' : State} {a : Label}

theorem beginOp_step {p : Proc} (h : beginOp s p = some s') : Step sb s (.beginOp p) s' := by
  unfold beginOp at h
  split at h
  · next hpc =>
      split at h
      · next hwait =>
          obtain rfl := Option.some.inj h
          exact .sleep hpc.1 hpc.2 hwait
      · next hgo =>
          obtain rfl := Option.some.inj h
          obtain ⟨hc, hs⟩ := not_or.mp hgo
          exact .enter hpc.1 hpc.2 (not_not.mp hc) hs
  · cases h

theorem bread_step {p : Proc} {b : Nat} (h : bread s p b = some s') :
    Step sb s (.bread p b) s' := by
  unfold bread at h
  split at h
  · next hpc =>
      obtain ⟨⟨hboot, hfree⟩, hs⟩ := Option.ite_none_right_eq_some.mp h
      obtain rfl := Option.some.inj hs
      exact .bread hboot hfree (Or.inl hpc)
  · next w hpc =>
      obtain ⟨⟨hboot, hfree⟩, hs⟩ := Option.ite_none_right_eq_some.mp h
      obtain rfl := Option.some.inj hs
      exact .bread hboot hfree (Or.inr ⟨w, hpc⟩)
  · cases h

theorem brelse_step {p : Proc} {b : Nat} (h : brelse s p b = some s') :
    Step sb s (.brelse p b) s' := by
  unfold brelse at h
  split at h
  · next hpc =>
      obtain ⟨hlock, hs⟩ := Option.ite_none_right_eq_some.mp h
      obtain rfl := Option.some.inj hs
      exact .brelse hlock (Or.inl hpc)
  · next w hpc =>
      obtain ⟨hlock, hs⟩ := Option.ite_none_right_eq_some.mp h
      obtain rfl := Option.some.inj hs
      exact .brelse hlock (Or.inr ⟨w, hpc⟩)
  · cases h

theorem store_step {p : Proc} {b : Nat} {data : Block} (h : store s p b data = some s') :
    Step sb s (.store p b data) s' := by
  unfold store at h
  split at h
  · next hpc =>
      obtain ⟨hlock, hs⟩ := Option.ite_none_right_eq_some.mp h
      obtain rfl := Option.some.inj hs
      exact .store hpc hlock
  · cases h

theorem logWrite_step {p : Proc} (h : logWrite sb s p = some s') :
    Step sb s (.logWrite p) s' := by
  unfold logWrite at h
  split at h
  · next hpc =>
      split at h
      · next hr =>
          obtain rfl := Option.some.inj h
          exact .tooBig hpc hr
      · next hr =>
          obtain rfl := Option.some.inj h
          exact .check hpc hr
  · next hpc =>
      obtain rfl := Option.some.inj h
      exact .append hpc
  · cases h

theorem endOp_step {p : Proc} (h : endOp s p = some s') : Step sb s (.endOp p) s' := by
  unfold endOp at h
  split at h
  · next hpc =>
      dsimp only at h
      split at h
      · next hc =>
          obtain rfl := Option.some.inj h
          exact .endPanic hpc hc
      · next hc =>
          split at h
          · next hz =>
              obtain rfl := Option.some.inj h
              exact .endCommit hpc (not_not.mp hc) hz
          · next hz =>
              obtain rfl := Option.some.inj h
              exact .endWake hpc (not_not.mp hc) hz
  · cases h

theorem commit_step {p : Proc} (h : commit sb s p = some s') : Step sb s (.commit p) s' := by
  unfold commit at h
  obtain ⟨hpc, h⟩ := Option.ite_none_right_eq_some.mp h
  split at h
  · next tail hc =>
      split at h
      · next b hb =>
          obtain ⟨⟨h1, h2⟩, hs⟩ := Option.ite_none_right_eq_some.mp h
          obtain rfl := Option.some.inj hs
          exact .copyOut hpc hc hb h1 h2
      · next hb =>
          obtain rfl := Option.some.inj h
          exact .commitHead hpc hc hb
  · next tail hc =>
      split at h
      · next b hb =>
          obtain ⟨⟨h1, h2⟩, hs⟩ := Option.ite_none_right_eq_some.mp h
          obtain rfl := Option.some.inj hs
          exact .copyHome hpc hc hb h1 h2
      · next hb =>
          obtain rfl := Option.some.inj h
          exact .clearHead hpc hc hb
  · next hc =>
      obtain rfl := Option.some.inj h
      exact .finish hpc hc
  · cases h

theorem recover_step (h : recover sb s = some s') : Step sb s .recover s' := by
  unfold recover at h
  split at h
  · next hb =>
      obtain rfl := Option.some.inj h
      exact .readHead hb
  · next tail hb =>
      split at h
      · next b hlh =>
          obtain rfl := Option.some.inj h
          exact .reinstall hb hlh
      · next hlh =>
          obtain rfl := Option.some.inj h
          exact .booted hb hlh
  · cases h

theorem evict_step {b : Nat} (h : evict s b = some s') : Step sb s (.evict b) s' := by
  unfold evict at h
  split at h
  · next hbuf =>
      obtain ⟨hfree, hs⟩ := Option.ite_none_right_eq_some.mp h
      obtain rfl := Option.some.inj hs
      exact .evict hbuf hfree
  · cases h

/-- Everything that a step can do. -/
theorem next_step (h : next sb s a = some s') : Step sb s a s' := by
  obtain ⟨-, h⟩ := Option.ite_none_left_eq_some.mp h
  cases a with
  | beginOp p => exact beginOp_step h
  | bread p b => exact bread_step h
  | brelse p b => exact brelse_step h
  | store p b data => exact store_step h
  | logWrite p => exact logWrite_step h
  | endOp p => exact endOp_step h
  | commit p => exact commit_step h
  | recover => exact recover_step h
  | evict b => exact evict_step h
  | kill p =>
      obtain ⟨hpc, hs⟩ := Option.ite_none_right_eq_some.mp h
      obtain rfl := Option.some.inj hs
      exact .kill hpc
  | crash =>
      obtain rfl := Option.some.inj h
      exact .crash

end Step

end Log

end Os377.Xv6
