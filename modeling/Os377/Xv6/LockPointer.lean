import Os377.Xv6.Growth

/-!
# The pointers of the ticket-lock system calls

`sys_initlock_t`, `sys_acquire_t` and `sys_release_t` (`sysproc.c`) fetch the address of a
`struct ticketlock` with `argptr` and hand it to `initlock_t`, `acquire_t` or `release_t`.
They pass `sizeof(struct ticketlock*)`, the size of the pointer, where `argptr` wants the
size of the block, as `sys_fstat` (`sizeof(*st)`) and `sys_pipe` (`2*sizeof(fd[0])`) pass it.

* `argptr_eq_some` — what `argptr` accepts, sums modulo `2 ^ 32` included;
* `Straddles` — the locks that lie across `sz` and are accepted nevertheless;
* `lock_within_iff` — a call stays within the memory of its process exactly if its
  argument does not straddle.
-/

namespace Os377.Xv6

open Os377.Lib Function

/-! ## The structure -/

/-- The fields of `struct ticketlock`. -/
inductive LockField where
  | ticket
  | turn
  | proc
  deriving DecidableEq, Repr

/-- Every field is a word: `uint`, `uint`, `struct proc *`. -/
def wordSize : Nat := 4

def LockField.offset : LockField → Nat
  | .ticket => 0
  | .turn => 4
  | .proc => 8

/-- `sizeof(struct ticketlock)` -/
def sizeofTicketlock : Nat := 12

/-- The functions of `proc.c` that get the address of a lock. -/
inductive LockFn where
  | initlockT
  | acquireT
  | releaseT
  deriving DecidableEq, Repr

/-- The fields a function reads or writes, in the order of its text. -/
def LockFn.accesses : LockFn → List LockField
  | .initlockT => [.ticket, .turn, .proc]
  -- `holding_t`, `fetch_and_add`, the spin loop, the store
  | .acquireT => [.proc, .ticket, .turn, .ticket, .turn, .proc]
  -- `holding_t`, the store, the increment
  | .releaseT => [.proc, .ticket, .turn, .proc, .turn]

/-! ## The system calls -/

/-- `sizeof(struct ticketlock*)` -/
def sizeofPointer : BitVec 32 := 4

theorem sizeofPointer_toNat : sizeofPointer.toNat = 4 := rfl

/-- The common text of the three calls; `none` is `return -1`, and `some` is the function
called with its argument. -/
def sysLock (fn : LockFn) (sz esp : Addr) (word : Addr → BitVec 32) : Option (LockFn × Addr) :=
  (argptr sz esp word 0 sizeofPointer).map fun tl => (fn, tl)

def sysInitlockT : Addr → Addr → (Addr → BitVec 32) → Option (LockFn × Addr) :=
  sysLock .initlockT

def sysAcquireT : Addr → Addr → (Addr → BitVec 32) → Option (LockFn × Addr) :=
  sysLock .acquireT

def sysReleaseT : Addr → Addr → (Addr → BitVec 32) → Option (LockFn × Addr) :=
  sysLock .releaseT

/-- The entry of a function in the table of system calls. -/
def LockFn.sys : LockFn → Addr → Addr → (Addr → BitVec 32) → Option (LockFn × Addr)
  | .initlockT => sysInitlockT
  | .acquireT => sysAcquireT
  | .releaseT => sysReleaseT

/-! ## The property and the condition -/

/-- A lock at `tl` lies below `sz`, and with it every word that `fn` reads or writes. -/
structure LockWithin (sz : Addr) (fn : LockFn) (tl : Addr) : Prop where
  whole : tl.toNat + sizeofTicketlock ≤ sz.toNat
  accessed : ∀ f ∈ fn.accesses, tl.toNat + f.offset + wordSize ≤ sz.toNat

/-- The word of `sizeofPointer` bytes at `i` passes for a block below `sz`, but a lock there
ends above: the word ends at or below `sz` and the lock above, or the end of the word
wraps. -/
def Straddles (sz i : Addr) : Prop :=
  i.toNat + sizeofPointer.toNat ≤ sz.toNat ∧ sz.toNat < i.toNat + sizeofTicketlock ∨
    i < sz ∧ i + sizeofPointer < i

instance (sz i : Addr) : Decidable (Straddles sz i) := inferInstanceAs (Decidable (_ ∨ _))

/-- The address of the first argument. -/
def argAddr (esp : Addr) : Addr := esp + 4

/-- `fetchint` does not refuse the address. -/
def Fetchable (sz addr : Addr) : Prop := addr < sz ∧ addr + 4 ≤ sz

/-! ## `argptr` -/

section Argptr

variable {sz esp i addr : Addr} {word : Addr → BitVec 32} {size : BitVec 32}

theorem fetchint_eq_some : fetchint sz word addr = some i ↔ Fetchable sz addr ∧ word addr = i := by
  rw [fetchint, Option.ite_none_left_eq_some, Option.some.injEq, not_or, BitVec.not_le,
    BitVec.not_lt, Fetchable]

/-- The first argument. -/
theorem argint_eq_some :
    argint sz esp word 0 = some i ↔ Fetchable sz (argAddr esp) ∧ word (argAddr esp) = i := by
  have haddr : esp + 4 + 4 * 0 = argAddr esp := by
    rw [argAddr]
    exact BitVec.add_zero (esp + 4)
  rw [argint, haddr]
  exact fetchint_eq_some

/-- **What `argptr` accepts.** The sum may wrap. -/
theorem argptr_eq_some (hsize : 0 ≤ size.toInt) :
    argptr sz esp word 0 size = some i ↔
      Fetchable sz (argAddr esp) ∧ word (argAddr esp) = i ∧ i < sz ∧ i + size ≤ sz := by
  have hnonneg : ¬ size.toInt < 0 := not_lt.mpr hsize
  rw [argptr, Option.bind_eq_some_iff]
  constructor
  · rintro ⟨j, hj, hguard⟩
    rw [Option.ite_none_left_eq_some, Option.some.injEq] at hguard
    obtain ⟨hguard, rfl⟩ := hguard
    rw [not_or, not_or, BitVec.not_le, BitVec.not_lt] at hguard
    obtain ⟨hfetch, hword⟩ := argint_eq_some.mp hj
    exact ⟨hfetch, hword, hguard.2.1, hguard.2.2⟩
  · rintro ⟨hfetch, hword, hbelow, hend⟩
    refine ⟨i, argint_eq_some.mpr ⟨hfetch, hword⟩, ?_⟩
    rw [Option.ite_none_left_eq_some, not_or, not_or, BitVec.not_le, BitVec.not_lt]
    exact ⟨⟨hnonneg, hbelow, hend⟩, rfl⟩

end Argptr

/-! ## The locks that are accepted -/

section Accepted

variable {sz esp i tl : Addr} {word : Addr → BitVec 32} {fn : LockFn}

/-- A block of the pointer's size is accepted: the lock fits, or it straddles. -/
theorem accepted_iff : i < sz ∧ i + sizeofPointer ≤ sz ↔
    i.toNat + sizeofTicketlock ≤ sz.toNat ∨ Straddles sz i := by
  have hsz := sz.isLt
  have hi := i.isLt
  simp only [Straddles, BitVec.lt_def, BitVec.le_def, BitVec.toNat_add, sizeofPointer_toNat,
    sizeofTicketlock]
  omega

/-- The two exclude one another. -/
theorem Straddles.not_fits (h : Straddles sz i) : ¬ i.toNat + sizeofTicketlock ≤ sz.toNat := by
  have hsz := sz.isLt
  have hi := i.isLt
  simp only [Straddles, BitVec.lt_def, BitVec.toNat_add, sizeofPointer_toNat,
    sizeofTicketlock] at h ⊢
  omega

theorem lockWithin_iff : LockWithin sz fn tl ↔ tl.toNat + sizeofTicketlock ≤ sz.toNat := by
  refine ⟨LockWithin.whole, fun h => ⟨h, fun f _ => ?_⟩⟩
  have hfield : f.offset + wordSize ≤ sizeofTicketlock := by
    cases f <;> decide
  omega

/-- The three calls differ in the function they call only. -/
theorem sys_eq_some {called : LockFn × Addr} : fn.sys sz esp word = some called ↔
    called.1 = fn ∧ argptr sz esp word 0 sizeofPointer = some called.2 := by
  have hsys : fn.sys = sysLock fn := by
    cases fn <;> rfl
  obtain ⟨fn', tl⟩ := called
  rw [hsys, sysLock, Option.map_eq_some_iff]
  constructor
  · rintro ⟨tl', hptr, heq⟩
    obtain ⟨rfl, rfl⟩ := Prod.mk.inj heq
    exact ⟨rfl, hptr⟩
  · rintro ⟨rfl, hptr⟩
    exact ⟨tl, hptr, rfl⟩

/-- **A lock system call stays within its process** exactly if its argument, where it can
be fetched, does not straddle `sz`. -/
theorem lock_within_iff (fn : LockFn) (sz esp : Addr) (word : Addr → BitVec 32) :
    (∀ called, fn.sys sz esp word = some called → LockWithin sz called.1 called.2) ↔
      (Fetchable sz (argAddr esp) → ¬ Straddles sz (word (argAddr esp))) := by
  have haccept : ∀ tl, argptr sz esp word 0 sizeofPointer = some tl ↔
      Fetchable sz (argAddr esp) ∧ word (argAddr esp) = tl ∧ tl < sz ∧ tl + sizeofPointer ≤ sz :=
    fun tl => argptr_eq_some (by decide)
  constructor
  · intro hcalls hfetch hstraddles
    have hptr := (haccept _).mpr ⟨hfetch, rfl, accepted_iff.mpr (Or.inr hstraddles)⟩
    have hwithin := hcalls (fn, _) (sys_eq_some.mpr ⟨rfl, hptr⟩)
    exact hstraddles.not_fits hwithin.whole
  · rintro hcond ⟨fn', tl⟩ hcall
    obtain ⟨-, hptr⟩ := sys_eq_some.mp hcall
    obtain ⟨hfetch, hword, hbelow⟩ := (haccept tl).mp hptr
    refine lockWithin_iff.mpr ?_
    rcases accepted_iff.mp hbelow with hfits | hstraddles
    · exact hfits
    · exact absurd (hword ▸ hstraddles) (hcond hfetch)

/-- A process of one page passes the address of its last word: each of the three functions
gets it, and the lock ends 8 bytes above the page. -/
theorem lock_past_end : ∃ word : Addr → BitVec 32,
    (∀ fn : LockFn, fn.sys 4096 4080 word = some (fn, 4092)) ∧
    ∀ fn, ¬ LockWithin 4096 fn 4092 := by
  refine ⟨update (fun _ => 0) 4084 4092, ?_, fun fn h => ?_⟩
  · intro fn
    cases fn <;> decide
  · have hfits := h.whole
    exact absurd hfits (by decide)

end Accepted

end Os377.Xv6
