import Os377.Lib.Bytes
import Os377.Lib.Links
import Os377.Lib.TSys

/-!
# The p5 allocator

`my_malloc.cpp` on the bytes of its heap. Free nodes (`size`, `next`), headers
of allocated blocks (`size`, `magic`) and the data of the caller overlay the
same 4096 bytes; `sizeof(node_t) = sizeof(header_t) = 16`.

Arithmetic on `size_t` and on pointers is modulo 2^64 (`wrap`). An access
outside the mapped page, a failed `assert` and a traversal that does not end
are faults.
-/

namespace Os377.Malloc

open Os377.Lib Function

/-- `MAGIC`. -/
def magic : Nat := 0xDEADBEEF

inductive Fault where
  | unmapped
  | assertion
  | endless
  deriving DecidableEq, Repr

/-- What `mmap(NULL, HEAP_SIZE, ...)` returns: a page of user space. -/
structure Page where
  addr : Nat
  addr_pos : 0 < addr
  addr_lt : addr + 4096 < 18446744073709551616

/-- A page to evaluate runs on. -/
def Page.sample : Page := ⟨4096, by decide, by decide⟩

/-- The memory, the page that was mapped last, and the global `head`. -/
structure Heap where
  mem : Mem
  page : Page
  head : Nat

/-- Arithmetic modulo 2^64. -/
def wrap (i : Int) : Nat := (i % 18446744073709551616).toNat

namespace Heap

variable (s : Heap)

def Mapped (a n : Nat) : Prop := s.page.addr ≤ a ∧ a + n ≤ s.page.addr + 4096

instance (a n : Nat) : Decidable (s.Mapped a n) := inferInstanceAs (Decidable (_ ∧ _))

/-- Read `n` bytes. -/
def load (a n : Nat) : Except Fault Nat :=
  if s.Mapped a n then .ok (getLe s.mem a n) else .error .unmapped

def put (a n v : Nat) : Heap := { s with mem := putLe s.mem a n v }

/-- Write `n` bytes. -/
def store (a n v : Nat) : Except Fault Heap :=
  if s.Mapped a n then .ok (s.put a n v) else .error .unmapped

@[simp] theorem put_mem (a n v : Nat) : (s.put a n v).mem = putLe s.mem a n v := rfl

/-- `n->size`. -/
def size (n : Nat) : Nat := getLe s.mem n 8

/-- `n->next`. -/
def next (n : Nat) : Nat := getLe s.mem (n + 8) 8

end Heap

/-- A zeroed page with one free node. -/
def mapped (mem : Mem) (page : Page) : Heap where
  mem := putLe (putLe (splice mem page.addr 4096 fun _ => 0) page.addr 8 (4096 - 16))
    (page.addr + 8) 8 0
  page := page
  head := page.addr

/-- `heap()`; `page` is what `mmap` returns if it is called. -/
def heap (s : Heap) (page : Page) : Heap := if s.head = 0 then mapped s.mem page else s

/-- More nodes than a page has addresses: a longer traversal does not end. -/
def traversal : Nat := 4097

/-- The loop of `find_free`: `found` and `previous`, if a node is found. -/
def findFreeLoop (s : Heap) (size : Nat) : Nat → Nat → Nat → Except Fault (Option (Nat × Nat))
  | 0, _, _ => .error .endless
  | fuel + 1, p, prev =>
      if p = 0 then .ok none
      else do
        let psize ← s.load p 8
        if psize ≥ wrap (size + 16 + 16) then .ok (some (p, prev))
        else do
          let pnext ← s.load (p + 8) 8
          findFreeLoop s size fuel pnext p

/-- `find_free(size, &found, &previous)`, after `heap()`. -/
def findFree (s : Heap) (size : Nat) : Except Fault (Option (Nat × Nat)) :=
  findFreeLoop s size traversal s.head 0

/-- `head = (*free_block)`, or `(*previous)->next = (*free_block)`. -/
def link (s : Heap) (previous freeBlock : Nat) : Except Fault Heap :=
  if previous = 0 then .ok { s with head := freeBlock }
  else s.store (previous + 8) 8 freeBlock

/-- `split(size, &previous, &free_block, &allocated)`. The `next` of the new
free node is never set. -/
def split (s : Heap) (size previous freeBlock : Nat) : Except Fault (Heap × Nat) :=
  if freeBlock = 0 then .error .assertion
  else do
    let original := freeBlock
    let actualSize := wrap (size + 16)
    let freeBlock := wrap (freeBlock + actualSize)
    let osize ← s.load original 8
    let s ← s.store freeBlock 8 (wrap ((osize : Int) - size - 16))
    let s ← link s previous freeBlock
    let s ← s.store original 8 size
    let s ← s.store (original + 8) 4 magic
    .ok (s, original)

/-- `my_malloc(size)`: the heap and the returned pointer (`0` is `NULL`). -/
def myMalloc (s : Heap) (page : Page) (size : Nat) : Except Fault (Heap × Nat) := do
  let s := heap s page
  match ← findFree s size with
  | none => .ok (s, 0)
  | some (found, previous) => do
      let (s, allocated) ← split s size previous found
      .ok (s, wrap (allocated + 16))

/-- The node `p` takes over its successor if the two are neighbours. -/
def mergeNext (s : Heap) (p psize pnext : Nat) : Except Fault Heap :=
  if wrap (p + wrap (psize + 16)) = pnext then do
    let nsize ← s.load pnext 8
    let s ← s.store p 8 (wrap (psize + wrap (nsize + 16)))
    let nnext ← s.load (pnext + 8) 8
    s.store (p + 8) 8 nnext
  else .ok s

/-- The loop of `coalesce`. -/
def coalesceLoop : Nat → Heap → Nat → Except Fault Heap
  | 0, _, _ => .error .endless
  | fuel + 1, s, p =>
      if p = 0 then .ok s
      else do
        let pnext ← s.load (p + 8) 8
        if pnext = 0 then .ok s
        else do
          let psize ← s.load p 8
          let s ← mergeNext s p psize pnext
          let p' ← s.load (p + 8) 8
          coalesceLoop fuel s p'

/-- `coalesce(free_block)`. -/
def coalesce (s : Heap) (freeBlock : Nat) : Except Fault Heap :=
  coalesceLoop traversal s freeBlock

/-- `my_free(allocated)`. -/
def myFree (s : Heap) (allocated : Nat) : Except Fault Heap := do
  let p := wrap ((allocated : Int) - 16)
  let m ← s.load (p + 8) 4
  if m ≠ magic then .error .assertion
  else do
    let psize ← s.load p 8
    let s ← s.store p 8 (wrap ((psize : Int) + 16 - 16))
    let s ← s.store (p + 8) 8 s.head
    coalesce { s with head := p } p

/-- A program that uses the allocator, with the blocks it holds: the address
of the header and the size it asked for. -/
structure State where
  heap : Heap
  live : List (Nat × Nat)

/-- The calls, and a byte written by the program at `p + i`. -/
inductive Act where
  | malloc (size : Nat) (page : Page)
  | free (p : Nat)
  | write (p i : Nat) (byte : UInt8)

/-- One call. -/
def next (s : State) : Act → Option State
  | .malloc size page =>
      match myMalloc s.heap page size with
      | .error _ => none
      | .ok (h, p) => some ⟨h, if p = 0 then s.live else (p - 16, size) :: s.live⟩
  | .free p =>
      match myFree s.heap p with
      | .error _ => none
      | .ok h => some ⟨h, s.live.filter fun b => b.1 ≠ p - 16⟩
  | .write p i byte =>
      some { s with heap := { s.heap with mem := update s.heap.mem (p + i) byte } }

/-- What the program may do: sizes that do not overflow, and only pointers it
holds. -/
def Legal (s : State) : Act → Prop
  | .malloc size _ => size + 32 < 18446744073709551616
  | .free p => ∃ b ∈ s.live, p = b.1 + 16
  | .write p i _ => ∃ b ∈ s.live, p = b.1 + 16 ∧ i < b.2

instance (s : State) (a : Act) : Decidable (Legal s a) := by
  cases a <;> unfold Legal <;> infer_instance

/-- Programs on the heap that `heap()` builds. -/
def calls : TSys State Act where
  init s := ∃ mem page, s = ⟨mapped mem page, []⟩
  next := next

end Os377.Malloc
