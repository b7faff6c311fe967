import Mathlib.Logic.Function.Basic
import Os377.Lib.Circles
import Os377.Lib.Intervals
import Os377.Lib.WrapInt

/-!
# The allocator of the xv6 user programs

`malloc`, `free` and `morecore` of `umalloc.c`. The free blocks form a circle through their
headers, in the order of their addresses, with `base` in front of all of them; a block is a
header and as many further units as its size says. Addresses are numbers of bytes. `sbrk`
hands out memory behind everything that is there, as long as it stays below `KERNBASE`, and
takes back what is behind the new break, whatever it holds.
-/

namespace Os377.Xv6.Umalloc

open Os377.Lib

structure Header where
  ptr : Nat
  size : Nat
  deriving DecidableEq, Repr

/-- `sizeof(Header)` -/
def unit : Nat := 8

/-- `KERNBASE` -/
def kernbase : Nat := 0x80000000

structure Heap where
  mem : Nat → Header
  /-- `&base` -/
  base : Nat
  /-- 0 for a null pointer -/
  freep : Nat
  /-- `proc->sz` -/
  brk : Nat

namespace Heap

variable (h : Heap)

def ptr (p : Nat) : Nat := (h.mem p).ptr

def size (p : Nat) : Nat := (h.mem p).size

def setPtr (p q : Nat) : Heap :=
  { h with mem := Function.update h.mem p { h.mem p with ptr := q } }

def setSize (p n : Nat) : Heap :=
  { h with mem := Function.update h.mem p { h.mem p with size := n } }

end Heap

/-- `sbrk(n)`: the old break, or -1. To grow, the kernel has the pages or not (`ok`). A break
below 0 wraps around to one behind the old, which `deallocuvm` leaves alone; and where the
new one is 0, `growproc` takes it for a failure. -/
def sbrk (h : Heap) (ok : Bool) (n : Int) : Option Nat × Heap :=
  let sz : Int := h.brk + n
  if ok = false ∧ 0 < n then (none, h)
  else if 0 < n ∧ kernbase ≤ sz then (none, h)
  else if sz < 0 then (some h.brk, h)
  else if n < 0 ∧ sz = 0 then (none, h)
  else (some h.brk, { h with brk := sz.toNat })

/-- Where the block `bp` belongs in the circle. -/
def findPlace (h : Heap) (bp : Nat) : Nat → Nat → Option Nat
  | 0, _ => none
  | n + 1, p =>
      if bp > p ∧ bp < h.ptr p then some p
      else if p ≥ h.ptr p ∧ (bp > p ∨ bp < h.ptr p) then some p
      else findPlace h bp n (h.ptr p)

/-- `bp` joins what follows `p`, or leads to it. -/
def joinNext (h : Heap) (p bp : Nat) : Heap :=
  if bp + unit * h.size bp = h.ptr p then
    (h.setSize bp (h.size bp + h.size (h.ptr p))).setPtr bp (h.ptr (h.ptr p))
  else h.setPtr bp (h.ptr p)

/-- `p` joins `bp`, or leads to it. -/
def joinPrev (h : Heap) (p bp : Nat) : Heap :=
  if p + unit * h.size p = bp then
    (h.setSize p (h.size p + h.size bp)).setPtr p (h.ptr bp)
  else h.setPtr p bp

/-- More steps than there are blocks. -/
def Heap.bound (h : Heap) : Nat := h.brk + 1

/-- `free` -/
def free (h : Heap) (ap : Nat) : Option Heap :=
  let bp := ap - unit
  match findPlace h bp h.bound h.freep with
  | none => none
  | some p => some { joinPrev (joinNext h p bp) p bp with freep := p }

/-- `morecore`: the new `freep`, or 0. The bytes are counted in an `unsigned`, and `sbrk` takes
an `int`. -/
def morecore (h : Heap) (ok : Bool) (nu : Nat) : Option (Nat × Heap) :=
  let nu := if nu < 4096 then 4096 else nu
  match sbrk h ok (wrap (nu * unit : Nat)) with
  | (none, h) => some (0, h)
  | (some hp, h) =>
      match free (h.setSize hp nu) (hp + unit) with
      | none => none
      | some h => some (h.freep, h)

/-- The block `p` behind `prevp`, or its upper part. -/
def take (h : Heap) (nunits prevp p : Nat) : Nat × Heap :=
  if h.size p = nunits then (p + unit, { h.setPtr prevp (h.ptr p) with freep := prevp })
  else
    let h := h.setSize p (h.size p - nunits)
    let p := p + unit * h.size p
    (p + unit, { h.setSize p nunits with freep := prevp })

/-- The loop of `malloc`. -/
def search (ok : Bool) (nunits : Nat) : Nat → Heap → Nat → Nat → Option (Nat × Heap)
  | 0, _, _, _ => none
  | n + 1, h, prevp, p =>
      if h.size p ≥ nunits then some (take h nunits prevp p)
      else if p = h.freep then
        match morecore h ok nunits with
        | none => none
        | some (p, h) => if p = 0 then some (0, h) else search ok nunits n h p (h.ptr p)
      else search ok nunits n h p (h.ptr p)

def units (nbytes : Nat) : Nat := (nbytes + unit - 1) % 2 ^ 32 / unit + 1

/-- `malloc`: the pointer, or 0. -/
def malloc (h : Heap) (ok : Bool) (nbytes : Nat) : Option (Nat × Heap) :=
  let h := if h.freep = 0 then
    { (h.setPtr h.base h.base).setSize h.base 0 with freep := h.base } else h
  search ok (units nbytes) (2 * h.bound) h h.freep (h.ptr h.freep)

end Os377.Xv6.Umalloc
