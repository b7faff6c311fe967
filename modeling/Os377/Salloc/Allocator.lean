import Os377.Lib.Ranges
import Os377.Lib.TSys

/-!
# The simple allocator

`sallocator.cpp` on the list of its `memNode`s. The methods walk the list with
`temp` and relink it in place; a node that is no longer reachable from `head`
is lost. The constructor of `memNode` leaves `next` unset, which is taken as
`NULL`. Following a `NULL` pointer is a fault.

The history variable `allocated` says which bytes of `[0, startingSize)` the
callers hold: `allocate` hands out the lowest bytes of the node it picks.
-/

namespace Os377.Salloc

open Os377.Lib

/-- `memNode`, without its `next`. -/
structure MemNode where
  addr : Int
  len : Int
  deriving DecidableEq, Repr

inductive Fault where
  | nullPointer
  deriving DecidableEq, Repr

/-- What `free` prints when it fails. -/
inductive Message where
  | doubleFree
  | outOfBounds
  | notInRange (start : Int)
  deriving DecidableEq, Repr

def Message.text : Message → String
  | .doubleFree =>
      "Attempting to free memory which is at least partially already free. Aborted."
  | .outOfBounds => "Cannot free memory outside of memory bounds"
  | .notInRange start => "Address to free not in range: " ++ toString start

/-- The list from `head`, the return value, and the message. -/
structure Result where
  nodes : List MemNode
  ret : Bool
  said : Option Message
  deriving DecidableEq, Repr

/-- The first byte behind the node. -/
def MemNode.last (n : MemNode) : Int := n.addr + n.len

/-- The loop of `coalesce` at `temp`. -/
def coalesceFrom (temp : MemNode) : List MemNode → List MemNode
  | [] => [temp]
  | next :: rest =>
      if temp.addr + temp.len = next.addr then
        coalesceFrom { temp with len := temp.len + next.len } rest
      else temp :: coalesceFrom next rest

/-- `coalesce()` -/
def coalesce : List MemNode → List MemNode
  | [] => []
  | head :: rest => coalesceFrom head rest

/-- The search of `allocate`: the first node that is long enough, between the
nodes before and behind it. -/
def firstFit (size : Int) : List MemNode → Option (List MemNode × MemNode × List MemNode)
  | [] => none
  | temp :: next =>
      if temp.len ≥ size then some ([], temp, next)
      else (firstFit size next).map fun r => (temp :: r.1, r.2)

/-- `allocate(size)` -/
def allocate (nodes : List MemNode) (size : Int) : List MemNode × Bool :=
  let nodes := coalesce nodes
  match firstFit size nodes with
  | some (before, temp, behind) =>
      (before ++ { temp with len := temp.len - size, addr := temp.addr + size } :: behind, true)
  | none => (nodes, false)

/-- The loop of `free` at `temp`, the nodes `before` it being behind it. -/
def freeLoop (startingSize start len : Int) (before : List MemNode) :
    List MemNode → Except Fault Result
  | [] => .ok ⟨before, false, some (.notInRange start)⟩
  | temp :: next =>
      let nodes := before ++ temp :: next
      if temp.addr > start then
        if temp.addr < start + len then .ok ⟨nodes, false, some .doubleFree⟩
        -- the new node becomes the head, whatever came before
        else .ok ⟨⟨start, len⟩ :: temp :: next, true, none⟩
      else if temp.addr < start ∧ next = [] then
        if start + len > startingSize then .ok ⟨nodes, false, some .outOfBounds⟩
        else .ok ⟨before ++ [temp, ⟨start, len⟩], true, none⟩
      else if temp.addr + temp.len ≤ start then
        match next with
        | [] => .error .nullPointer
        | n :: _ =>
            if n.addr ≥ start then
              if n.addr < start + len then .ok ⟨nodes, false, some .doubleFree⟩
              -- the `next` of the new node is never set
              else .ok ⟨before ++ [temp, ⟨start, len⟩], true, none⟩
            else freeLoop startingSize start len (before ++ [temp]) next
      else freeLoop startingSize start len (before ++ [temp]) next

/-- `free(start, len)` -/
def free (startingSize : Int) (nodes : List MemNode) (start len : Int) : Except Fault Result :=
  if len = 0 then .ok ⟨nodes, true, none⟩ else freeLoop startingSize start len [] nodes

structure State where
  nodes : List MemNode
  startingSize : Int
  /-- The bytes the callers hold. -/
  allocated : Int → Bool

/-- The calls. -/
inductive Act where
  | allocate (size : Int)
  | free (start len : Int)
  deriving DecidableEq, Repr

/-- The bytes of `[a, b)` change hands. -/
def State.mark (s : State) (a b : Int) (held : Bool) : Int → Bool :=
  fun x => if a ≤ x ∧ x < b then held else s.allocated x

/-- One call. -/
def next (s : State) : Act → Option State
  | .allocate size =>
      some
        { s with
          nodes := (allocate s.nodes size).1
          allocated :=
            match firstFit size (coalesce s.nodes) with
            | some (_, temp, _) => s.mark temp.addr (temp.addr + size) true
            | none => s.allocated }
  | .free start len =>
      match free s.startingSize s.nodes start len with
      | .error _ => none
      | .ok r =>
          some
            { s with
              nodes := r.nodes
              allocated := if r.ret then s.mark start (start + len) false else s.allocated }

/-- `Sallocator(size)` -/
def fresh (size : Int) : State where
  nodes := [⟨0, size⟩]
  startingSize := size
  allocated := fun _ => false

def system : TSys State Act where
  init s := ∃ size, 0 ≤ size ∧ s = fresh size
  next := next

end Os377.Salloc
