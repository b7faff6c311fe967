import Os377.Lib.Stretches
import Os377.Salloc.Reject

/-!
# First fit

`coalesce` merges whatever touches in one pass, so each maximal run of free
bytes is one node afterwards, and the first node that is long enough is the
lowest run that is: `allocate` refuses a request only if no run of free bytes is
long enough for it.

The list may start with any nodes in order, neighbours that touch and empty
nodes among them. In a memory `[0, startingSize)` no sum leaves the `int`s.
-/

namespace Os377.Salloc

open Os377.Lib

variable {nodes before behind rest : List MemNode} {n m temp : MemNode} {size : Int}

/-- Some `size` consecutive bytes are all free. -/
def HasRun (nodes : List MemNode) (size : Int) : Prop :=
  ∃ a, ∀ x, a ≤ x → x < a + size → Free nodes x

/-- `[a, b)` is the lowest of the maximal runs of free bytes of length at least
`size`. -/
structure LowestRun (nodes : List MemNode) (size a b : Int) : Prop where
  stretch : Stretch (Free nodes) a b
  long : a + size ≤ b
  lowest : ∀ a' b', Stretch (Free nodes) a' b' → a' + size ≤ b' → a ≤ a'

/-! ## One pass merges everything -/

/-- The pass leaves gaps. -/
theorem coalesceFrom_detached (temp : MemNode) (rest : List MemNode)
    (h : InOrder (temp :: rest)) :
    Detached MemNode.addr MemNode.last (coalesceFrom temp rest) := by
  refine ⟨(coalesceFrom_spec temp rest h).1.proper, ?_⟩
  induction rest generalizing temp with
  | nil => exact List.pairwise_singleton _ temp
  | cons next rest ih =>
      obtain ⟨-, hnext, hbehind⟩ := ranged_cons.mp h
      rw [coalesceFrom]
      split
      · next hadj =>
          apply ih
          exact (h.merge (t := { temp with len := temp.len + next.len }) hadj rfl
            (by simp only [MemNode.last]; omega)).1
      · next hadj =>
          -- the node ends below the next one, and that one below those behind it
          refine List.pairwise_cons.mpr ⟨fun m hm => ?_, ih next hnext⟩
          obtain ⟨k, hk, haddr⟩ := ((coalesceFrom_spec next rest hnext).2.2 m hm).1
          have hlt : temp.last < next.addr :=
            lt_of_le_of_ne (hbehind next List.mem_cons_self) hadj
          rw [haddr]
          obtain ⟨hproper, -, hle⟩ := ranged_cons.mp hnext
          rcases List.mem_cons.mp hk with rfl | hk
          · exact hlt
          · have := hle k hk
            omega

theorem coalesce_detached (h : InOrder nodes) :
    Detached MemNode.addr MemNode.last (coalesce nodes) := by
  cases nodes with
  | nil => exact ⟨h.proper, List.Pairwise.nil⟩
  | cons head rest => exact coalesceFrom_detached head rest h

theorem coalesce_free (h : InOrder nodes) (x : Int) : Free (coalesce nodes) x ↔ Free nodes x := by
  cases nodes with
  | nil => exact Iff.rfl
  | cons head rest => exact (coalesceFrom_spec head rest h).2.1 x

/-- A run of free bytes fits into one node of the merged list. -/
theorem hasRun_iff (h : InOrder nodes) (hsize : 1 ≤ size) :
    HasRun nodes size ↔ ∃ n ∈ coalesce nodes, size ≤ n.len := by
  constructor
  · intro hrun
    obtain ⟨a, ha⟩ := hrun
    have hall : ∀ x, a ≤ x → x < a + size → Free (coalesce nodes) x :=
      fun x h1 h2 => (coalesce_free h x).mpr (ha x h1 h2)
    obtain ⟨n, hn, h1, h2⟩ := (coalesce_detached h).run (by omega) hall
    refine ⟨n, hn, ?_⟩
    rw [MemNode.last] at h2
    omega
  · intro hnode
    obtain ⟨n, hn, hlen⟩ := hnode
    refine ⟨n.addr, fun x h1 h2 => (coalesce_free h x).mp ⟨n, hn, h1, ?_⟩⟩
    rw [MemNode.last]
    omega

/-- A node of the merged list in which `size` bytes fit, none of the nodes
before it being long enough, is the lowest run. -/
theorem lowestRun_of_node (h : InOrder nodes) (hsize : 1 ≤ size)
    (hnodes : coalesce nodes = before ++ n :: behind) (hfit : size ≤ n.len)
    (hbefore : ∀ m ∈ before, m.len < size) : LowestRun nodes size n.addr n.last := by
  have hsame : Free nodes = Free (coalesce nodes) :=
    funext fun x => propext (coalesce_free h x).symm
  have hd := coalesce_detached h
  have hlast : n.last = n.addr + n.len := rfl
  refine ⟨?_, by omega, ?_⟩
  · rw [hsame]
    exact hd.stretch_iff.mpr ⟨n, by simp [hnodes], rfl, rfl, by omega⟩
  · intro a b hs hlong
    rw [hsame] at hs
    obtain ⟨m, hm, rfl, rfl, -⟩ := hd.stretch_iff.mp hs
    have hmlast : m.last = m.addr + m.len := rfl
    rw [hnodes] at hm
    rcases List.mem_append.mp hm with hm | hm
    · have := hbefore m hm
      omega
    · rcases List.mem_cons.mp hm with rfl | hm
      · exact le_rfl
      · have hgap := hd.gap
        rw [hnodes] at hgap
        have := (List.pairwise_cons.mp (List.pairwise_append.mp hgap).2.1).1 m hm
        omega

/-! ## `allocate` -/

/-- The front of a node of the merged list is handed out. -/
theorem take_free (h : InOrder nodes) (hsize : 1 ≤ size)
    (hnodes : coalesce nodes = before ++ n :: behind) (hfit : size ≤ n.len) (x : Int) :
    Free (before ++ { n with len := n.len - size, addr := n.addr + size } :: behind) x ↔
      Free nodes x ∧ ¬ (n.addr ≤ x ∧ x < n.addr + size) := by
  have hd := coalesce_detached h
  have hranged : InOrder (before ++ n :: behind) :=
    hnodes ▸ ⟨hd.proper, hd.gap.imp fun hlt => le_of_lt hlt⟩
  obtain ⟨-, hcut⟩ := hranged.takeFront
    (t := { n with len := n.len - size, addr := n.addr + size })
    (by simp only; omega) (by simp only [MemNode.last]; omega)
    (by simp only [MemNode.last]; omega)
  refine (hcut x).trans ?_
  rw [← hnodes]
  exact and_congr_left' (coalesce_free h x)

/-! ## On `int`s -/

/-- The loop of `coalesce` at `temp` on `int`s. -/
def coalesceFromInt (temp : MemNode) : List MemNode → Except IntFault (List MemNode)
  | [] => .ok [temp]
  | next :: rest => do
      let last ← intSum temp.addr temp.len
      if last = next.addr then
        let len ← intSum temp.len next.len
        coalesceFromInt { temp with len := len } rest
      else return temp :: (← coalesceFromInt next rest)

/-- `coalesce()` on `int`s. -/
def coalesceInt : List MemNode → Except IntFault (List MemNode)
  | [] => .ok []
  | head :: rest => coalesceFromInt head rest

/-- `allocate(size)` on `int`s. -/
def allocateInt (nodes : List MemNode) (size : Int) : Except IntFault (List MemNode × Bool) := do
  let nodes ← coalesceInt nodes
  match firstFit size nodes with
  | some (before, temp, behind) =>
      let len ← intSum temp.len (-size)
      let addr ← intSum temp.addr size
      return (before ++ { temp with len := len, addr := addr } :: behind, true)
  | none => return (nodes, false)

/-- Nodes at addresses from 0 on that end at `int`s: no sum of the loop leaves
the `int`s. -/
theorem coalesceFromInt_eq (temp : MemNode) (rest : List MemNode) (h : InOrder (temp :: rest))
    (hin : ∀ n ∈ temp :: rest, 0 ≤ n.addr ∧ IsInt n.last) :
    coalesceFromInt temp rest = .ok (coalesceFrom temp rest) := by
  induction rest generalizing temp with
  | nil => rfl
  | cons next rest ih =>
      obtain ⟨htemp, hnext, -⟩ := ranged_cons.mp h
      obtain ⟨h0, hlast⟩ := hin temp List.mem_cons_self
      obtain ⟨h0', hlast'⟩ := hin next (by simp)
      rw [coalesceFromInt, coalesceFrom, intSum_last hlast]
      change (if temp.last = next.addr then _ else _)
        = Except.ok (if temp.last = next.addr then _ else _)
      by_cases hadj : temp.last = next.addr
      · have hend : MemNode.last { temp with len := temp.len + next.len } = next.last := by
          simp only [MemNode.last] at hadj ⊢
          omega
        have hsum : intSum temp.len next.len = .ok (temp.len + next.len) := by
          obtain ⟨hproper, -, -⟩ := ranged_cons.mp hnext
          apply if_pos
          simp only [IsInt, MemNode.last] at *
          omega
        rw [if_pos hadj, if_pos hadj, hsum]
        have hmerged := h.merge (t := { temp with len := temp.len + next.len }) hadj rfl hend
        refine ih _ hmerged.1 fun n hn => ?_
        rcases List.mem_cons.mp hn with rfl | hn
        · rw [hend]
          exact ⟨h0, hlast'⟩
        · exact hin n (by simp [hn])
      · rw [if_neg hadj, if_neg hadj, ih next hnext fun n hn => hin n (List.mem_cons_of_mem _ hn)]
        rfl

theorem coalesceInt_eq (h : InOrder nodes) (hin : ∀ n ∈ nodes, 0 ≤ n.addr ∧ IsInt n.last) :
    coalesceInt nodes = .ok (coalesce nodes) := by
  cases nodes with
  | nil => rfl
  | cons head rest => exact coalesceFromInt_eq head rest h hin

/-- The ends of the merged nodes are ends of the nodes before. -/
theorem coalesce_inside (h : InOrder nodes) (hin : ∀ n ∈ nodes, 0 ≤ n.addr ∧ IsInt n.last) :
    ∀ n ∈ coalesce nodes, 0 ≤ n.addr ∧ IsInt n.last := by
  cases nodes with
  | nil => exact hin
  | cons head rest =>
      intro n hn
      obtain ⟨⟨m, hm, haddr⟩, k, hk, hlast⟩ := (coalesceFrom_spec head rest h).2.2 n hn
      rw [haddr, hlast]
      exact ⟨(hin m hm).1, (hin k hk).2⟩

/-- **`allocate` on `int`s** does what it does on integers. -/
theorem allocateInt_eq (h : InOrder nodes) (hin : ∀ n ∈ nodes, 0 ≤ n.addr ∧ IsInt n.last)
    (hsize : 1 ≤ size) : allocateInt nodes size = .ok (allocate nodes size) := by
  rw [allocateInt, coalesceInt_eq h hin, allocate]
  change (match firstFit size (coalesce nodes) with
    | some (before, temp, behind) => _
    | none => _) = _
  rcases firstFit_spec size (coalesce nodes) with
    ⟨hnone, -⟩ | ⟨before, n, behind, hsome, hnodes, hfit, -⟩
  · rw [hnone]
    rfl
  · obtain ⟨h0, hlast⟩ := coalesce_inside h hin n (by simp [hnodes])
    have hlen : intSum n.len (-size) = .ok (n.len - size) := by
      apply if_pos
      simp only [IsInt, MemNode.last] at *
      omega
    have haddr : intSum n.addr size = .ok (n.addr + size) := by
      apply if_pos
      simp only [IsInt, MemNode.last] at *
      omega
    rw [hsome]
    dsimp only
    rw [hlen, haddr]
    rfl

/-! ## First fit is complete -/

/-- **First fit is complete.** On every list whose nodes are in order, `coalesce`
keeps the free bytes and leaves a gap after every node. A request is served
exactly if that many consecutive bytes are free, from the front of the lowest
run that is long enough; else nothing changes. In a memory of `int`s the call does what it
does on integers. -/
theorem allocate_first_fit (nodes : List MemNode) (size : Int)
    (hlen : ∀ n ∈ nodes, 0 ≤ n.len)
    (horder : nodes.IsChain fun m n => m.addr + m.len ≤ n.addr) (hsize : 1 ≤ size) :
    (∀ x, Free (coalesce nodes) x ↔ Free nodes x) ∧
      ((coalesce nodes).IsChain fun m n => m.addr + m.len < n.addr) ∧
      ((allocate nodes size).2 = true ↔ HasRun nodes size) ∧
      ((allocate nodes size).2 = true → ∃ a b, LowestRun nodes size a b ∧
        ∀ x, Free (allocate nodes size).1 x ↔ Free nodes x ∧ ¬ (a ≤ x ∧ x < a + size)) ∧
      ((allocate nodes size).2 = false → ∀ x, Free (allocate nodes size).1 x ↔ Free nodes x) ∧
      ((∀ n ∈ nodes, 0 ≤ n.addr ∧ IsInt n.last) →
        allocateInt nodes size = .ok (allocate nodes size)) := by
  have h : InOrder nodes :=
    ranged_of_isChain (fun n hn => by have := hlen n hn; rw [MemNode.last]; omega) horder
  have hint := fun hin => allocateInt_eq h hin hsize
  refine ⟨coalesce_free h, (coalesce_detached h).gap.isChain, ?_⟩
  rw [hasRun_iff h hsize]
  rcases firstFit_spec size (coalesce nodes) with
    ⟨hnone, hall⟩ | ⟨before, n, behind, hsome, hnodes, hfit, hbefore⟩
  · simp only [allocate, hnone] at hint ⊢
    refine ⟨⟨fun hfalse => absurd hfalse Bool.false_ne_true, fun hnode => ?_⟩,
      fun hfalse => absurd hfalse Bool.false_ne_true, fun _ => coalesce_free h, hint⟩
    obtain ⟨n, hn, hfit⟩ := hnode
    have := hall n hn
    omega
  · simp only [allocate, hsome] at hint ⊢
    refine ⟨⟨fun _ => ⟨n, by simp [hnodes], hfit⟩, fun _ => trivial⟩, fun _ => ?_,
      fun htrue => absurd htrue.symm Bool.false_ne_true, hint⟩
    exact ⟨n.addr, n.last, lowestRun_of_node h hsize hnodes hfit hbefore,
      take_free h hsize hnodes hfit⟩

/-- Two nodes that touch serve a request that is too long for either. -/
theorem allocate_first_fit_two :
    (allocate [⟨0, 5⟩, ⟨5, 0⟩, ⟨5, 5⟩] 8).2 = true ∧ HasRun [⟨0, 5⟩, ⟨5, 0⟩, ⟨5, 5⟩] 8 ∧
      allocateInt [⟨0, 5⟩, ⟨5, 0⟩, ⟨5, 5⟩] 8 = .ok (allocate [⟨0, 5⟩, ⟨5, 0⟩, ⟨5, 5⟩] 8) := by
  have hfit := allocate_first_fit [⟨0, 5⟩, ⟨5, 0⟩, ⟨5, 5⟩] 8 (by simp) (by simp) (by omega)
  have htrue : (allocate [⟨0, 5⟩, ⟨5, 0⟩, ⟨5, 5⟩] 8).2 = true := by decide
  exact ⟨htrue, hfit.2.2.1.mp htrue, hfit.2.2.2.2.2 (by decide)⟩

end Os377.Salloc
