import Os377.Salloc.FirstFit

/-!
# Worst fit and best fit

`worstAllocate` and `bestAllocate` have the same body, down to the comparison.
It keeps a running `best` that starts as `NULL`, and takes over a node if
`best != NULL || temp->len > best->len`: while `best` is `NULL` the left side is
false and the right side follows it. `bestAllocate` is read as the member of
`Sallocator` that the header declares.

So a request can only be refused: the search does not survive the first node
that is long enough.
-/

namespace Os377.Salloc

open Os377.Lib

variable {nodes : List MemNode} {size : Int}

/-- A node of the list between the nodes before and behind it. -/
abbrev Spot := List MemNode × MemNode × List MemNode

/-- `best->len` -/
def bestLen : Option Spot → Except Fault Int
  | some (_, best, _) => .ok best.len
  | none => .error .nullPointer

/-- `best != NULL || temp->len > best->len`; the right side is only looked at
if the left one is false. -/
def takesOver (best : Option Spot) (temp : MemNode) : Except Fault Bool :=
  if best ≠ none then .ok true
  else do
    let len ← bestLen best
    return decide (temp.len > len)

/-- The search at `temp`, the nodes `before` it being behind it. -/
def search (size : Int) (best : Option Spot) (before : List MemNode) :
    List MemNode → Except Fault (Option Spot)
  | [] => .ok best
  | temp :: next => do
      if temp.len ≥ size then
        if ← takesOver best temp then
          search size (some (before, temp, next)) (before ++ [temp]) next
        else search size best (before ++ [temp]) next
      else search size best (before ++ [temp]) next

/-- The body of the two functions. -/
def allocateBest (nodes : List MemNode) (size : Int) : Except Fault (List MemNode × Bool) := do
  let nodes := coalesce nodes
  match ← search size none [] nodes with
  | none => return (nodes, false)
  | some (before, best, behind) =>
      return (before ++ { best with len := best.len - size, addr := best.addr + size } :: behind,
        true)

/-- `worstAllocate(size)` -/
def worstAllocate (nodes : List MemNode) (size : Int) : Except Fault (List MemNode × Bool) :=
  allocateBest nodes size

/-- `bestAllocate(size)` -/
def bestAllocate (nodes : List MemNode) (size : Int) : Except Fault (List MemNode × Bool) :=
  allocateBest nodes size

/-- The call comes to an end, returns true exactly if some node of the merged
list is long enough, and then takes `size` bytes from one such that no other is
`better`. -/
def Picks (better : MemNode → MemNode → Prop) (nodes : List MemNode) (size : Int)
    (call : Except Fault (List MemNode × Bool)) : Prop :=
  ∃ nodes' ret, call = .ok (nodes', ret) ∧
    (ret = true ↔ ∃ n ∈ coalesce nodes, size ≤ n.len) ∧
    (ret = true → ∃ before n behind, coalesce nodes = before ++ n :: behind ∧ size ≤ n.len ∧
      (∀ m ∈ coalesce nodes, size ≤ m.len → ¬ better m n) ∧
      nodes' = before ++ { n with len := n.len - size, addr := n.addr + size } :: behind)

/-- `worstAllocate` takes one of the longest nodes. -/
def PicksWorst (nodes : List MemNode) (size : Int) : Prop :=
  Picks (fun m n => m.len > n.len) nodes size (worstAllocate nodes size)

/-- `bestAllocate` takes one of the shortest nodes that are long enough. -/
def PicksBest (nodes : List MemNode) (size : Int) : Prop :=
  Picks (fun m n => m.len < n.len) nodes size (bestAllocate nodes size)

/-- The search goes past the nodes that are too short. -/
theorem search_short (hshort : ∀ n ∈ nodes, n.len < size) (before : List MemNode) :
    search size none before nodes = .ok none := by
  induction nodes generalizing before with
  | nil => rfl
  | cons temp next ih =>
      have hlt : ¬ temp.len ≥ size := not_le.mpr (hshort temp List.mem_cons_self)
      rw [search, if_neg hlt]
      exact ih (fun n hn => hshort n (List.mem_cons_of_mem _ hn)) _

/-- It follows the `NULL` at the first one that is not. -/
theorem search_fault (hfit : ∃ n ∈ nodes, size ≤ n.len) (before : List MemNode) :
    search size none before nodes = .error .nullPointer := by
  induction nodes generalizing before with
  | nil =>
      obtain ⟨n, hn, -⟩ := hfit
      cases hn
  | cons temp next ih =>
      rw [search]
      by_cases hlen : temp.len ≥ size
      · rw [if_pos hlen]
        rfl
      · rw [if_neg hlen]
        apply ih
        obtain ⟨n, hn, hle⟩ := hfit
        rcases List.mem_cons.mp hn with rfl | hn
        · exact absurd hle hlen
        · exact ⟨n, hn, hle⟩

/-- What the body does on any list. -/
theorem picks_iff {better : MemNode → MemNode → Prop} :
    Picks better nodes size (allocateBest nodes size) ↔ ¬ ∃ n ∈ coalesce nodes, size ≤ n.len := by
  by_cases hfit : ∃ n ∈ coalesce nodes, size ≤ n.len
  · have hfault : allocateBest nodes size = .error .nullPointer := by
      rw [allocateBest, search_fault hfit]
      rfl
    rw [hfault]
    refine ⟨fun hpicks => ?_, fun hnone => absurd hfit hnone⟩
    obtain ⟨nodes', ret, hcall, -⟩ := hpicks
    cases hcall
  · have hshort : ∀ n ∈ coalesce nodes, n.len < size :=
      fun n hn => not_le.mp fun hle => hfit ⟨n, hn, hle⟩
    have hrefused : allocateBest nodes size = .ok (coalesce nodes, false) := by
      rw [allocateBest, search_short hshort]
      rfl
    rw [hrefused]
    refine ⟨fun _ => hfit, fun _ => ⟨coalesce nodes, false, rfl, ?_, ?_⟩⟩
    · exact ⟨fun hret => absurd hret Bool.false_ne_true, fun hnode => absurd hnode hfit⟩
    · exact fun hret => absurd hret Bool.false_ne_true

/-- **Worst fit and best fit.** The two calls pick the right node exactly if
there is none to be picked: no `size` consecutive bytes are free. -/
theorem worst_best_iff (nodes : List MemNode) (size : Int) (hlen : ∀ n ∈ nodes, 0 ≤ n.len)
    (horder : nodes.IsChain fun m n => m.addr + m.len ≤ n.addr) (hsize : 1 ≤ size) :
    (PicksWorst nodes size ∧ PicksBest nodes size) ↔ ¬ HasRun nodes size := by
  have h : InOrder nodes :=
    ranged_of_isChain (fun n hn => by have := hlen n hn; rw [MemNode.last]; omega) horder
  rw [hasRun_iff h hsize]
  have hworst : PicksWorst nodes size ↔ _ := picks_iff
  have hbest : PicksBest nodes size ↔ _ := picks_iff
  rw [hworst, hbest]
  exact and_self_iff

/-- Two nodes that are too short for the request. -/
theorem worst_best_iff_full : PicksWorst [⟨0, 3⟩, ⟨5, 4⟩] 5 ∧ PicksBest [⟨0, 3⟩, ⟨5, 4⟩] 5 := by
  apply (worst_best_iff [⟨0, 3⟩, ⟨5, 4⟩] 5 (by simp) (by simp) (by omega)).mpr
  intro hrun
  obtain ⟨a, ha⟩ := hrun
  have hfree : ∀ x, Free [⟨0, 3⟩, ⟨5, 4⟩] x → 0 ≤ x ∧ x < 3 ∨ 5 ≤ x ∧ x < 9 := by
    rintro x ⟨n, hn, h1, h2⟩
    simp only [List.mem_cons, List.not_mem_nil, or_false] at hn
    rcases hn with rfl | rfl
    · exact Or.inl ⟨h1, h2⟩
    · exact Or.inr ⟨h1, h2⟩
  -- the run goes over the byte behind the node that it starts in
  rcases hfree a (ha a le_rfl (by omega)) with hfirst | hsecond
  · have := hfree 3 (ha 3 (by omega) (by omega))
    omega
  · have := hfree 9 (ha 9 (by omega) (by omega))
    omega

/-- One byte of a fresh memory of ten: both follow the `NULL`. -/
theorem worst_best_fault :
    worstAllocate [⟨0, 10⟩] 1 = .error .nullPointer ∧
      bestAllocate [⟨0, 10⟩] 1 = .error .nullPointer ∧
      ¬ ∀ nodes size, (∀ n ∈ nodes, 0 ≤ n.len) →
        (nodes.IsChain fun m n => m.addr + m.len ≤ n.addr) → 1 ≤ size →
        PicksWorst nodes size ∧ PicksBest nodes size := by
  refine ⟨rfl, rfl, fun hall => ?_⟩
  obtain ⟨⟨nodes', ret, hcall, -⟩, -⟩ := hall [⟨0, 10⟩] 1 (by simp) (by simp) (by omega)
  have hfault : worstAllocate [⟨0, 10⟩] 1 = .error .nullPointer := rfl
  rw [hfault] at hcall
  cases hcall

end Os377.Salloc
