import Os377.Lib.Joining
import Os377.Malloc.Heap

/-!
# Free lists anywhere in memory

`coalesce` can be called on every node of every list, and does not ask where
the nodes are. Here a `Space` says which bytes of the memory may be accessed,
and the blocks of a list may be anywhere in it, in any order.

* `coalesceLoop_eq` — on the heap the functions are those of the heap;
* `Space.coalesceLoop_spec` — the pass of `coalesce` is `joinPass` on the blocks
  of the list.
-/

namespace Os377.Malloc

open Os377.Lib

/-- The bytes that may be accessed. -/
structure Space where
  mapped : Nat → Bool

/-- `n->size`. -/
def sizeAt (m : Mem) (n : Nat) : Nat := getLe m n 8

/-- `n->next`. -/
def nextAt (m : Mem) (n : Nat) : Nat := getLe m (n + 8) 8

/-- The bytes of a free node and of the space behind it. -/
def blockAt (m : Mem) (n : Nat) : Block := (n, 16 + sizeAt m n)

namespace Space

variable (sp : Space)

def Mapped (a n : Nat) : Prop := ∀ i < n, sp.mapped (a + i) = true

instance (a n : Nat) : Decidable (sp.Mapped a n) := inferInstanceAs (Decidable (∀ i < n, _))

/-- Read `n` bytes. -/
def load (m : Mem) (a n : Nat) : Except Fault Nat :=
  if sp.Mapped a n then .ok (getLe m a n) else .error .unmapped

/-- Write `n` bytes. -/
def store (m : Mem) (a n v : Nat) : Except Fault Mem :=
  if sp.Mapped a n then .ok (putLe m a n v) else .error .unmapped

/-- The node `p` takes over its successor if the two are neighbours. -/
def mergeNext (m : Mem) (p psize pnext : Nat) : Except Fault Mem :=
  if wrap (p + wrap (psize + 16)) = pnext then do
    let nsize ← sp.load m pnext 8
    let m ← sp.store m p 8 (wrap (psize + wrap (nsize + 16)))
    let nnext ← sp.load m (pnext + 8) 8
    sp.store m (p + 8) 8 nnext
  else .ok m

/-- The loop of `coalesce`. -/
def coalesceLoop : Nat → Mem → Nat → Except Fault Mem
  | 0, _, _ => .error .endless
  | fuel + 1, m, p =>
      if p = 0 then .ok m
      else do
        let pnext ← sp.load m (p + 8) 8
        if pnext = 0 then .ok m
        else do
          let psize ← sp.load m p 8
          let m ← sp.mergeNext m p psize pnext
          let p' ← sp.load m (p + 8) 8
          coalesceLoop fuel m p'

/-- `coalesce(free_block)`. -/
def coalesce (fuel : Nat) (m : Mem) (freeBlock : Nat) : Except Fault Mem :=
  sp.coalesceLoop fuel m freeBlock

/-- The loop of `available_memory`. -/
def availableLoop (m : Mem) : Nat → Nat → Nat → Except Fault Nat
  | 0, _, _ => .error .endless
  | fuel + 1, p, n =>
      if p = 0 then .ok n
      else do
        let psize ← sp.load m p 8
        let pnext ← sp.load m (p + 8) 8
        availableLoop m fuel pnext (wrap (n + psize))

/-- `available_memory()`; `heap()` returns the head if it is not `NULL`. -/
def availableMemory (fuel : Nat) (m : Mem) (head : Nat) : Except Fault Nat :=
  sp.availableLoop m fuel head 0

end Space

/-! ## On the heap -/

section Heap

variable {s : Heap}

/-- The mapped page. -/
def Heap.space (s : Heap) : Space :=
  ⟨fun x => decide (s.page.addr ≤ x ∧ x < s.page.addr + 4096)⟩

theorem space_mapped {a n : Nat} (hn : 0 < n) : s.space.Mapped a n ↔ s.Mapped a n := by
  have hbyte : ∀ i, s.space.mapped (a + i) = true ↔
      s.page.addr ≤ a + i ∧ a + i < s.page.addr + 4096 := fun i => decide_eq_true_iff
  constructor
  · intro h
    have h1 := (hbyte 0).mp (h 0 hn)
    have h2 := (hbyte (n - 1)).mp (h (n - 1) (by omega))
    exact ⟨by omega, by omega⟩
  · intro h i hi
    obtain ⟨h1, h2⟩ := h
    exact (hbyte i).mpr ⟨by omega, by omega⟩

theorem load_eq {a n : Nat} (hn : 0 < n) : s.load a n = s.space.load s.mem a n := by
  rw [Heap.load, Space.load]
  exact if_congr (space_mapped hn).symm rfl rfl

theorem store_eq {a n v : Nat} (hn : 0 < n) :
    s.store a n v = (s.space.store s.mem a n v).map fun m => { s with mem := m } := by
  rw [Heap.store, Space.store]
  by_cases h : s.Mapped a n
  · rw [if_pos h, if_pos ((space_mapped hn).mpr h)]
    rfl
  · rw [if_neg h, if_neg fun h' => h ((space_mapped hn).mp h')]
    rfl

/-- Two computations that differ in what they return go on alike. -/
theorem bind_eq_map {α β γ : Type} {x : Except Fault α} {f : α → Except Fault β}
    {g : α → Except Fault γ} {k : γ → β} (h : ∀ a, f a = (g a).map k) :
    (x >>= f) = (x >>= g).map k := by
  cases x with
  | error e => rfl
  | ok a => exact h a

theorem map_bind_eq_map {α β γ δ : Type} {x : Except Fault α} {i : α → δ}
    {f : δ → Except Fault β} {g : α → Except Fault γ} {k : γ → β}
    (h : ∀ a, f (i a) = (g a).map k) : (x.map i >>= f) = (x >>= g).map k := by
  cases x with
  | error e => rfl
  | ok a => exact h a

theorem mergeNext_eq {p psize pnext : Nat} :
    mergeNext s p psize pnext
      = (s.space.mergeNext s.mem p psize pnext).map fun m => { s with mem := m } := by
  rw [mergeNext, Space.mergeNext]
  by_cases hadj : wrap (p + wrap (psize + 16)) = pnext
  · rw [if_pos hadj, if_pos hadj, load_eq (by omega)]
    apply bind_eq_map
    intro nsize
    rw [store_eq (by omega)]
    apply map_bind_eq_map
    intro m
    rw [load_eq (by omega)]
    apply bind_eq_map
    intro nnext
    exact store_eq (by omega)
  · rw [if_neg hadj, if_neg hadj]
    rfl

/-- **On the heap** `coalesce` is the function on the heap. -/
theorem coalesceLoop_eq (fuel : Nat) (s : Heap) (p : Nat) :
    coalesceLoop fuel s p
      = (s.space.coalesceLoop fuel s.mem p).map fun m => { s with mem := m } := by
  induction fuel generalizing s p with
  | zero => rfl
  | succ fuel ih =>
      rw [coalesceLoop, Space.coalesceLoop]
      by_cases hp : p = 0
      · rw [if_pos hp, if_pos hp]
        rfl
      · rw [if_neg hp, if_neg hp, load_eq (by omega)]
        apply bind_eq_map
        intro pnext
        by_cases hnext : pnext = 0
        · rw [if_pos hnext, if_pos hnext]
          rfl
        · rw [if_neg hnext, if_neg hnext, load_eq (by omega)]
          apply bind_eq_map
          intro psize
          rw [mergeNext_eq]
          apply map_bind_eq_map
          intro m
          rw [load_eq (by omega)]
          apply bind_eq_map
          intro p'
          exact ih { s with mem := m } p'

end Heap

/-! ## The pass of `coalesce` -/

/-- The blocks of the nodes are in memory, and no two of them share a byte. -/
structure Nodes (sp : Space) (m : Mem) (nodes : List Nat) : Prop where
  ne_zero : ∀ n ∈ nodes, n ≠ 0
  mapped : ∀ n ∈ nodes, sp.Mapped n 16
  fits : ∀ n ∈ nodes, n + (16 + sizeAt m n) ≤ 18446744073709551616
  apart : (nodes.map (blockAt m)).Pairwise Block.Apart

/-- What a pass of `coalesce` makes of the list `nodes` that starts at `p`. It
joins neighbours, writes only into nodes, and leaves in every node, also in
those that are no longer on the list, a link to one of them or `NULL`. -/
structure Passed (m : Mem) (p : Nat) (nodes : List Nat) (m' : Mem) (nodes' : List Nat) :
    Prop where
  list : Seg (nextAt m') p nodes' 0
  sub : nodes'.Sublist nodes
  blocks : nodes'.map (blockAt m') = joinPass (nodes.map (blockAt m))
  frame : ∀ x, (∀ n ∈ nodes, x < n ∨ n + 16 ≤ x) → m' x = m x
  links : ∀ n ∈ nodes, nextAt m' n = 0 ∨ nextAt m' n ∈ nodes

section Pass

variable {sp : Space} {m m' : Mem} {nodes nodes' rest later : List Nat} {n k p q : Nat}

theorem wrap_of_lt {i : Int} (h0 : 0 ≤ i) (h : i < 18446744073709551616) : wrap i = i.toNat := by
  rw [wrap, Int.emod_eq_of_lt h0 h]

theorem ok_bind {α β : Type} (a : α) (f : α → Except Fault β) : (Except.ok a >>= f) = f a := rfl

/-- A node's fields only depend on its 16 bytes. -/
theorem nodeAt_congr (h : ∀ x, n ≤ x → x < n + 16 → m' x = m x) :
    sizeAt m' n = sizeAt m n ∧ nextAt m' n = nextAt m n :=
  ⟨getLe_congr fun x h1 h2 => h x (by omega) (by omega),
    getLe_congr fun x h1 h2 => h x (by omega) (by omega)⟩

namespace Nodes

variable (h : Nodes sp m nodes)
include h

theorem sublist (hsub : nodes'.Sublist nodes) : Nodes sp m nodes' :=
  ⟨fun n hn => h.ne_zero n (hsub.subset hn), fun n hn => h.mapped n (hsub.subset hn),
    fun n hn => h.fits n (hsub.subset hn), h.apart.sublist (hsub.map _)⟩

/-- No node is on the list twice. -/
theorem nodup : nodes.Nodup := by
  have hpos : ∀ n, 0 < 16 + sizeAt m n := fun n => by omega
  exact nodup_of_apart hpos h.apart

/-- Different nodes have different bytes. -/
theorem ends (hn : n ∈ nodes) (hk : k ∈ nodes) (hne : n ≠ k) :
    n + 16 + sizeAt m n ≤ k ∨ k + 16 + sizeAt m k ≤ n := by
  have hneb : blockAt m n ≠ blockAt m k := fun heq => hne (congrArg Prod.fst heq)
  have := (h.apart.forall (List.mem_map_of_mem hn) (List.mem_map_of_mem hk) hneb).ends
    (by simp only [blockAt]; omega) (by simp only [blockAt]; omega)
  simp only [blockAt] at this
  omega

/-- The two halves of a node may be accessed. -/
theorem fields (hn : n ∈ nodes) : sp.Mapped n 8 ∧ sp.Mapped (n + 8) 8 := by
  have hmap := h.mapped n hn
  refine ⟨fun i hi => hmap i (by omega), fun i hi => ?_⟩
  rw [Nat.add_assoc]
  exact hmap (8 + i) (by omega)

theorem load_size (hn : n ∈ nodes) (m' : Mem) : sp.load m' n 8 = .ok (sizeAt m' n) :=
  if_pos (h.fields hn).1

theorem load_next (hn : n ∈ nodes) (m' : Mem) : sp.load m' (n + 8) 8 = .ok (nextAt m' n) :=
  if_pos (h.fields hn).2

theorem store_size (hn : n ∈ nodes) (m' : Mem) (v : Nat) :
    sp.store m' n 8 v = .ok (putLe m' n 8 v) :=
  if_pos (h.fields hn).1

theorem store_next (hn : n ∈ nodes) (m' : Mem) (v : Nat) :
    sp.store m' (n + 8) 8 v = .ok (putLe m' (n + 8) 8 v) :=
  if_pos (h.fields hn).2

end Nodes

/-- The first node is apart from the others. -/
theorem Nodes.first (h : Nodes sp m (p :: rest)) (hn : n ∈ rest) :
    p + 16 + sizeAt m p ≤ n ∨ n + 16 + sizeAt m n ≤ p := by
  refine h.ends List.mem_cons_self (List.mem_cons_of_mem _ hn) ?_
  intro heq
  subst heq
  exact (List.nodup_cons.mp h.nodup).1 hn

theorem Nodes.tail (h : Nodes sp m (p :: rest)) : Nodes sp m rest :=
  h.sublist (List.sublist_cons_self p rest)

/-- The memory after the node at `p` has taken over its successor. -/
def merge (m : Mem) (p : Nat) : Mem :=
  putLe (putLe m p 8 (sizeAt m p + (sizeAt m (nextAt m p) + 16))) (p + 8) 8
    (nextAt m (nextAt m p))

theorem merge_outside {x : Nat} (h : x < p ∨ p + 16 ≤ x) : merge m p x = m x := by
  rw [merge, putLe_outside (by omega), putLe_outside (by omega)]

theorem merge_size (h : sizeAt m p + (sizeAt m (nextAt m p) + 16) < 18446744073709551616) :
    sizeAt (merge m p) p = sizeAt m p + (sizeAt m (nextAt m p) + 16) := by
  rw [sizeAt, merge, getLe_putLe_of_disjoint (by omega), getLe_putLe (by norm_num; omega)]

theorem merge_next : nextAt (merge m p) p = nextAt m (nextAt m p) := by
  rw [nextAt, merge]
  exact getLe_putLe getLe_lt

/-- One round at a node `p` with a successor `q`. -/
theorem coalesceLoop_cons {fuel : Nat} (hlist : Seg (nextAt m) p (p :: q :: rest) 0)
    (h : Nodes sp m (p :: q :: rest)) :
    sp.coalesceLoop (fuel + 1) m p
      = if p + 16 + sizeAt m p = q then sp.coalesceLoop fuel (merge m p) (nextAt m q)
        else sp.coalesceLoop fuel m q := by
  obtain ⟨-, hq, -⟩ := hlist
  have hp : p ∈ p :: q :: rest := List.mem_cons_self
  have hqmem : q ∈ p :: q :: rest := by simp
  have hp0 := h.ne_zero p hp
  have hq0 := h.ne_zero q hqmem
  have hpend := h.fits p hp
  have hqend := h.fits q hqmem
  have hapart := h.first (n := q) (by simp)
  have hblock : wrap ((sizeAt m p : Int) + 16) = sizeAt m p + 16 := by
    rw [wrap_of_lt (by omega) (by omega)]
    omega
  -- a block that ends with the memory is not followed by another one
  have hend : wrap ((p : Int) + wrap ((sizeAt m p : Int) + 16)) = q ↔ p + 16 + sizeAt m p = q := by
    rw [hblock]
    by_cases htop : p + 16 + sizeAt m p = 18446744073709551616
    · have hzero : wrap ((p : Int) + ((sizeAt m p + 16 : Nat) : Int)) = 0 := by
        have hsum : (p : Int) + ((sizeAt m p + 16 : Nat) : Int) = 18446744073709551616 := by omega
        rw [hsum]
        rfl
      rw [hzero]
      omega
    · rw [wrap_of_lt (by omega) (by omega)]
      omega
  rw [Space.coalesceLoop, if_neg hp0, h.load_next hp, ok_bind, hq, if_neg hq0, h.load_size hp,
    ok_bind, Space.mergeNext]
  by_cases hadj : p + 16 + sizeAt m p = q
  · rw [if_pos (hend.mpr hadj), if_pos hadj]
    have hsum : wrap ((sizeAt m p : Int) + wrap ((sizeAt m q : Int) + 16))
        = sizeAt m p + (sizeAt m q + 16) := by
      rw [wrap_of_lt (i := (sizeAt m q : Int) + 16) (by omega) (by omega),
        wrap_of_lt (by omega) (by omega)]
      omega
    -- the two stores of a merge
    have hmerge : putLe (putLe m p 8 (sizeAt m p + (sizeAt m q + 16))) (p + 8) 8
        (nextAt (putLe m p 8 (sizeAt m p + (sizeAt m q + 16))) q) = merge m p := by
      rw [merge, hq]
      congr 1
      exact getLe_putLe_of_disjoint (by omega)
    rw [h.load_size hqmem, ok_bind, hsum, h.store_size hp, ok_bind, h.load_next hqmem, ok_bind,
      h.store_next hp, hmerge, ok_bind, h.load_next hp, ok_bind, merge_next, hq]
  · rw [if_neg fun heq => hadj (hend.mp heq), if_neg hadj, ok_bind, h.load_next hp, ok_bind, hq]

/-- Merging two neighbours leaves the other nodes and all bytes where they were. -/
theorem merge_nodes (hlist : Seg (nextAt m) p (p :: q :: rest) 0)
    (h : Nodes sp m (p :: q :: rest)) (hadj : p + 16 + sizeAt m p = q) :
    Seg (nextAt (merge m p)) (nextAt m q) rest 0 ∧
      blockAt (merge m p) p = (p, 16 + sizeAt m p + (16 + sizeAt m q)) ∧
      ∀ n ∈ rest, blockAt (merge m p) n = blockAt m n := by
  obtain ⟨-, hq, hrest⟩ := hlist
  have hqend := h.fits q (by simp)
  have hother : ∀ n ∈ rest, sizeAt (merge m p) n = sizeAt m n ∧
      nextAt (merge m p) n = nextAt m n := by
    intro n hn
    have hapart := h.first (n := n) (List.mem_cons_of_mem _ hn)
    exact nodeAt_congr fun x h1 h2 => merge_outside (by omega)
  refine ⟨hrest.congr fun n hn => (hother n hn).2, ?_, fun n hn => ?_⟩
  · rw [blockAt, merge_size (by rw [hq]; omega), hq, Prod.mk.injEq]
    exact ⟨rfl, by omega⟩
  · rw [blockAt, blockAt, (hother n hn).1]

/-- Changing only the headers of later nodes keeps the first one. -/
theorem first_kept {m₁ m₂ : Mem} (h : Nodes sp m (p :: rest)) (hsub : later ⊆ rest)
    (hframe : ∀ x, (∀ n ∈ later, x < n ∨ n + 16 ≤ x) → m₂ x = m₁ x) :
    sizeAt m₂ p = sizeAt m₁ p ∧ nextAt m₂ p = nextAt m₁ p := by
  refine nodeAt_congr fun x h1 h2 => hframe x fun n hn => ?_
  have hapart := h.first (hsub hn)
  omega

/-- The last node. -/
theorem passed_last (hend : nextAt m p = 0) : Passed m p [p] m [p] where
  list := ⟨rfl, hend⟩
  sub := .refl _
  blocks := rfl
  frame _ _ := rfl
  links n hn := by
    rw [List.mem_singleton.mp hn]
    exact Or.inl hend

/-- A merge, and then the pass from the node behind the two. -/
theorem Passed.merged (hlist : Seg (nextAt m) p (p :: q :: rest) 0)
    (h : Nodes sp m (p :: q :: rest)) (hadj : p + 16 + sizeAt m p = q)
    (hrun : Passed (merge m p) (nextAt m q) rest m' nodes') :
    Passed m p (p :: q :: rest) m' (p :: nodes') := by
  obtain ⟨-, hq, hrest⟩ := id hlist
  obtain ⟨-, hfirst, hblock⟩ := merge_nodes hlist h hadj
  have hnode := first_kept h (List.subset_cons_self q rest) hrun.frame
  have hnextp : nextAt m' p = nextAt m q := by rw [hnode.2, merge_next, hq]
  have hnextq : nextAt m' q = nextAt m q := by
    rw [(first_kept h.tail (List.Subset.refl _) hrun.frame).2]
    exact getLe_congr fun x h1 h2 => merge_outside (by omega)
  have hlink : nextAt m q = 0 ∨ nextAt m q ∈ p :: q :: rest :=
    hrest.start_mem.imp_right fun hmem => List.mem_cons_of_mem _ (List.mem_cons_of_mem _ hmem)
  refine ⟨⟨rfl, by rw [hnextp]; exact hrun.list⟩, (hrun.sub.cons q).cons_cons p, ?_,
    fun x hx => ?_, fun n hn => ?_⟩
  · have htouch : (blockAt m p).Touches (blockAt m q) := by
      show p + (16 + sizeAt m p) = q
      omega
    have hjoined : blockAt m' p = (p, 16 + sizeAt m p + (16 + sizeAt m q)) := by
      rw [← hfirst, blockAt, hnode.1, blockAt]
    rw [List.map_cons, List.map_cons, List.map_cons, joinPass_of_touches htouch, hrun.blocks,
      hjoined, List.map_congr_left hblock]
    rfl
  · have hout : ∀ n ∈ rest, x < n ∨ n + 16 ≤ x := fun n hn =>
      hx n (List.mem_cons_of_mem _ (List.mem_cons_of_mem _ hn))
    rw [hrun.frame x hout]
    exact merge_outside (hx p (by simp))
  · rcases List.mem_cons.mp hn with heq | hn
    · rw [heq, hnextp]
      exact hlink
    · rcases List.mem_cons.mp hn with heq | hn
      · rw [heq, hnextq]
        exact hlink
      · exact (hrun.links n hn).imp_right fun hmem =>
          List.mem_cons_of_mem _ (List.mem_cons_of_mem _ hmem)

/-- No merge, and then the pass from the next node. -/
theorem Passed.kept (hq : nextAt m p = q) (h : Nodes sp m (p :: q :: rest))
    (hadj : p + 16 + sizeAt m p ≠ q) (hrun : Passed m q (q :: rest) m' nodes') :
    Passed m p (p :: q :: rest) m' (p :: nodes') := by
  have hnode := first_kept h (List.Subset.refl _) hrun.frame
  have hnextp : nextAt m' p = q := hnode.2.trans hq
  refine ⟨⟨rfl, by rw [hnextp]; exact hrun.list⟩, hrun.sub.cons_cons p, ?_,
    fun x hx => hrun.frame x fun n hn => hx n (List.mem_cons_of_mem _ hn), fun n hn => ?_⟩
  · have htouch : ¬ (blockAt m p).Touches (blockAt m q) := by
      show ¬ p + (16 + sizeAt m p) = q
      omega
    have hfirst : blockAt m' p = blockAt m p := by
      rw [blockAt, blockAt, hnode.1]
    rw [List.map_cons, List.map_cons, List.map_cons, joinPass_of_not_touches htouch, hrun.blocks,
      hfirst]
    rfl
  · rcases List.mem_cons.mp hn with heq | hn
    · rw [heq, hnextp]
      exact Or.inr (by simp)
    · exact (hrun.links n hn).imp_right (List.mem_cons_of_mem _)

/-- The merged block and those behind it. -/
theorem Nodes.merged (hlist : Seg (nextAt m) p (p :: q :: rest) 0)
    (h : Nodes sp m (p :: q :: rest)) (hadj : p + 16 + sizeAt m p = q) :
    Nodes sp (merge m p) rest := by
  obtain ⟨-, -, hblock⟩ := merge_nodes hlist h hadj
  have hrest := h.tail.tail
  refine ⟨hrest.ne_zero, hrest.mapped, fun n hn => ?_, ?_⟩
  · have hsize : sizeAt (merge m p) n = sizeAt m n := by
      have := congrArg Prod.snd (hblock n hn)
      simp only [blockAt] at this
      omega
    rw [hsize]
    exact hrest.fits n hn
  · rw [List.map_congr_left hblock]
    exact hrest.apart

/-- **`coalesce` ends**, and is one pass over the list. -/
theorem Space.coalesceLoop_spec {fuel : Nat} (hlist : Seg (nextAt m) p nodes 0)
    (h : Nodes sp m nodes) (hfuel : nodes.length < fuel) :
    ∃ m' nodes', sp.coalesceLoop fuel m p = .ok m' ∧ Passed m p nodes m' nodes' := by
  induction fuel generalizing m p nodes with
  | zero => omega
  | succ fuel ih =>
      cases nodes with
      | nil =>
          have hp : p = 0 := hlist
          subst hp
          refine ⟨m, [], by rw [Space.coalesceLoop, if_pos rfl], rfl, .refl _, rfl, ?_, ?_⟩
          · exact fun _ _ => rfl
          · exact fun _ hn => absurd hn (by simp)
      | cons n rest =>
          obtain ⟨rfl, hrest⟩ := id hlist
          cases rest with
          | nil =>
              have hend : nextAt m p = 0 := hrest
              refine ⟨m, [p], ?_, passed_last hend⟩
              rw [Space.coalesceLoop, if_neg (h.ne_zero p (by simp)),
                h.load_next List.mem_cons_self, ok_bind, if_pos hend]
          | cons q rest =>
              rw [coalesceLoop_cons hlist h]
              by_cases hadj : p + 16 + sizeAt m p = q
              · rw [if_pos hadj]
                obtain ⟨hseg, -, -⟩ := merge_nodes hlist h hadj
                obtain ⟨m', nodes', hrun, hpass⟩ :=
                  ih hseg (h.merged hlist hadj) (by simp at hfuel; omega)
                exact ⟨m', p :: nodes', hrun, hpass.merged hlist h hadj⟩
              · rw [if_neg hadj]
                obtain ⟨m', nodes', hrun, hpass⟩ :=
                  ih (show Seg (nextAt m) q (q :: rest) 0 from ⟨rfl, hrest.2⟩) h.tail
                    (by simp at hfuel ⊢; omega)
                exact ⟨m', p :: nodes', hrun, hpass.kept hrest.1 h hadj⟩

end Pass

end Os377.Malloc
