import Os377.Malloc.Space
import Mathlib.Data.Finset.Card
import Mathlib.Order.Interval.Finset.Nat

/-!
# The heap is tiled

The free blocks on the list and the blocks the program holds tile the page.
`Layout` says so; `Tiling`, the invariant, adds that there is a free block. The
rest is what the loops of the allocator do to a tiled heap.

* `findFreeLoop_spec` — first fit, on the nodes of the list;
* `coalesceLoop_spec` — the pass of `coalesce` is `joinPass` on the blocks of
  the list.
-/

namespace Os377.Malloc

open Os377.Lib Function

/-- The bytes of a free node and of the space behind it. -/
def Heap.freeBlock (s : Heap) (n : Nat) : Block := (n, 16 + s.size n)

/-- The bytes of a header and of the data behind it. -/
def liveBlock (b : Nat × Nat) : Block := (b.1, 16 + b.2)

/-- The nodes `nodes` of the free list, if there are any, and the live blocks
tile the page. -/
structure Layout (s : Heap) (live : List (Nat × Nat)) (nodes : List Nat) : Prop where
  list : Seg s.next s.head nodes 0
  header : ∀ b ∈ live, s.size b.1 = b.2 ∧ getLe s.mem (b.1 + 8) 4 = magic
  tiles : Tiles s.page.addr (s.page.addr + 4096) (nodes.map s.freeBlock ++ live.map liveBlock)

/-- The nodes `nodes` of the free list and the live blocks tile the page. -/
structure Tiling (s : Heap) (live : List (Nat × Nat)) (nodes : List Nat) : Prop where
  list : Seg s.next s.head nodes 0
  nonempty : nodes ≠ []
  header : ∀ b ∈ live, s.size b.1 = b.2 ∧ getLe s.mem (b.1 + 8) 4 = magic
  tiles : Tiles s.page.addr (s.page.addr + 4096) (nodes.map s.freeBlock ++ live.map liveBlock)

variable {s s' : Heap} {live : List (Nat × Nat)} {nodes : List Nat} {n : Nat}

theorem Tiling.layout (h : Tiling s live nodes) : Layout s live nodes :=
  ⟨h.list, h.header, h.tiles⟩

theorem Layout.tiling (h : Layout s live nodes) (hne : nodes ≠ []) : Tiling s live nodes :=
  ⟨h.list, hne, h.header, h.tiles⟩

section Access

theorem load_ok {a k : Nat} (h : s.Mapped a k) : s.load a k = .ok (getLe s.mem a k) :=
  if_pos h

theorem store_ok {a k v : Nat} (h : s.Mapped a k) :
    s.store a k v = .ok (s.put a k v) :=
  if_pos h

theorem mapped_put {a k b l v : Nat} : (s.put b l v).Mapped a k ↔ s.Mapped a k := Iff.rfl

/-- A node's fields only depend on its 16 bytes. -/
theorem node_congr (h : ∀ x, n ≤ x → x < n + 16 → s'.mem x = s.mem x) :
    s'.size n = s.size n ∧ s'.next n = s.next n :=
  nodeAt_congr h

end Access

section Layout

variable {bs : List Block}

/-- The nodes of a tiling lie in the page. -/
theorem node_inside (ht : Tiles s.page.addr (s.page.addr + 4096) (nodes.map s.freeBlock ++ bs))
    (hn : n ∈ nodes) :
    s.page.addr ≤ n ∧ n + 16 + s.size n ≤ s.page.addr + 4096 := by
  have hmem : s.freeBlock n ∈ nodes.map s.freeBlock ++ bs :=
    List.mem_append_left _ (List.mem_map_of_mem hn)
  have := ht.inside hmem (by simp only [Heap.freeBlock]; omega)
  simp only [Heap.freeBlock] at this
  omega

theorem node_ne_zero (ht : Tiles s.page.addr (s.page.addr + 4096) (nodes.map s.freeBlock ++ bs))
    (hn : n ∈ nodes) : n ≠ 0 := by
  have h1 := node_inside ht hn
  have h2 := s.page.addr_pos
  omega

/-- Different nodes of a tiling have different bytes. -/
theorem node_apart {m : Nat}
    (ht : Tiles s.page.addr (s.page.addr + 4096) (nodes.map s.freeBlock ++ bs))
    (hn : n ∈ nodes) (hm : m ∈ nodes) (hne : n ≠ m) :
    n + 16 + s.size n ≤ m ∨ m + 16 + s.size m ≤ n := by
  have hneb : s.freeBlock n ≠ s.freeBlock m := fun h => hne (congrArg Prod.fst h)
  have := (ht.apart (List.mem_append_left _ (List.mem_map_of_mem hn))
    (List.mem_append_left _ (List.mem_map_of_mem hm)) hneb).ends
    (by simp only [Heap.freeBlock]; omega) (by simp only [Heap.freeBlock]; omega)
  simp only [Heap.freeBlock] at this
  omega

/-- No node is on the list twice. -/
theorem nodes_nodup (ht : Tiles s.page.addr (s.page.addr + 4096) (nodes.map s.freeBlock ++ bs)) :
    nodes.Nodup :=
  nodup_of_apart (fun _ => by omega) (List.pairwise_append.mp ht.pairwise).1

/-- There are fewer nodes than a traversal may visit. -/
theorem nodes_length (ht : Tiles s.page.addr (s.page.addr + 4096) (nodes.map s.freeBlock ++ bs)) :
    nodes.length < traversal := by
  have hsub : nodes.toFinset ⊆ Finset.Ico s.page.addr (s.page.addr + 4096) := by
    intro n hn
    have := node_inside ht (List.mem_toFinset.mp hn)
    rw [Finset.mem_Ico]
    omega
  have hcard := Finset.card_le_card hsub
  rw [List.toFinset_card_of_nodup (nodes_nodup ht), Nat.card_Ico] at hcard
  rw [traversal]
  omega

end Layout

/-- The bound of `find_free`, when the sum does not wrap around. -/
theorem wrap_request {size : Nat} (hsize : size + 32 < 18446744073709551616) :
    wrap ((size : Int) + 16 + 16) = size + 32 := by
  rw [wrap_of_lt (by omega) (by omega)]
  omega

/-- First fit: the loop of `find_free` returns the first node that reaches the
bound it computes, and the node before it. -/
theorem findFreeLoop_spec {size fuel p : Nat} (prev : Nat)
    (hin : ∀ n ∈ nodes, n ≠ 0 ∧ s.Mapped n 16)
    (hlist : Seg s.next p nodes 0) (hfuel : nodes.length < fuel) :
    (findFreeLoop s size fuel p prev = .ok none ∧
      ∀ n ∈ nodes, s.size n < wrap ((size : Int) + 16 + 16)) ∨
    (∃ before found after, nodes = before ++ found :: after ∧
      wrap ((size : Int) + 16 + 16) ≤ s.size found ∧
      findFreeLoop s size fuel p prev = .ok (some (found, before.getLastD prev))) := by
  induction nodes generalizing fuel p prev with
  | nil =>
      obtain ⟨fuel, rfl⟩ : ∃ k, fuel = k + 1 := ⟨fuel - 1, by simp at hfuel; omega⟩
      have hp : p = 0 := hlist
      exact Or.inl ⟨by rw [findFreeLoop, if_pos hp], by simp⟩
  | cons n rest ih =>
      obtain ⟨fuel, rfl⟩ : ∃ k, fuel = k + 1 := ⟨fuel - 1, by simp at hfuel; omega⟩
      obtain ⟨rfl, hrest⟩ := hlist
      obtain ⟨hne, hmap⟩ := hin p List.mem_cons_self
      have hload : s.load p 8 = .ok (s.size p) := load_ok ⟨hmap.1, by have := hmap.2; omega⟩
      have hnext : s.load (p + 8) 8 = .ok (s.next p) :=
        load_ok ⟨by have := hmap.1; omega, by have := hmap.2; omega⟩
      have hloop : findFreeLoop s size (fuel + 1) p prev
          = if s.size p ≥ wrap ((size : Int) + 16 + 16) then .ok (some (p, prev))
            else findFreeLoop s size fuel (s.next p) p := by
        rw [findFreeLoop, if_neg hne, hload, ok_bind, hnext]
        rfl
      by_cases hroom : s.size p ≥ wrap ((size : Int) + 16 + 16)
      · refine Or.inr ⟨[], p, rest, rfl, hroom, ?_⟩
        rw [hloop, if_pos hroom]
        rfl
      · rw [hloop, if_neg hroom]
        rcases ih p (fun m hm => hin m (List.mem_cons_of_mem _ hm)) hrest
          (by simp at hfuel; omega) with
          ⟨hnone, hall⟩ | ⟨before, found, after, rfl, hfit, hfound⟩
        · refine Or.inl ⟨hnone, fun m hm => ?_⟩
          rcases List.mem_cons.mp hm with rfl | hm
          · omega
          · exact hall m hm
        · refine Or.inr ⟨p :: before, found, after, rfl, hfit, ?_⟩
          rw [hfound]
          cases before <;> rfl

section Coalesce

/-- What a pass of `coalesce` makes of the list `nodes` that starts at `p`. It
joins neighbours, writes only into nodes, and leaves in every node, also in
those that are no longer on the list, a link to one of them or `NULL`. -/
structure Coalesced (s : Heap) (p : Nat) (nodes : List Nat) (s' : Heap) (nodes' : List Nat) :
    Prop where
  page : s'.page = s.page
  head : s'.head = s.head
  list : Seg s'.next p nodes' 0
  sub : nodes'.Sublist nodes
  blocks : nodes'.map s'.freeBlock = joinPass (nodes.map s.freeBlock)
  frame : ∀ x, (∀ n ∈ nodes, x < n ∨ n + 16 ≤ x) → s'.mem x = s.mem x
  links : ∀ n ∈ nodes, s'.next n = 0 ∨ s'.next n ∈ nodes

/-- The nodes of a tiling, as a list on the mapped page. -/
theorem nodes_of_tiles {bs : List Block}
    (ht : Tiles s.page.addr (s.page.addr + 4096) (nodes.map s.freeBlock ++ bs)) :
    Nodes s.space s.mem nodes := by
  have hlt := s.page.addr_lt
  refine ⟨fun n hn => node_ne_zero ht hn, fun n hn => ?_, fun n hn => ?_,
    (List.pairwise_append.mp ht.pairwise).1⟩
  · obtain ⟨h1, h2⟩ := node_inside ht hn
    exact (space_mapped (by omega)).mpr ⟨h1, by omega⟩
  · have hin := node_inside ht hn
    change n + (16 + s.size n) ≤ 18446744073709551616
    omega

/-- **`coalesce` ends**, and is one pass over the list. -/
theorem coalesceLoop_spec {bs : List Block} {p fuel : Nat} (hlist : Seg s.next p nodes 0)
    (ht : Tiles s.page.addr (s.page.addr + 4096) (nodes.map s.freeBlock ++ bs))
    (hfuel : nodes.length < fuel) :
    ∃ s' nodes', coalesceLoop fuel s p = .ok s' ∧ Coalesced s p nodes s' nodes' := by
  obtain ⟨m', nodes', hrun, hpass⟩ :=
    Space.coalesceLoop_spec hlist (nodes_of_tiles ht) hfuel
  refine ⟨{ s with mem := m' }, nodes', ?_, rfl, rfl, hpass.list, hpass.sub, hpass.blocks,
    hpass.frame, hpass.links⟩
  rw [coalesceLoop_eq, hrun]
  rfl

end Coalesce

end Os377.Malloc
