import Os377.Malloc.Free

/-!
# Using freed memory again

`my_free` gives a block back as a node of the size that was asked for, while
`find_free` wants 32 bytes more than a request. Whether the same request
succeeds right after the block was freed depends on the other free blocks and
on what the pass of `coalesce` joins.
-/

namespace Os377.Malloc

open Os377.Lib

variable {s : Heap} {live : List (Nat × Nat)} {nodes : List Nat} {b : Nat × Nat}

/-- `my_free` of the block, then `my_malloc` of its size, is not `NULL`. -/
def Reusable (s : Heap) (page : Page) (b : Nat × Nat) : Prop :=
  ∃ s₁ s₂ p, myFree s (b.1 + 16) = .ok s₁ ∧ myMalloc s₁ page b.2 = .ok (s₂, p) ∧ p ≠ 0

/-- The blocks that the pass goes through, and the 48 bytes that a request
needs besides its size: a header, a node and the node's payload. -/
theorem reusable_hasRoom (h : Layout s live nodes) (hb : b ∈ live) (page : Page) :
    Reusable s page b ↔ HasRoom (b.2 + 48) (liveBlock b :: nodes.map s.freeBlock) := by
  have hin := h.live_inside hb
  have hlt := s.page.addr_lt
  obtain ⟨s₁, nodes', hfree, hc⟩ := myFree_spec h hb
  have ht := hc.tiling (free_layout h hb)
  -- the blocks after the pass
  have hfits : (∃ c ∈ joinPass (liveBlock b :: nodes.map s.freeBlock), b.2 + 48 ≤ c.2) ↔
      ∃ n ∈ nodes', b.2 + 32 ≤ s₁.size n := by
    rw [← release_blocks h hb, ← hc.blocks]
    simp only [List.mem_map, exists_exists_and_eq_and]
    refine exists_congr fun n => and_congr_right fun _ => ?_
    simp only [Heap.freeBlock]
    omega
  rw [hasRoom_iff, hfits]
  rcases myMalloc_spec ht page (show b.2 + 32 < 18446744073709551616 by omega) with
    ⟨-, hrun, hsmall⟩ | ⟨before, f, after, rfl, hfit, -, hrun⟩
  · constructor
    · rintro ⟨t, s₂, p, hfree', hmalloc, hp⟩
      rw [hfree, Except.ok.injEq] at hfree'
      subst hfree'
      rw [hrun, Except.ok.injEq, Prod.mk.injEq] at hmalloc
      exact absurd hmalloc.2.symm hp
    · rintro ⟨n, hn, hroom⟩
      have := hsmall n hn
      omega
  · exact ⟨fun _ => ⟨f, by simp, hfit⟩, fun _ => ⟨s₁, _, f + 16, hfree, hrun, by omega⟩⟩

/-- **Freed memory is reusable** exactly if the blocks that `my_free` goes
through (the freed one, then the free list) have room after one pass. Where
no node of the list touches the next one, this says: some free block has room
already, or the block ends where the first free block begins and that one has
16 bytes. -/
theorem reusable_iff {s : State} (h : HeapTiled s) {b : Nat × Nat} (hb : b ∈ s.live)
    (page : Page) :
    (Reusable s.heap page b ↔ ∃ nodes, FreeNodes s.heap nodes ∧
      HasRoom (b.2 + 48) (liveBlock b :: nodes.map s.heap.freeBlock)) ∧
    (Separated s.heap → (Reusable s.heap page b ↔
      (∃ nodes, FreeNodes s.heap nodes ∧ ∃ n ∈ nodes, b.2 + 32 ≤ s.heap.size n) ∨
      s.heap.head ≠ 0 ∧ b.1 + 16 + b.2 = s.heap.head ∧ 16 ≤ s.heap.size s.heap.head)) := by
  obtain ⟨nodes, hlayout⟩ := h.layout
  rw [reusable_hasRoom hlayout hb page]
  refine ⟨⟨fun hroom => ⟨nodes, hlayout.freeNodes, hroom⟩, ?_⟩, fun hsep => ?_⟩
  · rintro ⟨nodes', hnodes, hroom⟩
    exact hnodes.unique hlayout.freeNodes ▸ hroom
  · rw [hasRoom_cons_parted (hlayout.separated_iff.mp hsep)]
    constructor
    · intro hroom
      rcases hroom with hlong | ⟨c, hc, hlong⟩ | ⟨c, rest, heq, htouch, hlong⟩
      · simp only [liveBlock] at hlong
        omega
      · obtain ⟨n, hn, rfl⟩ := List.mem_map.mp hc
        simp only [Heap.freeBlock] at hlong
        exact Or.inl ⟨nodes, hlayout.freeNodes, n, hn, by omega⟩
      · obtain ⟨n, tail, rfl, rfl, -⟩ := List.map_eq_cons_iff.mp heq
        have hhead : s.heap.head = n := hlayout.list.1
        have hend : b.1 + (16 + b.2) = n := htouch
        simp only [liveBlock, Heap.freeBlock] at hlong
        rw [hhead]
        exact Or.inr ⟨node_ne_zero hlayout.tiles (by simp), by omega, by omega⟩
    · intro hcond
      rcases hcond with ⟨nodes', hnodes, n, hn, hlong⟩ | ⟨hne, hend, hlong⟩
      · rw [hnodes.unique hlayout.freeNodes] at hn
        refine Or.inr (Or.inl ⟨_, List.mem_map_of_mem hn, ?_⟩)
        simp only [Heap.freeBlock]
        omega
      · cases nodes with
        | nil => exact absurd hlayout.list hne
        | cons n tail =>
            have hhead : s.heap.head = n := hlayout.list.1
            rw [hhead] at hend hlong
            refine Or.inr (Or.inr ⟨_, _, rfl, ?_, ?_⟩)
            · show b.1 + (16 + b.2) = n
              omega
            · simp only [liveBlock, Heap.freeBlock]
              omega

/-- With almost the whole page free, 100 bytes can be allocated again. -/
theorem reusable_first : Reusable firstBlock.heap .sample (4096, 100) := by
  have hroom : 100 + 32 ≤ firstBlock.heap.size firstBlock.heap.head := by decide +kernel
  have hend : firstBlock.heap.next firstBlock.heap.head = 0 := by decide +kernel
  have hne : firstBlock.heap.head ≠ 0 := by decide +kernel
  refine (reusable_iff firstBlock_tiled (by simp [firstBlock]) _).1.mpr
    ⟨[firstBlock.heap.head], ⟨⟨rfl, hend⟩, by simpa using hne⟩, ?_⟩
  refine .of_mem (b := firstBlock.heap.freeBlock firstBlock.heap.head) (by simp) ?_
  simp only [Heap.freeBlock]
  omega

/-- The heap after `my_malloc(2000)` on a zeroed page. -/
def halfPage : Heap := (mapped (fun _ => 0) .sample).splitAt 2000 0 4096

/-- Two blocks of 2000 bytes fill a page up to a node of 48 bytes. -/
def fullPage : State where
  heap := halfPage.splitAt 2000 0 6112
  live := [(6112, 2000), (4096, 2000)]

theorem halfPage_tiling : Tiling halfPage [(4096, 2000)] ([] ++ 6112 :: []) :=
  mapped_split (fun _ => 0) .sample (by omega)

theorem fullPage_tiled : HeapTiled fullPage := by
  have hfit : 2000 + 32 ≤ halfPage.size 6112 := by decide +kernel
  have hnext : halfPage.next (6112 + 16 + 2000) = halfPage.next 6112 := by decide +kernel
  exact Tiling.heapTiled (s := fullPage) (split_tiling halfPage_tiling hfit hnext)

/-- There the first block is freed, and the same request fails: its node has
2000 bytes, `find_free` asks for 2032. -/
theorem freed_not_reusable :
    ¬ ∀ (s : State) (page : Page), HeapTiled s → ∀ b ∈ s.live, Reusable s.heap page b := by
  intro hall
  obtain ⟨s₁, s₂, p, hfree, hmalloc, hp⟩ := hall fullPage .sample
    fullPage_tiled (4096, 2000) (by simp [fullPage])
  have heval : ((myFree fullPage.heap (4096 + 16)).toOption.bind fun t =>
      (myMalloc t .sample 2000).toOption.map Prod.snd) = some 0 := by
    decide +kernel
  rw [hfree, Except.toOption, Option.bind_some, hmalloc] at heval
  exact hp (Option.some.inj heval)

end Os377.Malloc
