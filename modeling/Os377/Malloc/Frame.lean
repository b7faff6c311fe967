import Os377.Malloc.Requests

/-!
# Live data

The allocator keeps its books inside the heap, next to the data of the
program. `my_malloc` writes only into free blocks and `my_free` only into free
nodes and the header it is given, so no byte of a live block changes.
-/

namespace Os377.Malloc

open Os377.Lib

variable {s s' : Heap} {live : List (Nat × Nat)} {nodes : List Nat} {size : Nat}

/-- The pages have no byte in common. -/
def Page.Apart (p q : Page) : Prop := p.addr + 4096 ≤ q.addr ∨ q.addr + 4096 ≤ p.addr

theorem mapped_outside {mem : Mem} {page : Page} {x : Nat}
    (hx : x < page.addr ∨ page.addr + 4096 ≤ x) : (mapped mem page).mem x = mem x := by
  simp only [mapped]
  rw [putLe_outside (by omega), putLe_outside (by omega), splice_outside (by omega)]

/-- `my_malloc` writes only into free blocks, and the new block is cut from one
of them. -/
theorem myMalloc_frame (h : Tiling s live nodes) (page : Page)
    (hsize : size + 32 < 18446744073709551616) :
    ∃ s' p, myMalloc s page size = .ok (s', p) ∧
      (∀ x, (∀ n ∈ nodes, ¬ (s.freeBlock n).Has x) → s'.mem x = s.mem x) ∧
      (p ≠ 0 → ∃ n ∈ nodes, n + 16 ≤ p ∧ p + size ≤ n + 16 + s.size n) := by
  rcases myMalloc_spec h page hsize with
    ⟨-, hrun, -⟩ | ⟨before, f, after, rfl, hfit, -, hrun⟩
  · exact ⟨s, 0, hrun, fun _ _ => rfl, fun hne => absurd rfl hne⟩
  · refine ⟨_, f + 16, hrun, fun x hx => ?_, fun _ => ⟨f, by simp, le_refl _, by omega⟩⟩
    have houtside : ∀ n ∈ before ++ f :: after, x < n ∨ n + (16 + s.size n) ≤ x := by
      intro n hn
      by_contra hin
      exact hx n hn ⟨by simp only [Heap.freeBlock]; omega, by simp only [Heap.freeBlock]; omega⟩
    have hf := houtside f (by simp)
    refine split_outside (by omega) fun n hn => ?_
    have := houtside n (by simp [hn])
    omega

/-- `my_free` writes only into free nodes and the header of its block. -/
theorem myFree_frame (h : Layout s live nodes) {b : Nat × Nat} (hb : b ∈ live) :
    ∃ s', myFree s (b.1 + 16) = .ok s' ∧
      ∀ x, (x < b.1 ∨ b.1 + 16 ≤ x) → (∀ n ∈ nodes, x < n ∨ n + 16 ≤ x) →
        s'.mem x = s.mem x := by
  obtain ⟨s', nodes', hrun, hc⟩ := myFree_spec h hb
  refine ⟨s', hrun, fun x hx hn => ?_⟩
  rw [hc.frame x (List.forall_mem_cons.mpr ⟨hx, hn⟩)]
  exact release_outside hx

/-- After `heap()`: no live byte was written, and the free blocks are apart
from the live ones. -/
theorem heap_live {s : State} (h : HeapTiled s) (page : Page)
    (hpage : s.heap.head = 0 → page.Apart s.heap.page) :
    ∃ live nodes, Tiling (heap s.heap page) live nodes ∧
      ∀ b ∈ s.live,
        (∀ x, (liveBlock b).Has x → (heap s.heap page).mem x = s.heap.mem x) ∧
        ∀ n ∈ nodes, n + 16 + (heap s.heap page).size n ≤ b.1 ∨ b.1 + 16 + b.2 ≤ n := by
  obtain ⟨nodes, hlayout⟩ := h.layout
  by_cases hhead : s.heap.head = 0
  · -- a new page, away from the old one
    rw [heap, if_pos hhead]
    have ht := mapped_tiling s.heap.mem page
    refine ⟨[], [page.addr], ht, fun b hb => ⟨fun x hx => ?_, fun n hn => ?_⟩⟩
    · have hin := hlayout.live_inside hb
      have h1 := hx.1
      have h2 := hx.2
      simp only [liveBlock] at h1 h2
      have := hpage hhead
      rw [Page.Apart] at this
      exact mapped_outside (by omega)
    · have hin := hlayout.live_inside hb
      have hnode : page.addr ≤ n ∧ n + 16 + (mapped s.heap.mem page).size n ≤ page.addr + 4096 :=
        node_inside ht.tiles hn
      have := hpage hhead
      rw [Page.Apart] at this
      omega
  · obtain ⟨nodes, ht⟩ := h.tiling hhead
    rw [ht.heap_eq page]
    exact ⟨s.live, nodes, ht, fun b hb =>
      ⟨fun _ _ => rfl, fun n hn => ht.layout.live_node_apart hb hn⟩⟩

/-- **Live data is never touched.** On every tiled heap, `my_malloc` of at most
a page leaves every byte of every live block as it is, and the new block is
disjoint from all of them; `my_free` of a live block leaves every byte of every
other live block as it is. When the free list is empty, `my_malloc` maps a new
page; then that page is one that was not mapped before. -/
theorem live_data_untouched {s : State} (h : HeapTiled s) :
    (∀ page size, size ≤ 4096 → (s.heap.head = 0 → page.Apart s.heap.page) →
      ∃ s' p, myMalloc s.heap page size = .ok (s', p) ∧
        (∀ b ∈ s.live, ∀ x, (liveBlock b).Has x → s'.mem x = s.heap.mem x) ∧
        (p ≠ 0 → 16 ≤ p ∧ ∀ b ∈ s.live, (liveBlock (p - 16, size)).Apart (liveBlock b))) ∧
    ∀ b ∈ s.live, ∃ s', myFree s.heap (b.1 + 16) = .ok s' ∧
      ∀ c ∈ s.live, c ≠ b → ∀ x, (liveBlock c).Has x → s'.mem x = s.heap.mem x := by
  constructor
  · intro page size hsize hpage
    obtain ⟨live, nodes, ht, hlive⟩ := heap_live h page hpage
    obtain ⟨s', p, hrun, hframe, hblock⟩ :=
      myMalloc_frame ht page (show size + 32 < 18446744073709551616 by omega)
    rw [myMalloc_heap] at hrun
    refine ⟨s', p, hrun, fun b hb x hx => ?_, fun hp => ?_⟩
    · rw [← (hlive b hb).1 x hx]
      refine hframe x fun n hn hin => ?_
      have hapart := (hlive b hb).2 n hn
      obtain ⟨h1, h2⟩ := hin
      obtain ⟨h3, h4⟩ := hx
      simp only [Heap.freeBlock, liveBlock] at h1 h2 h3 h4
      omega
    · obtain ⟨n, hn, h1, h2⟩ := hblock hp
      refine ⟨by omega, fun b hb x hx => ?_⟩
      have hapart := (hlive b hb).2 n hn
      obtain ⟨⟨h3, h4⟩, h5, h6⟩ := hx
      simp only [liveBlock] at h3 h4 h5 h6
      omega
  · intro b hb
    obtain ⟨nodes, hlayout⟩ := h.layout
    obtain ⟨s', hrun, hframe⟩ := myFree_frame hlayout hb
    refine ⟨s', hrun, fun c hc hne x hx => ?_⟩
    obtain ⟨h1, h2⟩ := hx
    simp only [liveBlock] at h1 h2
    refine hframe x ?_ fun n hn => ?_
    · have := hlayout.live_apart hc hb hne
      omega
    · have := hlayout.live_node_apart hc hn
      omega

/-- A heap with one live block: `my_malloc(100)` on a zeroed page. -/
def firstBlock : State where
  heap := (mapped (fun _ => 0) .sample).splitAt 100 0 4096
  live := [(4096, 100)]

theorem firstBlock_tiled : HeapTiled firstBlock :=
  Tiling.heapTiled (s := firstBlock) (mapped_split _ .sample (by omega))

/-- The second block does not touch the first one. -/
theorem live_data_untouched_second :
    ∃ s' p, myMalloc firstBlock.heap .sample 50 = .ok (s', p) ∧
      ∀ x, (liveBlock (4096, 100)).Has x → s'.mem x = firstBlock.heap.mem x := by
  obtain ⟨s', p, hrun, hkept, -⟩ := (live_data_untouched firstBlock_tiled).1
    .sample 50 (by decide) (fun h => absurd h (by decide +kernel))
  exact ⟨s', p, hrun, hkept (4096, 100) (by simp [firstBlock])⟩

end Os377.Malloc
