import Os377.Malloc.Calls

/-!
# Request sizes

`find_free` compares a node with `size + sizeof(header_t) + sizeof(node_t)`,
a sum of `size_t`s. The 32 largest requests wrap it around to less than 32,
and then almost every node is large enough. Below them `my_malloc` returns
`NULL` exactly when no node has room.
-/

namespace Os377.Malloc

open Os377.Lib

variable {s : Heap} {live : List (Nat × Nat)} {nodes : List Nat} {size : Nat}

/-- The nodes of the free list. -/
structure FreeNodes (s : Heap) (nodes : List Nat) : Prop where
  list : Seg s.next s.head nodes 0
  nonzero : ∀ n ∈ nodes, n ≠ 0

/-- The list is determined by the heap. -/
theorem FreeNodes.unique {as bs : List Nat} (ha : FreeNodes s as) (hb : FreeNodes s bs) :
    as = bs := by
  obtain ⟨rest, rfl, hrest⟩ := ha.list.split_of_ne ha.nonzero hb.list
  cases rest with
  | nil => rw [List.append_nil]
  | cons n rest => exact absurd hrest.1.symm (hb.nonzero n (by simp))

theorem Layout.freeNodes (h : Layout s live nodes) : FreeNodes s nodes :=
  ⟨h.list, fun _ hn => node_ne_zero h.tiles hn⟩

/-- A tiled heap that has a free node. -/
theorem HeapTiled.tiling {s : State} (h : HeapTiled s) (hhead : s.heap.head ≠ 0) :
    ∃ nodes, Tiling s.heap s.live nodes := by
  obtain ⟨nodes, hlayout⟩ := h.layout
  refine ⟨nodes, hlayout.tiling ?_⟩
  intro heq
  subst heq
  exact hhead hlayout.list

/-- The block `[p - 16, p + size)` lies in the free block of the node `n` of
`s`; behind it the same free block holds a node of the new heap `s'`, which
its free list reaches. -/
structure Carved (s s' : Heap) (n p size : Nat) : Prop where
  start : n + 16 ≤ p
  inside : p + size ≤ n + 16 + s.size n
  rest : s'.size (p + size) + size + 16 = s.size n
  room : 16 ≤ s'.size (p + size)
  ends : p + size + 16 + s'.size (p + size) = n + 16 + s.size n
  listed : ∃ before, Seg s'.next s'.head before (p + size)

/-- What a call of `my_malloc` owes its caller, on a heap that has the free
nodes `nodes` after `heap()`: `NULL` exactly if no node has room for the block
and a node behind it, in unbounded arithmetic, and otherwise a block cut from
a free block. -/
def MallocExact (s : Heap) (nodes : List Nat) (page : Page) (size : Nat) : Prop :=
  ∃ s' p, myMalloc s page size = .ok (s', p) ∧
    (p = 0 ↔ ¬ ∃ n ∈ nodes, size + 32 ≤ (heap s page).size n) ∧
    (p ≠ 0 → ∃ n ∈ nodes, Carved (heap s page) s' n p size)

/-- The block that `split` cuts off. -/
theorem split_carved {before after : List Nat} {f : Nat}
    (h : Tiling s live (before ++ f :: after)) (hfit : size + 32 ≤ s.size f) :
    Carved s (s.splitAt size (before.getLastD 0) f) f (f + 16) size := by
  have hblock := split_block h hfit
  simp only [Heap.freeBlock, Prod.mk.injEq] at hblock
  exact ⟨le_refl _, by omega, by omega, by omega, by omega, before, split_before h hfit⟩

/-- A request whose sum does not wrap around. -/
theorem mallocExact_of_lt (h : Tiling s live nodes) (page : Page)
    (hsize : size + 32 < 18446744073709551616) : MallocExact s nodes page size := by
  rw [MallocExact, h.heap_eq page]
  rcases myMalloc_spec h page hsize with
    ⟨-, hrun, hsmall⟩ | ⟨before, f, after, rfl, hfit, -, hrun⟩
  · refine ⟨s, 0, hrun, ?_, fun hne => absurd rfl hne⟩
    simp only [true_iff, not_exists, not_and]
    intro n hn
    have := hsmall n hn
    omega
  · have hmem : f ∈ before ++ f :: after := by simp
    refine ⟨_, f + 16, hrun, ?_, fun _ => ⟨f, hmem, split_carved h hfit⟩⟩
    constructor
    · intro h0
      omega
    · intro hnone
      exact absurd ⟨f, hmem, hfit⟩ hnone

/-- The other requests: the bound of `find_free` is what is left of the sum. -/
theorem wrap_request_over (hsize : size < 18446744073709551616)
    (hover : 18446744073709551616 ≤ size + 32) :
    wrap ((size : Int) + 16 + 16) = size + 32 - 18446744073709551616 := by
  rw [wrap]
  omega

theorem of_bind_ok {α β : Type} {x : Except Fault α} {f : α → Except Fault β} {r : β}
    (h : (x >>= f) = .ok r) : ∃ a, x = .ok a ∧ f a = .ok r := by
  cases x with
  | error e => cases h
  | ok a => exact ⟨a, rfl, h⟩

/-- `split` allocates at the node it is given. -/
theorem split_original {previous f : Nat} {r : Heap × Nat}
    (hsplit : split s size previous f = .ok r) : r.2 = f := by
  rw [split] at hsplit
  split at hsplit
  · cases hsplit
  · obtain ⟨_, -, hsplit⟩ := of_bind_ok hsplit
    obtain ⟨_, -, hsplit⟩ := of_bind_ok hsplit
    obtain ⟨_, -, hsplit⟩ := of_bind_ok hsplit
    obtain ⟨_, -, hsplit⟩ := of_bind_ok hsplit
    obtain ⟨_, -, hsplit⟩ := of_bind_ok hsplit
    cases hsplit
    rfl

/-- Once a node is found, a call that returns does not return `NULL`. -/
theorem myMalloc_found (h : Tiling s live nodes) (page : Page) {f previous p : Nat} {s' : Heap}
    (hf : f ∈ nodes) (hfound : findFree s size = .ok (some (f, previous)))
    (hrun : myMalloc s page size = .ok (s', p)) : p ≠ 0 := by
  have hin := node_inside h.tiles hf
  have hlt := s.page.addr_lt
  have hwrap : wrap ((f : Int) + 16) = f + 16 := by
    rw [wrap_of_lt (by omega) (by omega)]
    omega
  rw [myMalloc] at hrun
  simp only [h.heap_eq page, hfound, ok_bind] at hrun
  obtain ⟨r, hsplit, hr⟩ := of_bind_ok hrun
  rw [split_original hsplit, hwrap] at hr
  cases hr
  omega

/-- Free nodes are shorter than the page. -/
theorem size_lt (h : Tiling s live nodes) {n : Nat} (hn : n ∈ nodes) : s.size n < 4096 := by
  have := node_inside h.tiles hn
  omega

/-- No node has room for a request whose sum wraps around: `my_malloc` has to
return `NULL`, and does so exactly if no node reaches the wrapped bound. -/
theorem mallocExact_over (h : Tiling s live nodes) (page : Page)
    (hsize : size < 18446744073709551616) (hover : 18446744073709551616 ≤ size + 32) :
    MallocExact s nodes page size ↔
      ∀ n ∈ nodes, s.size n < size + 32 - 18446744073709551616 := by
  have hnone : ¬ ∃ n ∈ nodes, size + 32 ≤ s.size n := by
    rintro ⟨n, hn, hroom⟩
    have := size_lt h hn
    omega
  rw [MallocExact, h.heap_eq page]
  have hspec := findFree_spec h size
  rw [wrap_request_over hsize hover] at hspec
  rcases hspec with ⟨hfree, hsmall⟩ | ⟨before, f, after, rfl, hfit, hfound⟩
  · refine ⟨fun _ => hsmall, fun _ => ⟨s, 0, myMalloc_none h page hfree, ?_, fun hne => ?_⟩⟩
    · exact ⟨fun _ => hnone, fun _ => rfl⟩
    · exact absurd rfl hne
  · have hmem : f ∈ before ++ f :: after := by simp
    constructor
    · rintro ⟨s', p, hrun, hnull, -⟩
      exact absurd (hnull.mpr hnone) (myMalloc_found h page hmem hfound hrun)
    · intro hall
      have := hall f hmem
      omega

/-- `heap()` leaves a tiled heap alone, and maps a page if there is none. -/
theorem heap_tiled {s : State} (h : s.heap.head = 0 ∨ HeapTiled s) (page : Page) :
    ∃ live nodes, Tiling (heap s.heap page) live nodes := by
  by_cases hhead : s.heap.head = 0
  · rw [heap, if_pos hhead]
    exact ⟨[], [page.addr], mapped_tiling s.heap.mem page⟩
  · obtain ⟨nodes, ht⟩ := (h.resolve_left hhead).tiling hhead
    rw [ht.heap_eq page]
    exact ⟨s.live, nodes, ht⟩

/-- The second `heap()` does nothing. -/
theorem heap_heap (s : Heap) (page : Page) : heap (heap s page) page = heap s page := by
  by_cases hhead : s.head = 0
  · have hne : (mapped s.mem page).head ≠ 0 := Nat.pos_iff_ne_zero.mp page.addr_pos
    rw [heap, heap, if_pos hhead, if_neg hne]
  · simp only [heap, if_neg hhead]

/-- `my_malloc` begins with `heap()`. -/
theorem myMalloc_heap (s : Heap) (page : Page) :
    myMalloc (heap s page) page size = myMalloc s page size := by
  rw [myMalloc, myMalloc]
  simp only [heap_heap]

theorem mallocExact_heap (s : Heap) (page : Page) :
    MallocExact (heap s page) nodes page size ↔ MallocExact s nodes page size := by
  rw [MallocExact, MallocExact, heap_heap, myMalloc_heap]

/-- **Request sizes.** For every request of 64 bits on every tiled heap (or
before there is one): `my_malloc` does what it owes its caller exactly if the
sum `size + 32` does not wrap around, or wraps to more than every free node
has. -/
theorem malloc_exact_iff {s : State} (h : s.heap.head = 0 ∨ HeapTiled s) (page : Page)
    (size : Nat) (hsize : size < 18446744073709551616) :
    ∃ nodes, FreeNodes (heap s.heap page) nodes ∧
      (MallocExact s.heap nodes page size ↔
        size + 32 < 18446744073709551616 ∨
          ∀ n ∈ nodes, (heap s.heap page).size n < size + 32 - 18446744073709551616) := by
  obtain ⟨live, nodes, ht⟩ := heap_tiled h page
  refine ⟨nodes, ht.layout.freeNodes, ?_⟩
  rw [← mallocExact_heap]
  by_cases hlt : size + 32 < 18446744073709551616
  · exact ⟨fun _ => Or.inl hlt, fun _ => mallocExact_of_lt ht page hlt⟩
  · rw [mallocExact_over ht page hsize (by omega)]
    exact ⟨Or.inr, fun hc => hc.resolve_left hlt⟩

/-- A request of 100 bytes on a fresh heap is served. -/
theorem malloc_exact_hundred :
    ∃ nodes, FreeNodes (mapped (fun _ => 0) ⟨4096, by decide, by decide⟩) nodes ∧
      MallocExact (mapped (fun _ => 0) ⟨4096, by decide, by decide⟩) nodes
        ⟨4096, by decide, by decide⟩ 100 := by
  have ht := mapped_tiling (fun _ => 0) ⟨4096, by decide, by decide⟩
  have htiled : HeapTiled ⟨mapped (fun _ => 0) ⟨4096, by decide, by decide⟩, []⟩ :=
    Tiling.heapTiled (s := ⟨_, []⟩) ht
  obtain ⟨nodes, hnodes, hiff⟩ :=
    malloc_exact_iff (Or.inr htiled) ⟨4096, by decide, by decide⟩ 100 (by decide)
  rw [ht.heap_eq] at hnodes
  exact ⟨nodes, hnodes, hiff.mpr (Or.inl (by decide))⟩

/-- `my_malloc((size_t)-1)` on a fresh heap: the sum wraps around to 31, and
the only node, of 4080 bytes, is split. -/
theorem malloc_too_much :
    ¬ ∀ (s : State) (page : Page) (size : Nat), HeapTiled s → size < 18446744073709551616 →
      ∀ nodes, FreeNodes (heap s.heap page) nodes → MallocExact s.heap nodes page size := by
  intro hall
  have ht := mapped_tiling (fun _ => 0) ⟨4096, by decide, by decide⟩
  have htiled : HeapTiled ⟨mapped (fun _ => 0) ⟨4096, by decide, by decide⟩, []⟩ :=
    Tiling.heapTiled (s := ⟨_, []⟩) ht
  have hnodes : FreeNodes (heap (mapped (fun _ => 0) ⟨4096, by decide, by decide⟩)
      ⟨4096, by decide, by decide⟩) [4096] := by
    rw [ht.heap_eq]
    exact ht.layout.freeNodes
  obtain ⟨s', p, hrun, hnull, -⟩ := hall _ ⟨4096, by decide, by decide⟩ 18446744073709551615 htiled
    (by decide) [4096] hnodes
  have hp : (myMalloc (mapped (fun _ => 0) ⟨4096, by decide, by decide⟩)
      ⟨4096, by decide, by decide⟩ 18446744073709551615).toOption.map Prod.snd = some 4112 := by
    decide +kernel
  rw [hrun] at hp
  have hp : p = 4112 := Option.some.inj hp
  have hsize : (mapped (fun _ => 0) ⟨4096, by decide, by decide⟩).size 4096 = 4080 :=
    mapped_size _ _
  rw [ht.heap_eq] at hnull
  have := hnull.mpr (by simp [hsize])
  omega

end Os377.Malloc
