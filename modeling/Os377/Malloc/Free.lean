import Os377.Malloc.Frame

/-!
# Freeing a block

`my_free` puts the block in front of the free list and makes one pass over the
list. The pass loses no byte, and it is enough: where no node of the list
touched the next one before, none does afterwards.

A freed header keeps the address of a free node, or `NULL`, in the place of
its magic number, whatever the later passes join it with. A second `my_free`
of the same pointer therefore fails its assertion.
-/

namespace Os377.Malloc

open Os377.Lib

variable {s s' : Heap} {live : List (Nat × Nat)} {nodes : List Nat}

/-- The byte is in a free block. -/
def FreeByte (s : Heap) (x : Nat) : Prop :=
  ∃ nodes, FreeNodes s nodes ∧ ∃ n ∈ nodes, (s.freeBlock n).Has x

/-- No node of the free list ends exactly where the next one on the list
begins. -/
def Separated (s : Heap) : Prop :=
  ∃ nodes, FreeNodes s nodes ∧ nodes.IsChain fun m n => m + 16 + s.size m ≠ n

theorem Layout.freeByte_iff (h : Layout s live nodes) {x : Nat} :
    FreeByte s x ↔ 0 < owners (nodes.map s.freeBlock) x := by
  rw [owners_pos_iff]
  constructor
  · rintro ⟨nodes', hnodes, n, hn, hx⟩
    rw [hnodes.unique h.freeNodes] at hn
    exact ⟨_, List.mem_map_of_mem hn, hx⟩
  · rintro ⟨b, hb, hx⟩
    obtain ⟨n, hn, rfl⟩ := List.mem_map.mp hb
    exact ⟨nodes, h.freeNodes, n, hn, hx⟩

theorem Layout.separated_iff (h : Layout s live nodes) :
    Separated s ↔ Parted (nodes.map s.freeBlock) := by
  have hchain : Parted (nodes.map s.freeBlock) ↔
      nodes.IsChain fun m n => m + 16 + s.size m ≠ n := by
    rw [Parted, List.isChain_map]
    simp only [Block.Touches, Heap.freeBlock, Nat.add_assoc]
  rw [hchain]
  constructor
  · rintro ⟨nodes', hnodes, hsep⟩
    exact hnodes.unique h.freeNodes ▸ hsep
  · exact fun hsep => ⟨nodes, h.freeNodes, hsep⟩

/-- One `my_free` as a step of the program. -/
theorem next_free (live : List (Nat × Nat)) {b : Nat × Nat}
    (hrun : myFree s (b.1 + 16) = .ok s') :
    next ⟨s, live⟩ (.free (b.1 + 16)) = some ⟨s', live.filter fun c => c.1 ≠ b.1⟩ := by
  simp only [next, hrun, Nat.add_sub_cancel]

/-- The other live blocks stay live. -/
theorem Layout.mem_filter (h : Layout s live nodes) {b c : Nat × Nat} (hb : b ∈ live) :
    c ∈ live.filter (fun c => c.1 ≠ b.1) ↔ c ∈ live ∧ c ≠ b := by
  rw [List.mem_filter]
  simp only [ne_eq, decide_eq_true_eq]
  refine and_congr_right fun hc => not_congr ⟨fun heq => ?_, fun heq => congrArg Prod.fst heq⟩
  by_contra hne
  have := h.live_apart hc hb hne
  omega

/-- **`my_free` returns exactly the freed block.** On every tiled heap
`my_free` of a live block ends and leaves a tiled heap of the same page: the
block is not live any more, every other block is, and the free bytes are the
old ones and those of the block. If no node of the list touched the next one
before, none does afterwards. -/
theorem free_returns_block {s : State} (h : HeapTiled s) {b : Nat × Nat} (hb : b ∈ s.live) :
    ∃ s', next s (.free (b.1 + 16)) = some s' ∧ HeapTiled s' ∧ s'.heap.page = s.heap.page ∧
      (∀ c, c ∈ s'.live ↔ c ∈ s.live ∧ c ≠ b) ∧
      (∀ x, FreeByte s'.heap x ↔ FreeByte s.heap x ∨ (liveBlock b).Has x) ∧
      (Separated s.heap → Separated s'.heap) := by
  obtain ⟨nodes, hlayout⟩ := h.layout
  obtain ⟨s', nodes', hrun, hc⟩ := myFree_spec hlayout hb
  have ht := hc.tiling (free_layout hlayout hb)
  have hblocks := hc.blocks
  rw [release_blocks hlayout hb] at hblocks
  refine ⟨_, next_free s.live hrun, ht.heapTiled, hc.page, fun c => hlayout.mem_filter hb,
    fun x => ?_, fun hsep => ?_⟩
  · rw [ht.layout.freeByte_iff, hlayout.freeByte_iff, hblocks, owners_joinPass, owners_cons]
    by_cases hx : (liveBlock b).Has x
    · simp [hx]
    · simp [hx]
  · rw [hlayout.separated_iff] at hsep
    rw [ht.layout.separated_iff, hblocks]
    exact joinPass_cons_parted hsep

/-- The only block of a heap is freed. -/
theorem free_returns_block_first :
    ∃ s', next firstBlock (.free (4096 + 16)) = some s' ∧ HeapTiled s' ∧
      ∀ c, c ∉ s'.live := by
  obtain ⟨s', hs', ht, -, hlive, -⟩ :=
    free_returns_block firstBlock_tiled (b := (4096, 100)) (by simp [firstBlock])
  refine ⟨s', hs', ht, fun c hc => ?_⟩
  obtain ⟨h1, h2⟩ := (hlive c).mp hc
  simp only [firstBlock, List.mem_singleton] at h1
  exact h2 h1

section DoubleFree

/-- A program that only frees blocks it holds. -/
def OnlyFrees (s : State) (a : Act) : Prop := Legal s a ∧ ∃ p, a = .free p

/-- What later calls of `my_free` keep of a freed header at `a`: it is on the
list or away from its nodes, away from the live blocks, and in the place of
its magic number is an address of the page or `NULL`. -/
structure Stale (page : Page) (s : State) (nodes : List Nat) (a : Nat) : Prop where
  layout : Layout s.heap s.live nodes
  same : s.heap.page = page
  inside : page.addr ≤ a ∧ a + 16 ≤ page.addr + 4096
  link : s.heap.next a = 0 ∨ page.addr ≤ s.heap.next a ∧ s.heap.next a < page.addr + 4096
  nodes : ∀ n ∈ nodes, n = a ∨ n + 16 ≤ a ∨ a + 16 ≤ n
  live : ∀ c ∈ s.live, c.1 + 16 + c.2 ≤ a ∨ a + 16 ≤ c.1

variable {page : Page} {t : Heap} {nodes' : List Nat} {a : Nat}

/-- A node that a pass may have written holds an address of the page or
`NULL`. -/
theorem Coalesced.link_inside {p n : Nat} (h : Layout s live (p :: nodes))
    (hc : Coalesced s p (p :: nodes) t nodes') (hn : n ∈ p :: nodes) :
    t.next n = 0 ∨ s.page.addr ≤ t.next n ∧ t.next n < s.page.addr + 4096 := by
  refine (hc.links n hn).imp_right fun hmem => ?_
  have := node_inside h.tiles hmem
  omega

/-- The freed header, right after the call. -/
theorem stale_of_free {s : State} (h : Layout s.heap s.live nodes) {b : Nat × Nat}
    (hb : b ∈ s.live) (hc : Coalesced (s.heap.release b) b.1 (b.1 :: nodes) t nodes') :
    Stale s.heap.page ⟨t, s.live.filter fun c => c.1 ≠ b.1⟩ nodes' b.1 where
  layout := (hc.tiling (free_layout h hb)).layout
  same := hc.page
  inside := by
    have := h.live_inside hb
    omega
  link := by
    have hlink := hc.link_inside (free_layout h hb) List.mem_cons_self
    exact hlink
  nodes n hn := by
    rcases List.mem_cons.mp (hc.sub.subset hn) with heq | hn
    · exact Or.inl heq
    · have := h.live_node_apart hb hn
      omega
  live c hcl := by
    obtain ⟨hcl, hne⟩ := (h.mem_filter hb).mp hcl
    have := h.live_apart hcl hb hne
    omega

/-- It stays what it is when another block is freed: either it is a node of
the list that `coalesce` goes through, or nothing is written into it. -/
theorem Stale.free {s : State} (h : Stale page s nodes a) {c : Nat × Nat} (hcl : c ∈ s.live)
    (hc : Coalesced (s.heap.release c) c.1 (c.1 :: nodes) t nodes') :
    Stale page ⟨t, s.live.filter fun d => d.1 ≠ c.1⟩ nodes' a where
  layout := (hc.tiling (free_layout h.layout hcl)).layout
  same := hc.page.trans h.same
  inside := h.inside
  link := by
    by_cases hmem : a ∈ c.1 :: nodes
    · have hlink := hc.link_inside (free_layout h.layout hcl) hmem
      rw [← h.same]
      exact hlink
    · have hapart := h.live c hcl
      have hframe : t.next a = s.heap.next a := by
        refine getLe_congr fun x h1 h2 => ?_
        rw [hc.frame x (List.forall_mem_cons.mpr ⟨by omega, fun n hn => ?_⟩)]
        · exact release_outside (by omega)
        · have hne : n ≠ a := fun heq => hmem (heq ▸ List.mem_cons_of_mem _ hn)
          have := h.nodes n hn
          omega
      show t.next a = 0 ∨ page.addr ≤ t.next a ∧ t.next a < page.addr + 4096
      rw [hframe]
      exact h.link
  nodes n hn := by
    rcases List.mem_cons.mp (hc.sub.subset hn) with heq | hn
    · have := h.live c hcl
      omega
    · exact h.nodes n hn
  live d hd := h.live d (List.mem_filter.mp hd).1

/-- The run lemma: any number of calls of `my_free`. -/
theorem Stale.path {s s₂ : State} (h : Stale page s nodes a)
    (hpath : calls.PathUnder OnlyFrees s s₂) : ∃ nodes', Stale page s₂ nodes' a := by
  induction hpath with
  | refl => exact ⟨nodes, h⟩
  | step _ hstep hn ih =>
      obtain ⟨nodes, h⟩ := ih
      obtain ⟨hlegal, p, rfl⟩ := hstep
      obtain ⟨c, hcl, rfl⟩ := hlegal
      obtain ⟨t, nodes', hrun, hc⟩ := myFree_spec h.layout hcl
      have hnext := hn.symm.trans (next_free _ hrun)
      exact ⟨nodes', Option.some.inj hnext ▸ h.free hcl hc⟩

/-- The assertion of `my_free` reads the low half of the stale link. -/
theorem Stale.assertion {s : State} (h : Stale page s nodes a)
    (hmagic : ∀ x, page.addr ≤ x → x < page.addr + 4096 → x % 4294967296 ≠ magic) :
    myFree s.heap (a + 16) = .error .assertion := by
  have hin := h.inside
  have hlt := page.addr_lt
  have hp : wrap (((a + 16 : Nat) : Int) - 16) = a := by
    rw [wrap_of_lt (by omega) (by omega)]
    omega
  have hload : s.heap.load (a + 8) 4 = .ok (s.heap.next a % 4294967296) := by
    rw [load_ok ⟨by rw [h.same]; omega, by rw [h.same]; omega⟩]
    exact congrArg Except.ok (getLe_mod (n := 4) (k := 4)).symm
  have hne : s.heap.next a % 4294967296 ≠ magic := by
    rcases h.link with h0 | hlink
    · rw [h0]
      decide
    · exact hmagic _ hlink.1 hlink.2
  rw [myFree]
  simp only [hp, hload, ok_bind]
  rw [if_pos hne]

/-- **Double free is detected.** If no address of the page has `MAGIC` as its
low half: once a live block of a tiled heap was freed, and after any number of
further calls of `my_free` on other live blocks, a second `my_free` of it fails
the assertion. -/
theorem double_free_detected {s : State} (h : HeapTiled s) {b : Nat × Nat} (hb : b ∈ s.live)
    (hmagic : ∀ x, s.heap.page.addr ≤ x → x < s.heap.page.addr + 4096 →
      x % 4294967296 ≠ magic) :
    ∃ s₁, calls.next s (.free (b.1 + 16)) = some s₁ ∧
      ∀ s₂, calls.PathUnder OnlyFrees s₁ s₂ → myFree s₂.heap (b.1 + 16) = .error .assertion := by
  obtain ⟨nodes, hlayout⟩ := h.layout
  obtain ⟨t, nodes', hrun, hc⟩ := myFree_spec hlayout hb
  refine ⟨_, next_free s.live hrun, fun s₂ hpath => ?_⟩
  obtain ⟨nodes₂, hstale⟩ := (stale_of_free hlayout hb hc).path hpath
  exact hstale.assertion hmagic

/-- The page at 4096: the second `my_free` of its only block. -/
theorem double_free_detected_first :
    ∃ s₁, calls.next firstBlock (.free (4096 + 16)) = some s₁ ∧
      myFree s₁.heap (4096 + 16) = .error .assertion := by
  have hpage : firstBlock.heap.page.addr = 4096 := by decide +kernel
  obtain ⟨s₁, hs₁, hall⟩ := double_free_detected firstBlock_tiled (b := (4096, 100))
    (by simp [firstBlock]) fun x h1 h2 => by
      rw [hpage] at h1 h2
      rw [magic]
      omega
  exact ⟨s₁, hs₁, hall s₁ .refl⟩

end DoubleFree

end Os377.Malloc
