import Os377.Malloc.Tiling

/-!
# Programs on the heap

What `my_malloc`, `my_free` and the program's own writes do to a tiled heap,
and from it what holds along every run. `split` leaves the `next` of the new
free node to whatever bytes were there, so a run stays tiled as long as every
successful `my_malloc` happens to find the right bytes (`NextSurvives`); a
run of four calls on a fresh heap loses most of it.
-/

namespace Os377.Malloc

open Os377.Lib Function

variable {s s' : Heap} {live : List (Nat × Nat)} {nodes : List Nat}

namespace Layout

theorem live_inside (h : Layout s live nodes) {b : Nat × Nat} (hb : b ∈ live) :
    s.page.addr ≤ b.1 ∧ b.1 + 16 + b.2 ≤ s.page.addr + 4096 := by
  have := h.tiles.inside (List.mem_append_right _ (List.mem_map_of_mem hb))
    (by simp only [liveBlock]; omega)
  simp only [liveBlock] at this
  omega

/-- A live block and a free node have no byte in common. -/
theorem live_node_apart (h : Layout s live nodes) {b : Nat × Nat} {n : Nat} (hb : b ∈ live)
    (hn : n ∈ nodes) : n + 16 + s.size n ≤ b.1 ∨ b.1 + 16 + b.2 ≤ n := by
  have := (h.tiles.apart_append (List.mem_map_of_mem hn) (List.mem_map_of_mem hb)).ends
    (by simp only [Heap.freeBlock]; omega) (by simp only [liveBlock]; omega)
  simp only [Heap.freeBlock, liveBlock] at this
  omega

/-- Two live blocks have no byte in common. -/
theorem live_apart (h : Layout s live nodes) {b c : Nat × Nat} (hb : b ∈ live) (hc : c ∈ live)
    (hne : b ≠ c) : b.1 + 16 + b.2 ≤ c.1 ∨ c.1 + 16 + c.2 ≤ b.1 := by
  have hneb : liveBlock b ≠ liveBlock c := by
    intro heq
    simp only [liveBlock, Prod.mk.injEq] at heq
    exact hne (Prod.ext heq.1 (by omega))
  have := (h.tiles.apart (List.mem_append_right _ (List.mem_map_of_mem hb))
    (List.mem_append_right _ (List.mem_map_of_mem hc)) hneb).ends
    (by simp only [liveBlock]; omega) (by simp only [liveBlock]; omega)
  simp only [liveBlock] at this
  omega

end Layout

/-- Writes that touch no node and no header keep the tiling. -/
theorem Tiling.congr (h : Tiling s live nodes) (hpage : s'.page = s.page) (hhead : s'.head = s.head)
    (hnode : ∀ n ∈ nodes, ∀ x, n ≤ x → x < n + 16 → s'.mem x = s.mem x)
    (hlive : ∀ b ∈ live, ∀ x, b.1 ≤ x → x < b.1 + 16 → s'.mem x = s.mem x) :
    Tiling s' live nodes where
  list := by
    rw [hhead]
    exact h.list.congr fun n hn => (node_congr (hnode n hn)).2
  nonempty := h.nonempty
  header b hb := by
    obtain ⟨h1, h2⟩ := h.header b hb
    rw [(node_congr (hlive b hb)).1, ← h2]
    exact ⟨h1, getLe_congr fun x h3 h4 => hlive b hb x (by omega) (by omega)⟩
  tiles := by
    rw [hpage]
    refine h.tiles.congr fun x => ?_
    rw [List.map_congr_left (g := s.freeBlock) fun n hn => ?_]
    rw [Heap.freeBlock, Heap.freeBlock, (node_congr (hnode n hn)).1]

section Malloc

/-- The heap after `split`. -/
def Heap.splitAt (s : Heap) (size previous f : Nat) : Heap :=
  let s1 := s.put (f + 16 + size) 8 (s.size f - size - 16)
  let s2 := if previous = 0 then { s1 with head := f + 16 + size }
    else s1.put (previous + 8) 8 (f + 16 + size)
  (s2.put f 8 size).put (f + 8) 4 magic

theorem splitAt_page {size previous f : Nat} : (s.splitAt size previous f).page = s.page := by
  simp only [Heap.splitAt]
  split <;> rfl

theorem splitAt_head {size previous f : Nat} :
    (s.splitAt size previous f).head = if previous = 0 then f + 16 + size else s.head := by
  simp only [Heap.splitAt]
  split <;> rfl

theorem splitAt_outside {size previous f x : Nat} (h1 : x < f ∨ f + 12 ≤ x)
    (h2 : x < f + 16 + size ∨ f + 16 + size + 8 ≤ x)
    (h3 : previous = 0 ∨ x < previous + 8 ∨ previous + 16 ≤ x) :
    (s.splitAt size previous f).mem x = s.mem x := by
  simp only [Heap.splitAt, Heap.put_mem]
  rw [putLe_outside (by omega), putLe_outside (by omega)]
  split
  · exact putLe_outside h2
  · rw [Heap.put_mem, putLe_outside (by omega)]
    exact putLe_outside h2

/-- The header that `split` writes. -/
theorem splitAt_header {size previous f : Nat} (hsize : size < 18446744073709551616) :
    (s.splitAt size previous f).size f = size ∧
      getLe (s.splitAt size previous f).mem (f + 8) 4 = magic := by
  constructor
  · rw [Heap.size, Heap.splitAt]
    simp only [Heap.put_mem]
    rw [getLe_putLe_of_disjoint (by omega), getLe_putLe (by norm_num; omega)]
  · rw [Heap.splitAt]
    simp only [Heap.put_mem]
    exact getLe_putLe (by decide)

/-- The size of the new free node. -/
theorem splitAt_size {size previous f : Nat} (hlt : s.size f < 18446744073709551616)
    (hprev : previous = 0 ∨ f + 16 + size + 8 ≤ previous + 8 ∨ previous + 16 ≤ f + 16 + size) :
    (s.splitAt size previous f).size (f + 16 + size) = s.size f - size - 16 := by
  rw [Heap.size, Heap.splitAt]
  simp only [Heap.put_mem]
  rw [getLe_putLe_of_disjoint (by omega), getLe_putLe_of_disjoint (by omega)]
  split
  · exact getLe_putLe (by norm_num; omega)
  · rw [Heap.put_mem, getLe_putLe_of_disjoint (by omega)]
    exact getLe_putLe (by norm_num; omega)

/-- The link of the previous node. -/
theorem splitAt_next {size previous f : Nat} (hne : previous ≠ 0)
    (hlt : f + 16 + size < 18446744073709551616)
    (hprev : previous + 16 ≤ f ∨ f + 12 ≤ previous + 8) :
    (s.splitAt size previous f).next previous = f + 16 + size := by
  rw [Heap.next, Heap.splitAt]
  simp only [Heap.put_mem]
  rw [getLe_putLe_of_disjoint (by omega), getLe_putLe_of_disjoint (by omega), if_neg hne]
  exact getLe_putLe (by norm_num; omega)

variable {before after : List Nat} {f size : Nat}

/-- The node before `f`: `0`, or a node of the list. -/
theorem getLastD_mem (before : List Nat) :
    (before = [] ∧ before.getLastD 0 = 0) ∨
      ∃ as a, before = as ++ [a] ∧ before.getLastD 0 = a := by
  rcases List.eq_nil_or_concat' before with rfl | ⟨as, a, rfl⟩
  · exact Or.inl ⟨rfl, rfl⟩
  · exact Or.inr ⟨as, a, rfl, by simp⟩

theorem split_eq (h : Tiling s live (before ++ f :: after)) (hfit : size + 32 ≤ s.size f) :
    split s size (before.getLastD 0) f = .ok (s.splitAt size (before.getLastD 0) f, f) := by
  have hf := node_inside h.tiles (n := f) (by simp)
  have hlt := s.page.addr_lt
  have hpos := s.page.addr_pos
  have hwrap : wrap ((f : Int) + wrap ((size : Int) + 16)) = f + 16 + size := by
    rw [wrap_of_lt (i := (size : Int) + 16) (by omega) (by omega),
      wrap_of_lt (by omega) (by omega)]
    omega
  have hrest : wrap ((s.size f : Int) - size - 16) = s.size f - size - 16 := by
    rw [wrap_of_lt (by omega) (by omega)]
    omega
  have hmap : ∀ {a k : Nat}, s.page.addr ≤ a → a + k ≤ s.page.addr + 4096 → s.Mapped a k :=
    fun h1 h2 => ⟨h1, h2⟩
  have hload : s.load f 8 = .ok (s.size f) := load_ok (hmap hf.1 (by omega))
  rw [split, if_neg (by omega)]
  simp only [hwrap, hload, ok_bind, hrest]
  rw [store_ok (hmap (by omega) (by omega)), ok_bind]
  have hlink : ∀ t : Heap, t.page = s.page →
      link t (before.getLastD 0) (f + 16 + size)
        = .ok (if before.getLastD 0 = 0 then { t with head := f + 16 + size }
          else t.put (before.getLastD 0 + 8) 8 (f + 16 + size)) := by
    intro t ht
    rw [link]
    rcases getLastD_mem before with ⟨-, hlast⟩ | ⟨as, a, hbefore, hlast⟩
    · rw [hlast, if_pos rfl, if_pos rfl]
    · have ha := node_inside h.tiles (n := a) (by simp [hbefore])
      rw [hlast, if_neg (by omega), if_neg (by omega)]
      exact store_ok ⟨by rw [ht]; omega, by rw [ht]; omega⟩
  rw [hlink (s.put (f + 16 + size) 8 (s.size f - size - 16)) rfl, ok_bind]
  have hmapped : ∀ {a k : Nat}, s.page.addr ≤ a → a + k ≤ s.page.addr + 4096 →
      Heap.Mapped (if before.getLastD 0 = 0
        then { s.put (f + 16 + size) 8 (s.size f - size - 16) with head := f + 16 + size }
        else (s.put (f + 16 + size) 8 (s.size f - size - 16)).put (before.getLastD 0 + 8) 8
          (f + 16 + size)) a k := by
    intro a k h1 h2
    split <;> exact ⟨h1, h2⟩
  rw [store_ok (hmapped hf.1 (by omega)), ok_bind,
    store_ok (mapped_put.mpr (hmapped (by omega) (by omega))), ok_bind]
  rfl

section SplitTiling

variable (h : Tiling s live (before ++ f :: after))
include h

/-- Another free node lies before or behind the node that is split. -/
theorem split_apart {n : Nat} (hn : n ∈ before ∨ n ∈ after) :
    n + 16 + s.size n ≤ f ∨ f + 16 + s.size f ≤ n := by
  have hnodup := nodes_nodup h.tiles
  rw [List.nodup_append, List.nodup_cons] at hnodup
  refine node_apart h.tiles (by rcases hn with hn | hn <;> simp [hn]) (by simp) ?_
  intro heq
  subst heq
  rcases hn with hn | hn
  · exact hnodup.2.2 n hn n List.mem_cons_self rfl
  · exact hnodup.2.1.1 hn

omit h in
/-- The previous node: none, or one of the nodes before. -/
theorem split_previous (before : List Nat) :
    before.getLastD 0 = 0 ∨ before.getLastD 0 ∈ before := by
  rcases getLastD_mem before with ⟨-, hlast⟩ | ⟨as, a, hbefore, hlast⟩
  · exact Or.inl hlast
  · exact Or.inr (by rw [hlast, hbefore]; simp)

variable (hfit : size + 32 ≤ s.size f)
include hfit

omit h hfit in
/-- What `split` leaves alone: the bytes behind the size of the new node, and
everything outside the node that is split and the links of the nodes before
it. -/
theorem split_outside {x : Nat}
    (hf : x < f ∨ f + 16 + size + 8 ≤ x) (hbefore : ∀ n ∈ before, x < n + 8 ∨ n + 16 ≤ x) :
    (s.splitAt size (before.getLastD 0) f).mem x = s.mem x := by
  refine splitAt_outside (by omega) (by omega) ?_
  rcases split_previous before with h0 | hmem
  · exact Or.inl h0
  · exact Or.inr (hbefore _ hmem)

/-- The size of another node stays. -/
theorem split_size {n : Nat} (hn : n ∈ before ∨ n ∈ after) :
    (s.splitAt size (before.getLastD 0) f).size n = s.size n := by
  have hfn := split_apart h hn
  refine getLe_congr fun x h1 h2 => split_outside (by omega) fun m hm => ?_
  by_cases hne : n = m
  · omega
  · have := node_apart h.tiles (n := n) (m := m) (by rcases hn with hn | hn <;> simp [hn])
      (List.mem_append_left _ hm) hne
    omega

/-- So does the link of a node that is not the previous one. -/
theorem split_next {n : Nat} (hn : n ∈ before ∨ n ∈ after) (hne : n ≠ before.getLastD 0) :
    (s.splitAt size (before.getLastD 0) f).next n = s.next n := by
  have hfn := split_apart h hn
  refine getLe_congr fun x h1 h2 => splitAt_outside (by omega) (by omega) ?_
  rcases split_previous before with h0 | hmem
  · exact Or.inl h0
  · have := node_apart h.tiles (n := n) (m := before.getLastD 0)
      (by rcases hn with hn | hn <;> simp [hn]) (List.mem_append_left _ hmem) hne
    omega

/-- The new node has what is left of the old one. -/
theorem split_block : (s.splitAt size (before.getLastD 0) f).freeBlock (f + 16 + size)
    = (f + (16 + size), s.size f - size) := by
  have hf := node_inside h.tiles (n := f) (by simp)
  have hlt := s.page.addr_lt
  have hprev : before.getLastD 0 = 0 ∨ f + 16 + size + 8 ≤ before.getLastD 0 + 8 ∨
      before.getLastD 0 + 16 ≤ f + 16 + size := by
    rcases split_previous before with h0 | hmem
    · exact Or.inl h0
    · have := split_apart h (Or.inl hmem)
      omega
  rw [Heap.freeBlock, splitAt_size (by omega) hprev, Nat.add_assoc, Prod.mk.injEq]
  exact ⟨rfl, by omega⟩

/-- The `next` of the new node is whatever was there. -/
theorem split_next_new :
    (s.splitAt size (before.getLastD 0) f).next (f + 16 + size) = s.next (f + 16 + size) := by
  have hf := node_inside h.tiles (n := f) (by simp)
  refine getLe_congr fun x h1 h2 => split_outside (by omega) fun n hn => ?_
  have := split_apart h (Or.inl hn)
  omega

/-- The list up to the new node. -/
theorem split_before :
    Seg (s.splitAt size (before.getLastD 0) f).next (s.splitAt size (before.getLastD 0) f).head
      before (f + 16 + size) := by
  have hf := node_inside h.tiles (n := f) (by simp)
  have hlt := s.page.addr_lt
  obtain ⟨r, hbefore, -⟩ := seg_append.mp h.list
  rw [splitAt_head]
  rcases getLastD_mem before with ⟨hnil, hlast⟩ | ⟨as, a, hcons, hlast⟩
  · rw [if_pos hlast, hnil]
    rfl
  · have ha : a ∈ before := by simp [hcons]
    have hane : a ≠ 0 := node_ne_zero h.tiles (List.mem_append_left _ ha)
    have hapart := split_apart h (Or.inl ha)
    rw [hlast, if_neg hane]
    have hsplit := fun n hn => split_next h hfit (n := n) hn
    rw [hlast] at hsplit
    subst hcons
    refine hbefore.redirect (fun n hn => ?_) (splitAt_next hane (by omega) (by omega))
    have hnd := (List.nodup_append.mp (nodes_nodup h.tiles)).1
    exact hsplit n (Or.inl (by simp [hn])) ((List.nodup_append.mp hnd).2.2 n hn a (by simp))

/-- The split node and the new block own what the old node owned. -/
theorem split_owners (tail : List Block) (x : Nat) :
    owners ((before ++ [f + 16 + size]).map (s.splitAt size (before.getLastD 0) f).freeBlock
        ++ tail ++ ((f, size) :: live).map liveBlock) x
      = owners ((before ++ [f]).map s.freeBlock ++ tail ++ live.map liveBlock) x := by
  have hblocks : before.map (s.splitAt size (before.getLastD 0) f).freeBlock
      = before.map s.freeBlock := by
    apply List.map_congr_left
    intro n hn
    rw [Heap.freeBlock, Heap.freeBlock, split_size h hfit (Or.inl hn)]
  have hold : s.freeBlock f = (f, 16 + size + (s.size f - size)) := by
    rw [Heap.freeBlock, Prod.mk.injEq]
    exact ⟨rfl, by omega⟩
  have hcut : owners [(f, 16 + size + (s.size f - size))] x =
      owners [(f, 16 + size), (f + (16 + size), s.size f - size)] x := owners_split
  rw [owners_cons, owners_cons, owners_cons] at hcut
  simp only [List.map_append, List.map_cons, List.map_nil, owners_append, owners_cons,
    split_block h hfit, hold, hblocks, liveBlock]
  omega

/-- **A split keeps the tiling** when the bytes that become the new node's
`next` hold the `next` of the node that is split. -/
theorem split_tiling (hnext : s.next (f + 16 + size) = s.next f) :
    Tiling (s.splitAt size (before.getLastD 0) f) ((f, size) :: live)
      (before ++ (f + 16 + size) :: after) := by
  have hf := node_inside h.tiles (n := f) (by simp)
  have hlt := s.page.addr_lt
  refine ⟨?_, by simp, ?_, ?_⟩
  · obtain ⟨r, -, rfl, hafter⟩ := seg_append.mp h.list
    refine seg_append.mpr ⟨r + 16 + size, split_before h hfit, rfl, ?_⟩
    rw [split_next_new h hfit, hnext]
    refine hafter.congr fun n hn => split_next h hfit (Or.inr hn) ?_
    intro heq
    subst heq
    have hnodup := (List.nodup_append.mp (nodes_nodup h.tiles)).2.2
    rcases split_previous before with h0 | hmem
    · exact node_ne_zero h.tiles (List.mem_append_right _ (List.mem_cons_of_mem _ hn)) h0
    · exact hnodup _ hmem _ (List.mem_cons_of_mem _ hn) rfl
  · intro b hb
    rcases List.mem_cons.mp hb with rfl | hb
    · exact splitAt_header (by omega)
    · obtain ⟨h1, h2⟩ := h.header b hb
      have hbf := h.layout.live_node_apart hb (n := f) (by simp)
      have hframe : ∀ x, b.1 ≤ x → x < b.1 + 16 →
          (s.splitAt size (before.getLastD 0) f).mem x = s.mem x := by
        intro x h3 h4
        refine split_outside (by omega) fun n hn => ?_
        have := h.layout.live_node_apart hb (List.mem_append_left _ hn)
        omega
      exact ⟨(node_congr hframe).1.trans h1,
        (getLe_congr fun x h3 h4 => hframe x (by omega) (by omega)).trans h2⟩
  · rw [splitAt_page]
    refine h.tiles.congr fun x => ?_
    have hafter : after.map (s.splitAt size (before.getLastD 0) f).freeBlock
        = after.map s.freeBlock := by
      apply List.map_congr_left
      intro n hn
      rw [Heap.freeBlock, Heap.freeBlock, split_size h hfit (Or.inr hn)]
    have hcut := split_owners h hfit (after.map s.freeBlock) x
    rw [List.map_append, List.map_append, List.map_cons, List.map_cons, hafter]
    simpa only [List.map_append, List.map_cons, List.map_nil, List.append_assoc,
      List.cons_append, List.nil_append] using hcut

/-- The nodes of a list that owns what the nodes after `f` owned are not
touched by the split. -/
theorem split_tail_kept {tail : List Nat}
    (hown : ∀ x, owners (tail.map (s.splitAt size (before.getLastD 0) f).freeBlock) x
      = owners (after.map s.freeBlock) x) :
    ∀ n ∈ tail, (s.splitAt size (before.getLastD 0) f).size n = s.size n ∧
      (s.splitAt size (before.getLastD 0) f).next n = s.next n := by
  intro n hn
  refine node_congr fun x h1 h2 => ?_
  have hx : 0 < owners (after.map s.freeBlock) x := by
    rw [← hown x]
    exact owners_pos (List.mem_map_of_mem hn) ⟨h1, by simp only [Heap.freeBlock]; omega⟩
  obtain ⟨b, hb, hbx⟩ := List.countP_pos_iff.mp hx
  obtain ⟨m, hm, rfl⟩ := List.mem_map.mp hb
  obtain ⟨h3, h4⟩ := of_decide_eq_true hbx
  simp only [Heap.freeBlock] at h3 h4
  have hmf := split_apart h (Or.inr hm)
  refine split_outside (by omega) fun k hk => ?_
  have hne : k ≠ m := by
    intro heq
    subst heq
    have hnodup := (List.nodup_append.mp (nodes_nodup h.tiles)).2.2
    exact hnodup k hk k (List.mem_cons_of_mem _ hm) rfl
  have := node_apart h.tiles (List.mem_append_left _ hk) (m := m) (by simp [hm]) hne
  omega

/-- **Otherwise the tiling is gone**: whatever list the new node starts, it
does not own the bytes of the rest of the free list. -/
theorem split_not_tiled (hnext : s.next (f + 16 + size) ≠ s.next f) {nodes : List Nat}
    (hlist : Seg (s.splitAt size (before.getLastD 0) f).next
      (s.splitAt size (before.getLastD 0) f).head nodes 0) :
    ¬ Tiles s.page.addr (s.page.addr + 4096)
      (nodes.map (s.splitAt size (before.getLastD 0) f).freeBlock
        ++ ((f, size) :: live).map liveBlock) := by
  intro ht
  have hf := node_inside h.tiles (n := f) (by simp)
  have hpos := s.page.addr_pos
  -- the nodes are those before, the new one, and a tail that starts at its `next`
  have hbefore : ∀ n ∈ before, n ≠ 0 := fun n hn =>
    node_ne_zero h.tiles (List.mem_append_left _ hn)
  obtain ⟨rest, rfl, hrest⟩ := (split_before h hfit).split_of_ne hbefore hlist
  obtain ⟨tail, rfl, htail⟩ : ∃ tail, rest = (f + 16 + size) :: tail ∧
      Seg (s.splitAt size (before.getLastD 0) f).next (s.next (f + 16 + size)) tail 0 := by
    cases rest with
    | nil =>
        have : f + 16 + size = 0 := hrest
        omega
    | cons n tail =>
        obtain ⟨rfl, hrest⟩ := hrest
        exact ⟨tail, rfl, split_next_new h hfit ▸ hrest⟩
  -- the tail owns what the nodes after `f` owned
  have hown : ∀ x, owners (tail.map (s.splitAt size (before.getLastD 0) f).freeBlock) x
      = owners (after.map s.freeBlock) x := by
    intro x
    have hcut := split_owners h hfit
      (tail.map (s.splitAt size (before.getLastD 0) f).freeBlock) x
    have h1 := ht x
    have h2 := h.tiles x
    simp only [List.map_append, List.map_cons, List.map_nil, owners_append, owners_cons]
      at hcut h1 h2
    omega
  have hkept := split_tail_kept h hfit hown
  have hblocks : tail.map (s.splitAt size (before.getLastD 0) f).freeBlock
      = tail.map s.freeBlock := by
    apply List.map_congr_left
    intro n hn
    rw [Heap.freeBlock, Heap.freeBlock, (hkept n hn).1]
  rw [hblocks] at hown
  -- the same nodes, hence the same list
  have hpair : (after.map s.freeBlock).Pairwise Block.Apart := by
    have := (List.pairwise_append.mp h.tiles.pairwise).1
    rw [List.map_append, List.map_cons, List.pairwise_append, List.pairwise_cons] at this
    exact this.2.1.2
  have hpair' : (tail.map s.freeBlock).Pairwise Block.Apart := by
    have := (List.pairwise_append.mp ht.pairwise).1
    rw [List.map_append, List.map_cons, List.pairwise_append, List.pairwise_cons, hblocks] at this
    exact this.2.1.2
  have hperm : tail.Perm after := perm_of_owners_eq (fun _ => by omega) hpair' hpair hown
  obtain ⟨r, -, rfl, hafter⟩ := seg_append.mp h.list
  refine hnext (Seg.start_eq (htail.congr fun n hn => (hkept n hn).2.symm) hafter hperm
    fun n hn => ?_)
  have hn' := hperm.subset hn
  exact node_ne_zero h.tiles (n := n) (by simp [hn'])

end SplitTiling

/-- The heap of a tiling is mapped. -/
theorem Tiling.heap_eq (h : Tiling s live nodes) (page : Page) : heap s page = s := by
  obtain ⟨n, rest, rfl⟩ := List.exists_cons_of_ne_nil h.nonempty
  have hhead : s.head = n := h.list.1
  have hne := node_ne_zero h.tiles (n := n) (by simp)
  rw [heap, if_neg (by omega)]

/-- The free nodes of a tiling can be read. -/
theorem Tiling.nodes_mapped (h : Tiling s live nodes) : ∀ n ∈ nodes, n ≠ 0 ∧ s.Mapped n 16 := by
  intro n hn
  have := node_inside h.tiles hn
  exact ⟨node_ne_zero h.tiles hn, by omega, by omega⟩

/-- `find_free` returns. -/
theorem findFree_spec (h : Tiling s live nodes) (size : Nat) :
    (findFree s size = .ok none ∧ ∀ n ∈ nodes, s.size n < wrap ((size : Int) + 16 + 16)) ∨
    ∃ before f after, nodes = before ++ f :: after ∧
      wrap ((size : Int) + 16 + 16) ≤ s.size f ∧
      findFree s size = .ok (some (f, before.getLastD 0)) :=
  findFreeLoop_spec 0 h.nodes_mapped h.list (nodes_length h.tiles)

theorem myMalloc_none (h : Tiling s live nodes) (page : Page) (hnone : findFree s size = .ok none) :
    myMalloc s page size = .ok (s, 0) := by
  rw [myMalloc]
  simp only [h.heap_eq page]
  rw [hnone, ok_bind]

/-- `my_malloc` returns: either no node fits and nothing changes, or the first
node that fits is split. -/
theorem myMalloc_spec (h : Tiling s live nodes) (page : Page)
    (hsize : size + 32 < 18446744073709551616) :
    (findFree s size = .ok none ∧ myMalloc s page size = .ok (s, 0) ∧
      ∀ n ∈ nodes, s.size n < size + 32) ∨
    ∃ before f after, nodes = before ++ f :: after ∧ size + 32 ≤ s.size f ∧
      findFree s size = .ok (some (f, before.getLastD 0)) ∧
      myMalloc s page size = .ok (s.splitAt size (before.getLastD 0) f, f + 16) := by
  have hspec := findFree_spec h size
  rw [wrap_request hsize] at hspec
  rcases hspec with ⟨hnone, hsmall⟩ | ⟨before, f, after, rfl, hfit, hfound⟩
  · exact Or.inl ⟨hnone, myMalloc_none h page hnone, hsmall⟩
  · right
    have hf := node_inside h.tiles (n := f) (by simp)
    have hlt := s.page.addr_lt
    refine ⟨before, f, after, rfl, hfit, hfound, ?_⟩
    have hwrap : wrap ((f : Int) + 16) = f + 16 := by
      rw [wrap_of_lt (by omega) (by omega)]
      omega
    rw [myMalloc]
    simp only [h.heap_eq page]
    rw [hfound, ok_bind]
    simp only [split_eq h hfit, ok_bind, hwrap]

end Malloc

section Free

/-- Taking out the live block with header `b`. -/
theorem perm_filter_header {b : Nat × Nat} (hb : b ∈ live)
    (hne : ∀ c ∈ live, c ≠ b → c.1 ≠ b.1) (hnodup : live.Nodup) :
    live.Perm (b :: live.filter fun c => c.1 ≠ b.1) := by
  have hfilter : (live.filter fun c => c.1 ≠ b.1) = live.erase b := by
    rw [hnodup.erase_eq_filter]
    apply List.filter_congr
    intro c hc
    by_cases hcb : c = b
    · simp [hcb]
    · simp [hcb, hne c hc hcb]
  rw [hfilter]
  exact List.perm_cons_erase hb

theorem Layout.live_nodup (h : Layout s live nodes) : live.Nodup := by
  have hpair := (List.pairwise_append.mp h.tiles.pairwise).2.1
  rw [List.pairwise_map] at hpair
  refine hpair.imp fun {a b} hab => ?_
  intro heq
  subst heq
  exact hab a.1 ⟨⟨le_refl _, by simp only [liveBlock]; omega⟩, le_refl _,
    by simp only [liveBlock]; omega⟩

/-- The heap when `my_free` calls `coalesce`. -/
def Heap.release (s : Heap) (b : Nat × Nat) : Heap where
  mem := putLe (putLe s.mem b.1 8 b.2) (b.1 + 8) 8 s.head
  page := s.page
  head := b.1

section Release

variable {b : Nat × Nat}

theorem release_outside {x : Nat} (hx : x < b.1 ∨ b.1 + 16 ≤ x) :
    (s.release b).mem x = s.mem x := by
  simp only [Heap.release]
  rw [putLe_outside (by omega), putLe_outside (by omega)]

theorem release_size (hlt : b.2 < 18446744073709551616) : (s.release b).size b.1 = b.2 := by
  rw [Heap.size, Heap.release, getLe_putLe_of_disjoint (by omega)]
  exact getLe_putLe (by norm_num; omega)

theorem release_next (hlt : s.head < 18446744073709551616) : (s.release b).next b.1 = s.head := by
  rw [Heap.next, Heap.release]
  exact getLe_putLe (by norm_num; omega)

/-- The first node, if there is one, is in the page. -/
theorem Layout.head_lt (h : Layout s live nodes) : s.head < s.page.addr + 4096 := by
  rcases h.list.start_mem with h0 | hmem
  · omega
  · have := node_inside h.tiles hmem
    omega

variable (h : Layout s live nodes) (hb : b ∈ live)
include h hb

/-- The free nodes are not touched. -/
theorem release_node {n : Nat} (hn : n ∈ nodes) :
    (s.release b).size n = s.size n ∧ (s.release b).next n = s.next n := by
  have := h.live_node_apart hb hn
  exact node_congr fun x h1 h2 => release_outside (by omega)

/-- The blocks of the list, with the one that was freed in front. -/
theorem release_blocks :
    (b.1 :: nodes).map (s.release b).freeBlock = liveBlock b :: nodes.map s.freeBlock := by
  have hin := h.live_inside hb
  have hlt := s.page.addr_lt
  have hrest : nodes.map (s.release b).freeBlock = nodes.map s.freeBlock := by
    apply List.map_congr_left
    intro n hn
    rw [Heap.freeBlock, Heap.freeBlock, (release_node h hb hn).1]
  rw [List.map_cons, hrest, Heap.freeBlock, release_size (by omega)]
  rfl

/-- The block has become the first free node. -/
theorem free_layout :
    Layout (s.release b) (live.filter fun c => c.1 ≠ b.1) (b.1 :: nodes) := by
  have hlt := s.page.addr_lt
  have hhead := h.head_lt
  have hother : ∀ c ∈ live, c ≠ b → b.1 + 16 + b.2 ≤ c.1 ∨ c.1 + 16 + c.2 ≤ b.1 := by
    intro c hc hne
    have := h.live_apart hb hc (fun he => hne he.symm)
    omega
  refine ⟨⟨rfl, ?_⟩, fun c hc => ?_, ?_⟩
  · rw [release_next (by omega)]
    exact h.list.congr fun n hn => (release_node h hb hn).2
  · rw [List.mem_filter] at hc
    have hne : c ≠ b := by
      intro heq
      subst heq
      simp at hc
    obtain ⟨h1, h2⟩ := h.header c hc.1
    have hapart := hother c hc.1 hne
    have hframe : ∀ x, c.1 ≤ x → x < c.1 + 16 → (s.release b).mem x = s.mem x :=
      fun x h3 h4 => release_outside (by omega)
    exact ⟨(node_congr hframe).1.trans h1,
      (getLe_congr fun x h3 h4 => hframe x (by omega) (by omega)).trans h2⟩
  · refine h.tiles.congr fun x => ?_
    have hlive := owners_perm ((perm_filter_header hb (fun c hc hne heq => ?_)
      h.live_nodup).map liveBlock) x
    · rw [List.map_cons, owners_cons] at hlive
      rw [release_blocks h hb, owners_append, owners_cons, owners_append, hlive]
      omega
    · have := hother c hc hne
      omega

/-- What `my_free` of a live block does before it calls `coalesce`. -/
theorem myFree_eq : myFree s (b.1 + 16) = coalesce (s.release b) b.1 := by
  have hin := h.live_inside hb
  have hlt := s.page.addr_lt
  obtain ⟨hsize, hmagic⟩ := h.header b hb
  have hp : wrap (((b.1 + 16 : Nat) : Int) - 16) = b.1 := by
    rw [wrap_of_lt (by omega) (by omega)]
    omega
  have hsame : wrap ((b.2 : Int) + 16 - 16) = b.2 := by
    rw [wrap_of_lt (by omega) (by omega)]
    omega
  have hmap : ∀ {a k : Nat}, s.page.addr ≤ a → a + k ≤ s.page.addr + 4096 → s.Mapped a k :=
    fun h1 h2 => ⟨h1, h2⟩
  have hload : s.load b.1 8 = .ok b.2 := by
    rw [load_ok (hmap hin.1 (by omega)), ← hsize]
    rfl
  have hmem : s.load (b.1 + 8) 4 = .ok magic := by
    rw [load_ok (hmap (by omega) (by omega)), hmagic]
  rw [myFree]
  simp only [hp, hmem, ok_bind]
  rw [if_neg (by simp), hload, ok_bind, hsame, store_ok (hmap hin.1 (by omega)), ok_bind,
    store_ok (mapped_put.mpr (hmap (by omega) (by omega))), ok_bind]
  rfl

/-- `my_free` of a live block returns, after one pass over the list. -/
theorem myFree_spec :
    ∃ s' nodes', myFree s (b.1 + 16) = .ok s' ∧
      Coalesced (s.release b) b.1 (b.1 :: nodes) s' nodes' := by
  have hfree := free_layout h hb
  obtain ⟨s', nodes', hrun, hc⟩ :=
    coalesceLoop_spec hfree.list hfree.tiles (nodes_length hfree.tiles)
  exact ⟨s', nodes', (myFree_eq h hb).trans hrun, hc⟩

end Release

/-- A pass over the free list keeps the tiling. -/
theorem Coalesced.tiling {p : Nat} {nodes' : List Nat} (h : Layout s live (p :: nodes))
    (hc : Coalesced s p (p :: nodes) s' nodes') : Tiling s' live nodes' where
  list := by
    rw [hc.head, h.list.1]
    exact hc.list
  nonempty := by
    intro heq
    subst heq
    exact node_ne_zero h.tiles (n := p) (by simp) hc.list
  header c hcl := by
    obtain ⟨h1, h2⟩ := h.header c hcl
    have hout : ∀ x, c.1 ≤ x → x < c.1 + 16 → s'.mem x = s.mem x := by
      intro x h3 h4
      refine hc.frame x fun n hn => ?_
      have := h.live_node_apart hcl hn
      omega
    exact ⟨(node_congr hout).1.trans h1,
      (getLe_congr fun x h3 h4 => hout x (by omega) (by omega)).trans h2⟩
  tiles := by
    rw [hc.page]
    refine h.tiles.congr fun x => ?_
    rw [owners_append, owners_append, hc.blocks, owners_joinPass]

end Free

/-- A byte the program writes into its own block touches no node or header. -/
theorem write_tiling (h : Tiling s live nodes) {b : Nat × Nat} (hb : b ∈ live) {i : Nat}
    (hi : i < b.2) (byte : UInt8) :
    Tiling { s with mem := update s.mem (b.1 + 16 + i) byte } live nodes := by
  refine h.congr rfl rfl (fun n hn x h1 h2 => ?_) fun c hc x h1 h2 => ?_
  · have := h.layout.live_node_apart hb hn
    exact update_of_ne (by omega) _ _
  · by_cases hcb : c = b
    · subst hcb
      exact update_of_ne (by omega) _ _
    · have := h.layout.live_apart hc hb hcb
      exact update_of_ne (by omega) _ _

/-- The free list from `head` is finite and in the page, the headers of the
live blocks are intact, and the free and the live blocks are pairwise apart
and cover exactly the page. -/
def HeapTiled (s : State) : Prop :=
  ∃ nodes : List Nat,
    Seg s.heap.next s.heap.head nodes 0 ∧
    (∀ n ∈ nodes, n ≠ 0 ∧ s.heap.page.addr ≤ n ∧
      n + 16 + s.heap.size n ≤ s.heap.page.addr + 4096) ∧
    (∀ b ∈ s.live, s.heap.size b.1 = b.2 ∧ getLe s.heap.mem (b.1 + 8) 4 = magic) ∧
    (nodes.map s.heap.freeBlock ++ s.live.map liveBlock).Pairwise Block.Apart ∧
    ∀ x, (∃ b ∈ nodes.map s.heap.freeBlock ++ s.live.map liveBlock, b.Has x) ↔
      s.heap.page.addr ≤ x ∧ x < s.heap.page.addr + 4096

theorem Tiling.heapTiled {s : State} (h : Tiling s.heap s.live nodes) : HeapTiled s := by
  refine ⟨nodes, h.list, fun n hn => ⟨node_ne_zero h.tiles hn, node_inside h.tiles hn⟩, h.header,
    h.tiles.pairwise, fun x => ⟨?_, fun hx => h.tiles.covers hx.1 hx.2⟩⟩
  rintro ⟨b, hb, hx⟩
  have hin := h.tiles.inside hb (by have := hx.1; have := hx.2; omega)
  have := hx.1
  have := hx.2
  omega

theorem HeapTiled.layout {s : State} (h : HeapTiled s) :
    ∃ nodes, Layout s.heap s.live nodes := by
  obtain ⟨nodes, hlist, -, hheader, hpair, hcover⟩ := h
  exact ⟨nodes, hlist, hheader, tiles_of_pairwise hpair hcover⟩

/-- The bytes that `split` turns into the `next` of the new free node already
hold the `next` of the node that it splits. -/
def NextSurvives (s : State) : Act → Prop
  | .malloc size page => ∀ found previous,
      findFree (heap s.heap page) size = .ok (some (found, previous)) →
      s.heap.next (found + 16 + size) = s.heap.next found
  | _ => True

/-- One call on a tiled heap returns, and the heap is tiled afterwards exactly
if the condition above is met. -/
theorem call_tiling {s : State} (h : Tiling s.heap s.live nodes) {a : Act} (ha : Legal s a) :
    ∃ s', next s a = some s' ∧
      (NextSurvives s a → ∃ nodes', Tiling s'.heap s'.live nodes') ∧
      (HeapTiled s' → NextSurvives s a) := by
  cases a with
  | malloc size page =>
      rcases myMalloc_spec h page ha with
        ⟨hnone, hrun, -⟩ | ⟨before, f, after, rfl, hfit, hfound, hrun⟩
      · refine ⟨s, ?_, fun _ => ⟨nodes, h⟩, fun _ found previous hfound => ?_⟩
        · simp only [next, hrun]
          rfl
        · rw [h.heap_eq page, hnone] at hfound
          simp at hfound
      · refine ⟨⟨s.heap.splitAt size (before.getLastD 0) f, (f, size) :: s.live⟩, ?_,
          fun hn => ?_, ?_⟩
        · simp only [next, hrun]
          rw [if_neg (by omega), Nat.add_sub_cancel]
        · have hnext := hn f (before.getLastD 0) (by rw [h.heap_eq page]; exact hfound)
          exact ⟨_, split_tiling h hfit hnext⟩
        · rintro ⟨nodes', hlist, -, -, hpair, hcover⟩ found previous hfound'
          rw [h.heap_eq page, hfound] at hfound'
          simp only [Except.ok.injEq, Option.some.injEq, Prod.mk.injEq] at hfound'
          obtain ⟨rfl, -⟩ := hfound'
          by_contra hne
          have ht := tiles_of_pairwise hpair hcover
          rw [splitAt_page] at ht
          exact split_not_tiled h hfit hne hlist ht
  | free p =>
      obtain ⟨b, hb, rfl⟩ := ha
      obtain ⟨s', nodes', hrun, hc⟩ := myFree_spec h.layout hb
      refine ⟨⟨s', s.live.filter fun c => c.1 ≠ b.1⟩, ?_,
        fun _ => ⟨nodes', hc.tiling (free_layout h.layout hb)⟩, fun _ => trivial⟩
      simp only [next, hrun, Nat.add_sub_cancel]
  | write p i byte =>
      obtain ⟨b, hb, rfl, hi⟩ := ha
      exact ⟨_, rfl, fun _ => ⟨nodes, write_tiling h hb hi byte⟩, fun _ => trivial⟩

section Mapped

variable (mem : Mem) (page : Page)

theorem mapped_size : (mapped mem page).size page.addr = 4080 := by
  rw [Heap.size]
  simp only [mapped]
  rw [getLe_putLe_of_disjoint (by omega)]
  exact getLe_putLe (by omega)

theorem mapped_next_first : (mapped mem page).next page.addr = 0 := by
  rw [Heap.next]
  simp only [mapped]
  exact getLe_putLe (by omega)

/-- Behind the first node the page is zero. -/
theorem mapped_next {n : Nat} (h1 : page.addr + 8 ≤ n) (h2 : n + 16 ≤ page.addr + 4096) :
    (mapped mem page).next n = 0 := by
  rw [Heap.next]
  simp only [mapped]
  rw [getLe_putLe_of_disjoint (by omega), getLe_putLe_of_disjoint (by omega), ← getLe_zero]
  exact getLe_congr fun x h3 h4 => splice_inside (by omega) (by omega)

/-- The heap that `heap()` builds is one free block. -/
theorem mapped_tiling : Tiling (mapped mem page) [] [page.addr] := by
  refine ⟨⟨rfl, mapped_next_first mem page⟩, by simp, by simp, fun x => ?_⟩
  simp only [List.map_cons, List.map_nil, List.append_nil, owners_cons, Heap.freeBlock,
    mapped_size]
  rfl

/-- The first block that is cut from it. -/
theorem mapped_split {size : Nat} (h : size + 32 ≤ 4080) :
    Tiling ((mapped mem page).splitAt size 0 page.addr) [(page.addr, size)]
      [page.addr + 16 + size] := by
  have ht : Tiling (mapped mem page) [] ([] ++ page.addr :: []) := mapped_tiling mem page
  refine split_tiling ht ?_ ?_
  · rw [mapped_size]
    exact h
  · rw [mapped_next_first, mapped_next mem page (by omega) (by omega)]

end Mapped

theorem tiling_inductive :
    calls.Inductive (fun s a => Legal s a ∧ NextSurvives s a)
      (fun s => ∃ nodes, Tiling s.heap s.live nodes) where
  init s hs := by
    obtain ⟨mem, page, rfl⟩ := hs
    exact ⟨_, mapped_tiling mem page⟩
  step s a s' hs hc hn := by
    obtain ⟨nodes, h⟩ := hs
    obtain ⟨t, ht, hkeep, -⟩ := call_tiling h hc.1
    have : t = s' := Option.some.inj (ht.symm.trans hn)
    exact this ▸ hkeep hc.2

/-- **Heap tiling.** In every run in which each successful `my_malloc` finds
the right bytes in place of the `next` it does not set, the free and the live
blocks tile the heap after every call. Every further legal call returns, and
the heap is still tiled afterwards exactly if the call finds the right bytes. -/
theorem heap_tiling {s : State}
    (hs : calls.ReachableUnder (fun s a => Legal s a ∧ NextSurvives s a) s) :
    HeapTiled s ∧ ∀ a, Legal s a →
      ∃ s', calls.next s a = some s' ∧ (HeapTiled s' ↔ NextSurvives s a) := by
  obtain ⟨nodes, h⟩ := tiling_inductive.invariantUnder s hs
  refine ⟨h.heapTiled, fun a ha => ?_⟩
  obtain ⟨s', hs', hkeep, hback⟩ := call_tiling h ha
  refine ⟨s', hs', hback, fun hn => ?_⟩
  obtain ⟨nodes', h'⟩ := hkeep hn
  exact h'.heapTiled

/-- The first `my_malloc` on a zeroed page finds the `NULL` it needs. -/
theorem heap_tiling_first_malloc :
    ∃ s, calls.next ⟨mapped (fun _ => 0) ⟨4096, by decide, by decide⟩, []⟩
      (.malloc 100 ⟨4096, by decide, by decide⟩) = some s ∧ HeapTiled s := by
  have hfind : findFree (heap (mapped (fun _ => 0) ⟨4096, by decide, by decide⟩)
      ⟨4096, by decide, by decide⟩) 100 = .ok (some (4096, 0)) := by
    decide +kernel
  have hzero : (mapped (fun _ => 0) ⟨4096, by decide, by decide⟩).next (4096 + 16 + 100)
      = (mapped (fun _ => 0) ⟨4096, by decide, by decide⟩).next 4096 :=
    (mapped_next _ _ (by simp) (by simp)).trans (mapped_next_first _ _).symm
  obtain ⟨s, hs, htiled⟩ := (heap_tiling (.init ⟨fun _ => 0, ⟨4096, by decide, by decide⟩, rfl⟩)).2
    (.malloc 100 ⟨4096, by decide, by decide⟩) (by decide)
  refine ⟨s, hs, htiled.mpr fun found previous hfound => ?_⟩
  rw [hfind] at hfound
  simp only [Except.ok.injEq, Option.some.injEq, Prod.mk.injEq] at hfound
  obtain ⟨rfl, -⟩ := hfound
  exact hzero

/-- Two blocks of 100 bytes, the first one freed and 10 bytes allocated from
it: the node that remains of it ends the free list, and the 3848 bytes of the
node behind it are lost. -/
theorem remainder_lost : ¬ calls.InvariantUnder Legal HeapTiled := by
  intro hinv
  have hrun : (calls.runChecked Legal ⟨mapped (fun _ => 0) ⟨4096, by decide, by decide⟩, []⟩
      [.malloc 100 ⟨4096, by decide, by decide⟩, .malloc 100 ⟨4096, by decide, by decide⟩,
        .free (4096 + 16), .malloc 10 ⟨4096, by decide, by decide⟩]).any
      (fun s => decide (s.heap.page.addr = 4096 ∧ s.heap.head = 4122 ∧
        s.heap.next s.heap.head = 0 ∧ s.heap.size s.heap.head = 74 ∧
        s.live = [(4096, 10), (4212, 100)])) = true := by
    decide +kernel
  obtain ⟨s, hs, hview⟩ := (Option.any_eq_true _ _).mp hrun
  obtain ⟨hpage, hhead, hnext, hsize, hlive⟩ := of_decide_eq_true hview
  obtain ⟨nodes, hlist, hin, -, -, hcover⟩ := hinv s
    (TSys.ReachableUnder.runChecked (.init ⟨fun _ => 0, ⟨4096, by decide, by decide⟩, rfl⟩) hs)
  -- the list has one node
  have hnodes : nodes = [4122] := by
    cases nodes with
    | nil =>
        have : s.heap.head = 0 := hlist
        omega
    | cons n rest =>
        obtain ⟨rfl, hrest⟩ := hlist
        rw [hnext] at hrest
        cases rest with
        | nil => rw [hhead]
        | cons m rest => exact absurd hrest.1.symm (hin m (by simp)).1
  have hown := (hcover 5000).mpr (by omega)
  rw [hnodes, hlive] at hown
  rw [hhead] at hsize
  simp [Heap.freeBlock, liveBlock, Block.Has, hsize] at hown

end Os377.Malloc
