import Os377.Malloc.Space

/-!
# What `coalesce` does to a free list

One pass over a list whose blocks lie anywhere in memory. The bytes covered by
the blocks stay the same, and each node that goes leaves its 16 bytes to the
node that takes it over. But the pass moves on after a merge instead of looking
at the merged node again, as the description asks for, so a node that ends where
the one after next begins is left in front of it.

* `coalesce_conserves` — what the pass keeps;
* `coalesce_complete_iff` — when no two neighbours on the list touch after it.
-/

namespace Os377.Malloc

open Os377.Lib

variable {sp : Space} {m m' : Mem} {head b p fuel acc : Nat}
  {nodes before after kept : List Nat}

/-- The list from `head`: finite, without cycle, of blocks that do not overlap. -/
structure FreeList (sp : Space) (m : Mem) (head : Nat) (nodes : List Nat) : Prop
    extends Nodes sp m nodes where
  list : Seg (nextAt m) head nodes 0

/-! ## `available_memory` -/

/-- The sizes, and the 16 bytes of each node. -/
theorem sum_blockAt (m : Mem) (nodes : List Nat) :
    ((nodes.map (blockAt m)).map Prod.snd).sum
      = (nodes.map (sizeAt m)).sum + 16 * nodes.length := by
  induction nodes with
  | nil => rfl
  | cons n nodes ih =>
      simp only [List.map_cons, List.sum_cons, List.length_cons, ih, blockAt]
      omega

/-- There are fewer free bytes than addresses. -/
theorem Nodes.sum_lt (h : Nodes sp m nodes) :
    (nodes.map (sizeAt m)).sum < 18446744073709551616 := by
  have hle := sum_le_of_apart (n := 18446744073709551616) h.apart fun c hc => by
    obtain ⟨n, hn, rfl⟩ := List.mem_map.mp hc
    exact h.fits n hn
  rw [sum_blockAt] at hle
  cases nodes with
  | nil => exact Nat.zero_lt_succ _
  | cons n nodes =>
      rw [List.length_cons] at hle
      omega

theorem availableLoop_spec (hlist : Seg (nextAt m) p nodes 0) (h : Nodes sp m nodes)
    (hsum : acc + (nodes.map (sizeAt m)).sum < 18446744073709551616)
    (hfuel : nodes.length < fuel) :
    sp.availableLoop m fuel p acc = .ok (acc + (nodes.map (sizeAt m)).sum) := by
  induction nodes generalizing fuel p acc with
  | nil =>
      obtain ⟨fuel, rfl⟩ : ∃ k, fuel = k + 1 := ⟨fuel - 1, by simp at hfuel; omega⟩
      have hp : p = 0 := hlist
      rw [Space.availableLoop, if_pos hp]
      rfl
  | cons n rest ih =>
      obtain ⟨fuel, rfl⟩ : ∃ k, fuel = k + 1 := ⟨fuel - 1, by simp at hfuel; omega⟩
      obtain ⟨rfl, hrest⟩ := hlist
      rw [List.map_cons, List.sum_cons] at hsum ⊢
      have hadd : wrap ((acc : Int) + (sizeAt m p : Int)) = acc + sizeAt m p := by
        rw [wrap_of_lt (by omega) (by omega)]
        omega
      rw [Space.availableLoop, if_neg (h.ne_zero p List.mem_cons_self),
        h.load_size List.mem_cons_self, ok_bind, h.load_next List.mem_cons_self, ok_bind, hadd,
        ih hrest h.tail (by omega) (by simp at hfuel; omega), Nat.add_assoc]

/-- What `available_memory` returns. -/
theorem availableMemory_eq (h : FreeList sp m head nodes) (hfuel : nodes.length < fuel) :
    sp.availableMemory fuel m head = .ok (nodes.map (sizeAt m)).sum := by
  have hsum : 0 + (nodes.map (sizeAt m)).sum < 18446744073709551616 := by
    have := h.toNodes.sum_lt
    omega
  have hloop := availableLoop_spec h.list h.toNodes hsum hfuel
  rw [Nat.zero_add] at hloop
  exact hloop

/-! ## The list after the pass -/

namespace FreeList

variable (h : FreeList sp m head (before ++ b :: after)) (hpass : Passed m b (b :: after) m' kept)
include h hpass

/-- The pass leaves the blocks of the nodes before `b` alone. -/
theorem before_kept {n : Nat} (hn : n ∈ before) {x : Nat} (hx : (blockAt m n).Has x) :
    m' x = m x := by
  apply hpass.frame
  intro k hk
  have hne : n ≠ k := by
    intro heq
    subst heq
    exact List.disjoint_of_nodup_append h.nodup hn hk
  have hends := h.ends (List.mem_append_left _ hn) (List.mem_append_right _ hk) hne
  obtain ⟨h1, h2⟩ := hx
  simp only [blockAt] at h1 h2
  omega

theorem before_fields {n : Nat} (hn : n ∈ before) :
    sizeAt m' n = sizeAt m n ∧ nextAt m' n = nextAt m n := by
  refine nodeAt_congr fun x h1 h2 => h.before_kept hpass hn ⟨h1, ?_⟩
  simp only [blockAt]
  omega

/-- The blocks after the pass. -/
theorem blocks :
    (before ++ kept).map (blockAt m')
      = before.map (blockAt m) ++ joinPass ((b :: after).map (blockAt m)) := by
  rw [List.map_append, hpass.blocks]
  congr 1
  apply List.map_congr_left
  intro n hn
  rw [blockAt, blockAt, (h.before_fields hpass hn).1]

/-- Every address is in as many blocks as before. -/
theorem owners_eq (x : Nat) :
    owners ((before ++ kept).map (blockAt m')) x
      = owners ((before ++ b :: after).map (blockAt m)) x := by
  rw [h.blocks hpass, owners_append, owners_joinPass, ← owners_append, ← List.map_append]

/-- What is left is a free list. -/
theorem passed : FreeList sp m' head (before ++ kept) := by
  have hsub : (before ++ kept).Sublist (before ++ b :: after) := hpass.sub.append_left before
  refine ⟨⟨fun n hn => h.ne_zero n (hsub.subset hn), fun n hn => h.mapped n (hsub.subset hn),
    fun n hn => ?_, ?_⟩, ?_⟩
  · -- joined blocks end where one of the old ones ended
    have hends : ∀ c ∈ before.map (blockAt m) ++ joinPass ((b :: after).map (blockAt m)),
        c.1 + c.2 ≤ 18446744073709551616 := by
      have hold : ∀ c ∈ (before ++ b :: after).map (blockAt m),
          c.1 + c.2 ≤ 18446744073709551616 := by
        intro c hc
        obtain ⟨k, hk, rfl⟩ := List.mem_map.mp hc
        exact h.fits k hk
      intro c hc
      rcases List.mem_append.mp hc with hc | hc
      · exact hold c (List.map_append ▸ List.mem_append_left _ hc)
      · refine joinPass_forall (P := fun c => c.1 + c.2 ≤ 18446744073709551616) ?_
          (fun d hd => hold d (List.map_append ▸ List.mem_append_right _ hd)) c hc
        intro c d htouch _ hd
        have hend : c.1 + c.2 = d.1 := htouch
        show c.1 + (c.2 + d.2) ≤ 18446744073709551616
        omega
    exact hends (blockAt m' n) (h.blocks hpass ▸ List.mem_map_of_mem hn)
  · apply pairwise_of_owners_le_one
    intro x
    rw [h.owners_eq hpass]
    exact owners_le_one h.apart x
  · obtain ⟨r, hbefore, hb⟩ := seg_append.mp h.list
    obtain rfl : r = b := hb.1
    refine seg_append.mpr ⟨r, hbefore.congr fun n hn => ?_, hpass.list⟩
    exact (h.before_fields hpass hn).2

end FreeList

/-- The pass from a node of a free list. -/
theorem FreeList.run (h : FreeList sp m head (before ++ b :: after))
    (hfuel : (before ++ b :: after).length < fuel) :
    ∃ m' kept, sp.coalesce fuel m b = .ok m' ∧ Passed m b (b :: after) m' kept := by
  obtain ⟨r, -, hb⟩ := seg_append.mp h.list
  obtain rfl : r = b := hb.1
  apply Space.coalesceLoop_spec hb (h.sublist (List.sublist_append_right before (r :: after)))
  rw [List.length_append] at hfuel
  omega

/-- A page with three neighbours on its list, each with 16 bytes behind it. -/
def row : Heap where
  mem := putLe (putLe (putLe (putLe (putLe (putLe (fun _ => 0) 4096 8 16) 4104 8 4128)
    4128 8 16) 4136 8 4160) 4160 8 16) 4168 8 0
  page := Page.sample
  head := 4096

theorem row_list : FreeList row.space row.mem row.head [4096, 4128, 4160] := by
  have hfields : (sizeAt row.mem 4096 = 16 ∧ nextAt row.mem 4096 = 4128) ∧
      (sizeAt row.mem 4128 = 16 ∧ nextAt row.mem 4128 = 4160) ∧
      sizeAt row.mem 4160 = 16 ∧ nextAt row.mem 4160 = 0 := by
    decide +kernel
  obtain ⟨⟨hs1, hn1⟩, ⟨hs2, hn2⟩, hs3, hn3⟩ := hfields
  have hmapped : ∀ n, 4096 ≤ n → n + 16 ≤ 8192 → row.space.Mapped n 16 := by
    intro n h1 h2
    exact (space_mapped (by omega)).mpr ⟨h1, h2⟩
  refine ⟨⟨by simp, ?_, ?_, ?_⟩, rfl, hn1.symm ▸ rfl, hn2.symm ▸ rfl, hn3⟩
  · intro n hn
    simp only [List.mem_cons, List.not_mem_nil, or_false] at hn
    exact hmapped n (by omega) (by omega)
  · intro n hn
    simp only [List.mem_cons, List.not_mem_nil, or_false] at hn
    rcases hn with rfl | rfl | rfl
    · omega
    · omega
    · omega
  · simp only [List.map_cons, List.map_nil, blockAt, hs1, hs2, hs3, List.pairwise_cons,
      List.mem_cons, List.not_mem_nil, or_false, forall_eq_or_imp, forall_eq, Block.Apart,
      Block.Has]
    exact ⟨⟨fun x => by omega, fun x => by omega⟩, fun x => by omega, by simp⟩

/-- **`coalesce` conserves memory.** From any node of any free list it comes to
an end; the covered bytes stay the same, what is left of the list is a free
list, the nodes before are not touched, and every node that goes adds its 16
bytes to the available memory. -/
theorem coalesce_conserves {sp : Space} {m : Mem} {head b fuel : Nat} {before after : List Nat}
    (h : FreeList sp m head (before ++ b :: after))
    (hfuel : (before ++ b :: after).length < fuel) :
    ∃ m' kept, sp.coalesce fuel m b = .ok m' ∧
      (∀ x, (∃ n ∈ before ++ kept, (blockAt m' n).Has x) ↔
        ∃ n ∈ before ++ b :: after, (blockAt m n).Has x) ∧
      FreeList sp m' head (before ++ kept) ∧ kept.Sublist (b :: after) ∧
      (∀ n ∈ before, ∀ x, (blockAt m n).Has x → m' x = m x) ∧
      ∃ available, sp.availableMemory fuel m head = .ok available ∧
        sp.availableMemory fuel m' head
          = .ok (available + 16 * ((b :: after).length - kept.length)) := by
  obtain ⟨m', kept, hrun, hpass⟩ := h.run hfuel
  have hlist := h.passed hpass
  have hless := hpass.sub.length_le
  refine ⟨m', kept, hrun, fun x => ?_, hlist, hpass.sub, fun n hn x => h.before_kept hpass hn,
    _, availableMemory_eq h hfuel, ?_⟩
  · have howners := h.owners_eq hpass x
    have hcover : ∀ (m : Mem) (nodes : List Nat),
        0 < owners (nodes.map (blockAt m)) x ↔ ∃ n ∈ nodes, (blockAt m n).Has x := by
      intro m nodes
      rw [owners_pos_iff]
      simp only [List.mem_map, exists_exists_and_eq_and]
    rw [← hcover, ← hcover, howners]
  · -- the sum of the lengths is the same, and each node takes 16 bytes of it
    have hsum := congrArg (fun bs => (bs.map Prod.snd).sum) (h.blocks hpass)
    have hsum' := sum_blockAt m (before ++ b :: after)
    simp only [List.map_append, List.sum_append, sum_joinPass] at hsum hsum'
    have hkept := sum_blockAt m' (before ++ kept)
    simp only [List.map_append, List.sum_append] at hkept
    rw [availableMemory_eq hlist (by simp only [List.length_append] at hfuel ⊢; omega)]
    congr 1
    simp only [List.map_append, List.sum_append, List.length_append] at *
    omega

/-- The first of the three nodes takes over the second one. -/
theorem coalesce_conserves_row :
    ∃ m' kept available, row.space.coalesce 4 row.mem 4096 = .ok m' ∧
      FreeList row.space m' 4096 kept ∧
      row.space.availableMemory 4 row.mem 4096 = .ok available ∧
      row.space.availableMemory 4 m' 4096 = .ok (available + 16 * (3 - kept.length)) := by
  have hlist : FreeList row.space row.mem 4096 ([] ++ 4096 :: [4128, 4160]) := row_list
  have hfuel : ([] ++ 4096 :: [4128, 4160]).length < 4 := by decide
  obtain ⟨m', kept, hrun, -, hkept, -, -, available, hold, hnew⟩ := coalesce_conserves hlist hfuel
  exact ⟨m', kept, available, hrun, hkept, hold, hnew⟩

/-- **Merging completely.** After the pass from `b` no node from `b` on ends
where the next one on the list begins, exactly if there were no three nodes in a
row from `b` on of which each ends where the next one begins. -/
theorem coalesce_complete_iff {sp : Space} {m : Mem} {head b fuel : Nat}
    {before after : List Nat} (h : FreeList sp m head (before ++ b :: after))
    (hfuel : (before ++ b :: after).length < fuel) :
    ∃ m' kept, sp.coalesce fuel m b = .ok m' ∧ FreeList sp m' head (before ++ kept) ∧
      (Parted (kept.map (blockAt m')) ↔ ¬ Threes ((b :: after).map (blockAt m))) := by
  obtain ⟨m', kept, hrun, hpass⟩ := h.run hfuel
  refine ⟨m', kept, hrun, h.passed hpass, ?_⟩
  rw [hpass.blocks]
  exact parted_joinPass_iff _

/-- The last two of the three nodes: nothing is left to merge. -/
theorem coalesce_complete_iff_last :
    ∃ (m' : Mem) (kept : List Nat), row.space.coalesce 4 row.mem 4128 = .ok m' ∧
      FreeList row.space m' 4096 ([4096] ++ kept) ∧ Parted (kept.map (blockAt m')) := by
  have hlist : FreeList row.space row.mem 4096 ([4096] ++ 4128 :: [4160]) := row_list
  have hfuel : ([4096] ++ 4128 :: [4160]).length < 4 := by decide
  obtain ⟨m', kept, hrun, hkept, hiff⟩ := coalesce_complete_iff hlist hfuel
  refine ⟨m', kept, hrun, hkept, hiff.mpr fun h => ?_⟩
  cases h with
  | there h =>
      cases h with
      | there h => cases h

/-- All three: the merged node ends where the third one, its successor, begins. -/
theorem third_not_merged :
    FreeList row.space row.mem 4096 [4096, 4128, 4160] ∧
      ∃ m', row.space.coalesce 4 row.mem 4096 = .ok m' ∧ nextAt m' 4096 = 4160 ∧
        4096 + 16 + sizeAt m' 4096 = nextAt m' 4096 := by
  refine ⟨row_list, ?_⟩
  have hrun : (row.space.coalesce 4 row.mem 4096).toOption.any
      (fun m' => decide (nextAt m' 4096 = 4160 ∧ sizeAt m' 4096 = 48)) = true := by
    decide +kernel
  obtain ⟨m', hm', hview⟩ := (Option.any_eq_true _ _).mp hrun
  obtain ⟨hnext, hsize⟩ := of_decide_eq_true hview
  cases hresult : row.space.coalesce 4 row.mem 4096 with
  | error e =>
      rw [hresult] at hm'
      cases hm'
  | ok m =>
      rw [hresult] at hm'
      obtain rfl : m = m' := Option.some.inj hm'
      exact ⟨m, rfl, hnext, by omega⟩

end Os377.Malloc
