import Os377.Xv6.UmallocBlocks

/-!
# The calls of the xv6 allocator

The free blocks and those that are handed out make up exactly what `sbrk` gave (`Inv`):
`free`, `morecore` and `malloc` keep that, always come to an end, and `malloc` gives up only
where no free block is large enough and the kernel has nothing left (`malloc_spec`).
-/

namespace Os377.Xv6.Umalloc

open Os377.Lib

variable {h h' : Heap} {p q m k n nu a x : Nat} {as cs xs ys live got : List Lib.Block}
  {b c : Lib.Block} {ok : Bool}

/-- The free blocks `xs` with `base`, the blocks `live` in use, and the memory `got`. -/
structure Inv (h : Heap) (xs live got : List Lib.Block) : Prop where
  circle : Circle h xs
  own : ∀ x, owners ((live ++ xs).map bytes) x = owners got x
  live : ∀ b ∈ live, h.size b.1 = b.2 ∧ 0 < b.2
  apart : got.Pairwise Lib.Block.Apart
  inside : ∀ g ∈ got, h.base + unit ≤ g.1 ∧ g.1 + g.2 ≤ h.brk
  base_pos : 0 < h.base
  base_le : h.base + unit ≤ h.brk

theorem has_bytes_self (hn : 0 < b.2) : (bytes b).Has b.1 := by
  constructor
  · exact le_refl _
  · show b.1 < b.1 + unit * b.2
    simp only [unit]
    omega

theorem Inv.owners_le (hi : Inv h xs live got) (x : Nat) :
    owners ((live ++ xs).map bytes) x ≤ 1 := by
  rw [hi.own]
  exact owners_le_one hi.apart x

/-- Blocks of the heap lie behind `base` and below the break. -/
theorem Inv.bounds (hi : Inv h xs live got) (hb : b ∈ live ++ xs) (hpos : 0 < b.2) :
    h.base + unit ≤ b.1 ∧ b.1 + unit * b.2 ≤ h.brk := by
  have hown : ∀ x, (bytes b).Has x → h.base + unit ≤ x ∧ x < h.brk := by
    intro x hx
    have hpos := owners_pos (List.mem_map_of_mem (f := bytes) hb) hx
    rw [hi.own, owners_pos_iff] at hpos
    obtain ⟨g, hg, h1, h2⟩ := hpos
    obtain ⟨h3, h4⟩ := hi.inside g hg
    omega
  have h1 := hown b.1 (has_bytes_self hpos)
  have h2 := hown (b.1 + unit * b.2 - 1) ⟨by
    show b.1 ≤ _
    simp only [unit]
    omega, by
    show _ < b.1 + unit * b.2
    simp only [unit]
    omega⟩
  simp only [unit] at h1 h2 ⊢
  omega

theorem Inv.length_le (hi : Inv h xs live got) : xs.length ≤ h.brk := by
  have hsub : xs.map Prod.fst ⊆ List.range h.brk := by
    intro a ha
    obtain ⟨b, hb, rfl⟩ := List.mem_map.mp ha
    rw [List.mem_range]
    by_cases hbase : b.1 = h.base
    · have hle := hi.base_le
      rw [hbase]
      simp only [unit] at hle
      omega
    · have hpos := hi.circle.pos b hb hbase
      obtain ⟨-, hend⟩ := hi.bounds (List.mem_append_right live hb) hpos
      simp only [unit] at hend
      omega
  have hle := (hi.circle.toChain.nodup.subperm hsub).length_le
  rwa [List.length_map, List.length_range] at hle

/-- A header that no free block and not `base` is at. -/
theorem Inv.not_node (hi : Inv h xs live got) (hb : b ∈ live) : b.1 ∉ xs.map Prod.fst := by
  obtain ⟨-, hpos⟩ := hi.live b hb
  intro ha
  obtain ⟨c, hc, hcb⟩ := List.mem_map.mp ha
  obtain ⟨hlow, -⟩ := hi.bounds (List.mem_append_left xs hb) hpos
  have hbase : c.1 ≠ h.base := by
    simp only [unit] at hlow
    omega
  have h1 := owners_pos (List.mem_map_of_mem (f := bytes) hb) (has_bytes_self hpos)
  have h2 := owners_pos (List.mem_map_of_mem (f := bytes) hc)
    (has_bytes_self (hi.circle.pos c hc hbase))
  have hle := hi.owners_le b.1
  rw [List.map_append, owners_append] at hle
  rw [hcb] at h2
  omega

/-- Blocks in use are apart from each other. -/
theorem Inv.pairwise (hi : Inv h xs live got) : ((live ++ xs).map bytes).Pairwise Lib.Block.Apart :=
  pairwise_of_owners_le_one hi.owners_le

/-! ## `free` -/

theorem Inv.free (hi : Inv h xs (b :: live) got) : ∃ h' ys, free h (b.1 + unit) = some h' ∧
    Inv h' ys live got ∧ h'.brk = h.brk ∧ h'.base = h.base ∧ (∃ y ∈ ys, b.2 ≤ y.2) ∧
    ys.length ≤ xs.length + 1 := by
  obtain ⟨hsize, hpos⟩ := hi.live b List.mem_cons_self
  obtain ⟨hlow, -⟩ := hi.bounds (List.mem_append_left xs List.mem_cons_self) hpos
  have hbase : h.base < b.1 := by
    simp only [unit] at hlow
    omega
  have hpairs := hi.pairwise
  rw [List.cons_append, List.map_cons, List.pairwise_cons] at hpairs
  have hapart : ∀ c ∈ xs, c.1 + unit * c.2 ≤ b.1 ∨ b.1 + unit * b.2 ≤ c.1 := by
    intro c hc
    by_cases hcb : c.1 = h.base
    · obtain ⟨rest, hxs, hlt⟩ := hi.circle.cons
      rw [hxs] at hc
      rcases List.mem_cons.mp hc with rfl | hc
      · exact Or.inl (by simpa using Nat.le_of_lt hbase)
      · exact absurd hcb (Nat.ne_of_gt (hlt c hc))
    · have hcpos := hi.circle.pos c hc hcb
      have hbc := hpairs.1 (bytes c) (List.mem_map_of_mem (List.mem_append_right live hc))
      refine (hbc.ends ?_ ?_).symm
      · exact Nat.mul_pos (by decide) hpos
      · exact Nat.mul_pos (by decide) hcpos
  obtain ⟨h', ys, hfree, hcircle, hsame, hlarge, hlen, hown⟩ := free_spec hi.circle hpos hsize
    hbase hapart (Nat.le_trans hi.length_le (Nat.le_succ _))
  refine ⟨h', ys, hfree, ⟨hcircle, fun x => ?_, ?_, hi.apart, ?_, ?_, ?_⟩, hsame.brk_eq,
    hsame.base_eq, hlarge, hlen⟩
  · have hx := hi.own x
    have hy : owners (ys.map bytes) x = owners ((b :: xs).map bytes) x := hown x
    simp only [List.cons_append, List.map_append, List.map_cons, owners_append, owners_cons]
      at hx hy ⊢
    omega
  · intro c hc
    have hne : c.1 ∉ b.1 :: xs.map Prod.fst := by
      intro hmem
      rcases List.mem_cons.mp hmem with heq | hmem
      · have hcpos := (hi.live c (List.mem_cons_of_mem b hc)).2
        have hbc := hpairs.1 (bytes c) (List.mem_map_of_mem (List.mem_append_left xs hc))
        exact hbc b.1 ⟨has_bytes_self hpos, heq ▸ has_bytes_self hcpos⟩
      · exact hi.not_node (List.mem_cons_of_mem b hc) hmem
    rw [hsame.size_eq hne]
    exact hi.live c (List.mem_cons_of_mem b hc)
  · rw [hsame.base_eq, hsame.brk_eq]
    exact hi.inside
  · rw [hsame.base_eq]
    exact hi.base_pos
  · rw [hsame.base_eq, hsame.brk_eq]
    exact hi.base_le

/-! ## `morecore` -/

/-- What `morecore` asks for. -/
def grown (nu : Nat) : Nat := if nu < 4096 then 4096 else nu

/-- Whether `sbrk` has that much. -/
def CanGrow (h : Heap) (ok : Bool) (nu : Nat) : Prop :=
  ok = true ∧ h.brk + grown nu * unit < kernbase

instance : Decidable (CanGrow h ok nu) := inferInstanceAs (Decidable (_ ∧ _))

theorem morecore_eq : morecore h ok nu =
    match sbrk h ok (wrap (grown nu * unit : Nat)) with
    | (none, h) => some (0, h)
    | (some hp, h) =>
        match Umalloc.free (h.setSize hp (grown nu)) (hp + unit) with
        | none => none
        | some h => some (h.freep, h) := rfl

/-- `sbrk` with what `morecore` asks for, when that is an `int`. -/
theorem sbrk_grown (hnu : grown nu * unit < 2 ^ 31) :
    sbrk h ok (wrap (grown nu * unit : Nat)) = if CanGrow h ok nu then
      (some h.brk, { h with brk := h.brk + grown nu * unit }) else (none, h) := by
  have hpos : 0 < grown nu * unit := by
    unfold grown unit
    split <;> omega
  have hsz : ((h.brk : Int) + (grown nu * unit : Nat)).toNat = h.brk + grown nu * unit := by omega
  rw [wrap_natCast hnu, sbrk, hsz]
  by_cases hcan : CanGrow h ok nu
  · obtain ⟨hok, hlt⟩ := id hcan
    rw [if_pos hcan, if_neg (by simp [hok]), if_neg (by omega), if_neg (by omega),
      if_neg (by omega)]
  · rw [if_neg hcan]
    cases ok with
    | false => exact if_pos ⟨rfl, by omega⟩
    | true =>
        have hge : ¬ h.brk + grown nu * unit < kernbase := fun hlt => hcan ⟨rfl, hlt⟩
        rw [if_neg (by simp), if_pos (by omega)]

theorem morecore_none (hnu : grown nu * unit < 2 ^ 31) (hno : ¬ CanGrow h ok nu) :
    morecore h ok nu = some (0, h) := by
  rw [morecore_eq, sbrk_grown hnu, if_neg hno]

theorem Inv.morecore_some (hi : Inv h xs live got) (hyes : CanGrow h ok nu) : ∃ h' ys,
    morecore h ok nu = some (h'.freep, h') ∧ h'.freep ≠ 0 ∧
      Inv h' ys live (got ++ [(h.brk, unit * grown nu)]) ∧
      h'.brk = h.brk + unit * grown nu ∧ h'.base = h.base ∧ (∃ b ∈ ys, nu ≤ b.2) ∧
      ys.length ≤ xs.length + 1 := by
  have hnu : nu ≤ grown nu := by
    unfold grown
    split <;> omega
  have hgrown : 0 < grown nu := by
    unfold grown
    split <;> omega
  -- the new memory as a block in use
  obtain ⟨h1, hh1⟩ : ∃ h1, h1 =
      ({ h with brk := h.brk + grown nu * unit } : Heap).setSize h.brk (grown nu) := ⟨_, rfl⟩
  have hmem : ∀ c : Nat, c < h.brk → h1.mem c = h.mem c := by
    intro c hc
    rw [hh1]
    exact Function.update_of_ne (Nat.ne_of_lt hc) _ _
  have hbase1 : h1.base = h.base := by rw [hh1]; rfl
  have hbrk1 : h1.brk = h.brk + unit * grown nu := by rw [hh1, Nat.mul_comm unit]; rfl
  have hfreep1 : h1.freep = h.freep := by rw [hh1]; rfl
  have hlow : ∀ c ∈ xs, c.1 < h.brk := by
    intro c hc
    by_cases hcb : c.1 = h.base
    · have hle := hi.base_le
      rw [hcb]
      simp only [unit] at hle
      omega
    · have hpos := hi.circle.pos c hc hcb
      obtain ⟨-, hend⟩ := hi.bounds (List.mem_append_right live hc) hpos
      simp only [unit] at hend
      omega
  have hi1 : Inv h1 xs ((h.brk, grown nu) :: live) (got ++ [(h.brk, unit * grown nu)]) := by
    refine ⟨⟨⟨?_, fun c hc => ?_, hi.circle.sorted⟩, ?_, ?_, ?_⟩, fun x => ?_, ?_, ?_, ?_, ?_, ?_⟩
    · rw [hbase1]
      refine hi.circle.links.congr fun c hc => ?_
      obtain ⟨d, hd, rfl⟩ := List.mem_map.mp hc
      exact congrArg Header.ptr (hmem d.1 (hlow d hd))
    · rw [← hi.circle.sizes c hc]
      exact congrArg Header.size (hmem c.1 (hlow c hc))
    · rw [hbase1]
      exact hi.circle.head
    · rw [hbase1]
      exact hi.circle.pos
    · rw [hfreep1]
      exact hi.circle.start
    · have hx := hi.own x
      have hb : bytes (h.brk, grown nu) = (h.brk, unit * grown nu) := rfl
      rw [List.cons_append, List.map_cons, owners_cons, owners_append, hx, owners_cons, hb]
      exact Nat.add_comm _ _
    · intro c hc
      rcases List.mem_cons.mp hc with rfl | hc
      · refine ⟨?_, hgrown⟩
        rw [hh1]
        exact Heap.size_setSize_self
      · obtain ⟨hsize, hpos⟩ := hi.live c hc
        obtain ⟨-, hend⟩ := hi.bounds (List.mem_append_left xs hc) hpos
        refine ⟨?_, hpos⟩
        rw [← hsize]
        refine congrArg Header.size (hmem c.1 ?_)
        simp only [unit] at hend
        omega
    · refine List.pairwise_append.mpr ⟨hi.apart, List.pairwise_singleton _ _, ?_⟩
      intro g hg d hd x hx
      rw [List.mem_singleton.mp hd] at hx
      have hend := (hi.inside g hg).2
      have h1 := hx.1.2
      have h2 := hx.2.1
      simp only at h2
      omega
    · intro g hg
      rw [hbase1, hbrk1]
      rcases List.mem_append.mp hg with hg | hg
      · obtain ⟨h1, h2⟩ := hi.inside g hg
        omega
      · rw [List.mem_singleton.mp hg]
        exact ⟨hi.base_le, le_refl _⟩
    · rw [hbase1]
      exact hi.base_pos
    · rw [hbase1, hbrk1]
      exact Nat.le_trans hi.base_le (Nat.le_add_right _ _)
  obtain ⟨h', ys, hfree, hi', hbrk, hbase, ⟨y, hy, hlarge⟩, hlen⟩ := hi1.free
  have hfreep : h'.freep ≠ 0 := by
    obtain ⟨b, hb, heq⟩ := List.mem_map.mp hi'.circle.start
    have hle := hi'.circle.base_le hb
    have hpos := hi'.base_pos
    omega
  refine ⟨h', ys, ?_, hfreep, hi', hbrk.trans hbrk1, hbase.trans hbase1,
    ⟨y, hy, Nat.le_trans hnu hlarge⟩, hlen⟩
  rw [hh1] at hfree
  have hint : grown nu * unit < 2 ^ 31 := by
    have hlt := hyes.2
    unfold kernbase at hlt
    omega
  rw [morecore_eq, sbrk_grown hint, if_pos hyes]
  dsimp only
  rw [hfree]

/-! ## `malloc` -/

/-- The whole free block at `p`, which `q` is in front of, leaves the circle. -/
theorem Inv.take_whole (hi : Inv h (as ++ (q, k) :: (p, n) :: cs) live got) (hn : 0 < n) :
    Inv { h.setPtr q (h.ptr p) with freep := q } (as ++ (q, k) :: cs) ((p, n) :: live) got := by
  obtain ⟨-, hrest, hseg⟩ := hi.circle.toChain.split
  have hcs := hrest.tail
  obtain ⟨hsorted, hsorted2, hbefore⟩ := List.pairwise_append.mp hi.circle.sorted
  obtain ⟨hq, -⟩ := List.pairwise_cons.mp hsorted2
  have hsame : Heap.Same [q] h (h.setPtr q (h.ptr p)) := Heap.same_setPtr
  have hchain : Chain (h.setPtr q (h.ptr p)) h.base (as ++ (q, k) :: cs) := by
    refine Chain.append ?_ (fun b hb => ?_) hsorted (Chain.cons ?_ ?_ fun c hc => ?_) ?_
    · refine hseg.congr fun a ha => ?_
      obtain ⟨b, hb, rfl⟩ := List.mem_map.mp ha
      have hlt := lt_of_before (hbefore b hb (q, k) List.mem_cons_self)
      exact Heap.ptr_setPtr_ne (Nat.ne_of_lt hlt)
    · rw [Heap.size_setPtr]
      exact hi.circle.sizes b (List.mem_append_left _ hb)
    · rw [Heap.ptr_setPtr_self]
      refine hcs.congr hsame fun c hc heq => ?_
      have hlt := lt_of_before (hq c (List.mem_cons_of_mem _ hc))
      rw [List.mem_singleton.mp heq] at hlt
      exact Nat.lt_irrefl _ hlt
    · rw [Heap.size_setPtr]
      exact hi.circle.sizes (q, k) (List.mem_append_right as List.mem_cons_self)
    · exact hq c (List.mem_cons_of_mem _ hc)
    · intro b hb c hc
      refine hbefore b hb c ?_
      rcases List.mem_cons.mp hc with rfl | hc
      · exact List.mem_cons_self
      · exact List.mem_cons_of_mem _ (List.mem_cons_of_mem _ hc)
  refine ⟨⟨⟨hchain.links, hchain.sizes, hchain.sorted⟩, ?_, ?_, ?_⟩, fun x => ?_, fun b hb => ?_,
    hi.apart, hi.inside, hi.base_pos, hi.base_le⟩
  · have hhead := hi.circle.head
    cases as with
    | nil => exact hhead
    | cons b as => exact hhead
  · intro b hb
    refine hi.circle.pos b ?_
    rcases List.mem_append.mp hb with hb | hb
    · exact List.mem_append_left _ hb
    · rcases List.mem_cons.mp hb with rfl | hb
      · exact List.mem_append_right as List.mem_cons_self
      · exact List.mem_append_right as (List.mem_cons_of_mem _ (List.mem_cons_of_mem _ hb))
  · show q ∈ _
    rw [List.map_append, List.map_cons]
    exact List.mem_append_right _ List.mem_cons_self
  · have hx := hi.own x
    simp only [List.cons_append, List.map_append, List.map_cons, owners_append, owners_cons]
      at hx ⊢
    omega
  · show (h.setPtr q (h.ptr p)).size b.1 = b.2 ∧ 0 < b.2
    rw [Heap.size_setPtr]
    rcases List.mem_cons.mp hb with rfl | hb
    · exact ⟨hi.circle.sizes (p, n)
        (List.mem_append_right as (List.mem_cons_of_mem _ List.mem_cons_self)), hn⟩
    · exact hi.live b hb

/-- The upper part of the free block at `p` is taken. -/
theorem Inv.take_upper (hi : Inv h (as ++ (q, k) :: (p, m) :: cs) live got) (hn : 0 < n)
    (hlt : n < m) :
    Inv { (h.setSize p (m - n)).setSize (p + unit * (m - n)) n with freep := q }
      (as ++ (q, k) :: (p, m - n) :: cs) ((p + unit * (m - n), n) :: live) got := by
  have hmem : (p, m) ∈ as ++ (q, k) :: (p, m) :: cs :=
    List.mem_append_right as (List.mem_cons_of_mem _ List.mem_cons_self)
  obtain ⟨-, hrest, hseg⟩ := hi.circle.toChain.split
  have hcs := hrest.tail
  have hqp : h.ptr q = p := hrest.links.1
  obtain ⟨hsorted, hsorted2, hbefore⟩ := List.pairwise_append.mp hi.circle.sorted
  obtain ⟨hq, hsorted3⟩ := List.pairwise_cons.mp hsorted2
  obtain ⟨hp, -⟩ := List.pairwise_cons.mp hsorted3
  have hqp' : q < p := lt_of_before (hq (p, m) List.mem_cons_self)
  have ha : p < p + unit * (m - n) := by
    simp only [unit]
    omega
  have hsame : Heap.Same [p, p + unit * (m - n)] h
      ((h.setSize p (m - n)).setSize (p + unit * (m - n)) n) := by
    refine (Heap.same_setSize.mono ?_).trans (Heap.same_setSize.mono ?_)
    · exact fun a ha => List.mem_cons.mpr (Or.inl (List.mem_singleton.mp ha))
    · exact fun a ha => List.mem_cons_of_mem p ha
  have hbehind : ∀ c ∈ cs, c.1 ∉ [p, p + unit * (m - n)] := by
    intro c hc heq
    have hlt := hp c hc
    unfold Before at hlt
    simp only [List.mem_cons, List.not_mem_nil, or_false, unit] at heq hlt
    omega
  have hinfront : ∀ b, b < p → b ∉ [p, p + unit * (m - n)] := by
    intro b hb heq
    simp only [List.mem_cons, List.not_mem_nil, or_false] at heq
    omega
  have hptr : ∀ a, ((h.setSize p (m - n)).setSize (p + unit * (m - n)) n).ptr a = h.ptr a :=
    fun a => by rw [Heap.ptr_setSize, Heap.ptr_setSize]
  have hsizep : ((h.setSize p (m - n)).setSize (p + unit * (m - n)) n).size p = m - n := by
    rw [Heap.size_setSize_ne (Nat.ne_of_lt ha), Heap.size_setSize_self]
  have hchain : Chain ((h.setSize p (m - n)).setSize (p + unit * (m - n)) n) h.base
      (as ++ (q, k) :: (p, m - n) :: cs) := by
    refine Chain.append ?_ (fun b hb => ?_) hsorted
      (Chain.cons ?_ ?_ fun c hc => ?_) fun b hb c hc => ?_
    · exact hseg.congr fun a _ => hptr a
    · have hbq := lt_of_before (hbefore b hb (q, k) List.mem_cons_self)
      rw [hsame.size_eq (hinfront b.1 (Nat.lt_trans hbq hqp'))]
      exact hi.circle.sizes b (List.mem_append_left _ hb)
    · rw [hptr, hqp]
      refine Chain.cons ?_ hsizep fun c hc => ?_
      · rw [hptr]
        exact hcs.congr hsame hbehind
      · have hbc := hp c hc
        unfold Before at hbc ⊢
        simp only [unit] at hbc ⊢
        omega
    · rw [hsame.size_eq (hinfront q hqp')]
      exact hi.circle.sizes (q, k) (List.mem_append_right as List.mem_cons_self)
    · rcases List.mem_cons.mp hc with rfl | hc
      · exact hq (p, m) List.mem_cons_self
      · exact hq c (List.mem_cons_of_mem _ hc)
    · rcases List.mem_cons.mp hc with rfl | hc
      · exact hbefore b hb (q, k) List.mem_cons_self
      · rcases List.mem_cons.mp hc with rfl | hc
        · exact hbefore b hb (p, m) (List.mem_cons_of_mem _ List.mem_cons_self)
        · exact hbefore b hb c (List.mem_cons_of_mem _ (List.mem_cons_of_mem _ hc))
  refine ⟨⟨⟨hchain.links, hchain.sizes, hchain.sorted⟩, ?_, ?_, ?_⟩, fun x => ?_, fun b hb => ?_,
    hi.apart, hi.inside, hi.base_pos, hi.base_le⟩
  · have hhead := hi.circle.head
    cases as with
    | nil => exact hhead
    | cons b as => exact hhead
  · intro b hb hne
    rcases List.mem_append.mp hb with hb | hb
    · exact hi.circle.pos b (List.mem_append_left _ hb) hne
    · rcases List.mem_cons.mp hb with rfl | hb
      · exact hi.circle.pos (q, k) (List.mem_append_right as List.mem_cons_self) hne
      · rcases List.mem_cons.mp hb with rfl | hb
        · exact Nat.sub_pos_of_lt hlt
        · exact hi.circle.pos b
            (List.mem_append_right as (List.mem_cons_of_mem _ (List.mem_cons_of_mem _ hb))) hne
  · show q ∈ _
    rw [List.map_append, List.map_cons]
    exact List.mem_append_right _ List.mem_cons_self
  · have hx := hi.own x
    have hjoin : owners (((p, m - n + n) :: cs).map bytes) x =
        owners (((p, m - n) :: (p + unit * (m - n), n) :: cs).map bytes) x := owners_join rfl
    rw [Nat.sub_add_cancel (Nat.le_of_lt hlt)] at hjoin
    simp only [List.cons_append, List.map_append, List.map_cons, owners_append, owners_cons]
      at hx hjoin ⊢
    omega
  · show ((h.setSize p (m - n)).setSize (p + unit * (m - n)) n).size b.1 = b.2 ∧ 0 < b.2
    rcases List.mem_cons.mp hb with rfl | hb
    · exact ⟨Heap.size_setSize_self, hn⟩
    · -- no block in use starts within the free block
      obtain ⟨hbsize, hbpos⟩ := hi.live b hb
      have hout : b.1 ∉ [p, p + unit * (m - n)] := by
        intro heq
        have hpx : (bytes (p, m)).Has b.1 := by
          simp only [List.mem_cons, List.not_mem_nil, or_false, unit] at heq
          unfold bytes Lib.Block.Has
          simp only [unit]
          omega
        have h1 := owners_pos (List.mem_map_of_mem (f := bytes) hb) (has_bytes_self hbpos)
        have h2 := owners_pos (List.mem_map_of_mem (f := bytes) hmem) hpx
        have hle := hi.owners_le b.1
        rw [List.map_append, owners_append] at hle
        omega
      rw [hsame.size_eq hout]
      exact ⟨hbsize, hbpos⟩

theorem Inv.take (hi : Inv h (as ++ (q, k) :: (p, m) :: cs) live got) (hn : 0 < n) (hfit : n ≤ m) :
    ∃ a h' ys, take h n q p = (a + unit, h') ∧ Inv h' ys ((a, n) :: live) got ∧
      h'.brk = h.brk ∧ h'.base = h.base := by
  have hsize : h.size p = m := hi.circle.sizes (p, m)
    (List.mem_append_right as (List.mem_cons_of_mem _ List.mem_cons_self))
  unfold Umalloc.take
  rw [hsize]
  by_cases hexact : m = n
  · subst hexact
    rw [if_pos rfl]
    exact ⟨p, _, _, rfl, hi.take_whole hn, rfl, rfl⟩
  · rw [if_neg hexact]
    dsimp only
    rw [Heap.size_setSize_self]
    exact ⟨_, _, _, rfl, hi.take_upper hn (by omega), rfl, rfl⟩

/-- The block in front of one that has a size. -/
theorem Circle.before {t : Nat} (hc : Circle h xs) (hq : q ∈ xs.map Prod.fst) (hnext : h.ptr q = t)
    (ht : 0 < h.size t) : ∃ as k m cs, xs = as ++ (q, k) :: (t, m) :: cs ∧ h.size t = m := by
  obtain ⟨⟨q, k⟩, hmem, rfl⟩ := List.mem_map.mp hq
  obtain ⟨as, rest, rfl⟩ := List.append_of_mem hmem
  obtain ⟨hfirst, -, -⟩ := hc.toChain.split
  cases rest with
  | nil =>
      have hbase : t = h.base := hnext.symm.trans hfirst
      obtain ⟨rest, hxs, -⟩ := hc.cons
      have hzero : h.size h.base = 0 := hc.sizes (h.base, 0) (hxs ▸ List.mem_cons_self)
      rw [hbase, hzero] at ht
      exact absurd ht (Nat.lt_irrefl 0)
  | cons c cs =>
      obtain ⟨t', m⟩ := c
      obtain rfl : t' = t := hfirst.symm.trans hnext
      exact ⟨as, k, m, cs, rfl, hc.sizes (t', m)
        (List.mem_append_right as (List.mem_cons_of_mem _ List.mem_cons_self))⟩

/-- The search goes on to the first block that is large enough. -/
theorem search_first (ok : Bool) {t fuel : Nat} {ps : List Nat} (hc : Circle h xs) (hn : 0 < n)
    (hps : Seg h.ptr (h.ptr q) ps t) (hq : q ∈ xs.map Prod.fst) (ht : n ≤ h.size t)
    (hall : ∀ a ∈ ps, h.size a < n ∧ a ≠ h.freep ∧ a ∈ xs.map Prod.fst) (hfuel : ps.length < fuel) :
    ∃ q' as k m cs, xs = as ++ (q', k) :: (t, m) :: cs ∧ n ≤ m ∧
      search ok n fuel h q (h.ptr q) = some (take h n q' t) := by
  induction ps generalizing q fuel with
  | nil =>
      obtain ⟨fuel, rfl⟩ := Nat.exists_eq_succ_of_ne_zero (Nat.ne_of_gt hfuel)
      have hqt : h.ptr q = t := hps
      obtain ⟨as, k, m, cs, hxs, hm⟩ := hc.before hq hqt (Nat.lt_of_lt_of_le hn ht)
      refine ⟨q, as, k, m, cs, hxs, hm ▸ ht, ?_⟩
      rw [search, hqt, if_pos ht]
  | cons a ps ih =>
      obtain ⟨hqa, hps⟩ := hps
      obtain ⟨fuel, rfl⟩ := Nat.exists_eq_succ_of_ne_zero (Nat.ne_of_gt (Nat.zero_lt_of_lt hfuel))
      obtain ⟨hsmall, hfreep, hmem⟩ := hall a List.mem_cons_self
      obtain ⟨q', as, k, m, cs, hxs, hm, hsearch⟩ := ih hps hmem
        (fun b hb => hall b (List.mem_cons_of_mem a hb)) (Nat.lt_of_succ_lt_succ hfuel)
      refine ⟨q', as, k, m, cs, hxs, hm, ?_⟩
      rw [search, hqa, if_neg (Nat.not_le.mpr hsmall), if_neg hfreep]
      exact hsearch

/-- Without a block that is large enough, the search comes around to `freep`. -/
theorem search_around {fuel : Nat} {ps : List Nat} (hps : Seg h.ptr p ps h.freep)
    (hall : ∀ a, a ∈ ps ∨ a = h.freep → h.size a < n) (hnot : h.freep ∉ ps) :
    search ok n (ps.length + (fuel + 1)) h q p =
      match morecore h ok n with
      | none => none
      | some (p, h) => if p = 0 then some (0, h) else search ok n fuel h p (h.ptr p) := by
  induction ps generalizing p q with
  | nil =>
      obtain rfl : p = h.freep := hps
      rw [List.length_nil, Nat.zero_add, search, if_neg (Nat.not_le.mpr (hall _ (Or.inr rfl)))]
      exact if_pos rfl
  | cons a ps ih =>
      obtain ⟨rfl, hps⟩ := hps
      rw [List.mem_cons, not_or] at hnot
      have hsteps : (p :: ps).length + (fuel + 1) = ps.length + (fuel + 1) + 1 := by
        rw [List.length_cons]
        omega
      rw [hsteps, search, if_neg (Nat.not_le.mpr (hall p (Or.inl List.mem_cons_self))),
        if_neg (Ne.symm hnot.1)]
      refine ih hps (fun b hb => hall b ?_) hnot.2
      exact hb.imp_left (List.mem_cons_of_mem p)

/-- A search that finds a block. -/
theorem Inv.search_fit (ok : Bool) {fuel : Nat} (hi : Inv h xs live got) (hn : 0 < n)
    (hfit : ∃ b ∈ xs, n ≤ b.2) (hfuel : xs.length ≤ fuel) :
    ∃ a h' ys, search ok n fuel h h.freep (h.ptr h.freep) = some (a + unit, h') ∧
      Inv h' ys ((a, n) :: live) got ∧ h'.brk = h.brk ∧ h'.base = h.base := by
  have hc := hi.circle
  obtain ⟨b, hb, hfit⟩ := hfit
  obtain ⟨rest, hxs, -⟩ := hc.cons
  have hlinks := hc.links
  have hnodup := hc.toChain.nodup
  have hstart := hc.start
  have hmem : b.1 ∈ xs.map Prod.fst := List.mem_map_of_mem hb
  have hlen := congrArg List.length hxs
  rw [hxs] at hlinks hnodup hstart hmem
  obtain ⟨ps, hps, hnot, hpslen, hpsmem⟩ := hlinks.around hnodup hstart
  rw [List.length_map] at hpslen
  rw [List.length_cons] at hlen
  rcases hps.find fun a => n ≤ h.size a with ⟨t, as, has, ht, haslen, hall⟩ | hnone
  · have hbefore : ∀ a ∈ as, h.size a < n ∧ a ≠ h.freep ∧ a ∈ xs.map Prod.fst := by
      intro a ha
      obtain ⟨hsmall, hmem⟩ := hall a ha
      refine ⟨Nat.not_le.mp hsmall, fun heq => hnot (heq ▸ hmem), ?_⟩
      rw [hxs]
      exact (hpsmem a).mp (Or.inl hmem)
    have hsteps : as.length < fuel := by omega
    obtain ⟨q', bs, k, m, cs, hsplit, hm, hsearch⟩ :=
      search_first ok hc hn has hc.start ht hbefore hsteps
    subst hsplit
    obtain ⟨a, h', ys, htake, hi', hbrk, hbase⟩ := hi.take hn hm
    exact ⟨a, h', ys, hsearch.trans (congrArg some htake), hi', hbrk, hbase⟩
  · refine absurd ?_ (hnone b.1 ((hpsmem b.1).mpr hmem))
    show n ≤ h.size b.1
    rw [hc.sizes b hb]
    exact hfit

/-- What a call of `malloc` for `n` units can come to. -/
inductive Outcome (h : Heap) (xs live got : List Lib.Block) (ok : Bool) (n : Nat) :
    Nat × Heap → Prop
  | fit {a : Nat} {h' : Heap} {ys : List Lib.Block} : (∃ b ∈ xs, n ≤ b.2) →
      Inv h' ys ((a, n) :: live) got → h'.brk = h.brk → h'.base = h.base →
      Outcome h xs live got ok n (a + unit, h')
  | more {a : Nat} {h' : Heap} {ys : List Lib.Block} : (∀ b ∈ xs, b.2 < n) → CanGrow h ok n →
      Inv h' ys ((a, n) :: live) (got ++ [(h.brk, unit * grown n)]) →
      h'.brk = h.brk + unit * grown n → h'.base = h.base →
      Outcome h xs live got ok n (a + unit, h')
  | fail : (∀ b ∈ xs, b.2 < n) → ¬ CanGrow h ok n → Outcome h xs live got ok n (0, h)

theorem Inv.search_spec (hi : Inv h xs live got) (hn : 0 < n) (hmax : grown n * unit < 2 ^ 31) :
    ∃ r, search ok n (2 * h.bound) h h.freep (h.ptr h.freep) = some r ∧
      Outcome h xs live got ok n r := by
  have hlength := hi.length_le
  by_cases hfit : ∃ b ∈ xs, n ≤ b.2
  · have hfuel : xs.length ≤ 2 * h.bound := by
      unfold Heap.bound
      omega
    obtain ⟨a, h', ys, hsearch, hi', hbrk, hbase⟩ := hi.search_fit ok hn hfit hfuel
    exact ⟨_, hsearch, .fit hfit hi' hbrk hbase⟩
  · have hsmall : ∀ b ∈ xs, b.2 < n := fun b hb => Nat.not_le.mp fun hle => hfit ⟨b, hb, hle⟩
    have hc := hi.circle
    obtain ⟨rest, hxs, -⟩ := hc.cons
    have hlinks := hc.links
    have hnodup := hc.toChain.nodup
    have hstart := hc.start
    have hlen := congrArg List.length hxs
    rw [hxs] at hlinks hnodup hstart
    obtain ⟨ps, hps, hnot, hpslen, hpsmem⟩ := hlinks.around hnodup hstart
    rw [List.length_map] at hpslen
    rw [List.length_cons] at hlen
    have hall : ∀ a, a ∈ ps ∨ a = h.freep → h.size a < n := by
      intro a ha
      have hmem := (hpsmem a).mp ha
      rw [← List.map_cons (f := Prod.fst) (a := (h.base, 0)), ← hxs] at hmem
      obtain ⟨b, hb, rfl⟩ := List.mem_map.mp hmem
      rw [hc.sizes b hb]
      exact hsmall b hb
    obtain ⟨fuel, hfuel⟩ : ∃ fuel, 2 * h.bound = ps.length + (fuel + 1) ∧ xs.length + 1 ≤ fuel := by
      refine ⟨2 * h.bound - ps.length - 1, ?_, ?_⟩
      all_goals
        unfold Heap.bound
        omega
    rw [hfuel.1, search_around hps hall hnot]
    by_cases hgrow : CanGrow h ok n
    · obtain ⟨h1, ys, hmore, hne, hi1, hbrk, hbase, hlarge, hys⟩ := hi.morecore_some hgrow
      obtain ⟨a, h', zs, hsearch, hi', hbrk', hbase'⟩ := hi1.search_fit ok hn hlarge
        (Nat.le_trans hys hfuel.2)
      rw [hmore]
      dsimp only
      rw [if_neg hne]
      exact ⟨_, hsearch, .more hsmall hgrow hi' (hbrk'.trans hbrk) (hbase'.trans hbase)⟩
    · rw [morecore_none hmax hgrow]
      exact ⟨(0, h), rfl, .fail hsmall hgrow⟩

end Os377.Xv6.Umalloc
