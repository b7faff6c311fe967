import Os377.Xv6.Umalloc

/-!
# The free list of the xv6 user programs

The circle as a list of blocks (`Circle`), in the order of the addresses and with a gap
between any two: `free` puts a block where it belongs and joins it to its neighbours
(`free_spec`), and `malloc` takes from the first block that is large enough or finds that
there is none (`search_spec`).
-/

namespace Os377.Xv6.Umalloc

open Os377.Lib

variable {h h' : Heap} {p q bp m n a x : Nat} {as cs xs ys : List Lib.Block} {b c : Lib.Block}

namespace Heap

@[simp] theorem ptr_setPtr_self : (h.setPtr p q).ptr p = q := by
  unfold setPtr ptr
  simp

@[simp] theorem ptr_setPtr_ne (hne : a ≠ p) : (h.setPtr p q).ptr a = h.ptr a := by
  unfold setPtr ptr
  simp [Function.update_of_ne hne]

@[simp] theorem size_setPtr : (h.setPtr p q).size a = h.size a := by
  unfold setPtr size
  by_cases ha : a = p
  · subst ha
    simp
  · simp [Function.update_of_ne ha]

@[simp] theorem size_setSize_self : (h.setSize p n).size p = n := by
  unfold setSize size
  simp

@[simp] theorem size_setSize_ne (hne : a ≠ p) : (h.setSize p n).size a = h.size a := by
  unfold setSize size
  simp [Function.update_of_ne hne]

@[simp] theorem ptr_setSize : (h.setSize p n).ptr a = h.ptr a := by
  unfold setSize ptr
  by_cases ha : a = p
  · subst ha
    simp
  · simp [Function.update_of_ne ha]

/-- Nothing but the headers at the addresses `ps` differs. -/
structure Same (ps : List Nat) (h h' : Heap) : Prop where
  mem_eq : ∀ a, a ∉ ps → h'.mem a = h.mem a
  base_eq : h'.base = h.base
  brk_eq : h'.brk = h.brk

theorem Same.trans {ps : List Nat} {h'' : Heap} (h1 : Same ps h h') (h2 : Same ps h' h'') :
    Same ps h h'' :=
  ⟨fun a ha => (h2.mem_eq a ha).trans (h1.mem_eq a ha), h2.base_eq.trans h1.base_eq,
    h2.brk_eq.trans h1.brk_eq⟩

theorem Same.mono {ps qs : List Nat} (h1 : Same ps h h') (hsub : ∀ a ∈ ps, a ∈ qs) :
    Same qs h h' :=
  ⟨fun a ha => h1.mem_eq a fun hmem => ha (hsub a hmem), h1.base_eq, h1.brk_eq⟩

theorem same_setPtr : Same [p] h (h.setPtr p q) :=
  ⟨fun _ ha => Function.update_of_ne (fun heq => ha (List.mem_singleton.mpr heq)) _ _, rfl, rfl⟩

theorem same_setSize : Same [p] h (h.setSize p n) :=
  ⟨fun _ ha => Function.update_of_ne (fun heq => ha (List.mem_singleton.mpr heq)) _ _, rfl, rfl⟩

theorem Same.ptr_eq {ps : List Nat} (h1 : Same ps h h') (ha : a ∉ ps) : h'.ptr a = h.ptr a :=
  congrArg Header.ptr (h1.mem_eq a ha)

theorem Same.size_eq {ps : List Nat} (h1 : Same ps h h') (ha : a ∉ ps) : h'.size a = h.size a :=
  congrArg Header.size (h1.mem_eq a ha)

end Heap

/-! ## The circle -/

/-- The bytes of a block that is given by its address and its units. -/
def bytes (b : Lib.Block) : Lib.Block := (b.1, unit * b.2)

/-- `b` ends before `c` starts, and not where it starts. -/
def Before (b c : Lib.Block) : Prop := b.1 + unit * b.2 < c.1

/-- From `q` through the blocks `cs` to `base`. -/
structure Chain (h : Heap) (q : Nat) (cs : List Lib.Block) : Prop where
  links : Seg h.ptr q (cs.map Prod.fst) h.base
  sizes : ∀ c ∈ cs, h.size c.1 = c.2
  sorted : cs.Pairwise Before

/-- The blocks in the circle, from `base` on. -/
structure Circle (h : Heap) (xs : List Lib.Block) : Prop extends Chain h h.base xs where
  head : xs.head? = some (h.base, 0)
  pos : ∀ b ∈ xs, b.1 ≠ h.base → 0 < b.2
  start : h.freep ∈ xs.map Prod.fst

/-- The first address of some blocks, `base` behind the last one. -/
def first (base : Nat) : List Lib.Block → Nat
  | [] => base
  | c :: _ => c.1

theorem seg_start {next : Nat → Nat} (h : Seg next q (cs.map Prod.fst) a) : q = first a cs := by
  cases cs with
  | nil => exact h
  | cons c cs => exact h.1

theorem Chain.split (hc : Chain h q (as ++ b :: cs)) :
    h.ptr b.1 = first h.base cs ∧ Chain h (h.ptr b.1) cs ∧ Seg h.ptr q (as.map Prod.fst) b.1 := by
  have hlinks := hc.links
  rw [List.map_append, List.map_cons, seg_append] at hlinks
  obtain ⟨r, has, rfl, hcs⟩ := hlinks
  refine ⟨seg_start hcs, ⟨hcs, fun c hc' => ?_, ?_⟩, has⟩
  · exact hc.sizes c (List.mem_append_right as (List.mem_cons_of_mem b hc'))
  · exact (List.pairwise_cons.mp (List.pairwise_append.mp hc.sorted).2.1).2

theorem lt_of_before (h : Before b c) : b.1 < c.1 := by
  unfold Before at h
  omega

theorem Chain.nodup (hc : Chain h q xs) : (xs.map Prod.fst).Nodup := by
  rw [List.Nodup, List.pairwise_map]
  exact hc.sorted.imp fun hb => Nat.ne_of_lt (lt_of_before hb)

theorem Circle.cons (hc : Circle h xs) : ∃ rest, xs = (h.base, 0) :: rest ∧
    ∀ c ∈ rest, h.base < c.1 := by
  obtain ⟨rest, rfl⟩ := List.head?_eq_some_iff.mp hc.head
  refine ⟨rest, rfl, fun c hmem => ?_⟩
  exact lt_of_before ((List.pairwise_cons.mp hc.sorted).1 c hmem)

theorem Circle.base_le (hc : Circle h xs) (hb : b ∈ xs) : h.base ≤ b.1 := by
  obtain ⟨rest, rfl, hlt⟩ := hc.cons
  rcases List.mem_cons.mp hb with rfl | hb
  · exact le_refl _
  · exact Nat.le_of_lt (hlt b hb)

/-- What stands behind the first block of a chain. -/
theorem Chain.tail (hc : Chain h q (b :: cs)) : Chain h (h.ptr b.1) cs := by
  have hsplit : Chain h q ([] ++ b :: cs) := hc
  exact hsplit.split.2.1

/-! ## Finding the place -/

/-- The blocks around one that is apart from all of them. -/
theorem Circle.place (hc : Circle h xs) (hbase : h.base < bp)
    (hapart : ∀ b ∈ xs, b.1 + unit * b.2 ≤ bp ∨ bp + unit * n ≤ b.1) :
    ∃ as p m cs, xs = as ++ (p, m) :: cs ∧ p < bp ∧ p + unit * m ≤ bp ∧
      ∀ c ∈ cs, bp + unit * n ≤ c.1 := by
  have hlist : ∀ ys : List Lib.Block, ys.Pairwise Before →
      (∀ b ∈ ys, b.1 + unit * b.2 ≤ bp ∨ bp + unit * n ≤ b.1) → ∃ as cs, ys = as ++ cs ∧
        (∀ b ∈ as, b.1 + unit * b.2 ≤ bp) ∧ ∀ c ∈ cs, bp + unit * n ≤ c.1 := by
    intro ys hsorted hapart
    induction ys with
    | nil => exact ⟨[], [], rfl, fun b hb => absurd hb List.not_mem_nil,
        fun c hc => absurd hc List.not_mem_nil⟩
    | cons b ys ih =>
        obtain ⟨hb, hys⟩ := List.pairwise_cons.mp hsorted
        rcases hapart b List.mem_cons_self with hle | hge
        · obtain ⟨as, cs, rfl, has, hcs⟩ :=
            ih hys fun c hc => hapart c (List.mem_cons_of_mem b hc)
          refine ⟨b :: as, cs, rfl, fun c hc => ?_, hcs⟩
          rcases List.mem_cons.mp hc with rfl | hc
          · exact hle
          · exact has c hc
        · refine ⟨[], b :: ys, rfl, fun c hc => absurd hc List.not_mem_nil, fun c hc => ?_⟩
          rcases List.mem_cons.mp hc with rfl | hc
          · exact hge
          · exact Nat.le_trans hge (Nat.le_of_lt (lt_of_before (hb c hc)))
  obtain ⟨rest, rfl, hlt⟩ := hc.cons
  obtain ⟨as, cs, rfl, has, hcs⟩ := hlist rest (List.pairwise_cons.mp hc.sorted).2
    fun b hb => hapart b (List.mem_cons_of_mem _ hb)
  rcases List.eq_nil_or_concat as with rfl | ⟨as, ⟨p, m⟩, rfl⟩
  · exact ⟨[], h.base, 0, cs, rfl, hbase, by omega, hcs⟩
  · rw [List.concat_eq_append] at has hlt hc ⊢
    refine ⟨(h.base, 0) :: as, p, m, cs, ?_, ?_, ?_, hcs⟩
    · rw [List.append_assoc]
      rfl
    · have hp : (p, m) ∈ as ++ [(p, m)] := List.mem_append_right as List.mem_cons_self
      have hle := has (p, m) hp
      have hmem : (p, m) ∈ (as ++ [(p, m)]) ++ cs := List.mem_append_left cs hp
      have hpos := hc.pos (p, m) (List.mem_cons_of_mem _ hmem) (Nat.ne_of_gt (hlt (p, m) hmem))
      simp only [unit] at hle hpos
      omega
    · exact has (p, m) (List.mem_append_right as List.mem_cons_self)

/-- The search goes on at every other block. -/
theorem findPlace_at (hc : Circle h (as ++ (p, m) :: cs)) (hlt : p < bp)
    (hcs : ∀ c ∈ cs, bp < c.1) :
    (bp > p ∧ bp < h.ptr p ∨ p ≥ h.ptr p ∧ (bp > p ∨ bp < h.ptr p)) ∧
    ∀ b ∈ as ++ (p, m) :: cs, b.1 ≠ p →
      ¬ (bp > b.1 ∧ bp < h.ptr b.1) ∧ ¬ (b.1 ≥ h.ptr b.1 ∧ (bp > b.1 ∨ bp < h.ptr b.1)) := by
  have hbase : h.base ≤ p := hc.base_le (b := (p, m)) (List.mem_append_right as List.mem_cons_self)
  constructor
  · obtain ⟨hnext, -, -⟩ := hc.toChain.split
    cases cs with
    | nil =>
        have hptr : h.ptr p = h.base := hnext
        omega
    | cons c cs =>
        have hptr : h.ptr p = c.1 := hnext
        have hc' := hcs c List.mem_cons_self
        omega
  · intro b hb hne
    rcases List.mem_append.mp hb with hb | hb
    · -- in front of `p`: what follows is not behind `p`
      obtain ⟨as1, as2, rfl⟩ := List.append_of_mem hb
      have hsorted := hc.sorted
      have hc' := hc.toChain
      rw [List.append_assoc, List.cons_append] at hc' hsorted
      obtain ⟨hnext, -, -⟩ := hc'.split
      have hafter := (List.pairwise_cons.mp (List.pairwise_append.mp hsorted).2.1).1
      cases as2 with
      | nil =>
          have hptr : h.ptr b.1 = p := hnext
          have hlt' := lt_of_before (hafter (p, m) List.mem_cons_self)
          simp only at hlt'
          omega
      | cons d as2 =>
          have hptr : h.ptr b.1 = d.1 := hnext
          have hbd := lt_of_before (hafter d List.mem_cons_self)
          have hp : (p, m) ∈ as2 ++ (p, m) :: cs := List.mem_append_right as2 List.mem_cons_self
          have hrest := (List.pairwise_cons.mp (List.pairwise_append.mp hsorted).2.1).2
          have hdp := lt_of_before ((List.pairwise_cons.mp hrest).1 (p, m) hp)
          simp only at hdp
          omega
    · rcases List.mem_cons.mp hb with rfl | hb
      · exact absurd rfl hne
      · -- behind `bp`: what follows is further behind, or `base`
        have hge := hcs b hb
        obtain ⟨cs1, cs2, rfl⟩ := List.append_of_mem hb
        have hsorted := hc.sorted
        have hc' := hc.toChain
        rw [← List.cons_append, ← List.append_assoc] at hc' hsorted
        obtain ⟨hnext, -, -⟩ := hc'.split
        have hafter := (List.pairwise_cons.mp (List.pairwise_append.mp hsorted).2.1).1
        cases cs2 with
        | nil =>
            have hptr : h.ptr b.1 = h.base := hnext
            omega
        | cons d cs2 =>
            have hptr : h.ptr b.1 = d.1 := hnext
            have hbd := lt_of_before (hafter d List.mem_cons_self)
            omega

theorem findPlace_eq (hc : Circle h (as ++ (p, m) :: cs)) (hlt : p < bp)
    (hcs : ∀ c ∈ cs, bp < c.1) (hn : (as ++ (p, m) :: cs).length ≤ n) :
    findPlace h bp n h.freep = some p := by
  obtain ⟨hstop, hgo⟩ := findPlace_at hc hlt hcs
  obtain ⟨rest, hxs, -⟩ := hc.cons
  have hp : p ∈ (as ++ (p, m) :: cs).map Prod.fst :=
    List.mem_map_of_mem (f := Prod.fst) (List.mem_append_right as List.mem_cons_self)
  have hstart := hc.start
  have hlinks := hc.links
  have hnodup := hc.toChain.nodup
  have hmem : ∀ a ∈ (as ++ (p, m) :: cs).map Prod.fst, a ≠ p →
      ¬ (bp > a ∧ bp < h.ptr a) ∧ ¬ (a ≥ h.ptr a ∧ (bp > a ∨ bp < h.ptr a)) := by
    intro a ha hne
    obtain ⟨b, hb, rfl⟩ := List.mem_map.mp ha
    exact hgo b hb hne
  rw [hxs] at hlinks hnodup hp hstart hmem hn
  obtain ⟨ps, hps, hnot, hlen, hsub⟩ := hlinks.reach hnodup hstart hp
  rw [List.length_map] at hlen
  rw [List.length_cons] at hn
  have hshort : ps.length < n := by omega
  clear hlen hstart hn
  generalize h.freep = u at hps
  induction ps generalizing u n with
  | nil =>
      obtain rfl : u = p := hps
      obtain ⟨n, rfl⟩ := Nat.exists_eq_succ_of_ne_zero (Nat.ne_of_gt hshort)
      unfold findPlace
      split
      · rfl
      · next hfirst => rw [if_pos (hstop.resolve_left hfirst)]
  | cons a ps ih =>
      obtain ⟨rfl, hps⟩ := hps
      rw [List.mem_cons, not_or] at hnot
      obtain ⟨n, rfl⟩ := Nat.exists_eq_succ_of_ne_zero (Nat.ne_of_gt (Nat.zero_lt_of_lt hshort))
      obtain ⟨h1, h2⟩ := hmem u (hsub u List.mem_cons_self) (fun heq => hnot.1 heq.symm)
      rw [findPlace, if_neg h1, if_neg h2]
      exact ih hnot.2 (fun a ha => hsub a (List.mem_cons_of_mem u ha))
        (Nat.lt_of_succ_lt_succ hshort) _ hps

/-! ## Putting a block in -/

theorem Chain.congr {ps : List Nat} (hc : Chain h q cs) (hs : Heap.Same ps h h')
    (hout : ∀ c ∈ cs, c.1 ∉ ps) : Chain h' q cs := by
  refine ⟨?_, fun c hmem => ?_, hc.sorted⟩
  · rw [hs.base_eq]
    refine hc.links.congr fun a ha => ?_
    obtain ⟨c, hmem, rfl⟩ := List.mem_map.mp ha
    exact hs.ptr_eq (hout c hmem)
  · rw [hs.size_eq (hout c hmem)]
    exact hc.sizes c hmem

/-- One more block in front of a chain. -/
theorem Chain.cons (hc : Chain h (h.ptr a) cs) (hsize : h.size a = n)
    (hb : ∀ c ∈ cs, Before (a, n) c) : Chain h a ((a, n) :: cs) := by
  refine ⟨⟨rfl, hc.links⟩, fun c hmem => ?_, List.pairwise_cons.mpr ⟨hb, hc.sorted⟩⟩
  rcases List.mem_cons.mp hmem with rfl | hmem
  · exact hsize
  · exact hc.sizes c hmem

theorem Chain.append (hseg : Seg h.ptr q (as.map Prod.fst) p) (hsizes : ∀ a ∈ as, h.size a.1 = a.2)
    (hsorted : as.Pairwise Before) (hc : Chain h p cs) (hb : ∀ a ∈ as, ∀ c ∈ cs, Before a c) :
    Chain h q (as ++ cs) := by
  refine ⟨?_, fun c hmem => ?_, List.pairwise_append.mpr ⟨hsorted, hc.sorted, hb⟩⟩
  · rw [List.map_append]
    exact seg_append.mpr ⟨p, hseg, hc.links⟩
  · rcases List.mem_append.mp hmem with hmem | hmem
    · exact hsizes c hmem
    · exact hc.sizes c hmem

/-- Two neighbours own what they own as one block. -/
theorem owners_join (hnext : a + unit * m = p) : owners (((a, m + n) :: cs).map bytes) x =
    owners (((a, m) :: (p, n) :: cs).map bytes) x := by
  subst hnext
  have hsplit : owners ((a, unit * m + unit * n) :: cs.map bytes) x =
      owners ((a, unit * m) :: (a + unit * m, unit * n) :: cs.map bytes) x := owners_split
  rw [← Nat.mul_add] at hsplit
  exact hsplit

theorem joinNext_spec (hc : Chain h (h.ptr p) cs) (hsize : h.size bp = n) (hn : 0 < n)
    (hbase : h.base < bp) (hcs : ∀ c ∈ cs, bp + unit * n ≤ c.1) :
    ∃ n' rest, Chain (joinNext h p bp) bp ((bp, n') :: rest) ∧ n ≤ n' ∧ (∀ c ∈ rest, c ∈ cs) ∧
      rest.length ≤ cs.length ∧ Heap.Same [bp] h (joinNext h p bp) ∧
      ∀ x, owners (((bp, n') :: rest).map bytes) x = owners (((bp, n) :: cs).map bytes) x := by
  have hfar : ∀ c ∈ cs, c.1 ∉ [bp] := by
    intro c hmem heq
    have hle := hcs c hmem
    rw [List.mem_singleton.mp heq] at hle
    simp only [unit] at hle
    omega
  -- the block stays what it is, and leads to what follows `p`
  have hplain : (∀ c ∈ cs, Before (bp, n) c) →
      Chain (h.setPtr bp (h.ptr p)) bp ((bp, n) :: cs) := by
    intro hb
    refine Chain.cons ?_ (by rw [Heap.size_setPtr, hsize]) hb
    rw [Heap.ptr_setPtr_self]
    exact hc.congr Heap.same_setPtr hfar
  cases cs with
  | nil =>
      have hptr : h.ptr p = h.base := hc.links
      have hnot : ¬ bp + unit * h.size bp = h.ptr p := by omega
      unfold joinNext
      rw [if_neg hnot]
      exact ⟨n, [], hplain fun c hmem => absurd hmem List.not_mem_nil, le_refl _,
        fun _ hmem => hmem, le_refl _, Heap.same_setPtr, fun _ => rfl⟩
  | cons c cs =>
      have hptr : h.ptr p = c.1 := hc.links.1
      have hafter := List.pairwise_cons.mp hc.sorted
      unfold joinNext
      rw [hsize, hptr]
      by_cases hjoin : bp + unit * n = c.1
      · rw [if_pos hjoin, hc.sizes c List.mem_cons_self]
        have hsame : Heap.Same [bp] h ((h.setSize bp (n + c.2)).setPtr bp (h.ptr c.1)) :=
          Heap.same_setSize.trans Heap.same_setPtr
        have hrest := hc.tail
        refine ⟨n + c.2, cs, Chain.cons ?_ ?_ fun d hmem => ?_, Nat.le_add_right _ _,
          fun d hmem => List.mem_cons_of_mem c hmem, Nat.le_succ _, hsame,
          fun x => owners_join hjoin⟩
        · rw [Heap.ptr_setPtr_self]
          exact hrest.congr hsame fun d hmem => hfar d (List.mem_cons_of_mem c hmem)
        · rw [Heap.size_setPtr, Heap.size_setSize_self]
        · have hb := hafter.1 d hmem
          unfold Before at hb ⊢
          simp only [unit] at hb hjoin ⊢
          omega
      · rw [if_neg hjoin, ← hptr]
        refine ⟨n, c :: cs, hplain fun d hmem => ?_, le_refl _, fun _ hmem => hmem, le_refl _,
          Heap.same_setPtr, fun _ => rfl⟩
        have hle := hcs c List.mem_cons_self
        unfold Before
        rcases List.mem_cons.mp hmem with rfl | hmem
        · simp only
          omega
        · have hlt := lt_of_before (hafter.1 d hmem)
          simp only
          omega

theorem joinPrev_spec (hc : Chain h bp ((bp, n) :: cs)) (hsize : h.size p = m) (hlt : p < bp)
    (hle : p + unit * m ≤ bp) : ∃ m' ys, Chain (joinPrev h p bp) p ((p, m') :: ys) ∧
      Heap.Same [p] h (joinPrev h p bp) ∧ m ≤ m' ∧ (∀ y ∈ ys, y ∈ (bp, n) :: cs) ∧
      ys.length ≤ cs.length + 1 ∧
      (m' ≠ m → p + unit * m = bp) ∧ (∃ y ∈ (p, m') :: ys, n ≤ y.2) ∧
      ∀ x, owners (((p, m') :: ys).map bytes) x =
        owners (((p, m) :: (bp, n) :: cs).map bytes) x := by
  obtain ⟨hb, hsorted⟩ := List.pairwise_cons.mp hc.sorted
  have hfar : ∀ c ∈ (bp, n) :: cs, c.1 ∉ [p] := by
    intro c hmem heq
    rw [List.mem_singleton] at heq
    rcases List.mem_cons.mp hmem with rfl | hmem
    · simp only at heq
      omega
    · have hbc := lt_of_before (hb c hmem)
      simp only at hbc
      omega
  have hrest := hc.tail
  have hsizeb : h.size bp = n := hc.sizes (bp, n) List.mem_cons_self
  unfold joinPrev
  rw [hsize, hsizeb]
  by_cases hjoin : p + unit * m = bp
  · rw [if_pos hjoin]
    have hsame : Heap.Same [p] h ((h.setSize p (m + n)).setPtr p (h.ptr bp)) :=
      Heap.same_setSize.trans Heap.same_setPtr
    refine ⟨m + n, cs, Chain.cons ?_ ?_ fun c hmem => ?_, hsame, by omega,
      fun c hmem => List.mem_cons_of_mem _ hmem, Nat.le_succ _, fun _ => hjoin,
      ⟨(p, m + n), List.mem_cons_self, Nat.le_add_left _ _⟩, fun x => owners_join hjoin⟩
    · rw [Heap.ptr_setPtr_self]
      exact hrest.congr hsame fun c hmem => hfar c (List.mem_cons_of_mem _ hmem)
    · rw [Heap.size_setPtr, Heap.size_setSize_self]
    · have hbc := hb c hmem
      unfold Before at hbc ⊢
      simp only [unit] at hbc hjoin ⊢
      omega
  · rw [if_neg hjoin]
    refine ⟨m, (bp, n) :: cs, Chain.cons ?_ ?_ fun c hmem => ?_, Heap.same_setPtr, le_refl _,
      fun _ hmem => hmem, le_refl _, fun hne => absurd rfl hne,
      ⟨(bp, n), List.mem_cons_of_mem _ List.mem_cons_self, le_refl _⟩, fun _ => rfl⟩
    · rw [Heap.ptr_setPtr_self]
      exact hc.congr Heap.same_setPtr hfar
    · rw [Heap.size_setPtr, hsize]
    · unfold Before
      rcases List.mem_cons.mp hmem with rfl | hmem
      · simp only
        omega
      · have hbc := lt_of_before (hb c hmem)
        simp only at hbc ⊢
        omega

/-- `free` of a block that is apart from the blocks of the circle. -/
theorem free_spec (hc : Circle h xs) (hn : 0 < n) (hsize : h.size bp = n) (hbase : h.base < bp)
    (hapart : ∀ b ∈ xs, b.1 + unit * b.2 ≤ bp ∨ bp + unit * n ≤ b.1) (hlen : xs.length ≤ h.bound) :
    ∃ h' ys, free h (bp + unit) = some h' ∧ Circle h' ys ∧
      Heap.Same (bp :: xs.map Prod.fst) h h' ∧ (∃ y ∈ ys, n ≤ y.2) ∧
      ys.length ≤ xs.length + 1 ∧
      ∀ x, owners (ys.map bytes) x = owners (((bp, n) :: xs).map bytes) x := by
  obtain ⟨as, p, m, cs, rfl, hlt, hle, hcs⟩ := hc.place hbase hapart
  have hbehind : ∀ c ∈ cs, bp < c.1 := by
    intro c hmem
    have hge := hcs c hmem
    simp only [unit] at hge
    omega
  have hfind := findPlace_eq hc hlt hbehind hlen
  obtain ⟨-, hnext, hseg⟩ := hc.toChain.split
  have hsizes : ∀ a ∈ as, h.size a.1 = a.2 := fun a ha => hc.sizes a (List.mem_append_left _ ha)
  obtain ⟨hsorted, hsorted2, hbefore⟩ := List.pairwise_append.mp hc.sorted
  obtain ⟨n', rest, hc1, hn', hrest, hrestlen, hsame1, how1⟩ :=
    joinNext_spec hnext hsize hn hbase hcs
  have hp1 : (joinNext h p bp).size p = m := by
    rw [hsame1.size_eq fun heq => Nat.ne_of_lt hlt (List.mem_singleton.mp heq)]
    exact hc.sizes (p, m) (List.mem_append_right as List.mem_cons_self)
  obtain ⟨m', ys, hc2, hsame2, hm', hys, hyslen, hgrown, ⟨y, hy, hny⟩, how2⟩ :=
    joinPrev_spec hc1 hp1 hlt hle
  have hsame : Heap.Same [bp, p] h (joinPrev (joinNext h p bp) p bp) := by
    refine (hsame1.mono ?_).trans (hsame2.mono ?_)
    · exact fun a ha => List.mem_cons.mpr (Or.inl (List.mem_singleton.mp ha))
    · exact fun a ha => List.mem_cons_of_mem bp ha
  have hasp : ∀ a ∈ as, a.1 ∉ [bp, p] := by
    intro a ha heq
    have hap := lt_of_before (hbefore a ha (p, m) List.mem_cons_self)
    simp only [List.mem_cons, List.not_mem_nil, or_false] at heq hap
    omega
  -- what stands behind `p` is `bp` or was there before
  have hlater : ∀ y ∈ ys, y = (bp, n') ∨ y ∈ cs := by
    intro y hy
    rcases List.mem_cons.mp (hys y hy) with rfl | hy
    · exact Or.inl rfl
    · exact Or.inr (hrest y hy)
  have hchain : Chain (joinPrev (joinNext h p bp) p bp) h.base (as ++ (p, m') :: ys) := by
    refine Chain.append ?_ ?_ hsorted hc2 ?_
    · refine hseg.congr fun a ha => ?_
      obtain ⟨b, hb, rfl⟩ := List.mem_map.mp ha
      exact hsame.ptr_eq (hasp b hb)
    · intro a ha
      rw [hsame.size_eq (hasp a ha)]
      exact hsizes a ha
    · intro a ha y hy
      have hap := hbefore a ha (p, m) List.mem_cons_self
      unfold Before at hap ⊢
      rcases List.mem_cons.mp hy with rfl | hy
      · exact hap
      · rcases hlater y hy with rfl | hy
        · simp only at hap ⊢
          omega
        · exact hbefore a ha y (List.mem_cons_of_mem _ hy)
  have hwhole : ∀ x, owners ((as ++ (p, m') :: ys).map bytes) x
      = owners (((bp, n) :: (as ++ (p, m) :: cs)).map bytes) x := by
    intro x
    have h1 := how1 x
    have h2 := how2 x
    simp only [List.map_append, List.map_cons, owners_append, owners_cons] at h1 h2 ⊢
    omega
  refine ⟨{ joinPrev (joinNext h p bp) p bp with freep := p }, as ++ (p, m') :: ys, ?_, ?_, ?_,
    ⟨y, List.mem_append_right as hy, Nat.le_trans hn' hny⟩, ?_, hwhole⟩
  · unfold free
    rw [Nat.add_sub_cancel]
    dsimp only
    rw [hfind]
  · refine ⟨⟨?_, hchain.sizes, hchain.sorted⟩, ?_, fun b hb hne => ?_, ?_⟩
    · have hlinks := hchain.links
      rw [hsame.base_eq] at hlinks
      show Seg _ (joinPrev (joinNext h p bp) p bp).base _ _
      rw [hsame.base_eq]
      exact hlinks
    · show _ = some ((joinPrev (joinNext h p bp) p bp).base, 0)
      rw [hsame.base_eq]
      have hhead := hc.head
      cases as with
      | nil =>
          obtain ⟨rfl, rfl⟩ := Prod.mk.inj (Option.some.inj hhead)
          have hm : m' = 0 := by
            by_contra hne
            have hjoin := hgrown hne
            simp only [unit] at hjoin
            omega
          rw [hm]
          rfl
      | cons a as => exact hhead
    · change b.1 ≠ (joinPrev (joinNext h p bp) p bp).base at hne
      rw [hsame.base_eq] at hne
      rcases List.mem_append.mp hb with hb | hb
      · exact hc.pos b (List.mem_append_left _ hb) hne
      · rcases List.mem_cons.mp hb with rfl | hb
        · exact Nat.lt_of_lt_of_le
            (hc.pos (p, m) (List.mem_append_right as List.mem_cons_self) hne) hm'
        · rcases hlater b hb with rfl | hb
          · exact Nat.lt_of_lt_of_le hn hn'
          · exact hc.pos b (List.mem_append_right as (List.mem_cons_of_mem _ hb)) hne
    · show p ∈ _
      rw [List.map_append, List.map_cons]
      exact List.mem_append_right _ List.mem_cons_self
  · refine ⟨fun a ha => hsame.mem_eq a fun hmem => ha ?_, hsame.base_eq, hsame.brk_eq⟩
    simp only [List.mem_cons, List.not_mem_nil, or_false] at hmem
    rcases hmem with rfl | rfl
    · exact List.mem_cons_self
    · refine List.mem_cons_of_mem _ ?_
      rw [List.map_append, List.map_cons]
      exact List.mem_append_right _ List.mem_cons_self
  · simp only [List.length_append, List.length_cons]
    omega

end Os377.Xv6.Umalloc
