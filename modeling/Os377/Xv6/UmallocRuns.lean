import Os377.Lib.TSys
import Os377.Xv6.UmallocCalls

/-!
# A process with the xv6 allocator

A process calls `malloc`, `free` and `sbrk` in any order, frees what it was given and not
yet freed, and writes into what is its own. As long as it asks for no more than `maxRequest`
bytes and gives no memory of the allocator back with `sbrk` (`Careful`), the blocks in use
and the free ones make up exactly the memory that `malloc` got from the kernel
(`blocks_partition`), `malloc` returns 0 only where it has to (`malloc_answers`), and with
everything freed the memory is one block again (`all_freed`).
-/

namespace Os377.Xv6.Umalloc

open Os377.Lib

structure State where
  heap : Heap
  /-- The pointers in use, with the sizes that were asked for. -/
  live : List (Nat × Nat)
  /-- What `morecore` got, as addresses and bytes. -/
  got : List Lib.Block

inductive Label where
  | malloc (ok : Bool) (nbytes : Nat)
  | free (p : Nat)
  | sbrk (ok : Bool) (n : Int)
  /-- The process writes `f a` wherever it may. -/
  | store (f : Nat → Header)

/-- Up to here, `nu * sizeof(Header)` is the positive `int` that `sbrk` takes. -/
def maxRequest : Nat := 2 ^ 31 - 16

/-- The block of a pointer. -/
def blockOf (r : Nat × Nat) : Lib.Block := (r.1 - unit, units r.2)

/-- An address that belongs to the process and not to the allocator. -/
def State.Foreign (s : State) (a : Nat) : Prop :=
  (a ≠ s.heap.base ∧ ∀ g ∈ s.got, ¬ g.Has a) ∨
    ∃ r ∈ s.live, (bytes (blockOf r)).Has a ∧ a ≠ (blockOf r).1

instance (s : State) (a : Nat) : Decidable (s.Foreign a) :=
  inferInstanceAs (Decidable (_ ∨ _))

def next (s : State) : Label → Option State
  | .malloc ok nbytes =>
      match malloc s.heap ok nbytes with
      | none => none
      | some (p, h) =>
          some { heap := h
                 live := if p = 0 then s.live else (p, nbytes) :: s.live
                 got := if h.brk = s.heap.brk then s.got
                   else s.got ++ [(s.heap.brk, h.brk - s.heap.brk)] }
  | .free p =>
      match s.live.find? fun r => r.1 == p with
      | none => none
      | some r =>
          match free s.heap p with
          | none => none
          | some h => some { s with heap := h, live := s.live.erase r }
  | .sbrk ok n => some { s with heap := (sbrk s.heap ok n).2 }
  | .store f =>
      some { s with
        heap := { s.heap with mem := fun a => if s.Foreign a then f a else s.heap.mem a } }

/-- A process that starts with `brk` bytes, `&base` among them. -/
def system : TSys State Label where
  init s := s.heap.freep = 0 ∧ 0 < s.heap.base ∧ s.heap.base + unit ≤ s.heap.brk ∧
    s.live = [] ∧ s.got = []
  next := next

/-- A process that asks for no more than `maxRequest` bytes, and gives neither `base` nor the
memory of `malloc` back to the kernel. -/
def Careful (s : State) : Label → Prop
  | .malloc _ nbytes => nbytes ≤ maxRequest
  | .sbrk _ n => n < 0 → (s.heap.base + unit : Nat) ≤ (s.heap.brk : Int) + n ∧
      ∀ g ∈ s.got, (g.1 + g.2 : Nat) ≤ (s.heap.brk : Int) + n
  | _ => True

instance (s : State) (l : Label) : Decidable (Careful s l) :=
  match l with
  | .malloc _ nbytes => inferInstanceAs (Decidable (nbytes ≤ maxRequest))
  | .sbrk _ _ => inferInstanceAs (Decidable (_ → _ ∧ _))
  | .free _ | .store _ => isTrue trivial

variable {s s' : State} {h h' : Heap} {xs live got : List Lib.Block} {ok : Bool} {n nbytes p : Nat}

/-! ## Requests -/

theorem units_pos (nbytes : Nat) : 0 < units nbytes := Nat.succ_pos _

theorem units_eq (hn : nbytes ≤ maxRequest) : units nbytes = (nbytes + 7) / 8 + 1 := by
  unfold units unit
  unfold maxRequest at hn
  rw [Nat.mod_eq_of_lt (by omega)]
  omega

/-- A block has room for what was asked for. -/
theorem le_units (hn : nbytes ≤ maxRequest) : nbytes + unit ≤ unit * units nbytes := by
  rw [units_eq hn]
  unfold unit
  omega

/-- `morecore` passes on a positive `int`. -/
theorem grown_units_lt (hn : nbytes ≤ maxRequest) : grown (units nbytes) * unit < 2 ^ 31 := by
  rw [units_eq hn]
  unfold maxRequest at hn
  unfold grown unit
  split <;> omega

/-! ## The invariant -/

/-- Before the first call of `malloc` there is no circle. -/
structure Good (s : State) (xs : List Lib.Block) : Prop where
  inv : s.heap.freep ≠ 0 → Inv s.heap xs (s.live.map blockOf) s.got
  none : s.heap.freep = 0 → s.live = [] ∧ s.got = [] ∧ xs = [(s.heap.base, 0)]
  base_pos : 0 < s.heap.base
  base_le : s.heap.base + unit ≤ s.heap.brk
  pointers : ∀ r ∈ s.live, unit ≤ r.1 ∧ r.2 ≤ maxRequest

/-- The heap that `malloc` works on. -/
def begun (h : Heap) : Heap :=
  if h.freep = 0 then { (h.setPtr h.base h.base).setSize h.base 0 with freep := h.base } else h

theorem inv_begun (hg : Good s xs) : Inv (begun s.heap) xs (s.live.map blockOf) s.got ∧
    (begun s.heap).brk = s.heap.brk ∧ (begun s.heap).base = s.heap.base := by
  unfold begun
  by_cases hfreep : s.heap.freep = 0
  · rw [if_pos hfreep]
    obtain ⟨hlive, hgot, rfl⟩ := hg.none hfreep
    rw [hlive, hgot]
    refine ⟨⟨⟨⟨⟨rfl, ?_⟩, fun c hc => ?_, List.pairwise_singleton _ _⟩, rfl, fun b hb hne => ?_,
      ?_⟩, fun x => ?_, fun b hb => absurd hb List.not_mem_nil, List.Pairwise.nil,
      fun g hg => absurd hg List.not_mem_nil, hg.base_pos, hg.base_le⟩, rfl, rfl⟩
    · show ((s.heap.setPtr s.heap.base s.heap.base).setSize s.heap.base 0).ptr s.heap.base = _
      rw [Heap.ptr_setSize, Heap.ptr_setPtr_self]
      rfl
    · rw [List.mem_singleton.mp hc]
      exact Heap.size_setSize_self
    · rw [List.mem_singleton.mp hb] at hne
      exact absurd rfl hne
    · exact List.mem_singleton_self _
    · show owners [(s.heap.base, 0)] x = 0
      rw [owners_cons, if_neg]
      · rfl
      · rintro ⟨h1, h2⟩
        simp only at h1 h2
        omega
  · rw [if_neg hfreep]
    exact ⟨hg.inv hfreep, rfl, rfl⟩

/-- A call of `malloc` comes to an end in one of the three ways. -/
theorem malloc_spec (hg : Good s xs) (ok : Bool) (hn : nbytes ≤ maxRequest) :
    ∃ r, malloc s.heap ok nbytes = some r ∧
      Outcome (begun s.heap) xs (s.live.map blockOf) s.got ok (units nbytes) r :=
  (inv_begun hg).1.search_spec (units_pos nbytes) (grown_units_lt hn)

theorem freep_ne_zero (hi : Inv h xs live got) : h.freep ≠ 0 := by
  obtain ⟨b, hb, heq⟩ := List.mem_map.mp hi.circle.start
  have hle := hi.circle.base_le hb
  have hpos := hi.base_pos
  omega

theorem good_of_inv (hi : Inv s.heap xs (s.live.map blockOf) s.got)
    (hp : ∀ r ∈ s.live, unit ≤ r.1 ∧ r.2 ≤ maxRequest) : Good s xs :=
  ⟨fun _ => hi, fun h0 => absurd h0 (freep_ne_zero hi), hi.base_pos, hi.base_le, hp⟩

theorem good_malloc (hg : Good s xs) (hn : nbytes ≤ maxRequest)
    (h : next s (.malloc ok nbytes) = some s') : ∃ ys, Good s' ys := by
  unfold next at h
  dsimp only at h
  obtain ⟨⟨p, h'⟩, hmalloc, hout⟩ := malloc_spec hg ok hn
  obtain ⟨hi, hbrk, hbase⟩ := inv_begun hg
  rw [hmalloc] at h
  cases h
  have hne : ∀ a : Nat, a + unit ≠ 0 := fun a => Nat.succ_ne_zero _
  have hpointers : ∀ a : Nat, ∀ r ∈ (a + unit, nbytes) :: s.live,
      unit ≤ r.1 ∧ r.2 ≤ maxRequest := by
    intro a r hr
    rcases List.mem_cons.mp hr with rfl | hr
    · exact ⟨Nat.le_add_left _ _, hn⟩
    · exact hg.pointers r hr
  have hblock : ∀ a : Nat, (((a + unit, nbytes) :: s.live).map blockOf)
      = (a, units nbytes) :: s.live.map blockOf := by
    intro a
    rw [List.map_cons, blockOf, Nat.add_sub_cancel]
  cases hout with
  | @fit a h' ys _ hi' hbrk' _ =>
      refine ⟨ys, good_of_inv ?_ ?_⟩
      · dsimp only
        rw [if_neg (hne a), if_pos (hbrk'.trans hbrk), hblock]
        exact hi'
      · dsimp only
        rw [if_neg (hne a)]
        exact hpointers a
  | @more a h' ys _ _ hi' hbrk' _ =>
      have hgrown : 0 < unit * grown (units nbytes) := by
        unfold grown unit
        split <;> omega
      refine ⟨ys, good_of_inv ?_ ?_⟩
      · dsimp only
        rw [if_neg (hne a), if_neg (by omega), hblock, hbrk', hbrk,
          Nat.add_sub_cancel_left, ← hbrk]
        exact hi'
      · dsimp only
        rw [if_neg (hne a)]
        exact hpointers a
  | fail _ _ =>
      refine ⟨xs, good_of_inv ?_ ?_⟩
      · dsimp only
        rw [if_pos rfl, if_pos hbrk]
        exact hi
      · dsimp only
        rw [if_pos rfl]
        exact hg.pointers

theorem good_free (hg : Good s xs) (h : next s (.free p) = some s') :
    (∃ ys, Good s' ys) ∧ s'.got = s.got ∧ s'.heap.brk = s.heap.brk := by
  unfold next at h
  dsimp only at h
  split at h
  · cases h
  · next r hfind =>
      have hr : r ∈ s.live := List.mem_of_find?_eq_some hfind
      have hp : r.1 = p := by simpa using List.find?_some hfind
      have hfreep : s.heap.freep ≠ 0 := by
        intro h0
        rw [(hg.none h0).1] at hr
        exact absurd hr List.not_mem_nil
      have hi := hg.inv hfreep
      have hperm := (List.perm_cons_erase hr).map blockOf
      have hi1 : Inv s.heap xs (blockOf r :: (s.live.erase r).map blockOf) s.got :=
        ⟨hi.circle,
          fun x => (owners_perm ((hperm.append_right xs).map bytes) x).symm.trans (hi.own x),
          fun b hb => hi.live b (hperm.mem_iff.mpr hb), hi.apart, hi.inside, hi.base_pos,
          hi.base_le⟩
      obtain ⟨h', ys, hfree, hi', hbrk, -, -, -⟩ := hi1.free
      have hptr : (blockOf r).1 + unit = p := by
        rw [← hp]
        exact Nat.sub_add_cancel (hg.pointers r hr).1
      rw [hptr] at hfree
      rw [hfree] at h
      cases h
      exact ⟨⟨ys, good_of_inv hi' fun r' hr' => hg.pointers r' (List.mem_of_mem_erase hr')⟩, rfl,
        hbrk⟩

/-- Only the break changes, and it leaves what `malloc` has below it. -/
theorem sbrk_careful {n : Int} (hg : Good s xs) (hc : Careful s (.sbrk ok n)) :
    (sbrk s.heap ok n).2 = { s.heap with brk := (sbrk s.heap ok n).2.brk } ∧
      s.heap.base + unit ≤ (sbrk s.heap ok n).2.brk ∧
      (s.heap.freep ≠ 0 → ∀ g ∈ s.got, g.1 + g.2 ≤ (sbrk s.heap ok n).2.brk) := by
  have hbase := hg.base_le
  have hinside : s.heap.freep ≠ 0 → ∀ g ∈ s.got, g.1 + g.2 ≤ s.heap.brk :=
    fun hfreep g hg' => ((hg.inv hfreep).inside g hg').2
  have hsame : ∀ r : Option Nat, (r, s.heap).2 = { s.heap with brk := (r, s.heap).2.brk } ∧
      s.heap.base + unit ≤ (r, s.heap).2.brk ∧
      (s.heap.freep ≠ 0 → ∀ g ∈ s.got, g.1 + g.2 ≤ (r, s.heap).2.brk) :=
    fun r => ⟨rfl, hbase, hinside⟩
  unfold sbrk
  dsimp only
  split_ifs with h1 h2 h3 h4
  · exact hsame _
  · exact hsame _
  · exact hsame _
  · exact hsame _
  · refine ⟨rfl, ?_, fun hfreep g hg' => ?_⟩
    · by_cases hneg : n < 0
      · have hlow := (hc hneg).1
        show s.heap.base + unit ≤ (_ : Int).toNat
        omega
      · show s.heap.base + unit ≤ (_ : Int).toNat
        omega
    · by_cases hneg : n < 0
      · have hlow := (hc hneg).2 g hg'
        show g.1 + g.2 ≤ (_ : Int).toNat
        omega
      · have hlow := hinside hfreep g hg'
        show g.1 + g.2 ≤ (_ : Int).toNat
        omega

theorem good_sbrk {n : Int} (hg : Good s xs) (hc : Careful s (.sbrk ok n))
    (h : next s (.sbrk ok n) = some s') : Good s' xs := by
  cases h
  have hbrk := sbrk_careful hg hc
  generalize (sbrk s.heap ok n).2 = h at hbrk
  obtain ⟨hsame, hle, hinside⟩ := hbrk
  rw [hsame]
  refine ⟨fun hfreep => ?_, hg.none, hg.base_pos, hle, hg.pointers⟩
  have hi := hg.inv hfreep
  refine ⟨⟨⟨hi.circle.links, hi.circle.sizes, hi.circle.sorted⟩, hi.circle.head, hi.circle.pos,
    hi.circle.start⟩, hi.own, hi.live, hi.apart, fun g hg' => ?_, hi.base_pos, hle⟩
  exact ⟨(hi.inside g hg').1, hinside hfreep g hg'⟩

/-- What the process writes does not reach a header. -/
theorem good_store {f : Nat → Header} (hg : Good s xs) (h : next s (.store f) = some s') :
    Good s' xs := by
  cases h
  refine ⟨fun hfreep => ?_, hg.none, hg.base_pos, hg.base_le, hg.pointers⟩
  have hi := hg.inv hfreep
  have hbase : ¬ s.Foreign s.heap.base := by
    rintro (⟨hne, -⟩ | ⟨r, hr, hin, -⟩)
    · exact hne rfl
    · have hpos : 0 < (blockOf r).2 := units_pos _
      obtain ⟨hlow, -⟩ := hi.bounds (List.mem_append_left xs (List.mem_map_of_mem hr)) hpos
      have h1 := hin.1
      simp only [bytes, unit] at h1 hlow
      omega
  have hkeep : ∀ b ∈ s.live.map blockOf ++ xs, 0 < b.2 → ¬ s.Foreign b.1 := by
    rintro b hb hpos (⟨-, hout⟩ | ⟨r, hr, hin, hself⟩)
    · have howned := owners_pos (List.mem_map_of_mem (f := bytes) hb) (has_bytes_self hpos)
      rw [hi.own, owners_pos_iff] at howned
      obtain ⟨g, hg', hhas⟩ := howned
      exact hout g hg' hhas
    · -- then the header lies inside a block in use, behind that block's own header
      have hr' : blockOf r ∈ s.live.map blockOf ++ xs :=
        List.mem_append_left xs (List.mem_map_of_mem hr)
      have hne : bytes b ≠ bytes (blockOf r) := fun heq => by
        have hfirst : (bytes b).1 = (bytes (blockOf r)).1 := congrArg Prod.fst heq
        exact hself hfirst
      exact hi.pairwise.forall (List.mem_map_of_mem hb) (List.mem_map_of_mem hr') hne b.1
        ⟨has_bytes_self hpos, hin⟩
  have hcircle : ∀ b ∈ xs,
      (if s.Foreign b.1 then f b.1 else s.heap.mem b.1) = s.heap.mem b.1 := by
    intro b hb
    by_cases hb1 : b.1 = s.heap.base
    · rw [hb1, if_neg hbase]
    · exact if_neg (hkeep b (List.mem_append_right _ hb) (hi.circle.pos b hb hb1))
  refine ⟨⟨⟨hi.circle.links.congr fun a ha => ?_, fun c hc => ?_, hi.circle.sorted⟩,
    hi.circle.head, hi.circle.pos, hi.circle.start⟩, hi.own, fun b hb => ?_, hi.apart, hi.inside,
    hi.base_pos, hi.base_le⟩
  · obtain ⟨b, hb, rfl⟩ := List.mem_map.mp ha
    exact congrArg Header.ptr (hcircle b hb)
  · rw [← hi.circle.sizes c hc]
    exact congrArg Header.size (hcircle c hc)
  · obtain ⟨hsize, hpos⟩ := hi.live b hb
    refine ⟨?_, hpos⟩
    rw [← hsize]
    exact congrArg Header.size (if_neg (hkeep b (List.mem_append_left xs hb) hpos))

theorem good_reachable (hs : system.ReachableUnder Careful s) : ∃ xs, Good s xs := by
  refine TSys.Inductive.invariantUnder (M := system) (C := Careful)
    (P := fun s => ∃ xs, Good s xs) ⟨?_, ?_⟩ s hs
  · rintro s ⟨hfreep, hpos, hle, hlive, hgot⟩
    refine ⟨[(s.heap.base, 0)], fun hne => absurd hfreep hne, fun _ => ⟨hlive, hgot, rfl⟩, hpos,
      hle, fun r hr => ?_⟩
    rw [hlive] at hr
    exact absurd hr List.not_mem_nil
  · rintro s l s' ⟨xs, hg⟩ hc h
    cases l with
    | malloc ok nbytes => exact good_malloc hg hc h
    | free p => exact (good_free hg h).1
    | sbrk ok n => exact ⟨xs, good_sbrk hg hc h⟩
    | store f => exact ⟨xs, good_store hg h⟩

/-! ## What holds in every run -/

/-- The blocks in use and the free blocks make up what `morecore` got, each byte in one of
them; what is in use has room for what was asked for, apart from everything else; and no two
free blocks touch. -/
theorem blocks_partition : system.InvariantUnder Careful fun s => ∃ xs,
    (s.heap.freep ≠ 0 → Circle s.heap ((s.heap.base, 0) :: xs)) ∧ (s.heap.freep = 0 → xs = []) ∧
    (∀ x, owners ((s.live.map blockOf ++ xs).map bytes) x = owners s.got x ∧ owners s.got x ≤ 1) ∧
    ∀ r ∈ s.live, s.heap.size (r.1 - unit) = units r.2 ∧
      r.1 + r.2 ≤ (r.1 - unit) + unit * units r.2 := by
  intro s hs
  obtain ⟨xs, hg⟩ := good_reachable hs
  by_cases hfreep : s.heap.freep = 0
  · obtain ⟨hlive, hgot, -⟩ := hg.none hfreep
    rw [hlive, hgot]
    exact ⟨[], fun hne => absurd hfreep hne, fun _ => rfl, fun x => ⟨rfl, Nat.zero_le _⟩,
      fun r hr => absurd hr List.not_mem_nil⟩
  · have hi := hg.inv hfreep
    obtain ⟨rest, rfl, -⟩ := hi.circle.cons
    refine ⟨rest, fun _ => hi.circle, fun h0 => absurd h0 hfreep, fun x => ⟨?_, ?_⟩, fun r hr => ?_⟩
    · rw [← hi.own x]
      have hzero : ¬ (bytes (s.heap.base, 0)).Has x := by
        rintro ⟨h1, h2⟩
        simp only [bytes] at h1 h2
        omega
      simp only [List.map_append, List.map_cons, owners_append, owners_cons]
      rw [if_neg hzero, Nat.zero_add]
    · exact owners_le_one hi.apart x
    · obtain ⟨hunit, hmax⟩ := hg.pointers r hr
      have hroom := le_units hmax
      refine ⟨(hi.live (blockOf r) (List.mem_map_of_mem hr)).1, ?_⟩
      omega

/-- A process of 4096 bytes, before its first call. -/
def fresh : State := ⟨⟨fun _ => ⟨0, 0⟩, 16, 0, 4096⟩, [], []⟩

theorem fresh_init : system.init fresh := ⟨rfl, by decide, by decide, rfl, rfl⟩

/-- Two calls of `malloc`, and the first block freed again. -/
def firstCalls : List Label := [.malloc true 10, .malloc true 20, .free 36848]

/-- One block is in use and the rest of the 32768 bytes is free. -/
theorem blocks_partition_firstCalls : ∃ s : State, s.live = [(36816, 20)] ∧
    s.got = [(4096, 32768)] ∧ ∃ xs, Circle s.heap ((s.heap.base, 0) :: xs) ∧
      ∀ x, owners ((s.live.map blockOf ++ xs).map bytes) x = owners s.got x := by
  obtain ⟨s, hs, hlive, hgot, hfreep⟩ := system.exists_of_runChecked (C := Careful)
    (P := fun s => s.live = [(36816, 20)] ∧ s.got = [(4096, 32768)] ∧ s.heap.freep ≠ 0) fresh
    firstCalls fresh_init (by decide +kernel)
  obtain ⟨xs, hcircle, -, hown, -⟩ := blocks_partition s hs
  exact ⟨s, hlive, hgot, xs, hcircle hfreep, fun x => (hown x).1⟩

/-- A call of `malloc` for at most `maxRequest` bytes comes to an end, and its answer is 0
exactly where no free block is large enough and `sbrk` fails. -/
theorem malloc_answers (ok : Bool) (nbytes : Nat) (hn : nbytes ≤ maxRequest) :
    system.InvariantUnder Careful fun s => ∃ p h xs,
      malloc s.heap ok nbytes = some (p, h) ∧ Good s xs ∧
      (p = 0 ↔ (∀ b ∈ xs, b.2 < units nbytes) ∧ ¬ CanGrow s.heap ok (units nbytes)) := by
  intro s hs
  obtain ⟨xs, hg⟩ := good_reachable hs
  obtain ⟨⟨p, h⟩, hmalloc, hout⟩ := malloc_spec hg ok hn
  have hgrow : CanGrow (begun s.heap) ok (units nbytes) ↔ CanGrow s.heap ok (units nbytes) := by
    unfold CanGrow
    rw [(inv_begun hg).2.1]
  refine ⟨p, h, xs, hmalloc, hg, ?_⟩
  cases hout with
  | fit hfit _ _ _ =>
      obtain ⟨b, hb, hle⟩ := hfit
      refine iff_of_false (Nat.succ_ne_zero _) fun hno => ?_
      exact Nat.not_lt.mpr hle (hno.1 b hb)
  | more _ hcan _ _ _ => exact iff_of_false (Nat.succ_ne_zero _) fun hno => hno.2 (hgrow.mp hcan)
  | fail hsmall hno => exact iff_of_true rfl ⟨hsmall, fun hcan => hno (hgrow.mpr hcan)⟩

/-- A third block, for which the kernel has the memory. -/
theorem malloc_answers_firstCalls : ∃ s : State, s.live = [(36816, 20)] ∧
    ∃ p h, malloc s.heap true 40000 = some (p, h) ∧ p ≠ 0 := by
  obtain ⟨s, hs, hlive, hgrow⟩ := system.exists_of_runChecked (C := Careful)
    (P := fun s => s.live = [(36816, 20)] ∧ CanGrow s.heap true (units 40000)) fresh firstCalls
    fresh_init (by decide +kernel)
  obtain ⟨p, h, xs, hmalloc, -, hzero⟩ := malloc_answers true 40000 (by decide) s hs
  exact ⟨s, hlive, p, h, hmalloc, fun hp => (hzero.mp hp).2 hgrow⟩

/-! ## Everything freed -/

/-- The process leaves `sbrk` to `malloc`. -/
def NoSbrk (_ : State) (l : Label) : Prop := ∀ ok n, l ≠ .sbrk ok n

instance (s : State) (l : Label) : Decidable (NoSbrk s l) :=
  match l with
  | .sbrk ok n => isFalse fun h => h ok n rfl
  | .malloc _ _ | .free _ | .store _ => isTrue fun _ _ h => nomatch h

/-- What `morecore` got is all that was added to the process. -/
def Added (s : State) : Prop :=
  ∃ lo, Tiles lo s.heap.brk s.got ∧ (s.got ≠ [] → lo < s.heap.brk) ∧ lo ≤ s.heap.brk

theorem tiles_append {lo hi k : Nat} (h : Tiles lo hi got) (hle : lo ≤ hi) :
    Tiles lo (hi + k) (got ++ [(hi, k)]) := by
  intro x
  rw [owners_append, h x, owners_cons]
  show _ + ((if Lib.Block.Has (hi, k) x then 1 else 0) + 0) = _
  have hhas : Lib.Block.Has (hi, k) x ↔ hi ≤ x ∧ x < hi + k := Iff.rfl
  rw [if_congr hhas rfl rfl]
  split_ifs <;> omega

theorem added_reachable (hs : system.ReachableUnder (fun s l => Careful s l ∧ NoSbrk s l) s) :
    (∃ xs, Good s xs) ∧ Added s := by
  refine TSys.Inductive.invariantUnder (M := system) (C := fun s l => Careful s l ∧ NoSbrk s l)
    (P := fun s => (∃ xs, Good s xs) ∧ Added s) ⟨?_, ?_⟩ s hs
  · intro s hinit
    refine ⟨good_reachable (.init hinit), s.heap.brk, ?_, ?_, le_refl _⟩
    · rw [hinit.2.2.2.2]
      intro x
      rw [if_neg (by omega)]
      rfl
    · exact fun hne => absurd hinit.2.2.2.2 hne
  · rintro s l s' ⟨⟨xs, hg⟩, lo, htiles, hlt, hle⟩ ⟨hc, hno⟩ h
    cases l with
    | malloc ok nbytes =>
        refine ⟨good_malloc hg hc h, ?_⟩
        obtain ⟨r, hmalloc, hout⟩ := malloc_spec hg ok hc
        obtain ⟨-, hbrk, -⟩ := inv_begun hg
        change next s (.malloc ok nbytes) = some s' at h
        unfold next at h
        dsimp only at h
        rw [hmalloc] at h
        cases hout with
        | fit _ _ hbrk' _ =>
            cases h
            refine ⟨lo, ?_⟩
            dsimp only
            rw [if_pos (hbrk'.trans hbrk), hbrk', hbrk]
            exact ⟨htiles, hlt, hle⟩
        | more _ _ _ hbrk' _ =>
            cases h
            have hgrown : 0 < unit * grown (units nbytes) := by
              unfold grown unit
              split <;> omega
            refine ⟨lo, ?_⟩
            dsimp only
            rw [if_neg (by omega), hbrk', hbrk, Nat.add_sub_cancel_left]
            exact ⟨tiles_append htiles hle, fun _ => by omega, by omega⟩
        | fail _ _ =>
            cases h
            refine ⟨lo, ?_⟩
            dsimp only
            rw [if_pos hbrk, hbrk]
            exact ⟨htiles, hlt, hle⟩
    | free p =>
        obtain ⟨hgood, hgot, hbrk⟩ := good_free hg h
        refine ⟨hgood, lo, ?_⟩
        rw [hgot, hbrk]
        exact ⟨htiles, hlt, hle⟩
    | sbrk ok n => exact absurd rfl (hno ok n)
    | store f =>
        refine ⟨⟨xs, good_store hg h⟩, ?_⟩
        cases h
        exact ⟨lo, htiles, hlt, hle⟩

/-- With nothing in use, all of the memory is one free block. -/
theorem all_freed : system.InvariantUnder (fun s l => Careful s l ∧ NoSbrk s l) fun s =>
    s.live = [] → s.got ≠ [] →
    ∃ lo n, Circle s.heap [(s.heap.base, 0), (lo, n)] ∧ Tiles lo s.heap.brk s.got ∧
      lo + unit * n = s.heap.brk := by
  intro s hs hlive hgot
  obtain ⟨⟨xs, hg⟩, lo, htiles, hlt, -⟩ := added_reachable hs
  have hlt := hlt hgot
  have hi := hg.inv fun h0 => hgot (hg.none h0).2.1
  have hcircle := hi.circle
  obtain ⟨rest, rfl, -⟩ := hi.circle.cons
  have hown : ∀ x, (∃ b ∈ rest, (bytes b).Has x) ↔ lo ≤ x ∧ x < s.heap.brk := by
    intro x
    have hx := hi.own x
    have hzero : ¬ (bytes (s.heap.base, 0)).Has x := by
      rintro ⟨h1, h2⟩
      simp only [bytes] at h1 h2
      omega
    rw [hlive, htiles x, List.map_nil, List.nil_append, List.map_cons, owners_cons, if_neg hzero,
      Nat.zero_add] at hx
    have hpos : 0 < owners (rest.map bytes) x ↔ _ := owners_pos_iff
    rw [hx] at hpos
    simp only [List.mem_map, exists_exists_and_eq_and] at hpos
    rw [← hpos]
    split_ifs with hin
    · exact iff_of_true Nat.zero_lt_one hin
    · exact iff_of_false (Nat.lt_irrefl 0) hin
  obtain ⟨-, hsorted⟩ := List.pairwise_cons.mp hcircle.sorted
  cases rest with
  | nil =>
      obtain ⟨b, hb, -⟩ := (hown lo).mpr ⟨le_refl _, hlt⟩
      exact absurd hb List.not_mem_nil
  | cons c rest =>
      obtain ⟨a, n⟩ := c
      have hmem : (a, n) ∈ (s.heap.base, 0) :: (a, n) :: rest :=
        List.mem_cons_of_mem _ List.mem_cons_self
      obtain ⟨hbase, -⟩ := List.pairwise_cons.mp hcircle.sorted
      have hfirst := lt_of_before (hbase (a, n) List.mem_cons_self)
      have hn : 0 < n := hcircle.pos (a, n) hmem (Nat.ne_of_gt hfirst)
      obtain ⟨hafter, -⟩ := List.pairwise_cons.mp hsorted
      have hin : ∀ x, a ≤ x → x < a + unit * n → lo ≤ x ∧ x < s.heap.brk := fun x h1 h2 =>
        (hown x).mp ⟨(a, n), List.mem_cons_self, h1, h2⟩
      -- a second block would leave a gap behind the first one
      have hall : ∀ x, lo ≤ x → x < s.heap.brk →
          a ≤ x ∧ (x < a + unit * n ∨ ∃ c ∈ rest, c.1 ≤ x) := by
        intro x h1 h2
        obtain ⟨b, hb, hx1, hx2⟩ := (hown x).mpr ⟨h1, h2⟩
        rcases List.mem_cons.mp hb with rfl | hb
        · exact ⟨hx1, Or.inl hx2⟩
        · have hlt := lt_of_before (hafter b hb)
          refine ⟨Nat.le_trans (Nat.le_of_lt hlt) hx1, Or.inr ⟨b, hb, hx1⟩⟩
      have hunit : unit * n = 8 * n := rfl
      obtain ⟨h1, h2⟩ := hin a (le_refl a) (by omega)
      obtain ⟨h3, -⟩ := hall lo (le_refl lo) (by omega)
      obtain rfl : lo = a := Nat.le_antisymm h1 h3
      cases rest with
      | nil =>
          refine ⟨lo, n, hcircle, htiles, ?_⟩
          obtain ⟨-, h4⟩ := hin (lo + unit * n - 1) (by omega) (by omega)
          obtain ⟨-, h5 | ⟨c, hc, -⟩⟩ := hall (s.heap.brk - 1) (by omega) (by omega)
          · omega
          · exact absurd hc List.not_mem_nil
      | cons c rest =>
          have hgap : lo + unit * n < c.1 := hafter c List.mem_cons_self
          have hc : c ∈ (s.heap.base, 0) :: (lo, n) :: c :: rest :=
            List.mem_cons_of_mem _ (List.mem_cons_of_mem _ List.mem_cons_self)
          have hcpos := hcircle.pos c hc (by omega)
          obtain ⟨-, hend⟩ := (hown c.1).mp ⟨c, List.mem_cons_of_mem _ List.mem_cons_self,
            has_bytes_self hcpos⟩
          obtain ⟨-, h5 | ⟨d, hd, h6⟩⟩ := hall (lo + unit * n) (by omega) (by omega)
          · omega
          · rcases List.mem_cons.mp hd with rfl | hd
            · omega
            · have hbefore := lt_of_before ((List.pairwise_cons.mp
                (List.pairwise_cons.mp hsorted).2).1 d hd)
              omega

/-- Both blocks freed: the 32768 bytes are one block. -/
theorem all_freed_firstCalls : ∃ s : State, s.got = [(4096, 32768)] ∧ s.heap.brk = 36864 ∧
    ∃ lo n, Circle s.heap [(s.heap.base, 0), (lo, n)] ∧ Tiles lo s.heap.brk s.got ∧
      lo + unit * n = s.heap.brk := by
  obtain ⟨s, hs, hlive, hgot, hbrk⟩ := system.exists_of_runChecked
    (C := fun s l => Careful s l ∧ NoSbrk s l)
    (P := fun s => s.live = [] ∧ s.got = [(4096, 32768)] ∧ s.heap.brk = 36864) fresh
    (firstCalls ++ [.free 36816]) fresh_init (by decide +kernel)
  have hne : s.got ≠ [] := by
    rw [hgot]
    exact List.cons_ne_nil _ _
  exact ⟨s, hgot, hbrk, all_freed s hs hlive hne⟩

end Os377.Xv6.Umalloc
