import Os377.Malloc.Requests

/-!
# Resetting the heap

`reset_heap` unmaps the page at `head`, but `head` is the head of the free
list: it is the address of the page only while the first block of the page is
free and is the first node. A process here is the heap together with the
regions that are mapped, so that a region that is never unmapped shows.

`munmap` fails without effect on an address that is not page-aligned; `mmap`
returns a page-aligned address that is not mapped.
-/

namespace Os377.Malloc

open Os377.Lib Function

/-- What the caller sees of a call. -/
inductive Event where
  | returned (p : Nat)
  | freed (p : Nat)
  deriving DecidableEq, Repr

/-- A process: its heap, the bases of the regions of 4096 bytes that it has
mapped, and its calls since the last `mmap`, the latest one first. -/
structure Process where
  heap : Heap
  regions : List Nat
  events : List Event

/-- `mmap`; `page` is what it returns. -/
def mmap (regions : List Nat) (page : Page) : Option (List Nat) :=
  if page.addr % 4096 = 0 ∧ page.addr ∉ regions then some (page.addr :: regions) else none

/-- `munmap(addr, HEAP_SIZE)`. -/
def munmap (regions : List Nat) (addr : Nat) : List Nat :=
  if addr % 4096 = 0 then regions.filter fun base => base ≠ addr else regions

/-- `heap()`, with its call of `mmap`. -/
def Process.mapHeap (s : Process) (page : Page) : Option Process :=
  if s.heap.head = 0 then
    (mmap s.regions page).map fun regions => ⟨Malloc.heap s.heap page, regions, []⟩
  else some s

/-- `reset_heap()`. -/
def resetHeap (s : Process) (page : Page) : Option Process :=
  if s.heap.head ≠ 0 then
    Process.mapHeap { s with
      regions := munmap s.regions s.heap.head
      heap := { s.heap with head := 0 } } page
  else some s

/-- The calls, and a byte that the program writes. -/
inductive Call where
  | malloc (size : Nat) (page : Page)
  | free (allocated : Nat)
  | reset (page : Page)
  | write (x : Nat) (byte : UInt8)

/-- The heap of a process that has called `heap()`; without one, every access
to it faults. -/
def Process.mappedHeap (s : Process) : Option Heap :=
  if s.heap.page.addr ∈ s.regions then some s.heap else none

/-- One call. A call that faults ends the process. -/
def Process.next (s : Process) : Call → Option Process
  | .malloc size page =>
      (s.mapHeap page).bind fun s =>
        match myMalloc s.heap page size with
        | .error _ => none
        | .ok (h, p) => some { s with heap := h, events := .returned p :: s.events }
  | .free allocated =>
      s.mappedHeap.bind fun heap =>
        match myFree heap allocated with
        | .error _ => none
        | .ok h => some { s with heap := h, events := .freed allocated :: s.events }
  | .reset page => resetHeap s page
  | .write x byte =>
      s.mappedHeap.bind fun heap =>
        if heap.Mapped x 1 then
          some { s with heap := { heap with mem := update heap.mem x byte } }
        else none

/-- Processes that have not called `heap()` yet. -/
def process : TSys Process Call where
  init s := s.heap.head = 0 ∧ s.regions = [] ∧ s.events = []
  next := Process.next

/-- The heap region is the one that `mmap` returned last, and no other region
is mapped. -/
def OneRegion (s : Process) : Prop :=
  s.regions = if s.heap.head = 0 then [] else [s.heap.page.addr]

instance : DecidablePred OneRegion := fun _ => inferInstanceAs (Decidable (_ = _))

/-- The block at `base` is free and in front: since the page was mapped, or
since this block was last freed, it has not been handed out, and no other
block has been freed. -/
def FirstBlockFree (base : Nat) : List Event → Prop
  | [] => True
  | .returned p :: events => p ≠ base + 16 ∧ FirstBlockFree base events
  | .freed p :: _ => p = base + 16

instance FirstBlockFree.decidable (base : Nat) :
    (events : List Event) → Decidable (FirstBlockFree base events)
  | [] => inferInstanceAs (Decidable True)
  | .returned p :: events =>
      have := FirstBlockFree.decidable base events
      inferInstanceAs (Decidable (p ≠ base + 16 ∧ FirstBlockFree base events))
  | .freed p :: _ => inferInstanceAs (Decidable (p = base + 16))

/-- `reset_heap` is called only while the first block of the page is free and
in front. -/
def ResetsInFront (s : Process) : Call → Prop
  | .reset _ => FirstBlockFree s.heap.page.addr s.events
  | _ => True

instance (s : Process) (a : Call) : Decidable (ResetsInFront s a) := by
  cases a <;> unfold ResetsInFront <;> infer_instance

section Head

variable {s s' : Heap} {fuel p : Nat}

theorem store_fields {a n v : Nat} (h : s.store a n v = .ok s') :
    s'.page = s.page ∧ s'.head = s.head ∧ s.Mapped a n := by
  rw [Heap.store] at h
  split at h
  · next hmap =>
      cases h
      exact ⟨rfl, rfl, hmap⟩
  · cases h

/-- A node without a predecessor is the one the loop started with. -/
theorem findFreeLoop_previous {size prev f q : Nat}
    (h : findFreeLoop s size fuel p prev = .ok (some (f, q))) : (f = p ∧ q = prev) ∨ q ≠ 0 := by
  induction fuel generalizing p prev with
  | zero => cases h
  | succ fuel ih =>
      rw [findFreeLoop] at h
      split at h
      · cases h
      · next hp =>
          obtain ⟨psize, -, h⟩ := of_bind_ok h
          split at h
          · cases h
            exact Or.inl ⟨rfl, rfl⟩
          · obtain ⟨pnext, -, h⟩ := of_bind_ok h
            rcases ih h with ⟨-, hq⟩ | hq
            · exact Or.inr (hq ▸ hp)
            · exact Or.inr hq

/-- `link` moves the head only if there is no previous node. -/
theorem link_fields {previous freeBlock : Nat} (h : link s previous freeBlock = .ok s') :
    s'.page = s.page ∧ s'.head = if previous = 0 then freeBlock else s.head := by
  rw [link] at h
  split at h
  · next hprev =>
      cases h
      exact ⟨rfl, (if_pos hprev).symm⟩
  · next hprev =>
      obtain ⟨hpage, hhead, -⟩ := store_fields h
      exact ⟨hpage, by rw [hhead, if_neg hprev]⟩

/-- After `split` the head is the new node, or what it was. -/
theorem split_fields {size previous f a : Nat} (h : split s size previous f = .ok (s', a)) :
    s'.page = s.page ∧ a = f ∧ (s.head ≠ 0 → s'.head ≠ 0) ∧
      (previous ≠ 0 → s'.head = s.head) := by
  have ha : a = f := split_original h
  rw [split] at h
  split at h
  · cases h
  · obtain ⟨osize, -, h⟩ := of_bind_ok h
    obtain ⟨s1, h1, h⟩ := of_bind_ok h
    obtain ⟨s2, h2, h⟩ := of_bind_ok h
    obtain ⟨s3, h3, h⟩ := of_bind_ok h
    obtain ⟨s4, h4, h⟩ := of_bind_ok h
    cases h
    obtain ⟨hp1, hh1, hmap⟩ := store_fields h1
    obtain ⟨hp2, hh2⟩ := link_fields h2
    obtain ⟨hp3, hh3, -⟩ := store_fields h3
    obtain ⟨hp4, hh4, -⟩ := store_fields h4
    have hpos := s.page.addr_pos
    have hnew := hmap.1
    have hhead : s'.head = if previous = 0 then wrap (f + wrap (size + 16)) else s.head := by
      rw [hh4, hh3, hh2, hh1]
    refine ⟨by rw [hp4, hp3, hp2, hp1], rfl, fun hne => ?_, fun hne => ?_⟩
    · rw [hhead]
      split
      · omega
      · exact hne
    · rw [hhead, if_neg hne]

/-- **What `my_malloc` does to the head**: nothing, unless it hands out the
block at the head. -/
theorem myMalloc_fields {page : Page} {size : Nat} (hne : s.head ≠ 0)
    (h : myMalloc s page size = .ok (s', p)) :
    s'.page = s.page ∧ s'.head ≠ 0 ∧ (s'.head = s.head ∨ p = wrap (s.head + 16)) := by
  rw [myMalloc] at h
  simp only [heap, if_neg hne] at h
  obtain ⟨r, hfind, h⟩ := of_bind_ok h
  cases r with
  | none =>
      cases h
      exact ⟨rfl, hne, Or.inl rfl⟩
  | some r =>
      obtain ⟨f, previous⟩ := r
      obtain ⟨⟨t, a⟩, hsplit, h⟩ := of_bind_ok h
      cases h
      obtain ⟨hpage, rfl, hzero, hkept⟩ := split_fields hsplit
      refine ⟨hpage, hzero hne, ?_⟩
      rcases findFreeLoop_previous hfind with ⟨rfl, -⟩ | hprev
      · exact Or.inr rfl
      · exact Or.inl (hkept hprev)

theorem mergeNext_fields {psize pnext : Nat} (h : mergeNext s p psize pnext = .ok s') :
    s'.page = s.page ∧ s'.head = s.head := by
  rw [mergeNext] at h
  split at h
  · obtain ⟨nsize, -, h⟩ := of_bind_ok h
    obtain ⟨s1, h1, h⟩ := of_bind_ok h
    obtain ⟨nnext, -, h⟩ := of_bind_ok h
    obtain ⟨hp1, hh1, -⟩ := store_fields h1
    obtain ⟨hp2, hh2, -⟩ := store_fields h
    exact ⟨hp2.trans hp1, hh2.trans hh1⟩
  · cases h
    exact ⟨rfl, rfl⟩

/-- `coalesce` does not move the head. -/
theorem coalesceLoop_fields (h : coalesceLoop fuel s p = .ok s') :
    s'.page = s.page ∧ s'.head = s.head := by
  induction fuel generalizing s p with
  | zero => cases h
  | succ fuel ih =>
      rw [coalesceLoop] at h
      split at h
      · cases h
        exact ⟨rfl, rfl⟩
      · obtain ⟨pnext, -, h⟩ := of_bind_ok h
        split at h
        · cases h
          exact ⟨rfl, rfl⟩
        · obtain ⟨psize, -, h⟩ := of_bind_ok h
          obtain ⟨s1, h1, h⟩ := of_bind_ok h
          obtain ⟨p', -, h⟩ := of_bind_ok h
          obtain ⟨hp1, hh1⟩ := mergeNext_fields h1
          obtain ⟨hp2, hh2⟩ := ih h
          exact ⟨hp2.trans hp1, hh2.trans hh1⟩

/-- **What `my_free` does to the head**: it becomes the block that is freed. -/
theorem myFree_fields {allocated : Nat} (h : myFree s allocated = .ok s') :
    s'.page = s.page ∧ s'.head ≠ 0 ∧ s'.head = wrap ((allocated : Int) - 16) := by
  rw [myFree] at h
  obtain ⟨m, -, h⟩ := of_bind_ok h
  split at h
  · cases h
  · obtain ⟨psize, -, h⟩ := of_bind_ok h
    obtain ⟨s1, h1, h⟩ := of_bind_ok h
    obtain ⟨s2, h2, h⟩ := of_bind_ok h
    obtain ⟨hp1, -, hmap⟩ := store_fields h1
    obtain ⟨hp2, -, -⟩ := store_fields h2
    obtain ⟨hp3, hh3⟩ := coalesceLoop_fields h
    have hpos := s.page.addr_pos
    have hin := hmap.1
    refine ⟨by rw [hp3]; exact hp2.trans hp1, ?_, hh3⟩
    rw [hh3]
    show wrap ((allocated : Int) - 16) ≠ 0
    omega

end Head

/-- What holds between the calls: one region, and the head is at its start as
long as the first block is free and in front. -/
structure Housekeeping (s : Process) : Prop where
  fresh : s.heap.head = 0 → s.regions = []
  region : s.heap.head ≠ 0 → s.regions = [s.heap.page.addr]
  aligned : s.heap.head ≠ 0 → s.heap.page.addr % 4096 = 0
  front : s.heap.head ≠ 0 → FirstBlockFree s.heap.page.addr s.events →
    s.heap.head = s.heap.page.addr

variable {s s' : Process} {page : Page}

theorem Housekeeping.oneRegion (h : Housekeeping s) : OneRegion s := by
  by_cases hhead : s.heap.head = 0
  · rw [OneRegion, if_pos hhead, h.fresh hhead]
  · rw [OneRegion, if_neg hhead, h.region hhead]

/-- `heap()` maps the first region, or leaves everything as it is. -/
theorem mapHeap_spec (h : s.heap.head = 0 → s.regions = []) (hs : s.mapHeap page = some s') :
    (s.heap.head ≠ 0 ∧ s' = s) ∨
      (s.heap.head = 0 ∧ s' = ⟨mapped s.heap.mem page, [page.addr], []⟩ ∧
        page.addr % 4096 = 0) := by
  rw [Process.mapHeap] at hs
  split at hs
  · next hhead =>
      right
      rw [mmap, h hhead] at hs
      split at hs
      · next hpage =>
          rw [Option.map_some, heap, if_pos hhead, Option.some.injEq] at hs
          exact ⟨hhead, hs.symm, hpage.1⟩
      · cases hs
  · next hhead => exact Or.inl ⟨hhead, (Option.some.inj hs).symm⟩

/-- A page that has just been mapped. -/
theorem housekeeping_mapped (mem : Mem) (hpage : page.addr % 4096 = 0) :
    Housekeeping ⟨mapped mem page, [page.addr], []⟩ := by
  have hne : (mapped mem page).head ≠ 0 := Nat.pos_iff_ne_zero.mp page.addr_pos
  exact ⟨fun h0 => absurd h0 hne, fun _ => rfl, fun _ => hpage, fun _ _ => rfl⟩

theorem Housekeeping.mapHeap (h : Housekeeping s) (hs : s.mapHeap page = some s') :
    Housekeeping s' ∧ s'.heap.head ≠ 0 := by
  rcases mapHeap_spec h.fresh hs with ⟨hhead, rfl⟩ | ⟨-, rfl, hpage⟩
  · exact ⟨h, hhead⟩
  · exact ⟨housekeeping_mapped _ hpage, Nat.pos_iff_ne_zero.mp page.addr_pos⟩

/-- A heap that can be accessed has been mapped. -/
theorem Housekeeping.mappedHeap (h : Housekeeping s) {t : Heap} (ht : s.mappedHeap = some t) :
    s.heap.head ≠ 0 ∧ t = s.heap := by
  rw [Process.mappedHeap] at ht
  split at ht
  · next hmem =>
      refine ⟨fun hhead => ?_, (Option.some.inj ht).symm⟩
      rw [h.fresh hhead] at hmem
      cases hmem
  · cases ht

/-- A call that keeps the page and says how it moves the head. -/
theorem Housekeeping.call (h : Housekeeping s) {t : Heap} {e : Event} (hne : s.heap.head ≠ 0)
    (hpage : t.page = s.heap.page) (hzero : t.head ≠ 0)
    (hfront : FirstBlockFree s.heap.page.addr (e :: s.events) → t.head = s.heap.page.addr) :
    Housekeeping { s with heap := t, events := e :: s.events } where
  fresh h0 := absurd h0 hzero
  region _ := by
    show s.regions = [t.page.addr]
    rw [hpage]
    exact h.region hne
  aligned _ := by
    show t.page.addr % 4096 = 0
    rw [hpage]
    exact h.aligned hne
  front _ hf := by
    show t.head = t.page.addr
    rw [hpage]
    refine hfront ?_
    rw [← hpage]
    exact hf

/-- `reset_heap` with the head at the start of the page replaces the region. -/
theorem reset_front (h : Housekeeping s) (hfront : FirstBlockFree s.heap.page.addr s.events)
    (hs : resetHeap s page = some s') : Housekeeping s' := by
  rw [resetHeap] at hs
  split at hs
  · next hhead =>
      have hempty : munmap s.regions s.heap.head = [] := by
        rw [h.region hhead, h.front hhead hfront, munmap, if_pos (h.aligned hhead)]
        simp
      rcases mapHeap_spec (fun _ => hempty) hs with ⟨hne, -⟩ | ⟨-, rfl, hpage⟩
      · exact absurd rfl hne
      · exact housekeeping_mapped _ hpage
  · exact Option.some.inj hs ▸ h

/-- The step lemma. -/
theorem housekeeping_step (h : Housekeeping s) (a : Call) (hc : ResetsInFront s a)
    (hs : s.next a = some s') : Housekeeping s' := by
  cases a with
  | malloc size page =>
      obtain ⟨t, ht, hs⟩ := Option.bind_eq_some_iff.mp hs
      obtain ⟨hkeep, hne⟩ := h.mapHeap ht
      cases hrun : myMalloc t.heap page size with
      | error e => simp [hrun] at hs
      | ok r =>
          obtain ⟨u, p⟩ := r
          rw [hrun] at hs
          obtain ⟨hpage, hzero, hmove⟩ := myMalloc_fields hne hrun
          refine Option.some.inj hs ▸ hkeep.call hne hpage hzero fun hfree => ?_
          -- the block at the head was not the one that was handed out
          have hhead := hkeep.front hne hfree.2
          have hlt := t.heap.page.addr_lt
          rcases hmove with hsame | hp
          · rw [hsame, hhead]
          · rw [hhead, wrap_of_lt (by omega) (by omega)] at hp
            exact absurd hp (by have := hfree.1; omega)
  | free allocated =>
      obtain ⟨t, ht, hs⟩ := Option.bind_eq_some_iff.mp hs
      obtain ⟨hne, rfl⟩ := h.mappedHeap ht
      cases hrun : myFree s.heap allocated with
      | error e => simp [hrun] at hs
      | ok u =>
          rw [hrun] at hs
          obtain ⟨hpage, hzero, hhead⟩ := myFree_fields hrun
          refine Option.some.inj hs ▸ h.call hne hpage hzero fun hfirst => ?_
          have hlt := s.heap.page.addr_lt
          have hp : allocated = s.heap.page.addr + 16 := hfirst
          rw [hhead, hp, wrap_of_lt (by omega) (by omega)]
          omega
  | reset page => exact reset_front h hc hs
  | write x byte =>
      obtain ⟨t, ht, hs⟩ := Option.bind_eq_some_iff.mp hs
      obtain ⟨-, rfl⟩ := h.mappedHeap ht
      split at hs
      · exact Option.some.inj hs ▸ ⟨h.fresh, h.region, h.aligned, h.front⟩
      · cases hs

theorem housekeeping_inductive : process.Inductive ResetsInFront Housekeeping where
  init s hs := by
    obtain ⟨hhead, hregions, -⟩ := hs
    exact ⟨fun _ => hregions, fun hne => absurd hhead hne, fun hne => absurd hhead hne,
      fun hne => absurd hhead hne⟩
  step _ a _ h hc hs := housekeeping_step h a hc hs

/-- From any other head the old region stays mapped. -/
theorem reset_exact (h : Housekeeping s) (hhead : s.heap.head ≠ 0)
    (hs : resetHeap s page = some s') :
    OneRegion s' ↔ s.heap.head = s.heap.page.addr := by
  rw [resetHeap, if_pos hhead, Process.mapHeap, if_pos rfl, h.region hhead, mmap] at hs
  split at hs
  · next hfresh =>
      rw [Option.map_some, Option.some.injEq] at hs
      have hne : (mapped s.heap.mem page).head ≠ 0 := Nat.pos_iff_ne_zero.mp page.addr_pos
      subst hs
      rw [OneRegion, heap, if_pos rfl, if_neg hne, munmap]
      constructor
      · intro hone
        by_contra haway
        split at hone
        · simp [Ne.symm haway] at hone
        · simp at hone
      · intro heq
        rw [heq, if_pos (h.aligned hhead)]
        simp [mapped]
  · cases hs

/-- **`reset_heap` releases the heap it replaces** in every run in which it is
called only while the first block of the page is free and in front: the
address it passes to `munmap` is the one that `mmap` returned last, and one
region is mapped at any time. From any other head it leaves the old region
mapped. -/
theorem reset_releases {s : Process} (hs : process.ReachableUnder ResetsInFront s) :
    OneRegion s ∧
    (∀ page, ResetsInFront s (.reset page) → s.heap.head ≠ 0 →
      s.heap.head = s.heap.page.addr) ∧
    ∀ page s', s.heap.head ≠ 0 → s.next (.reset page) = some s' →
      (OneRegion s' ↔ s.heap.head = s.heap.page.addr) := by
  have h := housekeeping_inductive.invariantUnder s hs
  exact ⟨h.oneRegion, fun page hc hne => h.front hne hc,
    fun page s' hne hs' => reset_exact h hne hs'⟩

/-- A process that has not called `heap()`, in zeroed memory. -/
def unmappedProcess : Process := ⟨⟨fun _ => 0, .sample, 0⟩, [], []⟩

/-- One block allocated, given back, and the heap reset. -/
theorem reset_releases_freed :
    ∃ s, process.runChecked ResetsInFront unmappedProcess
      [.malloc 100 .sample, .free 4112,
        .reset ⟨8192, by decide, by decide⟩] = some s ∧ OneRegion s := by
  have hrun : (process.runChecked ResetsInFront unmappedProcess
      [.malloc 100 .sample, .free 4112,
        .reset ⟨8192, by decide, by decide⟩]).isSome = true := by
    decide +kernel
  obtain ⟨s, hs⟩ := Option.isSome_iff_exists.mp hrun
  exact ⟨s, hs, (reset_releases (.runChecked (.init ⟨rfl, rfl, rfl⟩) hs)).1⟩

/-- One block allocated and the heap reset: `munmap` is called with the address
of the node behind the block, and both pages stay mapped. -/
theorem region_leaked : ¬ process.Invariant OneRegion :=
  TSys.not_invariant_of_run unmappedProcess
    [.malloc 100 .sample, .reset ⟨8192, by decide, by decide⟩]
    ⟨rfl, rfl, rfl⟩ (by decide +kernel)

end Os377.Malloc
