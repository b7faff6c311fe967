import Mathlib.Data.Fintype.Basic
import Mathlib.Data.Multiset.Filter
import Mathlib.Data.List.Sort

/-!
# Priority queues

What the documentation of `std::priority_queue` fixes: `top` is an item that
no item of the queue precedes, `push` adds an item and `pop` takes the top one
away. `comp a b` reads "`a` comes after `b`". Which of several equivalent
items is on top is left open, so a result about every `PriorityQueue` does not
depend on how an implementation breaks ties.

The second half describes the contents of a queue by the set of indices whose
records it holds (`pool`).
-/

namespace Os377.Lib

/-- An implementation of a priority queue, with the multiset of its items. -/
structure PriorityQueue (α : Type) (comp : α → α → Bool) where
  Queue : Type
  items : Queue → Multiset α
  empty : Queue
  push : Queue → α → Queue
  /-- `none` on the empty queue. -/
  top : Queue → Option α
  pop : Queue → Queue
  size : Queue → Nat
  items_empty : items empty = 0
  items_push : ∀ q a, items (push q a) = a ::ₘ items q
  items_of_top_none : ∀ q, top q = none → items q = 0
  items_of_top : ∀ q a, top q = some a → items q = a ::ₘ items (pop q)
  top_first : ∀ q a, top q = some a → ∀ b ∈ items q, comp a b = false
  size_eq : ∀ q, size q = (items q).card

namespace PriorityQueue

variable {α : Type} {comp : α → α → Bool} (P : PriorityQueue α comp)

/-- `empty()`. -/
def isEmpty (q : P.Queue) : Bool := (P.top q).isNone

/-- The queue built by pushing the elements of a list one by one. -/
def ofList (as : List α) : P.Queue := as.foldl P.push P.empty

variable {P}

theorem isEmpty_iff {q : P.Queue} : P.isEmpty q = true ↔ P.items q = 0 := by
  unfold isEmpty
  cases htop : P.top q with
  | none => simp [P.items_of_top_none q htop]
  | some a => simp [P.items_of_top q a htop]

theorem top_mem {q : P.Queue} {a : α} (h : P.top q = some a) : a ∈ P.items q := by
  rw [P.items_of_top q a h]
  exact Multiset.mem_cons_self a _

theorem items_foldl_push (as : List α) (q : P.Queue) :
    P.items (as.foldl P.push q) = P.items q + as := by
  induction as generalizing q with
  | nil => simp
  | cons a as ih =>
      rw [List.foldl_cons, ih, P.items_push]
      rw [← Multiset.cons_coe, Multiset.add_cons, Multiset.cons_add]

/-- The first `fuel` items, popped one by one. -/
def drainLoop (P : PriorityQueue α comp) : Nat → P.Queue → List α
  | 0, _ => []
  | fuel + 1, q =>
      match P.top q with
      | none => []
      | some a => a :: drainLoop P fuel (P.pop q)

variable (P) in
/-- `while (!q.empty())`: the items in the order in which they are popped. -/
def drain (q : P.Queue) : List α := drainLoop P (P.size q) q

theorem drainLoop_spec {fuel : Nat} {q : P.Queue} (hfuel : (P.items q).card ≤ fuel) :
    (drainLoop P fuel q : Multiset α) = P.items q ∧
      (drainLoop P fuel q).Pairwise (comp · · = false) := by
  induction fuel generalizing q with
  | zero => exact ⟨(Multiset.card_eq_zero.mp (Nat.le_zero.mp hfuel)).symm, List.Pairwise.nil⟩
  | succ fuel ih =>
      rw [drainLoop]
      cases htop : P.top q with
      | none => exact ⟨(P.items_of_top_none q htop).symm, List.Pairwise.nil⟩
      | some a =>
          have hitems := P.items_of_top q a htop
          have hcard : (P.items (P.pop q)).card ≤ fuel := by
            rw [hitems, Multiset.card_cons] at hfuel
            omega
          obtain ⟨hrest, hsorted⟩ := ih hcard
          refine ⟨?_, List.pairwise_cons.mpr ⟨fun b hb => ?_, hsorted⟩⟩
          · rw [hitems, ← hrest, Multiset.cons_coe]
          · refine P.top_first q a htop b ?_
            rw [hitems, ← hrest]
            exact Multiset.mem_cons_of_mem hb

/-- Popping gives every item, in order. -/
theorem drain_spec (q : P.Queue) : (P.drain q : Multiset α) = P.items q ∧
    (P.drain q).Pairwise (comp · · = false) :=
  drainLoop_spec (P.size_eq q).ge

theorem items_ofList (as : List α) : P.items (P.ofList as) = as := by
  rw [ofList, items_foldl_push, P.items_empty, Multiset.zero_add]

end PriorityQueue

section SortedList

variable {α : Type} (comp : α → α → Bool)
  (htotal : ∀ a b, comp a b = false ∨ comp b a = false)
  (htrans : ∀ a b c, comp a b = false → comp b c = false → comp a c = false)

include htotal htrans in
theorem pairwise_orderedInsert (a : α) {l : List α} (h : l.Pairwise (comp · · = false)) :
    (l.orderedInsert (comp · · = false) a).Pairwise (comp · · = false) := by
  have : Std.Total (comp · · = false) := ⟨htotal⟩
  have : IsTrans α (comp · · = false) := ⟨htrans⟩
  exact h.orderedInsert a l

/-- The simplest implementation: a list kept in order. -/
def sortedListQueue : PriorityQueue α comp where
  Queue := { l : List α // l.Pairwise (comp · · = false) }
  items q := q.val
  empty := ⟨[], List.Pairwise.nil⟩
  push q a := ⟨q.val.orderedInsert (comp · · = false) a,
    pairwise_orderedInsert comp htotal htrans a q.property⟩
  top q := q.val.head?
  pop q := ⟨q.val.tail, q.property.sublist (List.tail_sublist _)⟩
  size q := q.val.length
  items_empty := rfl
  items_push q a := Multiset.coe_eq_coe.mpr (List.perm_orderedInsert _ a q.val)
  items_of_top_none q h := by simpa using h
  items_of_top q a h := by
    obtain ⟨l, hl⟩ := q
    cases l with
    | nil => simp at h
    | cons b l => simp_all
  top_first q a h := by
    obtain ⟨l, hl⟩ := q
    cases l with
    | nil => simp at h
    | cons b l =>
        simp only [List.head?_cons, Option.some.injEq] at h
        subst h
        intro c hc
        rcases List.mem_cons.mp (Multiset.mem_coe.mp hc) with rfl | hc
        · rcases htotal c c with h | h <;> exact h
        · exact List.rel_of_pairwise_cons hl hc
  size_eq q := rfl

end SortedList

section Pool

variable {ι : Type*} [Fintype ι] {α : Type*}

/-- The records `g i` of the indices that satisfy `p`, one for each index. -/
def pool (p : ι → Prop) [DecidablePred p] (g : ι → α) : Multiset α :=
  (Finset.univ.filter p).val.map g

variable {p q : ι → Prop} [DecidablePred p] [DecidablePred q] {g h : ι → α}

theorem mem_pool {a : α} : a ∈ pool p g ↔ ∃ i, p i ∧ g i = a := by
  simp [pool]

theorem pool_congr (hpq : ∀ i, p i ↔ q i) (hgh : ∀ i, p i → g i = h i) :
    pool p g = pool q h := by
  have hset : Finset.univ.filter p = Finset.univ.filter q := by
    apply Finset.filter_congr
    intro i _
    exact hpq i
  rw [pool, pool, ← hset]
  apply Multiset.map_congr rfl
  intro i hi
  exact hgh i (by simpa using hi)

/-- A list of the records of a pool lists their indices. -/
theorem exists_order_of_pool {l : List α} (h : (l : Multiset α) = pool p g) :
    ∃ order : List ι, order.Nodup ∧ (∀ i, i ∈ order ↔ p i) ∧ l = order.map g := by
  have hperm : l.Perm ((Finset.univ.filter p).toList.map g) := by
    rw [← Multiset.coe_eq_coe, h, pool, ← Multiset.map_coe, Finset.coe_toList]
  rw [← congrFun (congrFun (List.eq_map_comp_perm g) l) _] at hperm
  obtain ⟨order, rfl, horder⟩ := hperm
  refine ⟨order, (horder.nodup_iff).mpr (Finset.nodup_toList _), fun i => ?_, rfl⟩
  rw [horder.mem_iff, Finset.mem_toList, Finset.mem_filter]
  exact and_iff_right (Finset.mem_univ i)

theorem pool_eq_zero : pool p g = 0 ↔ ∀ i, ¬ p i := by
  simp [pool]

/-- Take one index out of a pool. -/
theorem pool_erase [DecidableEq ι] {i : ι} (hi : p i) :
    pool p g = g i ::ₘ pool (fun j => p j ∧ j ≠ i) g := by
  have hset : Finset.univ.filter p
      = Finset.cons i (Finset.univ.filter fun j => p j ∧ j ≠ i) (by simp) := by
    ext j
    by_cases hj : j = i
    · simp [hj, hi]
    · simp [hj]
  rw [pool, hset, Finset.cons_val, Multiset.map_cons]
  rfl

theorem filter_pool (r : α → Prop) [DecidablePred r] :
    (pool p g).filter r = pool (fun i => p i ∧ r (g i)) g := by
  rw [pool, Multiset.filter_map, ← Finset.filter_val, Finset.filter_filter]
  rfl

theorem pool_add (hdisj : ∀ i, p i → ¬ q i) :
    pool p g + pool q g = pool (fun i => p i ∨ q i) g := by
  have hset : (Finset.univ.filter fun i => p i ∨ q i)
      = (Finset.univ.filter p).disjUnion (Finset.univ.filter q) (by
          rw [Finset.disjoint_filter]
          intro i _
          exact hdisj i) := by
    ext i
    simp
  rw [pool, pool, pool, hset, Finset.disjUnion_val, Multiset.map_add]

end Pool

end Os377.Lib
