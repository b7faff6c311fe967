import Os377.Lib.PriorityQueue

/-!
# Waiting lines

What `std::queue` and `std::priority_queue` have in common: items go in, one of
them stands at the front and is taken out first. Which one that is, is what
tells the two apart.
-/

namespace Os377.Lib

/-- A line of items, with one of them at the front. -/
structure WaitingLine (α : Type) where
  Queue : Type
  items : Queue → Multiset α
  empty : Queue
  push : Queue → α → Queue
  /-- `none` on the empty line. -/
  front : Queue → Option α
  pop : Queue → Queue
  items_empty : items empty = 0
  items_push : ∀ q a, items (push q a) = a ::ₘ items q
  items_of_front_none : ∀ q, front q = none → items q = 0
  items_of_front : ∀ q a, front q = some a → items q = a ::ₘ items (pop q)

namespace WaitingLine

variable {α : Type}

/-- `std::queue`: first in, first out. -/
def fifo (α : Type) : WaitingLine α where
  Queue := List α
  items q := q
  empty := []
  push q a := q ++ [a]
  front q := q.head?
  pop q := q.tail
  items_empty := rfl
  items_push q a := Multiset.coe_eq_coe.mpr (List.perm_append_singleton a q)
  items_of_front_none q h := by simpa using h
  items_of_front q a h := by
    cases q with
    | nil => simp at h
    | cons b rest =>
        obtain rfl : b = a := by simpa using h
        rfl

/-- `std::priority_queue`: the top stands at the front. -/
def ofPriority {comp : α → α → Bool} (P : PriorityQueue α comp) : WaitingLine α where
  Queue := P.Queue
  items := P.items
  empty := P.empty
  push := P.push
  front := P.top
  pop := P.pop
  items_empty := P.items_empty
  items_push := P.items_push
  items_of_front_none := P.items_of_top_none
  items_of_front := P.items_of_top

variable {L : WaitingLine α}

/-- `empty()`. -/
def isEmpty (L : WaitingLine α) (q : L.Queue) : Bool := (L.front q).isNone

theorem isEmpty_iff {q : L.Queue} : L.isEmpty q = true ↔ L.items q = 0 := by
  unfold isEmpty
  cases hfront : L.front q with
  | none => simp [L.items_of_front_none q hfront]
  | some a => simp [L.items_of_front q a hfront]

theorem front_mem {q : L.Queue} {a : α} (h : L.front q = some a) : a ∈ L.items q := by
  rw [L.items_of_front q a h]
  exact Multiset.mem_cons_self a _

theorem items_foldl_push (as : List α) (q : L.Queue) :
    L.items (as.foldl L.push q) = L.items q + as := by
  induction as generalizing q with
  | nil => simp
  | cons a as ih =>
      rw [List.foldl_cons, ih, L.items_push]
      rw [← Multiset.cons_coe, Multiset.add_cons, Multiset.cons_add]

/-- `Ok` describes the lines built by pushing in the order of `order`; at the
front of them stands the first item by `comp`. -/
structure Keeps (L : WaitingLine α) (order comp : α → α → Bool) (Ok : L.Queue → Prop) : Prop where
  empty : Ok L.empty
  push : ∀ q a, Ok q → (∀ b ∈ L.items q, order b a = false) → Ok (L.push q a)
  pop : ∀ q, Ok q → Ok (L.pop q)
  front : ∀ q a, Ok q → L.front q = some a → ∀ b ∈ L.items (L.pop q), comp a b = false

/-- First in, first out: whoever was pushed first stands at the front. -/
theorem keeps_fifo (order : α → α → Bool) :
    Keeps (fifo α) order order fun q => List.Pairwise (order · · = false) q where
  empty := List.Pairwise.nil
  push q a h ha := by
    refine List.pairwise_append.mpr ⟨h, List.pairwise_singleton _ _, fun b hb c hc => ?_⟩
    rw [List.mem_singleton.mp hc]
    exact ha b hb
  pop q h := h.sublist (List.tail_sublist q)
  front q a h ha b hb := by
    cases q with
    | nil => cases ha
    | cons c rest =>
        obtain rfl : c = a := Option.some.inj ha
        exact List.rel_of_pairwise_cons h hb

/-- A priority queue puts the first one at the front, whatever the order of the
pushes. -/
theorem keeps_ofPriority {comp : α → α → Bool} (P : PriorityQueue α comp)
    (order : α → α → Bool) : Keeps (ofPriority P) order comp fun _ => True where
  empty := trivial
  push _ _ _ _ := trivial
  pop _ _ := trivial
  front q a _ ha b hb := by
    refine P.top_first q a ha b ?_
    rw [P.items_of_top q a ha]
    exact Multiset.mem_cons_of_mem hb

theorem Keeps.foldl_push {order comp : α → α → Bool} {Ok : L.Queue → Prop}
    (hk : Keeps L order comp Ok) {as : List α} {q : L.Queue} (hq : Ok q)
    (has : as.Pairwise (order · · = false)) (hnew : ∀ b ∈ L.items q, ∀ a ∈ as, order b a = false) :
    Ok (as.foldl L.push q) := by
  induction as generalizing q with
  | nil => exact hq
  | cons a as ih =>
      rw [List.pairwise_cons] at has
      refine ih (hk.push q a hq fun b hb => hnew b hb a List.mem_cons_self) has.2 ?_
      intro b hb c hc
      rw [L.items_push, Multiset.mem_cons] at hb
      rcases hb with heq | hb
      · rw [heq]
        exact has.1 c hc
      · exact hnew b hb c (List.mem_cons_of_mem _ hc)

end WaitingLine

end Os377.Lib
