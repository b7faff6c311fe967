import Os377.Lib.Merging
import Os377.Lib.TSys

/-!
# The merge sort with threads

`sort` of `starter/src/sort.cpp`: a thread with more than two numbers copies the halves
into vectors of its own, has a thread sort each of them, joins the two and merges them
into the vector it was given. The threads form a tree, and a label names the one that
moves by the way to it from the root. `left` and `right` belong to the thread that made
them, and only its two children touch them before they are joined, so a child's vector
is kept with the child.
-/

namespace Os377.MergeSort

open Os377.Lib

/-- The loops of the merge. -/
inductive MergeLoop where
  /-- `while(i < left.size() && j < right.size())` -/
  | both
  /-- `while(i < left.size())` -/
  | lefts
  /-- `while(j < right.size())` -/
  | rights
  deriving DecidableEq, Repr

/-- A thread that runs `sort`, with the threads it has created. -/
inductive Thread where
  /-- Before the test of the size. -/
  | entry (nums : List Int)
  /-- Before the second `pthread_create`. -/
  | create (nums right : List Int) (child1 : Thread)
  /-- `pthread_join(pid1, NULL)` -/
  | join1 (nums : List Int) (child1 child2 : Thread)
  /-- `pthread_join(pid2, NULL)` -/
  | join2 (nums left : List Int) (child2 : Thread)
  /-- Merging. `k` is an `int`: it does not pass the size of `nums` (`Merging.size_eq`),
  and there are fewer numbers than `argc`. -/
  | merge (nums left right : List Int) (loop : MergeLoop) (k i j : Nat)
  | exited (nums : List Int)
  deriving DecidableEq, Repr

inductive Side where
  | left
  | right
  deriving DecidableEq, Repr

/-- `nums[k] = v`; `none` behind the end of the vector. -/
def store (nums : List Int) (k : Nat) (v : Int) : Option (List Int) :=
  if k < nums.length then some (nums.set k v) else none

/-- The vector after the base case: two numbers that are not in order are swapped. -/
def baseCase : List Int → List Int
  | [a, b] => if a < b then [a, b] else [b, a]
  | nums => nums

/-- One test of a loop of the merge, with its body. -/
def mergeNext (nums left right : List Int) (loop : MergeLoop) (k i j : Nat) : Option Thread :=
  match loop with
  | .both =>
      if h : i < left.length ∧ j < right.length then
        if left[i] < right[j] then
          (store nums k left[i]).map fun nums => .merge nums left right .both (k + 1) (i + 1) j
        else
          (store nums k right[j]).map fun nums => .merge nums left right .both (k + 1) i (j + 1)
      else some (.merge nums left right .lefts k i j)
  | .lefts =>
      if h : i < left.length then
        (store nums k left[i]).map fun nums => .merge nums left right .lefts (k + 1) (i + 1) j
      else some (.merge nums left right .rights k i j)
  | .rights =>
      if h : j < right.length then
        (store nums k right[j]).map fun nums => .merge nums left right .rights (k + 1) i (j + 1)
      else some (.exited nums)

namespace Thread

/-- A step of the thread itself. -/
def move : Thread → Option Thread
  | entry nums =>
      if nums.length ≤ 2 then some (.exited (baseCase nums))
      else
        let halfSize := nums.length / 2
        some (.create nums (nums.drop halfSize) (.entry (nums.take halfSize)))
  | create nums right child1 => some (.join1 nums child1 (.entry right))
  | join1 nums (.exited left) child2 => some (.join2 nums left child2)
  | join1 _ _ _ => none
  | join2 nums left (.exited right) => some (.merge nums left right .both 0 0 0)
  | join2 _ _ _ => none
  | merge nums left right loop k i j => mergeNext nums left right loop k i j
  | exited _ => none

/-- A step of the thread at the end of the way. -/
def next : Thread → List Side → Option Thread
  | t, [] => t.move
  | create nums right child1, .left :: way => (child1.next way).map (create nums right)
  | join1 nums child1 child2, .left :: way =>
      (child1.next way).map fun child1 => join1 nums child1 child2
  | join1 nums child1 child2, .right :: way => (child2.next way).map (join1 nums child1)
  | join2 nums left child2, .right :: way => (child2.next way).map (join2 nums left)
  | _, _ => none

end Thread

/-- The thread that is to sort `nums`, and all that come of it, in any order. -/
def threads (nums : List Int) : TSys Thread (List Side) where
  init t := t = .entry nums
  next := Thread.next

/-- The merge of `m` has come to the `k`-th entry. -/
structure Merging (m nums left right : List Int) (loop : MergeLoop) (k i j : Nat) : Prop where
  sortedLeft : SortOf (m.take (m.length / 2)) left
  sortedRight : SortOf (m.drop (m.length / 2)) right
  size : nums.length = m.length
  state : MergeState left right i j (nums.take k)
  index : k = i + j
  lefts : loop = .lefts → left.length ≤ i ∨ right.length ≤ j
  rights : loop = .rights → left.length ≤ i

/-- How many loops are behind. -/
def MergeLoop.rank : MergeLoop → Nat
  | .both => 0
  | .lefts => 1
  | .rights => 2

/-- The steps a thread and its children take for `n` numbers. -/
def cost (n : Nat) : Nat :=
  if n ≤ 2 then 1 else cost (n / 2) + cost (n - n / 2) + n + 7
termination_by n

namespace Thread

/-- The thread is on its way from `m` to the sorted vector. -/
def Sorting : List Int → Thread → Prop
  | m, entry nums => nums = m
  | m, create nums right child1 =>
      nums = m ∧ right = m.drop (m.length / 2) ∧ Sorting (m.take (m.length / 2)) child1
  | m, join1 nums child1 child2 =>
      nums = m ∧ Sorting (m.take (m.length / 2)) child1 ∧ Sorting (m.drop (m.length / 2)) child2
  | m, join2 nums left child2 =>
      nums = m ∧ SortOf (m.take (m.length / 2)) left ∧ Sorting (m.drop (m.length / 2)) child2
  | m, merge nums left right loop k i j => Merging m nums left right loop k i j
  | m, exited nums => SortOf m nums

/-- The steps the thread and its children have still to take. -/
def work : Thread → Nat
  | entry nums => cost nums.length
  | create nums right child1 => child1.work + cost right.length + nums.length + 6
  | join1 nums child1 child2 => child1.work + child2.work + nums.length + 5
  | join2 nums _ child2 => child2.work + nums.length + 4
  | merge _ left right loop _ i j => (left.length - i) + (right.length - j) + (3 - loop.rank)
  | exited _ => 0

end Thread

section Merge

variable {m nums left right : List Int} {loop : MergeLoop} {k i j : Nat} {v : Int}

theorem take_set_succ (hk : k < nums.length) :
    (nums.set k v).take (k + 1) = nums.take k ++ [v] := by
  rw [List.take_add_one, List.take_set_of_le (le_refl k), List.getElem?_set_self hk]
  rfl

/-- What is stored and what is left of the halves makes up the vector, so `k` does not
pass its size. -/
theorem Merging.size_eq (h : Merging m nums left right loop k i j) :
    nums.length = k + (left.length - i) + (right.length - j) := by
  have hleft := h.sortedLeft.length_eq
  have hright := h.sortedRight.length_eq
  rw [List.length_take] at hleft
  rw [List.length_drop] at hright
  have hi := h.state.left_le
  have hj := h.state.right_le
  have hsize := h.size
  have hindex := h.index
  omega

/-- As long as one of the halves has entries there is room in the vector. -/
theorem Merging.room (h : Merging m nums left right loop k i j)
    (hrest : i < left.length ∨ j < right.length) : k < nums.length := by
  have hsize := h.size_eq
  omega

/-- An entry of the left half is stored. -/
theorem Merging.takeLeft (h : Merging m nums left right loop k i j) (hi : i < left.length)
    (hlt : ∀ hj : j < right.length, left[i] < right[j]) (hloop : loop ≠ .rights) :
    Merging m (nums.set k left[i]) left right loop (k + 1) (i + 1) j where
  sortedLeft := h.sortedLeft
  sortedRight := h.sortedRight
  size := by rw [List.length_set, h.size]
  state := by
    rw [take_set_succ (h.room (Or.inl hi))]
    exact h.state.takeLeft hi hlt
  index := by
    have := h.index
    omega
  lefts := by
    intro hl
    have := h.lefts hl
    omega
  rights := fun hr => absurd hr hloop

/-- An entry of the right half is stored. -/
theorem Merging.takeRight (h : Merging m nums left right loop k i j) (hj : j < right.length)
    (hle : ∀ hi : i < left.length, ¬ left[i] < right[j]) (hloop : loop ≠ .lefts) :
    Merging m (nums.set k right[j]) left right loop (k + 1) i (j + 1) where
  sortedLeft := h.sortedLeft
  sortedRight := h.sortedRight
  size := by rw [List.length_set, h.size]
  state := by
    rw [take_set_succ (h.room (Or.inr hj))]
    exact h.state.takeRight hj hle
  index := by
    have := h.index
    omega
  lefts := fun hl => absurd hl hloop
  rights := h.rights

/-- The next loop. -/
theorem Merging.leave {next : MergeLoop} (h : Merging m nums left right loop k i j)
    (hlefts : next = .lefts → left.length ≤ i ∨ right.length ≤ j)
    (hrights : next = .rights → left.length ≤ i) : Merging m nums left right next k i j :=
  ⟨h.sortedLeft, h.sortedRight, h.size, h.state, h.index, hlefts, hrights⟩

/-- The end of the last loop. -/
theorem Merging.done (h : Merging m nums left right loop k i j) (hi : left.length ≤ i)
    (hj : right.length ≤ j) : SortOf m nums := by
  -- nothing is left, so the last entry has been stored
  have hall : nums.length ≤ k := by
    have := h.size_eq
    omega
  have hnums : nums = merged left right := by
    have hdone := h.state.done hi hj
    rwa [List.take_of_length_le hall] at hdone
  rw [hnums]
  exact h.sortedLeft.merge h.sortedRight

theorem store_of_lt (hk : k < nums.length) : store nums k v = some (nums.set k v) :=
  if_pos hk

/-- The merge goes on, and never stores behind the end. -/
theorem Merging.next (h : Merging m nums left right loop k i j) :
    ∃ t, mergeNext nums left right loop k i j = some t ∧ t.Sorting m ∧
      t.work < (Thread.merge nums left right loop k i j).work := by
  cases loop with
  | both =>
      by_cases hboth : i < left.length ∧ j < right.length
      · obtain ⟨hi, hj⟩ := hboth
        by_cases hlt : left[i] < right[j]
        · refine ⟨.merge (nums.set k left[i]) left right .both (k + 1) (i + 1) j, ?_,
            h.takeLeft hi (fun _ => hlt) (by simp), ?_⟩
          · rw [mergeNext, dif_pos ⟨hi, hj⟩, if_pos hlt, store_of_lt (h.room (Or.inl hi))]
            rfl
          · simp only [Thread.work, MergeLoop.rank]
            omega
        · -- a tie goes to the right half, as in the source
          refine ⟨.merge (nums.set k right[j]) left right .both (k + 1) i (j + 1), ?_,
            h.takeRight hj (fun _ => hlt) (by simp), ?_⟩
          · rw [mergeNext, dif_pos ⟨hi, hj⟩, if_neg hlt, store_of_lt (h.room (Or.inr hj))]
            rfl
          · simp only [Thread.work, MergeLoop.rank]
            omega
      · -- one of the halves is used up
        refine ⟨.merge nums left right .lefts k i j, ?_, h.leave (fun _ => ?_) (by simp), ?_⟩
        · rw [mergeNext, dif_neg hboth]
        · omega
        · simp only [Thread.work, MergeLoop.rank]
          omega
  | lefts =>
      have hleft := h.lefts rfl
      by_cases hi : i < left.length
      · refine ⟨.merge (nums.set k left[i]) left right .lefts (k + 1) (i + 1) j, ?_,
          h.takeLeft hi (fun hj => ?_) (by simp), ?_⟩
        · rw [mergeNext, dif_pos hi, store_of_lt (h.room (Or.inl hi))]
          rfl
        · omega
        · simp only [Thread.work, MergeLoop.rank]
          omega
      · refine ⟨.merge nums left right .rights k i j, ?_, h.leave (by simp) fun _ => ?_, ?_⟩
        · rw [mergeNext, dif_neg hi]
        · omega
        · simp only [Thread.work, MergeLoop.rank]
          omega
  | rights =>
      have hright := h.rights rfl
      by_cases hj : j < right.length
      · refine ⟨.merge (nums.set k right[j]) left right .rights (k + 1) i (j + 1), ?_,
          h.takeRight hj (fun hi => ?_) (by simp), ?_⟩
        · rw [mergeNext, dif_pos hj, store_of_lt (h.room (Or.inr hj))]
          rfl
        · omega
        · simp only [Thread.work, MergeLoop.rank]
          omega
      · refine ⟨.exited nums, ?_, h.done hright (not_lt.mp hj), ?_⟩
        · rw [mergeNext, dif_neg hj]
        · simp only [Thread.work, MergeLoop.rank]
          omega

end Merge

theorem cost_short {n : Nat} (h : n ≤ 2) : cost n = 1 := by
  rw [cost, if_pos h]

theorem cost_long {n : Nat} (h : ¬ n ≤ 2) : cost n = cost (n / 2) + cost (n - n / 2) + n + 7 := by
  rw [cost, if_neg h]

theorem baseCase_sortOf {nums : List Int} (h : nums.length ≤ 2) : SortOf nums (baseCase nums) := by
  match nums, h with
  | [], _ => exact SortOf.short (by simp)
  | [_], _ => exact SortOf.short (by simp)
  | [a, b], _ => exact SortOf.pair a b

namespace Thread

variable {m : List Int} {t t' : Thread} {way : List Side}

/-- A step of the thread itself. -/
theorem Sorting.move (h : t.Sorting m) (hn : t.move = some t') :
    t'.Sorting m ∧ t'.work < t.work := by
  cases t with
  | entry nums =>
      have hm : nums = m := h
      subst hm
      rw [Thread.move] at hn
      split at hn
      · next hshort =>
          rw [← Option.some.inj hn]
          refine ⟨baseCase_sortOf hshort, ?_⟩
          show 0 < cost nums.length
          rw [cost_short hshort]
          exact Nat.one_pos
      · next hlong =>
          -- `cost` was made for this: two children, the merge and seven steps more
          rw [← Option.some.inj hn]
          refine ⟨⟨rfl, rfl, rfl⟩, ?_⟩
          simp only [work, List.length_take, List.length_drop, cost_long hlong]
          rw [Nat.min_eq_left (Nat.div_le_self ..)]
          omega
  | create nums right child1 =>
      obtain ⟨rfl, rfl, hchild⟩ := h
      rw [← Option.some.inj hn]
      refine ⟨⟨rfl, hchild, rfl⟩, ?_⟩
      simp only [work]
      omega
  | join1 nums child1 child2 =>
      obtain ⟨rfl, hchild1, hchild2⟩ := h
      cases child1 with
      | exited left =>
          rw [← Option.some.inj hn]
          refine ⟨⟨rfl, hchild1, hchild2⟩, ?_⟩
          simp only [work]
          omega
      | _ => cases hn
  | join2 nums left child2 =>
      obtain ⟨rfl, hleft, hchild2⟩ := h
      cases child2 with
      | exited right =>
          have hright : SortOf (nums.drop (nums.length / 2)) right := hchild2
          -- both halves are sorted, and nothing is merged yet
          rw [← Option.some.inj hn]
          refine ⟨⟨hleft, hright, rfl, MergeState.start left right, rfl, by simp, by simp⟩, ?_⟩
          have hlengths := (hleft.merge hright).length_eq
          rw [length_merged] at hlengths
          simp only [work, MergeLoop.rank]
          omega
      | _ => cases hn
  | merge nums left right loop k i j =>
      obtain ⟨u, hu, hsorting, hwork⟩ := Merging.next h
      have heq : u = t' := Option.some.inj (hu.symm.trans hn)
      exact heq ▸ ⟨hsorting, hwork⟩
  | exited nums => cases hn

/-- Every step brings its thread nearer to the end, and keeps all on their way. -/
theorem Sorting.step (h : t.Sorting m) (hn : t.next way = some t') :
    t'.Sorting m ∧ t'.work < t.work := by
  induction t generalizing m way t' with
  | entry nums | merge nums left right loop k i j | exited nums =>
      cases way with
      | nil => exact h.move hn
      | cons side way => simp [next] at hn
  | create nums right child1 ih =>
      cases way with
      | nil => exact h.move hn
      | cons side way =>
          obtain ⟨hnums, hright, hchild⟩ := h
          cases side with
          | left =>
              obtain ⟨child, hchild', rfl⟩ := Option.map_eq_some_iff.mp hn
              obtain ⟨hsorting, hwork⟩ := ih hchild hchild'
              refine ⟨⟨hnums, hright, hsorting⟩, ?_⟩
              simp only [work]
              omega
          | right => cases hn
  | join1 nums child1 child2 ih1 ih2 =>
      cases way with
      | nil => exact h.move hn
      | cons side way =>
          obtain ⟨hnums, hchild1, hchild2⟩ := h
          cases side with
          | left =>
              obtain ⟨child, hchild', rfl⟩ := Option.map_eq_some_iff.mp hn
              obtain ⟨hsorting, hwork⟩ := ih1 hchild1 hchild'
              refine ⟨⟨hnums, hsorting, hchild2⟩, ?_⟩
              simp only [work]
              omega
          | right =>
              obtain ⟨child, hchild', rfl⟩ := Option.map_eq_some_iff.mp hn
              obtain ⟨hsorting, hwork⟩ := ih2 hchild2 hchild'
              refine ⟨⟨hnums, hchild1, hsorting⟩, ?_⟩
              simp only [work]
              omega
  | join2 nums left child2 ih =>
      cases way with
      | nil => exact h.move hn
      | cons side way =>
          obtain ⟨hnums, hleft, hchild⟩ := h
          cases side with
          | left => cases hn
          | right =>
              obtain ⟨child, hchild', rfl⟩ := Option.map_eq_some_iff.mp hn
              obtain ⟨hsorting, hwork⟩ := ih hchild hchild'
              refine ⟨⟨hnums, hleft, hsorting⟩, ?_⟩
              simp only [work]
              omega

/-- As long as the thread has not exited, it can move or one of its children can. -/
theorem Sorting.moves (h : t.Sorting m) :
    (∃ way u, t.next way = some u) ∨ ∃ nums, t = exited nums := by
  induction t generalizing m with
  | entry nums =>
      refine Or.inl ⟨[], ?_⟩
      rw [next, Thread.move]
      split
      · exact ⟨_, rfl⟩
      · exact ⟨_, rfl⟩
  | create nums right child1 => exact Or.inl ⟨[], _, rfl⟩
  | join1 nums child1 child2 ih1 ih2 =>
      obtain ⟨-, hchild1, -⟩ := h
      refine Or.inl ?_
      -- the first child moves, or can be joined
      rcases ih1 hchild1 with ⟨way, u, hu⟩ | ⟨left, rfl⟩
      · exact ⟨.left :: way, _, Option.map_eq_some_iff.mpr ⟨u, hu, rfl⟩⟩
      · exact ⟨[], _, rfl⟩
  | join2 nums left child2 ih =>
      obtain ⟨-, -, hchild2⟩ := h
      refine Or.inl ?_
      rcases ih hchild2 with ⟨way, u, hu⟩ | ⟨right, rfl⟩
      · exact ⟨.right :: way, _, Option.map_eq_some_iff.mpr ⟨u, hu, rfl⟩⟩
      · exact ⟨[], _, rfl⟩
  | merge nums left right loop k i j =>
      obtain ⟨u, hu, -, -⟩ := Merging.next h
      exact Or.inl ⟨[], u, hu⟩
  | exited nums => exact Or.inr ⟨nums, rfl⟩

end Thread

/-- A run spends what `cost` allows. -/
theorem threads_run {m nums : List Int} {t t' : Thread} {acts : List (List Side)}
    (h : t.Sorting m) (hrun : (threads nums).run t acts = some t') :
    t'.Sorting m ∧ acts.length + t'.work ≤ t.work := by
  induction acts generalizing t with
  | nil =>
      have heq : t = t' := Option.some.inj hrun
      subst heq
      exact ⟨h, by simp⟩
  | cons way acts ih =>
      obtain ⟨u, hu, hrest⟩ := Option.bind_eq_some_iff.mp hrun
      obtain ⟨hsorting, hwork⟩ := h.step hu
      obtain ⟨hsorting', hle⟩ := ih hsorting hrest
      refine ⟨hsorting', ?_⟩
      rw [List.length_cons]
      omega

/-- **The threads sort.** No run is longer than `cost` says, and the one state in which no
thread can move is that the first one has exited, its vector sorted. -/
theorem threads_sort {nums sorted : List Int} (h : SortOf nums sorted) {acts : List (List Side)}
    {t : Thread} (hrun : (threads nums).run (.entry nums) acts = some t) :
    acts.length ≤ cost nums.length ∧
      ((∃ way u, (threads nums).next t way = some u) ∨ t = .exited sorted) := by
  have hentry : (Thread.entry nums).Sorting nums := rfl
  obtain ⟨hsorting, hle⟩ := threads_run hentry hrun
  refine ⟨?_, ?_⟩
  · have hwork : (Thread.entry nums).work = cost nums.length := rfl
    omega
  · rcases hsorting.moves with hmoves | ⟨result, rfl⟩
    · exact Or.inl hmoves
    · have hresult : SortOf nums result := hsorting
      exact Or.inr (congrArg _ (hresult.unique h))

end Os377.MergeSort
