import Os377.Lib.InputStream
import Os377.MergeSort.Threads
import Mathlib.Logic.Function.Basic

/-!
# The merge sort with processes

`run` of `mergesort__starter/src/sort.cpp`: a process that is given more than two numbers
starts the program again for the two halves of its arguments, one after the other, reads
their results from the files named by their process ids, removes these files and writes
its own. `fork` hands out the next id of `pids`, and fails when none is left; the other
system calls succeed. `mem` is what the uninitialised array `nums` of a process holds.

The numbers in the file of the first process are in the end the vector that the threads
make of the same numbers.
-/

namespace Os377.MergeSort

open Os377.Lib Function

/-- What the processes share. -/
structure World where
  files : List Char → Option (List Char)
  pids : List Int
  cout : List (List Char)
  cerr : List (List Char)

/-- `"temp/" + to_string(pid) + ".txt"` -/
def tempFile (pid : Int) : List Char :=
  "temp/".toList ++ numeral pid ++ ".txt".toList

/-- `myfile << n << endl` -/
def line (n : Int) : List Char := numeral n ++ ['\n']

/-- `sort` on the `count` strings of `argv`. -/
def sort (mem : Int → Nat → Int) (own : Int) (argv : List (List Char)) (w : World) : World :=
  let nums := fun i : Nat =>
    match argv[i]?.map stoi with
    | some (.ok n) => n
    | _ => mem own i
  let strange := argv.filter fun arg => (stoi arg).toOption.isNone
  let text :=
    if argv.length = 1 then line (nums 0)
    else if nums 0 < nums 1 then line (nums 0) ++ line (nums 1)
    else line (nums 1) ++ line (nums 0)
  { w with
    files := update w.files (tempFile own) (some text)
    cout := w.cout ++ strange.map ("Found something that isn't an int: ".toList ++ ·) }

/-- `while (getline(myfile, num)) output.push_back(stoi(num))` -/
def readVector (myfile : InStream) (num : List Char) (output : List Int) :
    Except StoiError (List Int) :=
  let line := myfile.getline num '\n'
  if _hread : line.1.fail = false then
    match stoi line.2 with
    | .ok n => readVector line.1 line.2 (output ++ [n])
    | .error e => .error e
  else .ok output
termination_by myfile.rest.length
decreasing_by exact getline_shorter _hread

/-- A file that is not there cannot be opened, and `getline` fails at once. -/
def readVectorFromFile (files : List Char → Option (List Char)) (pid : Int) :
    Except StoiError (List Int) :=
  match files (tempFile pid) with
  | some text => readVector (InStream.open text) [] []
  | none => readVector ⟨[], false, true⟩ [] []

/-- The first loop of `combine_sorted`: what it has pushed, and `lo` and `hi` behind it. -/
def combineBoth (one two : List Int) (lo hi : Nat) (ret : List Int) : List Int × Nat × Nat :=
  if hlo : lo < one.length then
    if hhi : hi < two.length then
      if one[lo] < two[hi] then combineBoth one two (lo + 1) hi (ret ++ [one[lo]])
      else combineBoth one two lo (hi + 1) (ret ++ [two[hi]])
    else (ret, lo, hi)
  else (ret, lo, hi)
termination_by (one.length - lo) + (two.length - hi)

/-- The second and the third loop. -/
def pushRest (nums : List Int) (i : Nat) (ret : List Int) : List Int :=
  if h : i < nums.length then pushRest nums (i + 1) (ret ++ [nums[i]]) else ret
termination_by nums.length - i

def combineSorted (one two : List Int) : List Int :=
  let (ret, lo, hi) := combineBoth one two 0 0 []
  pushRest two hi (pushRest one lo ret)

/-- `split_and_merge` behind its children. A `stoi` that throws ends the process. -/
def collect (own child1 child2 : Int) (w : World) : World :=
  match readVectorFromFile w.files child1 with
  | .error _ => w
  | .ok splitLo =>
      match readVectorFromFile w.files child2 with
      | .error _ => w
      | .ok splitHi =>
          let files := update (update w.files (tempFile child1) none) (tempFile child2) none
          let text := (combineSorted splitLo splitHi).flatMap line
          { w with files := update files (tempFile own) (some text) }

/-- `argc < 2` is reported, and no more. -/
def warn (argv : List (List Char)) (w : World) : World :=
  if argv.length < 2 then
    { w with cerr := w.cerr ++
        ["Wrong number of inputs, need at least one num to sort.".toList,
          "Example call: ".toList ++ argv.headD [] ++ " 3 2 1".toList] }
  else w

mutual

/-- The process `own`, from `main` to its end. -/
def run (mem : Int → Nat → Int) (own : Int) (argv : List (List Char)) (w : World) : World :=
  if h : argv.length ≤ 3 then sort mem own argv.tail (warn argv w)
  else splitAndMerge mem own argv.tail (argv.headD []) (by rw [List.length_tail]; omega) w
termination_by 3 * argv.length + 2
decreasing_by rw [List.length_tail]; omega

def splitAndMerge (mem : Int → Nat → Int) (own : Int) (argv : List (List Char))
    (name : List Char) (_hlong : 3 ≤ argv.length) (w : World) : World :=
  let halfSize := argv.length / 2
  let argv1 := name :: argv.take halfSize
  let argv2 := name :: argv.drop halfSize
  let first := forkAndWait mem argv1 w
  let second := forkAndWait mem argv2 first.2
  collect own first.1 second.1 second.2
termination_by 3 * argv.length + 4
decreasing_by
  · rw [List.length_cons, List.length_take]; omega
  · rw [List.length_cons, List.length_drop]; omega

/-- Half of `fork_and_wait`: the child runs to its end. `waitpid` finds nothing to wait for
when `fork` has failed. -/
def forkAndWait (mem : Int → Nat → Int) (argv : List (List Char)) (w : World) : Int × World :=
  match w.pids with
  | [] => (-1, w)
  | pid :: pids => (pid, run mem pid argv { w with pids := pids })
termination_by 3 * argv.length + 3

end

/-- How often a process and its children fork for `n` numbers. -/
def forks (n : Nat) : Nat :=
  if n ≤ 2 then 0 else forks (n / 2) + forks (n - n / 2) + 2
termination_by n

/-- What a process has done that sorted `n` numbers: the result is in its file, and beside
the files of its children no other has changed. -/
structure Done (own : Int) (n : Nat) (sorted : List Int) (w w' : World) : Prop where
  pids : w'.pids = w.pids.drop (forks n)
  file : w'.files (tempFile own) = some (sorted.flatMap line)
  others : ∀ path, path ≠ tempFile own → (∀ pid ∈ w.pids.take (forks n), path ≠ tempFile pid) →
    w'.files path = w.files path

section Files

variable {one two ret xs : List Int} {lo hi : Nat}

theorem tempFile_injective : Injective tempFile := by
  intro a b h
  exact numeral_injective (List.append_cancel_left (List.append_cancel_right h))

/-- The lines of a file are read back. -/
theorem readVector_lines (hint : ∀ n ∈ xs, IsInt n) (num : List Char) (output : List Int) :
    readVector (InStream.open (xs.flatMap line)) num output = .ok (output ++ xs) := by
  induction xs generalizing num output with
  | nil =>
      have hend : (InStream.open []).getline num '\n' = (⟨[], true, true⟩, []) :=
        getline_last num (by simp)
      rw [List.flatMap_nil, readVector]
      simp only [hend, Bool.true_eq_false, dif_neg, not_false_eq_true, List.append_nil]
  | cons n xs ih =>
      have hword : ∀ c ∈ numeral n, c ≠ '\n' := by
        intro c hc
        rcases mem_numeral hc with hdigit | rfl
        · exact ne_of_digit hdigit (Or.inl (by decide))
        · decide
      have htext : (n :: xs).flatMap line = numeral n ++ '\n' :: xs.flatMap line := by
        rw [List.flatMap_cons, line, List.append_assoc, List.singleton_append]
      rw [htext, readVector]
      simp only [getline_word num (xs.flatMap line) hword,
        stoi_numeral (hint n List.mem_cons_self)]
      have hgood : (InStream.open (xs.flatMap line)).fail = false := rfl
      rw [dif_pos hgood, ih fun k hk => hint k (List.mem_cons_of_mem n hk), List.append_assoc,
        List.singleton_append]

theorem pushRest_eq (i : Nat) (ret : List Int) : pushRest xs i ret = ret ++ xs.drop i := by
  induction i, ret using pushRest.induct xs with
  | case1 i ret h ih =>
      rw [pushRest, dif_pos h, ih, List.append_assoc, List.singleton_append,
        ← List.drop_eq_getElem_cons h]
  | case2 i ret h =>
      rw [pushRest, dif_neg h, List.drop_eq_nil_of_le (not_lt.mp h), List.append_nil]

/-- The first loop of the merge, up to the end of one of the lists. -/
theorem combineBoth_state (h : MergeState one two lo hi ret) :
    MergeState one two (combineBoth one two lo hi ret).2.1 (combineBoth one two lo hi ret).2.2
        (combineBoth one two lo hi ret).1 ∧
      (one.length ≤ (combineBoth one two lo hi ret).2.1 ∨
        two.length ≤ (combineBoth one two lo hi ret).2.2) := by
  induction lo, hi, ret using combineBoth.induct one two with
  | case1 lo hi ret hlo hhi hless ih =>
      rw [combineBoth, dif_pos hlo, dif_pos hhi, if_pos hless]
      exact ih (h.takeLeft hlo fun _ => hless)
  | case2 lo hi ret hlo hhi hless ih =>
      rw [combineBoth, dif_pos hlo, dif_pos hhi, if_neg hless]
      exact ih (h.takeRight hhi fun _ => hless)
  | case3 lo hi ret hlo hhi =>
      rw [combineBoth, dif_pos hlo, dif_neg hhi]
      exact ⟨h, Or.inr (not_lt.mp hhi)⟩
  | case4 lo hi ret hlo =>
      rw [combineBoth, dif_neg hlo]
      exact ⟨h, Or.inl (not_lt.mp hlo)⟩

theorem combineSorted_eq : combineSorted one two = merged one two := by
  obtain ⟨hstate, hend⟩ := combineBoth_state (MergeState.start one two)
  rw [combineSorted]
  simp only [pushRest_eq]
  rw [← hstate.whole, List.append_assoc]
  refine congrArg _ ?_
  rcases hend with hone | htwo
  · rw [List.drop_eq_nil_of_le hone, List.nil_append, merged, List.merge_right]
  · rw [List.drop_eq_nil_of_le htwo, List.append_nil, merged, List.nil_merge]

/-- The parent finds the results of both children, and merges them. -/
theorem collect_eq {own child1 child2 : Int} {w : World} (hone : ∀ n ∈ one, IsInt n)
    (htwo : ∀ n ∈ two, IsInt n) (hfile1 : w.files (tempFile child1) = some (one.flatMap line))
    (hfile2 : w.files (tempFile child2) = some (two.flatMap line)) :
    collect own child1 child2 w = { w with
      files := update (update (update w.files (tempFile child1) none) (tempFile child2) none)
        (tempFile own) (some ((merged one two).flatMap line)) } := by
  have hread1 : readVectorFromFile w.files child1 = .ok one := by
    rw [readVectorFromFile, hfile1]
    exact readVector_lines hone [] []
  have hread2 : readVectorFromFile w.files child2 = .ok two := by
    rw [readVectorFromFile, hfile2]
    exact readVector_lines htwo [] []
  rw [collect, hread1]
  simp only [hread2, combineSorted_eq]

/-- One or two numbers are put in order by `sort` itself. -/
theorem sort_done {mem : Int → Nat → Int} {nums : List Int} {own : Int} {w : World}
    (hne : nums ≠ []) (hshort : nums.length ≤ 2) (hint : ∀ n ∈ nums, IsInt n) :
    ∃ sorted, SortOf nums sorted ∧
      Done own nums.length sorted w (sort mem own (nums.map numeral) w) := by
  have hforks : forks nums.length = 0 := by rw [forks, if_pos hshort]
  have hdone : ∀ {sorted : List Int},
      (sort mem own (nums.map numeral) w).files =
        update w.files (tempFile own) (some (sorted.flatMap line)) →
      Done own nums.length sorted w (sort mem own (nums.map numeral) w) := by
    intro sorted hfiles
    refine ⟨?_, ?_, fun path hpath _ => ?_⟩
    · rw [hforks]
      rfl
    · rw [hfiles, update_self]
    · rw [hfiles, update_of_ne hpath]
  match nums, hshort with
  | [a], _ =>
      have ha : stoi (numeral a) = .ok a := stoi_numeral (hint a (by simp))
      refine ⟨[a], SortOf.short (by simp), hdone ?_⟩
      simp [sort, ha]
  | [a, b], _ =>
      have ha : stoi (numeral a) = .ok a := stoi_numeral (hint a (by simp))
      have hb : stoi (numeral b) = .ok b := stoi_numeral (hint b (by simp))
      refine ⟨_, SortOf.pair a b, hdone ?_⟩
      by_cases hab : a < b
      · simp [sort, ha, hb, hab]
      · simp [sort, ha, hb, hab]

end Files

section Runs

variable {mem : Int → Nat → Int} {nums : List Int} {own : Int} {w : World}

theorem forks_short {n : Nat} (h : n ≤ 2) : forks n = 0 := by
  rw [forks, if_pos h]

theorem forks_long {n : Nat} (h : ¬ n ≤ 2) :
    forks n = forks (n / 2) + forks (n - n / 2) + 2 := by
  rw [forks, if_neg h]

/-- What is said of a process that gets `nums` to sort. -/
def Sorts (mem : Int → Nat → Int) (nums : List Int) : Prop :=
  ∀ (own : Int) (name : List Char) (w : World), w.pids.Nodup →
    forks nums.length ≤ w.pids.length → ∃ sorted, SortOf nums sorted ∧
      Done own nums.length sorted w (run mem own (name :: nums.map numeral) w)

/-- The child that is forked for `nums`. -/
theorem Sorts.fork (h : Sorts mem nums) (name : List Char) (hnodup : w.pids.Nodup)
    (hforks : forks nums.length < w.pids.length) :
    ∃ pid pids w' sorted, w.pids = pid :: pids ∧
      forkAndWait mem (name :: nums.map numeral) w = (pid, w') ∧ SortOf nums sorted ∧
      Done pid nums.length sorted { w with pids := pids } w' := by
  cases hpids : w.pids with
  | nil =>
      rw [hpids] at hforks
      exact absurd hforks (Nat.not_lt_zero _)
  | cons pid pids =>
      rw [hpids] at hnodup hforks
      obtain ⟨sorted, hsorted, hdone⟩ := h pid name { w with pids := pids }
        (List.nodup_cons.mp hnodup).2 (Nat.lt_succ_iff.mp hforks)
      refine ⟨pid, pids, _, sorted, rfl, ?_, hsorted, hdone⟩
      rw [forkAndWait, hpids]

/-- The two children of a process with more than two numbers, the second in the world the
first has left: the files of both are there, and no other file has changed but those of
their own children. -/
theorem Sorts.children {m n : Nat} {nums1 nums2 : List Int} (hm : nums1.length = m)
    (hn : nums2.length = n) (hleft : Sorts mem nums1) (hright : Sorts mem nums2)
    (name : List Char) (hnodup : w.pids.Nodup) (hforks : forks m + forks n + 2 ≤ w.pids.length) :
    ∃ pid1 w1 pid2 w2 left right,
      forkAndWait mem (name :: nums1.map numeral) w = (pid1, w1) ∧
      forkAndWait mem (name :: nums2.map numeral) w1 = (pid2, w2) ∧
      SortOf nums1 left ∧ SortOf nums2 right ∧
      w2.pids = w.pids.drop (forks m + forks n + 2) ∧
      pid1 ∈ w.pids.take (forks m + forks n + 2) ∧ pid2 ∈ w.pids.take (forks m + forks n + 2) ∧
      w2.files (tempFile pid1) = some (left.flatMap line) ∧
      w2.files (tempFile pid2) = some (right.flatMap line) ∧
      ∀ path, (∀ pid ∈ w.pids.take (forks m + forks n + 2), path ≠ tempFile pid) →
        w2.files path = w.files path := by
  subst hm hn
  obtain ⟨pid1, pids1, w1, left, hpids, hfork1, hsorted1, hdone1⟩ :=
    hleft.fork name hnodup (by omega)
  have hpids1 : w1.pids = pids1.drop (forks nums1.length) := hdone1.pids
  have hlength : w.pids.length = pids1.length + 1 := by rw [hpids, List.length_cons]
  have hnodup1 := List.nodup_cons.mp (hpids ▸ hnodup)
  obtain ⟨pid2, pids2, w2, right, hpids2, hfork2, hsorted2, hdone2⟩ :=
    hright.fork (w := w1) name (hpids1 ▸ hnodup1.2.sublist (List.drop_sublist ..))
      (by rw [hpids1, List.length_drop]; omega)
  have hrest : pids1.drop (forks nums1.length) = pid2 :: pids2 := hpids1 ▸ hpids2
  have hmem : ∀ pid ∈ pid2 :: pids2, pid ∈ pids1 := fun pid hpid =>
    List.mem_of_mem_drop (hrest ▸ hpid)
  -- the first child's file is still there
  have hapart : ∀ pid ∈ pids1, tempFile pid1 ≠ tempFile pid := by
    intro pid hpid heq
    exact hnodup1.1 (tempFile_injective heq ▸ hpid)
  have hfile1 : w2.files (tempFile pid1) = some (left.flatMap line) := by
    rw [hdone2.others _ (hapart pid2 (hmem pid2 List.mem_cons_self)) fun pid hpid =>
      hapart pid (hmem pid (List.mem_cons_of_mem pid2 (List.mem_of_mem_take hpid)))]
    exact hdone1.file
  -- the ids of the second child and its children follow those of the first
  have hsum : forks nums1.length + forks nums2.length + 2 =
      forks nums1.length + (forks nums2.length + 1) + 1 := by omega
  have htake : w.pids.take (forks nums1.length + forks nums2.length + 2) =
      pid1 :: (pids1.take (forks nums1.length) ++ pid2 :: pids2.take (forks nums2.length)) := by
    rw [hpids, hsum, List.take_succ_cons, List.take_add, hrest, List.take_succ_cons]
  have hdrop : w.pids.drop (forks nums1.length + forks nums2.length + 2) =
      pids2.drop (forks nums2.length) := by
    rw [hpids, hsum, List.drop_succ_cons, ← List.drop_drop, hrest, List.drop_succ_cons]
  rw [htake, hdrop]
  refine ⟨pid1, w1, pid2, w2, left, right, hfork1, hfork2, hsorted1, hsorted2, hdone2.pids,
    List.mem_cons_self, by simp, hfile1, hdone2.file, fun path hothers => ?_⟩
  calc w2.files path = w1.files path :=
        hdone2.others path (hothers pid2 (by simp)) fun pid hpid => hothers pid (by simp [hpid])
    _ = w.files path :=
        hdone1.others path (hothers pid1 List.mem_cons_self) fun pid hpid =>
          hothers pid (by simp [hpid])

/-- A process with more than two numbers, its children sorting theirs. -/
theorem Sorts.split (hlong : ¬ nums.length ≤ 2) (hint : ∀ n ∈ nums, IsInt n)
    (hleft : Sorts mem (nums.take (nums.length / 2)))
    (hright : Sorts mem (nums.drop (nums.length / 2))) : Sorts mem nums := by
  intro own name w hnodup hforks
  have hlenl : (nums.take (nums.length / 2)).length = nums.length / 2 := by
    rw [List.length_take, Nat.min_eq_left (Nat.div_le_self ..)]
  rw [forks_long hlong] at hforks
  obtain ⟨pid1, w1, pid2, w2, left, right, hfork1, hfork2, hsorted1, hsorted2, hpids, hmem1, hmem2,
    hfile1, hfile2, hothers⟩ :=
    Sorts.children hlenl List.length_drop hleft hright name hnodup hforks
  have hrun : run mem own (name :: nums.map numeral) w = collect own pid1 pid2 w2 := by
    have hargs : ¬ (name :: nums.map numeral).length ≤ 3 := by
      rw [List.length_cons, List.length_map]
      omega
    rw [run, dif_neg hargs, splitAndMerge]
    simp only [List.tail_cons, List.headD_cons, List.length_map, ← List.map_take, ← List.map_drop,
      hfork1, hfork2]
  have hint1 : ∀ n ∈ left, IsInt n := fun n hn =>
    hint n (List.mem_of_mem_take (hsorted1.perm.subset hn))
  have hint2 : ∀ n ∈ right, IsInt n := fun n hn =>
    hint n (List.mem_of_mem_drop (hsorted2.perm.subset hn))
  refine ⟨merged left right, hsorted1.merge hsorted2, ?_⟩
  rw [hrun, collect_eq hint1 hint2 hfile1 hfile2]
  rw [← forks_long hlong] at hpids hmem1 hmem2 hothers
  -- the children's files are removed, and its own is written
  refine ⟨hpids, update_self .., fun path hpath hrest => ?_⟩
  show update (update (update w2.files (tempFile pid1) none) (tempFile pid2) none) (tempFile own)
    (some ((merged left right).flatMap line)) path = w.files path
  rw [update_of_ne hpath, update_of_ne (hrest pid2 hmem2), update_of_ne (hrest pid1 hmem1)]
  exact hothers path hrest

/-- **The processes sort**, if there are process ids enough and no two are equal. -/
theorem processes_sort (mem : Int → Nat → Int) (hne : nums ≠ []) (hint : ∀ n ∈ nums, IsInt n) :
    Sorts mem nums := by
  induction hn : nums.length using Nat.strongRecOn generalizing nums with
  | ind n ih =>
      subst hn
      by_cases hshort : nums.length ≤ 2
      · intro own name w _ _
        have hargs : (name :: nums.map numeral).length ≤ 3 := by
          rw [List.length_cons, List.length_map]
          omega
        have hwarn : warn (name :: nums.map numeral) w = w := by
          have hpos := List.length_pos_iff.mpr hne
          rw [warn, if_neg]
          rw [List.length_cons, List.length_map]
          omega
        rw [run, dif_pos hargs, hwarn]
        exact sort_done hne hshort hint
      · -- both halves are shorter and have numbers
        have hlenl : (nums.take (nums.length / 2)).length = nums.length / 2 := by
          rw [List.length_take, Nat.min_eq_left (Nat.div_le_self ..)]
        have hlenr : (nums.drop (nums.length / 2)).length = nums.length - nums.length / 2 :=
          List.length_drop
        refine Sorts.split hshort hint ?_ ?_
        · refine ih _ ?_ (List.length_pos_iff.mp ?_)
            (fun n hn => hint n (List.mem_of_mem_take hn)) rfl
          · omega
          · omega
        · refine ih _ ?_ (List.length_pos_iff.mp ?_)
            (fun n hn => hint n (List.mem_of_mem_drop hn)) rfl
          · omega
          · omega

/-- **Both merge sorts sort.** Of any numbers there is one sorted list such that the threads,
in whatever order they move, come to their end with it in the vector, and the processes
write it to the file of the first one, a number a line. -/
theorem both_sort (nums : List Int) (hne : nums ≠ []) (hint : ∀ n ∈ nums, IsInt n)
    (mem : Int → Nat → Int) (own : Int) (name : List Char) (w : World) (hpids : w.pids.Nodup)
    (hforks : forks nums.length ≤ w.pids.length) :
    ∃ sorted : List Int, (sorted.Perm nums ∧ sorted.Pairwise (· ≤ ·)) ∧
      (∀ acts t, (threads nums).run (.entry nums) acts = some t → acts.length ≤ cost nums.length ∧
        ((∃ way u, (threads nums).next t way = some u) ∨ t = .exited sorted)) ∧
      (run mem own (name :: nums.map numeral) w).files (tempFile own) =
        some (sorted.flatMap line) := by
  obtain ⟨sorted, hsorted, hdone⟩ := processes_sort mem hne hint own name w hpids hforks
  exact ⟨sorted, ⟨hsorted.perm, hsorted.sorted⟩, fun acts t hrun => threads_sort hsorted hrun,
    hdone.file⟩

theorem both_sort_three : ∃ sorted : List Int,
    (sorted.Perm [3, 1, 2] ∧ sorted.Pairwise (· ≤ ·)) ∧
      (∀ acts t, (threads [3, 1, 2]).run (.entry [3, 1, 2]) acts = some t →
        acts.length ≤ cost 3 ∧
          ((∃ way u, (threads [3, 1, 2]).next t way = some u) ∨ t = .exited sorted)) ∧
      (run (fun _ _ => 0) 100 ("./sort".toList :: [3, 1, 2].map numeral)
        ⟨fun _ => none, [101, 102], [], []⟩).files (tempFile 100) =
          some (sorted.flatMap line) := by
  have hforks : forks 3 = 2 := by
    rw [forks_long (by decide), forks_short (by decide), forks_short (by decide)]
  exact both_sort [3, 1, 2] (by decide) (by decide) (fun _ _ => 0) 100 "./sort".toList
    ⟨fun _ => none, [101, 102], [], []⟩ (by decide) hforks.le

end Runs

end Os377.MergeSort
