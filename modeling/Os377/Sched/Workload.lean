import Os377.Lib.InputStream
import Os377.Lib.Loop
import Os377.Sched.Dispatched

/-!
# Reading a workload

`read_workload` of `scheduling.cpp`: it reads up to a blank, and if the file has not
ended there, up to the end of the line, and pushes the process. The loop ends when
a blank is looked for behind the last line. So a file of lines `arrival duration` is
read line by line, whether or not the last one ends with a newline.
-/

namespace Os377.Sched

open Os377.Lib

namespace Reader

/-- The variables of `read_workload`. -/
structure State (A : PqueueArrival) where
  workload : A.Queue
  file : InStream
  arrival : List Char

variable {A : PqueueArrival}

/-- One round of the `for` loop; `stoi` may throw. -/
def State.body (s : State A) : State A ⊕ Except StoiError A.Queue :=
  let (file, arrival) := s.file.getline s.arrival ' '
  if file.eof then .inr (.ok s.workload)
  else
    let (file, duration) := file.getline [] '\n'
    match stoi arrival with
    | .error e => .inr (.error e)
    | .ok a =>
        match stoi duration with
        | .error e => .inr (.error e)
        | .ok d =>
            let newP : Process := { arrival := a, firstRun := -1, duration := d, completion := -1 }
            .inl { workload := A.push s.workload newP, file := file, arrival := arrival }

end Reader

/-- `read_workload(filename)`, for at most `fuel` rounds; `none` is a file that cannot
be opened. -/
def readWorkload {A : PqueueArrival} (fuel : Nat) (file : Option (List Char)) :
    Option (Except StoiError A.Queue) :=
  match file with
  | none => some (.ok A.empty)
  | some text =>
      loop Reader.State.body fuel { workload := A.empty, file := .open text, arrival := [] }

/-- One line without its newline. -/
def workloadLine (p : Int × Int) : List Char := numeral p.1 ++ ' ' :: numeral p.2

/-- One line for each pair; `newline` says whether the last one ends with a newline. -/
def workloadText (newline : Bool) : List (Int × Int) → List Char
  | [] => []
  | [p] => workloadLine p ++ if newline then ['\n'] else []
  | p :: rest => workloadLine p ++ '\n' :: workloadText newline rest

/-- The process of a line. -/
def ofPair (p : Int × Int) : Process :=
  { arrival := p.1, firstRun := -1, duration := p.2, completion := -1 }

/-- The numbers of a line are `int`s. -/
def IsLine (p : Int × Int) : Prop := IsInt p.1 ∧ IsInt p.2

instance (p : Int × Int) : Decidable (IsLine p) :=
  inferInstanceAs (Decidable (IsInt p.1 ∧ IsInt p.2))

namespace Reader

variable {A : PqueueArrival} {workload : A.Queue} {str : List Char} {p : Int × Int}

theorem numeral_no_delim {n : Int} {delim : Char} (hdelim : delim = ' ' ∨ delim = '\n') :
    ∀ c ∈ numeral n, c ≠ delim := by
  intro c hc
  rcases mem_numeral hc with hdigit | rfl
  · refine ne_of_digit hdigit (Or.inl ?_)
    rcases hdelim with rfl | rfl <;> decide
  · rcases hdelim with rfl | rfl <;> decide

/-- A line is read, up to what `getline` leaves of its second half. -/
theorem body_line {rest : List Char} {file : InStream} (hp : IsLine p)
    (hsecond : (InStream.open rest).getline [] '\n' = (file, numeral p.2)) :
    State.body ⟨workload, .open (numeral p.1 ++ ' ' :: rest), str⟩ =
      .inl ⟨A.push workload (ofPair p), file, numeral p.1⟩ := by
  have hfirst := getline_word str rest (numeral_no_delim (n := p.1) (Or.inl rfl))
  have hopen : (InStream.open rest).eof = false := rfl
  simp only [State.body, hfirst, hopen, hsecond, Bool.false_eq_true, if_false, stoi_numeral hp.1,
    stoi_numeral hp.2]
  rfl

/-- Behind the last line the loop ends. -/
theorem body_end {file : InStream} (hend : file = .open [] ∨ file.eof = true) :
    State.body ⟨workload, file, str⟩ = .inr (.ok workload) := by
  have heof : (file.getline str ' ').1.eof = true := by
    rcases hend with rfl | heof
    · rfl
    · exact getline_eof heof
  simp only [State.body, heof, if_true]

/-- A line that ends with a newline. -/
theorem workloadText_cons {newline : Bool} {rest : List (Int × Int)}
    (hends : newline = true ∨ rest ≠ []) :
    workloadText newline (p :: rest) =
      numeral p.1 ++ ' ' :: (numeral p.2 ++ '\n' :: workloadText newline rest) := by
  cases rest with
  | nil =>
      obtain rfl : newline = true := hends.resolve_right (fun h => h rfl)
      show (numeral p.1 ++ ' ' :: numeral p.2) ++ ['\n'] = _
      rw [List.append_assoc, List.cons_append]
      rfl
  | cons q rest =>
      show (numeral p.1 ++ ' ' :: numeral p.2) ++ '\n' :: workloadText newline (q :: rest) = _
      rw [List.append_assoc, List.cons_append]

theorem numeral_ne_nil {n : Int} : numeral n ≠ [] := by
  rw [numeral_eq]
  split_ifs
  · exact Nat.toDigits_ne_nil
  · exact List.cons_ne_nil _ _

/-- **The whole file**: each round reads one line. -/
theorem loop_text (newline : Bool) {pairs : List (Int × Int)} (hpairs : ∀ p ∈ pairs, IsLine p)
    {fuel : Nat} (hfuel : pairs.length < fuel) :
    loop State.body fuel ⟨workload, .open (workloadText newline pairs), str⟩ =
      some (.ok ((pairs.map ofPair).foldl A.push workload)) := by
  induction pairs generalizing workload str fuel with
  | nil =>
      obtain ⟨fuel, rfl⟩ : ∃ k, fuel = k + 1 := ⟨fuel - 1, by omega⟩
      rw [workloadText, loop, body_end (Or.inl rfl)]
      rfl
  | cons p rest ih =>
      rw [List.length_cons] at hfuel
      obtain ⟨fuel, rfl⟩ : ∃ k, fuel = k + 1 := ⟨fuel - 1, by omega⟩
      have hp := hpairs p List.mem_cons_self
      have hmore : ∀ q ∈ rest, IsLine q := fun q hq => hpairs q (List.mem_cons_of_mem _ hq)
      have hword := numeral_no_delim (n := p.2) (Or.inr rfl)
      by_cases hends : newline = true ∨ rest ≠ []
      · rw [loop, workloadText_cons hends, body_line hp (getline_word _ _ hword)]
        exact ih hmore (by omega)
      · -- the last line: the file ends where its newline would be
        rw [not_or, Bool.not_eq_true, not_not] at hends
        obtain ⟨rfl, rfl⟩ := hends
        have hlast := getline_last [] hword
        rw [List.isEmpty_eq_false_iff.mpr numeral_ne_nil] at hlast
        obtain ⟨fuel, rfl⟩ : ∃ k, fuel = k + 1 := ⟨fuel - 1, by omega⟩
        have htext : workloadText false [p] = numeral p.1 ++ ' ' :: numeral p.2 := by
          rw [workloadText, workloadLine]
          exact List.append_nil _
        rw [loop, htext, body_line hp hlast]
        simp only
        rw [loop, body_end (Or.inr rfl)]
        rfl

end Reader

/-- **Workload files.** A file with a line for each pair, the last one with or without
a newline, is read into a queue that pops one process for each pair, in the
order of arrival and duration; nothing of its run is filled in. -/
theorem readWorkload_text {A : PqueueArrival} (newline : Bool) (pairs : List (Int × Int))
    (hpairs : ∀ p ∈ pairs, IsLine p) :
    ∃ workload : A.Queue,
      (∃ n, ∀ fuel, n < fuel →
        readWorkload fuel (some (workloadText newline pairs)) = some (.ok workload)) ∧
      (A.drain workload).Perm (pairs.map ofPair) ∧ (A.drain workload).Pairwise ArrivesFirst := by
  refine ⟨A.ofList (pairs.map ofPair), ⟨pairs.length, fun fuel hfuel => ?_⟩, ?_, ?_⟩
  · exact Reader.loop_text newline hpairs hfuel
  · rw [← Multiset.coe_eq_coe, (A.drain_spec _).1, PriorityQueue.items_ofList]
  · exact (A.drain_spec _).2.imp arrivalComparator_eq_false.mp

theorem readWorkload_text_two : ∃ workload : sortedByArrival.Queue,
    (∃ n, ∀ fuel, n < fuel →
      readWorkload fuel (some (workloadText false [(7, 20), (-3, 5)])) = some (.ok workload)) ∧
    (sortedByArrival.drain workload).Perm [⟨7, -1, 20, -1⟩, ⟨-3, -1, 5, -1⟩] ∧
    (sortedByArrival.drain workload).Pairwise ArrivesFirst :=
  readWorkload_text false [(7, 20), (-3, 5)] (by decide)

example : String.ofList (workloadText false [(7, 20), (-3, 5)]) = "7 20\n-3 5" := by
  decide

end Os377.Sched
