import Os377.Lib.WordStream
import Mathlib.Data.Char
import Mathlib.Data.Finset.Sort
import Mathlib.Data.List.Lex

/-!
# The index of a word list

`invertedIndex` of `p1-student/src/inverter.cpp`, a map from words to sets of document
numbers, and the loop that takes the words out of what `thisFile >> theWord` delivers:
letters are counted in `pos`, from `head` on, and whatever else comes ends a word, which
may be empty. The last character of `theWord` ends one too.
-/

namespace Os377.Inverter

open Os377.Lib Function

/-- `map<string, set<int>>` in which no set is empty. -/
structure Index where
  words : Finset (List Char)
  docs : List Char → Finset Nat
  mem_words : ∀ w, w ∈ words ↔ (docs w).Nonempty

/-- `string::substr` throws `out_of_range` -/
inductive Thrown where
  | outOfRange
  deriving DecidableEq, Repr

/-- `*i >= 'a' && *i <= 'z' || *i >= 'A' && *i <= 'Z'` -/
def isLetter (c : Char) : Bool :=
  ('a' ≤ c && c ≤ 'z') || ('A' ≤ c && c ≤ 'Z')

namespace Index

def empty : Index := ⟨∅, fun _ => ∅, fun _ => by simp⟩

/-- `invertedIndex[word].insert(fileNum)` -/
def insert (idx : Index) (word : List Char) (fileNum : Nat) : Index where
  words := Insert.insert word idx.words
  docs := update idx.docs word (Insert.insert fileNum (idx.docs word))
  mem_words := by
    intro w
    by_cases hw : w = word
    · subst hw
      simp
    · simp [hw, idx.mem_words w]

/-- `invertedIndex.erase(word)` -/
def erase (idx : Index) (word : List Char) : Index where
  words := idx.words.erase word
  docs := update idx.docs word ∅
  mem_words := by
    intro w
    by_cases hw : w = word
    · subst hw
      simp
    · simp [hw, idx.mem_words w]

/-- A line of the result. -/
def line (word : List Char) (nums : List Nat) : List Char :=
  word ++ [':'] ++ nums.flatMap (fun num : Nat => ' ' :: numeral num) ++ ['\n']

/-- `returnString`, from the map as it is iterated. -/
def returnString (idx : Index) : List Char :=
  idx.words.sort.flatMap fun word => line word (idx.docs word).sort

end Index

/-- `s.substr(pos, n)` -/
def substr (s : List Char) (pos n : Nat) : Except Thrown (List Char) :=
  if pos ≤ s.length then .ok ((s.drop pos).take n) else .error .outOfRange

/-- The `for` loop over `theWord`, from the character where it has come to, with
unbounded `head`, `pt`, `pos` and `fileNum`: `indexFromInt` has the `int`s. -/
def indexFrom (fileNum : Nat) (theWord : List Char) :
    List Char → Nat → Nat → Nat → Index → Except Thrown Index
  | [], _, _, _, idx => .ok idx
  | c :: rest, head, pt, pos, idx => do
      let idx ←
        if rest = [] then
          if isLetter c then
            let word ← substr theWord head (pos + 1)
            pure (idx.insert word fileNum)
          else
            let word ← substr theWord head pos
            pure (idx.insert word fileNum)
        else pure idx
      if isLetter c then indexFrom fileNum theWord rest head (pt + 1) (pos + 1) idx
      else
        let word ← substr theWord head pos
        indexFrom fileNum theWord rest (pt + 1) (pt + 1) 0 (idx.insert word fileNum)

/-- What the body of `while (!thisFile.eof())` does with `theWord`. -/
def indexWord (fileNum : Nat) (theWord : List Char) (idx : Index) : Except Thrown Index :=
  indexFrom fileNum theWord theWord 0 0 0 idx

/-- `idx'` has what `idx` has, and the number `fileNum` for the words of `new`. -/
def Adds (idx idx' : Index) (fileNum : Nat) (new : List Char → Prop) : Prop :=
  ∀ w ≠ [], ∀ n, n ∈ idx'.docs w ↔ n ∈ idx.docs w ∨ n = fileNum ∧ new w

section Words

variable {idx idx' : Index} {fileNum n : Nat} {w word : List Char}

theorem Index.mem_insert :
    n ∈ (idx.insert word fileNum).docs w ↔ n ∈ idx.docs w ∨ n = fileNum ∧ w = word := by
  by_cases hw : w = word
  · subst hw
    simp [Index.insert, or_comm]
  · simp [Index.insert, hw]

theorem Index.mem_erase : n ∈ (idx.erase word).docs w ↔ n ∈ idx.docs w ∧ w ≠ word := by
  by_cases hw : w = word
  · subst hw
    simp [Index.erase]
  · simp [Index.erase, hw]

theorem Index.returnString_empty : Index.empty.returnString = [] := by
  simp [Index.returnString, Index.empty]

/-- The word that stands where `head` and `pos` point to. -/
theorem substr_word (pre word post : List Char) :
    substr (pre ++ word ++ post) pre.length word.length = .ok word := by
  rw [substr, if_pos (by simp), List.append_assoc, List.drop_left, List.take_left]

theorem Adds.insert {new : List Char → Prop} (h : ∀ w ≠ [], (new w ↔ w = word)) :
    Adds idx (idx.insert word fileNum) fileNum new := by
  intro w hw n
  rw [Index.mem_insert, h w hw]

/-- A word is added first. -/
theorem Adds.after {new rest : List Char → Prop}
    (hadds : Adds (idx.insert word fileNum) idx' fileNum rest)
    (h : ∀ w ≠ [], (new w ↔ w = word ∨ rest w)) : Adds idx idx' fileNum new := by
  intro w hw n
  rw [hadds w hw n, Index.mem_insert, h w hw, or_assoc, ← and_or_left]

/-- The runs of letters that are over, and those behind the separator. -/
theorem isRun_word {run rest : List Char} {c : Char} (hrun : ∀ c ∈ run, isLetter c = true)
    (hc : isLetter c = false) (hw : w ≠ []) :
    IsRun isLetter (run ++ c :: rest) w ↔ w = run ∨ IsRun isLetter rest w := by
  rw [isRun_separator hc, isRun_all hrun, and_iff_left hw]

theorem indexFrom_letter {theWord rest : List Char} {c : Char} {head pt pos : Nat}
    (hrest : rest ≠ []) (hc : isLetter c = true) :
    indexFrom fileNum theWord (c :: rest) head pt pos idx =
      indexFrom fileNum theWord rest head (pt + 1) (pos + 1) idx := by
  rw [indexFrom, if_neg hrest]
  show (if isLetter c = true then _ else _) = _
  rw [if_pos hc]

theorem indexFrom_other {theWord rest : List Char} {c : Char} {head pt pos : Nat}
    (hrest : rest ≠ []) (hc : isLetter c = false) (hword : substr theWord head pos = .ok word) :
    indexFrom fileNum theWord (c :: rest) head pt pos idx =
      indexFrom fileNum theWord rest (pt + 1) (pt + 1) 0 (idx.insert word fileNum) := by
  rw [indexFrom, if_neg hrest]
  show (if isLetter c = true then _ else _) = _
  rw [if_neg (by simp [hc]), hword]
  rfl

/-- The loop has come behind `run`, which `head` and `pos` delimit: it adds the words of
`run` and what follows. -/
theorem indexFrom_adds (pre run : List Char) {rest : List Char} (idx : Index) (hrest : rest ≠ [])
    (hrun : ∀ c ∈ run, isLetter c = true) :
    ∃ idx', indexFrom fileNum (pre ++ run ++ rest) rest pre.length (pre.length + run.length)
        run.length idx = .ok idx' ∧ Adds idx idx' fileNum (IsRun isLetter (run ++ rest)) := by
  induction rest generalizing pre run idx with
  | nil => exact absurd rfl hrest
  | cons c rest ih =>
      have hword := substr_word pre run (c :: rest)
      cases hc : isLetter c with
      | true =>
          have hrun' : ∀ d ∈ run ++ [c], isLetter d = true := by
            intro d hd
            rcases List.mem_append.mp hd with hd | hd
            · exact hrun d hd
            · rw [List.mem_singleton.mp hd, hc]
          have hsplit : run ++ c :: rest = run ++ [c] ++ rest := by simp
          cases rest with
          | nil =>
              -- the last character is a letter: the word ends with it
              have hlast := substr_word pre (run ++ [c]) []
              rw [List.append_nil, ← List.append_assoc, List.length_append,
                List.length_singleton] at hlast
              refine ⟨idx.insert (run ++ [c]) fileNum, ?_, Adds.insert fun w hw => ?_⟩
              · simp only [indexFrom, hc, if_true, hlast]
                rfl
              · rw [isRun_all hrun', and_iff_left hw]
          | cons d rest =>
              obtain ⟨idx', hstep, hadds⟩ := ih pre _ idx (by simp) hrun'
              refine ⟨idx', ?_, hsplit ▸ hadds⟩
              rw [indexFrom_letter (by simp) hc, List.append_assoc, hsplit, ← List.append_assoc]
              rw [List.length_append, List.length_singleton, ← Nat.add_assoc] at hstep
              exact hstep
      | false =>
          cases rest with
          | nil =>
              -- the last character is none: the word before it is inserted twice
              refine ⟨(idx.insert run fileNum).insert run fileNum, ?_, ?_⟩
              · rw [indexFrom, if_pos rfl, if_neg (by simp [hc]), hword]
                show (if isLetter c = true then _ else _) = _
                rw [if_neg (by simp [hc])]
                rfl
              · refine Adds.after (Adds.insert fun w _ => Iff.rfl) fun w hw => ?_
                rw [isRun_word hrun hc hw, iff_false_intro not_isRun_nil, or_false, or_self]
          | cons d rest =>
              -- the word, which may be empty, is inserted, and the next one begins behind `c`
              obtain ⟨idx', hstep, hadds⟩ := ih (pre ++ run ++ [c]) []
                (idx.insert run fileNum) (by simp) (by simp)
              refine ⟨idx', ?_, hadds.after fun w hw => isRun_word hrun hc hw⟩
              have hsplit : pre ++ run ++ c :: d :: rest =
                  pre ++ run ++ [c] ++ [] ++ d :: rest := by
                simp
              rw [indexFrom_other (by simp) hc hword, hsplit]
              rw [List.length_append, List.length_append, List.length_singleton] at hstep
              exact hstep

/-- **The words of `theWord` are added**, and no other but the empty one. -/
theorem indexWord_adds (fileNum : Nat) (theWord : List Char) (idx : Index) :
    ∃ idx', indexWord fileNum theWord idx = .ok idx' ∧
      Adds idx idx' fileNum (IsRun isLetter theWord) := by
  cases theWord with
  | nil =>
      refine ⟨idx, rfl, fun w hw n => ?_⟩
      rw [iff_false_intro not_isRun_nil, and_false, or_false]
  | cons c rest => exact indexFrom_adds [] [] idx (by simp) (by simp)

end Words

end Os377.Inverter
