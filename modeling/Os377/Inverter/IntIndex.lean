import Mathlib.Algebra.Ring.CharZero
import Os377.Lib.WrapInt
import Os377.Inverter.Build

/-!
# The index on machine integers

`head`, `pt`, `pos` and `fileNum` are `int`s, and `substr` takes them as sizes.
`buildInvertedIndexInt` is the program with the arithmetic of the compiled code. While
every word of a file and the number of the documents fit into an `int` it does what the
program on unbounded numbers does, and the index is exact; a longer word can come out
with a character that is no letter.
-/

namespace Os377.Inverter

open Os377.Lib Function

/-! ## The program -/

/-- The order in which a `set`, or a `map` by its keys, is iterated. -/
def inOrder {α : Type} [LinearOrder α] (s : Finset α) : List α := s.sort

@[simp] theorem inOrder_singleton {α : Type} [LinearOrder α] (a : α) : inOrder {a} = [a] :=
  Finset.sort_singleton _ a

/-- `map<string, set<int>>` in which no set is empty. -/
structure IndexInt where
  words : Finset (List Char)
  docs : List Char → Finset Int
  mem_words : ∀ w, w ∈ words ↔ (docs w).Nonempty

namespace IndexInt

def empty : IndexInt := ⟨∅, fun _ => ∅, fun _ => by simp⟩

/-- `invertedIndex[word].insert(fileNum)` -/
def insert (idx : IndexInt) (word : List Char) (fileNum : Int) : IndexInt where
  words := Insert.insert word idx.words
  docs := update idx.docs word (Insert.insert fileNum (idx.docs word))
  mem_words := by
    intro w
    by_cases hw : w = word
    · subst hw
      simp
    · simp [hw, idx.mem_words w]

/-- `invertedIndex.erase(word)` -/
def erase (idx : IndexInt) (word : List Char) : IndexInt where
  words := idx.words.erase word
  docs := update idx.docs word ∅
  mem_words := by
    intro w
    by_cases hw : w = word
    · subst hw
      simp
    · simp [hw, idx.mem_words w]

/-- A line of the result. -/
def line (word : List Char) (nums : List Int) : List Char :=
  word ++ [':'] ++ nums.flatMap (fun num => ' ' :: numeral num) ++ ['\n']

/-- `returnString`, from the map as it is iterated. -/
def returnString (idx : IndexInt) : List Char :=
  (inOrder idx.words).flatMap fun word => line word (inOrder (idx.docs word))

end IndexInt

/-- `s.substr(pos, n)`, called with `int`s. -/
def substrInt (s : List Char) (pos n : Int) : Except Thrown (List Char) :=
  substr s (toSize pos) (toSize n)

/-- The `for` loop over `theWord`, from the character where it has come to. -/
def indexFromInt (fileNum : Int) (theWord : List Char) :
    List Char → Int → Int → Int → IndexInt → Except Thrown IndexInt
  | [], _, _, _, idx => .ok idx
  | c :: rest, head, pt, pos, idx => do
      let idx ←
        if rest = [] then
          if isLetter c then
            let word ← substrInt theWord head (wrap (pos + 1))
            pure (idx.insert word fileNum)
          else
            let word ← substrInt theWord head pos
            pure (idx.insert word fileNum)
        else pure idx
      if isLetter c then
        indexFromInt fileNum theWord rest head (wrap (pt + 1)) (wrap (pos + 1)) idx
      else
        let word ← substrInt theWord head pos
        indexFromInt fileNum theWord rest (wrap (pt + 1)) (wrap (pt + 1)) 0
          (idx.insert word fileNum)

/-- What the body of `while (!thisFile.eof())` does with `theWord`. -/
def indexWordInt (fileNum : Int) (theWord : List Char) (idx : IndexInt) :
    Except Thrown IndexInt :=
  indexFromInt fileNum theWord theWord 0 0 0 idx

/-- The variables of `build_inverted_index`. -/
structure InvertingInt where
  list : FileStream
  fileNum : Int
  index : IndexInt
  thisFile : Option FileStream

/-- One iteration of the inner loop, where there is a `thisFile`, or else of the outer one;
the test of a loop that ends belongs to it. -/
def iterationInt (fs : List Char → Option Source) (s : InvertingInt) :
    InvertingInt ⊕ Except Thrown IndexInt :=
  match s.thisFile with
  | some thisFile =>
      if thisFile.eof then .inl { s with fileNum := wrap (s.fileNum + 1), thisFile := none }
      else
        let (theWord, thisFile) := thisFile.word
        match indexWordInt s.fileNum theWord s.index with
        | .ok index => .inl { s with index := index, thisFile := some thisFile }
        | .error e => .inr (.error e)
  | none =>
      if s.list.eof then .inr (.ok s.index)
      else
        let (nameBuf, list) := s.list.word
        match openFile fs nameBuf with
        | none => .inl { s with list := list }
        | some source =>
            let thisFile := FileStream.open source
            if thisFile.eof then .inl { s with list := list }
            else .inl { s with list := list, thisFile := some thisFile }

/-- The string that is returned; `none` when `fuel` iterations are not enough. -/
def buildInvertedIndexInt (fs : List Char → Option Source) (fuel : Nat) (filename : List Char) :
    Option (Except Thrown (List Char)) :=
  match openFile fs filename with
  | none => some (.ok [])
  | some source =>
      let list := FileStream.open source
      if list.eof then some (.ok [])
      else
        (loop (iterationInt fs) fuel ⟨list, 0, IndexInt.empty, none⟩).map fun result =>
          result.map fun index => (index.erase []).returnString

/-! ## Words that fit -/

/-- The index with its numbers as `int`s. -/
def Index.toInt (idx : Index) : IndexInt where
  words := idx.words
  docs w := (idx.docs w).map Nat.castEmbedding
  mem_words w := by rw [idx.mem_words, Finset.map_nonempty]

section Words

variable {idx : Index} {word theWord : List Char} {fileNum : Nat}

theorem IndexInt.ext {a b : IndexInt} (hwords : a.words = b.words) (hdocs : a.docs = b.docs) :
    a = b := by
  cases a
  cases b
  cases hwords
  cases hdocs
  rfl

theorem Index.toInt_empty : Index.empty.toInt = IndexInt.empty :=
  IndexInt.ext rfl rfl

theorem Index.toInt_insert :
    (idx.insert word fileNum).toInt = idx.toInt.insert word (fileNum : Int) := by
  have hmap := Finset.map_insert (Nat.castEmbedding : Nat ↪ Int) fileNum (idx.docs word)
  refine IndexInt.ext rfl ((comp_update (Finset.map Nat.castEmbedding) idx.docs word _).trans ?_)
  exact congrArg (update idx.toInt.docs word) hmap

theorem Index.toInt_erase : (idx.erase word).toInt = idx.toInt.erase word :=
  IndexInt.ext rfl (comp_update (Finset.map Nat.castEmbedding) idx.docs word ∅)

/-- The same string. -/
theorem Index.toInt_returnString : idx.toInt.returnString = idx.returnString := by
  have hsort : ∀ s : Finset Nat,
      inOrder (s.map (Nat.castEmbedding : Nat ↪ Int)) = s.sort.map (fun n : Nat => (n : Int)) :=
    fun s => (Finset.map_sort _ s _ _ fun a _ b _ => Int.ofNat_le.symm).symm
  show (idx.words.sort.flatMap fun word => IndexInt.line word (inOrder ((idx.docs word).map _)))
    = idx.words.sort.flatMap fun word => Index.line word (idx.docs word).sort
  refine congrArg (fun g => idx.words.sort.flatMap g) (funext fun word => ?_)
  rw [hsort, IndexInt.line, Index.line, List.flatMap_map]

/-- The numbers that stay below the length of the word. -/
theorem substrInt_natCast {pos n : Nat} (hpos : pos < 2 ^ 31) (hn : n < 2 ^ 31) :
    substrInt theWord pos n = substr theWord pos n := by
  rw [substrInt, toSize_natCast (by omega), toSize_natCast (by omega)]

/-- The loop over a word, or the rest of one, that fits. -/
theorem indexFromInt_eq {rest : List Char} {head pt pos : Nat} (hhead : head + pos ≤ pt)
    (hfits : pt + rest.length < 2 ^ 31) :
    indexFromInt fileNum theWord rest head pt pos idx.toInt =
      (indexFrom fileNum theWord rest head pt pos idx).map Index.toInt := by
  induction rest generalizing head pt pos idx with
  | nil => rfl
  | cons c rest ih =>
      rw [List.length_cons] at hfits
      have hpt : wrap ((pt : Int) + 1) = ((pt + 1 : Nat) : Int) :=
        wrap_natCast (n := pt + 1) (by omega)
      have hpos : wrap ((pos : Int) + 1) = ((pos + 1 : Nat) : Int) :=
        wrap_natCast (n := pos + 1) (by omega)
      have hword : substrInt theWord head pos = substr theWord head pos :=
        substrInt_natCast (by omega) (by omega)
      have hlast : substrInt theWord head (pos + 1 : Nat) = substr theWord head (pos + 1) :=
        substrInt_natCast (by omega) (by omega)
      rw [indexFromInt, indexFrom, hpt, hpos, hword, hlast]
      cases hc : isLetter c with
      | true =>
          have hrest : ∀ idx : Index, indexFromInt fileNum theWord rest head ((pt + 1 : Nat) : Int)
              ((pos + 1 : Nat) : Int) idx.toInt =
              (indexFrom fileNum theWord rest head (pt + 1) (pos + 1) idx).map Index.toInt :=
            fun idx => ih (by omega) (by omega)
          by_cases hnil : rest = []
          · simp only [if_pos hnil, if_true]
            cases substr theWord head (pos + 1) with
            | error e => rfl
            | ok word =>
                have hstep := hrest (idx.insert word fileNum)
                rw [Index.toInt_insert] at hstep
                exact hstep
          · simp only [if_neg hnil, if_true]
            exact hrest idx
      | false =>
          have hrest : ∀ idx : Index, (do
                let word ← substr theWord head pos
                indexFromInt fileNum theWord rest ((pt + 1 : Nat) : Int) ((pt + 1 : Nat) : Int) 0
                  (idx.toInt.insert word fileNum)) =
              (do
                let word ← substr theWord head pos
                indexFrom fileNum theWord rest (pt + 1) (pt + 1) 0 (idx.insert word fileNum)).map
                  Index.toInt := by
            intro idx
            cases substr theWord head pos with
            | error e => rfl
            | ok word =>
                have hstep : indexFromInt fileNum theWord rest ((pt + 1 : Nat) : Int)
                    ((pt + 1 : Nat) : Int) ((0 : Nat) : Int) (idx.insert word fileNum).toInt =
                    (indexFrom fileNum theWord rest (pt + 1) (pt + 1) 0
                      (idx.insert word fileNum)).map Index.toInt := ih (by omega) (by omega)
                rw [Index.toInt_insert] at hstep
                exact hstep
          by_cases hnil : rest = []
          · simp only [if_pos hnil, Bool.false_eq_true, if_false]
            cases hsub : substr theWord head pos with
            | error e => rfl
            | ok word =>
                have hstep := hrest (idx.insert word fileNum)
                rw [hsub, Index.toInt_insert] at hstep
                exact hstep
          · simp only [if_neg hnil, Bool.false_eq_true, if_false]
            exact hrest idx

theorem indexWordInt_eq (hfits : theWord.length < 2 ^ 31) :
    indexWordInt fileNum theWord idx.toInt = (indexWord fileNum theWord idx).map Index.toInt :=
  @indexFromInt_eq idx theWord fileNum theWord 0 0 0 le_rfl (by omega)

end Words

/-! ## Both programs, side by side -/

/-- Every word of a file that can be opened is shorter than `2 ^ 31`, and the numbers of
the documents are below it. -/
structure Fits (fs : List Char → Option Source) (filename : List Char) : Prop where
  words : ∀ name ∈ fileNames fs filename, ∀ source, openFile fs name = some source →
    ∀ word ∈ runs inWord source.text, word.length < 2 ^ 31
  documents : (documents fs filename).length ≤ 2 ^ 31

/-- What both programs have to go through still fits. -/
structure InStep (fs : List Char → Option Source) (s : Inverting) (t : InvertingInt) : Prop where
  state : t = ⟨s.list, wrap s.fileNum, s.index.toInt, s.thisFile⟩
  words : ∀ f, s.thisFile = some f → ∃ words, f.Ahead words ∧ ∀ word ∈ words,
    word.length < 2 ^ 31
  names : ∃ names, s.list.Ahead names ∧
    (∀ name ∈ names, ∀ source, openFile fs name = some source →
      ∀ word ∈ runs inWord source.text, word.length < 2 ^ 31) ∧
    s.fileNum + s.thisFile.isSome.toNat +
      (names.filterMap fun name => (openFile fs name).map Source.text).length ≤ 2 ^ 31

section Loops

variable {fs : List Char → Option Source} {list thisFile : FileStream} {fileNum : Nat}
  {index : Index} {t : InvertingInt}

theorem wrap_succ (n : Nat) : wrap (wrap n + 1) = wrap ((n + 1 : Nat) : Int) := by
  rw [wrap, wrap, Int.bmod_add_bmod, wrap, Nat.cast_succ]

/-- A word, or the end, of a file whose words fit. -/
theorem ahead_word {f : FileStream} {words : List (List Char)} (h : f.Ahead words)
    (hfits : ∀ word ∈ words, word.length < 2 ^ 31) :
    f.word.1.length < 2 ^ 31 ∧
      ∃ words, f.word.2.Ahead words ∧ ∀ word ∈ words, word.length < 2 ^ 31 := by
  cases words with
  | nil =>
      obtain ⟨hword, hend, -⟩ := FileStream.word_of_nil h
      exact ⟨by rw [hword]; decide, [], Or.inr ⟨rfl, hend⟩, by simp⟩
  | cons word words =>
      obtain ⟨hword, hahead, -⟩ := FileStream.word_of_cons h
      exact ⟨hword ▸ hfits word List.mem_cons_self, words, hahead,
        fun w hw => hfits w (List.mem_cons_of_mem _ hw)⟩

/-- One iteration of the inner loop. -/
theorem InStep.inner (h : InStep fs ⟨list, fileNum, index, some thisFile⟩ t) :
    ∃ s' t', iteration fs ⟨list, fileNum, index, some thisFile⟩ = .inl s' ∧
      iterationInt fs t = .inl t' ∧ InStep fs s' t' := by
  obtain ⟨rfl, hwords, names, hahead, hfits, hcount⟩ := h
  obtain ⟨words, hfile, hshort⟩ := hwords thisFile rfl
  have hcount' : fileNum + 1 +
      (names.filterMap fun name => (openFile fs name).map Source.text).length ≤ 2 ^ 31 := hcount
  cases heof : thisFile.eof with
  | true =>
      refine ⟨⟨list, fileNum + 1, index, none⟩, ⟨list, wrap (wrap fileNum + 1), index.toInt, none⟩,
        ?_, ?_, by rw [wrap_succ], by simp, names, hahead, hfits, hcount'⟩
      · rw [iteration]
        simp only [heof, if_true]
      · rw [iterationInt]
        simp only [heof, if_true]
  | false =>
      obtain ⟨hlen, hrest⟩ := ahead_word hfile hshort
      obtain ⟨index', hword, -⟩ := indexWord_adds fileNum thisFile.word.1 index
      have hwordInt : indexWordInt fileNum thisFile.word.1 index.toInt = _ := indexWordInt_eq hlen
      rw [hword] at hwordInt
      have hnum : wrap fileNum = fileNum := wrap_natCast (by omega)
      refine ⟨⟨list, fileNum, index', some thisFile.word.2⟩,
        ⟨list, wrap fileNum, index'.toInt, some thisFile.word.2⟩, ?_, ?_, rfl, ?_,
        names, hahead, hfits, hcount⟩
      · rw [iteration]
        simp only [heof, Bool.false_eq_true, if_false, hword]
      · rw [iterationInt]
        simp only [heof, Bool.false_eq_true, if_false, hnum, hwordInt]
        rfl
      · rintro f ⟨⟩
        exact hrest

/-- One iteration of the outer loop, which goes on or comes to its end. -/
theorem InStep.outer (h : InStep fs ⟨list, fileNum, index, none⟩ t) :
    (∃ s' t', iteration fs ⟨list, fileNum, index, none⟩ = .inl s' ∧
      iterationInt fs t = .inl t' ∧ InStep fs s' t') ∨
    (iteration fs ⟨list, fileNum, index, none⟩ = .inr (.ok index) ∧
      iterationInt fs t = .inr (.ok index.toInt)) := by
  obtain ⟨rfl, -, names, hahead, hfits, hcount⟩ := h
  have hcount' : fileNum +
      (names.filterMap fun name => (openFile fs name).map Source.text).length ≤ 2 ^ 31 := hcount
  cases heof : list.eof with
  | true =>
      right
      constructor
      · rw [iteration]
        simp only [heof, if_true]
      · rw [iterationInt]
        simp only [heof, if_true]
  | false =>
      left
      obtain ⟨names', hahead', hfits', hcount'', hsource⟩ : ∃ names', list.word.2.Ahead names' ∧
          (∀ name ∈ names', ∀ source, openFile fs name = some source →
            ∀ word ∈ runs inWord source.text, word.length < 2 ^ 31) ∧
          fileNum + (openFile fs list.word.1).isSome.toNat +
            (names'.filterMap fun name => (openFile fs name).map Source.text).length ≤ 2 ^ 31 ∧
          ∀ source, openFile fs list.word.1 = some source →
            ∀ word ∈ runs inWord source.text, word.length < 2 ^ 31 := by
        cases names with
        | nil =>
            obtain ⟨hword, hend, -⟩ := FileStream.word_of_nil hahead
            rw [hword, openFile_nil]
            exact ⟨[], Or.inr ⟨rfl, hend⟩, by simp, hcount', by simp⟩
        | cons name names =>
            obtain ⟨hword, hrest, -⟩ := FileStream.word_of_cons hahead
            rw [hword]
            refine ⟨names, hrest, fun n hn => hfits n (List.mem_cons_of_mem _ hn), ?_,
              hfits name List.mem_cons_self⟩
            cases hfile : openFile fs name with
            | none =>
                rw [List.filterMap_cons_none (by rw [hfile]; rfl)] at hcount'
                exact hcount'
            | some source =>
                rw [List.filterMap_cons_some (by rw [hfile]; rfl), List.length_cons] at hcount'
                show fileNum + 1 + _ ≤ _
                omega
      cases hfile : openFile fs list.word.1 with
      | none =>
          rw [hfile] at hcount''
          refine ⟨_, ⟨list.word.2, wrap fileNum, index.toInt, none⟩, iteration_closed heof hfile,
            ?_, rfl, by simp, names', hahead', hfits', hcount''⟩
          rw [iterationInt]
          simp only [heof, Bool.false_eq_true, if_false, hfile]
      | some source =>
          have hfresh : (FileStream.open source).eof = false := rfl
          rw [hfile] at hcount''
          refine ⟨_, ⟨list.word.2, wrap fileNum, index.toInt, some (FileStream.open source)⟩,
            iteration_opened heof hfile, ?_, rfl, ?_, names', hahead', hfits', hcount''⟩
          · rw [iterationInt]
            simp only [heof, Bool.false_eq_true, if_false, hfile, hfresh]
          · rintro f ⟨⟩
            exact ⟨_, FileStream.ahead_open source, hsource source hfile⟩

/-- The loop on machine integers ends as the loop on unbounded numbers does. -/
theorem InStep.loop {s : Inverting} {fuel : Nat} {r : Except Thrown Index} (h : InStep fs s t)
    (hrun : Lib.loop (iteration fs) fuel s = some r) :
    Lib.loop (iterationInt fs) fuel t = some (r.map Index.toInt) := by
  have hstep : ∀ s t, InStep fs s t →
      (∃ s' t', iteration fs s = .inl s' ∧ iterationInt fs t = .inl t' ∧ InStep fs s' t') ∨
      (∃ r r', iteration fs s = .inr r ∧ iterationInt fs t = .inr r' ∧
        r' = r.map Index.toInt) := by
    rintro ⟨list, fileNum, index, f⟩ t h
    cases f with
    | some f => exact Or.inl h.inner
    | none =>
        rcases h.outer with hgo | ⟨hb, hb'⟩
        · exact Or.inl hgo
        · exact Or.inr ⟨_, _, hb, hb', rfl⟩
  obtain ⟨r', hrun', rfl⟩ := loop_lockstep hstep h hrun
  exact hrun'

/-- **Both programs return the same**, when everything fits. -/
theorem buildInvertedIndexInt_eq {filename text : List Char} {fuel : Nat}
    (hfits : Fits fs filename) (hrun : buildInvertedIndex fs fuel filename = some (.ok text)) :
    buildInvertedIndexInt fs fuel filename = some (.ok text) := by
  cases hfile : openFile fs filename with
  | none =>
      rw [buildInvertedIndex, hfile] at hrun
      rw [buildInvertedIndexInt, hfile]
      exact hrun
  | some source =>
      have hnames : fileNames fs filename = runs inWord source.text := by rw [fileNames, hfile]
      have hfresh : (FileStream.open source).eof = false := rfl
      rw [buildInvertedIndex, hfile] at hrun
      simp only [hfresh, Bool.false_eq_true, if_false, Option.map_eq_some_iff] at hrun
      obtain ⟨r, hrun, htext⟩ := hrun
      have hstart : InStep fs ⟨FileStream.open source, 0, Index.empty, none⟩
          ⟨FileStream.open source, 0, IndexInt.empty, none⟩ := by
        have hzero : wrap ((0 : Nat) : Int) = 0 := wrap_natCast (n := 0) (by omega)
        refine ⟨by rw [Index.toInt_empty, hzero], by simp, _, FileStream.ahead_open source,
          hnames ▸ hfits.words, ?_⟩
        have hdocs := hfits.documents
        rw [documents, hnames] at hdocs
        rw [Option.isSome_none, Bool.toNat_false, Nat.add_zero, Nat.zero_add]
        exact hdocs
      rw [buildInvertedIndexInt, hfile]
      simp only [hfresh, Bool.false_eq_true, if_false, hstart.loop hrun, Option.map_some,
        Option.some.injEq]
      cases r with
      | error e => cases htext
      | ok index =>
          rw [← htext]
          show Except.ok (index.toInt.erase []).returnString = Except.ok _
          rw [← Index.toInt_erase, Index.toInt_returnString]

end Loops

section Results

variable {fs : List Char → Option Source} {filename : List Char}

/-- `text` has a line for each maximal run of letters of the documents, in the order of
the words, with the numbers of the documents it occurs in, in their order. -/
def ExactIndex (docs : List (List Char)) (text : List Char) : Prop :=
  ∃ entries : List (List Char × List Nat),
    text = entries.flatMap (fun e => Index.line e.1 e.2) ∧
    (entries.map Prod.fst).Pairwise (· < ·) ∧
    (∀ w, w ∈ entries.map Prod.fst ↔ ∃ doc ∈ docs, IsRun isLetter doc w) ∧
    ∀ e ∈ entries, e.2.Pairwise (· < ·) ∧ ∀ n, n ∈ e.2 ↔
      ∃ doc, docs[n]? = some doc ∧ IsRun isLetter doc e.1

/-- An index of the words of the documents is printed exactly. -/
theorem exact_returnString {docs : List (List Char)} {index : Index}
    (h : ∀ w n, n ∈ index.docs w ↔ Occurs docs 0 w n) : ExactIndex docs index.returnString := by
  have hoccurs : ∀ w n, n ∈ index.docs w ↔ ∃ doc, docs[n]? = some doc ∧ IsRun isLetter doc w := by
    intro w n
    rw [h w n]
    constructor
    · rintro ⟨k, doc, rfl, hdoc, hrun⟩
      exact ⟨doc, by rwa [Nat.zero_add], hrun⟩
    · rintro ⟨doc, hdoc, hrun⟩
      exact ⟨n, doc, (Nat.zero_add n).symm, hdoc, hrun⟩
  have hwords : (index.words.sort.map fun w => (w, (index.docs w).sort)).map Prod.fst =
      index.words.sort := by
    rw [List.map_map]
    exact List.map_id _
  refine ⟨index.words.sort.map fun w => (w, (index.docs w).sort), ?_, ?_, fun w => ?_, ?_⟩
  · rw [List.flatMap_map]
    rfl
  · rw [hwords]
    exact (Finset.sortedLT_sort index.words).pairwise
  · rw [hwords, Finset.mem_sort, index.mem_words]
    constructor
    · rintro ⟨n, hn⟩
      obtain ⟨doc, hdoc, hrun⟩ := (hoccurs w n).mp hn
      exact ⟨doc, List.mem_of_getElem? hdoc, hrun⟩
    · rintro ⟨doc, hdoc, hrun⟩
      obtain ⟨n, hn⟩ := List.mem_iff_getElem?.mp hdoc
      exact ⟨n, (hoccurs w n).mpr ⟨doc, hn, hrun⟩⟩
  · intro e he
    obtain ⟨w, -, rfl⟩ := List.mem_map.mp he
    refine ⟨(Finset.sortedLT_sort (index.docs w)).pairwise, fun n => ?_⟩
    rw [Finset.mem_sort]
    exact hoccurs w n

/-- **The inverted index is exact.** With files that can be read to their ends, words
shorter than `2 ^ 31` and no more documents than that, the program returns the exact
index of its documents. -/
theorem index_exact (fs : List Char → Option Source) (filename : List Char)
    (h : Readable fs filename) (hfits : Fits fs filename) :
    ∃ text, ExactIndex (documents fs filename) text ∧
      ∃ enough, ∀ fuel, enough ≤ fuel →
        buildInvertedIndexInt fs fuel filename = some (.ok text) := by
  obtain ⟨index, ⟨enough, hrun⟩, hdocs⟩ := build_readable h
  exact ⟨index.returnString, exact_returnString hdocs, enough, fun fuel hfuel =>
    buildInvertedIndexInt_eq hfits (hrun fuel hfuel)⟩

/-- A list with one name, of a file with the given text. -/
def fileListed (text : List Char) (path : List Char) : Option Source :=
  if path = ['l'] then some ⟨['f', '\n'], false⟩
  else if path = ['f'] then some ⟨text, false⟩
  else none

theorem openFile_fileListed (text : List Char) :
    openFile (fileListed text) ['l'] = some ⟨['f', '\n'], false⟩ ∧
      openFile (fileListed text) ['f'] = some ⟨text, false⟩ :=
  ⟨rfl, rfl⟩

theorem fileNames_fileListed (text : List Char) : fileNames (fileListed text) ['l'] = [['f']] := by
  have hlist : runs inWord ['f', '\n'] = [['f']] := by
    rw [← runs_nil (p := inWord)]
    exact runs_single_cons (by decide) (by decide)
  exact hlist

theorem readable_fileListed (text : List Char) : Readable (fileListed text) ['l'] := by
  refine ⟨fun source hsource => ?_, fun name hname source hsource => ?_⟩
  · rw [(openFile_fileListed text).1] at hsource
    rw [← Option.some.inj hsource]
  · rw [fileNames_fileListed, List.mem_singleton] at hname
    subst hname
    rw [(openFile_fileListed text).2] at hsource
    rw [← Option.some.inj hsource]

theorem documents_fileListed (text : List Char) : documents (fileListed text) ['l'] = [text] := by
  rw [documents, fileNames_fileListed]
  rfl

/-- A file with two words. -/
theorem index_exact_two_words :
    ∃ text, ExactIndex [['a', '1', 'b']] text ∧
      ∃ enough, ∀ fuel, enough ≤ fuel →
        buildInvertedIndexInt (fileListed ['a', '1', 'b']) fuel ['l'] = some (.ok text) := by
  have hfits : Fits (fileListed ['a', '1', 'b']) ['l'] := by
    refine ⟨fun name hname source hsource word hword => ?_, ?_⟩
    · rw [fileNames_fileListed, List.mem_singleton] at hname
      subst hname
      rw [(openFile_fileListed _).2] at hsource
      obtain rfl := Option.some.inj hsource
      exact (mem_runs_iff.mp hword).length_le.trans_lt (by decide)
    · rw [documents_fileListed]
      exact Nat.one_le_two_pow
  rw [← documents_fileListed]
  exact index_exact _ ['l'] (readable_fileListed _) hfits

/-! ## A word that does not fit -/

/-- `n` letters and a full stop. -/
def longWord (n : Nat) : List Char := List.replicate n 'a' ++ ['.']

/-- Each letter is counted, and the counts wrap around. -/
theorem indexFromInt_letters {fileNum : Int} {theWord : List Char} {idx : IndexInt} (k m : Nat) :
    indexFromInt fileNum theWord (longWord m) 0 (wrap k) (wrap k) idx =
      indexFromInt fileNum theWord ['.'] 0 (wrap (k + m : Nat)) (wrap (k + m : Nat)) idx := by
  induction m generalizing k with
  | zero => rfl
  | succ m ih =>
      have hne : longWord m ≠ [] := by simp [longWord]
      have hcons : longWord (m + 1) = 'a' :: longWord m := rfl
      rw [hcons, indexFromInt, if_neg hne]
      show indexFromInt _ _ _ _ (wrap (wrap k + 1)) (wrap (wrap k + 1)) _ = _
      rw [wrap_succ, ih, Nat.add_right_comm, Nat.add_assoc]

/-- The count of the letters has become negative, and `substr` takes all there is. -/
theorem indexWordInt_longWord {n : Nat} (hn : n = 2147483648) (idx : IndexInt) :
    indexWordInt 0 (longWord n) idx =
      .ok ((idx.insert (longWord n) 0).insert (longWord n) 0) := by
  have hwrap : wrap (n : Int) = -2147483648 := by
    rw [hn]
    decide +kernel
  have hlength : (longWord n).length = n + 1 := by simp [longWord]
  have hsub : substrInt (longWord n) 0 (-2147483648) = .ok (longWord n) := by
    have hsize : toSize (-2147483648) = 18446744071562067968 := by decide
    have hzero : toSize 0 = 0 := by decide
    rw [substrInt, substr, hsize, hzero, if_pos (Nat.zero_le _), List.drop_zero,
      List.take_of_length_le (by omega)]
  have hletters : indexFromInt 0 (longWord n) (longWord n) 0 (wrap (0 : Nat)) (wrap (0 : Nat)) idx =
    _ := indexFromInt_letters 0 n
  have hzero : wrap ((0 : Nat) : Int) = 0 := wrap_natCast (n := 0) (by omega)
  rw [hzero, Nat.zero_add, hwrap] at hletters
  rw [indexWordInt, hletters, indexFromInt, if_pos rfl, hsub]
  rfl

/-- The file is one word. -/
theorem word_longWord (n : Nat) : (FileStream.open ⟨longWord n, false⟩).word =
    (longWord n, ⟨[], false, true, false, false⟩) := by
  have hspace : ∀ c ∈ longWord n, isSpace c = false := by
    intro c hc
    rcases List.mem_append.mp hc with hc | hc
    · rw [List.eq_of_mem_replicate hc]
      decide
    · rw [List.mem_singleton.mp hc]
      decide
  have hne : longWord n ≠ [] := by simp [longWord]
  obtain ⟨c, rest, hcons⟩ := List.exists_cons_of_ne_nil hne
  have hdrop : (c :: rest).dropWhile isSpace = c :: rest := dropWhile_isSpace (hcons ▸ hspace)
  have hrest : rest.dropWhile inWord = [] := List.dropWhile_eq_nil_iff.mpr fun d hd => by
    rw [inWord, hspace d (hcons ▸ List.mem_cons_of_mem c hd)]
    rfl
  rw [FileStream.word, if_neg (by simp [FileStream.open])]
  simp only [FileStream.open, hcons, hdrop, hrest]
  rfl

/-- The program returns a line for the whole word. -/
theorem long_word_returned {n : Nat} (hn : n = 2147483648) : ∃ enough, ∀ fuel, enough ≤ fuel →
    buildInvertedIndexInt (fileListed (longWord n)) fuel ['l'] =
      some (.ok (IndexInt.line (longWord n) [0])) := by
  have hfresh : ∀ source, (FileStream.open source).eof = false := fun _ => rfl
  have hlist : (FileStream.open ⟨['f', '\n'], false⟩).word =
      (['f'], ⟨['\n'], false, false, false, false⟩) := rfl
  have hlist' : (FileStream.mk ['\n'] false false false false).word =
      ([], ⟨[], false, true, true, false⟩) := rfl
  obtain ⟨hopen, hopen'⟩ := openFile_fileListed (longWord n)
  have hends : Ends (iterationInt (fileListed (longWord n)))
      ⟨FileStream.open ⟨['f', '\n'], false⟩, 0, IndexInt.empty, none⟩
      (.ok ((IndexInt.empty.insert (longWord n) 0).insert (longWord n) 0)) := by
    have hname : iterationInt (fileListed (longWord n))
        ⟨FileStream.open ⟨['f', '\n'], false⟩, 0, IndexInt.empty, none⟩ =
        .inl ⟨⟨['\n'], false, false, false, false⟩, 0, IndexInt.empty,
          some (FileStream.open ⟨longWord n, false⟩)⟩ := by
      simp only [iterationInt, hfresh, hlist, hopen', Bool.false_eq_true, if_false]
    have hword : iterationInt (fileListed (longWord n))
        ⟨⟨['\n'], false, false, false, false⟩, 0, IndexInt.empty,
          some (FileStream.open ⟨longWord n, false⟩)⟩ =
        .inl ⟨⟨['\n'], false, false, false, false⟩, 0,
          (IndexInt.empty.insert (longWord n) 0).insert (longWord n) 0,
          some ⟨[], false, true, false, false⟩⟩ := by
      simp only [iterationInt, hfresh, word_longWord, indexWordInt_longWord hn,
        Bool.false_eq_true, if_false]
    have heof : ∀ idx, iterationInt (fileListed (longWord n))
        ⟨⟨['\n'], false, false, false, false⟩, 0, idx, some ⟨[], false, true, false, false⟩⟩ =
        .inl ⟨⟨['\n'], false, false, false, false⟩, wrap (0 + 1), idx, none⟩ := by
      simp only [iterationInt, if_true, implies_true]
    have hlast : ∀ num idx, iterationInt (fileListed (longWord n))
        ⟨⟨['\n'], false, false, false, false⟩, num, idx, none⟩ =
        .inl ⟨⟨[], false, true, true, false⟩, num, idx, none⟩ := by
      simp only [iterationInt, hlist', openFile_nil, Bool.false_eq_true, if_false, implies_true]
    rw [ends_step hname, ends_step hword, ends_step (heof _), ends_step (hlast _ _)]
    exact Ends.stop (by simp only [iterationInt, if_true])
  obtain ⟨enough, hrun⟩ := hends.enough
  have hne : longWord n ≠ [] := by simp [longWord]
  refine ⟨enough, fun fuel hfuel => ?_⟩
  rw [buildInvertedIndexInt, hopen]
  simp only [hfresh, Bool.false_eq_true, if_false, hrun fuel hfuel, Option.map_some]
  simp [Except.map, IndexInt.returnString, IndexInt.erase, IndexInt.insert, IndexInt.empty, hne,
    Finset.erase_eq_of_notMem]

/-- A line has letters, a colon, blanks, numerals and a newline. -/
theorem mem_line {w : List Char} {nums : List Nat} {c : Char} (hc : c ∈ Index.line w nums) :
    c ∈ w ∨ c = ':' ∨ c = ' ' ∨ c.isDigit = true ∨ c = '-' ∨ c = '\n' := by
  simp only [Index.line, List.mem_append, List.mem_flatMap, List.mem_cons, List.not_mem_nil,
    or_false] at hc
  rcases hc with ((hc | hc) | ⟨num, -, hc | hc⟩) | hc
  · exact .inl hc
  · exact .inr (.inl hc)
  · exact .inr (.inr (.inl hc))
  · rcases mem_numeral hc with hc | hc
    · exact .inr (.inr (.inr (.inl hc)))
    · exact .inr (.inr (.inr (.inr (.inl hc))))
  · exact .inr (.inr (.inr (.inr (.inr hc))))

/-- **A word of `2 ^ 31` letters and a full stop is not indexed exactly**: its line keeps
the full stop. -/
theorem long_word_not_exact :
    Readable (fileListed (longWord 2147483648)) ['l'] ∧
      ¬ ∃ text, ExactIndex (documents (fileListed (longWord 2147483648)) ['l']) text ∧
        ∃ enough, ∀ fuel, enough ≤ fuel →
          buildInvertedIndexInt (fileListed (longWord 2147483648)) fuel ['l'] =
            some (.ok text) := by
  obtain ⟨n, hn⟩ : ∃ n, n = 2147483648 := ⟨_, rfl⟩
  rw [← hn]
  refine ⟨readable_fileListed _, ?_⟩
  rintro ⟨text, ⟨entries, rfl, -, hwords, -⟩, enough, hrun⟩
  obtain ⟨enough', hrun'⟩ := long_word_returned hn
  have htext := (hrun (max enough enough') (le_max_left _ _)).symm.trans
    (hrun' (max enough enough') (le_max_right _ _))
  have hdot : '.' ∈ entries.flatMap fun e => Index.line e.1 e.2 := by
    rw [Except.ok.inj (Option.some.inj htext)]
    simp [IndexInt.line, longWord]
  obtain ⟨e, he, hdot⟩ := List.mem_flatMap.mp hdot
  -- the full stop would have to be a letter of a run
  have hmem : '.' ∈ e.1 := by
    rcases mem_line hdot with h | h | h | h | h | h
    · exact h
    all_goals exact absurd h (by decide)
  obtain ⟨doc, -, -, hall, -⟩ := (hwords e.1).mp (List.mem_map_of_mem he)
  exact absurd (hall '.' hmem) (by decide)

end Results

end Os377.Inverter
