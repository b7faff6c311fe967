import Os377.Inverter.Index
import Os377.Lib.Loop

/-!
# `build_inverted_index`

The loop over the file names and, inside it, the loop over the words of one file, both
until `eof`. A file is given by what its reads deliver (`Source`); `fs` opens a path, and
a path ends at the first NUL. In `Inverting` the inner loop is running as long as there
is a `thisFile`.

When every file can be read to its end the index holds what the documents hold, and if
one cannot, the function does not come back.
-/

namespace Os377.Inverter

open Os377.Lib

/-- `ifstream::open`: the path is passed as a C string, and the empty path is no file. -/
def openFile (fs : List Char → Option Source) (name : List Char) : Option Source :=
  let path := name.takeWhile (· != '\x00')
  if path = [] then none else fs path

/-- The variables of `build_inverted_index`; `fileNum` is unbounded. -/
structure Inverting where
  list : FileStream
  fileNum : Nat
  index : Index
  thisFile : Option FileStream

/-- One iteration of the inner loop, where there is a `thisFile`, or else of the outer one;
the test of a loop that ends belongs to it. -/
def iteration (fs : List Char → Option Source) (s : Inverting) :
    Inverting ⊕ Except Thrown Index :=
  match s.thisFile with
  | some thisFile =>
      if thisFile.eof then .inl { s with fileNum := s.fileNum + 1, thisFile := none }
      else
        let (theWord, thisFile) := thisFile.word
        match indexWord s.fileNum theWord s.index with
        | .ok index => .inl { s with index := index, thisFile := some thisFile }
        | .error e => .inr (.error e)
  | none =>
      if s.list.eof then .inr (.ok s.index)
      else
        let (nameBuf, list) := s.list.word
        match openFile fs nameBuf with
        | none => .inl { s with list := list }
        | some source =>
            let thisFile := FileStream.open source
            if thisFile.eof then .inl { s with list := list }
            else .inl { s with list := list, thisFile := some thisFile }

/-- The string that is returned; `none` when `fuel` iterations are not enough. -/
def buildInvertedIndex (fs : List Char → Option Source) (fuel : Nat) (filename : List Char) :
    Option (Except Thrown (List Char)) :=
  match openFile fs filename with
  | none => some (.ok [])
  | some source =>
      let list := FileStream.open source
      if list.eof then some (.ok [])
      else
        (loop (iteration fs) fuel ⟨list, 0, Index.empty, none⟩).map fun result =>
          result.map fun index => (index.erase []).returnString

/-- The file names of a list. -/
def fileNames (fs : List Char → Option Source) (filename : List Char) : List (List Char) :=
  match openFile fs filename with
  | none => []
  | some source => runs inWord source.text

/-- The documents, in the order of their numbers: the files of the list that can be
opened. -/
def documents (fs : List Char → Option Source) (filename : List Char) : List (List Char) :=
  (fileNames fs filename).filterMap fun name => (openFile fs name).map Source.text

/-- Every read succeeds up to the end of the file: of the list, and of the files in it that
can be opened. -/
def Readable (fs : List Char → Option Source) (filename : List Char) : Prop :=
  (∀ source, openFile fs filename = some source → source.broken = false) ∧
    ∀ name ∈ fileNames fs filename, ∀ source, openFile fs name = some source →
      source.broken = false

/-- The word is in the document with the number `n`, if the first of `docs` has the number
`first`. -/
def Occurs (docs : List (List Char)) (first : Nat) (w : List Char) (n : Nat) : Prop :=
  ∃ k doc, n = first + k ∧ docs[k]? = some doc ∧ IsRun isLetter doc w

section Loops

variable {fs : List Char → Option Source} {list thisFile : FileStream} {fileNum : Nat}
  {index : Index} {words names : List (List Char)} {r : Except Thrown Index}

/-- A letter is not white space. -/
theorem inWord_of_isLetter {c : Char} (hc : isLetter c = true) : inWord c = true := by
  have hcode : 65 ≤ c.toNat := by
    simp only [isLetter, Bool.or_eq_true, Bool.and_eq_true, decide_eq_true_eq, Char.le_def,
      UInt32.le_iff_toNat_le] at hc
    have hval : c.val.toNat = c.toNat := rfl
    rcases hc with ⟨hlow, -⟩ | ⟨hlow, -⟩
    · exact le_trans (by decide) (hval ▸ hlow)
    · exact hval ▸ hlow
  have hne : c ≠ ' ' := by
    rintro rfl
    exact absurd hcode (by decide)
  simp only [inWord, isSpace, Bool.not_eq_true', Bool.or_eq_false_iff, beq_eq_false_iff_ne,
    Bool.and_eq_false_iff, decide_eq_false_iff_not]
  exact ⟨hne, Or.inr (by omega)⟩

theorem occurs_nil {first : Nat} {w : List Char} {n : Nat} : ¬ Occurs [] first w n := by
  rintro ⟨k, doc, -, hdoc, -⟩
  simp at hdoc

theorem occurs_cons {doc : List Char} {docs : List (List Char)} {first : Nat} {w : List Char}
    {n : Nat} :
    Occurs (doc :: docs) first w n ↔
      n = first ∧ IsRun isLetter doc w ∨ Occurs docs (first + 1) w n := by
  constructor
  · rintro ⟨k, doc', rfl, hdoc, hrun⟩
    cases k with
    | zero => exact Or.inl ⟨rfl, Option.some.inj hdoc ▸ hrun⟩
    | succ k => exact Or.inr ⟨k, doc', by omega, hdoc, hrun⟩
  · rintro (⟨rfl, hrun⟩ | ⟨k, doc', rfl, hdoc, hrun⟩)
    · exact ⟨0, doc, rfl, rfl, hrun⟩
    · exact ⟨k + 1, doc', by omega, hdoc, hrun⟩

/-- One iteration of the inner loop. -/
theorem iteration_word (fs : List Char → Option Source) (list : FileStream) (fileNum : Nat)
    (index : Index) (heof : thisFile.eof = false) :
    ∃ index', iteration fs ⟨list, fileNum, index, some thisFile⟩ =
        .inl ⟨list, fileNum, index', some thisFile.word.2⟩ ∧
      Adds index index' fileNum (IsRun isLetter thisFile.word.1) := by
  obtain ⟨index', hword, hadds⟩ := indexWord_adds fileNum thisFile.word.1 index
  refine ⟨index', ?_, hadds⟩
  rw [iteration]
  simp only [heof, Bool.false_eq_true, if_false, hword]

/-- Without an end in sight the inner loop goes on. -/
theorem thisFile_endless (hend : thisFile.AtEnd) (hbroken : thisFile.broken = true) :
    ¬ Ends (iteration fs) ⟨list, fileNum, index, some thisFile⟩ r := by
  refine not_ends (I := fun s => ∃ f, s.thisFile = some f ∧ f.AtEnd ∧ f.broken = true) ?_
    ⟨thisFile, rfl, hend, hbroken⟩ r
  rintro ⟨l, n, idx, f⟩ ⟨f, rfl, hend, hbroken⟩
  obtain ⟨-, hend', hbroken'⟩ := FileStream.word_of_atEnd hend
  obtain ⟨index', hstep, -⟩ := iteration_word fs l n idx
    (by rw [hend.eof, hbroken]; rfl)
  exact ⟨_, hstep, _, rfl, hend', hbroken'.trans hbroken⟩

/-- At `eof` the document is closed. -/
theorem thisFile_eof (heof : thisFile.eof = true) :
    Ends (iteration fs) ⟨list, fileNum, index, some thisFile⟩ r ↔
      Ends (iteration fs) ⟨list, fileNum + 1, index, none⟩ r :=
  ends_step (by rw [iteration]; simp only [heof, if_true])

/-- A file that can be read to its end is read, and its words added. -/
theorem thisFile_ends (fs : List Char → Option Source) (list : FileStream) (fileNum : Nat)
    (index : Index) (h : thisFile.Ahead words) (hgood : thisFile.broken = false) :
    ∃ index', (∀ r, Ends (iteration fs) ⟨list, fileNum, index, some thisFile⟩ r ↔
        Ends (iteration fs) ⟨list, fileNum + 1, index', none⟩ r) ∧
      Adds index index' fileNum fun w => ∃ word ∈ words, IsRun isLetter word w := by
  induction words generalizing thisFile index with
  | nil =>
      have hnothing : ∀ {new : List Char → Prop}, (∀ w, ¬ new w) → ∀ {index'},
          Adds index index' fileNum new →
            Adds index index' fileNum fun w => ∃ word ∈ [], IsRun isLetter word w := by
        intro new hnew index' hadds w hw n
        rw [hadds w hw n]
        simp [hnew w]
      cases heof : thisFile.eof with
      | true => exact ⟨index, fun r => thisFile_eof heof, fun w _ n => by simp⟩
      | false =>
          -- one more read, which finds no word but the end
          obtain ⟨hword, hend, hbroken⟩ := FileStream.word_of_nil h
          obtain ⟨index', hstep, hadds⟩ := iteration_word fs list fileNum index heof
          refine ⟨index', fun r => (ends_step hstep).trans (thisFile_eof ?_), hnothing ?_ hadds⟩
          · rw [hend.eof, hbroken, hgood]
            rfl
          · rw [hword]
            exact fun w => not_isRun_nil
  | cons word words ih =>
      obtain ⟨hword, hahead, hbroken⟩ := FileStream.word_of_cons h
      obtain ⟨index₁, hstep, hadds₁⟩ := iteration_word fs list fileNum index
        (FileStream.eof_of_cons h)
      obtain ⟨index₂, hends, hadds₂⟩ := ih index₁ hahead (hbroken.trans hgood)
      refine ⟨index₂, fun r => (ends_step hstep).trans (hends r), fun w hw n => ?_⟩
      rw [hadds₂ w hw n, hadds₁ w hw n, hword]
      simp only [List.exists_mem_cons_iff]
      tauto

/-- A file whose reads fail somewhere is not left any more. -/
theorem thisFile_stuck (h : thisFile.Ahead words) (hbroken : thisFile.broken = true) :
    ¬ Ends (iteration fs) ⟨list, fileNum, index, some thisFile⟩ r := by
  induction words generalizing thisFile index with
  | nil =>
      obtain ⟨-, hend, hbroken'⟩ := FileStream.word_of_nil h
      obtain ⟨index', hstep, -⟩ := iteration_word fs list fileNum index
        (FileStream.eof_of_broken h hbroken)
      rw [ends_step hstep]
      exact thisFile_endless hend (hbroken'.trans hbroken)
  | cons word words ih =>
      obtain ⟨-, hahead, hbroken'⟩ := FileStream.word_of_cons h
      obtain ⟨index', hstep, -⟩ := iteration_word fs list fileNum index
        (FileStream.eof_of_broken h hbroken)
      rw [ends_step hstep]
      exact ih hahead (hbroken'.trans hbroken)

/-- No file has an empty name. -/
theorem openFile_nil : openFile fs [] = none := by
  rw [openFile]
  exact if_pos rfl

/-- A name that cannot be opened is passed over. -/
theorem iteration_closed (heof : list.eof = false) (hfile : openFile fs list.word.1 = none) :
    iteration fs ⟨list, fileNum, index, none⟩ = .inl ⟨list.word.2, fileNum, index, none⟩ := by
  rw [iteration]
  simp only [heof, Bool.false_eq_true, if_false, hfile]

/-- A name that can be opened starts a document. -/
theorem iteration_opened {source : Source} (heof : list.eof = false)
    (hfile : openFile fs list.word.1 = some source) :
    iteration fs ⟨list, fileNum, index, none⟩ =
      .inl ⟨list.word.2, fileNum, index, some (FileStream.open source)⟩ := by
  have hfresh : (FileStream.open source).eof = false := rfl
  rw [iteration]
  simp only [heof, Bool.false_eq_true, if_false, hfile, hfresh]

/-- Without an end in sight the outer loop goes on. -/
theorem list_endless (hend : list.AtEnd) (hbroken : list.broken = true) :
    ¬ Ends (iteration fs) ⟨list, fileNum, index, none⟩ r := by
  refine not_ends (I := fun s => s.thisFile = none ∧ s.list.AtEnd ∧ s.list.broken = true) ?_
    ⟨rfl, hend, hbroken⟩ r
  rintro ⟨l, n, idx, f⟩ ⟨rfl, hend, hbroken⟩
  obtain ⟨hword, hend', hbroken'⟩ := FileStream.word_of_atEnd hend
  have heof : l.eof = false := hend.eof.trans (by rw [hbroken]; rfl)
  exact ⟨_, iteration_closed heof (by rw [hword]; exact openFile_nil), rfl, hend',
    hbroken'.trans hbroken⟩

/-- The files of the list are read one after the other. -/
theorem list_ends (fileNum : Nat) (index : Index) (h : list.Ahead names)
    (hgood : list.broken = false)
    (hfiles : ∀ name ∈ names, ∀ source, openFile fs name = some source → source.broken = false) :
    ∃ index', Ends (iteration fs) ⟨list, fileNum, index, none⟩ (.ok index') ∧ ∀ w ≠ [], ∀ n,
      n ∈ index'.docs w ↔ n ∈ index.docs w ∨
        Occurs (names.filterMap fun name => (openFile fs name).map Source.text) fileNum w n := by
  have hstop : ∀ {l : FileStream} {n idx}, l.eof = true →
      Ends (iteration fs) ⟨l, n, idx, none⟩ (.ok idx) := by
    intro l n idx heof
    refine Ends.stop ?_
    rw [iteration]
    simp only [heof, if_true]
  induction names generalizing list fileNum index with
  | nil =>
      refine ⟨index, ?_, fun w _ n => ?_⟩
      · cases heof : list.eof with
        | true => exact hstop heof
        | false =>
            obtain ⟨hword, hend, hbroken⟩ := FileStream.word_of_nil h
            rw [ends_step (iteration_closed heof (by rw [hword]; exact openFile_nil))]
            refine hstop ?_
            rw [hend.eof, hbroken, hgood]
            rfl
      · rw [List.filterMap_nil, iff_false_intro occurs_nil, or_false]
  | cons name names ih =>
      have heof := FileStream.eof_of_cons h
      have hrest : ∀ name ∈ names, ∀ source, openFile fs name = some source →
          source.broken = false := fun name hname => hfiles name (List.mem_cons_of_mem _ hname)
      obtain ⟨hword, hahead, hbroken⟩ := FileStream.word_of_cons h
      cases hfile : openFile fs name with
      | none =>
          obtain ⟨index', hends, hdocs⟩ := ih fileNum index hahead
            (hbroken.trans hgood) hrest
          refine ⟨index', ?_, ?_⟩
          · rwa [ends_step (iteration_closed heof (by rw [hword, hfile]))]
          · rwa [List.filterMap_cons_none (by rw [hfile]; rfl)]
      | some source =>
          have hsource : source.broken = false := hfiles name List.mem_cons_self source hfile
          obtain ⟨index₁, hread, hadds⟩ := thisFile_ends fs list.word.2 fileNum index
            (FileStream.ahead_open source) hsource
          obtain ⟨index₂, hends, hdocs⟩ := ih (fileNum + 1) index₁ hahead
            (hbroken.trans hgood) hrest
          refine ⟨index₂, ?_, fun w hw n => ?_⟩
          · rw [ends_step (iteration_opened heof (by rw [hword, hfile])), hread]
            exact hends
          · rw [List.filterMap_cons_some (by rw [hfile]; rfl), occurs_cons, hdocs w hw n,
              hadds w hw n, or_assoc, isRun_iff_within (fun _ => inWord_of_isLetter)]

/-- With a read that fails, in the list or in a file of it, there is no end. -/
theorem list_stuck (h : list.Ahead names)
    (hbad : ¬ (list.broken = false ∧ ∀ name ∈ names, ∀ source, openFile fs name = some source →
      source.broken = false)) :
    ¬ Ends (iteration fs) ⟨list, fileNum, index, none⟩ r := by
  induction names generalizing list fileNum index with
  | nil =>
      -- nothing is left to read, so the list itself is what fails
      have hbroken : list.broken = true := by simpa using hbad
      obtain ⟨hword, hend, hbroken'⟩ := FileStream.word_of_nil h
      rw [ends_step (iteration_closed (FileStream.eof_of_broken h hbroken)
        (by rw [hword]; exact openFile_nil))]
      exact list_endless hend (hbroken'.trans hbroken)
  | cons name names ih =>
      have heof := FileStream.eof_of_cons h
      obtain ⟨hword, hahead, hbroken⟩ := FileStream.word_of_cons h
      have hrest : openFile fs name = none ∨
          (∀ source, openFile fs name = some source → source.broken = false) →
            ¬ (list.word.2.broken = false ∧ ∀ name ∈ names, ∀ source,
              openFile fs name = some source → source.broken = false) := by
        rintro hname ⟨hgood, hfiles⟩
        refine hbad ⟨hbroken.symm.trans hgood, fun other hother => ?_⟩
        rcases List.mem_cons.mp hother with rfl | hother
        · rcases hname with hnone | hall
          · intro source hsource
            rw [hnone] at hsource
            cases hsource
          · exact hall
        · exact hfiles other hother
      cases hfile : openFile fs name with
      | none =>
          rw [ends_step (iteration_closed heof (by rw [hword, hfile]))]
          exact ih hahead (hrest (Or.inl hfile))
      | some source =>
          rw [ends_step (iteration_opened heof (by rw [hword, hfile]))]
          -- the loop stays in this file, or goes on behind it
          cases hsource : source.broken with
          | true => exact thisFile_stuck (FileStream.ahead_open source) hsource
          | false =>
              obtain ⟨index₁, hread, -⟩ := thisFile_ends fs list.word.2 fileNum index
                (FileStream.ahead_open source) hsource
              rw [hread]
              refine ih hahead (hrest (Or.inr fun other hother => ?_))
              rw [hfile] at hother
              exact Option.some.inj hother ▸ hsource

end Loops

section Results

variable {fs : List Char → Option Source} {filename : List Char}

/-- The call ends when every file can be read, and with what. -/
theorem build_readable (h : Readable fs filename) :
    ∃ index : Index, (∃ enough, ∀ fuel, enough ≤ fuel →
        buildInvertedIndex fs fuel filename = some (.ok index.returnString)) ∧
      ∀ w n, n ∈ index.docs w ↔ Occurs (documents fs filename) 0 w n := by
  cases hfile : openFile fs filename with
  | none =>
      have hdocs : documents fs filename = [] := by rw [documents, fileNames, hfile]; rfl
      refine ⟨Index.empty, ⟨0, fun fuel _ => ?_⟩, fun w n => ?_⟩
      · rw [buildInvertedIndex, hfile, Index.returnString_empty]
      · rw [hdocs, iff_false_intro occurs_nil]
        exact iff_false_intro (Finset.notMem_empty n)
  | some source =>
      have hnames : fileNames fs filename = runs inWord source.text := by rw [fileNames, hfile]
      obtain ⟨index, hends, hdocs⟩ := list_ends 0 Index.empty
        (FileStream.ahead_open source) (h.1 source hfile) (hnames ▸ h.2)
      obtain ⟨enough, hrun⟩ := hends.enough
      refine ⟨index.erase [], ⟨enough, fun fuel hfuel => ?_⟩, fun w n => ?_⟩
      · rw [buildInvertedIndex, hfile]
        have hfresh : (FileStream.open source).eof = false := rfl
        simp only [hfresh, Bool.false_eq_true, if_false, hrun fuel hfuel]
        rfl
      · rw [Index.mem_erase, documents, hnames]
        by_cases hw : w = []
        · subst hw
          refine iff_of_false (fun hin => hin.2 rfl) ?_
          rintro ⟨k, doc, -, -, hne, -⟩
          exact hne rfl
        · have hnone : n ∉ Index.empty.docs w := Finset.notMem_empty n
          rw [and_iff_left hw, hdocs w hw n, or_iff_right hnone]

/-- The call does not end when a read fails. -/
theorem build_unreadable (h : ¬ Readable fs filename) (fuel : Nat) :
    buildInvertedIndex fs fuel filename = none := by
  cases hfile : openFile fs filename with
  | none =>
      refine absurd ⟨fun source hsource => ?_, ?_⟩ h
      · rw [hfile] at hsource
        cases hsource
      · rw [fileNames, hfile]
        simp
  | some source =>
      have hnames : fileNames fs filename = runs inWord source.text := by rw [fileNames, hfile]
      have hbad : ¬ ((FileStream.open source).broken = false ∧
          ∀ name ∈ runs inWord source.text, ∀ source, openFile fs name = some source →
            source.broken = false) := by
        rintro ⟨hgood, hfiles⟩
        refine h ⟨fun other hother => ?_, hnames ▸ hfiles⟩
        rw [hfile] at hother
        exact Option.some.inj hother ▸ hgood
      have hnone : loop (iteration fs) fuel ⟨FileStream.open source, 0, Index.empty, none⟩ = none :=
        Option.eq_none_iff_forall_ne_some.mpr fun r hr =>
          list_stuck (FileStream.ahead_open source) hbad ⟨fuel, hr⟩
      have hfresh : (FileStream.open source).eof = false := rfl
      rw [buildInvertedIndex, hfile]
      simp only [hfresh, Bool.false_eq_true, if_false, hnone]
      rfl

/-- **Which input the indexing ends on.** It does exactly when no read of the list, or of a
file in it that can be opened, fails before its end. -/
theorem build_ends_iff (fs : List Char → Option Source) (filename : List Char) :
    (∃ fuel result, buildInvertedIndex fs fuel filename = some result) ↔
      Readable fs filename := by
  constructor
  · rintro ⟨fuel, result, hrun⟩
    by_contra h
    rw [build_unreadable h fuel] at hrun
    cases hrun
  · intro h
    obtain ⟨index, ⟨enough, hrun⟩, -⟩ := build_readable h
    exact ⟨enough, _, hrun enough (le_refl enough)⟩

/-- A list with one name, of a directory. -/
def directoryListed (path : List Char) : Option Source :=
  if path = ['l'] then some ⟨['d', '\n'], false⟩
  else if path = ['d'] then some ⟨[], true⟩
  else none

theorem directory_never_ends :
    ¬ ∃ fuel result, buildInvertedIndex directoryListed fuel ['l'] = some result := by
  rintro ⟨fuel, result, hrun⟩
  have hnames : fileNames directoryListed ['l'] = [['d']] := by
    have hlist : runs inWord ['d', '\n'] = [['d']] := by
      rw [← runs_nil (p := inWord)]
      exact runs_single_cons (by decide) (by decide)
    exact hlist
  have hbad : ¬ Readable directoryListed ['l'] := by
    intro h
    have hdir := h.2 ['d'] (by rw [hnames]; exact List.mem_singleton_self _) ⟨[], true⟩ rfl
    cases hdir
  rw [build_unreadable hbad fuel] at hrun
  cases hrun

end Results

end Os377.Inverter
