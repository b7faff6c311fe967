import Os377.Lib.InputStream
import Os377.Lib.Runs

/-!
# Reading words from a file

`in >> str` skips white space and takes what stands before the next. A file delivers
characters until it ends, or until a read fails, as it does at once on a directory: the
end sets `eofbit`, a failed read `badbit` and not `eofbit`. A stream in a bad state
delivers nothing more.

`Ahead words` says which words a stream has still to deliver, and `AtEnd` that it has
seen its end, or will not get there.
-/

namespace Os377.Lib

/-- What can be read from a file. -/
structure Source where
  text : List Char
  /-- The read behind `text` fails. -/
  broken : Bool
  deriving DecidableEq, Repr

/-- An input stream on a file, with its state bits. -/
structure FileStream where
  rest : List Char
  broken : Bool
  eof : Bool
  fail : Bool
  bad : Bool
  deriving DecidableEq, Repr

/-- Part of a word. -/
def inWord (c : Char) : Bool := !isSpace c

/-- A stream on a file that has just been opened. -/
def FileStream.open (f : Source) : FileStream := ⟨f.text, f.broken, false, false, false⟩

namespace FileStream

/-- Reading has come to the end, with or without a word. -/
def stop (s : FileStream) (fail : Bool) : FileStream :=
  ⟨[], s.broken, !s.broken, fail, s.broken⟩

/-- `in >> str`, for an empty `str`. -/
def word (s : FileStream) : List Char × FileStream :=
  if s.eof || s.fail || s.bad then ([], { s with fail := true })
  else
    match s.rest.dropWhile isSpace with
    | [] => ([], s.stop true)
    | c :: rest =>
        match rest.dropWhile inWord with
        | [] => (c :: rest, s.stop false)
        | d :: rest' => (c :: rest.takeWhile inWord, { s with rest := d :: rest' })

/-- The stream has met its end, or the read that fails. -/
structure AtEnd (s : FileStream) : Prop where
  eof : s.eof = !s.broken
  flagged : (s.eof || s.fail || s.bad) = true

/-- The stream delivers `words` from now on, and then nothing. -/
def Ahead (s : FileStream) (words : List (List Char)) : Prop :=
  (s.eof || s.fail || s.bad) = false ∧ runs inWord s.rest = words ∨ words = [] ∧ s.AtEnd

variable {s : FileStream} {w : List Char} {ws : List (List Char)}

theorem ahead_open (f : Source) : (FileStream.open f).Ahead (runs inWord f.text) :=
  Or.inl ⟨rfl, rfl⟩

theorem stop_atEnd (s : FileStream) (fail : Bool) : (s.stop fail).AtEnd := by
  refine ⟨rfl, ?_⟩
  show (!s.broken || fail || s.broken) = true
  cases s.broken <;> simp

/-- Nothing changes at the end. -/
theorem word_of_atEnd (h : s.AtEnd) :
    s.word.1 = [] ∧ s.word.2.AtEnd ∧ s.word.2.broken = s.broken := by
  rw [word, if_pos h.flagged]
  exact ⟨rfl, ⟨h.eof, by simp⟩, rfl⟩

theorem skip_eq : (fun c => !inWord c) = isSpace := by
  funext c
  exact Bool.not_not _

/-- A stream with no word left comes to its end. -/
theorem word_of_nil (h : s.Ahead []) :
    s.word.1 = [] ∧ s.word.2.AtEnd ∧ s.word.2.broken = s.broken := by
  rcases h with ⟨hgood, hruns⟩ | ⟨-, hend⟩
  · cases hdrop : s.rest.dropWhile isSpace with
    | nil =>
        rw [word, if_neg (by simp [hgood]), hdrop]
        exact ⟨rfl, s.stop_atEnd true, rfl⟩
    | cons c rest =>
        have hskip : s.rest.dropWhile (!inWord ·) = c :: rest := by rw [skip_eq, hdrop]
        rw [runs_of_cons hskip] at hruns
        cases hruns
  · exact word_of_atEnd hend

/-- The next word. -/
theorem word_of_cons (h : s.Ahead (w :: ws)) :
    s.word.1 = w ∧ s.word.2.Ahead ws ∧ s.word.2.broken = s.broken := by
  rcases h with ⟨hgood, hruns⟩ | ⟨hnil, -⟩
  · cases hdrop : s.rest.dropWhile isSpace with
    | nil =>
        have hskip : s.rest.dropWhile (!inWord ·) = [] := by rw [skip_eq, hdrop]
        rw [runs_of_nil hskip] at hruns
        cases hruns
    | cons c rest =>
        have hskip : s.rest.dropWhile (!inWord ·) = c :: rest := by rw [skip_eq, hdrop]
        rw [runs_of_cons hskip] at hruns
        obtain ⟨rfl, rfl⟩ := List.cons.inj hruns
        rw [word, if_neg (by simp [hgood]), hdrop]
        cases hrest : rest.dropWhile inWord with
        | nil =>
            have hall : rest.takeWhile inWord = rest :=
              List.takeWhile_eq_self_iff.mpr (List.dropWhile_eq_nil_iff.mp hrest)
            rw [hall, runs_nil]
            simp only [hrest, true_and]
            exact ⟨Or.inr ⟨rfl, s.stop_atEnd false⟩, rfl⟩
        | cons d rest' =>
            simp only [hrest, true_and, and_true]
            exact Or.inl ⟨hgood, rfl⟩
  · cases hnil

/-- While there are words, the end is not in sight. -/
theorem eof_of_cons (h : s.Ahead (w :: ws)) : s.eof = false := by
  rcases h with ⟨hflags, -⟩ | ⟨hnil, -⟩
  · simp only [Bool.or_eq_false_iff] at hflags
    exact hflags.1.1
  · cases hnil

/-- Where a read fails, it never is. -/
theorem eof_of_broken (h : s.Ahead ws) (hbroken : s.broken = true) : s.eof = false := by
  rcases h with ⟨hflags, -⟩ | ⟨-, hend⟩
  · simp only [Bool.or_eq_false_iff] at hflags
    exact hflags.1.1
  · rw [hend.eof, hbroken]
    rfl

end FileStream

end Os377.Lib
