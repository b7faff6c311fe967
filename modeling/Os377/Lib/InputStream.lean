import Mathlib.Data.List.Basic

/-!
# Reading numbers from a character stream

What the documentation of the C++ library fixes of `std::getline` and `std::stoi`,
and that both take apart what was put together: a word in front of a delimiter
is read up to it (`getline_word`, `getline_last`), and the decimal numeral of an
`int` is read as that number (`stoi_numeral`).
-/

namespace Os377.Lib

/-- An input stream: the characters that are left, and its state bits. -/
structure InStream where
  rest : List Char
  eof : Bool
  fail : Bool
  deriving DecidableEq, Repr

/-- A stream that has just been opened. -/
def InStream.open (text : List Char) : InStream := ⟨text, false, false⟩

/-- `std::getline(in, str, delim)`: the stream and the string afterwards. The
delimiter is taken and dropped; `eof` is set when the characters end before it,
`fail` when there was none at all. A stream in a bad state leaves the string
alone. -/
def InStream.getline (s : InStream) (str : List Char) (delim : Char) : InStream × List Char :=
  if s.eof || s.fail then ({ s with fail := true }, str)
  else
    match s.rest.dropWhile (· != delim) with
    | [] => (⟨[], true, s.rest.isEmpty⟩, s.rest)
    | _ :: rest => ({ s with rest := rest }, s.rest.takeWhile (· != delim))

inductive StoiError where
  | invalidArgument
  | outOfRange
  deriving DecidableEq, Repr

/-- The values of a 32-bit `int`. -/
def IsInt (n : Int) : Prop := -2147483648 ≤ n ∧ n ≤ 2147483647

instance (n : Int) : Decidable (IsInt n) :=
  inferInstanceAs (Decidable (-2147483648 ≤ n ∧ n ≤ 2147483647))

/-- `isspace` of the C locale. -/
def isSpace (c : Char) : Bool := c == ' ' || (9 ≤ c.toNat && c.toNat ≤ 13)

/-- The sign of a number and what follows it. -/
def splitSign : List Char → Bool × List Char
  | [] => (false, [])
  | c :: cs => if c = '-' then (true, cs) else if c = '+' then (false, cs) else (false, c :: cs)

/-- `std::stoi(str)`: white space, a sign, digits; what follows is ignored. -/
def stoi (str : List Char) : Except StoiError Int :=
  let (negative, unsigned) := splitSign (str.dropWhile isSpace)
  let digits := unsigned.takeWhile Char.isDigit
  if digits = [] then .error .invalidArgument
  else
    let value : Int := Nat.ofDigitChars 10 digits 0
    let n := if negative then -value else value
    if IsInt n then .ok n else .error .outOfRange

/-- A number in decimal. -/
def numeral (n : Int) : List Char := n.repr.toList

section Words

variable {delim : Char} {word : List Char}

/-- A word and the delimiter behind it. -/
theorem getline_word (str rest : List Char) (hword : ∀ c ∈ word, c ≠ delim) :
    (InStream.open (word ++ delim :: rest)).getline str delim = (InStream.open rest, word) := by
  have hall : ∀ c ∈ word, (c != delim) = true := fun c hc => bne_iff_ne.mpr (hword c hc)
  have hdrop : (word ++ delim :: rest).dropWhile (· != delim) = delim :: rest := by
    rw [List.dropWhile_append_of_pos hall, List.dropWhile_cons_of_neg (by simp)]
  have htake : (word ++ delim :: rest).takeWhile (· != delim) = word := by
    rw [List.takeWhile_append_of_pos hall, List.takeWhile_cons_of_neg (by simp), List.append_nil]
  simp only [InStream.getline, InStream.open, Bool.or_self, Bool.false_eq_true, if_false, hdrop,
    htake]

/-- The last word, without a delimiter. -/
theorem getline_last (str : List Char) (hword : ∀ c ∈ word, c ≠ delim) :
    (InStream.open word).getline str delim = (⟨[], true, word.isEmpty⟩, word) := by
  have hall : ∀ c ∈ word, (c != delim) = true := fun c hc => bne_iff_ne.mpr (hword c hc)
  have hdrop : (word ++ []).dropWhile (· != delim) = [] := List.dropWhile_append_of_pos hall
  rw [List.append_nil] at hdrop
  simp only [InStream.getline, InStream.open, Bool.or_self, Bool.false_eq_true, if_false, hdrop]

/-- Nothing more is read at the end. -/
theorem getline_eof {s : InStream} {str : List Char} (heof : s.eof = true) :
    (s.getline str delim).1.eof = true := by
  simp only [InStream.getline, heof, Bool.true_or, if_true]

/-- A line that was read shortens the stream. -/
theorem getline_shorter {s : InStream} {str : List Char}
    (h : (s.getline str delim).1.fail = false) :
    (s.getline str delim).1.rest.length < s.rest.length := by
  rw [InStream.getline] at h ⊢
  split at h
  · cases h
  · next hgood =>
      rw [if_neg hgood]
      split at h
      · next hdrop =>
          cases hrest : s.rest with
          | nil =>
              rw [hrest] at h
              cases h
          | cons c cs => exact Nat.succ_pos _
      · next d rest hdrop =>
          have hle := (List.dropWhile_sublist (p := (· != delim)) (l := s.rest)).length_le
          rw [hdrop] at hle
          exact hle

end Words

section Numerals

variable {n : Int}

theorem numeral_eq : numeral n =
    if 0 ≤ n then Nat.toDigits 10 n.toNat else '-' :: Nat.toDigits 10 (-n).toNat := by
  rw [numeral, Int.repr_eq_if]
  split_ifs with hneg
  · rw [Nat.toList_repr]
  · rw [String.toList_append, Nat.toList_repr]
    rfl

/-- The characters of a numeral. -/
theorem mem_numeral {c : Char} (hc : c ∈ numeral n) : c.isDigit = true ∨ c = '-' := by
  rw [numeral_eq] at hc
  split_ifs at hc with hneg
  · exact Or.inl (Nat.isDigit_of_mem_toDigits (by omega) (by omega) hc)
  · rcases List.mem_cons.mp hc with heq | hc
    · exact Or.inr heq
    · exact Or.inl (Nat.isDigit_of_mem_toDigits (by omega) (by omega) hc)

theorem toNat_of_digit {c : Char} (hc : c.isDigit = true) : 48 ≤ c.toNat ∧ c.toNat ≤ 57 :=
  Char.isDigit_iff_toNat.mp hc

/-- A digit is no other character of known code. -/
theorem ne_of_digit {c d : Char} (hc : c.isDigit = true) (hd : d.toNat < 48 ∨ 57 < d.toNat) :
    c ≠ d := by
  rintro rfl
  have := toNat_of_digit hc
  omega

/-- Neither a digit nor a sign is skipped. -/
theorem isSpace_eq_false {c : Char} (hc : c.isDigit = true ∨ c = '-') : isSpace c = false := by
  rcases hc with hc | rfl
  · have hcode := toNat_of_digit hc
    have hne : c ≠ ' ' := ne_of_digit hc (Or.inl (by decide))
    simp only [isSpace, beq_eq_false_iff_ne.mpr hne, Bool.false_or, Bool.and_eq_false_iff,
      decide_eq_false_iff_not]
    omega
  · rfl

/-- White space is skipped up to the first character that is none. -/
theorem dropWhile_isSpace {cs : List Char} (h : ∀ c ∈ cs, isSpace c = false) :
    cs.dropWhile isSpace = cs := by
  cases cs with
  | nil => rfl
  | cons c cs =>
      exact List.dropWhile_cons_of_neg (by simp [h c List.mem_cons_self])

/-- The digits of a natural number, with nothing behind them. -/
theorem takeWhile_isDigit (m : Nat) :
    (Nat.toDigits 10 m).takeWhile Char.isDigit = Nat.toDigits 10 m := by
  have hall : ∀ c ∈ Nat.toDigits 10 m, c.isDigit = true := fun c hc =>
    Nat.isDigit_of_mem_toDigits (by omega) (by omega) hc
  have htake : (Nat.toDigits 10 m ++ []).takeWhile Char.isDigit =
      Nat.toDigits 10 m ++ [].takeWhile Char.isDigit := List.takeWhile_append_of_pos hall
  rwa [List.append_nil, List.takeWhile_nil, List.append_nil] at htake

/-- A number without a sign starts with a digit. -/
theorem splitSign_toDigits (m : Nat) :
    splitSign (Nat.toDigits 10 m) = (false, Nat.toDigits 10 m) := by
  cases hdigits : Nat.toDigits 10 m with
  | nil => rfl
  | cons c cs =>
      have hc : c.isDigit = true := by
        refine Nat.isDigit_of_mem_toDigits (n := m) (b := 10) (by omega) (by omega) ?_
        rw [hdigits]
        exact List.mem_cons_self
      rw [splitSign, if_neg (ne_of_digit hc (Or.inl (by decide))),
        if_neg (ne_of_digit hc (Or.inl (by decide)))]

/-- **Numbers are read back.** -/
theorem stoi_numeral (hn : IsInt n) : stoi (numeral n) = .ok n := by
  have hskip : (numeral n).dropWhile isSpace = numeral n :=
    dropWhile_isSpace fun c hc => isSpace_eq_false (mem_numeral hc)
  have hsplit : splitSign (numeral n) = (decide (n < 0), Nat.toDigits 10 n.natAbs) := by
    rw [numeral_eq]
    split_ifs with hneg
    · rw [splitSign_toDigits, show n.toNat = n.natAbs by omega, decide_eq_false (by omega)]
    · rw [splitSign, if_pos rfl, show (-n).toNat = n.natAbs by omega, decide_eq_true (by omega)]
  simp only [stoi, hskip, hsplit, takeWhile_isDigit, Nat.toDigits_ne_nil, if_false,
    Nat.ofDigitChars_ten_toDigits, decide_eq_true_eq]
  by_cases hneg : n < 0
  · rw [if_pos hneg, show -(n.natAbs : Int) = n by omega, if_pos hn]
  · rw [if_neg hneg, show (n.natAbs : Int) = n by omega, if_pos hn]

/-- Different numbers, different numerals. -/
theorem numeral_injective : Function.Injective numeral := by
  have hread : ∀ {a b : Nat}, Nat.toDigits 10 a = Nat.toDigits 10 b → a = b := by
    intro a b hab
    have hdigits := congrArg (Nat.ofDigitChars 10 · 0) hab
    rwa [Nat.ofDigitChars_ten_toDigits, Nat.ofDigitChars_ten_toDigits] at hdigits
  have hsign : ∀ {a : Nat} {cs : List Char}, Nat.toDigits 10 a ≠ '-' :: cs := by
    intro a cs heq
    have hdigit : '-'.isDigit = true :=
      Nat.isDigit_of_mem_toDigits (b := 10) (n := a) (by omega) (by omega)
        (by rw [heq]; exact List.mem_cons_self)
    exact absurd hdigit (by decide)
  intro n m h
  rw [numeral_eq, numeral_eq] at h
  split_ifs at h with hn hm hm
  · have := hread h
    omega
  · exact absurd h hsign
  · exact absurd h.symm hsign
  · have := hread (List.tail_eq_of_cons_eq h)
    omega

end Numerals

end Os377.Lib
