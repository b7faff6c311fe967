import Os377.Lib.Strtok

/-!
# The shell `tsh`

`main_tsh.cpp` and `tsh.cpp`: `main` reads a line into `cmd`, has `parse_command` put
pointers to its tokens into the 25 entries of `cmdTokens`, and looks at the first token.
Both arrays are used again for every line, so what the last line has left is still there.
A pointer is an offset into `cmd`, and `none` is `NULL`.
-/

namespace Os377.Shell

open Os377.Lib

/-- `" \n"` -/
def delims : List UInt8 := [' '.toUInt8, '\n'.toUInt8]

/-- The `for` loop of `parse_command`, with `n` rounds to go and `p` at the entry `i`. -/
def parseFrom : Nat → Nat → List UInt8 → Nat → List (Option Nat) → List (Option Nat) × List UInt8
  | 0, _, cmd, _, cmdTokens => (cmdTokens, cmd)
  | n + 1, i, cmd, save, cmdTokens =>
      let r := strtok delims cmd save
      let cmdTokens := cmdTokens.set i r.token
      match r.token with
      | some _ => parseFrom n (i + 1) r.buf r.save cmdTokens
      | none => (cmdTokens, r.buf)

/-- The entries and the line after `parse_command(cmd, cmdTokens)`. -/
def parseCommand (cmd : List UInt8) (cmdTokens : List (Option Nat)) :
    List (Option Nat) × List UInt8 :=
  let r := strtok delims cmd 0
  parseFrom 24 1 r.buf r.save (cmdTokens.set 0 r.token)

/-- The strings of an argument vector, up to the `NULL`; `none` when the array ends first. -/
def argv (cmd : List UInt8) : List (Option Nat) → Option (List (List UInt8))
  | [] => none
  | none :: _ => some []
  | some p :: rest => (argv cmd rest).map (cstrAt cmd p :: ·)

section Parse

variable {cmd : List UInt8} {cmdTokens : List (Option Nat)} {n i save : Nat}

/-- The loop puts the pointers one after the other behind the entries before `i`, and a
`NULL` behind them if it finds the end of the line; else there is no entry left. -/
theorem parseFrom_eq (n i : Nat) (cmd : List UInt8) (save : Nat) (cmdTokens : List (Option Nat))
    (hi : i + n = cmdTokens.length) :
    ∃ rest, parseFrom n i cmd save cmdTokens =
        (cmdTokens.take i ++ ((firstTokens delims n cmd save).1.map some ++ rest),
          (firstTokens delims n cmd save).2.buf) ∧
      ((firstTokens delims n cmd save).1.length < n → ∃ old, rest = none :: old) ∧
      (n ≤ (firstTokens delims n cmd save).1.length → rest = []) := by
  induction n generalizing i cmd save cmdTokens with
  | zero =>
      refine ⟨[], ?_, fun h => absurd h (Nat.not_lt_zero _), fun _ => rfl⟩
      rw [parseFrom, firstTokens, List.take_of_length_le (by omega)]
      simp
  | succ n ih =>
      rw [parseFrom, firstTokens]
      cases htoken : (strtok delims cmd save).token with
      | none =>
          refine ⟨none :: cmdTokens.drop (i + 1), ?_, fun _ => ⟨_, rfl⟩, fun h => ?_⟩
          · simp only [List.map_nil, List.nil_append]
            rw [List.set_eq_take_append_cons_drop, if_pos (by omega)]
          · exact absurd h (Nat.not_succ_le_zero n)
      | some start =>
          -- the loop goes on in the buffer that `strtok` has changed
          obtain ⟨rest, heq, hshort, hfull⟩ := ih (i + 1) (strtok delims cmd save).buf
            (strtok delims cmd save).save (cmdTokens.set i (some start))
            (by rw [List.length_set]; omega)
          refine ⟨rest, ?_, fun h => hshort (Nat.lt_of_succ_lt_succ h),
            fun h => hfull (Nat.le_of_succ_le_succ h)⟩
          simp only [heq]
          rw [List.take_add_one, List.take_set_of_le (le_refl i),
            List.getElem?_set_self (by omega)]
          simp

/-- **What `parse_command` leaves.** The entries point to the first 25 tokens, with a `NULL`
behind them if there are fewer. -/
theorem parseCommand_spec (cmd : List UInt8) (hlength : cmdTokens.length = 25) :
    ∃ (ptrs : List Nat) (rest : List (Option Nat)),
      (parseCommand cmd cmdTokens).1 = ptrs.map some ++ rest ∧
      ptrs.map (cstrAt (parseCommand cmd cmdTokens).2) =
        (tokens delims (cstrAt cmd 0)).take 25 ∧
      ((tokens delims (cstrAt cmd 0)).length < 25 → ∃ old, rest = none :: old) ∧
      (25 ≤ (tokens delims (cstrAt cmd 0)).length → rest = []) := by
  obtain ⟨hspec, -⟩ := firstTokens_spec delims 25 cmd 0
  have hcount := congrArg List.length hspec
  rw [List.length_map, List.length_take] at hcount
  obtain ⟨rest, heq, hshort, hfull⟩ := parseFrom_eq 24 1
    (strtok delims cmd 0).buf (strtok delims cmd 0).save
    (cmdTokens.set 0 (strtok delims cmd 0).token)
    (by rw [List.length_set, hlength])
  have hfirst : (cmdTokens.set 0 (strtok delims cmd 0).token).take 1 =
      [(strtok delims cmd 0).token] := by
    rw [List.take_add_one, List.take_zero, List.getElem?_set_self (by omega)]
    rfl
  rw [hfirst] at heq
  rw [firstTokens] at hspec hcount
  rw [parseCommand]
  simp only [heq]
  cases htokens : tokens delims (cstrAt cmd 0) with
  | nil =>
      obtain ⟨hnone, -⟩ := strtok_nil htokens
      rw [hnone]
      exact ⟨[], _, rfl, rfl, fun _ => ⟨_, rfl⟩, fun h => absurd h (by simp)⟩
  | cons t ts =>
      obtain ⟨start, hsome, -⟩ := strtok_cons htokens
      rw [htokens] at hspec hcount
      simp only [hsome] at hspec hcount ⊢
      rw [List.length_cons] at hcount
      refine ⟨start :: (firstTokens delims 24 (strtok delims cmd 0).buf
        (strtok delims cmd 0).save).1, rest, ?_, ?_, fun h => hshort ?_, fun h => hfull ?_⟩
      · rw [List.map_cons, List.cons_append, List.cons_append, List.nil_append]
      · exact hspec
      · omega
      · omega

theorem argv_terminated (cmd : List UInt8) (ptrs : List Nat) (old : List (Option Nat)) :
    argv cmd (ptrs.map some ++ none :: old) = some (ptrs.map (cstrAt cmd)) := by
  induction ptrs with
  | nil => rfl
  | cons p ptrs ih =>
      rw [List.map_cons, List.cons_append, argv, ih]
      rfl

theorem argv_unterminated (cmd : List UInt8) (ptrs : List Nat) :
    argv cmd (ptrs.map some) = none := by
  induction ptrs with
  | nil => rfl
  | cons p ptrs ih =>
      rw [List.map_cons, argv, ih]
      rfl

/-- The argument vector of a line. -/
theorem argv_parseCommand (cmd : List UInt8) (hlength : cmdTokens.length = 25) :
    argv (parseCommand cmd cmdTokens).2 (parseCommand cmd cmdTokens).1 =
      if (tokens delims (cstrAt cmd 0)).length ≤ 24 then some (tokens delims (cstrAt cmd 0))
      else none := by
  obtain ⟨ptrs, rest, hentries, hptrs, hshort, hfull⟩ := parseCommand_spec cmd hlength
  rw [hentries]
  split
  · next hle =>
      obtain ⟨old, rfl⟩ := hshort (Nat.lt_succ_of_le hle)
      rw [argv_terminated, hptrs, List.take_of_length_le (by omega)]
  · next hlt =>
      rw [hfull (by omega), List.append_nil, argv_unterminated]

/-- The line `cmd` in the array, with what stood there before behind its NUL. -/
theorem cstrAt_line {line junk : List UInt8} (hline : 0 ∉ line) :
    cstrAt (line ++ 0 :: junk) 0 = line := by
  rw [cstrAt_stored, List.takeWhile_eq_self_iff]
  intro c hc
  rw [bne_iff_ne]
  rintro rfl
  exact hline hc

/-- `cmdTokens` has a `NULL`, and in front of it the first tokens of the line: all of them
if there are at most 24. -/
def Complete (line junk : List UInt8) (cmdTokens : List (Option Nat)) : Prop :=
  ∃ args, argv (parseCommand (line ++ 0 :: junk) cmdTokens).2
      (parseCommand (line ++ 0 :: junk) cmdTokens).1 = some args ∧
    args <+: tokens delims line ∧ ((tokens delims line).length ≤ 24 → args = tokens delims line)

/-- **Which lines are tokenised completely**: those with at most 24 tokens. -/
theorem tokenised_iff (line junk : List UInt8) (cmdTokens : List (Option Nat)) (hline : 0 ∉ line)
    (hlength : cmdTokens.length = 25) :
    Complete line junk cmdTokens ↔ (tokens delims line).length ≤ 24 := by
  rw [Complete, argv_parseCommand _ hlength, cstrAt_line hline]
  split
  · next hle => exact ⟨fun _ => hle, fun _ => ⟨_, rfl, List.prefix_refl _, fun _ => rfl⟩⟩
  · next hlt =>
      refine ⟨?_, fun hle => absurd hle hlt⟩
      rintro ⟨args, hargs, -⟩
      cases hargs

/-- The line `a b`. -/
theorem tokenised_two_words : tokens delims [97, 32, 98] = [[97], [98]] ∧
    Complete [97, 32, 98] [] (List.replicate 25 none) := by
  have htokens : tokens delims [97, 32, 98] = [[97], [98]] :=
    (runs_single_cons (by decide) (by decide)).trans (congrArg _ (runs_single (by decide)))
  refine ⟨htokens, (tokenised_iff [97, 32, 98] [] (List.replicate 25 none) (by decide)
    List.length_replicate).mpr ?_⟩
  rw [htokens]
  decide

/-- `n + 1` tokens of one letter. -/
def letters (n : Nat) : List UInt8 := (List.replicate n [97, 32]).flatten ++ [97]

theorem tokens_letters (n : Nat) : tokens delims (letters n) = List.replicate (n + 1) [97] := by
  induction n with
  | zero => exact runs_single (by decide)
  | succ n ih =>
      have hline : letters (n + 1) = 97 :: 32 :: letters n := by
        rw [letters, List.replicate_succ, List.flatten_cons, List.append_assoc]
        rfl
      rw [hline, tokens, runs_single_cons (by decide) (by decide), List.replicate_succ]
      exact congrArg _ ih

/-- 25 letters leave no room for the `NULL`. -/
theorem letters_unterminated : ¬ ∀ (line junk : List UInt8) (cmdTokens : List (Option Nat)),
    0 ∉ line → line.length ≤ 80 → cmdTokens.length = 25 → Complete line junk cmdTokens := by
  intro hall
  have hline : 0 ∉ letters 24 := by decide
  have hlength : (List.replicate 25 (none : Option Nat)).length = 25 := List.length_replicate
  obtain ⟨args, hargs, -⟩ := hall (letters 24) [] (List.replicate 25 none) hline (by decide) hlength
  rw [argv_parseCommand _ hlength, cstrAt_line hline, tokens_letters, List.length_replicate,
    if_neg (by decide)] at hargs
  cases hargs

end Parse

/-! ## One round of `main` -/

/-- `isQuit(cmd)`, for the string at `p`. -/
def isQuit (cmd : List UInt8) (p : Nat) : Bool :=
  cmd.getD p 0 == 'q'.toUInt8 && cmd.getD (p + 1) 0 == 'u'.toUInt8 &&
    cmd.getD (p + 2) 0 == 'i'.toUInt8 && cmd.getD (p + 3) 0 == 't'.toUInt8

/-- `"quit"` -/
def quit : List UInt8 := ['q'.toUInt8, 'u'.toUInt8, 'i'.toUInt8, 't'.toUInt8]

/-- What becomes of a line. -/
inductive Outcome where
  /-- `isQuit` or `exec_command` follows a `NULL`. -/
  | followsNull
  /-- `exec_command` gets an array without a `NULL`. -/
  | unterminated
  | nothing
  | quit
  /-- `execv`, or `execvp`, in a child. -/
  | execv (args : List (List UInt8))
  | execvp (args : List (List UInt8))
  deriving DecidableEq, Repr

/-- The call for an argument vector: by path if it begins with `.`, `/` or `~`. -/
def execute (args : List (List UInt8)) : Outcome :=
  if (args.headD []).headD 0 ∈ ['.'.toUInt8, '/'.toUInt8, '~'.toUInt8] then .execv args
  else .execvp args

/-- `exec_command(argv)`; the first byte of `argv[0]` chooses the call. -/
def execCommand (cmd : List UInt8) (cmdTokens : List (Option Nat)) : Outcome :=
  match cmdTokens.headD none with
  | none => .followsNull
  | some _ =>
      match argv cmd cmdTokens with
      | none => .unterminated
      | some args => execute args

/-- The body of the `while` loop of `main`, on what `fgets` has put into `cmd`. -/
def iteration (cmd : List UInt8) (cmdTokens : List (Option Nat)) : Outcome :=
  if cmd.getD 0 0 = '\n'.toUInt8 then .nothing
  else
    let r := parseCommand cmd cmdTokens
    match r.1.headD none with
    | none => .followsNull
    | some p => if isQuit r.2 p then .quit else execCommand r.2 r.1

/-- What is to become of a line: nothing if it is blank, the end of the shell if its first
token is `quit`, and else its tokens are executed. -/
def expected (line : List UInt8) : Outcome :=
  match tokens delims line with
  | [] => .nothing
  | first :: rest =>
      if first = quit then .quit
      else execute (first :: rest)

/-- What `fgets(cmd, 81, stdin)` can store: up to 80 bytes, a newline at most at the end.
There may be NULs among them. -/
structure FgetsLine (stored : List UInt8) : Prop where
  nonempty : stored ≠ []
  short : stored.length ≤ 80
  newline : ∀ c ∈ stored.dropLast, c ≠ '\n'.toUInt8

/-- A line that the round treats as expected. -/
def Treatable (line : List UInt8) : Prop :=
  line = ['\n'.toUInt8] ∨ ∃ first rest, tokens delims line = first :: rest ∧
    (first = quit ∨ ¬ quit <+: first ∧ rest.length < 24)

section Rounds

variable {cmd : List UInt8} {cmdTokens : List (Option Nat)} {p : Nat}

theorem cons_prefix_cstrAt {c : UInt8} (hc : c ≠ 0) (s : List UInt8) :
    c :: s <+: cstrAt cmd p ↔ cmd.getD p 0 = c ∧ s <+: cstrAt cmd (p + 1) := by
  rw [cstrAt, cstrAt, ← List.drop_drop, List.getD_eq_getElem?_getD, ← Nat.add_zero p,
    ← List.getElem?_drop, Nat.add_zero]
  cases cmd.drop p with
  | nil =>
      refine iff_of_false (by simp) fun h => hc ?_
      simpa using h.1.symm
  | cons b rest =>
      by_cases hb : b = 0
      · subst hb
        refine iff_of_false (by simp) fun h => hc ?_
        simpa using h.1.symm
      · rw [List.takeWhile_cons_of_pos (by simpa using hb), List.cons_prefix_cons]
        exact and_congr_left fun _ => eq_comm

/-- `isQuit` looks at the beginning of the token. -/
theorem isQuit_iff : isQuit cmd p = true ↔ quit <+: cstrAt cmd p := by
  rw [quit, cons_prefix_cstrAt (by decide), cons_prefix_cstrAt (by decide),
    cons_prefix_cstrAt (by decide), cons_prefix_cstrAt (by decide)]
  simp [isQuit, and_assoc]

/-- A blank line other than a lone newline has no token to look at. -/
theorem iteration_blank (hlength : cmdTokens.length = 25) (hnewline : cmd.getD 0 0 ≠ '\n'.toUInt8)
    (htokens : tokens delims (cstrAt cmd 0) = []) : iteration cmd cmdTokens = .followsNull := by
  obtain ⟨ptrs, rest, hentries, hptrs, hshort, -⟩ := parseCommand_spec cmd hlength
  rw [htokens] at hptrs hshort
  obtain ⟨old, rfl⟩ := hshort (by simp)
  have hnone : ptrs = [] := by simpa using hptrs
  subst hnone
  have hhead : (parseCommand cmd cmdTokens).1.headD none = none := by rw [hentries]; rfl
  rw [iteration, if_neg hnewline]
  simp only [hhead]

/-- A line with tokens: the first one decides. -/
theorem iteration_tokens {first : List UInt8} {others : List (List UInt8)}
    (hlength : cmdTokens.length = 25) (hnewline : cmd.getD 0 0 ≠ '\n'.toUInt8)
    (htokens : tokens delims (cstrAt cmd 0) = first :: others) :
    (quit <+: first → iteration cmd cmdTokens = .quit) ∧
      (¬ quit <+: first → iteration cmd cmdTokens =
        if others.length < 24 then execute (first :: others) else .unterminated) := by
  obtain ⟨ptrs, rest, hentries, hptrs, -⟩ := parseCommand_spec cmd hlength
  have hargv := argv_parseCommand cmd hlength
  rw [htokens] at hptrs hargv
  cases ptrs with
  | nil => cases hptrs
  | cons p ptrs =>
      have hfirst : cstrAt (parseCommand cmd cmdTokens).2 p = first := List.head_eq_of_cons_eq hptrs
      have hhead : (parseCommand cmd cmdTokens).1.headD none = some p := by rw [hentries]; rfl
      rw [iteration, if_neg hnewline]
      simp only [hhead]
      constructor
      · intro hquit
        rw [if_pos (isQuit_iff.mpr (hfirst ▸ hquit))]
      · intro hquit
        rw [if_neg (fun h => hquit (hfirst ▸ isQuit_iff.mp h)), execCommand, hhead]
        simp only [hargv, List.length_cons, Nat.succ_le_iff]
        by_cases hcount : others.length < 24
        · simp only [if_pos hcount]
        · simp only [if_neg hcount]

/-- A line that begins with a newline has nothing else. -/
theorem FgetsLine.newline_only {stored junk : List UInt8} (h : FgetsLine stored) :
    (stored ++ 0 :: junk).getD 0 0 = '\n'.toUInt8 ↔
      stored.takeWhile (· != 0) = ['\n'.toUInt8] := by
  cases stored with
  | nil => exact absurd rfl h.nonempty
  | cons b stored =>
      show b = '\n'.toUInt8 ↔ _
      constructor
      · rintro rfl
        cases stored with
        | nil => decide
        | cons b' stored => exact absurd rfl (h.newline _ (by simp))
      · intro hline
        have hprefix : (b :: stored).takeWhile (· != 0) <+: b :: stored := List.takeWhile_prefix _
        rw [hline, List.cons_prefix_cons] at hprefix
        exact hprefix.1.symm

theorem execute_ne (args : List (List UInt8)) :
    execute args ≠ .quit ∧ execute args ≠ .unterminated := by
  rw [execute]
  split
  · exact ⟨by simp, by simp⟩
  · exact ⟨by simp, by simp⟩

/-- **Which lines the shell treats correctly**: a lone newline; a line whose first token is
`quit`; and a line with a first token that does not begin so, and at most 24 tokens. -/
theorem iteration_iff (stored junk : List UInt8) (cmdTokens : List (Option Nat))
    (hstored : FgetsLine stored) (hlength : cmdTokens.length = 25) :
    iteration (stored ++ 0 :: junk) cmdTokens = expected (stored.takeWhile (· != 0)) ↔
      Treatable (stored.takeWhile (· != 0)) := by
  have hline := cstrAt_stored stored junk
  by_cases hnewline : (stored ++ 0 :: junk).getD 0 0 = '\n'.toUInt8
  · have hlone := hstored.newline_only.mp hnewline
    have hblank : tokens delims ['\n'.toUInt8] = [] := runs_of_nil (by decide)
    rw [iteration, if_pos hnewline, hlone, expected, hblank]
    exact iff_of_true rfl (Or.inl rfl)
  · have hlone : stored.takeWhile (· != 0) ≠ ['\n'.toUInt8] := fun h =>
      hnewline (hstored.newline_only.mpr h)
    cases htokens : tokens delims (stored.takeWhile (· != 0)) with
    | nil =>
        rw [iteration_blank hlength hnewline (hline ▸ htokens), expected, htokens]
        refine iff_of_false (by simp) ?_
        rintro (hnl | ⟨first, rest, hcons, -⟩)
        · exact hlone hnl
        · rw [htokens] at hcons
          cases hcons
    | cons first others =>
        have hcond : Treatable (stored.takeWhile (· != 0)) ↔
            first = quit ∨ ¬ quit <+: first ∧ others.length < 24 := by
          constructor
          · rintro (hnl | ⟨first', rest, hcons, h⟩)
            · exact absurd hnl hlone
            · obtain ⟨rfl, rfl⟩ := List.cons.inj (htokens.symm.trans hcons)
              exact h
          · exact fun h => Or.inr ⟨first, others, htokens, h⟩
        obtain ⟨hquit, hexec⟩ := iteration_tokens hlength hnewline (hline ▸ htokens)
        rw [hcond, expected, htokens]
        -- `isQuit` sees the prefix only
        by_cases hprefix : quit <+: first
        · simp only [hquit hprefix, hprefix, not_true_eq_false, false_and, or_false]
          by_cases hfirst : first = quit
          · simp [hfirst]
          · simp only [hfirst, if_false, iff_false]
            exact fun h => (execute_ne _).1 h.symm
        · have hfirst : first ≠ quit := fun h => hprefix (h ▸ List.prefix_refl _)
          simp only [hexec hprefix, hprefix, hfirst, if_false, false_or, not_false_eq_true,
            true_and]
          by_cases hcount : others.length < 24
          · simp [hcount]
          · simp only [hcount, if_false, iff_false]
            exact fun h => (execute_ne _).2 h.symm

/-- The line `a` is executed. -/
theorem iteration_a : iteration ([97, 10] ++ 0 :: []) (List.replicate 25 none) =
    .execvp [[97]] := by
  have htokens : tokens delims [97, 10] = [[97]] :=
    (runs_single_cons (by decide) (by decide)).trans (congrArg _ runs_nil)
  have hround := (iteration_iff [97, 10] [] (List.replicate 25 none)
    ⟨by decide, by decide, List.forall_mem_singleton.mpr (by decide)⟩ List.length_replicate).mpr
    (Or.inr ⟨[97], [], htokens, Or.inr ⟨by decide, by decide⟩⟩)
  rw [hround]
  show expected [97, 10] = .execvp [[97]]
  rw [expected, htokens]
  rfl

/-- A blank and a newline: `isQuit` follows a `NULL`. -/
theorem blank_follows_null : ¬ ∀ (stored junk : List UInt8) (cmdTokens : List (Option Nat)),
    FgetsLine stored → cmdTokens.length = 25 →
      iteration (stored ++ 0 :: junk) cmdTokens = expected (stored.takeWhile (· != 0)) := by
  intro hall
  have hlength : (List.replicate 25 (none : Option Nat)).length = 25 := List.length_replicate
  have hround := hall [32, 10] [] (List.replicate 25 none)
    ⟨by decide, by decide, List.forall_mem_singleton.mpr (by decide)⟩ hlength
  have hblank : tokens delims [32, 10] = [] := runs_of_nil (by decide)
  rw [iteration_blank hlength (by decide) (by rw [cstrAt_stored]; exact hblank)] at hround
  have hexpected : expected ([32, 10].takeWhile (· != 0)) = .nothing := by
    show expected [32, 10] = .nothing
    rw [expected, hblank]
  rw [hexpected] at hround
  cases hround

end Rounds

end Os377.Shell
