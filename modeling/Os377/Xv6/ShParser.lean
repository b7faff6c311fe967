import Os377.Lib.Strtok
import Os377.Xv6.ShGrammar

/-!
# The parser of the xv6 shell

`sh.c` from `gettoken` to `nulterminate`. A pointer into the line is the part of the line
that it points to; `es` points behind the last byte. The recursion is on a bound that
`parsecmd` chooses large enough.
-/

namespace Os377.Xv6.Sh

open Os377.Lib

/-- The pointers `q` and `eq` to a word and behind it. -/
structure Span where
  q : Text
  eq : Text
  deriving DecidableEq, Repr

/-- The calls of `panic`, and running out of the bound. -/
inductive Stop where
  /-- `"syntax"` -/
  | syntaxError
  /-- `"missing file for redirection"` -/
  | missingFile
  /-- `"parseblock"` -/
  | parseblock
  /-- `"syntax - missing )"` -/
  | missingParen
  /-- `"too many args"` -/
  | tooManyArgs
  | outOfFuel
  deriving DecidableEq, Repr

/-- The code of a token, its pointers, and where `*ps` is left. -/
def gettoken (s : Text) : UInt8 × Span × Text :=
  match skip s with
  | [] => (0, ⟨[], []⟩, [])
  | c :: rest =>
      if c ∈ singles then (c, ⟨c :: rest, rest⟩, skip rest)
      else if c = '>'.toUInt8 then
        match rest with
        | d :: rest' =>
            if d = '>'.toUInt8 then ('+'.toUInt8, ⟨c :: rest, rest'⟩, skip rest')
            else (c, ⟨c :: rest, rest⟩, skip rest)
        | [] => (c, ⟨c :: rest, rest⟩, skip rest)
      else
        let e := (c :: rest).dropWhile plain
        ('a'.toUInt8, ⟨c :: rest, e⟩, skip e)

/-- Whether one of `toks` is next, and where `*ps` is left. -/
def peek (s : Text) (toks : Text) : Bool × Text :=
  match skip s with
  | [] => (false, [])
  | c :: rest => (toks.contains c, c :: rest)

def parseredirs : Nat → Cmd Span → Text → Except Stop (Cmd Span × Text)
  | 0, _, _ => .error .outOfFuel
  | n + 1, cmd, s =>
      let (more, s) := peek s ['<'.toUInt8, '>'.toUInt8]
      if more then
        let (tok, _, s) := gettoken s
        let (kind, file, s) := gettoken s
        if kind ≠ 'a'.toUInt8 then .error .missingFile
        else parseredirs n (redirect cmd (tok, file)) s
      else .ok (cmd, s)

/-- `cmd` points to the `EXEC` node within the redirections of `ret`. -/
def fill (argv : List Span) : Cmd Span → Cmd Span
  | .redir cmd file mode fd => .redir (fill argv cmd) file mode fd
  | .exec _ => .exec argv
  | cmd => cmd

/-- The loop of `parseexec`. -/
def parseargs : Nat → List Span → Cmd Span → Text → Except Stop (Cmd Span × Text)
  | 0, _, _, _ => .error .outOfFuel
  | n + 1, argv, ret, s =>
      let (stop, s) := peek s ['|'.toUInt8, ')'.toUInt8, '&'.toUInt8, ';'.toUInt8]
      if stop then .ok (fill argv ret, s)
      else
        let (tok, word, s) := gettoken s
        if tok = 0 then .ok (fill argv ret, s)
        else if tok ≠ 'a'.toUInt8 then .error .syntaxError
        else if maxArgs ≤ argv.length + 1 then .error .tooManyArgs
        else
          match parseredirs (s.length + 1) ret s with
          | .error e => .error e
          | .ok (ret, s) => parseargs n (argv ++ [word]) ret s

/-- The loop of `parseline`. -/
def parseamps : Nat → Cmd Span → Text → Except Stop (Cmd Span × Text)
  | 0, _, _ => .error .outOfFuel
  | n + 1, cmd, s =>
      let (more, s) := peek s ['&'.toUInt8]
      if more then
        let (_, _, s) := gettoken s
        parseamps n (.back cmd) s
      else .ok (cmd, s)

mutual

def parseline : Nat → Text → Except Stop (Cmd Span × Text)
  | 0, _ => .error .outOfFuel
  | n + 1, s =>
      match parsepipe n s with
      | .error e => .error e
      | .ok (cmd, s) =>
          match parseamps (s.length + 1) cmd s with
          | .error e => .error e
          | .ok (cmd, s) =>
              let (more, s) := peek s [';'.toUInt8]
              if more then
                let (_, _, s) := gettoken s
                match parseline n s with
                | .error e => .error e
                | .ok (right, s) => .ok (.list cmd right, s)
              else .ok (cmd, s)

def parsepipe : Nat → Text → Except Stop (Cmd Span × Text)
  | 0, _ => .error .outOfFuel
  | n + 1, s =>
      match parseexec n s with
      | .error e => .error e
      | .ok (cmd, s) =>
          let (more, s) := peek s ['|'.toUInt8]
          if more then
            let (_, _, s) := gettoken s
            match parsepipe n s with
            | .error e => .error e
            | .ok (right, s) => .ok (.pipe cmd right, s)
          else .ok (cmd, s)

def parseblock : Nat → Text → Except Stop (Cmd Span × Text)
  | 0, _ => .error .outOfFuel
  | n + 1, s =>
      let (here, s) := peek s ['('.toUInt8]
      if here then
        let (_, _, s) := gettoken s
        match parseline n s with
        | .error e => .error e
        | .ok (cmd, s) =>
            let (closed, s) := peek s [')'.toUInt8]
            if closed then
              let (_, _, s) := gettoken s
              parseredirs (s.length + 1) cmd s
            else .error .missingParen
      else .error .parseblock

def parseexec : Nat → Text → Except Stop (Cmd Span × Text)
  | 0, _ => .error .outOfFuel
  | n + 1, s =>
      let (block, s) := peek s ['('.toUInt8]
      if block then parseblock n s
      else
        match parseredirs (s.length + 1) (.exec []) s with
        | .error e => .error e
        | .ok (ret, s) => parseargs (s.length + 1) [] ret s

end

/-- `*eq = 0`, in the line `buf`. -/
def cut (buf : Text) (w : Span) : Text := buf.set (buf.length - w.eq.length) 0

def nulterminate : Cmd Span → Text → Text
  | .exec argv, buf => argv.foldl cut buf
  | .redir cmd file _ _, buf => cut (nulterminate cmd buf) file
  | .pipe left right, buf | .list left right, buf => nulterminate right (nulterminate left buf)
  | .back cmd, buf => nulterminate cmd buf

/-- The command, and what is left of the line. -/
def parsecmd (s : Text) : Except Stop (Cmd Span × Text) :=
  match parseline (4 * s.length + 4) s with
  | .error e => .error e
  | .ok (cmd, rest) =>
      if (peek rest []).2 ≠ [] then .error .syntaxError else .ok (cmd, nulterminate cmd s)

/-- The string that a pointer into the line points to, once `nulterminate` has been through
it. -/
def stringAt (buf : Text) (w : Span) : Text := cstrAt buf (buf.length - w.q.length)

/-- The command that the shell goes on to run. -/
def parsed (s : Text) : Except Stop (Cmd Text) :=
  match parsecmd s with
  | .error e => .error e
  | .ok (cmd, buf) => .ok (cmd.map (stringAt buf))

end Os377.Xv6.Sh
