import Mathlib.Data.List.Basic
import Mathlib.Data.List.TakeWhile

/-!
# The command lines of the xv6 shell

What `sh.c` is meant to accept, apart from how it parses: the tokens that a text consists
of (`Renders`), and the trees that a row of tokens stands for (`Line`).

    line   = pipe {'&'} [';' line]
    pipe   = exec ['|' pipe]
    exec   = '(' line ')' {redir} | {word | redir}
    redir  = ('<' | '>' | '>>') word

Redirections wrap a command in the order in which they are written, the last one outermost.
-/

namespace Os377.Xv6.Sh

/-- The bytes of a line, without the NUL behind them. -/
abbrev Text := List UInt8

/-- `" \t\r\n\v"` -/
def whitespace : Text := [' '.toUInt8, '\t'.toUInt8, '\r'.toUInt8, '\n'.toUInt8, 11]

/-- `"<|>&;()"` -/
def symbols : Text :=
  ['<'.toUInt8, '|'.toUInt8, '>'.toUInt8, '&'.toUInt8, ';'.toUInt8, '('.toUInt8, ')'.toUInt8]

/-- The symbols that are a token by themselves, whatever follows. -/
def singles : Text :=
  ['|'.toUInt8, '('.toUInt8, ')'.toUInt8, ';'.toUInt8, '&'.toUInt8, '<'.toUInt8]

/-- A byte of a word. -/
def plain (c : UInt8) : Bool := !whitespace.contains c && !symbols.contains c

/-- `MAXARGS` -/
def maxArgs : Nat := 10

/-- A token: a word, or a symbol by the code that `gettoken` returns, `'+'` for `>>`. -/
inductive Tok where
  | word (w : Text)
  | sym (c : UInt8)
  deriving DecidableEq, Repr

/-- `while(s < es && strchr(whitespace, *s)) s++;` -/
def skip (s : Text) : Text := s.dropWhile fun c => whitespace.contains c

/-- What stands behind a word is not another byte of it. -/
def Ends (s : Text) : Prop := ∀ c rest, s = c :: rest → plain c = false

/-- A text and its tokens; of two readings of `>>`, the one token. -/
inductive Renders : List Tok → Text → Prop
  | nil {s} : skip s = [] → Renders [] s
  | word {s w s' ts} : skip s = w ++ s' → w ≠ [] → (∀ c ∈ w, plain c = true) → Ends s' →
      Renders ts s' → Renders (.word w :: ts) s
  | single {s c s' ts} : skip s = c :: s' → c ∈ singles → Renders ts s' →
      Renders (.sym c :: ts) s
  | gt {s s' ts} : skip s = '>'.toUInt8 :: s' → s'.head? ≠ some '>'.toUInt8 → Renders ts s' →
      Renders (.sym '>'.toUInt8 :: ts) s
  | gtgt {s s' ts} : skip s = '>'.toUInt8 :: '>'.toUInt8 :: s' → Renders ts s' →
      Renders (.sym '+'.toUInt8 :: ts) s

/-- `struct cmd`, with whatever stands for a string of the line. -/
inductive Cmd (W : Type) where
  | exec (argv : List W)
  | redir (cmd : Cmd W) (file : W) (mode : Nat) (fd : Nat)
  | pipe (left right : Cmd W)
  | list (left right : Cmd W)
  | back (cmd : Cmd W)
  deriving DecidableEq, Repr

namespace Cmd

variable {V W X : Type}

def map (f : V → W) : Cmd V → Cmd W
  | .exec argv => .exec (argv.map f)
  | .redir cmd file mode fd => .redir (cmd.map f) (f file) mode fd
  | .pipe left right => .pipe (left.map f) (right.map f)
  | .list left right => .list (left.map f) (right.map f)
  | .back cmd => .back (cmd.map f)

/-- All strings of a command. -/
def words : Cmd W → List W
  | .exec argv => argv
  | .redir cmd file _ _ => file :: cmd.words
  | .pipe left right | .list left right => left.words ++ right.words
  | .back cmd => cmd.words

theorem map_congr {f g : V → W} {cmd : Cmd V} (h : ∀ w ∈ cmd.words, f w = g w) :
    cmd.map f = cmd.map g := by
  induction cmd with
  | exec argv => exact congrArg exec (List.map_congr_left h)
  | redir cmd file mode fd ih =>
      rw [map, map, h file List.mem_cons_self, ih fun w hw => h w (List.mem_cons_of_mem file hw)]
  | pipe left right ihl ihr =>
      rw [map, map, ihl fun w hw => h w (List.mem_append_left _ hw),
        ihr fun w hw => h w (List.mem_append_right _ hw)]
  | list left right ihl ihr =>
      rw [map, map, ihl fun w hw => h w (List.mem_append_left _ hw),
        ihr fun w hw => h w (List.mem_append_right _ hw)]
  | back cmd ih => rw [map, map, ih h]

end Cmd

/-- `O_RDONLY` -/
def oRdonly : Nat := 0x000

/-- `O_WRONLY|O_CREATE` -/
def oWronlyCreate : Nat := 0x001 ||| 0x200

/-- The node of a redirection. -/
def redirect {W : Type} (cmd : Cmd W) (r : UInt8 × W) : Cmd W :=
  if r.1 = '<'.toUInt8 then .redir cmd r.2 oRdonly 0 else .redir cmd r.2 oWronlyCreate 1

/-- A command within its redirections. -/
def wrap {W : Type} (rs : List (UInt8 × W)) (cmd : Cmd W) : Cmd W := rs.foldl redirect cmd

/-- The codes of the redirections. -/
def arrows : Text := ['<'.toUInt8, '>'.toUInt8, '+'.toUInt8]

/-- Words and redirections in any order. -/
inductive Simple : List Tok → List Text → List (UInt8 × Text) → Prop
  | nil : Simple [] [] []
  | word {w ts ws rs} : Simple ts ws rs → Simple (.word w :: ts) (w :: ws) rs
  | redir {c w ts ws rs} : c ∈ arrows → Simple ts ws rs →
      Simple (.sym c :: .word w :: ts) ws ((c, w) :: rs)

/-- `n` times in the background. -/
def backs {W : Type} (n : Nat) (cmd : Cmd W) : Cmd W := Nat.rec cmd (fun _ c => .back c) n

mutual

inductive Exec : List Tok → Cmd Text → Prop
  | simple {ts ws rs} : Simple ts ws rs → ws.length < maxArgs → Exec ts (wrap rs (.exec ws))
  | block {ts ts' cmd rs} : Line ts cmd → Simple ts' [] rs →
      Exec (.sym '('.toUInt8 :: (ts ++ .sym ')'.toUInt8 :: ts')) (wrap rs cmd)

inductive Pipe : List Tok → Cmd Text → Prop
  | one {ts cmd} : Exec ts cmd → Pipe ts cmd
  | more {ts ts' left right} : Exec ts left → Pipe ts' right →
      Pipe (ts ++ .sym '|'.toUInt8 :: ts') (.pipe left right)

inductive Line : List Tok → Cmd Text → Prop
  | one {ts cmd} (n : Nat) : Pipe ts cmd →
      Line (ts ++ List.replicate n (.sym '&'.toUInt8)) (backs n cmd)
  | more {ts ts' left right} (n : Nat) : Pipe ts left → Line ts' right →
      Line (ts ++ (List.replicate n (.sym '&'.toUInt8) ++ .sym ';'.toUInt8 :: ts'))
        (.list (backs n left) right)

end

end Os377.Xv6.Sh
