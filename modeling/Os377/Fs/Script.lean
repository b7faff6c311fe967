import Os377.Fs.Disk
import Os377.Lib.Strtok

/-!
# Scripts

`main.cpp` of p6: every line of the script is read into `line`, cut into tokens and
dispatched on the first byte of the first one. `line` and the three entries of `cmd` are
the same for all lines, and nobody counts the tokens: a line with fewer than its
operation takes goes on with pointers of the lines before, and a line with more than
three stores behind the array. There is one `buff`, full of ones at first: a line `R` fills
it with the block it reads, and a line `W` hands over what it holds by then.

A pointer is an offset into `line`, and `none` one that has never been set.
-/

namespace Os377.Fs

open Os377.Lib

/-- The variables of `main`, and the disk. -/
structure Session where
  disk : Disk
  buff : Buf
  line : List UInt8
  cmd : List (Option Nat)

/-- What `main` calls, with the arguments: what it takes from `cmd`, and for `write` the
contents of `buff`. `read` is handed `buff` too, but only to put the block there. -/
inductive Request where
  | createFile (name : List UInt8) (size : Int)
  | deleteFile (name : List UInt8)
  | ls
  | read (name : List UInt8) (blockNum : Int)
  | write (name : List UInt8) (blockNum : Int) (buf : Buf)
  | print (text : List UInt8)

/-- The bytes up to the first NUL. -/
def cstring (s : List UInt8) : CString where
  bytes := s.takeWhile (· != 0)
  nulFree := fun h => absurd (List.mem_takeWhile_imp h) (by decide)

/-- `isspace` -/
def isSpaceByte (c : UInt8) : Bool := c == 32 || (9 ≤ c && c ≤ 13)

def isDigitByte (c : UInt8) : Bool := 48 ≤ c && c ≤ 57

/-- `atoi(s)`: the value as a `long`, which is cut off at its bounds, as an `int`. -/
def atoi (s : List UInt8) : Int :=
  let s := s.dropWhile isSpaceByte
  let negative := s.head? == some 45
  let digits := (if negative || s.head? == some 43 then s.tail else s).takeWhile isDigitByte
  let value : Nat := digits.foldl (fun n c => 10 * n + (c.toNat - 48)) 0
  let long : Int :=
    if negative then max (-9223372036854775808) (-value) else min 9223372036854775807 value
  (BitVec.ofInt 32 long).toInt

/-- The `while (input != NULL)` loop, with room for `n` more pointers from entry `cmdCnt` on;
`none` when it stores behind the array. -/
def storeTokens : Nat → Nat → List UInt8 → Nat → List (Option Nat) →
    Option (List (Option Nat) × List UInt8)
  | 0, _, line, save, cmd =>
      let r := strtok [32] line save
      if r.token = none then some (cmd, r.buf) else none
  | n + 1, cmdCnt, line, save, cmd =>
      let r := strtok [32] line save
      match r.token with
      | none => some (cmd, r.buf)
      | some input => storeTokens n (cmdCnt + 1) r.buf r.save (cmd.set cmdCnt (some input))

/-- `testfile.getline(line, 100)` and the tokens of the line. -/
def tokenise (s : Session) (text : List UInt8) : Option (List (Option Nat) × List UInt8) :=
  storeTokens 3 0 (text ++ 0 :: s.line.drop (text.length + 1)) 0 s.cmd

/-- The `switch`, on the strings that `cmd` points to; `none` where it takes a pointer that
was never set. -/
def request (buff : Buf) (cmd : List (Option (List UInt8))) : Option Request := do
  let command ← cmd.getD 0 none
  let first := command.headD 0
  if first = 'C'.toUInt8 then
    let name ← cmd.getD 1 none
    let size ← cmd.getD 2 none
    pure (.createFile name (atoi size))
  else if first = 'D'.toUInt8 then
    let name ← cmd.getD 1 none
    pure (.deleteFile name)
  else if first = 'L'.toUInt8 then pure .ls
  else if first = 'R'.toUInt8 then
    let name ← cmd.getD 1 none
    let blockNum ← cmd.getD 2 none
    pure (.read name (atoi blockNum))
  else if first = 'W'.toUInt8 then
    let name ← cmd.getD 1 none
    let blockNum ← cmd.getD 2 none
    pure (.write name (atoi blockNum) buff)
  else pure (.print command)

/-- The operation that a line performs. -/
def operation (s : Session) (text : List UInt8) : Option Request :=
  (tokenise s text).bind fun r => request s.buff (r.1.map fun ptr => ptr.map (cstrAt r.2))

/-- The call. -/
def perform (s : Session) : Request → Except Fault Session
  | .createFile name size =>
      (createFile s.disk (cstring name) size).map fun r => { s with disk := r.disk }
  | .deleteFile name => (deleteFile s.disk (cstring name)).map fun r => { s with disk := r.disk }
  | .ls => .ok s
  | .read name blockNum =>
      (read s.disk (cstring name) blockNum).map fun r => { s with buff := r.buf.getD s.buff }
  | .write name blockNum buf =>
      (write s.disk (cstring name) blockNum buf).map fun r => { s with disk := r.disk }
  | .print _ => .ok s

/-- A line of the script, where the behaviour is defined. -/
def processLine (s : Session) (text : List UInt8) : Option Session := do
  let (cmd, line) ← tokenise s text
  let req ← operation s text
  (perform { s with cmd := cmd, line := line } req).toOption

/-- A line that `getline` takes: at most 99 characters, none of them a newline. -/
def ScriptLine (text : List UInt8) : Prop := text.length ≤ 99 ∧ '\n'.toUInt8 ∉ text

/-- The dummy buffer. -/
def ones : Buf := fun _ => '1'.toUInt8

/-- `main` at the first line. -/
def Session.start (disk : Disk) (line : List UInt8) : Session :=
  ⟨disk, ones, line, [none, none, none]⟩

/-- `main` somewhere in a script. -/
inductive Session.Reached : Session → Prop
  | start (disk : Disk) (line : List UInt8) : line.length = 100 → Reached (start disk line)
  | next {s s' : Session} {text : List UInt8} : Reached s → ScriptLine text →
      processLine s text = some s' → Reached s'

/-- The tokens of a line. -/
def scriptTokens (text : List UInt8) : List (List UInt8) :=
  tokens [32] (text.takeWhile (· != 0))

/-- How many entries of `cmd` the operation takes, by the first byte of the first one. -/
def taken (first : UInt8) : Nat :=
  if first = 'C'.toUInt8 ∨ first = 'R'.toUInt8 ∨ first = 'W'.toUInt8 then 3
  else if first = 'D'.toUInt8 then 2
  else 1

/-- The first byte of the first token, which chooses the operation. -/
def commandByte (toks : List (List UInt8)) : UInt8 := (toks.headD []).headD 0

/-- How many tokens a line with these has to have. -/
def needed (toks : List (List UInt8)) : Nat := taken (commandByte toks)

/-- The line acts on its own tokens: wherever it stands in a script, its pointers go into
`cmd`, and two scripts that have come to it with the same disk perform the same
operation with the same arguments. -/
def OwnTokens (text : List UInt8) : Prop :=
  (∀ s : Session, s.Reached → tokenise s text ≠ none) ∧
    ∀ s s' : Session, s.Reached → s'.Reached → s.disk = s'.disk →
      operation s text = operation s' text

section Tokens

variable {s : Session} {line text : List UInt8} {cmd : List (Option Nat)} {n cmdCnt save : Nat}

/-- With room enough the pointers stand behind the entries before, and behind them the old
ones. -/
theorem storeTokens_spec (n cmdCnt : Nat) (line : List UInt8) (save : Nat)
    (cmd : List (Option Nat)) (hroom : cmdCnt + n = cmd.length)
    (hcount : (tokens [32] (cstrAt line save)).length ≤ n) :
    ∃ (ptrs : List Nat) (line' : List UInt8), storeTokens n cmdCnt line save cmd =
        some (cmd.take cmdCnt ++ (ptrs.map some ++ cmd.drop (cmdCnt + ptrs.length)), line') ∧
      ptrs.map (cstrAt line') = tokens [32] (cstrAt line save) ∧
      ∀ q, q + (cstrAt line q).length ≤ save → cstrAt line' q = cstrAt line q := by
  induction n generalizing cmdCnt line save cmd with
  | zero =>
      have hnil : tokens [32] (cstrAt line save) = [] :=
        List.eq_nil_of_length_eq_zero (Nat.le_zero.mp hcount)
      obtain ⟨hnone, hbuf⟩ := strtok_nil hnil
      refine ⟨[], line, ?_, hnil.symm, fun q _ => rfl⟩
      rw [storeTokens]
      simp only [hnone, if_true, hbuf]
      rw [List.take_of_length_le (by omega), List.drop_eq_nil_of_le (by simp; omega)]
      simp
  | succ n ih =>
      cases htokens : tokens [32] (cstrAt line save) with
      | nil =>
          obtain ⟨hnone, hbuf⟩ := strtok_nil htokens
          refine ⟨[], line, ?_, rfl, fun q _ => rfl⟩
          rw [storeTokens]
          simp only [hnone, hbuf]
          simp
      | cons t ts =>
          obtain ⟨start, hsome, htoken, hle, hsave, hrest, hframe⟩ := strtok_cons htokens
          rw [htokens, List.length_cons] at hcount
          obtain ⟨ptrs, line', hstore, hptrs, hkeep⟩ := ih (cmdCnt + 1) _ _
            (cmd.set cmdCnt (some start)) (by rw [List.length_set]; omega)
            (by rw [hrest]; omega)
          refine ⟨start :: ptrs, line', ?_, ?_, fun q hq => ?_⟩
          · rw [storeTokens]
            simp only [hsome, hstore]
            rw [List.take_add_one, List.take_set_of_le (le_refl cmdCnt),
              List.getElem?_set_self (by omega), List.drop_set, if_pos (by omega)]
            simp [Nat.add_assoc, Nat.add_comm 1]
          · rw [List.map_cons, hptrs, hrest, hkeep start (by rw [htoken]; exact hsave), htoken]
          · rw [hkeep q (by rw [hframe q hq]; omega), hframe q hq]

/-- Without it, the loop leaves the array. -/
theorem storeTokens_stray (hcount : n < (tokens [32] (cstrAt line save)).length) :
    storeTokens n cmdCnt line save cmd = none := by
  induction n generalizing cmdCnt line save cmd with
  | zero =>
      obtain ⟨t, ts, htokens⟩ := List.exists_cons_of_length_pos hcount
      obtain ⟨start, hsome, -⟩ := strtok_cons htokens
      rw [storeTokens]
      simp [hsome]
  | succ n ih =>
      obtain ⟨t, ts, htokens⟩ := List.exists_cons_of_length_pos (Nat.zero_lt_of_lt hcount)
      obtain ⟨start, hsome, -, -, -, hrest, -⟩ := strtok_cons htokens
      rw [storeTokens]
      simp only [hsome]
      refine ih ?_
      rw [htokens, List.length_cons] at hcount
      rw [hrest]
      omega

/-- Which strings the operation is chosen from: the tokens of the line, and for the entries
behind them what the old pointers point to now. -/
theorem operation_eq (hcmd : s.cmd.length = 3) (hcount : (scriptTokens text).length ≤ 3) :
    ∃ (ptrs : List Nat) (line' : List UInt8), tokenise s text =
        some (ptrs.map some ++ s.cmd.drop (scriptTokens text).length, line') ∧
      ptrs.length = (scriptTokens text).length ∧
      operation s text = request s.buff ((scriptTokens text).map some ++
        (s.cmd.drop (scriptTokens text).length).map fun ptr => ptr.map (cstrAt line')) := by
  have htext := cstrAt_stored text (s.line.drop (text.length + 1))
  obtain ⟨ptrs, line', hstore, hptrs, -⟩ := storeTokens_spec 3 0
    (text ++ 0 :: s.line.drop (text.length + 1)) 0 s.cmd
    (by rw [hcmd]) (by rw [htext]; exact hcount)
  rw [htext] at hptrs
  have hlength : ptrs.length = (scriptTokens text).length := by
    rw [scriptTokens, ← hptrs, List.length_map]
  rw [List.take_zero, List.nil_append, Nat.zero_add, hlength] at hstore
  refine ⟨ptrs, line', hstore, hlength, ?_⟩
  rw [operation, tokenise, hstore, Option.bind_some, List.map_append, List.map_map, scriptTokens,
    ← hptrs, List.map_map]
  rfl

/-- A line with too many tokens. -/
theorem tokenise_stray (hcount : 3 < (scriptTokens text).length) : tokenise s text = none := by
  refine storeTokens_stray ?_
  rw [cstrAt_stored]
  exact hcount

theorem map_eq_ok {ε α β : Type} {f : α → β} {x : Except ε α} {b : β} (h : x.map f = .ok b) :
    ∃ a, x = .ok a ∧ f a = b := by
  cases x with
  | error e => cases h
  | ok a => exact ⟨a, rfl, Except.ok.inj h⟩

/-- No operation touches `cmd`. -/
theorem perform_cmd {s' : Session} {req : Request} (h : perform s req = .ok s') :
    s'.cmd = s.cmd := by
  cases req with
  | ls | print => rw [← Except.ok.inj h]
  | createFile | deleteFile | read | write =>
      obtain ⟨r, -, rfl⟩ := map_eq_ok h
      rfl

/-- `cmd` keeps its three entries. -/
theorem Session.Reached.cmd_length (h : s.Reached) : s.cmd.length = 3 := by
  induction h with
  | start => rfl
  | @next s s' text _ _ hline ih =>
      obtain ⟨⟨cmd, line⟩, htokens, hline⟩ := Option.bind_eq_some_iff.mp hline
      obtain ⟨req, -, hreq⟩ := Option.bind_eq_some_iff.mp hline
      have hcmd : s'.cmd = cmd := by
        cases hperform : perform { s with cmd := cmd, line := line } req with
        | error e =>
            rw [hperform] at hreq
            cases hreq
        | ok s₁ =>
            rw [hperform] at hreq
            exact Option.some.inj hreq ▸ perform_cmd hperform
      by_cases hcount : (scriptTokens text).length ≤ 3
      · obtain ⟨ptrs, line', htokens', hlength, -⟩ := operation_eq ih hcount
        obtain ⟨rfl, rfl⟩ := Prod.mk.inj (Option.some.inj (htokens.symm.trans htokens'))
        rw [hcmd, List.length_append, List.length_map, List.length_drop, hlength, ih]
        omega
      · rw [tokenise_stray (not_le.mp hcount)] at htokens
        cases htokens

end Tokens

section Requests

variable {buff buff' : Buf} {toks : List (List UInt8)} {old old' : List (Option (List UInt8))}
  {text : List UInt8} {s : Session}

/-- What the operation of a command byte makes of the entries behind the first. -/
theorem request_cons (buff : Buf) (a : List UInt8) :
    (taken (a.headD 0) = 1 ∧ ∃ req, ∀ rest, request buff (some a :: rest) = some req) ∨
    (taken (a.headD 0) = 2 ∧ ∃ f : List UInt8 → Request, ∀ rest,
      request buff (some a :: rest) = (rest.getD 0 none).map f) ∨
    (taken (a.headD 0) = 3 ∧ ∃ f : List UInt8 → List UInt8 → Request, ∀ rest,
      request buff (some a :: rest) =
        (rest.getD 0 none).bind fun x => (rest.getD 1 none).map (f x)) := by
  have hone : ∀ (o : Option (List UInt8)) (f : List UInt8 → Request),
      (o.bind fun x => some (f x)) = o.map f := fun o f => by cases o <;> rfl
  have hrequest : ∀ rest, request buff (some a :: rest) =
      if a.headD 0 = 'C'.toUInt8 then
        (rest.getD 0 none).bind fun x => (rest.getD 1 none).bind fun y =>
          some (.createFile x (atoi y))
      else if a.headD 0 = 'D'.toUInt8 then
        (rest.getD 0 none).bind fun x => some (.deleteFile x)
      else if a.headD 0 = 'L'.toUInt8 then some .ls
      else if a.headD 0 = 'R'.toUInt8 then
        (rest.getD 0 none).bind fun x => (rest.getD 1 none).bind fun y => some (.read x (atoi y))
      else if a.headD 0 = 'W'.toUInt8 then
        (rest.getD 0 none).bind fun x => (rest.getD 1 none).bind fun y =>
          some (.write x (atoi y) buff)
      else some (.print a) := fun rest => rfl
  simp only [hrequest, hone]
  by_cases hC : a.headD 0 = 'C'.toUInt8
  · refine Or.inr (Or.inr ⟨?_, fun x y => .createFile x (atoi y), fun rest => ?_⟩)
    · rw [taken, if_pos (Or.inl hC)]
    · rw [if_pos hC]
  · by_cases hR : a.headD 0 = 'R'.toUInt8
    · refine Or.inr (Or.inr ⟨?_, fun x y => .read x (atoi y), fun rest => ?_⟩)
      · rw [taken, if_pos (Or.inr (Or.inl hR))]
      · rw [hR]
        rfl
    · by_cases hW : a.headD 0 = 'W'.toUInt8
      · refine Or.inr (Or.inr ⟨?_, fun x y => .write x (atoi y) buff, fun rest => ?_⟩)
        · rw [taken, if_pos (Or.inr (Or.inr hW))]
        · rw [hW]
          rfl
      · have hthree : ¬ (a.headD 0 = 'C'.toUInt8 ∨ a.headD 0 = 'R'.toUInt8 ∨
            a.headD 0 = 'W'.toUInt8) := by simp only [hC, hR, hW, or_self, not_false_eq_true]
        by_cases hD : a.headD 0 = 'D'.toUInt8
        · refine Or.inr (Or.inl ⟨?_, .deleteFile, fun rest => ?_⟩)
          · rw [taken, if_neg hthree, if_pos hD]
          · rw [if_neg hC, if_pos hD]
        · refine Or.inl ⟨?_, if a.headD 0 = 'L'.toUInt8 then .ls else .print a, fun rest => ?_⟩
          · rw [taken, if_neg hthree, if_neg hD]
          · rw [if_neg hC, if_neg hD, if_neg hR, if_neg hW, apply_ite some]

/-- With the tokens it needs, the operation does not depend on others. -/
theorem request_own (h : needed toks ≤ toks.length) :
    request buff (toks.map some ++ old) = request buff (toks.map some ++ old') := by
  match toks, h with
  | [], h => exact absurd h (by decide)
  | a :: rest, h =>
      have hneeded : taken (a.headD 0) ≤ rest.length + 1 := h
      rw [List.map_cons, List.cons_append, List.cons_append]
      rcases request_cons buff a with ⟨-, req, hreq⟩ | ⟨htwo, f, hreq⟩ | ⟨hthree, f, hreq⟩
      · rw [hreq, hreq]
      · match rest, hneeded with
        | [], hneeded => exact absurd (htwo ▸ hneeded) (by decide)
        | b :: rest, _ =>
            rw [hreq, hreq]
            rfl
      · match rest, hneeded with
        | [], hneeded => exact absurd (hthree ▸ hneeded) (by decide)
        | [b], hneeded => exact absurd (hthree ▸ hneeded) (by simp)
        | b :: c :: rest, _ =>
            rw [hreq, hreq]
            rfl

/-- Only `W` looks at `buff`. -/
theorem request_buff {a : List UInt8} (h : a.headD 0 ≠ 'W'.toUInt8)
    (rest : List (Option (List UInt8))) :
    request buff (some a :: rest) = request buff' (some a :: rest) := by
  simp only [request, List.getD_cons_zero, Option.bind_eq_bind, Option.bind_some, if_neg h]

/-- `W` hands it over. -/
theorem request_write {a x y : List UInt8} (h : a.headD 0 = 'W'.toUInt8)
    (rest : List (Option (List UInt8))) :
    request buff (some a :: some x :: some y :: rest) = some (.write x (atoi y) buff) := by
  simp only [request, List.getD_cons_zero, List.getD_cons_succ, Option.bind_eq_bind,
    Option.bind_some, h]
  rfl

/-- Where the pointers behind have never been set, it is undefined without them. -/
theorem request_fresh (h : toks.length < needed toks) (hold : ∀ o ∈ old, o = none) :
    request buff (toks.map some ++ old) = none := by
  have hget : ∀ k, old.getD k none = none := by
    intro k
    rw [List.getD_eq_getElem?_getD]
    cases hk : old[k]? with
    | none => rfl
    | some o => exact hold o (List.mem_of_getElem? hk)
  match toks, h with
  | [], _ =>
      rw [List.map_nil, List.nil_append, request, hget]
      rfl
  | a :: rest, h =>
      have hneeded : rest.length + 1 < taken (a.headD 0) := h
      rw [List.map_cons, List.cons_append]
      rcases request_cons buff a with ⟨hone, -⟩ | ⟨htwo, f, hreq⟩ | ⟨hthree, f, hreq⟩
      · omega
      · match rest, hneeded with
        | [], _ => rw [hreq, List.map_nil, List.nil_append, hget, Option.map_none]
        | b :: rest, hneeded =>
            rw [htwo, List.length_cons] at hneeded
            omega
      · match rest, hneeded with
        | [], _ => rw [hreq, List.map_nil, List.nil_append, hget, Option.bind_none]
        | [b], _ =>
            rw [hreq]
            show (some b).bind (fun x => (old.getD 0 none).map (f x)) = none
            rw [hget]
            rfl
        | b :: c :: rest, hneeded =>
            rw [hthree, List.length_cons, List.length_cons] at hneeded
            omega

/-- With every pointer set, there is an operation. -/
theorem request_stale (hlength : 3 ≤ old.length) (hold : ∀ o ∈ old, o ≠ none) :
    request buff old ≠ none := by
  match old, hlength, hold with
  | some a :: some b :: some c :: rest, _, _ =>
      rcases request_cons buff a with ⟨-, req, hreq⟩ | ⟨-, f, hreq⟩ | ⟨-, f, hreq⟩
      · rw [hreq]
        simp
      · rw [hreq]
        simp
      · rw [hreq]
        simp
  | none :: _, _, hold => exact absurd rfl (hold none (by simp))
  | some _ :: none :: _, _, hold => exact absurd rfl (hold none (by simp))
  | some _ :: some _ :: none :: _, _, hold => exact absurd rfl (hold none (by simp))

end Requests

section Scripts

variable {text : List UInt8}

/-- `L a b` -/
def listing : List UInt8 := ['L'.toUInt8, 32, 97, 32, 98]

theorem scriptTokens_listing : scriptTokens listing = [['L'.toUInt8], [97], [98]] := by
  have hline : listing.takeWhile (· != 0) = ['L'.toUInt8, 32, 97, 32, 98] := by decide
  rw [scriptTokens, hline, tokens, runs_single_cons (by decide) (by decide),
    runs_single_cons (by decide) (by decide), runs_single (by decide)]

/-- After a listing all pointers are set, and the disk is as it was. -/
theorem listing_reached (disk : Disk) :
    ∃ s : Session, s.Reached ∧ s.disk = disk ∧ ∀ o ∈ s.cmd, o ≠ none := by
  have hstart : (Session.start disk (List.replicate 100 0)).Reached :=
    .start disk _ List.length_replicate
  have hline : ScriptLine listing := ⟨by decide, by decide⟩
  have hcount : (scriptTokens listing).length ≤ 3 := by rw [scriptTokens_listing]; decide
  obtain ⟨ptrs, line, htokens, hlength, hop⟩ := operation_eq hstart.cmd_length hcount
  rw [scriptTokens_listing] at htokens hop
  refine ⟨{ Session.start disk (List.replicate 100 0) with
    cmd := ptrs.map some ++ [], line := line }, hstart.next hline ?_, rfl, ?_⟩
  · have hls : operation (Session.start disk (List.replicate 100 0)) listing = some .ls := by
      rw [hop]
      rfl
    rw [processLine, htokens, hls]
    rfl
  · intro o ho
    rw [List.append_nil] at ho
    obtain ⟨ptr, -, rfl⟩ := List.mem_map.mp ho
    simp

/-- `R a 0` -/
def reading : List UInt8 := ['R'.toUInt8, 32, 97, 32, 48]

theorem scriptTokens_reading : scriptTokens reading = [['R'.toUInt8], [97], [48]] := by
  have hline : reading.takeWhile (· != 0) = ['R'.toUInt8, 32, 97, 32, 48] := by decide
  rw [scriptTokens, hline, tokens, runs_single_cons (by decide) (by decide),
    runs_single_cons (by decide) (by decide), runs_single (by decide)]

/-- A disk with a file, and in its first block no one. -/
theorem readable_disk : ∃ (disk : Disk) (r : ReadResult) (out : Buf),
    read disk sampleName 0 = .ok r ∧ r.buf = some out ∧ out ≠ ones := by
  have hrun : ((createFile formatted sampleName 1).toOption.bind fun r =>
      (read r.disk sampleName 0).toOption).any (fun r => r.buf.any fun out =>
        decide (out 0 ≠ '1'.toUInt8)) = true := by decide +kernel
  obtain ⟨r, hr, hout⟩ := (Option.any_eq_true _ _).mp hrun
  obtain ⟨c, -, hc⟩ := Option.bind_eq_some_iff.mp hr
  obtain ⟨out, hbuf, hne⟩ := (Option.any_eq_true _ _).mp hout
  refine ⟨c.disk, r, out, ?_, hbuf, fun heq => of_decide_eq_true hne (congrFun heq 0)⟩
  cases hread : read c.disk sampleName 0 with
  | error e =>
      rw [hread] at hc
      cases hc
  | ok r' =>
      rw [hread] at hc
      rw [Option.some.inj hc]

/-- Two scripts come to a line with the same disk, and one of them has read a block. -/
theorem reading_reached : ∃ s s' : Session, s.Reached ∧ s'.Reached ∧ s.disk = s'.disk ∧
    s.buff ≠ s'.buff := by
  obtain ⟨disk, r, out, hread, hbuf, hne⟩ := readable_disk
  have hstart : (Session.start disk (List.replicate 100 0)).Reached :=
    .start disk _ List.length_replicate
  have hline : ScriptLine reading := ⟨by decide, by decide⟩
  have hcount : (scriptTokens reading).length ≤ 3 := by rw [scriptTokens_reading]; decide
  obtain ⟨ptrs, line, htokens, -, hop⟩ := operation_eq hstart.cmd_length hcount
  rw [scriptTokens_reading] at htokens hop
  have hreq : operation (Session.start disk (List.replicate 100 0)) reading =
      some (.read [97] 0) := by
    rw [hop]
    rfl
  have hname : cstring [97] = sampleName := by rfl
  have hperform : perform { Session.start disk (List.replicate 100 0) with
      cmd := ptrs.map some ++ [], line := line } (.read [97] 0) = .ok
        ⟨disk, out, line, ptrs.map some ++ []⟩ := by
    rw [perform, hname]
    simp only [Session.start, hread, Except.map, hbuf, Option.getD_some]
  refine ⟨_, ⟨disk, out, line, ptrs.map some ++ []⟩, hstart, hstart.next hline ?_, rfl,
    fun heq => hne heq.symm⟩
  rw [processLine, htokens, hreq]
  exact congrArg Except.toOption hperform

/-- A line with a token too few depends on the lines before it. -/
theorem needed_of_ownTokens (h : OwnTokens text) :
    needed (scriptTokens text) ≤ (scriptTokens text).length ∧ (scriptTokens text).length ≤ 3 := by
  have hfresh : (Session.start formatted (List.replicate 100 0)).Reached :=
    .start formatted _ List.length_replicate
  have hcount : (scriptTokens text).length ≤ 3 := by
    by_contra hmany
    exact h.1 _ hfresh (tokenise_stray (not_le.mp hmany))
  refine ⟨not_lt.mp fun hfew => ?_, hcount⟩
  -- the line as the first of a script, and behind a line with three tokens
  obtain ⟨s, hs, hdisk, hset⟩ := listing_reached formatted
  obtain ⟨-, line, -, -, hop⟩ := operation_eq hfresh.cmd_length hcount
  obtain ⟨-, line', -, -, hop'⟩ := operation_eq hs.cmd_length hcount
  -- there it takes a pointer that was never set, here one of the line before
  have hnone : operation (Session.start formatted (List.replicate 100 0)) text = none := by
    rw [hop]
    refine request_fresh hfew fun o ho => ?_
    obtain ⟨ptr, hptr, rfl⟩ := List.mem_map.mp ho
    have hunset : ∀ ptr ∈ [none, none, (none : Option Nat)], ptr = none := by simp
    rw [hunset ptr (List.mem_of_mem_drop hptr)]
    rfl
  have hsome : operation s text ≠ none := by
    rw [hop']
    refine request_stale ?_ fun o ho => ?_
    · rw [List.length_append, List.length_map, List.length_map, List.length_drop, hs.cmd_length]
      omega
    · rcases List.mem_append.mp ho with ho | ho
      · obtain ⟨t, -, rfl⟩ := List.mem_map.mp ho
        simp
      · obtain ⟨ptr, hptr, rfl⟩ := List.mem_map.mp ho
        have hne := hset ptr (List.mem_of_mem_drop hptr)
        simpa using hne
  exact hsome ((h.2 s _ hs hfresh hdisk).trans hnone)

/-- What a line `W` writes depends on them even with all its tokens. -/
theorem command_of_ownTokens (h : OwnTokens text) :
    commandByte (scriptTokens text) ≠ 'W'.toUInt8 := by
  intro hW
  obtain ⟨hneeded, hcount⟩ := needed_of_ownTokens h
  obtain ⟨s, s', hs, hs', hdisk, hbuff⟩ := reading_reached
  obtain ⟨-, line, -, -, hop⟩ := operation_eq hs.cmd_length hcount
  obtain ⟨-, line', -, -, hop'⟩ := operation_eq hs'.cmd_length hcount
  have hthree : needed (scriptTokens text) = 3 := by rw [needed, hW]; rfl
  match hs₃ : scriptTokens text, hthree ▸ hneeded with
  | a :: x :: y :: rest, _ =>
      have ha : a.headD 0 = 'W'.toUInt8 := by rwa [hs₃] at hW
      rw [hs₃] at hop hop'
      rw [List.map_cons, List.map_cons, List.map_cons, List.cons_append, List.cons_append,
        List.cons_append, request_write ha] at hop hop'
      have heq := h.2 s s' hs hs' hdisk
      rw [hop, hop'] at heq
      exact hbuff (Request.write.inj (Option.some.inj heq)).2.2

/-- **Which lines act on their own tokens**: those with as many as the operation takes, and
at most three, that do not write. -/
theorem own_tokens_iff (text : List UInt8) :
    OwnTokens text ↔
      (needed (scriptTokens text) ≤ (scriptTokens text).length ∧
        (scriptTokens text).length ≤ 3) ∧ commandByte (scriptTokens text) ≠ 'W'.toUInt8 := by
  refine ⟨fun h => ⟨needed_of_ownTokens h, command_of_ownTokens h⟩,
    fun ⟨⟨hneeded, hcount⟩, hW⟩ => ⟨fun s hs => ?_, fun s s' hs hs' _ => ?_⟩⟩
  · obtain ⟨ptrs, line, htokens, -⟩ := operation_eq hs.cmd_length hcount
    rw [htokens]
    simp
  · obtain ⟨-, line, -, -, hop⟩ := operation_eq hs.cmd_length hcount
    obtain ⟨-, line', -, -, hop'⟩ := operation_eq hs'.cmd_length hcount
    have hbuff : ∀ old, request s.buff ((scriptTokens text).map some ++ old) =
        request s'.buff ((scriptTokens text).map some ++ old) := by
      intro old
      match hs₁ : scriptTokens text, hneeded with
      | [], hneeded => exact absurd hneeded (by decide)
      | a :: rest, _ =>
          have ha : a.headD 0 ≠ 'W'.toUInt8 := by rwa [hs₁] at hW
          exact request_buff ha _
    rw [hop, hop', hbuff]
    exact request_own hneeded

/-- A blank line does what `cmd` still says. -/
theorem blank_line_repeats : ¬ ∀ text, ScriptLine text → OwnTokens text := by
  intro hall
  have hline : ScriptLine [] := ⟨by decide, by decide⟩
  have hblank : scriptTokens [] = [] := runs_nil
  have hneeded := (needed_of_ownTokens (hall [] hline)).1
  rw [hblank] at hneeded
  exact absurd hneeded (by decide)

end Scripts

end Os377.Fs
