import Os377.Lib.Runs
import Mathlib.Data.List.GetD

/-!
# Cutting a string into tokens

`strtok` works on the buffer itself: it skips delimiters, hands out the place where a
token starts, writes a NUL behind the token and remembers where to go on. A pointer is an
offset into the buffer, and `cstrAt` what is read there.

* `strtok_nil`, `strtok_cons` — the tokens are the maximal runs without delimiters;
* `firstTokens_spec` — after several calls all the tokens are still there.
-/

namespace Os377.Lib

/-- The C string at an offset of a buffer. -/
def cstrAt (buf : List UInt8) (p : Nat) : List UInt8 := (buf.drop p).takeWhile (· != 0)

/-- What `strtok` returns and leaves. -/
structure Strtok where
  token : Option Nat
  buf : List UInt8
  /-- Where the next call goes on. -/
  save : Nat

/-- `strtok(buf + p, delims)`, and `strtok(NULL, delims)` when `p` is the saved place. -/
def strtok (delims : List UInt8) (buf : List UInt8) (p : Nat) : Strtok :=
  let start := p + ((cstrAt buf p).takeWhile (delims.contains ·)).length
  if cstrAt buf start = [] then ⟨none, buf, start⟩
  else
    let stop := start + ((cstrAt buf start).takeWhile (!delims.contains ·)).length
    if buf.getD stop 0 = 0 then ⟨some start, buf, stop⟩
    else ⟨some start, buf.set stop 0, stop + 1⟩

/-- The tokens of a string. -/
def tokens (delims : List UInt8) (s : List UInt8) : List (List UInt8) :=
  runs (!delims.contains ·) s

/-- At most `n` calls, as long as they find a token. -/
def firstTokens (delims : List UInt8) : Nat → List UInt8 → Nat → List Nat × Strtok
  | 0, buf, p => ([], ⟨none, buf, p⟩)
  | n + 1, buf, p =>
      let r := strtok delims buf p
      match r.token with
      | none => ([], r)
      | some start =>
          let rest := firstTokens delims n r.buf r.save
          (start :: rest.1, rest.2)

section Prefixes

variable {α : Type} {l : List α} {q : α → Bool} {k : Nat} {c : α}

/-- The rest of a prefix. -/
theorem takeWhile_drop (h : k ≤ (l.takeWhile q).length) :
    (l.drop k).takeWhile q = (l.takeWhile q).drop k := by
  induction l generalizing k with
  | nil => simp
  | cons a l ih =>
      cases k with
      | zero => rfl
      | succ k =>
          cases ha : q a with
          | false => simp [ha] at h
          | true =>
              rw [List.takeWhile_cons_of_pos ha] at h ⊢
              rw [List.drop_succ_cons, List.drop_succ_cons]
              exact ih (Nat.le_of_succ_le_succ h)

/-- A change behind the prefix and its end. -/
theorem takeWhile_set_of_lt (h : (l.takeWhile q).length < k) :
    (l.set k c).takeWhile q = l.takeWhile q := by
  induction l generalizing k with
  | nil => rfl
  | cons a l ih =>
      cases k with
      | zero => exact absurd h (Nat.not_lt_zero _)
      | succ k =>
          rw [List.set_cons_succ]
          cases ha : q a with
          | false =>
              rw [List.takeWhile_cons_of_neg (by simp [ha]),
                List.takeWhile_cons_of_neg (by simp [ha])]
          | true =>
              rw [List.takeWhile_cons_of_pos ha] at h ⊢
              rw [List.takeWhile_cons_of_pos ha, ih (Nat.lt_of_succ_lt_succ h)]

/-- An entry without `q` cuts the prefix off. -/
theorem takeWhile_set_stop (h : k < (l.takeWhile q).length) (hc : q c = false) :
    (l.set k c).takeWhile q = (l.takeWhile q).take k := by
  induction l generalizing k with
  | nil => exact absurd h (Nat.not_lt_zero _)
  | cons a l ih =>
      cases ha : q a with
      | false => simp [ha] at h
      | true =>
          rw [List.takeWhile_cons_of_pos ha] at h
          cases k with
          | zero =>
              rw [List.set_cons_zero, List.takeWhile_cons_of_neg (by simp [hc]), List.take_zero]
          | succ k =>
              rw [List.set_cons_succ, List.takeWhile_cons_of_pos ha, List.takeWhile_cons_of_pos ha,
                List.take_succ_cons, ih (Nat.lt_of_succ_lt_succ h)]

end Prefixes

section Strings

variable {delims buf : List UInt8} {p q k : Nat} {t : List UInt8} {ts : List (List UInt8)}

/-- Bytes at the front of a buffer, with a NUL behind them. -/
theorem cstrAt_stored (stored junk : List UInt8) :
    cstrAt (stored ++ 0 :: junk) 0 = stored.takeWhile (· != 0) := by
  rw [cstrAt, List.drop_zero]
  induction stored with
  | nil => rfl
  | cons b stored ih =>
      rw [List.cons_append, List.takeWhile_cons, List.takeWhile_cons, ih]

theorem cstrAt_add (h : k ≤ (cstrAt buf p).length) :
    cstrAt buf (p + k) = (cstrAt buf p).drop k := by
  rw [cstrAt, ← List.drop_drop]
  exact takeWhile_drop h

/-- A C string ends at a NUL. -/
theorem getD_end (buf : List UInt8) (p : Nat) : buf.getD (p + (cstrAt buf p).length) 0 = 0 := by
  have hend : cstrAt buf (p + (cstrAt buf p).length) = [] := by
    rw [cstrAt_add (le_refl _), List.drop_length]
  rw [cstrAt, List.takeWhile_eq_nil_iff] at hend
  rw [List.getD_eq_getElem?_getD]
  by_cases hlt : p + (cstrAt buf p).length < buf.length
  · have hzero := hend (by rw [List.length_drop]; omega)
    rw [List.getElem?_eq_getElem hlt]
    simpa using hzero
  · rw [List.getElem?_eq_none (not_lt.mp hlt)]
    rfl

/-- Its bytes are those of the buffer, and no NULs. -/
theorem getD_cstrAt (h : k < (cstrAt buf p).length) :
    buf.getD (p + k) 0 = (cstrAt buf p)[k] ∧ (cstrAt buf p)[k] ≠ 0 := by
  obtain ⟨tail, htail⟩ : cstrAt buf p <+: buf.drop p := List.takeWhile_prefix _
  constructor
  · rw [List.getD_eq_getElem?_getD, ← List.getElem?_drop, ← htail, List.getElem?_append_left h,
      List.getElem?_eq_getElem h, Option.getD_some]
  · have hmem : (cstrAt buf p)[k] ∈ cstrAt buf p := List.getElem_mem h
    simpa using List.mem_takeWhile_imp hmem

/-- A byte written behind a C string and its NUL does not change it. -/
theorem cstrAt_set_of_lt {c : UInt8} (h : p + (cstrAt buf p).length < k) :
    cstrAt (buf.set k c) p = cstrAt buf p := by
  rw [cstrAt, List.drop_set, if_neg (by omega)]
  exact takeWhile_set_of_lt (by rw [cstrAt] at h; omega)

/-- A NUL cuts the string off. -/
theorem cstrAt_set_nul (h : k < (cstrAt buf p).length) :
    cstrAt (buf.set (p + k) 0) p = (cstrAt buf p).take k := by
  rw [cstrAt, List.drop_set, if_neg (by omega), Nat.add_sub_cancel_left]
  exact takeWhile_set_stop h rfl

/-- What stands behind the written byte stays. -/
theorem cstrAt_set_behind {c : UInt8} (h : k < p) : cstrAt (buf.set k c) p = cstrAt buf p := by
  rw [cstrAt, List.drop_set, if_pos h]
  rfl

/-- Behind the delimiters. -/
theorem cstrAt_start (delims buf : List UInt8) (p : Nat) :
    cstrAt buf (p + ((cstrAt buf p).takeWhile (delims.contains ·)).length) =
      (cstrAt buf p).dropWhile (delims.contains ·) := by
  rw [cstrAt_add (List.takeWhile_sublist _).length_le]
  calc (cstrAt buf p).drop ((cstrAt buf p).takeWhile (delims.contains ·)).length
      = ((cstrAt buf p).takeWhile (delims.contains ·) ++
          (cstrAt buf p).dropWhile (delims.contains ·)).drop
            ((cstrAt buf p).takeWhile (delims.contains ·)).length := by
        rw [List.takeWhile_append_dropWhile]
    _ = (cstrAt buf p).dropWhile (delims.contains ·) := List.drop_left

theorem skip_delims (delims s : List UInt8) :
    s.dropWhile (fun c => !(!delims.contains c)) = s.dropWhile (delims.contains ·) := by
  have hsame : (fun c => !(!delims.contains c)) = (delims.contains ·) := by
    funext c
    exact Bool.not_not _
  rw [hsame]

/-- No token is left. -/
theorem strtok_nil (h : tokens delims (cstrAt buf p) = []) :
    (strtok delims buf p).token = none ∧ (strtok delims buf p).buf = buf := by
  cases hdrop : (cstrAt buf p).dropWhile (delims.contains ·) with
  | nil =>
      rw [strtok, if_pos ((cstrAt_start delims buf p).trans hdrop)]
      exact ⟨rfl, rfl⟩
  | cons c rest =>
      rw [tokens, runs_of_cons ((skip_delims delims _).trans hdrop)] at h
      cases h

/-- Where the first token starts, and what `strtok` does there: it looks at the byte behind
the token, which is a delimiter or the end of the string. -/
theorem strtok_eq (h : tokens delims (cstrAt buf p) = t :: ts) :
    ∃ start rest, cstrAt buf start = t ++ rest ∧ p ≤ start ∧ 0 < t.length ∧
      (∀ c, rest.head? = some c → delims.contains c = true) ∧ tokens delims rest = ts ∧
      strtok delims buf p = if buf.getD (start + t.length) 0 = 0 then
        ⟨some start, buf, start + t.length⟩
        else ⟨some start, buf.set (start + t.length) 0, start + t.length + 1⟩ := by
  cases hdrop : (cstrAt buf p).dropWhile (delims.contains ·) with
  | nil =>
      rw [tokens, runs_of_nil ((skip_delims delims _).trans hdrop)] at h
      cases h
  | cons c rest =>
      have hskip := (skip_delims delims _).trans hdrop
      have hc : (!delims.contains c) = true :=
        head_of_dropWhile (p := fun c => !delims.contains c) hskip
      rw [tokens, runs_of_cons hskip] at h
      obtain ⟨ht, hts⟩ := List.cons.inj h
      obtain ⟨start, hstart⟩ : ∃ start, start =
        p + ((cstrAt buf p).takeWhile (delims.contains ·)).length := ⟨_, rfl⟩
      have hstr : cstrAt buf start = c :: rest := by rw [hstart, cstrAt_start, hdrop]
      have htoken : (cstrAt buf start).takeWhile (!delims.contains ·) = t := by
        rw [hstr, List.takeWhile_cons_of_pos (p := fun c => !delims.contains c) hc, ht]
      refine ⟨start, rest.dropWhile (!delims.contains ·), ?_, by omega, ?_, fun d hd => ?_, hts, ?_⟩
      · rw [hstr, ← ht, List.cons_append, List.takeWhile_append_dropWhile]
      · rw [← ht]
        exact Nat.succ_pos _
      · have hhead := List.head?_dropWhile_not (!delims.contains ·) rest
        rw [hd] at hhead
        simpa using hhead
      · rw [strtok, ← hstart, if_neg (by rw [hstr]; simp), htoken]

/-- The first token, and what is left. -/
theorem strtok_cons (h : tokens delims (cstrAt buf p) = t :: ts) :
    ∃ start, (strtok delims buf p).token = some start ∧
      cstrAt (strtok delims buf p).buf start = t ∧ p ≤ start ∧
      start + t.length ≤ (strtok delims buf p).save ∧
      tokens delims (cstrAt (strtok delims buf p).buf (strtok delims buf p).save) = ts ∧
      ∀ q, q + (cstrAt buf q).length ≤ p →
        cstrAt (strtok delims buf p).buf q = cstrAt buf q := by
  obtain ⟨start, rest, hstr, hp, hpos, hdelim, hts, hstep⟩ := strtok_eq h
  have hlength : (cstrAt buf start).length = t.length + rest.length := by
    rw [hstr, List.length_append]
  have hdrop : (cstrAt buf start).drop t.length = rest := by rw [hstr, List.drop_left]
  rw [hstep]
  cases rest with
  | nil =>
      -- the token ends the string
      rw [List.length_nil, Nat.add_zero] at hlength
      rw [if_pos (by rw [← hlength]; exact getD_end buf start)]
      refine ⟨start, rfl, ?_, hp, le_refl _, ?_, fun q _ => rfl⟩
      · show cstrAt buf start = t
        rw [hstr, List.append_nil]
      · show tokens delims (cstrAt buf (start + t.length)) = ts
        rw [cstrAt_add hlength.ge, hdrop]
        exact hts
  | cons c rest =>
      -- a delimiter follows, and is overwritten
      have hlt : t.length < (cstrAt buf start).length := by
        rw [hlength, List.length_cons]
        omega
      obtain ⟨hbyte, hne⟩ := getD_cstrAt hlt
      rw [if_neg (by rw [hbyte]; exact hne)]
      refine ⟨start, rfl, ?_, hp, Nat.le_succ _, ?_, fun q hq => ?_⟩
      · show cstrAt (buf.set (start + t.length) 0) start = t
        rw [cstrAt_set_nul hlt, hstr, List.take_left]
      · show tokens delims (cstrAt (buf.set (start + t.length) 0) (start + t.length + 1)) = ts
        have hbehind : (cstrAt buf start).drop (t.length + 1) = rest := by
          rw [← List.drop_drop, hdrop, List.drop_one, List.tail_cons]
        rw [cstrAt_set_behind (Nat.lt_add_one _), Nat.add_assoc, cstrAt_add hlt]
        rw [hbehind]
        -- the delimiter belongs to no token
        rw [tokens, runs_skip (p := fun c => !delims.contains c)
          (by rw [hdelim c rfl]; rfl)] at hts
        exact hts
      · show cstrAt (buf.set (start + t.length) 0) q = cstrAt buf q
        exact cstrAt_set_of_lt (by omega)

/-- **The tokens stay where they were found.** After `n` calls the pointers show the first
tokens, and what was read in front of the string before is still there. -/
theorem firstTokens_spec (delims : List UInt8) (n : Nat) (buf : List UInt8) (p : Nat) :
    (firstTokens delims n buf p).1.map (cstrAt (firstTokens delims n buf p).2.buf) =
        (tokens delims (cstrAt buf p)).take n ∧
      ∀ q, q + (cstrAt buf q).length ≤ p →
        cstrAt (firstTokens delims n buf p).2.buf q = cstrAt buf q := by
  induction n generalizing buf p with
  | zero => exact ⟨rfl, fun q _ => rfl⟩
  | succ n ih =>
      rw [firstTokens]
      cases htokens : tokens delims (cstrAt buf p) with
      | nil =>
          obtain ⟨hnone, hbuf⟩ := strtok_nil htokens
          simp only [hnone, hbuf]
          exact ⟨by simp, fun q _ => trivial⟩
      | cons t ts =>
          obtain ⟨start, hsome, htoken, hp, hsave, hrest, hframe⟩ := strtok_cons htokens
          obtain ⟨htail, hkeep⟩ := ih (strtok delims buf p).buf (strtok delims buf p).save
          simp only [hsome]
          refine ⟨?_, fun q hq => ?_⟩
          · rw [List.map_cons, List.take_succ_cons, htail, hrest,
              hkeep start (by rw [htoken]; exact hsave), htoken]
          · rw [hkeep q (by rw [hframe q hq]; omega), hframe q hq]

end Strings

end Os377.Lib
