import Os377.Xv6.Grep
import Os377.Xv6.PipeLines

/-!
# The lines that the xv6 grep prints

`grep` reads into a buffer of 1024 bytes, looks at the lines that are complete, and moves
what is left of the last one to the front. A buffer without a newline is thrown away, so that
it matters how the input arrives: as a file, or as a pipe into which whole lines are written
(`Pipe.pieces_invariant`), it is read without a loss, and `grep` prints exactly the lines
that match (`grep_prints`).
-/

namespace Os377.Xv6.Grep

/-- `sizeof(buf)` -/
def bufSize : Nat := 1024

def newline : UInt8 := '\n'.toUInt8

/-- `read(fd, _, n)`, where the input arrives in segments: a call takes what has arrived. -/
def read (segs : List Text) (n : Nat) : Text × List Text :=
  match segs with
  | [] => ([], [])
  | seg :: segs => if seg.length ≤ n then (seg, segs) else (seg.take n, seg.drop n :: segs)

/-- `strchr(s, c)`, as an offset. -/
def strchr (c : UInt8) : Text → Option Nat
  | [] => none
  | d :: s => if d = 0 then none else if d = c then some 0 else (strchr c s).map (· + 1)

/-- The inner loop: what is written, and the part of the buffer that `p` is left at. -/
def scan (re : Text) : Nat → Text → Text × Text
  | 0, p => ([], p)
  | n + 1, p =>
      match strchr newline p with
      | none => ([], p)
      | some q =>
          let r := scan re n (p.drop (q + 1))
          ((if matchRe re (p.take q) then p.take (q + 1) else []) ++ r.1, r.2)

/-- The outer loop, with the `m` bytes that are in the buffer. -/
def loop (re : Text) : Nat → Text → List Text → Text
  | 0, _, _ => []
  | n + 1, kept, segs =>
      let r := read segs (bufSize - kept.length - 1)
      if r.1 = [] then []
      else
        let buf := kept ++ r.1
        let s := scan re (buf.length + 1) buf
        s.1 ++ loop re n (if s.2.length = buf.length then [] else s.2) r.2

/-- What `grep` writes. -/
def grep (re : Text) (segs : List Text) : Text := loop re (segs.flatten.length + 1) [] segs

/-! ## Lines -/

/-- Lines with a newline behind each. -/
def unlines (ls : List Text) : Text := ls.flatMap fun l => l ++ [newline]

theorem unlines_cons (l : Text) (ls : List Text) :
    unlines (l :: ls) = l ++ newline :: unlines ls := by
  show (l ++ [newline]) ++ unlines ls = _
  rw [List.append_assoc]
  rfl

theorem unlines_append (ls ls' : List Text) : unlines (ls ++ ls') = unlines ls ++ unlines ls' :=
  List.flatMap_append

/-- A line that has at most `w` bytes with its newline. -/
structure Fits (w : Nat) (l : Text) : Prop where
  no_newline : newline ∉ l
  no_nul : 0 ∉ l
  length_le : l.length + 1 ≤ w

variable {re buf kept rest tail l s : Text} {ls : List Text} {seg : Text} {segs : List Text}
  {n w : Nat}

theorem strchr_eq_none (h : newline ∉ s) : strchr newline s = none := by
  induction s with
  | nil => rfl
  | cons d s ih =>
      rw [List.mem_cons, not_or] at h
      unfold strchr
      split
      · rfl
      · rw [if_neg fun hd => h.1 hd.symm, ih h.2]
        rfl

theorem strchr_line (h : newline ∉ l) (hnul : 0 ∉ l) :
    strchr newline (l ++ newline :: s) = some l.length := by
  induction l with
  | nil =>
      rw [List.nil_append, strchr, if_neg (by decide), if_pos rfl]
      rfl
  | cons d l ih =>
      rw [List.mem_cons, not_or] at h hnul
      rw [List.cons_append, strchr, if_neg fun hd => hnul.1 hd.symm,
        if_neg fun hd => h.1 hd.symm, ih h.2 hnul.2]
      rfl

/-- The inner loop goes through the lines. -/
theorem scan_unlines (hls : ∀ l ∈ ls, Fits w l) (hrest : newline ∉ rest) (hn : ls.length < n) :
    scan re n (unlines ls ++ rest) = (unlines (ls.filter (matchRe re)), rest) := by
  induction ls generalizing n with
  | nil =>
      cases n with
      | zero => rfl
      | succ n =>
          show scan re (n + 1) rest = _
          rw [scan, strchr_eq_none hrest]
          rfl
  | cons l ls ih =>
      cases n with
      | zero => exact absurd hn (Nat.not_lt_zero _)
      | succ n =>
          have hl := hls l List.mem_cons_self
          have ih := ih (fun l' hl' => hls l' (List.mem_cons_of_mem l hl'))
            (Nat.lt_of_succ_lt_succ hn)
          have hline : unlines (l :: ls) ++ rest = l ++ newline :: (unlines ls ++ rest) := by
            rw [unlines_cons, List.append_assoc]
            rfl
          have hdrop : (l ++ newline :: (unlines ls ++ rest)).drop (l.length + 1)
              = unlines ls ++ rest := by
            rw [List.drop_append]
            simp
          have htake : (l ++ newline :: (unlines ls ++ rest)).take (l.length + 1)
              = l ++ [newline] := by
            rw [List.take_append]
            simp
          rw [hline, scan, strchr_line hl.no_newline hl.no_nul]
          dsimp only
          rw [hdrop, ih, htake, List.take_left]
          cases hm : matchRe re l with
          | true =>
              rw [List.filter_cons_of_pos hm, unlines_cons, if_pos rfl, List.append_assoc]
              rfl
          | false =>
              rw [List.filter_cons_of_neg (by rw [hm]; exact Bool.false_ne_true),
                if_neg Bool.false_ne_true]
              rfl

/-- The lines that are complete in a front part of the input. -/
theorem split_lines (hls : ∀ l ∈ ls, newline ∉ l) (htail : newline ∉ tail)
    (h : buf ++ rest = unlines ls ++ tail) : ∃ ls1 ls2 r, ls = ls1 ++ ls2 ∧
      buf = unlines ls1 ++ r ∧ newline ∉ r ∧ r ++ rest = unlines ls2 ++ tail := by
  induction ls generalizing buf with
  | nil =>
      refine ⟨[], [], buf, rfl, rfl, fun hmem => htail ?_, h⟩
      change buf ++ rest = tail at h
      rw [← h]
      exact List.mem_append_left rest hmem
  | cons l ls ih =>
      rw [unlines_cons, List.append_assoc, List.cons_append] at h
      rcases List.append_eq_append_iff.mp h with ⟨a, hl, hrest⟩ | ⟨a, hbuf, ha⟩
      · -- the buffer ends within the line
        refine ⟨[], l :: ls, buf, rfl, rfl, fun hmem => hls l List.mem_cons_self ?_, ?_⟩
        · rw [hl]
          exact List.mem_append_left a hmem
        · rw [h, unlines_cons, List.append_assoc]
          rfl
      · cases a with
        | nil =>
            rw [List.append_nil] at hbuf
            refine ⟨[], l :: ls, buf, rfl, rfl, hbuf ▸ hls l List.mem_cons_self, ?_⟩
            rw [h, unlines_cons, List.append_assoc]
            rfl
        | cons c a =>
            obtain ⟨rfl, hnext⟩ := List.cons.inj ha
            obtain ⟨ls1, ls2, r, rfl, rfl, hr, hrest⟩ :=
              ih (fun l' hl' => hls l' (List.mem_cons_of_mem l hl')) hnext.symm
            refine ⟨l :: ls1, ls2, r, rfl, ?_, hr, hrest⟩
            rw [hbuf, unlines_cons, List.append_assoc]
            rfl

/-- Lines that have not come to an end in the buffer are short. -/
theorem lt_of_unfinished (hls : ∀ l ∈ ls, Fits w l) (hne : ls ≠ []) (hbuf : newline ∉ buf)
    (h : buf ++ rest = unlines ls ++ tail) : buf.length + 1 ≤ w ∧ newline ∈ rest := by
  obtain ⟨l, ls', rfl⟩ := List.exists_cons_of_ne_nil hne
  have hl := (hls l List.mem_cons_self).length_le
  rw [unlines_cons, List.append_assoc, List.cons_append] at h
  rcases List.append_eq_append_iff.mp h with ⟨a, rfl, hrest⟩ | ⟨a, rfl, ha⟩
  · rw [List.length_append] at hl
    refine ⟨by omega, ?_⟩
    rw [hrest]
    exact List.mem_append_right a List.mem_cons_self
  · cases a with
    | nil =>
        rw [List.append_nil]
        refine ⟨hl, ?_⟩
        rw [← List.nil_append rest, ← ha]
        exact List.mem_cons_self
    | cons c a =>
        obtain ⟨rfl, -⟩ := List.cons.inj ha
        exact absurd (List.mem_append_right l List.mem_cons_self) hbuf

/-! ## The input -/

/-- An input for lines of at most `w` bytes: what is not the last segment ends a line or is
as long as a line can be, and the buffer has room for it behind a line. -/
def Whole (w : Nat) : List Text → Prop
  | [] => True
  | seg :: segs => seg ≠ [] ∧
      (segs ≠ [] → 2 * w ≤ bufSize ∧ seg.length ≤ w ∧ (newline ∈ seg ∨ seg.length = w)) ∧
      Whole w segs

/-- The pieces that come out of a pipe. -/
theorem whole_pieces
    (h : ∀ seg ∈ segs, seg ≠ [] ∧ seg.length ≤ Pipe.pipeSize ∧ Pipe.Piece newline seg) :
    Whole Pipe.pipeSize segs := by
  induction segs with
  | nil => trivial
  | cons seg segs ih =>
      obtain ⟨hne, hle, hpiece⟩ := h seg List.mem_cons_self
      refine ⟨hne, fun _ => ⟨by decide, hle, hpiece.imp List.mem_of_getLast? id⟩, ?_⟩
      exact ih fun s hs => h s (List.mem_cons_of_mem seg hs)

/-- A read from an input that is not at its end, with `kept` in the buffer: it fills the
buffer, or it takes the segment. -/
theorem read_cons (h : Whole w (seg :: segs)) (hw : w < bufSize) (hkept : kept.length + 1 ≤ w) :
    ∃ chunk segs', read (seg :: segs) (bufSize - kept.length - 1) = (chunk, segs') ∧
      chunk ≠ [] ∧ Whole w segs' ∧ (seg :: segs).flatten = chunk ++ segs'.flatten ∧
      (w ≤ (kept ++ chunk).length ∨ segs' = [] ∨ newline ∈ chunk) := by
  obtain ⟨hne, hmore, hwhole⟩ := h
  unfold read
  dsimp only
  by_cases hle : seg.length ≤ bufSize - kept.length - 1
  · rw [if_pos hle]
    refine ⟨seg, segs, rfl, hne, hwhole, List.flatten_cons, ?_⟩
    by_cases hsegs : segs = []
    · exact Or.inr (Or.inl hsegs)
    · obtain ⟨-, -, hnl | hlen⟩ := hmore hsegs
      · exact Or.inr (Or.inr hnl)
      · refine Or.inl ?_
        rw [List.length_append]
        omega
  · -- only a file is longer than what there is room for
    obtain rfl : segs = [] := by
      by_contra hsegs
      obtain ⟨htwo, hseg, -⟩ := hmore hsegs
      omega
    rw [if_neg hle]
    have hlen : (seg.take (bufSize - kept.length - 1)).length = bufSize - kept.length - 1 :=
      List.length_take_of_le (by omega)
    have hdrop : seg.drop (bufSize - kept.length - 1) ≠ [] := fun hnil => by
      have := List.drop_eq_nil_iff.mp hnil
      omega
    refine ⟨_, _, rfl, ?_, ⟨hdrop, fun hsegs => absurd rfl hsegs, trivial⟩, ?_, Or.inl ?_⟩
    · intro hnil
      rw [hnil, List.length_nil] at hlen
      omega
    · rw [List.flatten_cons, List.flatten_cons, ← List.append_assoc, List.take_append_drop]
    · rw [List.length_append, hlen]
      omega

theorem read_flatten (segs : List Text) (n : Nat) :
    (read segs n).1 ++ (read segs n).2.flatten = segs.flatten := by
  cases segs with
  | nil => rfl
  | cons seg segs =>
      unfold read
      dsimp only
      split
      · rfl
      · rw [List.flatten_cons, ← List.append_assoc, List.take_append_drop, List.flatten_cons]

/-- Without a newline nothing is printed. -/
theorem loop_tail (h : newline ∉ kept ++ segs.flatten) : loop re n kept segs = [] := by
  induction n generalizing kept segs with
  | zero => rfl
  | succ n ih =>
      rw [loop]
      dsimp only
      split
      · rfl
      · generalize hread : read segs (bufSize - kept.length - 1) = r
        have hflat := read_flatten segs (bufSize - kept.length - 1)
        rw [hread] at hflat
        rw [← hflat, ← List.append_assoc, List.mem_append, not_or] at h
        obtain ⟨hbuf, hrest⟩ := h
        have hscan : scan re ((kept ++ r.1).length + 1) (kept ++ r.1) = ([], kept ++ r.1) := by
          rw [scan, strchr_eq_none hbuf]
        rw [hscan]
        dsimp only
        rw [if_pos rfl, List.nil_append]
        exact ih hrest

theorem length_le_unlines (ls : List Text) : ls.length ≤ (unlines ls).length := by
  induction ls with
  | nil => exact Nat.zero_le _
  | cons l ls ih =>
      rw [unlines_cons, List.length_cons, List.length_append, List.length_cons]
      omega

theorem loop_prints (hw : w < bufSize) (hls : ∀ l ∈ ls, Fits w l) (htail : newline ∉ tail)
    (hsegs : Whole w segs) (hdata : kept ++ segs.flatten = unlines ls ++ tail)
    (hkept : newline ∉ kept) (hn : segs.flatten.length < n) :
    loop re n kept segs = unlines (ls.filter (matchRe re)) := by
  induction n generalizing kept segs ls tail with
  | zero => exact absurd hn (Nat.not_lt_zero _)
  | succ n ih =>
      by_cases hne : ls = []
      · rw [hne] at hdata ⊢
        exact loop_tail (hdata ▸ htail)
      obtain ⟨hshort, hmem⟩ := lt_of_unfinished hls hne hkept hdata
      rw [loop]
      dsimp only
      cases segs with
      | nil => exact absurd hmem List.not_mem_nil
      | cons seg segs =>
          obtain ⟨chunk, segs', hread, hchunk, hwhole, hflat, hend⟩ := read_cons hsegs hw hshort
          rw [hread]
          dsimp only
          rw [if_neg hchunk]
          have hlen := congrArg List.length hflat
          rw [List.length_append] at hlen
          have hpos := List.length_pos_iff.mpr hchunk
          rw [hflat, ← List.append_assoc] at hdata
          -- the buffer has a newline, or a line would be too long
          have hnl : newline ∈ kept ++ chunk := by
            by_contra hnone
            obtain ⟨hlt, hmem⟩ := lt_of_unfinished hls hne hnone hdata
            rcases hend with hend | rfl | hend
            · omega
            · exact absurd hmem List.not_mem_nil
            · exact hnone (List.mem_append_right kept hend)
          obtain ⟨ls1, ls2, r, rfl, hbuf, hr, hrest⟩ :=
            split_lines (fun l hl => (hls l hl).no_newline) htail hdata
          have hls1 := length_le_unlines ls1
          have hscan : scan re ((kept ++ chunk).length + 1) (kept ++ chunk)
              = (unlines (ls1.filter (matchRe re)), r) := by
            rw [hbuf, List.length_append]
            exact scan_unlines (fun l hl => hls l (List.mem_append_left ls2 hl)) hr (by omega)
          have hsome : r.length ≠ (kept ++ chunk).length := by
            intro heq
            rw [hbuf, List.length_append] at heq
            rw [hbuf, List.length_eq_zero_iff.mp (by omega : (unlines ls1).length = 0)] at hnl
            exact hr hnl
          rw [hscan, List.filter_append, unlines_append]
          dsimp only
          rw [if_neg hsome]
          congr 1
          exact ih (fun l hl => hls l (List.mem_append_right ls1 hl)) htail hwhole hrest hr
            (by omega)

/-- **`grep` prints exactly the lines that match**, in their order, and does not look at what
stands behind the last newline: of a file, and of a pipe that it has read to its end. -/
theorem grep_prints (re : Text) :
    (∀ ls tail, (∀ l ∈ ls, Fits (bufSize - 1) l) → newline ∉ tail →
      grep re [unlines ls ++ tail] = unlines (ls.filter (matchRe re))) ∧
    Pipe.pieced.InvariantUnder (fun x => Pipe.Linewise newline x.1.1) fun x =>
      x.1.2.ended = true → ∀ ls tail, x.1.2.sent.map Prod.snd = unlines ls ++ tail →
        (∀ l ∈ ls, Fits Pipe.pipeSize l) → newline ∉ tail →
        grep re x.2 = unlines (ls.filter (matchRe re)) := by
  refine ⟨fun ls tail hls htail => ?_, fun x hx hended ls tail hdata hls htail => ?_⟩
  · by_cases hnil : unlines ls ++ tail = []
    · have hlen := length_le_unlines ls
      rw [(List.append_eq_nil_iff.mp hnil).1, List.length_nil] at hlen
      rw [hnil, List.length_eq_zero_iff.mp (Nat.le_zero.mp hlen)]
      rfl
    · exact loop_prints (by decide) hls htail ⟨hnil, fun h => absurd rfl h, trivial⟩
        (List.append_nil _) List.not_mem_nil (Nat.lt_succ_self _)
  · obtain ⟨⟨-, hflow⟩, -, hpieces⟩ := Pipe.pieces_invariant newline x hx
    have hread : x.2.flatten = unlines ls ++ tail := by
      have hfifo := hflow.fifo
      rw [Pipe.empty_iff.mp (hflow.ended hended).1, List.append_nil] at hfifo
      rw [hpieces.flatten, hfifo, hdata]
    exact loop_prints (by decide) hls htail (whole_pieces hpieces.piece) hread List.not_mem_nil
      (Nat.lt_succ_self _)

/-- A process writes two lines, with a `piperead` behind each, and closes the pipe. -/
def twoLines : List Pipe.Label :=
  [.call initproc (.write 3 ['a'.toUInt8, 'b'.toUInt8, newline]), .run initproc,
    .call initproc (.read 1023), .run initproc,
    .call initproc (.write 2 ['c'.toUInt8, newline]), .run initproc,
    .call initproc (.read 1023), .run initproc,
    .close initproc .write, .run initproc, .call initproc (.read 1023), .run initproc]

/-- The first of them is printed. -/
theorem grep_prints_twoLines : ∃ x, Pipe.pieced.Reachable x ∧
    x.2 = [['a'.toUInt8, 'b'.toUInt8, newline], ['c'.toUInt8, newline]] ∧
    grep ['b'.toUInt8] x.2 = unlines [['a'.toUInt8, 'b'.toUInt8]] := by
  obtain ⟨x, hx, hended, hsent, hsegs⟩ := Pipe.pieced.exists_of_runChecked
    (C := fun x => Pipe.Linewise newline x.1.1)
    (P := fun x => x.1.2.ended = true ∧ x.1.2.sent.map Prod.snd =
        unlines [['a'.toUInt8, 'b'.toUInt8], ['c'.toUInt8]] ++ [] ∧
      x.2 = [['a'.toUInt8, 'b'.toUInt8, newline], ['c'.toUInt8, newline]])
    ((.new initproc (fun _ => 0) fun _ => false, .empty), []) twoLines ⟨⟨⟨_, _, _, rfl⟩, rfl⟩, rfl⟩
    (by decide +kernel)
  have hfits : ∀ l ∈ [['a'.toUInt8, 'b'.toUInt8], ['c'.toUInt8]], Fits Pipe.pipeSize l := by
    intro l hl
    simp only [List.mem_cons, List.not_mem_nil, or_false] at hl
    rcases hl with rfl | rfl
    · exact ⟨by decide, by decide, by decide⟩
    · exact ⟨by decide, by decide, by decide⟩
  exact ⟨x, hx.reachable, hsegs,
    (grep_prints ['b'.toUInt8]).2 x hx hended _ [] hsent hfits List.not_mem_nil⟩

/-- A line that is written in two parts is not found. -/
example : grep ['a'.toUInt8] [['a'.toUInt8], [newline]] = [] := by decide

end Os377.Xv6.Grep
