import Os377.Xv6.ShComplete

/-!
# The commands that the xv6 shell runs

`nulterminate` writes a NUL behind every word. No NUL falls into a word, so that every
pointer of the command reads as its word and nothing more (`stringAt_words`). Hence the
shell runs exactly the commands that the grammar gives to its line (`parsed_iff`), and these
are all the commands that fit into its data structures (`parsed_range`).
-/

namespace Os377.Xv6.Sh

open Os377.Lib

variable {s s' s'' : Text} {ts : List Tok} {us vs ws : List Span} {cmd : Cmd Span}

/-! ## The NULs -/

/-- What is left of the line `s` with a NUL behind each of the words `ws`. -/
structure Terminated (ws : List Span) (s s' : Text) : Prop where
  length_eq : s'.length = s.length
  cut : ∀ w ∈ ws, s.length - w.eq.length < s.length → s'[s.length - w.eq.length]? = some 0
  keep : ∀ i, (∀ w ∈ ws, i ≠ s.length - w.eq.length) → s'[i]? = s[i]?

theorem Terminated.nil (s : Text) : Terminated [] s s := by
  refine ⟨rfl, fun w hw => ?_, fun _ _ => rfl⟩
  exact absurd hw List.not_mem_nil

theorem Terminated.trans (h : Terminated us s s') (h' : Terminated vs s' s'')
    (hws : ∀ w, w ∈ ws ↔ w ∈ us ∨ w ∈ vs) : Terminated ws s s'' := by
  constructor
  · exact h'.length_eq.trans h.length_eq
  · intro w hw hlt
    by_cases hv : ∃ v ∈ vs, s.length - w.eq.length = s.length - v.eq.length
    · -- the place is also behind a word of the later ones
      obtain ⟨v, hv, hplace⟩ := hv
      have hcut := h'.cut v hv
      rw [h.length_eq, ← hplace] at hcut
      exact hcut hlt
    · have hkeep := h'.keep (s.length - w.eq.length) fun v hv' heq => hv ⟨v, hv', by
        rwa [h.length_eq] at heq⟩
      rw [hkeep]
      rcases (hws w).mp hw with hu | hv'
      · exact h.cut w hu hlt
      · exact absurd ⟨w, hv', rfl⟩ hv
  · intro i hi
    rw [h'.keep i fun v hv => h.length_eq ▸ hi v ((hws v).mpr (Or.inr hv))]
    exact h.keep i fun u hu => hi u ((hws u).mpr (Or.inl hu))

theorem terminated_cut (s : Text) (w : Span) : Terminated [w] s (cut s w) := by
  unfold cut
  constructor
  · exact List.length_set
  · intro v hv hlt
    obtain rfl := List.mem_singleton.mp hv
    exact List.getElem?_set_self hlt
  · intro i hi
    exact List.getElem?_set_ne fun heq => hi w (List.mem_singleton_self w) heq.symm

theorem terminated_foldl (argv : List Span) (s : Text) : Terminated argv s (argv.foldl cut s) := by
  induction argv generalizing s with
  | nil => exact .nil s
  | cons w argv ih =>
      refine (terminated_cut s w).trans (ih (cut s w)) fun v => ?_
      rw [List.mem_cons, List.mem_singleton]

theorem terminated (cmd : Cmd Span) (s : Text) : Terminated cmd.words s (nulterminate cmd s) := by
  induction cmd generalizing s with
  | exec argv => exact terminated_foldl argv s
  | redir cmd file mode fd ih =>
      refine (ih s).trans (terminated_cut _ file) fun v => ?_
      rw [Cmd.words, List.mem_cons, List.mem_singleton, or_comm]
  | pipe left right ihl ihr => exact (ihl s).trans (ihr _) fun v => List.mem_append
  | list left right ihl ihr => exact (ihl s).trans (ihr _) fun v => List.mem_append
  | back cmd ih => exact ih s

/-- A NUL is behind a word, hence not in a word. -/
theorem cut_not_in_word {w : Span} {i : Nat} {c : UInt8} (hw : Points s w) (hi : s[i]? = some c)
    (hc : plain c = true) : i ≠ s.length - w.eq.length := by
  rintro rfl
  obtain ⟨text, hq, -, -, hend, hsuffix⟩ := hw
  obtain ⟨pre, rfl⟩ : w.eq <:+ s := (hq ▸ List.suffix_append text w.eq).trans hsuffix
  rw [List.length_append, Nat.add_sub_cancel, List.getElem?_append_right (le_refl _),
    Nat.sub_self, ← List.head?_eq_getElem?] at hi
  obtain ⟨rest, heq⟩ := List.head?_eq_some_iff.mp hi
  rw [hend c rest heq] at hc
  exact Bool.noConfusion hc

/-- A prefix is what stands in front of the first entry without `p`. -/
theorem takeWhile_eq {α : Type} {p : α → Bool} {l t : List α} (ht : ∀ a ∈ t, p a = true)
    (hsame : ∀ i < t.length, l[i]? = t[i]?) (hstop : ∀ a, l[t.length]? = some a → p a = false) :
    l.takeWhile p = t := by
  induction t generalizing l with
  | nil =>
      cases l with
      | nil => rfl
      | cons a l => exact List.takeWhile_cons_of_neg (by simp [hstop a rfl])
  | cons b t ih =>
      have hhead := hsame 0 (Nat.zero_lt_succ _)
      cases l with
      | nil => cases hhead
      | cons a l =>
          obtain rfl : a = b := Option.some.inj hhead
          rw [List.takeWhile_cons_of_pos (ht a List.mem_cons_self)]
          refine congrArg (a :: ·) (ih (fun c hc => ht c (List.mem_cons_of_mem a hc)) ?_ ?_)
          · exact fun i hi => hsame (i + 1) (Nat.succ_lt_succ hi)
          · exact hstop

theorem stringAt_words (hnul : 0 ∉ s) (hwords : ∀ w ∈ ws, Points s w) (h : Terminated ws s s')
    {v : Span} (hv : v ∈ ws) : stringAt s' v = v.text := by
  obtain ⟨text, hq, -, hplain, hend, pre, hpre⟩ := hwords v hv
  rw [Span.text_eq hq]
  have hs : s = pre ++ (text ++ v.eq) := by rw [← hpre, hq]
  have hlen : s.length = pre.length + (text.length + v.eq.length) := by
    rw [hs, List.length_append, List.length_append]
  have hplace : s'.length - v.q.length = pre.length := by
    rw [h.length_eq, hlen, hq, List.length_append, Nat.add_sub_cancel]
  have hstop : s.length - v.eq.length = pre.length + text.length := by omega
  unfold stringAt cstrAt
  rw [hplace]
  apply takeWhile_eq
  · intro c hc
    have hmem : c ∈ s := by
      rw [hs]
      exact List.mem_append_right _ (List.mem_append_left _ hc)
    rw [bne_iff_ne]
    rintro rfl
    exact hnul hmem
  · intro i hi
    have hin : s[pre.length + i]? = some text[i] := by
      rw [hs, List.getElem?_append_right (Nat.le_add_right _ _), Nat.add_sub_cancel_left,
        List.getElem?_append_left hi, List.getElem?_eq_getElem hi]
    rw [List.getElem?_drop, h.keep _ fun w hw =>
      cut_not_in_word (hwords w hw) hin (hplain _ (List.getElem_mem hi)), hin]
    exact (List.getElem?_eq_getElem hi).symm
  · intro c hc
    rw [List.getElem?_drop] at hc
    by_cases hne : v.eq = []
    · obtain ⟨hlt, -⟩ := List.getElem?_eq_some_iff.mp hc
      rw [h.length_eq, hlen, hne, List.length_nil] at hlt
      exact absurd hlt (Nat.lt_irrefl _)
    · have hpos := List.length_pos_iff.mpr hne
      have hcut := h.cut v hv (by omega)
      rw [hstop, hc] at hcut
      rw [Option.some.inj hcut]
      rfl

/-! ## What is run -/

theorem renders_nil_iff : Renders [] s ↔ skip s = [] := by
  constructor
  · intro h
    cases h with
    | nil hs => exact hs
  · exact .nil

theorem Renders.eq_nil (h : Renders ts s) (hs : skip s = []) : ts = [] := by
  cases h with
  | nil _ => rfl
  | word hw hne _ _ _ =>
      rw [hs] at hw
      exact absurd (List.append_eq_nil_iff.mp hw.symm).1 hne
  | single hc _ _ => rw [hs] at hc; cases hc
  | gt hc _ _ => rw [hs] at hc; cases hc
  | gtgt hc _ => rw [hs] at hc; cases hc

/-- The strings of the command are the words. -/
theorem map_stringAt {n : Nat} {rest : Text} (hnul : 0 ∉ s)
    (hok : parseline n s = .ok (cmd, rest)) :
    cmd.map (stringAt (nulterminate cmd s)) = cmd.map Span.text := by
  obtain ⟨ts, hts⟩ := exists_renders s
  obtain ⟨-, -, -, -, -, -, hwords⟩ := (sound n).1 s ts cmd rest hts hok
  exact Cmd.map_congr fun w hw => stringAt_words hnul hwords (terminated cmd s) hw

theorem line_of_parsed {t : Cmd Text} (hnul : 0 ∉ s) (h : parsed s = .ok t) :
    ∃ ts, Renders ts s ∧ Line ts t := by
  unfold parsed parsecmd at h
  cases hline : parseline (4 * s.length + 4) s with
  | error e => rw [hline] at h; cases h
  | ok r =>
      obtain ⟨cmd, rest⟩ := r
      rw [hline] at h
      dsimp only at h
      obtain ⟨ts, hts⟩ := exists_renders s
      obtain ⟨ts1, ts2, rfl, hg, h2, -, -⟩ := (sound _).1 s ts cmd rest hts hline
      rw [peek_snd] at h
      by_cases hrest : skip rest = []
      · rw [if_neg (not_not.mpr hrest)] at h
        obtain rfl := h2.eq_nil hrest
        rw [List.append_nil] at hts
        refine ⟨ts1, hts, ?_⟩
        cases h
        rw [map_stringAt hnul hline]
        exact hg
      · rw [if_pos hrest] at h
        cases h

theorem parsed_of_line {t : Cmd Text} (hnul : 0 ∉ s) (hts : Renders ts s) (hg : Line ts t) :
    parsed s = .ok t := by
  obtain ⟨cmd, rest, hline, hmap, hnil⟩ := (complete (4 * s.length + 4)).1 s ts [] t hg
    (by rwa [List.append_nil]) (Or.inl rfl) (le_refl _)
  unfold parsed parsecmd
  rw [hline]
  dsimp only
  rw [peek_snd, if_neg (not_not.mpr (renders_nil_iff.mp hnil))]
  show Except.ok (cmd.map (stringAt (nulterminate cmd s))) = _
  rw [map_stringAt hnul hline, hmap]

/-- The recursion of `parsecmd` comes to an end on every line. -/
theorem parsed_stops (s : Text) : parsed s ≠ .error .outOfFuel := by
  unfold parsed parsecmd
  intro h
  cases hline : parseline (4 * s.length + 4) s with
  | error e =>
      rw [hline] at h
      cases h
      exact (enough _).1 s (le_refl _) hline
  | ok r =>
      rw [hline] at h
      dsimp only at h
      by_cases hrest : (peek r.2 []).2 ≠ []
      · rw [if_pos hrest] at h
        cases h
      · rw [if_neg hrest] at h
        cases h

/-- The shell runs a command exactly where the grammar gives it to the line, with the words of
the line as its strings, and gives up on every other line. -/
theorem parsed_iff (s : Text) (hnul : 0 ∉ s) :
    (∀ t, parsed s = .ok t ↔ ∃ ts, Renders ts s ∧ Line ts t) ∧
      parsed s ≠ .error .outOfFuel :=
  ⟨fun _ => ⟨line_of_parsed hnul, fun ⟨_, hts, hg⟩ => parsed_of_line hnul hts hg⟩, parsed_stops s⟩

/-- `a>f|b&` -/
theorem parsed_iff_pipe :
    let s := ['a', '>', 'f', '|', 'b', '&'].map Char.toUInt8
    let t := Cmd.back (.pipe (.redir (.exec [['a'.toUInt8]]) ['f'.toUInt8] oWronlyCreate 1)
      (.exec [['b'.toUInt8]]))
    parsed s = .ok t ∧ ∃ ts, Renders ts s ∧ Line ts t := by
  intro s t
  have h : parsed s = .ok t := by decide
  exact ⟨h, ((parsed_iff s (by decide)).1 t).mp h⟩

/-! ## What can be written -/

/-- A word of a line. -/
def IsWord (w : Text) : Prop := w ≠ [] ∧ ∀ c ∈ w, plain c = true ∧ c ≠ 0

def Tok.Good : Tok → Prop
  | .word w => IsWord w
  | .sym c => c ∈ singles ∨ c = '>'.toUInt8 ∨ c = '+'.toUInt8

/-- A command that a line can stand for. -/
def Cmd.Built : Cmd Text → Prop
  | .exec argv => argv.length < maxArgs ∧ ∀ w ∈ argv, IsWord w
  | .redir cmd file mode fd => cmd.Built ∧ IsWord file ∧
      (mode = oRdonly ∧ fd = 0 ∨ mode = oWronlyCreate ∧ fd = 1)
  | .pipe left right | .list left right => left.Built ∧ right.Built
  | .back cmd => cmd.Built

theorem Renders.good (h : Renders ts s) (hnul : 0 ∉ s) : ∀ t ∈ ts, t.Good := by
  have hrest : ∀ {s y x : Text}, skip s = y ++ x → 0 ∉ s → 0 ∉ y ∧ 0 ∉ x := by
    intro s y x hs hnul
    refine ⟨fun hy => ?_, fun hx => ?_⟩
    · exact hnul ((skip_suffix s).subset (hs ▸ List.mem_append_left x hy))
    · exact hnul ((skip_suffix s).subset (hs ▸ List.mem_append_right y hx))
  induction h with
  | nil _ => exact fun t ht => absurd ht List.not_mem_nil
  | @word s w s' ts hs hne hw _ _ ih =>
      obtain ⟨hnulw, hnul'⟩ := hrest hs hnul
      intro t ht
      rcases List.mem_cons.mp ht with rfl | ht
      · refine ⟨hne, fun c hc => ⟨hw c hc, ?_⟩⟩
        rintro rfl
        exact hnulw hc
      · exact ih hnul' t ht
  | @single s c s' ts hs hc _ ih =>
      intro t ht
      rcases List.mem_cons.mp ht with rfl | ht
      · exact Or.inl hc
      · exact ih (hrest (y := [c]) hs hnul).2 t ht
  | @gt s s' ts hs _ _ ih =>
      intro t ht
      rcases List.mem_cons.mp ht with rfl | ht
      · exact Or.inr (Or.inl rfl)
      · exact ih (hrest (y := ['>'.toUInt8]) hs hnul).2 t ht
  | @gtgt s s' ts hs _ ih =>
      intro t ht
      rcases List.mem_cons.mp ht with rfl | ht
      · exact Or.inr (Or.inr rfl)
      · exact ih (hrest (y := ['>'.toUInt8, '>'.toUInt8]) hs hnul).2 t ht

theorem built_wrap {rs : List (UInt8 × Text)} {t : Cmd Text} (ht : t.Built)
    (hrs : ∀ r ∈ rs, IsWord r.2) : (wrap rs t).Built := by
  induction rs generalizing t with
  | nil => exact ht
  | cons r rs ih =>
      show (wrap rs (redirect t r)).Built
      refine ih ?_ fun r' hr' => hrs r' (List.mem_cons_of_mem r hr')
      have hr := hrs r List.mem_cons_self
      unfold redirect
      split
      · exact ⟨ht, hr, Or.inl ⟨rfl, rfl⟩⟩
      · exact ⟨ht, hr, Or.inr ⟨rfl, rfl⟩⟩

theorem built_backs {t : Cmd Text} (ht : t.Built) (n : Nat) : (backs n t).Built := by
  induction n with
  | zero => exact ht
  | succ n ih => exact ih

theorem Simple.good {us : List Text} {rs : List (UInt8 × Text)} (h : Simple ts us rs)
    (hgood : ∀ t ∈ ts, t.Good) : (∀ w ∈ us, IsWord w) ∧ ∀ r ∈ rs, IsWord r.2 := by
  induction h with
  | nil => exact ⟨fun w hw => absurd hw List.not_mem_nil, fun r hr => absurd hr List.not_mem_nil⟩
  | @word w ts us rs _ ih =>
      obtain ⟨hus, hrs⟩ := ih fun t ht => hgood t (List.mem_cons_of_mem _ ht)
      refine ⟨fun v hv => ?_, hrs⟩
      rcases List.mem_cons.mp hv with rfl | hv
      · exact hgood (.word v) List.mem_cons_self
      · exact hus v hv
  | @redir c w ts us rs _ _ ih =>
      obtain ⟨hus, hrs⟩ := ih fun t ht =>
        hgood t (List.mem_cons_of_mem _ (List.mem_cons_of_mem _ ht))
      refine ⟨hus, fun r hr => ?_⟩
      rcases List.mem_cons.mp hr with rfl | hr
      · exact hgood (.word w) (List.mem_cons_of_mem _ List.mem_cons_self)
      · exact hrs r hr

mutual

theorem Exec.built {ts : List Tok} {t : Cmd Text} (hgood : ∀ t ∈ ts, t.Good) :
    Exec ts t → t.Built
  | .simple hsimple hfew =>
      have hwords := hsimple.good hgood
      built_wrap ⟨hfew, hwords.1⟩ hwords.2
  | .block hline hsimple => by
      refine built_wrap (hline.built fun t ht => hgood t ?_) (hsimple.good fun t ht => hgood t ?_).2
      · exact List.mem_cons_of_mem _ (List.mem_append_left _ ht)
      · exact List.mem_cons_of_mem _ (List.mem_append_right _ (List.mem_cons_of_mem _ ht))

theorem Pipe.built {ts : List Tok} {t : Cmd Text} (hgood : ∀ t ∈ ts, t.Good) :
    Pipe ts t → t.Built
  | .one hexec => hexec.built hgood
  | .more hleft hright =>
      ⟨hleft.built fun t ht => hgood t (List.mem_append_left _ ht),
        hright.built fun t ht => hgood t (List.mem_append_right _ (List.mem_cons_of_mem _ ht))⟩

theorem Line.built {ts : List Tok} {t : Cmd Text} (hgood : ∀ t ∈ ts, t.Good) :
    Line ts t → t.Built
  | .one n hpipe => built_backs (hpipe.built fun t ht => hgood t (List.mem_append_left _ ht)) n
  | .more n hleft hright =>
      ⟨built_backs (hleft.built fun t ht => hgood t (List.mem_append_left _ ht)) n,
        hright.built fun t ht => hgood t (List.mem_append_right _
          (List.mem_append_right _ (List.mem_cons_of_mem _ ht)))⟩

end

/-! ## Writing a command down -/

def Tok.spell : Tok → Text
  | .word w => w
  | .sym c => if c = '+'.toUInt8 then ['>'.toUInt8, '>'.toUInt8] else [c]

/-- The tokens with a blank behind each. -/
def spell (ts : List Tok) : Text := ts.flatMap fun t => t.spell ++ [' '.toUInt8]

theorem skip_cons {c : UInt8} {rest : Text} (h : whitespace.contains c = false) :
    skip (c :: rest) = c :: rest := List.dropWhile_cons_of_neg (by rw [h]; exact Bool.false_ne_true)

theorem renders_spell (h : ∀ t ∈ ts, t.Good) : Renders ts (spell ts) ∧ 0 ∉ spell ts := by
  have hsingles : ∀ c ∈ singles, whitespace.contains c = false ∧ c ≠ '+'.toUInt8 ∧ c ≠ 0 :=
    checked rfl
  induction ts with
  | nil => exact ⟨.nil rfl, List.not_mem_nil⟩
  | cons t ts ih =>
      obtain ⟨ih, hnul⟩ := ih fun t ht => h t (List.mem_cons_of_mem _ ht)
      have hgood := h t List.mem_cons_self
      -- the blank in front of what follows
      have hblank : Renders ts (' '.toUInt8 :: spell ts) := by
        have hskip : skip (' '.toUInt8 :: spell ts) = skip (spell ts) :=
          List.dropWhile_cons_of_pos rfl
        rw [← renders_skip, hskip]
        exact renders_skip.mpr ih
      have hends : Ends (' '.toUInt8 :: spell ts) := by
        rintro c rest ⟨⟩
        decide
      cases t with
      | word w =>
          obtain ⟨hne, hw⟩ := hgood
          have hspell : spell (.word w :: ts) = w ++ ' '.toUInt8 :: spell ts := by
            show (w ++ [' '.toUInt8]) ++ spell ts = _
            rw [List.append_assoc]
            rfl
          rw [hspell]
          obtain ⟨c, rest, rfl⟩ := List.exists_cons_of_ne_nil hne
          have hc := (not_symbol_of_plain (hw c List.mem_cons_self).1).2
          refine ⟨.word (skip_cons hc) hne (fun c hc => (hw c hc).1) hends hblank, fun hmem => ?_⟩
          rcases List.mem_append.mp hmem with hmem | hmem
          · exact (hw 0 hmem).2 rfl
          · rcases List.mem_cons.mp hmem with hzero | hmem
            · exact absurd hzero (by decide)
            · exact hnul hmem
      | sym c =>
          have hzero : ∀ x : Text, 0 ∉ x → 0 ∉ x ++ ' '.toUInt8 :: spell ts := by
            intro x hx hmem
            rcases List.mem_append.mp hmem with hmem | hmem
            · exact hx hmem
            · rcases List.mem_cons.mp hmem with hzero | hmem
              · exact absurd hzero (by decide)
              · exact hnul hmem
          rcases hgood with hc | rfl | rfl
          · obtain ⟨hwhite, hplus, hne⟩ := hsingles c hc
            have hspell : spell (.sym c :: ts) = [c] ++ ' '.toUInt8 :: spell ts := by
              show ((if c = '+'.toUInt8 then _ else [c]) ++ [' '.toUInt8]) ++ spell ts = _
              rw [if_neg hplus]
              rfl
            rw [hspell]
            refine ⟨.single (skip_cons hwhite) hc hblank, hzero [c] fun hmem => ?_⟩
            exact hne (List.mem_singleton.mp hmem).symm
          · have hnext : (' '.toUInt8 :: spell ts).head? ≠ some '>'.toUInt8 := by
              show some ' '.toUInt8 ≠ some '>'.toUInt8
              decide
            exact ⟨.gt (skip_cons (by decide)) hnext hblank, hzero ['>'.toUInt8] (by decide)⟩
          · exact ⟨.gtgt (skip_cons (by decide)) hblank,
              hzero ['>'.toUInt8, '>'.toUInt8] (by decide)⟩

/-- In parentheses, with what follows. -/
def paren (ts ts' : List Tok) : List Tok := .sym '('.toUInt8 :: (ts ++ .sym ')'.toUInt8 :: ts')

/-- Tokens of a command, in parentheses wherever it is not a simple one. -/
def Cmd.print : Cmd Text → List Tok
  | .exec argv => argv.map .word
  | .redir cmd file mode _ =>
      paren cmd.print [.sym (if mode = oRdonly then '<'.toUInt8 else '>'.toUInt8), .word file]
  | .pipe left right => paren left.print [] ++ .sym '|'.toUInt8 :: paren right.print []
  | .list left right => paren left.print [] ++ .sym ';'.toUInt8 :: paren right.print []
  | .back cmd => paren cmd.print [] ++ [.sym '&'.toUInt8]

theorem line_exec {t : Cmd Text} (h : Exec ts t) : Line ts t := by
  have hline := Line.one 0 (.one h)
  rw [List.replicate_zero, List.append_nil] at hline
  exact hline

theorem exec_paren {t : Cmd Text} (h : Line ts t) : Exec (paren ts []) t := .block h .nil

theorem simple_words (argv : List Text) : Simple (argv.map .word) argv [] := by
  induction argv with
  | nil => exact .nil
  | cons w argv ih => exact .word ih

theorem line_print {t : Cmd Text} (h : t.Built) : Line t.print t := by
  induction t with
  | exec argv => exact line_exec (.simple (simple_words argv) h.1)
  | redir cmd file mode fd ih =>
      obtain ⟨hcmd, -, hmode⟩ := h
      unfold Cmd.print
      rcases hmode with ⟨rfl, rfl⟩ | ⟨rfl, rfl⟩
      · rw [if_pos rfl]
        exact line_exec (.block (ih hcmd) (.redir (by decide) .nil))
      · rw [if_neg (by decide)]
        exact line_exec (.block (ih hcmd) (.redir (by decide) .nil))
  | pipe left right ihl ihr =>
      have hpipe := Pipe.more (exec_paren (ihl h.1)) (.one (exec_paren (ihr h.2)))
      have hline := Line.one 0 hpipe
      rw [List.replicate_zero, List.append_nil] at hline
      exact hline
  | list left right ihl ihr =>
      exact .more 0 (.one (exec_paren (ihl h.1))) (line_exec (exec_paren (ihr h.2)))
  | back cmd ih => exact .one 1 (.one (exec_paren (ih h)))

theorem good_paren {ts ts' : List Tok} (h : ∀ t ∈ ts, t.Good) (h' : ∀ t ∈ ts', t.Good) :
    ∀ t ∈ paren ts ts', t.Good := by
  intro t ht
  rcases List.mem_cons.mp ht with rfl | ht
  · exact Or.inl (by decide)
  rcases List.mem_append.mp ht with ht | ht
  · exact h t ht
  rcases List.mem_cons.mp ht with rfl | ht
  · exact Or.inl (by decide)
  · exact h' t ht

theorem good_print {t : Cmd Text} (h : t.Built) : ∀ u ∈ t.print, u.Good := by
  have hnil : ∀ u ∈ ([] : List Tok), u.Good := fun u hu => absurd hu List.not_mem_nil
  -- a symbol between two groups
  have hmid : ∀ {ts ts' : List Tok} {c : UInt8}, c ∈ singles → (∀ u ∈ ts, u.Good) →
      (∀ u ∈ ts', u.Good) → ∀ u ∈ ts ++ .sym c :: ts', u.Good := by
    intro ts ts' c hc h h' u hu
    rcases List.mem_append.mp hu with hu | hu
    · exact h u hu
    rcases List.mem_cons.mp hu with rfl | hu
    · exact Or.inl hc
    · exact h' u hu
  induction t with
  | exec argv =>
      intro u hu
      obtain ⟨w, hw, rfl⟩ := List.mem_map.mp hu
      exact h.2 w hw
  | redir cmd file mode fd ih =>
      obtain ⟨hcmd, hfile, -⟩ := h
      refine good_paren (ih hcmd) fun u hu => ?_
      rcases List.mem_cons.mp hu with rfl | hu
      · show _ ∨ _
        split
        · exact Or.inl (by decide)
        · exact Or.inr (Or.inl rfl)
      · rw [List.mem_singleton.mp hu]
        exact hfile
  | pipe left right ihl ihr =>
      exact hmid (by decide) (good_paren (ihl h.1) hnil) (good_paren (ihr h.2) hnil)
  | list left right ihl ihr =>
      exact hmid (by decide) (good_paren (ihl h.1) hnil) (good_paren (ihr h.2) hnil)
  | back cmd ih => exact hmid (by decide) (good_paren (ih h) hnil) hnil

/-- The commands of the lines are all that have fewer than `MAXARGS` arguments at each program
and redirect input or output to words; `print` writes such a command down. -/
theorem parsed_range (t : Cmd Text) : ((∃ s, 0 ∉ s ∧ parsed s = .ok t) ↔ t.Built) ∧
    (t.Built → 0 ∉ spell t.print ∧ parsed (spell t.print) = .ok t) := by
  have hprint : t.Built → 0 ∉ spell t.print ∧ parsed (spell t.print) = .ok t := by
    intro h
    obtain ⟨hrenders, hnul⟩ := renders_spell (good_print h)
    exact ⟨hnul, parsed_of_line hnul hrenders (line_print h)⟩
  refine ⟨⟨?_, fun h => ⟨_, hprint h⟩⟩, hprint⟩
  rintro ⟨s, hnul, h⟩
  obtain ⟨ts, hts, hline⟩ := line_of_parsed hnul h
  exact hline.built (hts.good hnul)

end Os377.Xv6.Sh
