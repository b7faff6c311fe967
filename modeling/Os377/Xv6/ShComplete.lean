import Os377.Xv6.ShSound

/-!
# The xv6 shell parses what is in the grammar

A function of the parser reads any text whose tokens the grammar derives, up to a token that
may follow (`complete`).
-/

namespace Os377.Xv6.Sh

open Os377.Lib

variable {s s' : Text} {ts ts1 ts2 : List Tok} {n : Nat} {cmd : Cmd Span} {ws : List Text}
  {rs : List (UInt8 × Text)}

/-- What follows is nothing, or one of these symbols. -/
def Follow (toks : Text) (ts : List Tok) : Prop :=
  ts = [] ∨ ∃ c ts', ts = .sym c :: ts' ∧ c ∈ toks

/-- The codes of the symbols that `peek` finds as they are. -/
theorem first_sym {c : UInt8} (hc : c ≠ '+'.toUInt8) : first (.sym c :: ts) = some c := by
  rw [first, if_neg hc]

/-- The next token is not one of `toks`. -/
theorem peek_false {toks : Text} (h : Renders ts s) (htoks : ∀ c ∈ toks, c ∈ symbols)
    (hnot : ∀ c ∈ toks, first ts ≠ some c) : (peek s toks).1 = false := by
  rw [Bool.eq_false_iff]
  intro hp
  obtain ⟨c, hc, heq⟩ := (peek_iff h htoks).mp hp
  exact hnot c hc heq

theorem peek_single {d : UInt8} (h : Renders (.sym d :: ts) s) (hd : d ∈ singles) :
    (peek s [d]).1 = true ∧ ∃ w s', gettoken (skip s) = (d, w, s') ∧ Renders ts s' ∧
      s'.length < s.length := by
  have hsub : ∀ c ∈ [d], c ∈ symbols := fun c hc => by
    rw [List.mem_singleton.mp hc]
    exact singles_sub hd
  have hne : d ≠ '+'.toUInt8 := by
    rintro rfl
    exact absurd hd (by decide)
  have hp := (peek_iff h hsub).mpr ⟨d, List.mem_singleton_self d, first_sym hne⟩
  obtain ⟨ts', w, s', heq, hget, ht, -, hlen⟩ := take_single h hd hp
  cases heq
  exact ⟨hp, w, s', hget, ht, hlen⟩

/-- None of `toks` follows, where all that may follow is in `cs`. -/
theorem Follow.first_ne {cs toks : Text} (h : Follow cs ts) (hplus : '+'.toUInt8 ∉ cs)
    (hdisj : ∀ c ∈ cs, c ∉ toks) : ∀ c ∈ toks, first ts ≠ some c := by
  intro c hc heq
  rcases h with rfl | ⟨d, ts', rfl, hd⟩
  · cases heq
  · rw [first_sym fun hd' => hplus (hd' ▸ hd)] at heq
    exact hdisj d hd (Option.some.inj heq ▸ hc)

theorem Follow.mono {cs cs' : Text} (h : Follow cs ts) (hsub : ∀ c ∈ cs, c ∈ cs') :
    Follow cs' ts := by
  rcases h with rfl | ⟨c, ts', rfl, hc⟩
  · exact Or.inl rfl
  · exact Or.inr ⟨c, ts', rfl, hsub c hc⟩

theorem parseredirs_complete (cmd : Cmd Span) (hsimple : Simple ts1 [] rs)
    (h : Renders (ts1 ++ ts2) s)
    (hfollow : ∀ c ∈ ['<'.toUInt8, '>'.toUInt8], first ts2 ≠ some c) (hn : s.length < n) :
    ∃ rs' s', parseredirs n cmd s = .ok (wrap rs' cmd, s') ∧ rs'.map named = rs ∧
      Renders ts2 s' := by
  induction n generalizing ts1 rs s cmd with
  | zero => exact absurd hn (Nat.not_lt_zero _)
  | succ n ih =>
      rw [parseredirs]
      dsimp only
      rw [peek_snd]
      cases hsimple with
      | nil =>
          rw [peek_false h (checked rfl) hfollow]
          exact ⟨[], skip s, rfl, rfl, renders_skip.mpr h⟩
      | @redir c w ts1 _ rs hc hsimple =>
          have hp : (peek s ['<'.toUInt8, '>'.toUInt8]).1 = true := by
            refine (peek_iff h (checked rfl)).mpr ?_
            show ∃ d ∈ _, some (if c = '+'.toUInt8 then '>'.toUInt8 else c) = some d
            refine ⟨_, ?_, rfl⟩
            unfold arrows at hc
            simp only [List.mem_cons, List.not_mem_nil, or_false] at hc
            rcases hc with rfl | rfl | rfl <;> decide
          obtain ⟨d, ts', v, s1, heq, -, hget, h1, -, hlen1⟩ := take_sym h (checked rfl) hp
          cases heq
          rw [hp, hget]
          obtain ⟨u, s2, hget2, h2, -, hlen2, hword⟩ := gettoken_cons h1
          obtain ⟨-, htext⟩ := hword w rfl
          rw [if_pos rfl, hget2]
          dsimp only
          rw [if_neg (fun hne => hne rfl)]
          obtain ⟨rs', s', hok, hnamed, ht⟩ := ih (redirect cmd (c, u)) hsimple h2
            (by omega)
          refine ⟨(c, u) :: rs', s', hok, ?_, ht⟩
          rw [List.map_cons, hnamed, named, htext]

/-- The redirections in front of the first word. -/
theorem Simple.split (h : Simple ts ws rs) : ∃ ts1 rs1 ts2 rs2, ts = ts1 ++ ts2 ∧
    rs = rs1 ++ rs2 ∧ Simple ts1 [] rs1 ∧ Simple ts2 ws rs2 ∧
    (ts2 = [] ∨ ∃ w ts3, ts2 = .word w :: ts3) := by
  induction h with
  | nil => exact ⟨[], [], [], [], rfl, rfl, .nil, .nil, Or.inl rfl⟩
  | @word w ts ws rs h _ => exact ⟨[], [], _, rs, rfl, rfl, .nil, .word h, Or.inr ⟨w, ts, rfl⟩⟩
  | redir hc _ ih =>
      obtain ⟨ts1, rs1, ts2, rs2, rfl, rfl, h1, h2, hstart⟩ := ih
      exact ⟨_ :: _ :: ts1, _ :: rs1, ts2, rs2, rfl, rfl, .redir hc h1, h2, hstart⟩

/-- The symbols that end a simple command. -/
def enders : Text := ['|'.toUInt8, ')'.toUInt8, '&'.toUInt8, ';'.toUInt8]

/-- No redirection comes next. -/
theorem no_arrow (hstart : ts1 = [] ∨ ∃ w ts3, ts1 = .word w :: ts3) (hfollow : Follow enders ts2) :
    ∀ c ∈ ['<'.toUInt8, '>'.toUInt8], first (ts1 ++ ts2) ≠ some c := by
  rcases hstart with rfl | ⟨w, ts3, rfl⟩
  · exact hfollow.first_ne (by decide) (checked rfl)
  · exact fun c _ heq => by cases heq

theorem parseargs_complete (argv : List Span) (rs0 : List (UInt8 × Span))
    (hsimple : Simple ts1 ws rs) (hstart : ts1 = [] ∨ ∃ w ts3, ts1 = .word w :: ts3)
    (h : Renders (ts1 ++ ts2) s) (hfollow : Follow enders ts2)
    (hfew : argv.length + ws.length < maxArgs) (hn : s.length < n) :
    ∃ us rs' s', parseargs n argv (wrap rs0 (.exec [])) s
        = .ok (wrap (rs0 ++ rs') (.exec (argv ++ us)), s') ∧
      us.map Span.text = ws ∧ rs'.map named = rs ∧ Renders ts2 s' := by
  induction n generalizing ts1 ws rs s argv rs0 with
  | zero => exact absurd hn (Nat.not_lt_zero _)
  | succ n ih =>
      rw [parseargs]
      dsimp only
      rw [peek_snd]
      have hskip := renders_skip.mpr h
      rcases hstart with rfl | ⟨w, ts3, rfl⟩
      · cases hsimple with
        | nil =>
            rcases hfollow with rfl | ⟨c, ts', rfl, hc⟩
            · have hp : (peek s enders).1 = false := by
                refine peek_false h (checked rfl) fun _ _ heq => ?_
                cases heq
              unfold enders at hp
              rw [hp, gettoken_nil hskip]
              refine ⟨[], [], [], ?_, rfl, rfl, .nil rfl⟩
              rw [fill_wrap, List.append_nil, List.append_nil]
              rfl
            · have hne : c ≠ '+'.toUInt8 := by
                rintro rfl
                exact absurd hc (by decide)
              have hp : (peek s enders).1 = true :=
                (peek_iff h (checked rfl)).mpr ⟨c, hc, first_sym hne⟩
              unfold enders at hp
              rw [hp, if_pos rfl]
              refine ⟨[], [], skip s, ?_, rfl, rfl, hskip⟩
              rw [fill_wrap, List.append_nil, List.append_nil]
      · cases hsimple with
        | @word _ _ ws rs hsimple =>
            obtain ⟨u, s1, hget, h1, -, hlen1, hword⟩ := gettoken_cons hskip
            obtain ⟨-, htext⟩ := hword w rfl
            have hlen := (skip_suffix s).length_le
            rw [List.length_cons] at hfew
            have hp : (peek s enders).1 = false := by
              refine peek_false h (checked rfl) fun _ _ heq => ?_
              cases heq
            unfold enders at hp
            have hzero : (Tok.word w).code ≠ 0 := by
              show 'a'.toUInt8 ≠ 0
              decide
            have hkind : ¬ (Tok.word w).code ≠ 'a'.toUInt8 := fun hne => hne rfl
            rw [hp, hget, if_neg Bool.false_ne_true]
            dsimp only
            rw [if_neg hzero, if_neg hkind, if_neg (by omega)]
            obtain ⟨ta, ra, tb, rb, rfl, rfl, ha, hb, hstart⟩ := hsimple.split
            change Renders (ta ++ tb ++ ts2) s1 at h1
            rw [List.append_assoc] at h1
            obtain ⟨rs1, s2, hok1, hnamed1, h2⟩ := parseredirs_complete
              (wrap rs0 (.exec [])) ha h1 (no_arrow hstart hfollow) (Nat.lt_succ_self _)
            obtain ⟨-, -, -, -, -, -, -, hsuffix, -⟩ := parseredirs_sound h1 hok1
            have hlen2 := hsuffix.length_le
            rw [hok1]
            dsimp only
            rw [← wrap_append]
            have hfew' : (argv ++ [u]).length + ws.length < maxArgs := by
              rw [List.length_append, List.length_singleton]
              omega
            obtain ⟨us, rs', s', hok, htexts, hnamed, ht⟩ :=
              ih (argv ++ [u]) (rs0 ++ rs1) hb hstart h2 hfew' (by omega)
            refine ⟨u :: us, rs1 ++ rs', s', ?_, ?_, ?_, ht⟩
            · rw [hok, List.append_assoc, List.append_assoc]
              rfl
            · rw [List.map_cons, htexts, htext]
            · rw [List.map_append, hnamed1, hnamed]

theorem parseamps_complete (cmd : Cmd Span) {k : Nat}
    (h : Renders (List.replicate k (.sym '&'.toUInt8) ++ ts2) s)
    (hfollow : first ts2 ≠ some '&'.toUInt8) (hn : s.length < n) :
    ∃ s', parseamps n cmd s = .ok (backs k cmd, s') ∧ Renders ts2 s' := by
  induction n generalizing k s cmd with
  | zero => exact absurd hn (Nat.not_lt_zero _)
  | succ n ih =>
      rw [parseamps]
      dsimp only
      rw [peek_snd]
      cases k with
      | zero =>
          rw [peek_false h (checked rfl) fun c hc => by rwa [List.mem_singleton.mp hc]]
          exact ⟨skip s, rfl, renders_skip.mpr h⟩
      | succ k =>
          obtain ⟨hp, w, s1, hget, h1, hlen1⟩ := peek_single h (by decide)
          rw [hp, hget]
          obtain ⟨s', hok, ht⟩ := ih (.back cmd) h1 (by omega)
          rw [backs_back] at hok
          exact ⟨s', hok, ht⟩

/-- Whatever the grammar `G` derives, up to something in `cs`, `parse` reads. -/
def Complete (parse : Nat → Text → Except Stop (Cmd Span × Text))
    (G : List Tok → Cmd Text → Prop) (cs : Text) (k n : Nat) : Prop :=
  ∀ s ts1 ts2 t, G ts1 t → Renders (ts1 ++ ts2) s → Follow cs ts2 → 4 * s.length + k ≤ n →
    ∃ cmd s', parse n s = .ok (cmd, s') ∧ cmd.map Span.text = t ∧ Renders ts2 s'

/-- A command in parentheses, with its redirections. -/
def CompleteBlock (n : Nat) : Prop :=
  ∀ s ts1 ts2 ts3 inner rs, Line ts1 inner → Simple ts2 [] rs →
    Renders (.sym '('.toUInt8 :: (ts1 ++ .sym ')'.toUInt8 :: (ts2 ++ ts3))) s →
    Follow enders ts3 → 4 * s.length + 1 ≤ n →
    ∃ cmd s', parseblock n s = .ok (cmd, s') ∧ cmd.map Span.text = wrap rs inner ∧ Renders ts3 s'

theorem complete_block (hline : Complete parseline Line [')'.toUInt8] 4 n) :
    CompleteBlock (n + 1) := by
  intro s ts1 ts2 ts3 inner rs hinner hsimple h hfollow hn
  obtain ⟨hp, w, s1, hget, h1, hlen1⟩ := peek_single h (by decide)
  obtain ⟨cmd, s2, hok, hmap, h2⟩ := hline s1 ts1 _ inner hinner h1
    (Or.inr ⟨_, _, rfl, List.mem_singleton_self _⟩) (by omega)
  obtain ⟨hp2, w2, s3, hget2, h3, -⟩ := peek_single h2 (by decide)
  obtain ⟨rs', s', hredirs, hnamed, ht⟩ := parseredirs_complete cmd hsimple h3
    (hfollow.first_ne (by decide) (checked rfl)) (Nat.lt_succ_self _)
  refine ⟨wrap rs' cmd, s', ?_, ?_, ht⟩
  · rw [parseblock]
    dsimp only
    rw [peek_snd, hp, hget, if_pos rfl]
    dsimp only
    rw [hok]
    dsimp only
    rw [peek_snd, hp2, hget2, if_pos rfl]
    exact hredirs
  · rw [map_wrap, hmap, hnamed]

theorem complete_exec (hblock : CompleteBlock n) : Complete parseexec Exec enders 2 (n + 1) := by
  intro s ts1 ts2 t ht h hfollow hn
  have hskip := renders_skip.mpr h
  have hlen := (skip_suffix s).length_le
  rw [parseexec]
  dsimp only
  rw [peek_snd]
  cases ht with
  | @block ta tb inner rs hline hsimple =>
      rw [List.cons_append, List.append_assoc, List.cons_append] at h hskip
      obtain ⟨hp, -⟩ := peek_single h (by decide)
      rw [hp, if_pos rfl]
      exact hblock (skip s) ta tb ts2 inner rs hline hsimple hskip hfollow (by omega)
  | @simple _ ws rs hsimple hfew =>
      have hp : (peek s ['('.toUInt8]).1 = false := by
        refine peek_false h (checked rfl) fun c hc => ?_
        obtain rfl := List.mem_singleton.mp hc
        cases hsimple with
        | nil => exact hfollow.first_ne (by decide) (checked rfl) _ hc
        | word _ => exact fun heq => by cases heq
        | @redir d w ts ws rs hd _ =>
            show some (if d = '+'.toUInt8 then '>'.toUInt8 else d) ≠ some '('.toUInt8
            unfold arrows at hd
            simp only [List.mem_cons, List.not_mem_nil, or_false] at hd
            rcases hd with rfl | rfl | rfl <;> decide
      obtain ⟨ta, ra, tb, rb, rfl, rfl, ha, hb, hstart⟩ := hsimple.split
      rw [List.append_assoc] at hskip
      obtain ⟨rs1, s1, hok1, hnamed1, h1⟩ := parseredirs_complete (.exec []) ha hskip
        (no_arrow hstart hfollow) (Nat.lt_succ_self _)
      obtain ⟨us, rs2, s', hok, htexts, hnamed, hrest⟩ := parseargs_complete []
        rs1 hb hstart h1 hfollow (by simpa using hfew) (Nat.lt_succ_self _)
      refine ⟨wrap (rs1 ++ rs2) (.exec us), s', ?_, ?_, hrest⟩
      · rw [hp, if_neg Bool.false_ne_true, hok1]
        exact hok
      · rw [map_wrap, List.map_append, hnamed1, hnamed]
        show wrap _ (.exec (us.map Span.text)) = _
        rw [htexts]

theorem complete_pipe (hexec : Complete parseexec Exec enders 2 n)
    (hpipe : Complete parsepipe Pipe [')'.toUInt8, '&'.toUInt8, ';'.toUInt8] 3 n) :
    Complete parsepipe Pipe [')'.toUInt8, '&'.toUInt8, ';'.toUInt8] 3 (n + 1) := by
  intro s ts1 ts2 t ht h hfollow hn
  rw [parsepipe]
  cases ht with
  | one hg =>
      obtain ⟨cmd, s1, hok, hmap, h1⟩ :=
        hexec s ts1 ts2 t hg h (hfollow.mono (checked rfl)) (by omega)
      have hp : (peek s1 ['|'.toUInt8]).1 = false :=
        peek_false h1 (checked rfl) (hfollow.first_ne (by decide) (checked rfl))
      rw [hok]
      dsimp only
      rw [peek_snd, hp]
      exact ⟨cmd, skip s1, rfl, hmap, renders_skip.mpr h1⟩
  | @more ta tb left right hleft hright =>
      rw [List.append_assoc] at h
      obtain ⟨cmd, s1, hok, hmap, h1⟩ := hexec s ta _ left hleft h
        (Or.inr ⟨_, _, rfl, by decide⟩) (by omega)
      have hlen1 := (sound n).2.2.2.length_le hok
      obtain ⟨hp, w, s2, hget, h2, hlen2⟩ := peek_single h1 (by decide)
      obtain ⟨cmd2, s3, hok2, hmap2, h3⟩ := hpipe s2 tb ts2 right hright h2 hfollow (by omega)
      rw [hok]
      dsimp only
      rw [peek_snd, hp, hget, if_pos rfl]
      dsimp only
      rw [hok2]
      exact ⟨.pipe cmd cmd2, s3, rfl, by rw [Cmd.map, hmap, hmap2], h3⟩

/-- A pipe and the `&`s behind it. -/
theorem complete_backs (hpipe : Complete parsepipe Pipe [')'.toUInt8, '&'.toUInt8, ';'.toUInt8] 3 n)
    {t : Cmd Text} {k : Nat} (ht : Pipe ts1 t)
    (h : Renders (ts1 ++ (List.replicate k (.sym '&'.toUInt8) ++ ts2)) s)
    (hfollow : Follow [')'.toUInt8, ';'.toUInt8] ts2) (hn : 4 * s.length + 3 ≤ n) :
    ∃ cmd s1 s2, parsepipe n s = .ok (cmd, s1) ∧
      parseamps (s1.length + 1) cmd s1 = .ok (backs k cmd, s2) ∧
      (backs k cmd).map Span.text = backs k t ∧ Renders ts2 s2 ∧ s2.length ≤ s.length := by
  have hnext : Follow [')'.toUInt8, '&'.toUInt8, ';'.toUInt8]
      (List.replicate k (.sym '&'.toUInt8) ++ ts2) := by
    cases k with
    | zero => exact hfollow.mono (checked rfl)
    | succ k => exact Or.inr ⟨_, _, rfl, by decide⟩
  obtain ⟨cmd, s1, hok, hmap, h1⟩ := hpipe s ts1 _ t ht h hnext hn
  obtain ⟨s2, hamps, h2⟩ := parseamps_complete cmd h1
    (hfollow.first_ne (by decide) (checked rfl) _ (List.mem_singleton_self '&'.toUInt8))
    (Nat.lt_succ_self _)
  obtain ⟨-, -, -, -, -, hsuffix⟩ := parseamps_sound h1 hamps
  refine ⟨cmd, s1, s2, hok, hamps, by rw [map_backs, hmap], h2, ?_⟩
  exact Nat.le_trans hsuffix.length_le ((sound n).2.1.length_le hok)

theorem complete_line (hpipe : Complete parsepipe Pipe [')'.toUInt8, '&'.toUInt8, ';'.toUInt8] 3 n)
    (hline : Complete parseline Line [')'.toUInt8] 4 n) :
    Complete parseline Line [')'.toUInt8] 4 (n + 1) := by
  intro s ts1 ts2 t ht h hfollow hn
  rw [parseline]
  cases ht with
  | @one ta cmd k hg =>
      rw [List.append_assoc] at h
      obtain ⟨cmd, s1, s2, hok, hamps, hmap, h2, -⟩ :=
        complete_backs hpipe hg h (hfollow.mono (checked rfl)) (by omega)
      have hp : (peek s2 [';'.toUInt8]).1 = false :=
        peek_false h2 (checked rfl) (hfollow.first_ne (by decide) (checked rfl))
      rw [hok]
      dsimp only
      rw [hamps]
      dsimp only
      rw [peek_snd, hp]
      exact ⟨_, skip s2, rfl, hmap, renders_skip.mpr h2⟩
  | @more ta tb left right k hleft hright =>
      rw [List.append_assoc, List.append_assoc, List.cons_append] at h
      obtain ⟨cmd, s1, s2, hok, hamps, hmap, h2, hlen2⟩ :=
        complete_backs hpipe hleft h (Or.inr ⟨_, _, rfl, by decide⟩) (by omega)
      obtain ⟨hp, w, s3, hget, h3, hlen3⟩ := peek_single h2 (by decide)
      obtain ⟨cmd2, s4, hok2, hmap2, h4⟩ := hline s3 tb ts2 right hright h3 hfollow (by omega)
      rw [hok]
      dsimp only
      rw [hamps]
      dsimp only
      rw [peek_snd, hp, hget, if_pos rfl]
      dsimp only
      rw [hok2]
      exact ⟨.list (backs k cmd) cmd2, s4, rfl, by rw [Cmd.map, hmap, hmap2], h4⟩

theorem complete (n : Nat) : Complete parseline Line [')'.toUInt8] 4 n ∧
    Complete parsepipe Pipe [')'.toUInt8, '&'.toUInt8, ';'.toUInt8] 3 n ∧ CompleteBlock n ∧
    Complete parseexec Exec enders 2 n := by
  induction n with
  | zero =>
      refine ⟨fun s _ _ _ _ _ _ hn => ?_, fun s _ _ _ _ _ _ hn => ?_,
        fun s _ _ _ _ _ _ _ _ _ hn => ?_, fun s _ _ _ _ _ _ hn => ?_⟩
      all_goals exact absurd hn (by omega)
  | succ n ih =>
      obtain ⟨hline, hpipe, hblock, hexec⟩ := ih
      exact ⟨complete_line hpipe hline, complete_pipe hexec hpipe, complete_block hline,
        complete_exec hblock⟩

end Os377.Xv6.Sh
