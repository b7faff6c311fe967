import Os377.Xv6.ShTokens

/-!
# What the xv6 shell parses is in the grammar

Whatever a function of the parser returns without a panic is a tree that the grammar gives
to the tokens it has read (`sound`), with pointers to the words of the line; and the bound
that `parsecmd` starts with is large enough (`enough`).
-/

namespace Os377.Xv6.Sh

open Os377.Lib

variable {s s' : Text} {ts ts' : List Tok} {n : Nat} {cmd cmd' : Cmd Span} {c : UInt8}

/-! ## Redirections and backgrounds -/

/-- A redirection with its word instead of the pointers to it. -/
def named (r : UInt8 × Span) : UInt8 × Text := (r.1, r.2.text)

theorem map_redirect (cmd : Cmd Span) (r : UInt8 × Span) :
    (redirect cmd r).map Span.text = redirect (cmd.map Span.text) (named r) := by
  unfold redirect named
  split <;> rfl

theorem map_wrap (rs : List (UInt8 × Span)) (cmd : Cmd Span) :
    (wrap rs cmd).map Span.text = wrap (rs.map named) (cmd.map Span.text) := by
  induction rs generalizing cmd with
  | nil => rfl
  | cons r rs ih =>
      show (wrap rs (redirect cmd r)).map Span.text = _
      rw [ih, map_redirect]
      rfl

theorem words_redirect (cmd : Cmd Span) (r : UInt8 × Span) :
    (redirect cmd r).words = r.2 :: cmd.words := by
  unfold redirect
  split <;> rfl

theorem mem_words_wrap {rs : List (UInt8 × Span)} {w : Span} :
    w ∈ (wrap rs cmd).words ↔ w ∈ cmd.words ∨ ∃ r ∈ rs, r.2 = w := by
  induction rs generalizing cmd with
  | nil => simp [wrap]
  | cons r rs ih =>
      show w ∈ (wrap rs (redirect cmd r)).words ↔ _
      rw [ih, words_redirect, List.mem_cons]
      simp only [List.mem_cons, exists_eq_or_imp, eq_comm (a := w)]
      tauto

theorem fill_wrap (argv old : List Span) (rs : List (UInt8 × Span)) :
    fill argv (wrap rs (.exec old)) = wrap rs (.exec argv) := by
  have hpast : ∀ (rs : List (UInt8 × Span)) (cmd : Cmd Span),
      fill argv (wrap rs cmd) = wrap rs (fill argv cmd) := by
    intro rs
    induction rs with
    | nil => exact fun _ => rfl
    | cons r rs ih =>
        intro cmd
        show fill argv (wrap rs (redirect cmd r)) = wrap rs (redirect (fill argv cmd) r)
        rw [ih]
        congr 1
        unfold redirect
        split <;> rfl
  exact hpast rs (.exec old)

theorem wrap_append {W : Type} (rs rs' : List (UInt8 × W)) (cmd : Cmd W) :
    wrap (rs ++ rs') cmd = wrap rs' (wrap rs cmd) := List.foldl_append

theorem backs_back {W : Type} (n : Nat) (cmd : Cmd W) :
    backs n (.back cmd) = backs (n + 1) cmd := by
  induction n with
  | zero => rfl
  | succ n ih => exact congrArg Cmd.back ih

theorem map_backs (n : Nat) (cmd : Cmd Span) :
    (backs n cmd).map Span.text = backs n (cmd.map Span.text) := by
  induction n with
  | zero => rfl
  | succ n ih => exact congrArg Cmd.back ih

theorem words_backs (n : Nat) (cmd : Cmd Span) : (backs n cmd).words = cmd.words := by
  induction n with
  | zero => rfl
  | succ n ih => exact ih

theorem Simple.append {ws ws' : List Text} {rs rs' : List (UInt8 × Text)} (h : Simple ts ws rs)
    (h' : Simple ts' ws' rs') : Simple (ts ++ ts') (ws ++ ws') (rs ++ rs') := by
  induction h with
  | nil => exact h'
  | word _ ih => exact .word ih
  | redir hc _ ih => exact .redir hc ih

/-! ## Tokens that have been looked at -/

theorem sym_codes (h : Renders (.sym c :: ts) s) :
    c ∈ singles ∨ c = '>'.toUInt8 ∨ c = '+'.toUInt8 := by
  cases h with
  | single _ hc _ => exact Or.inl hc
  | gt _ _ _ => exact Or.inr (Or.inl rfl)
  | gtgt _ _ => exact Or.inr (Or.inr rfl)

/-- After a successful `peek`, `gettoken` takes a symbol. -/
theorem take_sym {toks : Text} (h : Renders ts s) (htoks : ∀ c ∈ toks, c ∈ symbols)
    (hp : (peek s toks).1 = true) : ∃ c ts' w s', ts = .sym c :: ts' ∧
      (if c = '+'.toUInt8 then '>'.toUInt8 else c) ∈ toks ∧ gettoken (skip s) = (c, w, s') ∧
      Renders ts' s' ∧ s' <:+ s ∧ s'.length < s.length := by
  obtain ⟨d, hd, hfirst⟩ := (peek_iff h htoks).mp hp
  match ts, h, hfirst with
  | .sym c :: ts', h, hfirst =>
      obtain ⟨w, s', hget, ht, hsuffix, hlen, -⟩ := gettoken_cons (renders_skip.mpr h)
      have hskip := skip_suffix s
      refine ⟨c, ts', w, s', rfl, ?_, hget, ht, hsuffix.trans hskip, ?_⟩
      · rw [first] at hfirst
        rw [Option.some.inj hfirst]
        exact hd
      · exact Nat.lt_of_lt_of_le hlen hskip.length_le

/-- A token of kind `'a'` is a word. -/
theorem take_word (h : Renders ts s) (hk : (gettoken s).1 = 'a'.toUInt8) : ∃ w ts',
    ts = .word w.text :: ts' ∧ Points s w ∧ (gettoken s).2.1 = w ∧ Renders ts' (gettoken s).2.2 ∧
      (gettoken s).2.2 <:+ s ∧ (gettoken s).2.2.length < s.length := by
  cases ts with
  | nil =>
      rw [gettoken_nil h] at hk
      exact absurd hk (by decide)
  | cons t ts' =>
      obtain ⟨w, s', hget, ht, hsuffix, hlen, hword⟩ := gettoken_cons h
      rw [hget] at hk ⊢
      cases t with
      | word text =>
          obtain ⟨hpoints, rfl⟩ := hword text rfl
          exact ⟨w, ts', rfl, hpoints, rfl, ht, hsuffix, hlen⟩
      | sym c =>
          change c = 'a'.toUInt8 at hk
          subst hk
          exact absurd (sym_codes h) (by decide)

theorem arrows_of_first (h : (if c = '+'.toUInt8 then '>'.toUInt8 else c) ∈
    ['<'.toUInt8, '>'.toUInt8]) : c ∈ arrows := by
  unfold arrows
  split at h
  · next hc => simp [hc]
  · simp only [List.mem_cons, List.not_mem_nil, or_false] at h ⊢
    tauto

/-! ## Soundness -/

/-- `parseredirs` has read redirections. -/
theorem parseredirs_sound (h : Renders ts s) (hok : parseredirs n cmd s = .ok (cmd', s')) :
    ∃ rs ts1 ts2, cmd' = wrap rs cmd ∧ ts = ts1 ++ ts2 ∧ Simple ts1 [] (rs.map named) ∧
      Renders ts2 s' ∧ s' <:+ s ∧ ∀ r ∈ rs, Points s r.2 := by
  induction n generalizing cmd s ts with
  | zero => cases hok
  | succ n ih =>
      rw [parseredirs] at hok
      dsimp only at hok
      rw [peek_snd] at hok
      split at hok
      · next hmore =>
          obtain ⟨c, ts', w, s1, rfl, hc, hget, h1, hsuffix1, -⟩ := take_sym h (checked rfl) hmore
          rw [hget] at hok
          dsimp only at hok
          split at hok
          · cases hok
          · next hkind =>
              obtain ⟨v, ts'', rfl, hpoints, hv, h2, hsuffix2, -⟩ :=
                take_word h1 (not_not.mp hkind)
              rw [hv] at hok
              obtain ⟨rs, ts1, ts2, rfl, rfl, hsimple, ht, hsuffix, hall⟩ := ih h2 hok
              refine ⟨(c, v) :: rs, .sym c :: .word v.text :: ts1, ts2, rfl, rfl, ?_, ht,
                (hsuffix.trans hsuffix2).trans hsuffix1, fun r hr => ?_⟩
              · exact .redir (arrows_of_first hc) hsimple
              · rcases List.mem_cons.mp hr with rfl | hr
                · exact hpoints.mono hsuffix1
                · exact (hall r hr).mono (hsuffix2.trans hsuffix1)
      · cases hok
        exact ⟨[], [], ts, rfl, rfl, .nil, renders_skip.mpr h, skip_suffix s,
          fun r hr => absurd hr List.not_mem_nil⟩

/-- The loop of `parseexec` has read words and redirections. -/
theorem parseargs_sound {argv : List Span} {rs : List (UInt8 × Span)} (h : Renders ts s)
    (hargv : argv.length < maxArgs)
    (hok : parseargs n argv (wrap rs (.exec [])) s = .ok (cmd', s')) :
    ∃ ws rs' ts1 ts2, cmd' = wrap (rs ++ rs') (.exec (argv ++ ws)) ∧ ts = ts1 ++ ts2 ∧
      Simple ts1 (ws.map Span.text) (rs'.map named) ∧ Renders ts2 s' ∧ s' <:+ s ∧
      (argv ++ ws).length < maxArgs ∧ (∀ w ∈ ws, Points s w) ∧ ∀ r ∈ rs', Points s r.2 := by
  induction n generalizing argv rs s ts with
  | zero => cases hok
  | succ n ih =>
      have hdone : ∀ s', s' <:+ s → Renders ts s' → ∃ ws rs' ts1 ts2,
          fill argv (wrap rs (.exec [])) = wrap (rs ++ rs') (.exec (argv ++ ws)) ∧
          ts = ts1 ++ ts2 ∧ Simple ts1 (ws.map Span.text) (rs'.map named) ∧ Renders ts2 s' ∧
          s' <:+ s ∧ (argv ++ ws).length < maxArgs ∧ (∀ w ∈ ws, Points s w) ∧
          ∀ r ∈ rs', Points s r.2 := by
        intro s' hsuffix ht
        refine ⟨[], [], [], ts, ?_, rfl, .nil, ht, hsuffix, ?_, ?_, ?_⟩
        · rw [fill_wrap, List.append_nil, List.append_nil]
        · rwa [List.append_nil]
        · exact fun w hw => absurd hw List.not_mem_nil
        · exact fun r hr => absurd hr List.not_mem_nil
      rw [parseargs] at hok
      dsimp only at hok
      rw [peek_snd] at hok
      have hskip := renders_skip.mpr h
      split at hok
      · cases hok
        exact hdone _ (skip_suffix s) hskip
      · split at hok
        · next hzero =>
            cases ts with
            | nil =>
                rw [gettoken_nil hskip] at hok
                cases hok
                exact hdone [] (List.nil_suffix) (.nil rfl)
            | cons t ts' =>
                obtain ⟨w, s1, hget, -, -, -, -⟩ := gettoken_cons hskip
                rw [hget] at hzero
                cases t with
                | word text =>
                    change 'a'.toUInt8 = 0 at hzero
                    exact absurd hzero (by decide)
                | sym c =>
                    change c = 0 at hzero
                    subst hzero
                    exact absurd (sym_codes h) (by decide)
        · split at hok
          · cases hok
          · next hkind =>
              split at hok
              · cases hok
              · next hfew =>
                  obtain ⟨w, ts', rfl, hpoints, hw, h1, hsuffix1, -⟩ :=
                    take_word hskip (not_not.mp hkind)
                  have hsuffix1 := hsuffix1.trans (skip_suffix s)
                  rw [hw] at hok
                  split at hok
                  · cases hok
                  · next ret s2 hredirs =>
                      obtain ⟨rs1, ts1, ts2, rfl, rfl, hsimple1, h2, hsuffix2, hall1⟩ :=
                        parseredirs_sound h1 hredirs
                      rw [← wrap_append] at hok
                      obtain ⟨ws, rs', ts3, ts4, rfl, rfl, hsimple, ht, hsuffix, hlt, hws, hrs⟩ :=
                        ih h2 (by rw [List.length_append]; exact Nat.not_le.mp hfew) hok
                      have hsuffix2 := hsuffix2.trans hsuffix1
                      refine ⟨w :: ws, rs1 ++ rs', .word w.text :: (ts1 ++ ts3), ts4, ?_, ?_, ?_,
                        ht, hsuffix.trans hsuffix2, ?_, fun v hv => ?_, fun r hr => ?_⟩
                      · rw [List.append_assoc, List.append_assoc]
                        rfl
                      · rw [List.cons_append, List.append_assoc]
                      · rw [List.map_append]
                        exact .word (Simple.append hsimple1 hsimple)
                      · rwa [List.append_assoc] at hlt
                      · rcases List.mem_cons.mp hv with rfl | hv
                        · exact hpoints.mono (skip_suffix s)
                        · exact (hws v hv).mono hsuffix2
                      · rcases List.mem_append.mp hr with hr | hr
                        · exact (hall1 r hr).mono hsuffix1
                        · exact (hrs r hr).mono hsuffix2

theorem parseamps_sound (h : Renders ts s) (hok : parseamps n cmd s = .ok (cmd', s')) :
    ∃ k ts2, cmd' = backs k cmd ∧ ts = List.replicate k (.sym '&'.toUInt8) ++ ts2 ∧
      Renders ts2 s' ∧ s' <:+ s := by
  induction n generalizing cmd s ts with
  | zero => cases hok
  | succ n ih =>
      rw [parseamps] at hok
      dsimp only at hok
      rw [peek_snd] at hok
      split at hok
      · next hmore =>
          obtain ⟨c, ts', w, s1, rfl, hc, hget, h1, hsuffix1, -⟩ := take_sym h (checked rfl) hmore
          rw [hget] at hok
          obtain ⟨k, ts2, rfl, rfl, ht, hsuffix⟩ := ih h1 hok
          have hamp : c = '&'.toUInt8 := by
            split at hc
            · exact absurd hc (by decide)
            · exact List.mem_singleton.mp hc
          exact ⟨k + 1, ts2, backs_back k cmd, by rw [hamp]; rfl, ht, hsuffix.trans hsuffix1⟩
      · cases hok
        exact ⟨0, ts, rfl, rfl, renders_skip.mpr h, skip_suffix s⟩

/-- A single symbol that has been looked for. -/
theorem take_single {d : UInt8} (h : Renders ts s) (hd : d ∈ singles)
    (hp : (peek s [d]).1 = true) : ∃ ts' w s', ts = .sym d :: ts' ∧
      gettoken (skip s) = (d, w, s') ∧ Renders ts' s' ∧ s' <:+ s ∧ s'.length < s.length := by
  have hsub : ∀ c ∈ [d], c ∈ symbols := fun c hc => by
    rw [List.mem_singleton.mp hc]
    exact singles_sub hd
  obtain ⟨c, ts', w, s', rfl, hc, hget, ht, hsuffix, hlen⟩ := take_sym h hsub hp
  have hcd : c = d := by
    split at hc
    · have hgt := List.mem_singleton.mp hc
      exact absurd (hgt ▸ hd) (by decide)
    · exact List.mem_singleton.mp hc
  subst hcd
  exact ⟨ts', w, s', rfl, hget, ht, hsuffix, hlen⟩

/-- What `parse` has read is in the grammar `G`, and the pointers are to words of the line. -/
def Sound (parse : Text → Except Stop (Cmd Span × Text)) (G : List Tok → Cmd Text → Prop) : Prop :=
  ∀ s ts cmd s', Renders ts s → parse s = .ok (cmd, s') →
    ∃ ts1 ts2, ts = ts1 ++ ts2 ∧ G ts1 (cmd.map Span.text) ∧ Renders ts2 s' ∧ s' <:+ s ∧
      ∀ w ∈ cmd.words, Points s w

theorem parseline_sound (hline : Sound (parseline n) Line) (hpipe : Sound (parsepipe n) Pipe) :
    Sound (parseline (n + 1)) Line := by
  intro s ts cmd s' hts h
  rw [parseline] at h
  split at h
  · cases h
  · next left s1 hleft =>
      obtain ⟨ts1, ts2, rfl, hg1, h1, hsuffix1, hp1⟩ := hpipe s ts left s1 hts hleft
      split at h
      · cases h
      · next left' s2 hamps =>
          obtain ⟨k, ts3, rfl, rfl, h2, hsuffix2⟩ := parseamps_sound h1 hamps
          have hsuffix2 := hsuffix2.trans hsuffix1
          dsimp only at h
          rw [peek_snd] at h
          split at h
          · next hmore =>
              obtain ⟨ts4, w, s3, rfl, hget, h3, hsuffix3, -⟩ := take_single h2 (by decide) hmore
              have hsuffix3 := hsuffix3.trans hsuffix2
              rw [hget] at h
              split at h
              · cases h
              · next right s4 hright =>
                  cases h
                  obtain ⟨ts5, ts6, rfl, hg2, h4, hsuffix4, hp2⟩ := hline s3 ts4 right _ h3 hright
                  refine ⟨ts1 ++ (List.replicate k (.sym '&'.toUInt8) ++ .sym ';'.toUInt8 :: ts5),
                    ts6, ?_, ?_, h4, hsuffix4.trans hsuffix3, fun v hv => ?_⟩
                  · simp only [List.append_assoc, List.cons_append]
                  · rw [Cmd.map, map_backs]
                    exact .more k hg1 hg2
                  · rcases List.mem_append.mp hv with hv | hv
                    · exact hp1 v (words_backs k left ▸ hv)
                    · exact (hp2 v hv).mono hsuffix3
          · cases h
            refine ⟨ts1 ++ List.replicate k (.sym '&'.toUInt8), ts3, ?_, ?_, renders_skip.mpr h2,
              (skip_suffix s2).trans hsuffix2, fun v hv => hp1 v (words_backs k left ▸ hv)⟩
            · rw [List.append_assoc]
            · rw [map_backs]
              exact .one k hg1

theorem parsepipe_sound (hpipe : Sound (parsepipe n) Pipe) (hexec : Sound (parseexec n) Exec) :
    Sound (parsepipe (n + 1)) Pipe := by
  intro s ts cmd s' hts h
  rw [parsepipe] at h
  split at h
  · cases h
  · next left s1 hleft =>
      obtain ⟨ts1, ts2, rfl, hg1, h1, hsuffix1, hp1⟩ := hexec s ts left s1 hts hleft
      dsimp only at h
      rw [peek_snd] at h
      split at h
      · next hmore =>
          obtain ⟨ts3, w, s2, rfl, hget, h2, hsuffix2, -⟩ := take_single h1 (by decide) hmore
          have hsuffix2 := hsuffix2.trans hsuffix1
          rw [hget] at h
          split at h
          · cases h
          · next right s3 hright =>
              cases h
              obtain ⟨ts4, ts5, rfl, hg2, h3, hsuffix3, hp2⟩ := hpipe s2 ts3 right _ h2 hright
              refine ⟨_, ts5, ?_, .more hg1 hg2, h3, hsuffix3.trans hsuffix2, fun v hv => ?_⟩
              · simp only [List.append_assoc, List.cons_append]
              · rcases List.mem_append.mp hv with hv | hv
                · exact hp1 v hv
                · exact (hp2 v hv).mono hsuffix2
      · cases h
        exact ⟨ts1, ts2, rfl, .one hg1, renders_skip.mpr h1, (skip_suffix s1).trans hsuffix1, hp1⟩

theorem parseblock_sound (hline : Sound (parseline n) Line) : Sound (parseblock (n + 1)) Exec := by
  intro s ts cmd s' hts h
  rw [parseblock] at h
  dsimp only at h
  rw [peek_snd] at h
  split at h
  · next hhere =>
      obtain ⟨ts1, w, s1, rfl, hget, h1, hsuffix1, -⟩ := take_single hts (by decide) hhere
      rw [hget] at h
      split at h
      · cases h
      · next inner s2 hinner =>
          obtain ⟨ts2, ts3, rfl, hg, h2, hsuffix2, hp⟩ := hline s1 ts1 inner s2 h1 hinner
          have hsuffix2 := hsuffix2.trans hsuffix1
          rw [peek_snd] at h
          split at h
          · next hclosed =>
              obtain ⟨ts4, w, s3, rfl, hget, h3, hsuffix3, -⟩ := take_single h2 (by decide) hclosed
              have hsuffix3 := hsuffix3.trans hsuffix2
              rw [hget] at h
              obtain ⟨rs, ts5, ts6, rfl, rfl, hsimple, h4, hsuffix4, hall⟩ :=
                parseredirs_sound h3 h
              refine ⟨.sym '('.toUInt8 :: (ts2 ++ .sym ')'.toUInt8 :: ts5), ts6, ?_, ?_, h4,
                hsuffix4.trans hsuffix3, fun v hv => ?_⟩
              · simp only [List.append_assoc, List.cons_append]
              · rw [map_wrap]
                exact .block hg hsimple
              · rcases mem_words_wrap.mp hv with hv | ⟨r, hr, rfl⟩
                · exact (hp v hv).mono hsuffix1
                · exact (hall r hr).mono hsuffix3
          · cases h
  · cases h

theorem parseexec_sound (hblock : Sound (parseblock n) Exec) : Sound (parseexec (n + 1)) Exec := by
  intro s ts cmd s' hts h
  have hskip := renders_skip.mpr hts
  rw [parseexec] at h
  dsimp only at h
  rw [peek_snd] at h
  split at h
  · obtain ⟨ts1, ts2, heq, hg, ht, hsuffix, hp⟩ := hblock (skip s) ts cmd s' hskip h
    exact ⟨ts1, ts2, heq, hg, ht, hsuffix.trans (skip_suffix s),
      fun v hv => (hp v hv).mono (skip_suffix s)⟩
  · split at h
    · cases h
    · next ret s1 hredirs =>
        obtain ⟨rs, ts1, ts2, rfl, rfl, hsimple1, h1, hsuffix1, hall1⟩ :=
          parseredirs_sound hskip hredirs
        have hsuffix1 := hsuffix1.trans (skip_suffix s)
        obtain ⟨ws, rs', ts3, ts4, rfl, rfl, hsimple, ht, hsuffix, hfew, hws, hrs⟩ :=
          parseargs_sound h1 (by decide : ([] : List Span).length < maxArgs) h
        rw [List.nil_append] at hfew
        refine ⟨ts1 ++ ts3, ts4, (List.append_assoc ..).symm, ?_, ht, hsuffix.trans hsuffix1,
          fun v hv => ?_⟩
        · rw [map_wrap, List.map_append]
          refine .simple (Simple.append hsimple1 hsimple) ?_
          rwa [List.nil_append, List.length_map]
        · rcases mem_words_wrap.mp hv with hv | ⟨r, hr, rfl⟩
          · exact (hws v hv).mono hsuffix1
          · rcases List.mem_append.mp hr with hr | hr
            · exact (hall1 r hr).mono (skip_suffix s)
            · exact (hrs r hr).mono hsuffix1

theorem sound (n : Nat) : Sound (parseline n) Line ∧ Sound (parsepipe n) Pipe ∧
    Sound (parseblock n) Exec ∧ Sound (parseexec n) Exec := by
  induction n with
  | zero =>
      refine ⟨fun s ts cmd s' _ h => ?_, fun s ts cmd s' _ h => ?_, fun s ts cmd s' _ h => ?_,
        fun s ts cmd s' _ h => ?_⟩
      · rw [parseline] at h; cases h
      · rw [parsepipe] at h; cases h
      · rw [parseblock] at h; cases h
      · rw [parseexec] at h; cases h
  | succ n ih =>
      obtain ⟨hline, hpipe, hblock, hexec⟩ := ih
      exact ⟨parseline_sound hline hpipe, parsepipe_sound hpipe hexec, parseblock_sound hline,
        parseexec_sound hblock⟩

/-- A function of the parser leaves a later part of the line. -/
theorem Sound.length_le {parse : Text → Except Stop (Cmd Span × Text)}
    {G : List Tok → Cmd Text → Prop} (h : Sound parse G) (hok : parse s = .ok (cmd, s')) :
    s'.length ≤ s.length := by
  obtain ⟨ts, hts⟩ := exists_renders s
  obtain ⟨-, -, -, -, -, hsuffix, -⟩ := h s ts cmd s' hts hok
  exact hsuffix.length_le

/-! ## The bound -/

theorem parseredirs_enough (hn : s.length < n) : parseredirs n cmd s ≠ .error .outOfFuel := by
  induction n generalizing cmd s with
  | zero => exact absurd hn (Nat.not_lt_zero _)
  | succ n ih =>
      intro h
      obtain ⟨ts, hts⟩ := exists_renders s
      rw [parseredirs] at h
      dsimp only at h
      rw [peek_snd] at h
      split at h
      · next hmore =>
          obtain ⟨c, ts', w, s1, rfl, -, hget, h1, -, hlen1⟩ := take_sym hts (checked rfl) hmore
          rw [hget] at h
          dsimp only at h
          split at h
          · cases h
          · next hkind =>
              obtain ⟨-, -, -, -, -, -, -, hlen2⟩ := take_word h1 (not_not.mp hkind)
              have hlt : (gettoken s1).2.2.length < n := by omega
              exact ih hlt h
      · cases h

theorem parseamps_enough (hn : s.length < n) : parseamps n cmd s ≠ .error .outOfFuel := by
  induction n generalizing cmd s with
  | zero => exact absurd hn (Nat.not_lt_zero _)
  | succ n ih =>
      intro h
      obtain ⟨ts, hts⟩ := exists_renders s
      rw [parseamps] at h
      dsimp only at h
      rw [peek_snd] at h
      split at h
      · next hmore =>
          obtain ⟨ts', w, s1, rfl, hget, h1, -, hlen1⟩ := take_single hts (by decide) hmore
          rw [hget] at h
          have hlt : s1.length < n := by omega
          exact ih hlt h
      · cases h

theorem parseargs_enough {argv : List Span} (hn : s.length < n) :
    parseargs n argv cmd s ≠ .error .outOfFuel := by
  induction n generalizing argv cmd s with
  | zero => exact absurd hn (Nat.not_lt_zero _)
  | succ n ih =>
      intro h
      obtain ⟨ts, hts⟩ := exists_renders s
      rw [parseargs] at h
      dsimp only at h
      rw [peek_snd] at h
      have hskip := (skip_suffix s).length_le
      split at h
      · cases h
      · split at h
        · cases h
        · split at h
          · cases h
          · next hkind =>
              obtain ⟨w, ts', rfl, -, hw, h1, -, hlen1⟩ :=
                take_word (renders_skip.mpr hts) (not_not.mp hkind)
              split at h
              · cases h
              · split at h
                · next hredirs =>
                    cases h
                    exact parseredirs_enough (Nat.lt_succ_self _) hredirs
                · next ret s2 hredirs =>
                    obtain ⟨-, -, -, -, -, -, -, hsuffix, -⟩ := parseredirs_sound h1 hredirs
                    have hlen2 := hsuffix.length_le
                    exact ih (by omega) h

/-- A bound of four for every byte, and `k`, is enough. -/
def Enough (parse : Nat → Text → Except Stop (Cmd Span × Text)) (k n : Nat) : Prop :=
  ∀ s, 4 * s.length + k ≤ n → parse n s ≠ .error .outOfFuel

theorem enough (n : Nat) : Enough parseline 4 n ∧ Enough parsepipe 3 n ∧ Enough parseblock 1 n ∧
    Enough parseexec 2 n := by
  induction n with
  | zero => exact ⟨fun s hn => by omega, fun s hn => by omega, fun s hn => by omega,
      fun s hn => by omega⟩
  | succ n ih =>
      obtain ⟨hline, hpipe, hblock, hexec⟩ := ih
      obtain ⟨lsound, psound, -, esound⟩ := sound n
      refine ⟨fun s hn h => ?_, fun s hn h => ?_, fun s hn h => ?_, fun s hn h => ?_⟩
      · rw [parseline] at h
        split at h
        · next hleft =>
            cases h
            exact hpipe s (by omega) hleft
        · next left s1 hleft =>
            have hlen1 := psound.length_le hleft
            obtain ⟨ts1, h1⟩ := exists_renders s1
            split at h
            · next hamps =>
                cases h
                exact parseamps_enough (Nat.lt_succ_self _) hamps
            · next left' s2 hamps =>
                obtain ⟨-, ts2, -, -, h2, hsuffix2⟩ := parseamps_sound h1 hamps
                have hlen2 := hsuffix2.length_le
                dsimp only at h
                rw [peek_snd] at h
                split at h
                · next hmore =>
                    obtain ⟨-, w, s3, -, hget, -, -, hlen3⟩ := take_single h2 (by decide) hmore
                    rw [hget] at h
                    split at h
                    · next hright =>
                        cases h
                        exact hline s3 (by omega) hright
                    · cases h
                · cases h
      · rw [parsepipe] at h
        split at h
        · next hleft =>
            cases h
            exact hexec s (by omega) hleft
        · next left s1 hleft =>
            have hlen1 := esound.length_le hleft
            obtain ⟨ts1, h1⟩ := exists_renders s1
            dsimp only at h
            rw [peek_snd] at h
            split at h
            · next hmore =>
                obtain ⟨-, w, s2, -, hget, -, -, hlen2⟩ := take_single h1 (by decide) hmore
                rw [hget] at h
                split at h
                · next hright =>
                    cases h
                    exact hpipe s2 (by omega) hright
                · cases h
            · cases h
      · rw [parseblock] at h
        dsimp only at h
        rw [peek_snd] at h
        obtain ⟨ts, hts⟩ := exists_renders s
        split at h
        · next hhere =>
            obtain ⟨-, w, s1, -, hget, -, -, hlen1⟩ := take_single hts (by decide) hhere
            rw [hget] at h
            split at h
            · next hinner =>
                cases h
                exact hline s1 (by omega) hinner
            · next inner s2 hinner =>
                rw [peek_snd] at h
                split at h
                · exact parseredirs_enough (Nat.lt_succ_self _) h
                · cases h
        · cases h
      · rw [parseexec] at h
        dsimp only at h
        rw [peek_snd] at h
        have hskip := (skip_suffix s).length_le
        split at h
        · exact hblock (skip s) (by omega) h
        · split at h
          · next hredirs =>
              cases h
              exact parseredirs_enough (Nat.lt_succ_self _) hredirs
          · exact parseargs_enough (Nat.lt_succ_self _) h

end Os377.Xv6.Sh
