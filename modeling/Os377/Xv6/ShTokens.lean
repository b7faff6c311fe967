import Os377.Xv6.ShParser

/-!
# The tokens of the xv6 shell

`gettoken` and `peek` read the tokens of a text one after the other (`gettoken_cons`,
`peek_eq`), every text has tokens (`exists_renders`), and the two pointers to a word have
the word between them (`Points`).
-/

namespace Os377.Xv6.Sh

open Os377.Lib

variable {s s' toks : Text} {ts : List Tok} {t : Tok} {c : UInt8} {w : Text}

/-- What holds of each of a few bytes. -/
theorem checked {l : Text} {p : UInt8 → Prop} [DecidablePred p]
    (h : (l.all fun c => decide (p c)) = true) : ∀ c ∈ l, p c :=
  fun c hc => of_decide_eq_true (List.all_eq_true.mp h c hc)

theorem skip_suffix (s : Text) : skip s <:+ s := List.dropWhile_suffix _

theorem head_of_skip {rest : Text} (h : skip s = c :: rest) : whitespace.contains c = false := by
  have hhead := List.head?_dropWhile_not (fun c => whitespace.contains c) s
  unfold skip at h
  rw [h] at hhead
  exact hhead

theorem skip_skip (s : Text) : skip (skip s) = skip s := by
  cases hs : skip s with
  | nil => rfl
  | cons c rest =>
      refine List.dropWhile_cons_of_neg ?_
      rw [head_of_skip hs]
      exact Bool.false_ne_true

theorem renders_skip : Renders ts (skip s) ↔ Renders ts s := by
  constructor
  · intro h
    cases h with
    | nil hs => exact .nil (skip_skip s ▸ hs)
    | word hs hne hw hend ht => exact .word (skip_skip s ▸ hs) hne hw hend ht
    | single hs hc ht => exact .single (skip_skip s ▸ hs) hc ht
    | gt hs hne ht => exact .gt (skip_skip s ▸ hs) hne ht
    | gtgt hs ht => exact .gtgt (skip_skip s ▸ hs) ht
  · intro h
    cases h with
    | nil hs => exact .nil ((skip_skip s).trans hs)
    | word hs hne hw hend ht => exact .word ((skip_skip s).trans hs) hne hw hend ht
    | single hs hc ht => exact .single ((skip_skip s).trans hs) hc ht
    | gt hs hne ht => exact .gt ((skip_skip s).trans hs) hne ht
    | gtgt hs ht => exact .gtgt ((skip_skip s).trans hs) ht

/-! ## Words -/

theorem dropWhile_plain (hw : ∀ c ∈ w, plain c = true) (hend : Ends s) :
    (w ++ s).dropWhile plain = s := by
  rw [List.dropWhile_append_of_pos hw]
  cases s with
  | nil => rfl
  | cons c rest => exact List.dropWhile_cons_of_neg (by simp [hend c rest rfl])

theorem ends_dropWhile (s : Text) : Ends (s.dropWhile plain) := by
  intro c rest h
  have hhead := List.head?_dropWhile_not plain s
  rw [h] at hhead
  exact hhead

theorem plain_takeWhile (s : Text) : ∀ c ∈ s.takeWhile plain, plain c = true :=
  fun _ hc => List.mem_takeWhile_imp hc

theorem not_symbol_of_plain (h : plain c = true) : c ∉ symbols ∧ whitespace.contains c = false := by
  unfold plain at h
  rw [Bool.and_eq_true, Bool.not_eq_true', Bool.not_eq_true'] at h
  refine ⟨fun hc => ?_, h.1⟩
  rw [List.contains_iff_mem.mpr hc] at h
  exact Bool.noConfusion h.2

/-- What is neither white space nor a symbol is a byte of a word. -/
theorem plain_of_not (hw : whitespace.contains c = false) (hs : c ∉ singles)
    (hgt : c ≠ '>'.toUInt8) : plain c = true := by
  unfold plain
  rw [hw, Bool.not_false, Bool.true_and, Bool.not_eq_true', Bool.eq_false_iff]
  intro hc
  rw [List.contains_iff_mem] at hc
  unfold symbols at hc
  unfold singles at hs
  simp only [List.mem_cons, List.not_mem_nil, or_false, not_or] at hc hs
  tauto

theorem singles_sub (h : c ∈ singles) : c ∈ symbols := by
  unfold singles at h
  unfold symbols
  simp only [List.mem_cons, List.not_mem_nil, or_false] at h ⊢
  tauto

/-- `w` points to a word in the line `s`, and behind it. -/
def Points (s : Text) (w : Span) : Prop :=
  ∃ text, w.q = text ++ w.eq ∧ text ≠ [] ∧ (∀ c ∈ text, plain c = true) ∧ Ends w.eq ∧ w.q <:+ s

/-- The word between the two pointers. -/
def Span.text (w : Span) : Text := w.q.take (w.q.length - w.eq.length)

theorem Span.text_eq {w : Span} {text : Text} (h : w.q = text ++ w.eq) : w.text = text := by
  rw [Span.text, h, List.length_append, Nat.add_sub_cancel, List.take_left]

theorem Points.mono {v : Span} (h : Points s' v) (hs : s' <:+ s) : Points s v := by
  obtain ⟨text, hq, hne, hplain, hend, hsuffix⟩ := h
  exact ⟨text, hq, hne, hplain, hend, hsuffix.trans hs⟩

/-! ## `gettoken` -/

def Tok.code : Tok → UInt8
  | .word _ => 'a'.toUInt8
  | .sym c => c

theorem gettoken_nil (h : Renders [] s) : gettoken s = (0, ⟨[], []⟩, []) := by
  cases h with
  | nil hs =>
      unfold gettoken
      rw [hs]

/-- The first token of a text. -/
theorem gettoken_cons (h : Renders (t :: ts) s) : ∃ w s', gettoken s = (t.code, w, s') ∧
    Renders ts s' ∧ s' <:+ s ∧ s'.length < s.length ∧
    ∀ text, t = .word text → Points s w ∧ w.text = text := by
  have hshort : ∀ {x : Text}, (∃ y, skip s = y ++ x ∧ y ≠ []) →
      skip x <:+ s ∧ (skip x).length < s.length := by
    rintro x ⟨y, hxy, hne⟩
    have hx : x <:+ s := (hxy ▸ List.suffix_append y x).trans (skip_suffix s)
    have hlen := (skip_suffix s).length_le
    have hskip := (skip_suffix x).length_le
    have hpos := List.length_pos_iff.mpr hne
    rw [hxy, List.length_append] at hlen
    exact ⟨(skip_suffix x).trans hx, by omega⟩
  unfold gettoken
  cases h with
  | @word _ w s' _ hs hne hw hend ht =>
      obtain ⟨c, rest, rfl⟩ := List.exists_cons_of_ne_nil hne
      have hc := hw c List.mem_cons_self
      obtain ⟨hsym, -⟩ := not_symbol_of_plain hc
      have hgt : c ≠ '>'.toUInt8 := by
        rintro rfl
        exact hsym (by decide)
      have hdrop : (c :: (rest ++ s')).dropWhile plain = s' := dropWhile_plain hw hend
      obtain ⟨h1, h2⟩ := hshort ⟨c :: rest, hs, hne⟩
      rw [hs]
      dsimp only [List.cons_append]
      rw [if_neg fun hc => hsym (singles_sub hc), if_neg hgt, hdrop]
      refine ⟨_, _, rfl, renders_skip.mpr ht, h1, h2, ?_⟩
      intro text htext
      cases htext
      refine ⟨⟨c :: rest, rfl, hne, hw, hend, ?_⟩, Span.text_eq rfl⟩
      show c :: (rest ++ s') <:+ s
      rw [← List.cons_append, ← hs]
      exact skip_suffix s
  | @single _ c s' _ hs hc ht =>
      obtain ⟨h1, h2⟩ := hshort ⟨[c], hs, List.cons_ne_nil _ _⟩
      rw [hs]
      dsimp only
      rw [if_pos hc]
      exact ⟨_, _, rfl, renders_skip.mpr ht, h1, h2, fun _ htext => by cases htext⟩
  | @gt _ s' _ hs hne ht =>
      obtain ⟨h1, h2⟩ := hshort ⟨['>'.toUInt8], hs, List.cons_ne_nil _ _⟩
      rw [hs]
      dsimp only
      rw [if_neg (by decide), if_pos rfl]
      cases s' with
      | nil => exact ⟨_, _, rfl, renders_skip.mpr ht, h1, h2, fun _ htext => by cases htext⟩
      | cons d rest =>
          dsimp only
          rw [if_neg fun hd => hne (congrArg some hd)]
          exact ⟨_, _, rfl, renders_skip.mpr ht, h1, h2, fun _ htext => by cases htext⟩
  | @gtgt _ s' _ hs ht =>
      obtain ⟨h1, h2⟩ := hshort ⟨['>'.toUInt8, '>'.toUInt8], hs, List.cons_ne_nil _ _⟩
      rw [hs]
      dsimp only
      rw [if_neg (by decide), if_pos rfl, if_pos rfl]
      exact ⟨_, _, rfl, renders_skip.mpr ht, h1, h2, fun _ htext => by cases htext⟩

/-! ## `peek` -/

/-- The byte that `peek` looks at, unless a word is next. -/
def first : List Tok → Option UInt8
  | .sym c :: _ => some (if c = '+'.toUInt8 then '>'.toUInt8 else c)
  | _ => none

theorem peek_snd : (peek s toks).2 = skip s := by
  unfold peek
  split
  · next h => exact h.symm
  · next h => exact h.symm

theorem peek_iff (h : Renders ts s) (htoks : ∀ c ∈ toks, c ∈ symbols) :
    (peek s toks).1 = true ↔ ∃ c ∈ toks, first ts = some c := by
  have hsingle : ∀ c ∈ singles, c ≠ '+'.toUInt8 := checked rfl
  unfold peek
  cases h with
  | nil hs =>
      rw [hs]
      exact iff_of_false Bool.false_ne_true fun ⟨_, _, hc⟩ => by cases hc
  | @word _ w s' _ hs hne hw _ _ =>
      obtain ⟨c, rest, rfl⟩ := List.exists_cons_of_ne_nil hne
      obtain ⟨hsym, -⟩ := not_symbol_of_plain (hw c List.mem_cons_self)
      rw [hs]
      refine iff_of_false (fun hc => ?_) fun ⟨_, _, hc⟩ => by cases hc
      exact hsym (htoks c (List.contains_iff_mem.mp hc))
  | @single _ c s' _ hs hc _ =>
      rw [hs, first, if_neg (hsingle c hc)]
      show toks.contains c = true ↔ _
      rw [List.contains_iff_mem]
      exact ⟨fun hmem => ⟨c, hmem, rfl⟩, fun ⟨d, hd, heq⟩ => Option.some.inj heq ▸ hd⟩
  | gt hs _ _ =>
      rw [hs, first, if_neg (by decide)]
      show toks.contains _ = true ↔ _
      rw [List.contains_iff_mem]
      exact ⟨fun hmem => ⟨_, hmem, rfl⟩, fun ⟨d, hd, heq⟩ => Option.some.inj heq ▸ hd⟩
  | gtgt hs _ =>
      rw [hs, first, if_pos rfl]
      show toks.contains _ = true ↔ _
      rw [List.contains_iff_mem]
      exact ⟨fun hmem => ⟨_, hmem, rfl⟩, fun ⟨d, hd, heq⟩ => Option.some.inj heq ▸ hd⟩

/-! ## Every text has tokens -/

theorem exists_renders (s : Text) : ∃ ts, Renders ts s := by
  induction hn : s.length using Nat.strong_induction_on generalizing s with
  | _ n ih =>
      have hlen := (skip_suffix s).length_le
      cases hs : skip s with
      | nil => exact ⟨[], .nil hs⟩
      | cons c rest =>
          rw [hs, List.length_cons] at hlen
          by_cases hc : c ∈ singles
          · obtain ⟨ts, ht⟩ := ih rest.length (by omega) rest rfl
            exact ⟨_, .single hs hc ht⟩
          by_cases hgt : c = '>'.toUInt8
          · subst hgt
            by_cases hnext : rest.head? = some '>'.toUInt8
            · obtain ⟨rest', rfl⟩ := List.head?_eq_some_iff.mp hnext
              rw [List.length_cons] at hlen
              obtain ⟨ts, ht⟩ := ih rest'.length (by omega) rest' rfl
              exact ⟨_, .gtgt hs ht⟩
            · obtain ⟨ts, ht⟩ := ih rest.length (by omega) rest rfl
              exact ⟨_, .gt hs hnext ht⟩
          · have hplain := plain_of_not (head_of_skip hs) hc hgt
            have hdrop := (List.dropWhile_suffix plain (l := rest)).length_le
            obtain ⟨ts, ht⟩ := ih (rest.dropWhile plain).length (by omega) _ rfl
            refine ⟨_, .word (w := c :: rest.takeWhile plain) ?_ (List.cons_ne_nil _ _) ?_
              (ends_dropWhile rest) ht⟩
            · rw [hs, List.cons_append, List.takeWhile_append_dropWhile]
            · intro d hd
              rcases List.mem_cons.mp hd with rfl | hd
              · exact hplain
              · exact plain_takeWhile rest d hd

end Os377.Xv6.Sh
