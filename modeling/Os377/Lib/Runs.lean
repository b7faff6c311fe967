import Mathlib.Data.List.TakeWhile

/-!
# The maximal runs of a text

`IsRun p s w`: `w` stands in `s`, all of its entries have `p`, and it cannot be made
longer on either side. `runs p s` lists the runs from the front, the way a reader finds
them that skips the separators and then takes what it can.

* `mem_runs_iff` — the list has the runs, and nothing else;
* `isRun_iff_within` — the runs of a stronger predicate are those within the runs of a
  weaker one.
-/

namespace Os377.Lib

universe u

variable {α : Type u}

/-- `w` is a run of `p` in `s` that goes on neither to the left nor to the right. -/
def IsRun (p : α → Bool) (s w : List α) : Prop :=
  w ≠ [] ∧ (∀ c ∈ w, p c = true) ∧ ∃ pre post, s = pre ++ w ++ post ∧
    (∀ c before, pre = before ++ [c] → p c = false) ∧
    ∀ c behind, post = c :: behind → p c = false

/-- The runs of `p`, from the front. -/
def runs (p : α → Bool) (s : List α) : List (List α) :=
  match _h : s.dropWhile (!p ·) with
  | [] => []
  | c :: rest => (c :: rest.takeWhile p) :: runs p (rest.dropWhile p)
termination_by s.length
decreasing_by
  have hskip := (List.dropWhile_sublist (!p ·) (l := s)).length_le
  have htake := (List.dropWhile_sublist p (l := rest)).length_le
  rw [_h, List.length_cons] at hskip
  omega

variable {p q : α → Bool} {s t w : List α} {c : α}

theorem runs_of_nil (h : s.dropWhile (!p ·) = []) : runs p s = [] := by
  rw [runs]
  split
  · rfl
  · next hcons => exact absurd (h.symm.trans hcons) (by simp)

theorem runs_of_cons {rest : List α} (h : s.dropWhile (!p ·) = c :: rest) :
    runs p s = (c :: rest.takeWhile p) :: runs p (rest.dropWhile p) := by
  rw [runs]
  split
  · next hnil => exact absurd (h.symm.trans hnil) (by simp)
  · next d rest' hcons =>
      obtain ⟨rfl, rfl⟩ := List.cons.inj (h.symm.trans hcons)
      rfl

/-- Where skipping stops, there is an entry of a run. -/
theorem head_of_dropWhile {rest : List α} (h : s.dropWhile (!p ·) = c :: rest) : p c = true := by
  have hhead := List.head?_dropWhile_not (!p ·) s
  rw [h] at hhead
  simpa using hhead

theorem runs_skip (hc : p c = false) : runs p (c :: s) = runs p s := by
  have hdrop : (c :: s).dropWhile (!p ·) = s.dropWhile (!p ·) :=
    List.dropWhile_cons_of_pos (by simp [hc])
  cases hs : s.dropWhile (!p ·) with
  | nil => rw [runs_of_nil hs, runs_of_nil (hdrop.trans hs)]
  | cons d rest => rw [runs_of_cons hs, runs_of_cons (hdrop.trans hs)]

theorem runs_nil : runs p [] = [] :=
  runs_of_nil rfl

theorem not_isRun_nil : ¬ IsRun p [] w := by
  rintro ⟨hne, -, pre, post, heq, -, -⟩
  have hlength := congrArg List.length heq
  rw [List.length_append, List.length_append, List.length_nil] at hlength
  have hpos := List.length_pos_iff.mpr hne
  omega

/-- A run is no longer than the text. -/
theorem IsRun.length_le (h : IsRun p s w) : w.length ≤ s.length := by
  obtain ⟨-, -, pre, post, rfl, -, -⟩ := h
  rw [List.length_append, List.length_append]
  omega

/-- A text without separators is one run. -/
theorem isRun_all (h : ∀ c ∈ s, p c = true) : IsRun p s w ↔ w = s ∧ w ≠ [] := by
  constructor
  · rintro ⟨hne, -, pre, post, rfl, hpre, hpost⟩
    have hpre' : pre = [] := by
      rcases List.eq_nil_or_concat pre with hnil | ⟨before, c, rfl⟩
      · exact hnil
      · have hc := h c (by simp)
        rw [hpre c before List.concat_eq_append] at hc
        cases hc
    have hpost' : post = [] := by
      cases post with
      | nil => rfl
      | cons c behind =>
          have hc := h c (by simp)
          rw [hpost c behind rfl] at hc
          cases hc
    subst hpre' hpost'
    exact ⟨by simp, hne⟩
  · rintro ⟨rfl, hne⟩
    exact ⟨hne, h, [], [], by simp, by simp, by simp⟩

/-- A run lies on one side of a separator. -/
theorem isRun_separator (hc : p c = false) :
    IsRun p (s ++ c :: t) w ↔ IsRun p s w ∨ IsRun p t w := by
  constructor
  · rintro ⟨hne, hall, pre, post, heq, hpre, hpost⟩
    have hnot : c ∉ w := fun hin => absurd (hall c hin) (by simp [hc])
    rw [List.append_assoc] at heq
    rcases List.append_eq_append_iff.mp heq with ⟨x, rfl, hx⟩ | ⟨x, rfl, hx⟩
    · cases x with
      | nil =>
          cases w with
          | nil => exact absurd rfl hne
          | cons d w =>
              rw [List.nil_append, List.cons_append] at hx
              exact absurd ((List.cons.inj hx).1 ▸ List.mem_cons_self) hnot
      | cons d x =>
          -- the run begins behind the separator
          rw [List.cons_append] at hx
          obtain ⟨rfl, rfl⟩ := List.cons.inj hx
          refine Or.inr ⟨hne, hall, x, post, (List.append_assoc ..).symm, fun e before he => ?_,
            hpost⟩
          exact hpre e (s ++ c :: before) (by rw [he, List.append_assoc, List.cons_append])
    · rcases List.append_eq_append_iff.mp hx with ⟨y, rfl, rfl⟩ | ⟨y, rfl, hy⟩
      · -- it ends before the separator
        refine Or.inl ⟨hne, hall, pre, y, (List.append_assoc ..).symm, hpre, fun e behind he => ?_⟩
        exact hpost e (behind ++ c :: t) (by rw [he, List.cons_append])
      · cases y with
        | nil =>
            rw [List.append_nil] at hne hall ⊢
            exact Or.inl ⟨hne, hall, pre, [], (List.append_nil _).symm, hpre, by simp⟩
        | cons d y =>
            rw [List.cons_append] at hy
            exact absurd (by rw [(List.cons.inj hy).1]; simp) hnot
  · rintro (⟨hne, hall, pre, post, rfl, hpre, hpost⟩ | ⟨hne, hall, pre, post, rfl, hpre, hpost⟩)
    · refine ⟨hne, hall, pre, post ++ c :: t, by simp, hpre, fun d behind hd => ?_⟩
      cases post with
      | nil => exact (List.cons.inj hd).1 ▸ hc
      | cons e post => exact hpost d post (congrArg (· :: post) (List.cons.inj hd).1)
    · refine ⟨hne, hall, s ++ c :: pre, post, by simp, fun d before hd => ?_, hpost⟩
      rcases List.eq_nil_or_concat pre with rfl | ⟨before', e, rfl⟩
      · obtain ⟨-, hlast⟩ := List.append_inj' hd rfl
        exact List.singleton_inj.mp hlast ▸ hc
      · have hwhole : (s ++ c :: before') ++ [e] = before ++ [d] := by
          rw [← hd, List.append_assoc, List.concat_eq_append, List.cons_append]
        obtain ⟨-, hlast⟩ := List.append_inj' hwhole rfl
        exact List.singleton_inj.mp hlast ▸ hpre e before' List.concat_eq_append

/-- The induction over the runs: separators are skipped, and a run ends the text or is
followed by one. -/
theorem runs_induct {motive : List α → Prop} (nil : motive [])
    (skip : ∀ c s, p c = false → motive s → motive (c :: s))
    (last : ∀ r : List α, r ≠ [] → (∀ c ∈ r, p c = true) → motive r)
    (next : ∀ (r : List α) c s, r ≠ [] → (∀ c ∈ r, p c = true) → p c = false → motive s →
      motive (r ++ c :: s)) (s : List α) : motive s := by
  induction hn : s.length using Nat.strongRecOn generalizing s with
  | ind n ih =>
      subst hn
      cases s with
      | nil => exact nil
      | cons c s =>
          cases hc : p c with
          | false => exact skip c s hc (ih _ (by simp) s rfl)
          | true =>
              have hall : ∀ d ∈ c :: s.takeWhile p, p d = true := by
                intro d hd
                rcases List.mem_cons.mp hd with rfl | hd
                · exact hc
                · exact List.mem_takeWhile_imp hd
              have hsplit : s.takeWhile p ++ s.dropWhile p = s := List.takeWhile_append_dropWhile
              cases hs : s.dropWhile p with
              | nil =>
                  rw [hs, List.append_nil] at hsplit
                  exact last _ (by simp) (hsplit ▸ hall)
              | cons d t =>
                  have hd : p d = false := by
                    have hhead := List.head?_dropWhile_not p s
                    rw [hs] at hhead
                    simpa using hhead
                  have hlt : t.length < (c :: s).length := by
                    have hle := (List.dropWhile_sublist p (l := s)).length_le
                    rw [hs, List.length_cons] at hle
                    rw [List.length_cons]
                    omega
                  rw [← hsplit, hs]
                  exact next _ d t (by simp) hall hd (ih _ hlt t rfl)

theorem runs_last (hne : s ≠ []) (h : ∀ c ∈ s, p c = true) : runs p s = [s] := by
  cases s with
  | nil => exact absurd rfl hne
  | cons c s =>
      have hc : p c = true := h c List.mem_cons_self
      have hs : ∀ d ∈ s, p d = true := fun d hd => h d (List.mem_cons_of_mem c hd)
      have hskip : (c :: s).dropWhile (!p ·) = c :: s :=
        List.dropWhile_cons_of_neg (by simp [hc])
      rw [runs_of_cons hskip, List.takeWhile_eq_self_iff.mpr hs, List.dropWhile_eq_nil_iff.mpr hs,
        runs_nil]

theorem runs_next {r : List α} (hne : r ≠ []) (h : ∀ c ∈ r, p c = true) (hc : p c = false) :
    runs p (r ++ c :: s) = r :: runs p s := by
  cases r with
  | nil => exact absurd rfl hne
  | cons d r =>
      have hd : p d = true := h d List.mem_cons_self
      have hr : ∀ e ∈ r, p e = true := fun e he => h e (List.mem_cons_of_mem d he)
      have hskip : (d :: r ++ c :: s).dropWhile (!p ·) = d :: (r ++ c :: s) :=
        List.dropWhile_cons_of_neg (by simp [hd])
      rw [runs_of_cons hskip, List.takeWhile_append_of_pos hr, List.dropWhile_append_of_pos hr,
        List.takeWhile_cons_of_neg (by simp [hc]), List.dropWhile_cons_of_neg (by simp [hc]),
        List.append_nil, runs_skip hc]

/-- A run of one entry. -/
theorem runs_single {b : α} (hb : p b = true) : runs p [b] = [[b]] :=
  runs_last (List.cons_ne_nil b []) (List.forall_mem_singleton.mpr hb)

theorem runs_single_cons {b : α} (hb : p b = true) (hc : p c = false) :
    runs p (b :: c :: s) = [b] :: runs p s :=
  runs_next (List.cons_ne_nil b []) (List.forall_mem_singleton.mpr hb) hc

/-- **The list has the maximal runs.** -/
theorem mem_runs_iff : w ∈ runs p s ↔ IsRun p s w := by
  induction s using runs_induct (p := p) with
  | nil =>
      rw [runs_nil]
      exact ⟨fun h => absurd h List.not_mem_nil, fun h => absurd h not_isRun_nil⟩
  | skip c s hc ih =>
      have hside : IsRun p (c :: s) w ↔ IsRun p [] w ∨ IsRun p s w := isRun_separator hc (s := [])
      rw [runs_skip hc, ih, hside, or_iff_right not_isRun_nil]
  | last r hne hall =>
      rw [runs_last hne hall, List.mem_singleton, isRun_all hall]
      exact ⟨fun h => ⟨h, h ▸ hne⟩, fun h => h.1⟩
  | next r c s hne hall hc ih =>
      rw [runs_next hne hall hc, List.mem_cons, ih, isRun_separator hc, isRun_all hall]
      exact or_congr_left ⟨fun h => ⟨h, h ▸ hne⟩, fun h => h.1⟩

/-- Where every entry with `q` has `p`, the runs of `q` lie within those of `p`. -/
theorem isRun_iff_within (hqp : ∀ c, q c = true → p c = true) :
    IsRun q s w ↔ ∃ r ∈ runs p s, IsRun q r w := by
  have hsep : ∀ {c}, p c = false → q c = false := by
    intro c hc
    rw [Bool.eq_false_iff]
    exact fun hq => absurd (hqp c hq) (by simp [hc])
  induction s using runs_induct (p := p) with
  | nil => simp [runs_nil, not_isRun_nil]
  | skip c s hc ih =>
      have hside : IsRun q (c :: s) w ↔ IsRun q [] w ∨ IsRun q s w :=
        isRun_separator (hsep hc) (s := [])
      rw [hside, or_iff_right not_isRun_nil, runs_skip hc]
      exact ih
  | last r hne hall => simp [runs_last hne hall]
  | next r c s hne hall hc ih =>
      rw [isRun_separator (hsep hc), runs_next hne hall hc]
      exact (or_congr_right ih).trans (by simp)

end Os377.Lib
