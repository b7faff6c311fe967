import Mathlib.Computability.Language
import Mathlib.Data.UInt

/-!
# The regular expressions of the xv6 grep

`match`, `matchhere` and `matchstar` of `grep.c` find out whether a text has a part that the
pattern describes (`matchRe_iff`). A pattern is read once, from the front, as a row of items;
`^` at its start and `$` at its end say where the part has to lie. What it describes is a
`Language`.
-/

namespace Os377.Xv6.Grep

open Computability

/-- A C string without its NUL. -/
abbrev Text := List UInt8

/-! ## The matcher -/

/-- `matchstar(c, re, text)`, with `here` for `matchhere(re, _)`. -/
def matchstar (c : UInt8) (here : Text → Bool) : Text → Bool
  | [] => here []
  | d :: text =>
      if here (d :: text) then true
      else if d = c ∨ c = '.'.toUInt8 then matchstar c here text
      else false

def matchhere : Text → Text → Bool
  | [], _ => true
  | c :: re, text =>
      let one : Bool :=
        match text with
        | d :: text' => if c = '.'.toUInt8 ∨ c = d then matchhere re text' else false
        | [] => false
      match re with
      | d :: re' => if d = '*'.toUInt8 then matchstar c (matchhere re') text else one
      | [] => if c = '$'.toUInt8 then text.isEmpty else one

/-- The loop of `match`. -/
def search (re : Text) : Text → Bool
  | [] => matchhere re []
  | d :: text => if matchhere re (d :: text) then true else search re text

/-- `match` -/
def matchRe (re text : Text) : Bool :=
  match re with
  | c :: re' => if c = '^'.toUInt8 then matchhere re' text else search re text
  | [] => search [] text

/-! ## What a pattern describes -/

inductive Item where
  | chr (c : UInt8)
  | star (c : UInt8)
  deriving DecidableEq, Repr

/-- The items of a pattern without its `^`, and whether a `$` ends it. -/
def items : Text → List Item × Bool
  | [] => ([], false)
  | c :: re =>
      let one : List Item × Bool := (.chr c :: (items re).1, (items re).2)
      match re with
      | d :: re' =>
          if d = '*'.toUInt8 then (.star c :: (items re').1, (items re').2) else one
      | [] => if c = '$'.toUInt8 then ([], true) else one

/-- The byte `c`, or any byte. -/
def byte (c : UInt8) : Language UInt8 := {w | ∃ d, (c = '.'.toUInt8 ∨ c = d) ∧ w = [d]}

def Item.lang : Item → Language UInt8
  | .chr c => byte c
  | .star c => (byte c)∗

def lang (l : List Item) : Language UInt8 := (l.map Item.lang).prod

theorem mem_lang_nil {w : Text} : w ∈ lang [] ↔ w = [] := Language.mem_one w

theorem mem_lang_cons {a : Item} {l : List Item} {w : Text} :
    w ∈ lang (a :: l) ↔ ∃ u v, w = u ++ v ∧ u ∈ a.lang ∧ v ∈ lang l := by
  unfold lang
  rw [List.map_cons, List.prod_cons, Language.mem_mul]
  constructor
  · rintro ⟨u, hu, v, hv, rfl⟩
    exact ⟨u, v, rfl, hu, hv⟩
  · rintro ⟨u, v, rfl, hu, hv⟩
    exact ⟨u, hu, v, hv, rfl⟩

variable {c d : UInt8} {re text : Text} {here : Text → Bool}

theorem singleton_mem_byte : [d] ∈ byte c ↔ c = '.'.toUInt8 ∨ c = d := by
  constructor
  · rintro ⟨e, hc, he⟩
    obtain ⟨rfl⟩ := List.cons.inj he
    exact hc
  · exact fun hc => ⟨d, hc, rfl⟩

theorem cons_mem_star {w : Text} :
    d :: w ∈ (byte c)∗ ↔ (c = '.'.toUInt8 ∨ c = d) ∧ w ∈ (byte c)∗ := by
  rw [← Language.one_add_self_mul_kstar_eq_kstar (byte c), Language.mem_add,
    Language.one_add_self_mul_kstar_eq_kstar, Language.mem_mul]
  constructor
  · rintro (hnil | ⟨u, ⟨e, he, rfl⟩, v, hv, heq⟩)
    · cases hnil
    · obtain ⟨rfl, rfl⟩ := List.cons.inj heq
      exact ⟨he, hv⟩
  · rintro ⟨hc, hw⟩
    exact Or.inr ⟨[d], singleton_mem_byte.mpr hc, w, hw, rfl⟩

/-! ## The matcher finds what the pattern describes -/

/-- Some front part is in the language of the items, all of the text with a `$`. -/
def Front (p : List Item × Bool) (text : Text) : Prop :=
  ∃ mid post, text = mid ++ post ∧ mid ∈ lang p.1 ∧ (p.2 = true → post = [])

theorem front_star {l : List Item} {b : Bool} (hhere : ∀ text, here text = true ↔ Front (l, b) text)
    (text : Text) : matchstar c here text = true ↔ Front (.star c :: l, b) text := by
  induction text with
  | nil =>
      show here [] = true ↔ _
      rw [hhere]
      constructor
      · rintro ⟨mid, post, heq, hmid, hpost⟩
        exact ⟨mid, post, heq, mem_lang_cons.mpr ⟨[], mid, rfl, Language.nil_mem_kstar _, hmid⟩,
          hpost⟩
      · rintro ⟨mid, post, heq, hmid, hpost⟩
        obtain ⟨u, v, rfl, -, hv⟩ := mem_lang_cons.mp hmid
        obtain ⟨huv, -⟩ := List.append_eq_nil_iff.mp heq.symm
        obtain ⟨rfl, -⟩ := List.append_eq_nil_iff.mp huv
        exact ⟨v, post, heq, hv, hpost⟩
  | cons d text ih =>
      rw [matchstar]
      constructor
      · intro h
        split at h
        · next hfront =>
            obtain ⟨mid, post, heq, hmid, hpost⟩ := (hhere _).mp hfront
            exact ⟨mid, post, heq,
              mem_lang_cons.mpr ⟨[], mid, rfl, Language.nil_mem_kstar _, hmid⟩, hpost⟩
        · split at h
          · next hc =>
              obtain ⟨mid, post, rfl, hmid, hpost⟩ := ih.mp h
              obtain ⟨u, v, rfl, hu, hv⟩ := mem_lang_cons.mp hmid
              refine ⟨d :: (u ++ v), post, rfl, mem_lang_cons.mpr ⟨d :: u, v, rfl, ?_, hv⟩, hpost⟩
              exact cons_mem_star.mpr ⟨hc.elim (fun h => Or.inr h.symm) Or.inl, hu⟩
          · exact absurd h Bool.false_ne_true
      · rintro ⟨mid, post, heq, hmid, hpost⟩
        obtain ⟨u, v, rfl, hu, hv⟩ := mem_lang_cons.mp hmid
        cases u with
        | nil => rw [if_pos ((hhere _).mpr ⟨v, post, heq, hv, hpost⟩)]
        | cons e u =>
            obtain ⟨rfl, rfl⟩ := List.cons.inj heq
            obtain ⟨hc, hu⟩ := cons_mem_star.mp hu
            split
            · rfl
            · rw [if_pos (hc.elim Or.inr fun h => Or.inl h.symm)]
              exact ih.mpr ⟨u ++ v, post, rfl, mem_lang_cons.mpr ⟨u, v, rfl, hu, hv⟩, hpost⟩

/-- One byte, and what stands behind it. -/
theorem front_chr {l : List Item} {b : Bool} :
    Front (.chr c :: l, b) text ↔
      ∃ d text', text = d :: text' ∧ (c = '.'.toUInt8 ∨ c = d) ∧ Front (l, b) text' := by
  constructor
  · rintro ⟨mid, post, rfl, hmid, hpost⟩
    obtain ⟨u, v, rfl, ⟨d, hd, rfl⟩, hv⟩ := mem_lang_cons.mp hmid
    exact ⟨d, v ++ post, rfl, hd, v, post, rfl, hv, hpost⟩
  · rintro ⟨d, text', rfl, hd, mid, post, rfl, hmid, hpost⟩
    exact ⟨d :: mid, post, rfl,
      mem_lang_cons.mpr ⟨[d], mid, rfl, singleton_mem_byte.mpr hd, hmid⟩, hpost⟩

theorem matchhere_iff (re text : Text) : matchhere re text = true ↔ Front (items re) text := by
  have hone : ∀ {c : UInt8} {re text : Text} {p : List Item × Bool},
      (∀ text, matchhere re text = true ↔ Front p text) →
      ((match text with
        | d :: text' => if c = '.'.toUInt8 ∨ c = d then matchhere re text' else false
        | [] => false) = true ↔ Front (.chr c :: p.1, p.2) text) := by
    intro c re text p hre
    rw [front_chr]
    cases text with
    | nil => exact iff_of_false Bool.false_ne_true fun ⟨_, _, h, _⟩ => by cases h
    | cons d text =>
        dsimp only
        split
        · next hd =>
            rw [hre]
            constructor
            · exact fun h => ⟨d, text, rfl, hd, h⟩
            · rintro ⟨e, text', heq, -, h⟩
              obtain ⟨rfl, rfl⟩ := List.cons.inj heq
              exact h
        · next hd =>
            refine iff_of_false Bool.false_ne_true ?_
            rintro ⟨e, text', heq, he, -⟩
            obtain ⟨rfl, rfl⟩ := List.cons.inj heq
            exact hd he
  have hnil : ∀ text, Front ([], false) text := fun text =>
    ⟨[], text, rfl, mem_lang_nil.mpr rfl, fun h => absurd h Bool.false_ne_true⟩
  induction hn : re.length using Nat.strong_induction_on generalizing re text with
  | _ n ih =>
      match re, hn with
      | [], _ => exact iff_of_true rfl (hnil text)
      | [c], hn =>
          unfold matchhere items
          by_cases hc : c = '$'.toUInt8
          · dsimp only
            rw [if_pos hc, if_pos hc, List.isEmpty_iff]
            constructor
            · rintro rfl
              exact ⟨[], [], rfl, mem_lang_nil.mpr rfl, fun _ => rfl⟩
            · rintro ⟨mid, post, rfl, hmid, hpost⟩
              rw [mem_lang_nil.mp hmid, hpost rfl]
              rfl
          · dsimp only
            rw [if_neg hc, if_neg hc]
            exact hone (p := ([], false)) fun text => iff_of_true rfl (hnil text)
      | c :: d :: re, hn =>
          rw [List.length_cons, List.length_cons] at hn
          unfold matchhere items
          dsimp only
          by_cases hd : d = '*'.toUInt8
          · rw [if_pos hd, if_pos hd]
            exact front_star (fun text => ih re.length (by omega) re text rfl) text
          · rw [if_neg hd, if_neg hd]
            exact hone fun text => ih (re.length + 1) (by omega) (d :: re) text rfl

theorem search_iff (re text : Text) :
    search re text = true ↔ ∃ pre rest, text = pre ++ rest ∧ matchhere re rest = true := by
  induction text with
  | nil =>
      constructor
      · exact fun h => ⟨[], [], rfl, h⟩
      · rintro ⟨pre, rest, heq, h⟩
        obtain ⟨rfl, rfl⟩ := List.append_eq_nil_iff.mp heq.symm
        exact h
  | cons d text ih =>
      rw [search]
      split
      · next h => exact iff_of_true rfl ⟨[], d :: text, rfl, h⟩
      · next hnot =>
          rw [ih]
          constructor
          · rintro ⟨pre, rest, rfl, h⟩
            exact ⟨d :: pre, rest, rfl, h⟩
          · rintro ⟨pre, rest, heq, h⟩
            cases pre with
            | nil => exact absurd (heq ▸ h) hnot
            | cons e pre =>
                obtain ⟨-, rfl⟩ := List.cons.inj heq
                exact ⟨pre, rest, rfl, h⟩

/-- Whether a pattern starts with `^`, its items, and whether it ends with `$`. -/
def regex (re : Text) : Bool × List Item × Bool :=
  match re with
  | c :: re' => if c = '^'.toUInt8 then (true, items re') else (false, items re)
  | [] => (false, items [])

/-- A text matches where one of its parts is in the language of the pattern. -/
theorem matchRe_iff (re text : Text) : matchRe re text = true ↔
    ∃ pre mid post, text = pre ++ (mid ++ post) ∧ mid ∈ lang (regex re).2.1 ∧
      ((regex re).1 = true → pre = []) ∧ ((regex re).2.2 = true → post = []) := by
  have hsearch : ∀ re, search re text = true ↔ ∃ pre mid post, text = pre ++ (mid ++ post) ∧
      mid ∈ lang (items re).1 ∧ (false = true → pre = []) ∧ ((items re).2 = true → post = []) := by
    intro re
    rw [search_iff]
    constructor
    · rintro ⟨pre, rest, rfl, h⟩
      obtain ⟨mid, post, rfl, hmid, hpost⟩ := (matchhere_iff re rest).mp h
      exact ⟨pre, mid, post, rfl, hmid, fun h => absurd h Bool.false_ne_true, hpost⟩
    · rintro ⟨pre, mid, post, rfl, hmid, -, hpost⟩
      exact ⟨pre, mid ++ post, rfl, (matchhere_iff re _).mpr ⟨mid, post, rfl, hmid, hpost⟩⟩
  unfold matchRe regex
  cases re with
  | nil => exact hsearch []
  | cons c re =>
      dsimp only
      by_cases hc : c = '^'.toUInt8
      · rw [if_pos hc, if_pos hc, matchhere_iff]
        constructor
        · rintro ⟨mid, post, rfl, hmid, hpost⟩
          exact ⟨[], mid, post, rfl, hmid, fun _ => rfl, hpost⟩
        · rintro ⟨pre, mid, post, rfl, hmid, hpre, hpost⟩
          rw [hpre rfl]
          exact ⟨mid, post, rfl, hmid, hpost⟩
      · rw [if_neg hc, if_neg hc]
        exact hsearch (c :: re)

end Os377.Xv6.Grep
