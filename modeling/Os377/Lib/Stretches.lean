import Os377.Lib.Ranges
import Mathlib.Data.Int.Order.Basic
import Mathlib.Data.List.Chain

/-!
# Maximal runs of covered addresses

A `Stretch` of a set of integers is a run of consecutive members that cannot be
made longer. In a `Detached` list of ranges, where even neighbours do not touch,
the stretches of the covered set are exactly the ranges that are not empty.
-/

namespace Os377.Lib

section Stretches

variable {α : Type*} {lo hi : α → Int} {ns : List α} {a b : Int}

/-- All of `[a, b)` belongs to the set, and neither neighbour does. -/
structure Stretch (S : Int → Prop) (a b : Int) : Prop where
  nonempty : a < b
  inside : ∀ x, a ≤ x → x < b → S x
  left : ¬ S (a - 1)
  right : ¬ S b

/-- The ranges are in order, with a gap after each. -/
structure Detached (lo hi : α → Int) (ns : List α) : Prop where
  proper : ∀ n ∈ ns, lo n ≤ hi n
  gap : ns.Pairwise fun m n => hi m < lo n

/-- Order between neighbours is order throughout. -/
theorem ranged_of_isChain (hproper : ∀ n ∈ ns, lo n ≤ hi n)
    (hchain : ns.IsChain fun m n => hi m ≤ lo n) : Ranged lo hi ns := by
  induction ns with
  | nil => exact ⟨hproper, List.Pairwise.nil⟩
  | cons n ns ih =>
      have hns := ih (fun m hm => hproper m (List.mem_cons_of_mem _ hm)) hchain.tail
      refine ranged_cons.mpr ⟨hproper n List.mem_cons_self, hns, fun m hm => ?_⟩
      cases ns with
      | nil => cases hm
      | cons k ns =>
          have hnk : hi n ≤ lo k := (List.isChain_cons_cons.mp hchain).1
          rcases List.mem_cons.mp hm with rfl | hm
          · exact hnk
          · obtain ⟨hk, -, hkm⟩ := ranged_cons.mp hns
            have := hkm m hm
            omega

/-- Of two ranges of the list, one ends before the other begins. -/
theorem Detached.apart (h : Detached lo hi ns) {m n : α} (hm : m ∈ ns) (hn : n ∈ ns)
    (hne : m ≠ n) : hi m < lo n ∨ hi n < lo m :=
  have : Std.Symm fun m n => hi m < lo n ∨ hi n < lo m := ⟨fun _ _ => Or.symm⟩
  (h.gap.imp Or.inl : ns.Pairwise fun m n => hi m < lo n ∨ hi n < lo m).forall hm hn hne

/-- Covered neighbours lie in the same range. -/
theorem Detached.same (h : Detached lo hi ns) {m n : α} (hm : m ∈ ns) (hn : n ∈ ns) {x : Int}
    (h1 : lo m ≤ x) (h2 : x ≤ hi m) (h3 : lo n ≤ x) (h4 : x ≤ hi n) : m = n := by
  by_contra hne
  rcases h.apart hm hn hne with hlt | hlt
  · omega
  · omega

/-- **A run of covered addresses lies in one range.** -/
theorem Detached.run (h : Detached lo hi ns) (hab : a < b)
    (hall : ∀ x, a ≤ x → x < b → Covered lo hi ns x) : ∃ n ∈ ns, lo n ≤ a ∧ b ≤ hi n := by
  obtain ⟨n, hn, h1, h2⟩ := hall a le_rfl hab
  refine ⟨n, hn, h1, ?_⟩
  by_contra hend
  -- the first address behind the range is covered by another one
  obtain ⟨m, hm, h3, h4⟩ := hall (hi n) (by omega) (by omega)
  have heq := h.same hm hn h3 h4.le (by omega) le_rfl
  subst heq
  omega

/-- **The stretches are the ranges that are not empty.** -/
theorem Detached.stretch_iff (h : Detached lo hi ns) :
    Stretch (Covered lo hi ns) a b ↔ ∃ n ∈ ns, lo n = a ∧ hi n = b ∧ a < b := by
  constructor
  · intro hs
    obtain ⟨n, hn, h1, h2⟩ := h.run hs.nonempty hs.inside
    have hab := hs.nonempty
    refine ⟨n, hn, ?_, ?_, hab⟩
    · by_contra hne
      exact hs.left ⟨n, hn, by omega, by omega⟩
    · by_contra hne
      exact hs.right ⟨n, hn, by omega, by omega⟩
  · intro hrange
    obtain ⟨n, hn, rfl, rfl, hlt⟩ := hrange
    refine ⟨hlt, fun x h1 h2 => ⟨n, hn, h1, h2⟩, fun hleft => ?_, fun hright => ?_⟩
    · obtain ⟨m, hm, h1, h2⟩ := hleft
      have heq := h.same hm hn (x := lo n) (by omega) (by omega) le_rfl hlt.le
      subst heq
      omega
    · obtain ⟨m, hm, h1, h2⟩ := hright
      have heq := h.same hm hn h1 h2.le hlt.le le_rfl
      subst heq
      omega

end Stretches

end Os377.Lib
