import Mathlib.Data.List.Pairwise
import Mathlib.Order.Lattice

/-!
# Sorted lists of ranges

Each element `n` of a list stands for the range `[lo n, hi n)` of a linear
order. `Ranged` lists are in order and do not overlap; ranges may be empty.
-/

namespace Os377.Lib

section Ranges

variable {α β : Type*} [LinearOrder β] (lo hi : α → β)

/-- Some range of the list contains `x`. -/
def Covered (ns : List α) (x : β) : Prop := ∃ n ∈ ns, lo n ≤ x ∧ x < hi n

/-- The ranges are in order, without overlap. -/
structure Ranged (ns : List α) : Prop where
  proper : ∀ n ∈ ns, lo n ≤ hi n
  apart : ns.Pairwise fun m n => hi m ≤ lo n

variable {lo hi} {ns as bs : List α} {n : α} {x : β}

@[simp] theorem covered_cons :
    Covered lo hi (n :: ns) x ↔ (lo n ≤ x ∧ x < hi n) ∨ Covered lo hi ns x := by
  simp [Covered]

@[simp] theorem covered_append :
    Covered lo hi (as ++ bs) x ↔ Covered lo hi as x ∨ Covered lo hi bs x := by
  simp [Covered, or_and_right, exists_or]

theorem ranged_append : Ranged lo hi (as ++ bs) ↔
    Ranged lo hi as ∧ Ranged lo hi bs ∧ ∀ a ∈ as, ∀ b ∈ bs, hi a ≤ lo b := by
  constructor
  · rintro ⟨hproper, hapart⟩
    obtain ⟨ha, hb, hab⟩ := List.pairwise_append.mp hapart
    exact ⟨⟨fun n hn => hproper n (List.mem_append_left _ hn), ha⟩,
      ⟨fun n hn => hproper n (List.mem_append_right _ hn), hb⟩, hab⟩
  · rintro ⟨ha, hb, hab⟩
    refine ⟨fun n hn => ?_, List.pairwise_append.mpr ⟨ha.apart, hb.apart, hab⟩⟩
    rcases List.mem_append.mp hn with hn | hn
    · exact ha.proper n hn
    · exact hb.proper n hn

theorem ranged_cons : Ranged lo hi (n :: ns) ↔
    lo n ≤ hi n ∧ Ranged lo hi ns ∧ ∀ m ∈ ns, hi n ≤ lo m := by
  constructor
  · rintro ⟨hproper, hapart⟩
    obtain ⟨hn, hns⟩ := List.pairwise_cons.mp hapart
    exact ⟨hproper n List.mem_cons_self,
      ⟨fun m hm => hproper m (List.mem_cons_of_mem _ hm), hns⟩, hn⟩
  · rintro ⟨hle, hns, hn⟩
    refine ⟨fun m hm => ?_, List.pairwise_cons.mpr ⟨hn, hns.apart⟩⟩
    rcases List.mem_cons.mp hm with rfl | hm
    · exact hle
    · exact hns.proper m hm

/-- A list is cut at `x`: the ranges that start below it come first. -/
theorem Ranged.cut (h : Ranged lo hi ns) (x : β) : ∃ as bs, ns = as ++ bs ∧
    (∀ a ∈ as, lo a < x) ∧ ∀ b ∈ bs, x ≤ lo b := by
  induction ns with
  | nil => exact ⟨[], [], rfl, by simp, by simp⟩
  | cons n ns ih =>
      obtain ⟨hle, hns, hn⟩ := ranged_cons.mp h
      by_cases hx : lo n < x
      · obtain ⟨as, bs, rfl, ha, hb⟩ := ih hns
        refine ⟨n :: as, bs, rfl, fun a h => ?_, hb⟩
        rcases List.mem_cons.mp h with rfl | h
        · exact hx
        · exact ha a h
      · refine ⟨[], n :: ns, rfl, by simp, fun b h => ?_⟩
        rcases List.mem_cons.mp h with rfl | h
        · exact not_lt.mp hx
        · exact (not_lt.mp hx).trans (hle.trans (hn b h))

/-- A range goes between the ranges before and behind it. -/
theorem Ranged.insert (h : Ranged lo hi (as ++ bs)) (hn : lo n ≤ hi n)
    (ha : ∀ a ∈ as, hi a ≤ lo n) (hb : ∀ b ∈ bs, hi n ≤ lo b) :
    Ranged lo hi (as ++ n :: bs) := by
  obtain ⟨has, hbs, hab⟩ := ranged_append.mp h
  refine ranged_append.mpr ⟨has, ranged_cons.mpr ⟨hn, hbs, hb⟩, fun a h b hmem => ?_⟩
  rcases List.mem_cons.mp hmem with rfl | hmem
  · exact ha a h
  · exact hab a h b hmem

/-- Two neighbours become one range. -/
theorem Ranged.merge {m t : α} (h : Ranged lo hi (n :: m :: ns)) (hadj : hi n = lo m)
    (hlo : lo t = lo n) (hhi : hi t = hi m) :
    Ranged lo hi (t :: ns) ∧
      ∀ x, Covered lo hi (t :: ns) x ↔ Covered lo hi (n :: m :: ns) x := by
  obtain ⟨hn, hmns, -⟩ := ranged_cons.mp h
  obtain ⟨hm, hns, hle⟩ := ranged_cons.mp hmns
  refine ⟨ranged_cons.mpr ⟨?_, hns, fun b hb => hhi ▸ hle b hb⟩, fun x => ?_⟩
  · rw [hlo, hhi]
    exact hn.trans (hadj ▸ hm)
  · simp only [covered_cons, hlo, hhi]
    rw [← or_assoc]
    refine or_congr_left ⟨fun ⟨h1, h2⟩ => ?_, ?_⟩
    · rcases lt_or_ge x (hi n) with hlt | hge
      · exact Or.inl ⟨h1, hlt⟩
      · exact Or.inr ⟨hadj ▸ hge, h2⟩
    · rintro (⟨h1, h2⟩ | ⟨h1, h2⟩)
      · exact ⟨h1, h2.trans_le (hadj ▸ hm)⟩
      · exact ⟨hn.trans (hadj ▸ h1), h2⟩

/-- The front of a range is cut off. -/
theorem Ranged.takeFront {t : α} (h : Ranged lo hi (as ++ n :: bs)) (hlo : lo n ≤ lo t)
    (hlt : lo t ≤ hi t) (hhi : hi t = hi n) :
    Ranged lo hi (as ++ t :: bs) ∧ ∀ x, Covered lo hi (as ++ t :: bs) x ↔
      Covered lo hi (as ++ n :: bs) x ∧ ¬ (lo n ≤ x ∧ x < lo t) := by
  obtain ⟨has, hnbs, hab⟩ := ranged_append.mp h
  obtain ⟨-, hbs, hnb⟩ := ranged_cons.mp hnbs
  have hbefore : ∀ a ∈ as, hi a ≤ lo n := fun a ha => hab a ha n List.mem_cons_self
  constructor
  · refine Ranged.insert (ranged_append.mpr ⟨has, hbs, fun a ha b hb => ?_⟩) hlt
      (fun a ha => (hbefore a ha).trans hlo) (fun b hb => hhi ▸ hnb b hb)
    exact hab a ha b (List.mem_cons_of_mem _ hb)
  · intro x
    -- what is cut off lies in no other range
    have hnot : ∀ m, m ∈ as ∨ m ∈ bs → lo m ≤ x → x < hi m → ¬ (lo n ≤ x ∧ x < lo t) := by
      rintro m (hm | hm) h1 h2 ⟨h3, h4⟩
      · exact absurd (h2.trans_le (hbefore m hm)) (not_lt.mpr h3)
      · exact absurd (h4.trans_le (hlt.trans (hhi ▸ hnb m hm))) (not_lt.mpr h1)
    simp only [covered_append, covered_cons]
    constructor
    · rintro (⟨m, hm, h1, h2⟩ | ⟨h1, h2⟩ | ⟨m, hm, h1, h2⟩)
      · exact ⟨Or.inl ⟨m, hm, h1, h2⟩, hnot m (Or.inl hm) h1 h2⟩
      · exact ⟨Or.inr (Or.inl ⟨hlo.trans h1, hhi ▸ h2⟩), fun h => absurd h.2 (not_lt.mpr h1)⟩
      · exact ⟨Or.inr (Or.inr ⟨m, hm, h1, h2⟩), hnot m (Or.inr hm) h1 h2⟩
    · rintro ⟨hc | ⟨h1, h2⟩ | hc, hout⟩
      · exact Or.inl hc
      · exact Or.inr (Or.inl ⟨not_lt.mp fun hlt' => hout ⟨h1, hlt'⟩, hhi ▸ h2⟩)
      · exact Or.inr (Or.inr hc)

end Ranges

end Os377.Lib
