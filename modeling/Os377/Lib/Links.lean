import Mathlib.Data.List.Basic

/-!
# Linked lists through a `next` function

`Seg next p nodes q`: starting at `p` and following `next`, one visits the
nodes `nodes` and arrives at `q`. A list that ends in a null pointer is a
segment to it.
-/

namespace Os377.Lib

variable {α : Type*}

/-- The nodes visited from `p` on the way to `q`. -/
def Seg (next : α → α) : α → List α → α → Prop
  | p, [], q => p = q
  | p, n :: rest, q => p = n ∧ Seg next (next n) rest q

variable {next next' : α → α} {p q : α} {as bs : List α}

theorem seg_append : Seg next p (as ++ bs) q ↔ ∃ r, Seg next p as r ∧ Seg next r bs q := by
  induction as generalizing p with
  | nil => simp [Seg]
  | cons a as ih =>
      simp only [List.cons_append, Seg, ih]
      constructor
      · rintro ⟨rfl, r, h1, h2⟩
        exact ⟨r, ⟨rfl, h1⟩, h2⟩
      · rintro ⟨r, ⟨rfl, h1⟩, h2⟩
        exact ⟨rfl, r, h1, h2⟩

/-- A segment only depends on the links of its own nodes. -/
theorem Seg.congr (h : Seg next p as q) (heq : ∀ n ∈ as, next' n = next n) :
    Seg next' p as q := by
  induction as generalizing p with
  | nil => exact h
  | cons a as ih =>
      obtain ⟨rfl, h⟩ := h
      refine ⟨rfl, ?_⟩
      rw [heq p List.mem_cons_self]
      exact ih h fun n hn => heq n (List.mem_cons_of_mem _ hn)

/-- A segment is empty or starts at its first node. -/
theorem Seg.start_mem (h : Seg next p as q) : p = q ∨ p ∈ as := by
  cases as with
  | nil => exact Or.inl h
  | cons a as => exact Or.inr (h.1 ▸ List.mem_cons_self)

/-- A segment ending in a node `a`: redirecting the link of `a` moves its end. -/
theorem Seg.redirect {a r : α} (h : Seg next p (as ++ [a]) q)
    (heq : ∀ n ∈ as, next' n = next n) (ha : next' a = r) : Seg next' p (as ++ [a]) r := by
  rw [seg_append] at h ⊢
  obtain ⟨b, h1, rfl, -⟩ := h
  exact ⟨_, h1.congr heq, rfl, ha⟩

/-- Two segments from the same start: one that stays away from the end `z` of
the other is its beginning. -/
theorem Seg.split_of_ne {z : α} (h : Seg next p as q) (hz : ∀ n ∈ as, n ≠ z)
    (hend : Seg next p bs z) : ∃ rest, bs = as ++ rest ∧ Seg next q rest z := by
  induction as generalizing p bs with
  | nil =>
      have hp : p = q := h
      exact ⟨bs, rfl, hp ▸ hend⟩
  | cons a as ih =>
      obtain ⟨rfl, h⟩ := h
      cases bs with
      | nil => exact absurd hend (hz p List.mem_cons_self)
      | cons b bs =>
          obtain ⟨rfl, hend⟩ := hend
          obtain ⟨rest, rfl, hrest⟩ := ih h (fun n hn => hz n (List.mem_cons_of_mem _ hn)) hend
          exact ⟨rest, rfl, hrest⟩

/-- Two segments to the same end with the same nodes start at the same node. -/
theorem Seg.start_eq {z : α} (h : Seg next p as z) (h' : Seg next q bs z) (hperm : as.Perm bs)
    (hz : ∀ n ∈ as, n ≠ z) : p = q := by
  cases as with
  | nil =>
      rw [hperm.symm.eq_nil] at h'
      exact Eq.trans h (Eq.symm h')
  | cons a as =>
      obtain ⟨rfl, h⟩ := h
      have hmem : p ∈ bs := hperm.subset List.mem_cons_self
      obtain ⟨cs, ds, rfl⟩ := List.append_of_mem hmem
      obtain ⟨r, hcs, rfl, hds⟩ := seg_append.mp h'
      -- from the common node on the two segments are the same
      obtain ⟨rest, hrest, -⟩ := Seg.split_of_ne
        (show Seg next r (r :: as) z from ⟨rfl, h⟩) hz (show Seg next r (r :: ds) z from ⟨rfl, hds⟩)
      have hlen := hperm.length_eq
      rw [hrest] at hlen
      have hnil : cs = [] := by
        apply List.eq_nil_of_length_eq_zero
        simp only [List.length_append] at hlen
        omega
      subst hnil
      exact (show q = r from hcs).symm

end Os377.Lib
