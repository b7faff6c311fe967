import Mathlib.Algebra.GroupWithZero.Nat
import Mathlib.Data.Finset.Card
import Mathlib.Data.List.Count
import Mathlib.Data.List.Pairwise
import Mathlib.Data.List.Perm.Basic
import Mathlib.Order.Interval.Finset.Nat

/-!
# Tiling a range by blocks

A block is a start address and a length. `Tiles lo hi bs` counts: every
address of the range is in exactly one block and no other address is in any.
Counting does not care about the order of the blocks, and cutting a block in
two or joining two neighbours does not change it.
-/

namespace Os377.Lib

/-- Start and length. -/
abbrev Block := Nat × Nat

/-- The address lies in the block. -/
def Block.Has (b : Block) (x : Nat) : Prop := b.1 ≤ x ∧ x < b.1 + b.2

instance (b : Block) (x : Nat) : Decidable (b.Has x) :=
  inferInstanceAs (Decidable (_ ∧ _))

/-- The blocks have no address in common. -/
def Block.Apart (b c : Block) : Prop := ∀ x, ¬ (b.Has x ∧ c.Has x)

/-- How many blocks an address lies in. -/
def owners (bs : List Block) (x : Nat) : Nat := bs.countP fun b => decide (b.Has x)

/-- The blocks tile `[lo, hi)`. -/
def Tiles (lo hi : Nat) (bs : List Block) : Prop :=
  ∀ x, owners bs x = if lo ≤ x ∧ x < hi then 1 else 0

variable {lo hi : Nat} {bs cs : List Block} {b : Block}

theorem owners_cons {x : Nat} : owners (b :: bs) x = (if b.Has x then 1 else 0) + owners bs x := by
  rw [owners, List.countP_cons, owners]
  simp only [decide_eq_true_eq]
  omega

theorem owners_append {x : Nat} : owners (bs ++ cs) x = owners bs x + owners cs x :=
  List.countP_append

theorem owners_perm (h : bs.Perm cs) (x : Nat) : owners bs x = owners cs x :=
  h.countP_eq _

theorem owners_pos {x : Nat} (hb : b ∈ bs) (hx : b.Has x) : 0 < owners bs x :=
  List.countP_pos_iff.mpr ⟨b, hb, decide_eq_true hx⟩

theorem owners_pos_iff {x : Nat} : 0 < owners bs x ↔ ∃ b ∈ bs, b.Has x := by
  rw [owners, List.countP_pos_iff]
  simp only [decide_eq_true_eq]

/-- Two neighbours count like one block. -/
theorem owners_split {a m n x : Nat} :
    owners ((a, m + n) :: bs) x = owners ((a, m) :: (a + m, n) :: bs) x := by
  rw [owners_cons, owners_cons, owners_cons, ← Nat.add_assoc]
  congr 1
  by_cases h1 : Block.Has (a, m) x <;> by_cases h2 : Block.Has (a + m, n) x
  · have := h1.2
    have := h2.1
    simp only at *
    omega
  · rw [if_pos h1, if_neg h2, if_pos ⟨h1.1, by have := h1.2; simp only at *; omega⟩]
  · rw [if_neg h1, if_pos h2, if_pos ⟨by have := h2.1; simp only at *; omega,
      by have := h2.2; simp only at *; omega⟩]
  · rw [if_neg h1, if_neg h2, if_neg]
    rintro ⟨h3, h4⟩
    simp only [Block.Has] at *
    omega

theorem Tiles.congr (h : Tiles lo hi bs) (heq : ∀ x, owners cs x = owners bs x) :
    Tiles lo hi cs := fun x => (heq x).trans (h x)

/-- A block of a tiling lies in the range. -/
theorem Tiles.inside (h : Tiles lo hi bs) (hb : b ∈ bs) (hpos : 0 < b.2) :
    lo ≤ b.1 ∧ b.1 + b.2 ≤ hi := by
  have hin : ∀ x, b.Has x → lo ≤ x ∧ x < hi := by
    intro x hx
    have hown := owners_pos hb hx
    rw [h x] at hown
    by_contra hout
    rw [if_neg hout] at hown
    omega
  have h1 := hin b.1 ⟨by omega, by omega⟩
  have h2 := hin (b.1 + b.2 - 1) ⟨by omega, by omega⟩
  omega

theorem Tiles.covers (h : Tiles lo hi bs) {x : Nat} (h1 : lo ≤ x) (h2 : x < hi) :
    ∃ b ∈ bs, b.Has x := by
  have hown : 0 < owners bs x := by
    rw [h x, if_pos ⟨h1, h2⟩]
    omega
  obtain ⟨b, hb, hx⟩ := List.countP_pos_iff.mp hown
  exact ⟨b, hb, of_decide_eq_true hx⟩

/-- Blocks that own each address at most once are pairwise apart. -/
theorem pairwise_of_owners_le_one (hle : ∀ x, owners bs x ≤ 1) : bs.Pairwise Block.Apart := by
  induction bs with
  | nil => exact List.Pairwise.nil
  | cons b bs ih =>
      refine List.Pairwise.cons (fun c hc x hx => ?_) (ih fun x => ?_)
      · have h1 := hle x
        have h2 := owners_pos hc hx.2
        rw [owners_cons, if_pos hx.1] at h1
        omega
      · have := hle x
        rw [owners_cons] at this
        omega

/-- The blocks of a tiling are pairwise apart. -/
theorem Tiles.pairwise (h : Tiles lo hi bs) : bs.Pairwise Block.Apart := by
  apply pairwise_of_owners_le_one
  intro x
  rw [h x]
  split_ifs <;> omega

/-- Blocks that are apart, in terms of their ends. -/
theorem Block.Apart.ends {c : Block} (h : b.Apart c) (hb : 0 < b.2) (hc : 0 < c.2) :
    b.1 + b.2 ≤ c.1 ∨ c.1 + c.2 ≤ b.1 := by
  by_contra hover
  exact h (max b.1 c.1) ⟨⟨by omega, by omega⟩, by omega, by omega⟩

instance : Std.Symm Block.Apart := ⟨fun _ _ h x hx => h x hx.symm⟩

/-- Different blocks of a tiling are apart. -/
theorem Tiles.apart {c : Block} (h : Tiles lo hi bs) (hb : b ∈ bs) (hc : c ∈ bs) (hne : b ≠ c) :
    b.Apart c :=
  h.pairwise.forall hb hc hne

/-- Blocks from the two halves of a tiling are apart. -/
theorem Tiles.apart_append {c : Block} (h : Tiles lo hi (bs ++ cs)) (hb : b ∈ bs) (hc : c ∈ cs) :
    b.Apart c :=
  (List.pairwise_append.mp h.pairwise).2.2 b hb c hc

/-- Blocks that are pairwise apart own each address at most once. -/
theorem owners_le_one (h : bs.Pairwise Block.Apart) (x : Nat) : owners bs x ≤ 1 := by
  induction bs with
  | nil => exact Nat.zero_le 1
  | cons b bs ih =>
      rw [List.pairwise_cons] at h
      rw [owners_cons]
      by_cases hb : b.Has x
      · have hzero : owners bs x = 0 := by
          rw [owners, List.countP_eq_zero]
          intro c hc hcx
          exact h.1 c hc x ⟨hb, of_decide_eq_true hcx⟩
        simp [hb, hzero]
      · rw [if_neg hb]
        have := ih h.2
        omega

/-- Blocks that are apart have no more addresses than there are below `n`, if
all of them end there. -/
theorem sum_le_of_apart {n : Nat} (h : bs.Pairwise Block.Apart) (hin : ∀ b ∈ bs, b.1 + b.2 ≤ n) :
    (bs.map Prod.snd).sum ≤ n := by
  -- the addresses of the blocks, as a set
  have hcard : ∃ S : Finset Nat, S.card = (bs.map Prod.snd).sum ∧
      ∀ x, x ∈ S ↔ ∃ b ∈ bs, b.Has x := by
    clear hin
    induction bs with
    | nil => exact ⟨∅, rfl, by simp⟩
    | cons b bs ih =>
        obtain ⟨hb, hbs⟩ := List.pairwise_cons.mp h
        obtain ⟨S, hS, hmem⟩ := ih hbs
        have hdisj : Disjoint (Finset.Ico b.1 (b.1 + b.2)) S := by
          rw [Finset.disjoint_left]
          intro x hx hxS
          obtain ⟨c, hc, hcx⟩ := (hmem x).mp hxS
          exact hb c hc x ⟨Finset.mem_Ico.mp hx, hcx⟩
        refine ⟨Finset.Ico b.1 (b.1 + b.2) ∪ S, ?_, fun x => ?_⟩
        · rw [Finset.card_union_of_disjoint hdisj, Nat.card_Ico, hS, List.map_cons, List.sum_cons]
          omega
        · rw [Finset.mem_union, Finset.mem_Ico, hmem x, List.exists_mem_cons_iff]
          rfl
  obtain ⟨S, hS, hmem⟩ := hcard
  have hsub : S ⊆ Finset.range n := by
    intro x hx
    obtain ⟨b, hb, hbx⟩ := (hmem x).mp hx
    have hend := hin b hb
    have hlt := hbx.2
    rw [Finset.mem_range]
    omega
  have hle := Finset.card_le_card hsub
  rw [Finset.card_range] at hle
  omega

theorem tiles_of_pairwise (h : bs.Pairwise Block.Apart)
    (hcover : ∀ x, (∃ b ∈ bs, b.Has x) ↔ lo ≤ x ∧ x < hi) : Tiles lo hi bs := by
  intro x
  split_ifs with hx
  · obtain ⟨b, hb, hbx⟩ := (hcover x).mpr hx
    have h1 := owners_pos hb hbx
    have h2 := owners_le_one h x
    omega
  · rw [owners, List.countP_eq_zero]
    intro b hb hbx
    exact hx ((hcover x).mp ⟨b, hb, of_decide_eq_true hbx⟩)

/-- Blocks whose length is determined by their start and that own the same
addresses start at the same places. -/
theorem mem_of_owners_eq {len : Nat → Nat} (hlen : ∀ n, 0 < len n) {as bs : List Nat}
    (has : (as.map fun n => (n, len n)).Pairwise Block.Apart)
    (hbs : (bs.map fun n => (n, len n)).Pairwise Block.Apart)
    (heq : ∀ x, owners (as.map fun n => (n, len n)) x = owners (bs.map fun n => (n, len n)) x)
    (n : Nat) (hn : n ∈ as) : n ∈ bs := by
  -- an address of one family lies in a block of the other
  have hfind : ∀ {cs ds : List Nat}, (∀ x, owners (cs.map fun n => (n, len n)) x
      = owners (ds.map fun n => (n, len n)) x) → ∀ m ∈ cs, ∃ r ∈ ds, r ≤ m ∧ m < r + len r := by
    intro cs ds h m hm
    have hpos : 0 < owners (cs.map fun n => (n, len n)) m := by
      have := hlen m
      exact owners_pos (List.mem_map_of_mem hm) ⟨Nat.le_refl m, by simp only; omega⟩
    rw [h m] at hpos
    obtain ⟨b, hb, hx⟩ := List.countP_pos_iff.mp hpos
    obtain ⟨r, hr, rfl⟩ := List.mem_map.mp hb
    exact ⟨r, hr, of_decide_eq_true hx⟩
  have huniq : ∀ {cs : List Nat}, (cs.map fun n => (n, len n)).Pairwise Block.Apart →
      ∀ r ∈ cs, ∀ m ∈ cs, ∀ x, r ≤ x → x < r + len r → m ≤ x → x < m + len m → r = m := by
    intro cs hcs r hr m hm x h1 h2 h3 h4
    by_contra hne
    exact hcs.forall (List.mem_map_of_mem hr) (List.mem_map_of_mem hm)
      (fun h => hne (congrArg Prod.fst h)) x ⟨⟨h1, h2⟩, h3, h4⟩
  induction n using Nat.strongRecOn with
  | ind n ih =>
      have hpos := hlen n
      obtain ⟨m, hm, hle, hlt⟩ := hfind heq n hn
      by_cases hmn : m = n
      · exact hmn ▸ hm
      · -- `m` lies in a block of `as` that starts before `n`, which is its own
        obtain ⟨r, hr, hrm, hmr⟩ := hfind (fun x => (heq x).symm) m hm
        have hposm := hlen m
        have hrbs := ih r (by omega) hr
        have hrm' := huniq hbs r hrbs m hm m hrm hmr (Nat.le_refl m) (by omega)
        have := huniq has r hr n hn n (by omega) (by rw [hrm']; exact hlt) (Nat.le_refl n)
          (by omega)
        omega

/-- Blocks that are apart start at different places. -/
theorem nodup_of_apart {len : Nat → Nat} (hlen : ∀ n, 0 < len n) {as : List Nat}
    (h : (as.map fun n => (n, len n)).Pairwise Block.Apart) : as.Nodup := by
  rw [List.pairwise_map] at h
  refine h.imp fun {a b} hab => ?_
  intro heq
  subst heq
  have := hlen a
  have hhas : Block.Has (a, len a) a := ⟨Nat.le_refl a, by simp only; omega⟩
  exact hab a ⟨hhas, hhas⟩

/-- Blocks that own the same addresses are the same blocks. -/
theorem perm_of_owners_eq {len : Nat → Nat} (hlen : ∀ n, 0 < len n) {as bs : List Nat}
    (has : (as.map fun n => (n, len n)).Pairwise Block.Apart)
    (hbs : (bs.map fun n => (n, len n)).Pairwise Block.Apart)
    (heq : ∀ x, owners (as.map fun n => (n, len n)) x = owners (bs.map fun n => (n, len n)) x) :
    as.Perm bs := by
  rw [List.perm_ext_iff_of_nodup (nodup_of_apart hlen has) (nodup_of_apart hlen hbs)]
  exact fun n => ⟨mem_of_owners_eq hlen has hbs heq n,
    mem_of_owners_eq hlen hbs has (fun x => (heq x).symm) n⟩

end Os377.Lib
