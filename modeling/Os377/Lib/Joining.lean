import Os377.Lib.Intervals
import Mathlib.Data.List.Chain

/-!
# Joining neighbours in one pass

`joinPass` goes through a list of blocks once and joins each block with the
next one if the two touch. The joined block is not looked at again, so a run
of blocks that touch is joined in pairs.

* `owners_joinPass` — no address gets lost;
* `joinPass_cons_parted` — putting one block in front of a list in which no
  neighbours touch, one pass is enough;
* `parted_joinPass_iff` — it is, on any list, unless three blocks in a row touch;
* `hasRoom_iff` — how long the blocks can get.
-/

namespace Os377.Lib

/-- The second block begins where the first one ends. -/
def Block.Touches (b c : Block) : Prop := b.1 + b.2 = c.1

instance (b c : Block) : Decidable (b.Touches c) := inferInstanceAs (Decidable (_ = _))

/-- One pass from the front. -/
def joinPass : List Block → List Block
  | [] => []
  | [b] => [b]
  | b :: c :: rest =>
      if b.Touches c then (b.1, b.2 + c.2) :: joinPass rest else b :: joinPass (c :: rest)

/-- No block of the list touches the next one. -/
def Parted (bs : List Block) : Prop := bs.IsChain fun b c => ¬ b.Touches c

/-- Three blocks in a row, of which each touches the next one. -/
inductive Threes : List Block → Prop
  | here {b c d rest} : b.Touches c → c.Touches d → Threes (b :: c :: d :: rest)
  | there {b rest} : Threes rest → Threes (b :: rest)

/-- The pass leaves a block of `k` addresses: one block is long enough, or two
that touch are, and the blocks before them join up among themselves. -/
inductive HasRoom (k : Nat) : List Block → Prop
  | one {b rest} : k ≤ b.2 → HasRoom k (b :: rest)
  | two {b c rest} : b.Touches c → k ≤ b.2 + c.2 → HasRoom k (b :: c :: rest)
  | skip {b c rest} : ¬ b.Touches c → HasRoom k (c :: rest) → HasRoom k (b :: c :: rest)
  | skipTwo {b c rest} : b.Touches c → HasRoom k rest → HasRoom k (b :: c :: rest)

variable {b c : Block} {bs rest : List Block} {k : Nat}

theorem joinPass_of_touches (h : b.Touches c) :
    joinPass (b :: c :: rest) = (b.1, b.2 + c.2) :: joinPass rest := by
  rw [joinPass, if_pos h]

theorem joinPass_of_not_touches (h : ¬ b.Touches c) :
    joinPass (b :: c :: rest) = b :: joinPass (c :: rest) := by
  rw [joinPass, if_neg h]

/-- Joining keeps every address. -/
theorem owners_joinPass (bs : List Block) (x : Nat) : owners (joinPass bs) x = owners bs x := by
  induction bs using joinPass.induct with
  | case1 => rfl
  | case2 b => rfl
  | case3 b c rest htouch ih =>
      have hc : c = (b.1 + b.2, c.2) := Prod.ext (Eq.symm htouch) rfl
      have hcut : owners ((b.1, b.2 + c.2) :: rest) x = owners (b :: c :: rest) x := by
        rw [owners_split, ← hc]
      rw [joinPass_of_touches htouch, owners_cons, ih, ← owners_cons, hcut]
  | case4 b c rest htouch ih =>
      rw [joinPass_of_not_touches htouch, owners_cons, ih, ← owners_cons]

/-- Joining keeps the number of addresses. -/
theorem sum_joinPass (bs : List Block) :
    ((joinPass bs).map Prod.snd).sum = (bs.map Prod.snd).sum := by
  induction bs using joinPass.induct with
  | case1 => rfl
  | case2 b => rfl
  | case3 b c rest htouch ih =>
      rw [joinPass_of_touches htouch]
      simp only [List.map_cons, List.sum_cons]
      rw [ih, Nat.add_assoc]
  | case4 b c rest htouch ih =>
      rw [joinPass_of_not_touches htouch, List.map_cons, List.sum_cons, ih]
      rfl

/-- What holds of the blocks, and of two that are joined, holds after the pass. -/
theorem joinPass_forall {P : Block → Prop}
    (hjoin : ∀ b c, b.Touches c → P b → P c → P (b.1, b.2 + c.2)) (h : ∀ b ∈ bs, P b) :
    ∀ b ∈ joinPass bs, P b := by
  induction bs using joinPass.induct with
  | case1 => exact h
  | case2 b => exact h
  | case3 b c rest htouch ih =>
      intro d hd
      rw [joinPass_of_touches htouch] at hd
      rcases List.mem_cons.mp hd with rfl | hd
      · exact hjoin b c htouch (h b (by simp)) (h c (by simp))
      · exact ih (fun e he => h e (by simp [he])) d hd
  | case4 b c rest htouch ih =>
      intro d hd
      rw [joinPass_of_not_touches htouch] at hd
      rcases List.mem_cons.mp hd with rfl | hd
      · exact h d List.mem_cons_self
      · exact ih (fun e he => h e (List.mem_cons_of_mem _ he)) d hd

/-- The first block stays where it begins. -/
theorem joinPass_head (b : Block) (rest : List Block) :
    ∃ k tail, joinPass (b :: rest) = (b.1, k) :: tail := by
  cases rest with
  | nil => exact ⟨b.2, [], rfl⟩
  | cons c rest =>
      by_cases htouch : b.Touches c
      · exact ⟨_, _, joinPass_of_touches htouch⟩
      · exact ⟨_, _, joinPass_of_not_touches htouch⟩

/-- **One pass is not enough** exactly if three blocks in a row touch: the third
one begins where the first two, joined, end. -/
theorem parted_joinPass_iff (bs : List Block) : Parted (joinPass bs) ↔ ¬ Threes bs := by
  induction bs using joinPass.induct with
  | case1 => exact iff_of_true List.isChain_nil fun h => by cases h
  | case2 b =>
      refine iff_of_true (List.isChain_singleton b) fun h => ?_
      cases h with
      | there h => cases h
  | case3 b c rest htouch ih =>
      rw [joinPass_of_touches htouch]
      cases rest with
      | nil =>
          refine iff_of_true (List.isChain_singleton _) fun h => ?_
          cases h with
          | there h =>
              cases h with
              | there h => cases h
      | cons d rest =>
          obtain ⟨k, tail, hhead⟩ := joinPass_head d rest
          rw [hhead] at ih ⊢
          have hend : b.1 + b.2 = c.1 := htouch
          constructor
          · intro hparted hthrees
            obtain ⟨hgap, hrest⟩ := List.isChain_cons_cons.mp hparted
            have hcd : ¬ c.Touches d := by
              intro hcd
              have hnext : c.1 + c.2 = d.1 := hcd
              apply hgap
              show b.1 + (b.2 + c.2) = d.1
              omega
            cases hthrees with
            | here _ h => exact hcd h
            | there h =>
                cases h with
                | here h _ => exact hcd h
                | there h => exact ih.mp hrest h
          · intro hthrees
            refine List.isChain_cons_cons.mpr ⟨fun hgap => ?_, ?_⟩
            · have hnext : b.1 + (b.2 + c.2) = d.1 := hgap
              apply hthrees
              refine .here htouch ?_
              show c.1 + c.2 = d.1
              omega
            · exact ih.mpr fun h => hthrees (.there (.there h))
  | case4 b c rest htouch ih =>
      obtain ⟨k, tail, hhead⟩ := joinPass_head c rest
      rw [joinPass_of_not_touches htouch]
      rw [hhead] at ih ⊢
      constructor
      · intro hparted hthrees
        cases hthrees with
        | here h _ => exact htouch h
        | there h => exact ih.mp (List.isChain_cons_cons.mp hparted).2 h
      · intro hthrees
        exact List.isChain_cons_cons.mpr ⟨htouch, ih.mpr fun h => hthrees (.there h)⟩

/-- Without neighbours that touch there is nothing to join. -/
theorem joinPass_parted (h : Parted bs) : joinPass bs = bs := by
  induction bs using joinPass.induct with
  | case1 => rfl
  | case2 b => rfl
  | case3 b c rest htouch ih => exact absurd htouch (List.isChain_cons_cons.mp h).1
  | case4 b c rest htouch ih =>
      rw [joinPass_of_not_touches htouch, ih (List.isChain_cons_cons.mp h).2]

/-- **One pass is enough** after a block was put in front of a list in which
no neighbours touch: if it is joined with the first block of the list, the
joined block ends where that one ended. -/
theorem joinPass_cons_parted (h : Parted bs) : Parted (joinPass (b :: bs)) := by
  cases bs with
  | nil => exact List.isChain_singleton b
  | cons c rest =>
      by_cases htouch : b.Touches c
      · rw [joinPass_of_touches htouch]
        cases rest with
        | nil => exact List.isChain_singleton _
        | cons d rest =>
            obtain ⟨hcd, hrest⟩ := List.isChain_cons_cons.mp h
            rw [joinPass_parted hrest]
            refine List.isChain_cons_cons.mpr ⟨fun hbd => hcd ?_, hrest⟩
            have hend : b.1 + b.2 = c.1 := htouch
            have hnext : b.1 + (b.2 + c.2) = d.1 := hbd
            show c.1 + c.2 = d.1
            omega
      · rw [joinPass_of_not_touches htouch, joinPass_parted h]
        exact List.isChain_cons_cons.mpr ⟨htouch, h⟩

/-- A block that is long enough gives room, wherever it is. -/
theorem HasRoom.of_mem (hb : b ∈ bs) (hk : k ≤ b.2) : HasRoom k bs := by
  induction bs using joinPass.induct with
  | case1 => cases hb
  | case2 c =>
      rw [List.mem_singleton] at hb
      exact hb ▸ .one hk
  | case3 c d rest htouch ih =>
      rcases List.mem_cons.mp hb with heq | hb
      · exact heq ▸ .one hk
      · rcases List.mem_cons.mp hb with heq | hb
        · exact .two htouch (by rw [← heq]; omega)
        · exact .skipTwo htouch (ih hb)
  | case4 c d rest htouch ih =>
      rcases List.mem_cons.mp hb with heq | hb
      · exact heq ▸ .one hk
      · exact .skip htouch (ih hb)

/-- **Room after a pass**, in terms of the blocks before it. -/
theorem hasRoom_iff (bs : List Block) : HasRoom k bs ↔ ∃ b ∈ joinPass bs, k ≤ b.2 := by
  constructor
  · intro h
    induction h with
    | @one b rest hk =>
        cases rest with
        | nil => exact ⟨b, List.mem_singleton_self b, hk⟩
        | cons c rest =>
            by_cases htouch : b.Touches c
            · rw [joinPass_of_touches htouch]
              exact ⟨_, List.mem_cons_self, Nat.le_trans hk (Nat.le_add_right _ _)⟩
            · rw [joinPass_of_not_touches htouch]
              exact ⟨b, List.mem_cons_self, hk⟩
    | two htouch hk =>
        rw [joinPass_of_touches htouch]
        exact ⟨_, List.mem_cons_self, hk⟩
    | skip htouch _ ih =>
        obtain ⟨d, hd, hk⟩ := ih
        rw [joinPass_of_not_touches htouch]
        exact ⟨d, List.mem_cons_of_mem _ hd, hk⟩
    | skipTwo htouch _ ih =>
        obtain ⟨d, hd, hk⟩ := ih
        rw [joinPass_of_touches htouch]
        exact ⟨d, List.mem_cons_of_mem _ hd, hk⟩
  · rintro ⟨d, hd, hk⟩
    induction bs using joinPass.induct with
    | case1 => cases hd
    | case2 b =>
        rw [joinPass, List.mem_singleton] at hd
        exact hd ▸ .one hk
    | case3 b c rest htouch ih =>
        rw [joinPass_of_touches htouch] at hd
        rcases List.mem_cons.mp hd with heq | hd
        · subst heq
          exact .two htouch hk
        · exact .skipTwo htouch (ih hd)
    | case4 b c rest htouch ih =>
        rw [joinPass_of_not_touches htouch] at hd
        rcases List.mem_cons.mp hd with heq | hd
        · exact heq ▸ .one hk
        · exact .skip htouch (ih hd)

/-- A block in front of a list in which no neighbours touch. -/
theorem hasRoom_cons_parted (h : Parted bs) :
    HasRoom k (b :: bs) ↔ k ≤ b.2 ∨ (∃ c ∈ bs, k ≤ c.2) ∨
      ∃ c rest, bs = c :: rest ∧ b.Touches c ∧ k ≤ b.2 + c.2 := by
  constructor
  · intro hroom
    obtain ⟨d, hd, hk⟩ := (hasRoom_iff _).mp hroom
    cases bs with
    | nil =>
        rw [joinPass, List.mem_singleton] at hd
        exact .inl (hd ▸ hk)
    | cons c rest =>
        by_cases htouch : b.Touches c
        · have hrest : Parted rest := h.tail
          rw [joinPass_of_touches htouch, joinPass_parted hrest] at hd
          rcases List.mem_cons.mp hd with heq | hd
          · subst heq
            exact .inr (.inr ⟨c, rest, rfl, htouch, hk⟩)
          · exact .inr (.inl ⟨d, List.mem_cons_of_mem _ hd, hk⟩)
        · rw [joinPass_of_not_touches htouch, joinPass_parted h] at hd
          rcases List.mem_cons.mp hd with heq | hd
          · exact .inl (heq ▸ hk)
          · exact .inr (.inl ⟨d, hd, hk⟩)
  · intro hroom
    rcases hroom with hk | ⟨c, hc, hk⟩ | ⟨c, rest, heq, htouch, hk⟩
    · exact .one hk
    · exact .of_mem (List.mem_cons_of_mem _ hc) hk
    · exact heq ▸ .two htouch hk

end Os377.Lib
