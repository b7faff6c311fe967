import Os377.Salloc.Allocator
import Mathlib.Data.Int.Order.Basic
import Mathlib.Data.Int.Range
import Mathlib.Data.List.Basic

/-!
# The free list

Calls that free what the callers hold keep the list in order and covering
exactly the free bytes, as long as `free` does not have to insert a node in
front of others that it would lose: the branch for a new node between two
nodes never links the rest of the list. Empty nodes, which `allocate` leaves
behind, can make `free` refuse memory that is not free, or follow a `NULL`.
-/

namespace Os377.Salloc

open Os377.Lib

variable {s s' : State} {nodes nodes' before rest : List MemNode} {n p m : MemNode}
  {size start len : Int}

/-- The nodes in order, without overlap. -/
abbrev InOrder (nodes : List MemNode) : Prop := Ranged MemNode.addr MemNode.last nodes

/-- Some node covers the byte `x`. -/
abbrev Free (nodes : List MemNode) (x : Int) : Prop := Covered MemNode.addr MemNode.last nodes x

/-- The list is in order and inside the memory, and covers exactly the bytes
that are not allocated. -/
structure Sound (s : State) : Prop where
  ranged : InOrder s.nodes
  inside : ∀ n ∈ s.nodes, 0 ≤ n.addr ∧ n.last ≤ s.startingSize
  covers : ∀ x, Free s.nodes x ↔ (0 ≤ x ∧ x < s.startingSize) ∧ s.allocated x = false

/-- A request for at least one byte; giving back at least one byte, all of
them allocated. -/
def Legal (s : State) : Act → Prop
  | .allocate size => 1 ≤ size
  | .free start len => 1 ≤ len ∧ 0 ≤ start ∧ start + len ≤ s.startingSize ∧
      ∀ x, start ≤ x → x < start + len → s.allocated x = true

instance (s : State) : (a : Act) → Decidable (Legal s a)
  | .allocate size => inferInstanceAs (Decidable (1 ≤ size))
  | .free start len => inferInstanceAs (Decidable (1 ≤ len ∧ 0 ≤ start ∧
      start + len ≤ s.startingSize ∧ ∀ x, start ≤ x → x < start + len → s.allocated x = true))

/-- `free` returns true. -/
def Succeeds (s : State) : Act → Prop
  | .allocate _ => True
  | .free start len =>
      ∃ r, free s.startingSize s.nodes start len = .ok r ∧ r.ret = true

/-- A new node at `start` goes in front of the first node, behind the last one,
or before nodes that are all empty. -/
def Room (start len : Int) : List MemNode → Prop
  | [] => False
  | head :: rest =>
      if start < head.addr then start + len ≤ head.addr
      else (∀ n ∈ head :: rest, n.addr < start) ∨
        ((∃ n ∈ rest, start ≤ n.addr) ∧
          ∀ n ∈ rest, start ≤ n.addr → start + len ≤ n.addr ∧ n.len = 0)

instance (start len : Int) : (nodes : List MemNode) → Decidable (Room start len nodes)
  | [] => inferInstanceAs (Decidable False)
  | head :: rest => inferInstanceAs (Decidable (if start < head.addr then start + len ≤ head.addr
      else (∀ n ∈ head :: rest, n.addr < start) ∨
        ((∃ n ∈ rest, start ≤ n.addr) ∧
          ∀ n ∈ rest, start ≤ n.addr → start + len ≤ n.addr ∧ n.len = 0)))

def Insertable (s : State) : Act → Prop
  | .allocate _ => True
  | .free start len => Room start len s.nodes

instance (s : State) : (a : Act) → Decidable (Insertable s a)
  | .allocate _ => inferInstanceAs (Decidable True)
  | .free start len => inferInstanceAs (Decidable (Room start len s.nodes))

theorem mark_true {a b x : Int} :
    s.mark a b true x = false ↔ s.allocated x = false ∧ ¬ (a ≤ x ∧ x < b) := by
  rw [State.mark]
  split
  · next h => simp [h]
  · next h => simp [h]

theorem mark_false {a b x : Int} :
    s.mark a b false x = false ↔ (a ≤ x ∧ x < b) ∨ s.allocated x = false := by
  rw [State.mark]
  split
  · next h => simp [h]
  · next h => simp [h]

/-! ## `allocate` -/

/-- Merging neighbours keeps the order and the bytes; the ends of the new
nodes are ends of old ones. -/
theorem coalesceFrom_spec (temp : MemNode) (rest : List MemNode)
    (h : InOrder (temp :: rest)) :
    InOrder (coalesceFrom temp rest) ∧
      (∀ x, Free (coalesceFrom temp rest) x ↔ Free (temp :: rest) x) ∧
      ∀ n ∈ coalesceFrom temp rest,
        (∃ m ∈ temp :: rest, n.addr = m.addr) ∧ ∃ m ∈ temp :: rest, n.last = m.last := by
  induction rest generalizing temp with
  | nil => exact ⟨h, fun _ => Iff.rfl, fun n hn => ⟨⟨n, hn, rfl⟩, n, hn, rfl⟩⟩
  | cons next rest ih =>
      obtain ⟨htemp, hnext, hbehind⟩ := ranged_cons.mp h
      rw [coalesceFrom]
      split
      · next hadj =>
          have hlast : MemNode.last { temp with len := temp.len + next.len } = next.last := by
            simp only [MemNode.last]
            omega
          obtain ⟨hmerged, hsame⟩ :=
            h.merge (t := { temp with len := temp.len + next.len }) hadj rfl hlast
          obtain ⟨h1, h2, h3⟩ := ih _ hmerged
          refine ⟨h1, fun x => (h2 x).trans (hsame x), fun n hn => ?_⟩
          obtain ⟨⟨m, hm, ha⟩, m', hm', hl⟩ := h3 n hn
          constructor
          · rcases List.mem_cons.mp hm with rfl | hm
            · exact ⟨temp, by simp, ha⟩
            · exact ⟨m, by simp [hm], ha⟩
          · rcases List.mem_cons.mp hm' with rfl | hm'
            · exact ⟨next, by simp, hl.trans hlast⟩
            · exact ⟨m', by simp [hm'], hl⟩
      · obtain ⟨h1, h2, h3⟩ := ih next hnext
        refine ⟨ranged_cons.mpr ⟨htemp, h1, fun m hm => ?_⟩, fun x => ?_, fun n hn => ?_⟩
        · obtain ⟨m', hm', ha⟩ := (h3 m hm).1
          rw [ha]
          exact hbehind m' hm'
        · exact covered_cons.trans ((or_congr_right (h2 x)).trans covered_cons.symm)
        · rcases List.mem_cons.mp hn with rfl | hn
          · exact ⟨⟨n, List.mem_cons_self, rfl⟩, n, List.mem_cons_self, rfl⟩
          · obtain ⟨⟨m, hm, ha⟩, m', hm', hl⟩ := h3 n hn
            exact ⟨⟨m, List.mem_cons_of_mem _ hm, ha⟩, m', List.mem_cons_of_mem _ hm', hl⟩

/-- `coalesce` changes the list, not what it stands for. -/
theorem Sound.coalesce (h : Sound s) : Sound { s with nodes := coalesce s.nodes } := by
  cases hnodes : s.nodes with
  | nil =>
      have hsame : { s with nodes := Salloc.coalesce [] } = s := by
        rw [Salloc.coalesce, ← hnodes]
      exact hsame ▸ h
  | cons head rest =>
      obtain ⟨h1, h2, h3⟩ := coalesceFrom_spec head rest (hnodes ▸ h.ranged)
      refine ⟨h1, fun n hn => ?_, fun x => (h2 x).trans (hnodes ▸ h.covers x)⟩
      obtain ⟨⟨m, hm, ha⟩, m', hm', hl⟩ := h3 n hn
      rw [ha, hl]
      exact ⟨(h.inside m (hnodes ▸ hm)).1, (h.inside m' (hnodes ▸ hm')).2⟩

/-- First fit. -/
theorem firstFit_spec (size : Int) (nodes : List MemNode) :
    (firstFit size nodes = none ∧ ∀ n ∈ nodes, n.len < size) ∨
      ∃ before n behind, firstFit size nodes = some (before, n, behind) ∧
        nodes = before ++ n :: behind ∧ size ≤ n.len ∧ ∀ m ∈ before, m.len < size := by
  induction nodes with
  | nil => exact Or.inl ⟨rfl, by simp⟩
  | cons temp next ih =>
      rw [firstFit]
      by_cases hlen : temp.len ≥ size
      · rw [if_pos hlen]
        exact Or.inr ⟨[], temp, next, rfl, rfl, hlen, by simp⟩
      · rw [if_neg hlen]
        rcases ih with ⟨hnone, hall⟩ | ⟨before, n, behind, hsome, rfl, hfit, hall⟩
        · refine Or.inl ⟨by rw [hnone]; rfl, fun m hm => ?_⟩
          rcases List.mem_cons.mp hm with rfl | hm
          · omega
          · exact hall m hm
        · refine Or.inr ⟨temp :: before, n, behind, by rw [hsome]; rfl, rfl, hfit, fun m hm => ?_⟩
          rcases List.mem_cons.mp hm with rfl | hm
          · omega
          · exact hall m hm

/-- `allocate` takes the front of a node. -/
theorem Sound.allocate (h : Sound s) (hsize : 1 ≤ size) :
    ∃ s', next s (.allocate size) = some s' ∧ Sound s' := by
  refine ⟨_, rfl, ?_⟩
  have hc := h.coalesce
  rcases firstFit_spec size (Salloc.coalesce s.nodes) with
    ⟨hnone, -⟩ | ⟨before, n, behind, hsome, hnodes, hfit, -⟩
  · simp only [Salloc.allocate, hnone]
    exact hc
  · simp only [Salloc.allocate, hsome]
    have hranged := hc.ranged
    have hinside := hc.inside
    have hcovers := hc.covers
    simp only [hnodes] at hranged hinside hcovers
    obtain ⟨hr, hcut⟩ := hranged.takeFront
      (t := { n with len := n.len - size, addr := n.addr + size })
      (by simp only; omega) (by simp only [MemNode.last]; omega)
      (by simp only [MemNode.last]; omega)
    refine ⟨hr, fun m hm => ?_, fun x => ?_⟩
    · rcases List.mem_append.mp hm with hm | hm
      · exact hinside m (List.mem_append_left _ hm)
      rcases List.mem_cons.mp hm with rfl | hm
      · obtain ⟨h0, hlast⟩ := hinside n (by simp)
        simp only [MemNode.last] at hlast ⊢
        omega
      · exact hinside m (by simp [hm])
    · refine (hcut x).trans ((and_congr_left' (hcovers x)).trans ?_)
      dsimp only
      rw [mark_true, and_assoc]

/-! ## `free` -/

/-- The loop goes past the nodes below `start`, up to the last one. -/
theorem freeLoop_walk (startingSize start len : Int) (hp : p.addr < start)
    (hbefore : ∀ n ∈ nodes, n.addr < start) (visited rest : List MemNode) :
    freeLoop startingSize start len visited (nodes ++ p :: rest)
      = freeLoop startingSize start len (visited ++ nodes) (p :: rest) := by
  induction nodes generalizing visited with
  | nil => rw [List.append_nil, List.nil_append]
  | cons n nodes ih =>
      have hn : n.addr < start := hbefore n List.mem_cons_self
      obtain ⟨m, tail, hnext, hm⟩ : ∃ m tail, nodes ++ p :: rest = m :: tail ∧ m.addr < start := by
        cases nodes with
        | nil => exact ⟨p, rest, rfl, hp⟩
        | cons m nodes => exact ⟨m, nodes ++ p :: rest, rfl, hbefore m (by simp)⟩
      have hstep := ih (fun k hk => hbefore k (List.mem_cons_of_mem _ hk)) (visited ++ [n])
      rw [List.append_assoc, List.singleton_append] at hstep
      rw [← hstep, List.cons_append, hnext, freeLoop]
      simp only [if_neg (show ¬ n.addr > start by omega), reduceCtorEq, and_false, if_false,
        if_neg (show ¬ m.addr ≥ start by omega), ite_self]

/-- In front of a node. -/
theorem freeLoop_front {startingSize : Int} (hn : start < n.addr) (visited rest : List MemNode) :
    freeLoop startingSize start len visited (n :: rest)
      = .ok (if n.addr < start + len then ⟨visited ++ n :: rest, false, some .doubleFree⟩
          else ⟨⟨start, len⟩ :: n :: rest, true, none⟩) := by
  rw [freeLoop.eq_def]
  simp only [if_pos (show n.addr > start from hn)]
  split <;> rfl

/-- At the last node. -/
theorem freeLoop_end {startingSize : Int} (hp : p.addr < start) (visited : List MemNode) :
    freeLoop startingSize start len visited [p]
      = .ok (if startingSize < start + len then ⟨visited ++ [p], false, some .outOfBounds⟩
          else ⟨visited ++ [p, ⟨start, len⟩], true, none⟩) := by
  rw [freeLoop]
  simp only [if_neg (show ¬ p.addr > start by omega), and_true, if_pos hp, gt_iff_lt]
  split <;> rfl

/-- At a node with a successor from `start` on. -/
theorem freeLoop_between {startingSize : Int} (hp : p.addr ≤ start) (hlast : p.last ≤ start)
    (hm : start ≤ m.addr) (visited rest : List MemNode) :
    freeLoop startingSize start len visited (p :: m :: rest)
      = .ok (if m.addr < start + len then ⟨visited ++ p :: m :: rest, false, some .doubleFree⟩
          else ⟨visited ++ [p, ⟨start, len⟩], true, none⟩) := by
  rw [MemNode.last] at hlast
  rw [freeLoop]
  simp only [if_neg (show ¬ p.addr > start by omega), reduceCtorEq, and_false, if_false,
    if_pos hlast, if_pos (show m.addr ≥ start from hm)]
  split <;> rfl

section Free

variable (h : Sound s) (hl : Legal s (.free start len))
include h hl

/-- No node covers a byte that is given back. -/
theorem not_free_of_legal {x : Int} (h1 : start ≤ x) (h2 : x < start + len) :
    ¬ Free s.nodes x := by
  intro hx
  have := ((h.covers x).mp hx).2
  rw [hl.2.2.2 x h1 h2] at this
  cases this

/-- Nodes that start below the range end before it. -/
theorem last_le_of_legal (hn : n ∈ s.nodes) (hlt : n.addr ≤ start) : n.last ≤ start := by
  by_contra hgt
  have := hl.1
  exact not_free_of_legal h hl (le_refl start) (by omega) ⟨n, hn, hlt, by omega⟩

/-- What the list has to be after the call. -/
theorem sound_released_iff (nodes : List MemNode) :
    Sound { s with nodes := nodes, allocated := s.mark start (start + len) false } ↔
      InOrder nodes ∧ (∀ n ∈ nodes, 0 ≤ n.addr ∧ n.last ≤ s.startingSize) ∧
        ∀ x, Free nodes x ↔ (start ≤ x ∧ x < start + len) ∨ Free s.nodes x := by
  obtain ⟨-, h0, hS, -⟩ := hl
  have hbytes : ∀ x, ((start ≤ x ∧ x < start + len) ∨ Free s.nodes x) ↔
      (0 ≤ x ∧ x < s.startingSize) ∧ s.mark start (start + len) false x = false := by
    intro x
    rw [h.covers x, mark_false]
    constructor
    · rintro (hx | ⟨hx, ha⟩)
      · exact ⟨by omega, Or.inl hx⟩
      · exact ⟨hx, Or.inr ha⟩
    · rintro ⟨hx, hr | ha⟩
      · exact Or.inl hr
      · exact Or.inr ⟨hx, ha⟩
  constructor
  · rintro ⟨h1, h2, h3⟩
    exact ⟨h1, h2, fun x => (h3 x).trans (hbytes x).symm⟩
  · rintro ⟨h1, h2, h3⟩
    exact ⟨h1, h2, fun x => (h3 x).trans (hbytes x)⟩

variable {behind : List MemNode} (hnodes : s.nodes = before ++ behind)
  (hbefore : ∀ n ∈ before, n.addr ≤ start) (hbehind : ∀ n ∈ behind, start + len ≤ n.addr)
include hnodes hbefore hbehind

/-- A new node between two parts of the list. -/
theorem sound_insert : Sound
    { s with
      nodes := before ++ ⟨start, len⟩ :: behind
      allocated := s.mark start (start + len) false } := by
  have hranged := h.ranged
  rw [hnodes] at hranged
  have hlen := hl.1
  have hends : ∀ n ∈ before, n.last ≤ start := fun n hn =>
    last_le_of_legal h hl (hnodes ▸ List.mem_append_left _ hn) (hbefore n hn)
  refine (sound_released_iff h hl _).mpr ⟨?_, fun n hn => ?_, fun x => ?_⟩
  · exact hranged.insert (n := (⟨start, len⟩ : MemNode)) (by simp only [MemNode.last]; omega)
      hends hbehind
  · rcases List.mem_append.mp hn with hn | hn
    · exact h.inside n (hnodes ▸ List.mem_append_left _ hn)
    rcases List.mem_cons.mp hn with rfl | hn
    · exact ⟨hl.2.1, hl.2.2.1⟩
    · exact h.inside n (hnodes ▸ List.mem_append_right _ hn)
  · rw [hnodes]
    refine covered_append.trans ((or_congr_right covered_cons).trans ?_)
    exact or_left_comm.trans (or_congr_right covered_append.symm)

/-- Without the part behind the new node, the list covers what it should
exactly if that part is empty nodes. -/
theorem sound_drop_iff : Sound
    { s with
      nodes := before ++ [⟨start, len⟩]
      allocated := s.mark start (start + len) false } ↔ ∀ n ∈ behind, n.len = 0 := by
  have hinsert := sound_insert h hl hnodes hbefore hbehind
  obtain ⟨hr, hi, hc⟩ := (sound_released_iff h hl _).mp hinsert
  have hsplit : before ++ ⟨start, len⟩ :: behind = (before ++ [⟨start, len⟩]) ++ behind := by simp
  rw [hsplit] at hr hi hc
  constructor
  · intro hs n hn
    by_contra hne
    have hproper := h.ranged.proper n (hnodes ▸ List.mem_append_right _ hn)
    -- the first byte of a node that is lost
    have hfree : Free ((before ++ [⟨start, len⟩]) ++ behind) n.addr :=
      covered_append.mpr (Or.inr ⟨n, hn, le_refl _, by simp only [MemNode.last] at *; omega⟩)
    have hkept := (((sound_released_iff h hl _).mp hs).2.2 n.addr).mpr ((hc n.addr).mp hfree)
    obtain ⟨m, hm, -, hlt⟩ := hkept
    have := (ranged_append.mp hr).2.2 m hm n hn
    omega
  · intro hempty
    refine (sound_released_iff h hl _).mpr ⟨(ranged_append.mp hr).1,
      fun n hn => hi n (List.mem_append_left _ hn), fun x => ?_⟩
    rw [← hc x]
    refine ⟨fun hx => covered_append.mpr (Or.inl hx), fun hx => ?_⟩
    refine (covered_append.mp hx).resolve_right ?_
    rintro ⟨n, hn, h1, h2⟩
    simp only [MemNode.last, hempty n hn] at h2
    omega

end Free

/-- One call of `free` that returns. -/
theorem served_iff {r : Result} (hr : free s.startingSize s.nodes start len = .ok r) :
    (∃ s', next s (.free start len) = some s' ∧ Succeeds s (.free start len) ∧ Sound s') ↔
      r.ret = true ∧
        Sound { s with nodes := r.nodes, allocated := s.mark start (start + len) false } := by
  simp only [next, hr, Option.some.injEq, exists_eq_left']
  constructor
  · rintro ⟨⟨r', hr', hret⟩, hs⟩
    rw [hr, Except.ok.injEq] at hr'
    subst hr'
    rw [if_pos hret] at hs
    exact ⟨hret, hs⟩
  · rintro ⟨hret, hs⟩
    rw [if_pos hret]
    exact ⟨⟨r, hr, hret⟩, hs⟩

/-- The nodes from `start` on are `behind`, and there are some. -/
theorem room_iff_of_behind {head : MemNode} {behind : List MemNode} (hhead : head.addr ≤ start)
    (hne : behind ≠ []) (hbehind : ∀ n, n ∈ behind ↔ n ∈ rest ∧ start ≤ n.addr) :
    Room start len (head :: rest) ↔ ∀ n ∈ behind, start + len ≤ n.addr ∧ n.len = 0 := by
  obtain ⟨m, hm⟩ := List.exists_mem_of_ne_nil _ hne
  have hm' := (hbehind m).mp hm
  rw [Room, if_neg (by omega)]
  constructor
  · rintro (hall | ⟨-, hall⟩) n hn
    · have := hall m (List.mem_cons_of_mem _ hm'.1)
      omega
    · have hn' := (hbehind n).mp hn
      exact hall n hn'.1 hn'.2
  · intro hall
    exact Or.inr ⟨⟨m, hm'⟩, fun n hn hge => hall n ((hbehind n).mpr ⟨hn, hge⟩)⟩

/-- A node with a successor from `start` on: `free` succeeds and keeps the
list exactly if all that follows is empty and behind the range. -/
theorem between_iff (h : Sound s) (hl : Legal s (.free start len))
    (hnodes : s.nodes = before ++ p :: m :: rest) (hbefore : ∀ n ∈ before, n.addr ≤ start)
    (hp : p.addr ≤ start) (hbehind : ∀ n ∈ m :: rest, start ≤ n.addr)
    (hrun : free s.startingSize s.nodes start len
      = freeLoop s.startingSize start len before (p :: m :: rest)) :
    (∃ s', next s (.free start len) = some s' ∧ Succeeds s (.free start len) ∧ Sound s') ↔
      ∀ n ∈ m :: rest, start + len ≤ n.addr ∧ n.len = 0 := by
  have hlen := hl.1
  have hlast := last_le_of_legal h hl (n := p) (by simp [hnodes]) hp
  rw [served_iff (hrun.trans
    (freeLoop_between hp hlast (hbehind m List.mem_cons_self) before rest))]
  by_cases hlt : m.addr < start + len
  · -- the range runs into the next node, which is empty
    rw [if_pos hlt]
    constructor
    · rintro ⟨hret, -⟩
      cases hret
    · intro hall
      have := (hall m List.mem_cons_self).1
      omega
  · rw [if_neg hlt]
    have hnodes' : s.nodes = (before ++ [p]) ++ m :: rest := by simp [hnodes]
    -- in order, so the rest is behind the range as well
    have hrest : ∀ n ∈ m :: rest, start + len ≤ n.addr := by
      intro n hn
      have hranged := h.ranged
      rw [hnodes'] at hranged
      obtain ⟨hm, -, hmrest⟩ := ranged_cons.mp (ranged_append.mp hranged).2.1
      rcases List.mem_cons.mp hn with rfl | hn
      · omega
      · have := hmrest n hn
        omega
    have hdrop := sound_drop_iff h hl hnodes' (fun n hn => ?_) hrest
    · simp only [List.append_assoc, List.singleton_append] at hdrop
      simp only [true_and]
      rw [hdrop]
      exact ⟨fun hall n hn => ⟨hrest n hn, hall n hn⟩, fun hall n hn => (hall n hn).2⟩
    · rcases List.mem_append.mp hn with hn | hn
      · exact hbefore n hn
      · rw [List.mem_singleton.mp hn]
        exact hp

theorem free_eq_loop (hl : Legal s (.free start len)) :
    free s.startingSize s.nodes start len = freeLoop s.startingSize start len [] s.nodes := by
  have := hl.1
  rw [free, if_neg (by omega)]

/-- The head starts behind the beginning of the range: the node goes in front,
if it fits. -/
theorem free_iff_front {head : MemNode} (h : Sound s) (hl : Legal s (.free start len))
    (hnodes : s.nodes = head :: rest) (hfront : start < head.addr) :
    (∃ s', next s (.free start len) = some s' ∧ Succeeds s (.free start len) ∧ Sound s') ↔
      Room start len (head :: rest) := by
  have hlen := hl.1
  have hrun := (free_eq_loop hl).trans ((congrArg _ hnodes).trans (freeLoop_front hfront [] rest))
  rw [served_iff hrun, Room, if_pos hfront]
  by_cases hlt : head.addr < start + len
  · simp only [if_pos hlt]
    exact ⟨fun hret => absurd hret.1 (by simp), fun hle => absurd hle (by omega)⟩
  · simp only [if_neg hlt, true_and]
    have hnodes' : s.nodes = [] ++ head :: rest := hnodes
    refine ⟨fun _ => by omega, fun _ => sound_insert h hl hnodes' (by simp) fun n hn => ?_⟩
    obtain ⟨hproper, -, hle⟩ := ranged_cons.mp (hnodes ▸ h.ranged)
    rcases List.mem_cons.mp hn with rfl | hn
    · omega
    · have := hle n hn
      omega

/-- The head starts where the range starts, so it is empty. -/
theorem free_iff_at {head : MemNode} (h : Sound s) (hl : Legal s (.free start len))
    (hnodes : s.nodes = head :: rest) (hhead : head.addr = start)
    (hrest : ∀ n ∈ rest, start ≤ n.addr) :
    (∃ s', next s (.free start len) = some s' ∧ Succeeds s (.free start len) ∧ Sound s') ↔
      Room start len (head :: rest) := by
  have hlen := hl.1
  have hlast := last_le_of_legal h hl (n := head) (by simp [hnodes]) hhead.le
  cases rest with
  | nil =>
      -- an empty last node at `start`: the code follows its `next`
      have hfault : free s.startingSize s.nodes start len = .error .nullPointer := by
        rw [free_eq_loop hl, hnodes, freeLoop]
        simp only [MemNode.last] at hlast
        simp [hhead]
        omega
      simp [Succeeds, hfault, Room, hhead]
  | cons m rest =>
      have hnodes' : s.nodes = [] ++ head :: m :: rest := hnodes
      rw [between_iff h hl hnodes' (by simp) hhead.le hrest (hnodes ▸ free_eq_loop hl),
        room_iff_of_behind hhead.le (List.cons_ne_nil m rest)
          fun n => ⟨fun hn => ⟨hn, hrest n hn⟩, fun hn => hn.1⟩]

/-- Some node starts below the range; `p` is the last one that does. -/
theorem free_iff_below {behind : List MemNode} (h : Sound s) (hl : Legal s (.free start len))
    (hnodes : s.nodes = before ++ p :: behind) (hlow : ∀ n ∈ before, n.addr < start)
    (hp : p.addr < start) (hbehind : ∀ n ∈ behind, start ≤ n.addr) :
    (∃ s', next s (.free start len) = some s' ∧ Succeeds s (.free start len) ∧ Sound s') ↔
      Room start len (before ++ p :: behind) := by
  have hrun := (free_eq_loop hl).trans
    ((congrArg _ hnodes).trans (freeLoop_walk s.startingSize start len hp hlow [] behind))
  rw [List.nil_append] at hrun
  obtain ⟨head, rest, hcons, hhead, hrest⟩ : ∃ head rest, before ++ p :: behind = head :: rest ∧
      head.addr < start ∧ ∀ n, n ∈ behind ↔ n ∈ rest ∧ start ≤ n.addr := by
    cases before with
    | nil => exact ⟨p, behind, rfl, hp, fun n => ⟨fun hn => ⟨hn, hbehind n hn⟩, fun hn => hn.1⟩⟩
    | cons head tail =>
        refine ⟨head, tail ++ p :: behind, rfl, hlow head (by simp), fun n => ?_⟩
        refine ⟨fun hn => ⟨by simp [hn], hbehind n hn⟩, fun ⟨hn, hge⟩ => ?_⟩
        rcases List.mem_append.mp hn with hn | hn
        · have := hlow n (List.mem_cons_of_mem _ hn)
          omega
        rcases List.mem_cons.mp hn with rfl | hn
        · omega
        · exact hn
  cases behind with
  | nil =>
      rw [freeLoop_end hp, if_neg (not_lt.mpr hl.2.2.1)] at hrun
      rw [served_iff hrun, hcons, Room, if_neg (by omega)]
      have hall : ∀ n ∈ before ++ [p], n.addr < start := by
        intro n hn
        rcases List.mem_append.mp hn with hn | hn
        · exact hlow n hn
        · rw [List.mem_singleton.mp hn]
          exact hp
      have hnodes' : s.nodes = (before ++ [p]) ++ [] := by rw [hnodes, List.append_nil]
      have hinsert := sound_insert h hl hnodes' (fun n hn => (hall n hn).le) (by simp)
      simp only [List.append_assoc, List.singleton_append] at hinsert
      exact ⟨fun _ => Or.inl (hcons ▸ hall), fun _ => ⟨rfl, hinsert⟩⟩
  | cons m rest' =>
      rw [between_iff h hl hnodes (fun n hn => (hlow n hn).le) hp.le hbehind hrun, hcons,
        room_iff_of_behind hhead.le (List.cons_ne_nil m rest') hrest]

/-- **One `free` of allocated memory.** It returns true and keeps the list
exactly if there is room for the new node. -/
theorem free_iff (h : Sound s) (hl : Legal s (.free start len)) :
    (∃ s', next s (.free start len) = some s' ∧ Succeeds s (.free start len) ∧ Sound s') ↔
      Room start len s.nodes := by
  obtain ⟨before, behind, hnodes, hbefore, hbehind⟩ := h.ranged.cut start
  rcases List.eq_nil_or_concat' before with rfl | ⟨before, p, rfl⟩
  · -- no node starts below the range
    rw [List.nil_append] at hnodes
    rw [hnodes]
    cases behind with
    | nil =>
        have hrun := free_eq_loop hl
        rw [hnodes, freeLoop] at hrun
        rw [served_iff (hnodes ▸ hrun), Room]
        simp
    | cons head rest =>
        by_cases hfront : start < head.addr
        · exact free_iff_front h hl hnodes hfront
        · have hge := hbehind head List.mem_cons_self
          exact free_iff_at h hl hnodes (by omega) fun n hn => hbehind n (List.mem_cons_of_mem _ hn)
  · rw [List.append_assoc, List.singleton_append] at hnodes
    rw [hnodes]
    exact free_iff_below h hl hnodes
      (fun n hn => hbefore n (List.mem_append_left _ hn)) (hbefore p (by simp)) hbehind

/-! ## Runs -/

/-- One legal call. -/
theorem call_iff (h : Sound s) {a : Act} (ha : Legal s a) :
    (∃ s', next s a = some s' ∧ Succeeds s a ∧ Sound s') ↔ Insertable s a := by
  cases a with
  | allocate size =>
      obtain ⟨s', hs', hsound⟩ := h.allocate ha
      exact ⟨fun _ => trivial, fun _ => ⟨s', hs', trivial, hsound⟩⟩
  | free start len => exact free_iff h ha

theorem sound_fresh (hsize : 0 ≤ size) : Sound (fresh size) where
  ranged := ⟨by simp [fresh, MemNode.last, hsize], by simp [fresh]⟩
  inside := by simp [fresh, MemNode.last]
  covers x := by simp [fresh, Covered, MemNode.last]

theorem sound_inductive :
    system.Inductive (fun s a => Legal s a ∧ Insertable s a) Sound where
  init s hs := by
    obtain ⟨size, hsize, rfl⟩ := hs
    exact sound_fresh hsize
  step s a s' h ha hn := by
    obtain ⟨t, ht, -, hsound⟩ := (call_iff h ha.1).mpr ha.2
    exact Option.some.inj (ht.symm.trans hn) ▸ hsound

/-- **The free list.** In every run in which every `free` finds room for its
node, the list is in order and covers exactly the free bytes after every call.
A further legal call succeeds and keeps it so exactly if it finds room. -/
theorem free_list_sound {s : State}
    (hs : system.ReachableUnder (fun s a => Legal s a ∧ Insertable s a) s) :
    Sound s ∧ ∀ a, Legal s a →
      ((∃ s', system.next s a = some s' ∧ Succeeds s a ∧ Sound s') ↔ Insertable s a) := by
  have h := sound_inductive.invariantUnder s hs
  exact ⟨h, fun a ha => call_iff h ha⟩

/-- Ten of a hundred bytes are allocated and given back in two parts, the second one first:
then all of them can be allocated at once. -/
theorem free_list_sound_ten : ∃ s s', s.nodes = [⟨0, 5⟩, ⟨5, 5⟩, ⟨10, 90⟩] ∧ Sound s ∧
    system.next s (.allocate 100) = some s' ∧ Sound s' := by
  obtain ⟨s, hs, hnodes⟩ := system.exists_of_runChecked
    (C := fun s a => Legal s a ∧ Insertable s a)
    (P := fun s => s.nodes = [⟨0, 5⟩, ⟨5, 5⟩, ⟨10, 90⟩]) (fresh 100)
    [.allocate 10, .free 5 5, .free 0 5] ⟨100, by decide, rfl⟩ (by decide +kernel)
  obtain ⟨hsound, hcalls⟩ := free_list_sound hs
  obtain ⟨s', hs', -, hsound'⟩ :=
    (hcalls (.allocate 100) (show (1 : Int) ≤ 100 by decide)).mpr trivial
  exact ⟨s, s', hnodes, hsound, hs', hsound'⟩

/-- The first 5 of 10 allocated bytes are given back, then 2 more: the 90
bytes behind them are lost. -/
theorem tail_lost : ¬ system.InvariantUnder Legal Sound := by
  intro hinv
  have hrun : (system.runChecked Legal (fresh 100) [.allocate 10, .free 0 5, .free 5 2]).any
      (fun s => decide (s.nodes = [⟨0, 5⟩, ⟨5, 2⟩] ∧ s.startingSize = 100 ∧
        s.allocated 10 = false)) = true := by
    decide +kernel
  obtain ⟨s, hs, hview⟩ := (Option.any_eq_true _ _).mp hrun
  obtain ⟨hnodes, hsize, hfree⟩ := of_decide_eq_true hview
  have hsound := hinv s (.runChecked (.init ⟨100, by decide, rfl⟩) hs)
  have hlost := (hsound.covers 10).mpr ⟨by omega, hfree⟩
  rw [hnodes] at hlost
  simp [Covered, MemNode.last] at hlost

end Os377.Salloc
