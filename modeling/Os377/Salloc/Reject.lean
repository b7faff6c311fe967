import Os377.Lib.InputStream
import Os377.Salloc.FreeList

/-!
# Ranges that are not allocated

`free` has a test for a range that is at least partially free, and one for a
range that ends beyond the memory. Each stands in one of the branches that
insert a node and looks at one neighbour only: the node in front of the new one
is never asked where it ends. On `int`s the end of the range may also be too
large to be computed.
-/

namespace Os377.Salloc

open Os377.Lib

variable {nodes before behind rest : List MemNode} {n p m : MemNode} {size start len : Int}

/-- What stops a run on `int`s. -/
inductive IntFault where
  | nullPointer
  | overflow
  deriving DecidableEq, Repr

/-- `a + b` on `int`s. -/
def intSum (a b : Int) : Except IntFault Int :=
  if IsInt (a + b) then .ok (a + b) else .error .overflow

/-- The loop of `free` at `temp` on `int`s. -/
def freeLoopInt (startingSize start len : Int) (before : List MemNode) :
    List MemNode → Except IntFault Result
  | [] => .ok ⟨before, false, some (.notInRange start)⟩
  | temp :: next =>
      let nodes := before ++ temp :: next
      if temp.addr > start then do
        let stop ← intSum start len
        if temp.addr < stop then return ⟨nodes, false, some .doubleFree⟩
        else return ⟨⟨start, len⟩ :: temp :: next, true, none⟩
      else if temp.addr < start ∧ next = [] then do
        let stop ← intSum start len
        if stop > startingSize then return ⟨nodes, false, some .outOfBounds⟩
        else return ⟨before ++ [temp, ⟨start, len⟩], true, none⟩
      else do
        let last ← intSum temp.addr temp.len
        if last ≤ start then
          match next with
          | [] => .error .nullPointer
          | n :: _ =>
              if n.addr ≥ start then
                let stop ← intSum start len
                if n.addr < stop then return ⟨nodes, false, some .doubleFree⟩
                else return ⟨before ++ [temp, ⟨start, len⟩], true, none⟩
              else freeLoopInt startingSize start len (before ++ [temp]) next
        else freeLoopInt startingSize start len (before ++ [temp]) next

/-- `free(start, len)` on `int`s. -/
def freeInt (startingSize : Int) (nodes : List MemNode) (start len : Int) :
    Except IntFault Result :=
  if len = 0 then .ok ⟨nodes, true, none⟩ else freeLoopInt startingSize start len [] nodes

/-- The call returns false, leaves the list as it is and follows no `NULL`. -/
def Rejects (size : Int) (nodes : List MemNode) (start len : Int) : Prop :=
  ∃ said, freeInt size nodes start len = .ok ⟨nodes, false, said⟩

/-- The range ends beyond the memory or shares a byte with a free node. -/
def Improper (size start len : Int) (nodes : List MemNode) : Prop :=
  size < start + len ∨ ∃ x, start ≤ x ∧ x < start + len ∧ Free nodes x

/-- What the tests of `free` need to see that a range is improper. -/
structure Caught (size start len : Int) (nodes : List MemNode) : Prop where
  /-- The end of the range is an `int`, or never computed: there is at most one
  node, at `start`. -/
  sum : IsInt (start + len) ∨ ∀ n ∈ nodes, nodes = [n] ∧ n.addr = start
  /-- A node that holds `start`, and begins below it or is the head, is
  followed by one that begins inside the range; or it is the last one, and the
  range ends beyond the memory or begins with the node. -/
  inside : ∀ n ∈ nodes, n.addr ≤ start → start < n.last →
    (n.addr < start ∨ nodes.head? = some n) →
      (∃ m ∈ nodes, start < m.addr ∧ m.addr < start + len) ∨
        ((∀ m ∈ nodes, m.addr ≤ start) ∧ (n.addr = start ∨ size < start + len))
  /-- An only node at `start` is not empty. -/
  alone : ∀ n, nodes = [n] → n.addr = start → 0 < n.len

/-! ## On `int`s -/

/-- What becomes of a run on `int`s: only one that says that the address is not
in range has not computed the end of the range. -/
def onInts (start len : Int) : Except Fault Result → Except IntFault Result
  | .error .nullPointer => .error .nullPointer
  | .ok r =>
      if IsInt (start + len) ∨ r.said = some (.notInRange start) then .ok r
      else .error .overflow

/-- A branch that computes the end of the range. -/
theorem intSum_bind {k : Int → Except IntFault Result} {r : Result}
    (hk : k (start + len) = .ok r) (hr : r.said ≠ some (.notInRange start)) :
    (intSum start len >>= k) = onInts start len (.ok r) := by
  rw [intSum, onInts]
  by_cases hint : IsInt (start + len)
  · rw [if_pos hint, if_pos (Or.inl hint)]
    exact hk
  · rw [if_neg hint, if_neg (by simp [hint, hr])]
    rfl

theorem intSum_last (hn : IsInt n.last) : intSum n.addr n.len = .ok n.last := if_pos hn

/-- The loop on `int`s does what the loop does, as far as the end of the range
is an `int` or not needed. -/
theorem freeLoopInt_eq (hnodes : ∀ n ∈ nodes, IsInt n.last) (visited : List MemNode) :
    freeLoopInt size start len visited nodes
      = onInts start len (freeLoop size start len visited nodes) := by
  induction nodes generalizing visited with
  | nil => rw [freeLoopInt, freeLoop, onInts, if_pos (Or.inr rfl)]
  | cons temp next ih =>
      have hstep := ih (fun n hn => hnodes n (List.mem_cons_of_mem _ hn)) (visited ++ [temp])
      rw [freeLoopInt.eq_def, freeLoop.eq_def]
      dsimp only
      by_cases hfront : temp.addr > start
      · rw [if_pos hfront, if_pos hfront]
        split
        · exact intSum_bind (if_pos ‹_›) (by simp)
        · exact intSum_bind (if_neg ‹_›) (by simp)
      rw [if_neg hfront, if_neg hfront]
      by_cases hend : temp.addr < start ∧ next = []
      · rw [if_pos hend, if_pos hend]
        split
        · exact intSum_bind (if_pos ‹_›) (by simp)
        · exact intSum_bind (if_neg ‹_›) (by simp)
      -- the end of a node always is an `int`
      rw [if_neg hend, if_neg hend, intSum_last (hnodes temp List.mem_cons_self)]
      change (if temp.last ≤ start then _ else _)
        = onInts start len (if temp.last ≤ start then _ else _)
      by_cases hlast : temp.last ≤ start
      · rw [if_pos hlast, if_pos hlast]
        cases next with
        | nil => rfl
        | cons n rest =>
            dsimp only
            by_cases hn : n.addr ≥ start
            · rw [if_pos hn, if_pos hn]
              split
              · exact intSum_bind (if_pos ‹_›) (by simp)
              · exact intSum_bind (if_neg ‹_›) (by simp)
            · rw [if_neg hn, if_neg hn]
              exact hstep
      · rw [if_neg hlast, if_neg hlast]
        exact hstep

/-- The call is refused by the loop, and the end of the range is an `int` or
not needed. -/
theorem rejects_iff (hnodes : ∀ n ∈ nodes, IsInt n.last) (hlen : 1 ≤ len) :
    Rejects size nodes start len ↔
      ∃ said, freeLoop size start len [] nodes = .ok ⟨nodes, false, said⟩ ∧
        (IsInt (start + len) ∨ said = some (.notInRange start)) := by
  simp only [Rejects, freeInt, if_neg (show len ≠ 0 by omega), freeLoopInt_eq hnodes]
  cases freeLoop size start len [] nodes with
  | error fault =>
      cases fault
      simp [onInts]
  | ok r =>
      rw [onInts]
      refine exists_congr fun said => ?_
      by_cases hint : IsInt (start + len) ∨ r.said = some (.notInRange start)
      · rw [if_pos hint]
        simp only [Except.ok.injEq]
        refine ⟨fun hr => ⟨hr, ?_⟩, And.left⟩
        rw [hr] at hint
        exact hint
      · rw [if_neg hint]
        simp only [reduceCtorEq, Except.ok.injEq, false_iff, not_and]
        rintro rfl
        exact hint

/-- At a test that says whether the range is refused. -/
theorem rejects_iff_test {r : Result} {said : Message} {c : Prop} [Decidable c]
    (hnodes : ∀ n ∈ nodes, IsInt n.last) (hlen : 1 ≤ len)
    (hrun : freeLoop size start len [] nodes
      = .ok (if c then ⟨nodes, false, some said⟩ else r))
    (hret : r.ret = true) (hsaid : said ≠ .notInRange start) :
    Rejects size nodes start len ↔ IsInt (start + len) ∧ c := by
  rw [rejects_iff hnodes hlen, hrun]
  by_cases hc : c
  · simp [hc, hsaid]
  · have hne : ∀ said, r ≠ ⟨nodes, false, said⟩ := by
      rintro said rfl
      cases hret
    simp [hc, hne]

/-! ## The place of the range -/

/-- `p` is the node that the loop looks at first with a test that may hold:
the last one that begins below the range, or a head that begins with it. -/
structure Pivot (start : Int) (before : List MemNode) (p : MemNode) (behind : List MemNode) :
    Prop where
  below : ∀ n ∈ before, n.addr < start
  le : p.addr ≤ start
  first : p.addr < start ∨ before = []
  above : ∀ n ∈ behind, start ≤ n.addr

/-- The list is empty, or begins behind `start`, or has a pivot. -/
theorem pivot_cases (hr : InOrder nodes) (start : Int) :
    nodes = [] ∨ (∃ head rest, nodes = head :: rest ∧ start < head.addr) ∨
      ∃ before p behind, nodes = before ++ p :: behind ∧ Pivot start before p behind := by
  obtain ⟨before, behind, rfl, hbefore, hbehind⟩ := hr.cut start
  rcases List.eq_nil_or_concat' before with rfl | ⟨before, p, rfl⟩
  · cases behind with
    | nil => exact Or.inl rfl
    | cons head rest =>
        refine Or.inr ?_
        by_cases hfront : start < head.addr
        · exact Or.inl ⟨head, rest, rfl, hfront⟩
        · exact Or.inr ⟨[], head, rest, rfl, by simp, not_lt.mp hfront, Or.inr rfl,
            fun n hn => hbehind n (List.mem_cons_of_mem _ hn)⟩
  · have hp : p.addr < start := hbefore p (by simp)
    exact Or.inr (Or.inr ⟨before, p, behind, by simp,
      fun n hn => hbefore n (List.mem_append_left _ hn), hp.le, Or.inl hp, hbehind⟩)

/-- The loop gets to the pivot. -/
theorem Pivot.walk (h : Pivot start before p behind) :
    freeLoop size start len [] (before ++ p :: behind)
      = freeLoop size start len before (p :: behind) := by
  rcases h.first with hp | rfl
  · exact freeLoop_walk size start len hp h.below [] behind
  · rfl

/-- A node that reaches over the beginning of the range is passed. -/
theorem freeLoop_over (hp : p.addr ≤ start) (hlast : start < p.last)
    (visited rest : List MemNode) :
    freeLoop size start len visited (p :: m :: rest)
      = freeLoop size start len (visited ++ [p]) (m :: rest) := by
  rw [MemNode.last] at hlast
  rw [freeLoop]
  simp only [if_neg (show ¬ p.addr > start by omega), reduceCtorEq, and_false, if_false,
    if_neg (show ¬ p.addr + p.len ≤ start by omega)]

/-- At a last node that begins with the range. -/
theorem freeLoop_at (hp : p.addr = start) (visited : List MemNode) :
    freeLoop size start len visited [p]
      = if p.len ≤ 0 then .error .nullPointer
        else .ok ⟨visited ++ [p], false, some (.notInRange start)⟩ := by
  rw [freeLoop]
  simp only [hp, gt_iff_lt, lt_irrefl, if_false, false_and, add_le_iff_nonpos_right, freeLoop]

/-- If the nodes before it end in front of an improper range, a node begins
before the range ends. -/
theorem next_lt_of_improper (hr : InOrder nodes) (hin : ∀ n ∈ nodes, n.last ≤ size)
    (hbad : Improper size start len nodes) (hnodes : nodes = before ++ m :: rest)
    (hlast : ∀ n ∈ before, n.last ≤ start) : m.addr < start + len := by
  subst hnodes
  obtain ⟨hm, -, hrest⟩ := ranged_cons.mp (ranged_append.mp hr).2.1
  have hend := hin m (by simp)
  rcases hbad with hout | ⟨x, hx, hlt, n, hn, hle, hcov⟩
  · omega
  rcases List.mem_append.mp hn with hn | hn
  · have := hlast n hn
    omega
  rcases List.mem_cons.mp hn with rfl | hn
  · omega
  · have := hrest n hn
    omega

/-- If all nodes end in front of an improper range, it ends beyond the memory. -/
theorem size_lt_of_improper (hbad : Improper size start len nodes)
    (hlast : ∀ n ∈ nodes, n.last ≤ start) : size < start + len := by
  rcases hbad with hout | ⟨x, hx, -, n, hn, -, hcov⟩
  · exact hout
  · have := hlast n hn
    omega

/-- Only the pivot is asked where it ends. -/
theorem Pivot.eq_of_holds (hr : InOrder (before ++ p :: behind)) (h : Pivot start before p behind)
    (hn : n ∈ before ++ p :: behind) (hle : n.addr ≤ start) (hlast : start < n.last)
    (hfirst : n.addr < start ∨ (before ++ p :: behind).head? = some n) : n = p := by
  rcases List.mem_append.mp hn with hn | hn
  · have := (ranged_append.mp hr).2.2 n hn p List.mem_cons_self
    have := h.le
    omega
  rcases List.mem_cons.mp hn with rfl | hn
  · rfl
  · -- a node behind the pivot holds `start` only as its first byte, and is not the head
    have hge := h.above n hn
    have hhead := hfirst.resolve_left (by omega)
    cases before with
    | nil => exact (Option.some.inj hhead).symm
    | cons b bs =>
        have := h.below b List.mem_cons_self
        rw [Option.some.inj hhead] at this
        omega

/-- The nodes that begin behind `start` are behind the pivot. -/
theorem Pivot.mem_behind (h : Pivot start before p behind) (hn : n ∈ before ++ p :: behind)
    (hlt : start < n.addr) : n ∈ behind := by
  have hle := h.le
  rcases List.mem_append.mp hn with hn | hn
  · have := h.below n hn
    omega
  rcases List.mem_cons.mp hn with rfl | hn
  · omega
  · exact hn

/-- What has to be seen at the pivot. -/
theorem caught_iff (hr : InOrder (before ++ p :: behind)) (h : Pivot start before p behind) :
    Caught size start len (before ++ p :: behind) ↔
      (IsInt (start + len) ∨ (p.addr = start ∧ behind = [])) ∧
        (behind = [] → p.addr = start → 0 < p.len) ∧
        (start < p.last → (∃ m ∈ behind, m.addr < start + len) ∨
          (behind = [] ∧ (p.addr = start ∨ size < start + len))) := by
  have hp : p ∈ before ++ p :: behind := by simp
  have hle := h.le
  have hhigh := (ranged_cons.mp (ranged_append.mp hr).2.1).2.2
  have honly : p.addr = start → behind = [] → before ++ p :: behind = [p] := by
    intro hat hnil
    rw [hnil, h.first.resolve_left (by omega), List.nil_append]
  have hnil : ∀ n, before ++ p :: behind = [n] → behind = [] := by
    intro n hsingle
    have hlen := congrArg List.length hsingle
    simp only [List.length_append, List.length_cons, List.length_nil] at hlen
    exact List.length_eq_zero_iff.mp (by omega)
  constructor
  · intro hc
    refine ⟨hc.sum.imp_right fun hall => ?_, fun hnil hat => hc.alone p (honly hat hnil) hat,
      fun hlast => ?_⟩
    · obtain ⟨hsingle, hat⟩ := hall p hp
      exact ⟨hat, hnil p hsingle⟩
    · have hfirst : p.addr < start ∨ (before ++ p :: behind).head? = some p :=
        h.first.imp_right fun hnil => by rw [hnil]; rfl
      refine (hc.inside p hp hle hlast hfirst).imp ?_ ?_
      · rintro ⟨m, hm, hlt, hin⟩
        exact ⟨m, h.mem_behind hm hlt, hin⟩
      · rintro ⟨hall, hend⟩
        refine ⟨List.eq_nil_iff_forall_not_mem.mpr fun m hm => ?_, hend⟩
        have := hhigh m hm
        have := hall m (by simp [hm])
        omega
  · rintro ⟨hsum, halone, hinside⟩
    refine ⟨hsum.imp_right ?_, fun n hn hle' hlast hfirst => ?_, fun n hsingle hat => ?_⟩
    · rintro ⟨hat, hempty⟩ n hn
      rw [honly hat hempty] at hn ⊢
      rw [List.mem_singleton.mp hn]
      exact ⟨rfl, hat⟩
    · have hpivot := h.eq_of_holds hr hn hle' hlast hfirst
      subst hpivot
      refine (hinside hlast).imp ?_ ?_
      · rintro ⟨m, hm, hin⟩
        exact ⟨m, by simp [hm], by have := hhigh m hm; omega, hin⟩
      · rintro ⟨hempty, hend⟩
        refine ⟨fun m hm => not_lt.mp fun hlt => ?_, hend⟩
        have := h.mem_behind hm hlt
        rw [hempty] at this
        cases this
    · rw [hsingle] at hp
      rw [← List.mem_singleton.mp hp] at hat ⊢
      exact halone (hnil n hsingle) hat

/-! ## The call -/

/-- The nodes before the pivot end where it begins. -/
theorem Pivot.last_le (hr : InOrder (before ++ p :: behind)) (h : Pivot start before p behind)
    (hn : n ∈ before) : n.last ≤ start :=
  ((ranged_append.mp hr).2.2 n hn p List.mem_cons_self).trans h.le

/-- At a pivot with a successor. -/
theorem rejects_iff_next (hr : InOrder (before ++ p :: m :: rest))
    (hpiv : Pivot start before p (m :: rest))
    (hint : ∀ n ∈ before ++ p :: m :: rest, IsInt n.last)
    (hin : ∀ n ∈ before ++ p :: m :: rest, n.last ≤ size) (hlen : 1 ≤ len)
    (hbad : Improper size start len (before ++ p :: m :: rest)) :
    Rejects size (before ++ p :: m :: rest) start len ↔
      Caught size start len (before ++ p :: m :: rest) := by
  obtain ⟨-, hmrest, hhigh⟩ := ranged_cons.mp (ranged_append.mp hr).2.1
  have hpm := hhigh m List.mem_cons_self
  have hleast : (∃ n ∈ m :: rest, n.addr < start + len) ↔ m.addr < start + len := by
    refine ⟨?_, fun hlt => ⟨m, List.mem_cons_self, hlt⟩⟩
    rintro ⟨n, hn, hlt⟩
    obtain ⟨hm, -, hrest⟩ := ranged_cons.mp hmrest
    rcases List.mem_cons.mp hn with rfl | hn
    · exact hlt
    · have := hrest n hn
      omega
  rw [caught_iff hr hpiv, hleast]
  simp only [reduceCtorEq, and_false, or_false, false_and, false_implies, true_and]
  by_cases hlast : p.last ≤ start
  · -- the pivot ends in front of the range, which therefore reaches the next node
    have hlt : m.addr < start + len := by
      have hnodes : before ++ p :: m :: rest = (before ++ [p]) ++ m :: rest := by simp
      refine next_lt_of_improper hr hin hbad hnodes fun n hn => ?_
      rcases List.mem_append.mp hn with hn | hn
      · exact hpiv.last_le hr hn
      · rw [List.mem_singleton.mp hn]
        exact hlast
    have hrun : freeLoop size start len [] (before ++ p :: m :: rest) = _ := hpiv.walk.trans
      (freeLoop_between hpiv.le hlast (hpiv.above m List.mem_cons_self) before rest)
    rw [rejects_iff_test hint hlen hrun rfl (by simp)]
    exact and_congr_right fun _ => ⟨fun _ _ => hlt, fun _ => hlt⟩
  · -- the pivot is passed without a look at its end, and the next node gets the test
    have hrun : freeLoop size start len [] (before ++ p :: m :: rest) = _ := hpiv.walk.trans
      ((freeLoop_over hpiv.le (not_le.mp hlast) before rest).trans
        (freeLoop_front (by omega) (before ++ [p]) rest))
    rw [List.append_assoc, List.singleton_append] at hrun
    rw [rejects_iff_test hint hlen hrun rfl (by simp)]
    exact and_congr_right fun _ => ⟨fun hlt _ => hlt, fun hall => hall (not_le.mp hlast)⟩

/-- At a pivot without a successor. -/
theorem rejects_iff_last (hr : InOrder (before ++ [p])) (hpiv : Pivot start before p [])
    (hint : ∀ n ∈ before ++ [p], IsInt n.last) (hlen : 1 ≤ len)
    (hbad : Improper size start len (before ++ [p])) :
    Rejects size (before ++ [p]) start len ↔ Caught size start len (before ++ [p]) := by
  have hproper := hr.proper p (by simp)
  rw [caught_iff hr hpiv]
  simp only [List.not_mem_nil, false_and, exists_false, false_or, and_true, true_and,
    true_implies]
  rcases lt_or_eq_of_le hpiv.le with hlt | hat
  · -- a new last node
    have hrun : freeLoop size start len [] (before ++ [p]) = _ :=
      hpiv.walk.trans (freeLoop_end hlt before)
    rw [rejects_iff_test hint hlen hrun rfl (by simp)]
    have hout : p.last ≤ start → size < start + len := by
      refine fun hlast => size_lt_of_improper hbad fun n hn => ?_
      rcases List.mem_append.mp hn with hn | hn
      · exact hpiv.last_le hr hn
      · rw [List.mem_singleton.mp hn]
        exact hlast
    simp only [hlt.ne, or_false, false_implies, true_and, false_or]
    refine and_congr_right fun _ => ⟨fun h _ => h, fun h => ?_⟩
    rcases le_or_gt p.last start with hlast | hlast
    · exact hout hlast
    · exact h hlast
  · -- the only node begins with the range
    obtain rfl : before = [] := hpiv.first.resolve_left (by omega)
    rw [rejects_iff hint hlen, hpiv.walk, freeLoop_at hat]
    simp only [hat, true_and, or_true, true_or, implies_true, and_true, true_implies]
    by_cases hempty : p.len ≤ 0
    · rw [if_pos hempty]
      simp [not_lt.mpr hempty]
    · rw [if_neg hempty]
      simp [not_le.mp hempty]

/-- In front of the head. -/
theorem rejects_iff_front (hr : InOrder (m :: rest)) (hfront : start < m.addr)
    (hint : ∀ n ∈ m :: rest, IsInt n.last) (hin : ∀ n ∈ m :: rest, n.last ≤ size)
    (hlen : 1 ≤ len) (hbad : Improper size start len (m :: rest)) :
    Rejects size (m :: rest) start len ↔ Caught size start len (m :: rest) := by
  -- the range reaches the head, and the test in front of it looks at the head
  have hlt : m.addr < start + len :=
    next_lt_of_improper hr hin hbad (List.nil_append (m :: rest)).symm (by simp)
  have habove : ∀ n ∈ m :: rest, start < n.addr := by
    obtain ⟨hm, -, hrest⟩ := ranged_cons.mp hr
    intro n hn
    rcases List.mem_cons.mp hn with rfl | hn
    · exact hfront
    · have := hrest n hn
      omega
  rw [rejects_iff_test hint hlen (freeLoop_front hfront [] rest) rfl (by simp)]
  constructor
  · rintro ⟨hsum, -⟩
    refine ⟨Or.inl hsum, fun n hn hle => ?_, fun n hn hat => ?_⟩
    · exact absurd (habove n hn) (not_lt.mpr hle)
    · exact absurd (habove n (hn ▸ List.mem_singleton.mpr rfl)) (by omega)
  · intro hc
    refine ⟨hc.sum.resolve_right fun hall => ?_, hlt⟩
    have := (hall m List.mem_cons_self).2
    omega

/-- **Improper ranges.** On a list in order inside the memory, a call of `free`
with an improper range returns false and leaves the list alone exactly if the
tests see it. -/
theorem rejects_iff_caught (hr : InOrder nodes)
    (hin : ∀ n ∈ nodes, 0 ≤ n.addr ∧ n.last ≤ size) (hsize : IsInt size) (hlen : 1 ≤ len)
    (hbad : Improper size start len nodes) :
    Rejects size nodes start len ↔ Caught size start len nodes := by
  have hend : ∀ n ∈ nodes, n.last ≤ size := fun n hn => (hin n hn).2
  have hint : ∀ n ∈ nodes, IsInt n.last := by
    intro n hn
    have hproper := hr.proper n hn
    obtain ⟨hzero, hlast⟩ := hin n hn
    exact ⟨by omega, hlast.trans hsize.2⟩
  rcases pivot_cases hr start with rfl | ⟨head, rest, rfl, hfront⟩ | ⟨before, p, behind, rfl, hpiv⟩
  · refine iff_of_true ?_ ⟨by simp, by simp, by simp⟩
    exact (rejects_iff hint hlen).mpr ⟨_, freeLoop.eq_1 .., Or.inr rfl⟩
  · exact rejects_iff_front hr hfront hint hend hlen hbad
  · cases behind with
    | nil => exact rejects_iff_last hr hpiv hint hlen hbad
    | cons m rest => exact rejects_iff_next hr hpiv hint hend hlen hbad

/-- The last byte of an allocated pair is given back with the first of the node
behind it. -/
theorem rejects_iff_caught_two : Rejects 10 [⟨0, 5⟩, ⟨7, 3⟩] 6 2 :=
  (rejects_iff_caught ⟨by simp [MemNode.last], by simp [MemNode.last]⟩ (by simp [MemNode.last])
    (by decide) (by decide) (Or.inr ⟨7, by decide, by decide, by simp [Free, MemNode.last]⟩)).mpr
    ⟨Or.inl (by decide), by simp [MemNode.last], by simp⟩

/-- Two bytes in the middle of the only node are given back once more. -/
theorem middle_freed_again :
    ¬ ∀ (size : Int) (nodes : List MemNode) (start len : Int), InOrder nodes →
      (∀ n ∈ nodes, 0 ≤ n.addr ∧ n.last ≤ size) → IsInt size → IsInt start → IsInt len →
      0 ≤ start → 1 ≤ len → Improper size start len nodes → Rejects size nodes start len := by
  intro h
  obtain ⟨said, hsaid⟩ := h 10 [⟨0, 10⟩] 5 2 ⟨by simp [MemNode.last], by simp⟩
    (by simp [MemNode.last]) (by decide) (by decide) (by decide) (by decide) (by decide)
    (Or.inr ⟨5, by decide, by decide, by simp [MemNode.last]⟩)
  have hrun : freeInt 10 [⟨0, 10⟩] 5 2 = .ok ⟨[⟨0, 10⟩, ⟨5, 2⟩], true, none⟩ := by decide
  rw [hrun] at hsaid
  cases hsaid

end Os377.Salloc
