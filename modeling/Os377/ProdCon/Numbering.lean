import Os377.ProdCon.ProgramInv
import Mathlib.Data.List.NodupEquivFin

/-!
# The item numbers

A producer gets its number `p_cnt` under `p_lock`, by the increment of `produced`, and
appends the item after it has given the lock back. `numbered` writes down, next to a
call, the numbers that were handed out and those for which `append` was called; the
buffer's own history has the appends that are over.

The invariant is stated for a call that finds any value in `produced` and `done`:
`first` is the one, and `stale` the other.
-/

namespace Os377.ProdCon

open Os377.Lib Function

/-- The item numbers of a call. -/
structure Ledger where
  /-- Handed out, in order. -/
  numbers : List Int
  /-- Their `append` has been called. -/
  started : List Int
  deriving DecidableEq, Repr

namespace Ledger

/-- What the step `a` adds. -/
def note {p c : Nat} (s : Program p c) (a : Program.Act p c) (l : Ledger) : Ledger :=
  match a with
  | .prod i _ _ =>
      match s.prod i with
      | .incr => { l with numbers := l.numbers ++ [s.produced + 1] }
      | .call pCnt => { l with started := l.started ++ [pCnt] }
      | _ => l
  | _ => l

end Ledger

/-- The call with its ledger. -/
def numberedFrom (p c : Nat) (items produced : Int) (done : Bool) :
    TSys (Program p c × Ledger) (Program.Act p c) :=
  (callFrom p c items produced done).record ⟨[], []⟩ Ledger.note

/-- The first call of a process. -/
def numbered (p c : Nat) (items : Int) : TSys (Program p c × Ledger) (Program.Act p c) :=
  (program p c items).record ⟨[], []⟩ Ledger.note

/-- The numbers above `first` up to `last`, in order. -/
def between (first last : Int) : List Int :=
  (List.range (last - first).toNat).map fun k : Nat => first + 1 + (k : Int)

/-- A number that has been handed out, its `append` not called yet. -/
def ProdPc.uncalled : ProdPc → Multiset Int
  | .unlock pCnt | .call pCnt => {pCnt}
  | _ => 0

/-- Between the call of `append` and its end. -/
def ProdPc.appending : ProdPc → Bool
  | .append _ _ => true
  | _ => false

/-- What a position under `p_lock`, or behind the last test, says about `produced`. -/
def ProdPc.After (items produced : Int) : ProdPc → Prop
  | .incr => produced ≠ items
  | .setDone | .unlockExit | .exited => produced = items
  | _ => True

section Between

variable {first last : Int}

theorem between_length : (between first last).length = (last - first).toNat := by
  rw [between, List.length_map, List.length_range]

theorem between_succ (h : first ≤ last) :
    between first (last + 1) = between first last ++ [last + 1] := by
  have hsize : (last + 1 - first).toNat = (last - first).toNat + 1 := by omega
  rw [between, hsize, List.range_succ, List.map_append, List.map_singleton]
  have hlast : first + 1 + ((last - first).toNat : Int) = last + 1 := by omega
  rw [hlast]
  rfl

theorem between_nodup : (between first last).Nodup := by
  refine List.Nodup.map (fun a b hab => ?_) List.nodup_range
  omega

end Between

namespace Program

variable {p c : Nat}

/-- What holds of the producers and their numbers. -/
structure Numbered (items first : Int) (stale : Bool) (x : Program p c × Ledger) : Prop where
  size : x.1.itemSize = items
  unborn : ∀ i : Fin p, x.1.main.createdP p ≤ i → x.1.prod i = .unborn
  mutex : MutexInv ProdPc.holds x.1.prod x.1.pLock
  after : ∀ i, (x.1.prod i).After items x.1.produced
  first_le : first ≤ x.1.produced
  le : first ≤ items → x.1.produced ≤ items
  done : x.1.done = true → stale = true ∨ x.1.produced = items
  numbers : x.2.numbers = between first x.1.produced
  uncalled : (x.2.numbers : Multiset Int) = x.2.started + ∑ i, (x.1.prod i).uncalled
  started : x.2.started.length = x.1.mon.appended.length + tally x.1.prod ProdPc.appending

section Steps

variable {items first : Int} {stale : Bool} {s s' : Program p c} {l : Ledger} {i : Fin p}
  {a : Act p c}

theorem Numbered.after_of {pc : ProdPc} (h : Numbered items first stale (s, l))
    (hpc : s.prod i = pc) : pc.After items s.produced :=
  hpc ▸ h.after i

/-- Producer `i` goes to `b`; what it does to the counters on the way has to add up. -/
theorem Numbered.set {b : ProdPc} {lock : Option (Fin p)} {produced : Int} {done : Bool}
    {n : Fin p → Int} {f : List Line} {m : Monitor.State (Fin p ⊕ Fin c)} {l' : Ledger}
    (h : Numbered items first stale (s, l)) (hborn : s.prod i ≠ .unborn)
    (hmutex : MutexInv ProdPc.holds (update s.prod i b) lock)
    (hafter : b.After items produced) (hafters : ∀ k, k ≠ i → (s.prod k).After items produced)
    (hfirst : first ≤ produced) (hle : first ≤ items → produced ≤ items)
    (hdone : done = true → stale = true ∨ produced = items)
    (hnumbers : l'.numbers = between first produced)
    (huncalled : (l'.numbers : Multiset Int) + (l.started + (s.prod i).uncalled) =
      l.numbers + (l'.started + b.uncalled))
    (hstarted : l'.started.length + (s.mon.appended.length + (s.prod i).appending.toNat) =
      l.started.length + (m.appended.length + b.appending.toNat)) :
    Numbered items first stale ({ s with
      mon := m, produced := produced, done := done, pLock := lock, prod := update s.prod i b
      prodPid := n, file := f }, l') where
  size := h.size
  unborn := by
    intro k hk
    have hki : k ≠ i := by
      rintro rfl
      exact hborn (h.unborn k hk)
    show update s.prod i b k = .unborn
    rw [update_of_ne hki]
    exact h.unborn k hk
  mutex := hmutex
  after := by
    intro k
    show (update s.prod i b k).After items produced
    by_cases hki : k = i
    · subst hki
      rw [update_self]
      exact hafter
    · rw [update_of_ne hki]
      exact hafters k hki
  first_le := hfirst
  le := hle
  done := hdone
  numbers := hnumbers
  uncalled := by
    have hsum := sum_update s.prod ProdPc.uncalled i b
    have hold : (l.numbers : Multiset Int) = l.started + ∑ k, (s.prod k).uncalled := h.uncalled
    show (l'.numbers : Multiset Int) = l'.started + ∑ k, (update s.prod i b k).uncalled
    -- the sum over the producers changes in its `i`-th term only
    refine add_right_cancel (b := l.started + (s.prod i).uncalled) ?_
    calc (l'.numbers : Multiset Int) + (l.started + (s.prod i).uncalled)
        = l.started + ∑ k, (s.prod k).uncalled + (l'.started + b.uncalled) := by
          rw [huncalled, hold]
      _ = l'.started + l.started + (∑ k, (s.prod k).uncalled + b.uncalled) := by abel
      _ = l'.started + ∑ k, (update s.prod i b k).uncalled +
            (l.started + (s.prod i).uncalled) := by
          rw [← hsum]
          abel
  started := by
    have htally := tally_update s.prod ProdPc.appending i b
    have hold : l.started.length = s.mon.appended.length + tally s.prod ProdPc.appending :=
      h.started
    show l'.started.length = m.appended.length + tally (update s.prod i b) ProdPc.appending
    omega

/-- Producer `i` goes from `pc` to `b`, without a number handed out or an `append` called or
finished. -/
theorem Numbered.move {pc b : ProdPc} {lock : Option (Fin p)} {done : Bool} {n : Fin p → Int}
    {f : List Line} {m : Monitor.State (Fin p ⊕ Fin c)} (h : Numbered items first stale (s, l))
    (hpc : s.prod i = pc) (hborn : pc ≠ .unborn)
    (hmutex : MutexInv ProdPc.holds (update s.prod i b) lock)
    (hafter : b.After items s.produced) (hdone : done = true → stale = true ∨ s.produced = items)
    (huncalled : b.uncalled = pc.uncalled) (happending : pc.appending = b.appending)
    (hm : m.appended = s.mon.appended) :
    Numbered items first stale ({ s with
      mon := m, done := done, pLock := lock, prod := update s.prod i b, prodPid := n
      file := f }, l) := by
  subst hpc
  exact h.set hborn hmutex hafter (fun k _ => h.after k) h.first_le h.le hdone h.numbers
    (by rw [huncalled]) (by rw [happending, hm])

/-- A step that no producer takes. -/
theorem Numbered.foreign (h : Numbered items first stale (s, l)) (hsize : s'.itemSize = s.itemSize)
    (hprod : s'.prod = s.prod) (hlock : s'.pLock = s.pLock) (hproduced : s'.produced = s.produced)
    (hdone : s'.done = s.done) (hmain : s.main.createdP p ≤ s'.main.createdP p)
    (happended : s'.mon.appended = s.mon.appended) : Numbered items first stale (s', l) where
  size := hsize.trans h.size
  unborn := by
    intro k hk
    show s'.prod k = .unborn
    rw [hprod]
    exact h.unborn k (le_trans hmain hk)
  mutex := by
    show MutexInv ProdPc.holds s'.prod s'.pLock
    rw [hprod, hlock]
    exact h.mutex
  after := by
    show ∀ k, (s'.prod k).After items s'.produced
    rw [hprod, hproduced]
    exact h.after
  first_le := hproduced ▸ h.first_le
  le := hproduced ▸ h.le
  done := by
    show s'.done = true → stale = true ∨ s'.produced = items
    rw [hdone, hproduced]
    exact h.done
  numbers := hproduced ▸ h.numbers
  uncalled := by
    show _ = _ + ∑ k, (s'.prod k).uncalled
    rw [hprod]
    exact h.uncalled
  started := by
    show _ = s'.mon.appended.length + tally s'.prod ProdPc.appending
    rw [hprod, happended]
    exact h.started

/-- `main` creates a producer. -/
theorem Numbered.create (h : Numbered items first stale (s, l)) (hm : s.main = .createP i) :
    Numbered items first stale
      ({ s with prod := update s.prod i .start, main := .incP i }, l) where
  size := h.size
  unborn := by
    intro k hk
    simp only [MainPc.createdP] at hk
    -- `incP i` counts `i` as created
    have hki : k ≠ i := by
      rintro rfl
      have := k.isLt
      omega
    show update s.prod i .start k = .unborn
    rw [update_of_ne hki]
    refine h.unborn k ?_
    simp only [hm, MainPc.createdP]
    have := k.isLt
    omega
  mutex := by
    have hun : s.prod i = .unborn := h.unborn i (by simp [hm, MainPc.createdP])
    exact h.mutex.keep (by rw [hun]; rfl)
  after := forall_update (P := fun _ (pc : ProdPc) => pc.After items s.produced) h.after trivial
  first_le := h.first_le
  le := h.le
  done := h.done
  numbers := h.numbers
  uncalled := by
    have hun : s.prod i = .unborn := h.unborn i (by simp [hm, MainPc.createdP])
    have hsum := sum_update s.prod ProdPc.uncalled i .start
    rw [hun] at hsum
    show _ = _ + ∑ k, (update s.prod i .start k).uncalled
    rw [(add_left_inj _).mp hsum]
    exact h.uncalled
  started := by
    have hun : s.prod i = .unborn := h.unborn i (by simp [hm, MainPc.createdP])
    show _ = s.mon.appended.length + tally (update s.prod i .start) ProdPc.appending
    rw [tally_update_same (by rw [hun]; rfl)]
    exact h.started

/-- `++produced` hands out a number. -/
theorem Numbered.incr (h : Numbered items first stale (s, l)) (hpc : s.prod i = .incr) :
    Numbered items first stale
      ({ s with
          produced := s.produced + 1
          prod := update s.prod i (.unlock (s.produced + 1)) },
        { l with numbers := l.numbers ++ [s.produced + 1] }) := by
  have hne : s.produced ≠ items := h.after_of hpc
  have hfirst : first ≤ s.produced := h.first_le
  have hnumbers : l.numbers = between first s.produced := h.numbers
  refine h.set (ne_unborn hpc (by simp)) (h.mutex.keep (by rw [hpc]; rfl)) trivial ?_ (by omega)
    (fun hle => ?_) (fun hdone => ?_) ?_ ?_ (by rw [hpc]; rfl)
  · -- no other producer is where its position says something about `produced`
    intro k hki
    have hk := h.after k
    have hlock : ¬ (s.prod k).holds = true := fun hholds =>
      hki (h.mutex.unique hholds (show (s.prod i).holds = true by rw [hpc]; rfl))
    cases hpck : s.prod k with
    | incr | setDone | unlockExit =>
        rw [hpck] at hlock
        exact absurd rfl hlock
    | exited =>
        rw [hpck] at hk
        exact absurd hk hne
    | _ => trivial
  · have hle' : s.produced ≤ items := h.le hle
    omega
  · exact Or.inl ((h.done hdone).resolve_right hne)
  · rw [hnumbers, between_succ hfirst]
  · rw [hpc, ← Multiset.coe_add]
    simp only [ProdPc.uncalled, Multiset.coe_singleton]
    abel

/-- The call of `append` uses the number. -/
theorem Numbered.call {n v : Int} {m : Monitor.State (Fin p ⊕ Fin c)}
    (h : Numbered items first stale (s, l)) (hpc : s.prod i = .call n)
    (hm : m.appended = s.mon.appended) :
    Numbered items first stale
      ({ s with mon := m, prod := update s.prod i (.append n v) },
        { l with started := l.started ++ [n] }) := by
  refine h.set (ne_unborn hpc (by simp)) (h.mutex.keep (by rw [hpc]; rfl)) trivial
    (fun k _ => h.after k) h.first_le h.le h.done h.numbers ?_ ?_
  · rw [hpc, ← Multiset.coe_add]
    simp only [ProdPc.uncalled, Multiset.coe_singleton, add_zero]
  · rw [hpc, hm, List.length_append, List.length_singleton, Nat.add_assoc]
    exact congrArg _ (Nat.add_comm _ _)

/-- The end of `append`. -/
theorem Numbered.append {n data : Int} {m : Monitor.State (Fin p ⊕ Fin c)}
    (h : Numbered items first stale (s, l)) (hpc : s.prod i = .append n data)
    (hm : m.appended.length = s.mon.appended.length + 1) :
    Numbered items first stale
      ({ s with mon := m, prod := update s.prod i (.log n data) }, l) := by
  refine h.set (ne_unborn hpc (by simp)) (h.mutex.keep (by rw [hpc]; rfl)) trivial
    (fun k _ => h.after k) h.first_le h.le h.done h.numbers (by rw [hpc]; rfl) ?_
  rw [hpc, hm]
  simp only [ProdPc.appending, Bool.toNat_false, Bool.toNat_true]

/-- Only the critical section of `append` adds to what has been appended. -/
theorem appended_quiet {m : Monitor.State (Fin p ⊕ Fin c)} {b : Monitor.Act (Fin p ⊕ Fin c)}
    (hm : Monitor.next s.mon b = some m) (hb : ∀ t w, b ≠ .lockAppend t w) :
    m.appended = s.mon.appended := by
  cases Monitor.step_of_next hm with
  | appendWaits | appends => exact absurd rfl (hb _ _)
  | _ => rfl

/-- And it does so when it does not wait. -/
theorem appended_lock {m : Monitor.State (Fin p ⊕ Fin c)} {t : Fin p ⊕ Fin c}
    {w : Fin p ⊕ Fin c → Bool} (hm : Monitor.next s.mon (.lockAppend t w) = some m) :
    (m.phase t ≠ .out → m.appended = s.mon.appended) ∧
      (m.phase t = .out → m.appended.length = s.mon.appended.length + 1) := by
  cases Monitor.step_of_next hm with
  | appendWaits =>
      refine ⟨fun _ => rfl, fun hout => ?_⟩
      simp at hout
  | appends =>
      refine ⟨fun hne => absurd (update_self ..) hne, fun _ => ?_⟩
      rw [List.length_append, List.length_singleton]

/-- A step keeps the numbers in order. -/
theorem Numbered.step (h : Numbered items first stale (s, l)) (hn : next s a = some s') :
    Numbered items first stale (s', l.note s a) := by
  cases step_of_next hn with
  | main hp _ => exact h.foreign rfl rfl rfl rfl rfl hp rfl
  | createP hm => exact h.create hm
  | createC hm =>
      refine h.foreign rfl rfl rfl rfl rfl ?_ rfl
      rw [hm]
      exact le_refl p
  | prodStart hpc =>
      simp only [Ledger.note, hpc]
      exact h.move hpc (by simp) (h.mutex.keep (by rw [hpc]; rfl)) trivial h.done rfl rfl rfl
  | prodLock hpc hfree =>
      have hmutex : MutexInv ProdPc.holds s.prod s.pLock := h.mutex
      rw [hfree] at hmutex
      simp only [Ledger.note, hpc]
      exact h.move hpc (by simp) (hmutex.acquire rfl) trivial h.done rfl rfl rfl
  | prodFull hpc heq =>
      simp only [Ledger.note, hpc]
      exact h.move hpc (by simp) (h.mutex.keep (by rw [hpc]; rfl))
        (heq.trans h.size) h.done rfl rfl rfl
  | prodRoom hpc hne =>
      simp only [Ledger.note, hpc]
      exact h.move hpc (by simp) (h.mutex.keep (by rw [hpc]; rfl))
        (fun heq => hne (heq.trans h.size.symm)) h.done rfl rfl rfl
  | prodSetDone hpc =>
      have heq : s.produced = items := h.after_of hpc
      simp only [Ledger.note, hpc]
      exact h.move hpc (by simp) (h.mutex.keep (by rw [hpc]; rfl)) heq
        (fun _ => Or.inr heq) rfl rfl rfl
  | prodExit hpc =>
      have heq : s.produced = items := h.after_of hpc
      simp only [Ledger.note, hpc]
      exact h.move hpc (by simp) (h.mutex.release (by rw [hpc]; rfl) rfl) heq h.done rfl rfl rfl
  | prodIncr hpc =>
      simp only [Ledger.note, hpc]
      exact h.incr hpc
  | prodUnlock hpc =>
      simp only [Ledger.note, hpc]
      exact h.move hpc (by simp) (h.mutex.release (by rw [hpc]; rfl) rfl) trivial
        h.done rfl rfl rfl
  | prodCall hpc hm =>
      simp only [Ledger.note, hpc]
      exact h.call hpc (appended_quiet hm fun _ _ => by simp)
  | prodWaits hpc hm hout =>
      -- the producer stays in `append`
      simp only [Ledger.note, hpc]
      exact h.foreign rfl rfl rfl rfl rfl (le_refl _) ((appended_lock hm).1 hout)
  | prodAppends hpc hm hout =>
      simp only [Ledger.note, hpc]
      exact h.append hpc ((appended_lock hm).2 hout)
  | prodLog hpc =>
      simp only [Ledger.note, hpc]
      exact h.move hpc (by simp) (h.mutex.keep (by rw [hpc]; rfl)) trivial h.done rfl rfl rfl
  | consCall _ hm | consWaits _ hm _ | consRemoves _ hm _ | spurious hm =>
      exact h.foreign rfl rfl rfl rfl rfl (le_refl _) (appended_quiet hm fun _ _ => by simp)
  | _ => exact h.foreign rfl rfl rfl rfl rfl (le_refl _) rfl

end Steps

section Runs

variable {items first : Int} {stale : Bool}

theorem start_numbered (mem : Int → Int) :
    Numbered items first stale (start p c items first stale mem, ⟨[], []⟩) where
  size := rfl
  unborn := fun _ _ => rfl
  mutex := fun i => by simp [start, ProdPc.holds]
  after := fun _ => trivial
  first_le := le_refl first
  le := id
  done := Or.inl
  numbers := by
    show [] = between first first
    rw [between, sub_self]
    rfl
  uncalled := by simp [start, ProdPc.uncalled]
  started := by
    have hnobody : tally (fun _ : Fin p => ProdPc.unborn) ProdPc.appending = 0 :=
      tally_eq_zero.mpr fun _ => rfl
    simp [start, Monitor.start, hnobody]

theorem numberedFrom_inv :
    (numberedFrom p c items first stale).Invariant (Numbered items first stale) := by
  refine TSys.Inductive.invariant ⟨?_, ?_⟩
  · rintro ⟨s, l⟩ ⟨⟨mem, rfl⟩, rfl⟩
    exact start_numbered mem
  · rintro ⟨s, l⟩ a x' h - hn
    obtain ⟨s', hs', rfl⟩ := Option.map_eq_some_iff.mp hn
    exact h.step hs'

/-- No more appends than numbers. -/
theorem Numbered.started_le {x : Program p c × Ledger} (h : Numbered items first stale x) :
    (x.2.started.length : Int) ≤ x.1.produced - first := by
  have hcard := congrArg Multiset.card h.uncalled
  rw [Multiset.card_add, Multiset.coe_card, Multiset.coe_card, h.numbers, between_length] at hcard
  have hfirst := h.first_le
  omega

/-- When all producers are gone, every number is used up. -/
theorem Numbered.exited {x : Program p c × Ledger} (h : Numbered items first stale x) (hp : 1 ≤ p)
    (hexited : ∀ i, x.1.prod i = .exited) :
    x.1.produced = items ∧ x.2.numbers = between first items ∧ x.2.started.Perm x.2.numbers ∧
      (x.1.mon.appended.length : Int) = items - first := by
  have heq : x.1.produced = items := by
    have hi := h.after ⟨0, hp⟩
    rwa [hexited] at hi
  have hnumbers : x.2.numbers = between first items := heq ▸ h.numbers
  have hperm : x.2.started.Perm x.2.numbers := by
    have huncalled := h.uncalled
    -- nobody is between `++produced` and `append` any more
    have hnone : ∑ i, (x.1.prod i).uncalled = 0 :=
      Finset.sum_eq_zero fun i _ => by rw [hexited]; rfl
    rw [hnone, add_zero] at huncalled
    exact (Multiset.coe_eq_coe.mp huncalled).symm
  refine ⟨heq, hnumbers, hperm, ?_⟩
  have hnobody : tally x.1.prod ProdPc.appending = 0 :=
    tally_eq_zero.mpr fun i => by rw [hexited]; rfl
  have hstarted := h.started
  have hlength := hperm.length_eq
  rw [hnumbers, between_length] at hlength
  have hfirst := h.first_le
  omega

/-- **Item numbering is exact.** In every run of the first call, at most `items` appends are
started, `done` is true only when all items are counted and no number is handed out
twice; when all producers have exited, the numbers are those from 1 to `items`, with one
append each, which is over. -/
theorem items_numbered (p c : Nat) (hp : 1 ≤ p) (items : Int) (hitems : 0 ≤ items) :
    (numbered p c items).Invariant fun x =>
      (x.2.started.length : Int) ≤ items ∧ (x.1.done = true → x.1.produced = items) ∧
      x.2.numbers.Nodup ∧
      ((∀ i, x.1.prod i = .exited) → x.2.numbers = between 0 items ∧
        x.2.started.Perm (between 0 items) ∧ (x.1.mon.appended.length : Int) = items) := by
  intro x hx
  have h : Numbered items 0 false x := numberedFrom_inv x hx
  refine ⟨?_, fun hdone => ?_, ?_, fun hexited => ?_⟩
  · have hstarted := h.started_le
    have hle := h.le hitems
    omega
  · exact (h.done hdone).resolve_left (by simp)
  · rw [h.numbers]
    exact between_nodup
  · obtain ⟨-, hnumbers, hperm, happended⟩ := h.exited hp hexited
    exact ⟨hnumbers, hnumbers ▸ hperm, by omega⟩

/-- Two producers: the number 1 is handed out first, and the number 2 is appended first. -/
def overtaken : List (Act 2 1) :=
  let one : Act 2 1 := .prod 0 0 nobody
  let two : Act 2 1 := .prod 1 0 nobody
  let consumer : Act 2 1 := .cons ⟨0, Nat.one_pos⟩ 0 nobody
  List.replicate 8 .main ++ [one, two, consumer] ++ List.replicate 4 one ++
    List.replicate 7 two ++ List.replicate 6 consumer ++ List.replicate 3 one ++
    List.replicate 6 consumer ++ List.replicate 11 one ++ List.replicate 4 two

theorem items_numbered_two_one : ∃ x : Program 2 1 × Ledger, (∀ i, x.1.prod i = .exited) ∧
    x.2.started = [2, 1, 3] ∧ x.2.numbers = between 0 3 ∧ x.2.started.Perm (between 0 3) ∧
      x.1.mon.appended.length = 3 := by
  obtain ⟨x, hx, hexited, hstarted⟩ := (numbered 2 1 3).exists_of_run
    (P := fun x => (∀ i, x.1.prod i = .exited) ∧ x.2.started = [2, 1, 3])
    (start 2 1 3 0 false fun _ => 0, ⟨[], []⟩) overtaken ⟨⟨_, rfl⟩, rfl⟩ (by decide +kernel)
  obtain ⟨-, -, -, hend⟩ := items_numbered 2 1 (by decide) 3 (by decide) x hx
  obtain ⟨hnumbers, hperm, happended⟩ := hend hexited
  exact ⟨x, hexited, hstarted, hnumbers, hperm, by omega⟩

end Runs

end Program

end Os377.ProdCon
