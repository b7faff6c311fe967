import Os377.ProdCon.Progress

/-!
# Which calls keep room

Room for what the producers have in hand fails when the consumers leave before them. With at
most one item there is nothing else in the buffer. In a first call a consumer leaves only
behind a producer, so one producer has nothing in hand by then; the other one of two has at
most one item, and the last of several consumers has found the buffer empty after that.
-/

namespace Os377.ProdCon

open Os377.Lib Function

namespace Program

variable {p c : Nat} {items : Int} {stale : Bool} {s s' : Program p c}

/-- With one item there is room for it. -/
theorem Inv.room_of_le_one (h : Inv items stale s) (hle : items ≤ 1) : Room s := by
  intro i n data hpc hfull
  have hpending : 0 < tally s.prod ProdPc.pending := tally_pos.mpr ⟨i, by rw [hpc]; rfl⟩
  have hbal := h.balance
  have hproduced := h.prods.le
  omega

/-- How the threads of a first call leave: a producer that has left goes first, then the
consumers; when all of these are gone, or the last of them on its way, at most one item is
still to be removed. -/
structure Leaving (s : Program p c) : Prop where
  stopped : s.done = true → ∃ i, s.prod i = .unlockExit ∨ s.prod i = .exited
  left : ∀ j, s.cons j = .unlockExit ∨ s.cons j = .exited → s.done = true
  spare : (∃ j, s.cons j = .exited) →
    ((∀ k, s.cons k = .exited) ∨ ∃ k, s.cons k = .testDone ∨ s.cons k = .unlockExit) →
      s.produced ≤ s.mon.removed.length + 1

/-- The producer that has left owes nothing. -/
theorem Leaving.pending_lt (h : Leaving s) (hdone : s.done = true) :
    tally s.prod ProdPc.pending < p := by
  obtain ⟨i, hi⟩ := h.stopped hdone
  have hlt : tally s.prod ProdPc.pending < tally s.prod fun _ => true :=
    tally_lt (fun _ _ => rfl) ⟨i, rfl, by rcases hi with hi | hi <;> rw [hi] <;> rfl⟩
  simpa [tally] using hlt

/-- A producer moves before its exit. -/
theorem Leaving.stopped_update (h : Leaving s) {i : Fin p} {pc b : ProdPc} (hpc : s.prod i = pc)
    (hb : (pc ≠ .unlockExit ∧ pc ≠ .exited) ∨ b = .exited) (hdone : s.done = true) :
    ∃ k, update s.prod i b k = .unlockExit ∨ update s.prod i b k = .exited := by
  obtain ⟨k, hk⟩ := h.stopped hdone
  by_cases hki : k = i
  · rcases hb with ⟨h1, h2⟩ | rfl
    · rw [hki, hpc] at hk
      exact absurd hk (by simp [h1, h2])
    · exact ⟨i, .inr (update_self _ _ _)⟩
  · exact ⟨k, by rwa [update_of_ne hki]⟩

/-- Another consumer has exited already. -/
theorem exited_other {j : Fin c} {b : ConsPc} (hb : b ≠ .exited)
    (hexited : ∃ k, update s.cons j b k = .exited) : ∃ k, k ≠ j ∧ s.cons k = .exited := by
  obtain ⟨k, hk⟩ := hexited
  by_cases hkj : k = j
  · rw [hkj, update_self] at hk
    exact absurd hk hb
  · exact ⟨k, hkj, by rwa [update_of_ne hkj] at hk⟩

/-- A consumer that does not leave takes nothing away from what is known of the others. -/
theorem Leaving.spare_update (h : Leaving s) {j : Fin c} {b : ConsPc} (hexit : b ≠ .exited)
    (hquit : b = .testDone ∨ b = .unlockExit →
      s.cons j = .testDone ∨ s.cons j = .unlockExit)
    (hexited : ∃ k, update s.cons j b k = .exited)
    (hlast : (∀ k, update s.cons j b k = .exited) ∨
      ∃ k, update s.cons j b k = .testDone ∨ update s.cons j b k = .unlockExit) :
    s.produced ≤ s.mon.removed.length + 1 := by
  obtain ⟨k, hkj, hk⟩ := exited_other hexit hexited
  refine h.spare ⟨k, hk⟩ (.inr ?_)
  rcases hlast with hall | ⟨i, hi⟩
  · have hj := hall j
    rw [update_self] at hj
    exact absurd hj hexit
  · by_cases hij : i = j
    · rw [hij, update_self] at hi
      exact ⟨j, hquit hi⟩
    · rw [update_of_ne hij] at hi
      exact ⟨i, hi⟩

theorem Leaving.stopped_step {a : Act p c} (h : Leaving s) (hinv : Inv items false s)
    (hs : Step s a s') (hdone : s'.done = true) :
    ∃ i, s'.prod i = .unlockExit ∨ s'.prod i = .exited := by
  cases hs with
  | @createP i hm =>
      have hunborn : s.prod i = .unborn :=
        hinv.prods.unborn i (by simp [hm, MainPc.createdP])
      exact h.stopped_update hunborn (.inl (by simp)) hdone
  | @prodSetDone i v w hpc => exact ⟨i, .inl (update_self _ _ _)⟩
  | prodExit hpc => exact h.stopped_update hpc (.inr rfl) hdone
  | prodStart hpc | prodLock hpc _ | prodFull hpc _ | prodRoom hpc _ | prodIncr hpc
  | prodUnlock hpc | prodCall hpc _ | prodAppends hpc _ _ | prodLog hpc =>
      exact h.stopped_update hpc (.inl (by simp)) hdone
  | _ => exact h.stopped hdone

theorem Leaving.left_step {a : Act p c} (h : Leaving s) (hs : Step s a s') :
    ∀ j, s'.cons j = .unlockExit ∨ s'.cons j = .exited → s'.done = true := by
  have hupdate : ∀ {j : Fin c} {b : ConsPc}, (b = .unlockExit ∨ b = .exited → s.done = true) →
      ∀ k, update s.cons j b k = .unlockExit ∨ update s.cons j b k = .exited → s.done = true :=
    fun hb => forall_update
      (P := fun _ (pc : ConsPc) => pc = .unlockExit ∨ pc = .exited → s.done = true) h.left hb
  cases hs with
  | prodSetDone _ => exact fun _ _ => rfl
  | consQuit _ hdone => exact hupdate fun _ => hdone
  | @consExit j v w hpc => exact hupdate fun _ => h.left j (.inl hpc)
  | createC _ | consStart _ | consLock _ _ | consEmpty _ _ | consNonempty _ _ | consStay _ _
  | consCall _ _ | consRemoves _ _ _ | consUnlock _ | consLog _ => exact hupdate (by simp)
  | _ => exact h.left

/-- A consumer leaves. If it is the first, it is also the last, and then so was the one
producer. -/
theorem Leaving.exit (hfew : p = 1 ∨ p = 2 ∧ 2 ≤ c) (h : Leaving s) (hinv : Inv items false s)
    {j : Fin c} (hpc : s.cons j = .unlockExit)
    (hlast : (∀ k, update s.cons j .exited k = .exited) ∨
      ∃ k, update s.cons j .exited k = .testDone ∨ update s.cons j .exited k = .unlockExit) :
    s.produced ≤ s.mon.removed.length + 1 := by
  by_cases hexited : ∃ k, s.cons k = .exited
  · exact h.spare hexited (.inr ⟨j, .inr hpc⟩)
  rw [not_exists] at hexited
  rcases hlast with hall | ⟨k, hk⟩
  · have honly : ∀ k, k = j := by
      intro k
      by_contra hkj
      have hk := hall k
      rw [update_of_ne hkj] at hk
      exact hexited k hk
    have hone : p = 1 := by
      refine hfew.resolve_right fun ⟨_, hc⟩ => ?_
      have h0 := honly ⟨0, by omega⟩
      have h1 := honly ⟨1, by omega⟩
      exact absurd (h0.trans h1.symm) (by simp)
    have hpending := h.pending_lt (h.left j (.inl hpc))
    have hbal := hinv.balance
    have hcnt := hinv.fifo.wf.cnt_le
    omega
  · -- two consumers would hold `c_lock`
    have hkj : k ≠ j := by
      rintro rfl
      simp at hk
    rw [update_of_ne hkj] at hk
    have hholds : (s.cons k).holds = true := by rcases hk with hk | hk <;> rw [hk] <;> rfl
    exact absurd (hinv.conss.mutex.unique hholds (by rw [hpc]; rfl)) hkj

theorem Leaving.spare_step {a : Act p c} (hfew : p = 1 ∨ p = 2 ∧ 2 ≤ c) (h : Leaving s)
    (hinv : Inv items false s) (hs : Step s a s') (hexited : ∃ j, s'.cons j = .exited)
    (hlast : (∀ k, s'.cons k = .exited) ∨ ∃ k, s'.cons k = .testDone ∨ s'.cons k = .unlockExit) :
    s'.produced ≤ s'.mon.removed.length + 1 := by
  have hmon : ∀ {b m}, Monitor.next s.mon b = some m → s.produced ≤ s.mon.removed.length + 1 →
      s.produced ≤ m.removed.length + 1 := by
    intro b m hm hle
    cases Monitor.step_of_next hm with
    | removes _ _ _ =>
        simp only [List.length_append, List.length_singleton]
        omega
    | _ => exact hle
  cases hs with
  | @prodIncr i v w hpc =>
      -- nobody has left while there are items to count
      obtain ⟨j, hj⟩ := hexited
      have heq := hinv.done (h.left j (.inr hj))
      have hne := hinv.prods.ok i
      rw [hpc] at hne
      exact absurd heq hne
  | prodCall _ hm | prodWaits _ hm _ | prodAppends _ hm _ | consWaits _ hm _ | spurious hm =>
      exact hmon hm (h.spare hexited hlast)
  | createC _ | consStart _ | consLock _ _ | consNonempty _ _ | consStay _ _ | consUnlock _
  | consLog _ => exact h.spare_update (by simp) (by simp) hexited hlast
  | consCall _ hm | consRemoves _ hm _ =>
      exact hmon hm (h.spare_update (by simp) (by simp) hexited hlast)
  | @consEmpty j v w hpc hempty =>
      -- empty, and at most one producer has something in hand
      obtain ⟨k, -, hk⟩ := exited_other (by simp) hexited
      have hpending := h.pending_lt (h.left k (.inr hk))
      have hbal := hinv.balance
      show s.produced ≤ s.mon.removed.length + 1
      omega
  | consQuit hpc _ => exact h.spare_update (by simp) (fun _ => .inl hpc) hexited hlast
  | consExit hpc => exact Leaving.exit (s := s) hfew h hinv hpc hlast
  | _ => exact h.spare hexited hlast

theorem leaving_invariant (hitems : 0 ≤ items) (hfew : p = 1 ∨ p = 2 ∧ 2 ≤ c) :
    (callFrom p c items 0 false).Invariant Leaving := by
  refine TSys.Invariant.stepUnder (C := fun _ _ => True) (inv_invariant hitems) ?_ ?_
  · rintro s ⟨mem, rfl⟩
    exact ⟨fun hdone => by simp [start] at hdone, fun j hj => by simp [start] at hj,
      fun ⟨j, hj⟩ => by simp [start] at hj⟩
  · intro s a s' hinv h _ hn
    have hs := step_of_next hn
    exact ⟨h.stopped_step hinv hs, h.left_step hs, h.spare_step hfew hinv hs⟩

/-- A first call with one producer, or with two and more than one consumer, keeps room: when
the consumers are gone, at most one item is not removed. -/
theorem Leaving.room (h : Leaving s) (hinv : Inv items false s) (hc : 1 ≤ c) : Room s := by
  intro i n data hpc hfull
  by_contra hnone
  rw [not_exists] at hnone
  have hall : ∀ j, s.cons j = .exited := fun j => not_not.mp (hnone j)
  have hspare := h.spare ⟨⟨0, hc⟩, hall _⟩ (.inl hall)
  have hpending : 0 < tally s.prod ProdPc.pending := tally_pos.mpr ⟨i, by rw [hpc]; rfl⟩
  have hbal := hinv.balance
  omega

end Program

end Os377.ProdCon
