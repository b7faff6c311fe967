import Os377.Lib.Schedule

/-!
# Work-conserving schedules

A processor that never idles while a job is pending is busy in ticks that only
depend on the jobs: the work done before a tick is the number of busy ticks
before it, and the processor idles exactly when that is all the work that has
arrived. Two such schedules of the same jobs are busy in the same ticks
(`Conserving.same_busy`), whatever they run in them.
-/

namespace Os377.Lib

namespace Jobs

variable {ι : Type*} [DecidableEq ι] {J : Jobs ι} {f g : Nat → Option ι} {i : ι} {t t' u : Nat}

/-- After the last tick of a schedule nothing more is served. -/
theorem served_beyond (hover : ∀ v, t ≤ v → f v = none) (hu : t ≤ u) :
    served f i u = served f i t := by
  induction u, hu using Nat.le_induction with
  | base => rfl
  | succ u hu ih => rw [served_succ, hover u hu, ih, if_neg (by simp), Nat.add_zero]

variable [Fintype ι]

/-- Each busy tick serves one job. -/
theorem sum_served (f : Nat → Option ι) (u : Nat) :
    ∑ i, served f i u = Nat.count (fun v => (f v).isSome) u := by
  induction u with
  | zero => simp
  | succ u ih =>
      have hone : ∑ i, (if f u = some i then 1 else 0) = if (f u).isSome then 1 else 0 := by
        cases f u with
        | none => simp
        | some j => simp
      rw [Nat.count_succ, ← ih, ← hone, ← Finset.sum_add_distrib]
      exact Finset.sum_congr rfl fun i _ => served_succ

/-- In a time without an idle tick each tick serves one job. -/
theorem sum_served_of_ran (hran : ∀ v < u, (f v).isSome) : ∑ i, served f i u = u := by
  rw [sum_served]
  exact Nat.count_iff_forall.mpr hran

/-- The work that has arrived by tick `u`. -/
def arrived (J : Jobs ι) (u : Nat) : Nat := ∑ i with J.arrival i ≤ u, J.duration i

/-- While less has been served than has arrived, some job is pending. -/
theorem exists_pending (h : ∑ i, served f i u < J.arrived u) : ∃ i, J.Pending f u i := by
  have hsub : ∑ i with J.arrival i ≤ u, served f i u ≤ ∑ i, served f i u :=
    Finset.sum_le_sum_of_subset (Finset.filter_subset _ _)
  obtain ⟨i, hi, hleft⟩ := Finset.exists_lt_of_sum_lt (lt_of_le_of_lt hsub h)
  exact ⟨i, (Finset.mem_filter.mp hi).2, hleft⟩

/-- A finished work-conserving schedule is busy exactly while some of the work
that has arrived is not done. -/
theorem Conserving.isSome_iff (h : J.Conserving f t) (hdone : ∀ i, served f i t = J.duration i) :
    (f u).isSome ↔ ∑ i, served f i u < J.arrived u := by
  constructor
  · intro hsome
    obtain ⟨j, hj⟩ := Option.isSome_iff_exists.mp hsome
    obtain ⟨harr, hleft⟩ := h.pending hj
    have hsum : ∑ i, served f i u = ∑ i with J.arrival i ≤ u, served f i u := by
      refine (Finset.sum_filter_of_ne fun i _ hne => ?_).symm
      by_contra hlate
      exact hne (h.served_eq_zero (by omega))
    rw [hsum, arrived]
    refine Finset.sum_lt_sum (fun i _ => h.served_le) ⟨j, ?_, hleft⟩
    exact Finset.mem_filter.mpr ⟨Finset.mem_univ j, harr⟩
  · intro hlt
    obtain ⟨i, hi⟩ := exists_pending hlt
    have hu : u < t := by
      by_contra hge
      have hleft := hi.2
      rw [served_beyond h.beyond (by omega), hdone] at hleft
      omega
    have hbusy := h.busy u hu
    cases hf : f u with
    | some j => rfl
    | none =>
        rw [hf] at hbusy
        exact absurd hi (hbusy i)

/-- **Work conservation.** Two finished work-conserving schedules are busy in
the same ticks. -/
theorem Conserving.same_busy (hf : J.Conserving f t) (hfd : ∀ i, served f i t = J.duration i)
    (hg : J.Conserving g t') (hgd : ∀ i, served g i t' = J.duration i) (u : Nat) :
    (f u).isSome = (g u).isSome := by
  induction u using Nat.strong_induction_on with
  | _ u ih =>
      have hcount : ∑ i, served f i u = ∑ i, served g i u := by
        rw [sum_served, sum_served, Nat.count_eq_card_filter_range, Nat.count_eq_card_filter_range]
        congr 1
        refine Finset.filter_congr fun v hv => ?_
        rw [ih v (Finset.mem_range.mp hv)]
      rw [Bool.eq_iff_iff, hf.isSome_iff hfd, hg.isSome_iff hgd, hcount]

/-- While a job is pending the processor has not idled since some arrival: the
ticks since then went to jobs that arrived then or later. -/
theorem Conserving.clock_le (h : J.Conserving f t) (hu : u ≤ t) (hi : J.Pending f u i) :
    ∃ k, J.arrival k ≤ J.arrival i ∧
      u ≤ J.arrival k + ∑ j with J.arrival k ≤ J.arrival j, served f j u := by
  induction u generalizing i with
  | zero => exact ⟨i, le_rfl, Nat.zero_le _⟩
  | succ u ih =>
      by_cases harr : J.arrival i = u + 1
      · exact ⟨i, le_rfl, by omega⟩
      · have hmono := served_mono (f := f) (i := i) (Nat.le_succ u)
        have hpending : J.Pending f u i := ⟨by have := hi.1; omega, (served_mono (Nat.le_succ u)).trans_lt hi.2⟩
        obtain ⟨m, hm⟩ : ∃ m, f u = some m := by
          have hbusy := h.busy u (by omega)
          cases hf : f u with
          | some m => exact ⟨m, rfl⟩
          | none =>
              rw [hf] at hbusy
              exact absurd hpending (hbusy i)
        -- one more tick for the jobs since the arrival of `k`, if that is no later than `m`'s
        have hone : ∀ k, J.arrival k ≤ J.arrival m →
            u ≤ J.arrival k + ∑ j with J.arrival k ≤ J.arrival j, served f j u →
            u + 1 ≤ J.arrival k + ∑ j with J.arrival k ≤ J.arrival j, served f j (u + 1) := by
          intro k hk hle
          have hlt : ∑ j with J.arrival k ≤ J.arrival j, served f j u <
              ∑ j with J.arrival k ≤ J.arrival j, served f j (u + 1) := by
            refine Finset.sum_lt_sum (fun j _ => served_mono (Nat.le_succ u)) ⟨m, ?_, ?_⟩
            · exact Finset.mem_filter.mpr ⟨Finset.mem_univ m, hk⟩
            · rw [served_succ, if_pos hm]
              omega
          omega
        obtain ⟨k, hk, hle⟩ := ih (by omega) hpending
        by_cases hkm : J.arrival k ≤ J.arrival m
        · exact ⟨k, hk, hone k hkm hle⟩
        · obtain ⟨k', hk', hle'⟩ := ih (by omega) (h.pending hm)
          exact ⟨k', by omega, hone k' hk' hle'⟩

/-- A pending job is done before the end of the work that arrives since any
arrival, if it gets all the ticks that follow. -/
theorem Conserving.remaining_le {limit : Nat} (h : J.Conserving f t) (hu : u ≤ t)
    (hlimit : ∀ k, J.arrival k + ∑ j with J.arrival k ≤ J.arrival j, J.duration j ≤ limit)
    (hi : J.Pending f u i) : u + J.remaining f u i ≤ limit := by
  obtain ⟨k, hk, hle⟩ := h.clock_le hu hi
  have hmem : i ∈ Finset.univ.filter fun j => J.arrival k ≤ J.arrival j :=
    Finset.mem_filter.mpr ⟨Finset.mem_univ i, hk⟩
  have hrest : ∑ j ∈ (Finset.univ.filter fun j => J.arrival k ≤ J.arrival j).erase i,
        served f j u ≤
      ∑ j ∈ (Finset.univ.filter fun j => J.arrival k ≤ J.arrival j).erase i, J.duration j :=
    Finset.sum_le_sum fun j _ => h.served_le
  have hserved := Finset.add_sum_erase _ (fun j => served f j u) hmem
  have hduration := Finset.add_sum_erase _ J.duration hmem
  have hlast := hlimit k
  have hdone := h.served_le (i := i) (u := u)
  rw [remaining]
  omega

end Jobs

end Os377.Lib
