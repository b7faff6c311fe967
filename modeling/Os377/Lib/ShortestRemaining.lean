import Os377.Lib.Conserving

/-!
# Shortest remaining time first is optimal

Against any feasible schedule `g`, a schedule `f` by shortest remaining time has
never more unfinished jobs, so its completion times add up to no more.

The exchange argument is about the work that is left when some jobs are set
aside: whatever set `A` is set aside under `g`, there is a set of at most as many
jobs that leaves `f` with at most as much work (`Ahead`). A tick keeps this: if
`f` runs a job that is set aside, it needs no more than any pending job that is
not, and the two change places.
-/

namespace Os377.Lib

namespace Jobs

variable {ι : Type*} [DecidableEq ι] {J : Jobs ι} {f g : Nat → Option ι} {i j : ι} {t u : Nat}

/-- No job runs before its arrival, and each gets exactly its duration. -/
structure Feasible (J : Jobs ι) (g : Nat → Option ι) : Prop where
  release : ∀ u i, g u = some i → J.arrival i ≤ u
  exact : ∀ i, { u | g u = some i }.ncard = J.duration i

/-- A finished work-conserving schedule is feasible. -/
theorem Conserving.feasible (h : J.Conserving f t) (hdone : ∀ i, served f i t = J.duration i) :
    J.Feasible f where
  release _ _ hf := (h.pending hf).1
  exact i := (ncard_ticks h.beyond).trans (hdone i)

/-- A finished schedule by shortest remaining time goes on as one. -/
theorem Srpt.shortest_always (h : J.Srpt f t) (hdone : ∀ i, served f i t = J.duration i) (u : Nat) :
    J.Shortest f u (f u) := by
  by_cases hu : u < t
  · exact h.shortest u hu
  · rw [h.beyond u (by omega)]
    intro i hi
    have := hi.2
    rw [served_beyond h.beyond (by omega), hdone] at this
    omega

theorem Feasible.served_eq_zero (h : J.Feasible g) (ha : u ≤ J.arrival i) : served g i u = 0 := by
  by_contra hne
  obtain ⟨v, hv, hg⟩ := served_pos_iff.mp (Nat.pos_of_ne_zero hne)
  have := h.release v i hg
  omega

/-- A job that takes time gets no more than its duration. -/
theorem Feasible.served_le (h : J.Feasible g) (hpos : 0 < J.duration i) :
    served g i u ≤ J.duration i := by
  have hfinite : { v | g v = some i }.Finite :=
    Set.finite_of_ncard_pos (by rw [h.exact]; exact hpos)
  rw [served, Nat.count_eq_card_filter_range, ← Set.ncard_coe_finset, ← h.exact i]
  refine Set.ncard_le_ncard (fun v hv => ?_) hfinite
  exact (Finset.mem_filter.mp (Finset.mem_coe.mp hv)).2

theorem Feasible.remaining_eq (h : J.Feasible g) (ha : u ≤ J.arrival i) :
    J.remaining g u i = J.duration i := by
  rw [remaining, h.served_eq_zero ha, Nat.sub_zero]

/-- A tick takes at most one unit from one job. -/
theorem remaining_le_succ : J.remaining g t i ≤ J.remaining g (t + 1) i +
    if g t = some i then 1 else 0 := by
  rw [remaining, remaining, served_succ]
  split <;> omega

theorem remaining_succ_le : J.remaining f (t + 1) i ≤ J.remaining f t i := by
  rw [remaining, remaining, served_succ]
  omega

theorem remaining_of_not_pending (ha : J.arrival i ≤ t) (h : ¬ J.Pending f t i) :
    J.remaining f t i = 0 := by
  unfold Pending at h
  unfold remaining
  omega

/-! ## One tick -/

/-- A tick of any schedule does at most one unit of work. -/
theorem sum_remaining_le (S : Finset ι) :
    ∑ i ∈ S, J.remaining g t i ≤ ∑ i ∈ S, J.remaining g (t + 1) i + 1 := by
  have hone : ∑ i ∈ S, (if g t = some i then 1 else 0) ≤ 1 := by
    cases hg : g t with
    | none => simp
    | some j =>
        simp only [Option.some.injEq, Finset.sum_ite_eq]
        split <;> omega
  calc ∑ i ∈ S, J.remaining g t i
      ≤ ∑ i ∈ S, (J.remaining g (t + 1) i + if g t = some i then 1 else 0) :=
        Finset.sum_le_sum fun i _ => remaining_le_succ
    _ = ∑ i ∈ S, J.remaining g (t + 1) i + ∑ i ∈ S, (if g t = some i then 1 else 0) :=
        Finset.sum_add_distrib
    _ ≤ ∑ i ∈ S, J.remaining g (t + 1) i + 1 := by omega

/-- A tick that runs a pending job of `S` does one. -/
theorem sum_remaining_run {S : Finset ι} (hf : f t = some j) (hj : j ∈ S)
    (hpend : J.Pending f t j) :
    ∑ i ∈ S, J.remaining f (t + 1) i + 1 ≤ ∑ i ∈ S, J.remaining f t i := by
  have hlt : ∑ i ∈ S, J.remaining f (t + 1) i < ∑ i ∈ S, J.remaining f t i := by
    refine Finset.sum_lt_sum (fun i _ => remaining_succ_le) ⟨j, hj, ?_⟩
    rw [remaining, remaining, served_succ, if_pos hf]
    have := hpend.2
    omega
  omega

variable [Fintype ι]

/-- Without an idle tick a feasible schedule never runs out of arrived work. -/
theorem Feasible.lt_arrived (h : J.Feasible g) (hpos : ∀ i, 0 < J.duration i)
    (hran : ∀ v ≤ u, (g v).isSome) : u < J.arrived u := by
  have hticks : ∑ i, served g i (u + 1) = u + 1 :=
    sum_served_of_ran fun v hv => hran v (by omega)
  have hsum : ∑ i, served g i (u + 1) = ∑ i with J.arrival i ≤ u, served g i (u + 1) := by
    refine (Finset.sum_filter_of_ne fun i _ hne => ?_).symm
    by_contra hlate
    exact hne (h.served_eq_zero (by omega))
  have hle : ∑ i with J.arrival i ≤ u, served g i (u + 1) ≤ J.arrived u :=
    Finset.sum_le_sum fun i _ => h.served_le (hpos i)
  omega

/-- All the work takes as many ticks as there are. -/
theorem Feasible.sum_duration_le (h : J.Feasible g) (hover : ∀ v, u ≤ v → g v = none) :
    ∑ i, J.duration i ≤ u := by
  calc ∑ i, J.duration i
      = ∑ i, served g i u :=
        Finset.sum_congr rfl fun i _ => (h.exact i).symm.trans (ncard_ticks hover)
    _ = Nat.count (fun v => (g v).isSome) u := sum_served g u
    _ ≤ u := Nat.count_le _

/-- The jobs that have arrived by tick `u`, but for those set aside. -/
def others (J : Jobs ι) (u : Nat) (A : Finset ι) : Finset ι := {i | J.arrival i ≤ u ∧ i ∉ A}

theorem mem_others {A : Finset ι} : i ∈ J.others u A ↔ J.arrival i ≤ u ∧ i ∉ A := by
  simp [others]

/-- The work that is left when the jobs in `A` are set aside. -/
def left (J : Jobs ι) (g : Nat → Option ι) (u : Nat) (A : Finset ι) : Nat :=
  ∑ i ∈ J.others u A, J.remaining g u i

/-- Setting `i` aside in place of `j`, which needs no more. -/
theorem left_exchange {B : Finset ι} (hj : j ∈ B) (hja : J.arrival j ≤ t)
    (hi : i ∉ B) (hia : J.arrival i ≤ t) (hle : J.remaining f t j ≤ J.remaining f t i) :
    J.left f t (insert i (B.erase j)) ≤ J.left f t B := by
  have hne : i ≠ j := fun hij => hi (hij ▸ hj)
  have hset : J.others t (insert i (B.erase j)) = insert j ((J.others t B).erase i) := by
    ext k
    simp only [mem_others, Finset.mem_insert, Finset.mem_erase]
    by_cases hkj : k = j
    · rw [hkj]
      simp [hja, hne.symm]
    · by_cases hki : k = i <;> simp [hkj, hki, hne]
  have hmem : i ∈ J.others t B := mem_others.mpr ⟨hia, hi⟩
  have hnot : j ∉ (J.others t B).erase i := fun h =>
    (mem_others.mp (Finset.mem_of_mem_erase h)).2 hj
  rw [left, left, hset, Finset.sum_insert hnot, ← Finset.add_sum_erase _ _ hmem]
  omega

/-- The tick of shortest remaining time does one unit of work, or leaves none,
for a set of as many jobs put aside. -/
theorem Shortest.tick (h : J.Shortest f t (f t)) (B : Finset ι) : ∃ B' : Finset ι,
    B'.card ≤ B.card ∧ ∑ i ∈ J.others t B', J.remaining f (t + 1) i ≤ J.left f t B - 1 := by
  have hnothing : (∀ i, i ∉ B → ¬ J.Pending f t i) →
      ∑ i ∈ J.others t B, J.remaining f (t + 1) i ≤ J.left f t B - 1 := by
    intro hnone
    have hzero : ∑ i ∈ J.others t B, J.remaining f (t + 1) i = 0 := by
      refine Finset.sum_eq_zero fun i hi => ?_
      obtain ⟨harr, hiB⟩ := mem_others.mp hi
      have h0 := remaining_of_not_pending harr (hnone i hiB)
      have hle := remaining_succ_le (J := J) (f := f) (t := t) (i := i)
      omega
    omega
  cases hf : f t with
  | none =>
      rw [hf] at h
      exact ⟨B, le_refl _, hnothing fun i _ => h i⟩
  | some j =>
      rw [hf] at h
      obtain ⟨hpend, hshort⟩ := h
      by_cases hj : j ∈ B
      · by_cases hpending : ∃ i, i ∉ B ∧ J.Pending f t i
        · -- the job that runs takes the place of `i`
          obtain ⟨i, hi, hpi⟩ := hpending
          have hexch := left_exchange hj hpend.1 hi hpi.1 (hshort i hpi)
          have hmem : j ∈ J.others t (insert i (B.erase j)) := by
            have hne : j ≠ i := fun hji => hi (hji ▸ hj)
            simp [mem_others, hpend.1, hne]
          have hrun := sum_remaining_run hf hmem hpend
          refine ⟨insert i (B.erase j), ?_, ?_⟩
          · have h1 := Finset.card_insert_le i (B.erase j)
            have h2 := Finset.card_erase_add_one hj
            omega
          · unfold left at hexch ⊢
            omega
        · push Not at hpending
          exact ⟨B, le_refl _, hnothing hpending⟩
      · have hrun := sum_remaining_run hf (mem_others.mpr ⟨hpend.1, hj⟩) hpend
        refine ⟨B, le_refl _, ?_⟩
        unfold left
        omega

/-! ## All ticks -/

/-- Whatever is set aside under `g`, as much can be set aside under `f` so that no
more work is left. -/
def Ahead (J : Jobs ι) (f g : Nat → Option ι) (u : Nat) : Prop :=
  ∀ A : Finset ι, ∃ B : Finset ι, B.card ≤ A.card ∧ J.left f u B ≤ J.left g u A

/-- The jobs that arrive in the next tick join those that have arrived. -/
theorem left_succ (h : J.Feasible g) (A : Finset ι) :
    J.left g (u + 1) A = ∑ i ∈ J.others u A, J.remaining g (u + 1) i +
      ∑ i with J.arrival i = u + 1 ∧ i ∉ A, J.duration i := by
  have hnew : ∑ i with J.arrival i = u + 1 ∧ i ∉ A, J.duration i =
      ∑ i with J.arrival i = u + 1 ∧ i ∉ A, J.remaining g (u + 1) i := by
    refine Finset.sum_congr rfl fun i hi => ?_
    have harr := (Finset.mem_filter.mp hi).2.1
    exact (h.remaining_eq harr.ge).symm
  rw [hnew, left, ← Finset.sum_union]
  · congr 1
    ext i
    simp only [mem_others, Finset.mem_union, Finset.mem_filter, Finset.mem_univ, true_and]
    by_cases hi : i ∈ A
    · simp [hi]
    · simp only [hi, not_false_eq_true, and_true]
      omega
  · rw [Finset.disjoint_left]
    intro i hi hi'
    have h1 := (mem_others.mp hi).1
    have h2 := (Finset.mem_filter.mp hi').2.1
    omega

/-- One tick keeps `f` ahead. -/
theorem Ahead.step (h : J.Ahead f g u) (hf : J.Feasible f) (hg : J.Feasible g)
    (hshort : J.Shortest f u (f u)) : J.Ahead f g (u + 1) := by
  intro A
  -- the jobs of `A` that have yet to arrive stay where they are
  obtain ⟨B, hB, hleft⟩ := h (A.filter fun i => J.arrival i ≤ u)
  obtain ⟨B', hB', htick⟩ := hshort.tick B
  have hsame : J.others u (A.filter fun i => J.arrival i ≤ u) = J.others u A := by
    ext i
    simp only [mem_others, Finset.mem_filter]
    tauto
  refine ⟨B' ∪ A.filter fun i => ¬ J.arrival i ≤ u, ?_, ?_⟩
  · have h1 := Finset.card_union_le B' (A.filter fun i => ¬ J.arrival i ≤ u)
    have h2 := Finset.card_filter_add_card_filter_not (s := A) fun i => J.arrival i ≤ u
    omega
  · rw [left_succ hf, left_succ hg]
    have hold : ∑ i ∈ J.others u (B' ∪ A.filter fun i => ¬ J.arrival i ≤ u),
        J.remaining f (u + 1) i ≤ ∑ i ∈ J.others u B', J.remaining f (u + 1) i := by
      refine Finset.sum_le_sum_of_subset fun i hi => ?_
      obtain ⟨harr, hnot⟩ := mem_others.mp hi
      exact mem_others.mpr ⟨harr, fun hi' => hnot (Finset.mem_union_left _ hi')⟩
    have hnew : ∑ i with J.arrival i = u + 1 ∧ i ∉ B' ∪ A.filter fun i => ¬ J.arrival i ≤ u,
        J.duration i ≤ ∑ i with J.arrival i = u + 1 ∧ i ∉ A, J.duration i := by
      refine Finset.sum_le_sum_of_subset fun i hi => ?_
      obtain ⟨-, harr, hnot⟩ := Finset.mem_filter.mp hi
      refine Finset.mem_filter.mpr ⟨Finset.mem_univ i, harr, fun hi' => hnot ?_⟩
      exact Finset.mem_union_right _ (Finset.mem_filter.mpr ⟨hi', by omega⟩)
    have htickg := sum_remaining_le (J := J) (g := g) (t := u) (J.others u A)
    unfold left at hleft
    rw [hsame] at hleft
    unfold left at htick
    omega

theorem ahead (hf : J.Feasible f) (hg : J.Feasible g) (hshort : ∀ v, J.Shortest f v (f v))
    (u : Nat) : J.Ahead f g u := by
  induction u with
  | zero =>
      refine fun A => ⟨A, le_refl _, le_of_eq (Finset.sum_congr rfl fun i _ => ?_)⟩
      rw [hf.remaining_eq (Nat.zero_le _), hg.remaining_eq (Nat.zero_le _)]
  | succ u ih => exact ih.step hf hg (hshort u)

/-! ## Unfinished jobs and completion times -/

/-- The jobs that need more ticks, arrived or not. -/
def unfinished (J : Jobs ι) (g : Nat → Option ι) (u : Nat) : Finset ι :=
  {i | served g i u < J.duration i}

theorem mem_unfinished : i ∈ J.unfinished g u ↔ served g i u < J.duration i := by
  simp [unfinished]

/-- Never more unfinished jobs. -/
theorem Ahead.unfinished_le (h : J.Ahead f g u) (hg : J.Feasible g)
    (hpos : ∀ i, 0 < J.duration i) : (J.unfinished f u).card ≤ (J.unfinished g u).card := by
  -- with the pending jobs of `g` set aside no work is left
  obtain ⟨B, hB, hleft⟩ := h ((J.unfinished g u).filter fun i => J.arrival i ≤ u)
  have hzero : J.left g u ((J.unfinished g u).filter fun i => J.arrival i ≤ u) = 0 := by
    refine Finset.sum_eq_zero fun i hi => ?_
    obtain ⟨harr, hnot⟩ := mem_others.mp hi
    rw [Finset.mem_filter, mem_unfinished] at hnot
    unfold remaining
    omega
  have hpending : ∀ i, J.arrival i ≤ u → served f i u < J.duration i → i ∈ B := by
    intro i harr hlt
    by_contra hi
    have hsum := Finset.sum_eq_zero_iff.mp (Nat.le_zero.mp (hzero ▸ hleft)) i
      (mem_others.mpr ⟨harr, hi⟩)
    unfold remaining at hsum
    omega
  have hsub : J.unfinished f u ⊆ B ∪ (J.unfinished g u).filter fun i => ¬ J.arrival i ≤ u := by
    intro i hi
    rw [mem_unfinished] at hi
    rw [Finset.mem_union, Finset.mem_filter, mem_unfinished]
    by_cases harr : J.arrival i ≤ u
    · exact Or.inl (hpending i harr hi)
    · have := hpos i
      rw [hg.served_eq_zero (by omega)]
      exact Or.inr ⟨this, harr⟩
  have h1 := Finset.card_le_card hsub
  have h2 := Finset.card_union_le B ((J.unfinished g u).filter fun i => ¬ J.arrival i ≤ u)
  have h3 := Finset.card_filter_add_card_filter_not (s := J.unfinished g u) fun i =>
    J.arrival i ≤ u
  omega

omit [Fintype ι] in
/-- A job is unfinished up to its last tick. -/
theorem Feasible.served_lt_iff (h : J.Feasible g) {e : Nat}
    (he : IsGreatest { u | g u = some i } e) : served g i u < J.duration i ↔ u < e + 1 := by
  have htotal : J.duration i = served g i (e + 1) := by
    rw [← h.exact i]
    refine ncard_ticks_of_ne fun v hv hgv => ?_
    have := he.2 hgv
    omega
  rw [htotal]
  constructor
  · intro hlt
    by_contra hge
    have := served_mono (f := g) (i := i) (show e + 1 ≤ u by omega)
    omega
  · intro hu
    have hmono := served_mono (f := g) (i := i) (show u ≤ e by omega)
    have hlast : g e = some i := he.1
    rw [served_succ, if_pos hlast]
    omega

/-- Completion times count the unfinished jobs, tick by tick. -/
theorem Feasible.sum_completion (h : J.Feasible g) {e : ι → Nat} {limit : Nat}
    (he : ∀ i, IsGreatest { u | g u = some i } (e i)) (hlimit : ∀ i, e i < limit) :
    ∑ i, (e i + 1) = ∑ u ∈ Finset.range limit, (J.unfinished g u).card := by
  have hcount : ∀ i, e i + 1 = ∑ u ∈ Finset.range limit, if u < e i + 1 then 1 else 0 := by
    intro i
    have := hlimit i
    have hrange : (Finset.range limit).filter (· < e i + 1) = Finset.range (e i + 1) := by
      ext u
      simp only [Finset.mem_filter, Finset.mem_range]
      omega
    rw [← Finset.card_filter, hrange, Finset.card_range]
  calc ∑ i, (e i + 1)
      = ∑ i, ∑ u ∈ Finset.range limit, (if u < e i + 1 then 1 else 0) :=
        Finset.sum_congr rfl fun i _ => hcount i
    _ = ∑ u ∈ Finset.range limit, ∑ i, (if u < e i + 1 then 1 else 0) := Finset.sum_comm
    _ = ∑ u ∈ Finset.range limit, (J.unfinished g u).card := by
        refine Finset.sum_congr rfl fun u _ => ?_
        rw [unfinished, Finset.card_filter]
        refine Finset.sum_congr rfl fun i _ => ?_
        simp only [h.served_lt_iff (he i)]

/-- **Shortest remaining time first is optimal.** The completion times of a
finished schedule by shortest remaining time add up to at most those of any
feasible schedule of the same jobs. -/
theorem Srpt.optimal (hf : J.Srpt f t) (hdone : ∀ i, served f i t = J.duration i)
    (hg : J.Feasible g) (hpos : ∀ i, 0 < J.duration i) {e e' : ι → Nat}
    (he : ∀ i, IsGreatest { u | f u = some i } (e i))
    (he' : ∀ i, IsGreatest { u | g u = some i } (e' i)) :
    ∑ i, (e i + 1) ≤ ∑ i, (e' i + 1) := by
  have hfeas := hf.conserving.feasible hdone
  obtain ⟨limit, hlimit⟩ : ∃ limit, ∀ i, e i < limit ∧ e' i < limit := by
    refine ⟨∑ i, (e i + e' i) + 1, fun i => ?_⟩
    have := Finset.single_le_sum (f := fun i => e i + e' i) (fun _ _ => Nat.zero_le _)
      (Finset.mem_univ i)
    omega
  rw [hfeas.sum_completion he fun i => (hlimit i).1, hg.sum_completion he' fun i => (hlimit i).2]
  refine Finset.sum_le_sum fun u _ => ?_
  exact (ahead hfeas hg (hf.shortest_always hdone) u).unfinished_le hg hpos

end Jobs

end Os377.Lib
