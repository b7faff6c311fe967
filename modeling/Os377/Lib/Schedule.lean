import Mathlib.Algebra.BigOperators.Group.Finset.Basic
import Mathlib.Algebra.Order.BigOperators.Group.Finset
import Mathlib.Data.Nat.Count
import Mathlib.Data.Set.Card
import Mathlib.Order.Bounds.Basic

/-!
# Single-processor schedules in unit ticks

A schedule gives each tick to at most one job: `f u = some i` when job `i`
runs during tick `u`. The first half counts and locates the ticks of a job;
the second half says when a schedule serves a set of jobs by shortest
remaining time, tick by tick (`Srpt`), with the rule that extends such a
schedule by one tick and a measure that bounds how long it can go on.
-/

namespace Os377.Lib

open Function

variable {ι : Type*} [DecidableEq ι]

/-- Ticks given to `i` before tick `t`. -/
def served (f : Nat → Option ι) (i : ι) (t : Nat) : Nat :=
  Nat.count (fun u => f u = some i) t

/-- The first tick before `t` given to `i`. -/
def firstTick (f : Nat → Option ι) (i : ι) : Nat → Option Nat
  | 0 => none
  | t + 1 => (firstTick f i t).or (if f t = some i then some t else none)

/-- The last tick before `t` given to `i` (`0` when there is none). -/
def lastTick (f : Nat → Option ι) (i : ι) : Nat → Nat
  | 0 => 0
  | t + 1 => if f t = some i then t else lastTick f i t

/-- The job that ran in the tick just before `t`. -/
def running (f : Nat → Option ι) : Nat → Option ι
  | 0 => none
  | t + 1 => f t

variable {f g : Nat → Option ι} {i : ι} {t : Nat}

omit [DecidableEq ι] in
@[simp] theorem running_update {x : Option ι} : running (update f t x) (t + 1) = x := by
  rw [running, update_self]

@[simp] theorem served_zero : served f i 0 = 0 := Nat.count_zero _

theorem served_succ : served f i (t + 1) = served f i t + if f t = some i then 1 else 0 :=
  Nat.count_succ _ _

theorem served_mono {u : Nat} (h : u ≤ t) : served f i u ≤ served f i t :=
  Nat.count_monotone _ h

theorem served_pos_iff : 0 < served f i t ↔ ∃ u < t, f u = some i := by
  induction t with
  | zero => simp
  | succ t ih =>
      rw [served_succ]
      constructor
      · intro h
        by_cases hf : f t = some i
        · exact ⟨t, by omega, hf⟩
        · obtain ⟨u, hu, hfu⟩ := ih.mp (by simpa [hf] using h)
          exact ⟨u, by omega, hfu⟩
      · rintro ⟨u, hu, hfu⟩
        rcases Nat.lt_succ_iff_lt_or_eq.mp hu with hlt | rfl
        · have := ih.mpr ⟨u, hlt, hfu⟩
          omega
        · simp [hfu]

/-- The three statistics of the first `t` ticks only depend on those ticks. -/
theorem ticks_congr (h : ∀ u < t, f u = g u) :
    served f i t = served g i t ∧ firstTick f i t = firstTick g i t ∧
      lastTick f i t = lastTick g i t := by
  induction t with
  | zero => exact ⟨rfl, rfl, rfl⟩
  | succ t ih =>
      obtain ⟨hs, hf, hl⟩ := ih fun u hu => h u (by omega)
      rw [served_succ, served_succ, firstTick, firstTick, lastTick, lastTick,
        hs, hf, hl, h t (by omega)]
      exact ⟨rfl, rfl, rfl⟩

theorem served_update {x : Option ι} {u : Nat} (h : u ≤ t) :
    served (update f t x) i u = served f i u :=
  (ticks_congr fun v hv => update_of_ne (show v ≠ t by omega) _ _).1

theorem firstTick_update {x : Option ι} :
    firstTick (update f t x) i t = firstTick f i t :=
  (ticks_congr fun v hv => update_of_ne (show v ≠ t by omega) _ _).2.1

theorem lastTick_update {x : Option ι} :
    lastTick (update f t x) i t = lastTick f i t :=
  (ticks_congr fun v hv => update_of_ne (show v ≠ t by omega) _ _).2.2

theorem firstTick_eq_none : firstTick f i t = none ↔ served f i t = 0 := by
  induction t with
  | zero => simp [firstTick]
  | succ t ih =>
      rw [firstTick, served_succ, Option.or_eq_none_iff, ih]
      by_cases h : f t = some i <;> simp [h]

theorem firstTick_eq_some {u : Nat} (h : firstTick f i t = some u) :
    IsLeast { v | f v = some i } u := by
  induction t with
  | zero => simp [firstTick] at h
  | succ t ih =>
      rw [firstTick, Option.or_eq_some_iff] at h
      rcases h with h | ⟨hnone, h⟩
      · exact ih h
      · -- nothing before `t`, and `t` itself is given to `i`
        have hzero : served f i t = 0 := firstTick_eq_none.mp hnone
        by_cases hf : f t = some i
        · rw [if_pos hf, Option.some.injEq] at h
          subst h
          refine ⟨hf, fun v hv => ?_⟩
          by_contra hlt
          have hpos : 0 < served f i t := served_pos_iff.mpr ⟨v, by omega, hv⟩
          omega
        · simp [hf] at h

theorem lastTick_spec (h : 0 < served f i t) :
    lastTick f i t < t ∧ f (lastTick f i t) = some i ∧
      ∀ v < t, f v = some i → v ≤ lastTick f i t := by
  induction t with
  | zero => simp at h
  | succ t ih =>
      rw [lastTick]
      by_cases hf : f t = some i
      · rw [if_pos hf]
        exact ⟨by omega, hf, fun v hv _ => by omega⟩
      · rw [if_neg hf]
        obtain ⟨hlt, hat, hlast⟩ := ih (by simpa [served_succ, hf] using h)
        refine ⟨by omega, hat, fun v hv hfv => ?_⟩
        have hne : v ≠ t := by
          intro heq
          subst heq
          exact hf hfv
        exact hlast v (by omega) hfv

/-- Once a job is over, its served ticks are all its ticks. -/
theorem ncard_ticks_of_ne (hover : ∀ u, t ≤ u → f u ≠ some i) :
    { u | f u = some i }.ncard = served f i t := by
  rw [served, Nat.count_eq_card_filter_range, ← Set.ncard_coe_finset]
  congr 1
  ext u
  simp only [Set.mem_ofPred_eq, Finset.coe_filter, Finset.mem_range]
  constructor
  · intro h
    refine ⟨?_, h⟩
    by_contra hu
    exact hover u (by omega) h
  · exact fun h => h.2

/-- Once a schedule is over, the served ticks of a job are all its ticks. -/
theorem ncard_ticks (hover : ∀ u, t ≤ u → f u = none) :
    { u | f u = some i }.ncard = served f i t :=
  ncard_ticks_of_ne fun u hu => by simp [hover u hu]

/-- Jobs with the tick they arrive in and the ticks they need. -/
structure Jobs (ι : Type*) where
  arrival : ι → Nat
  duration : ι → Nat

namespace Jobs

variable (J : Jobs ι)

/-- Ticks `i` still needs at tick `t`. -/
def remaining (f : Nat → Option ι) (t : Nat) (i : ι) : Nat := J.duration i - served f i t

/-- Arrived and not finished. -/
def Pending (f : Nat → Option ι) (t : Nat) (i : ι) : Prop :=
  J.arrival i ≤ t ∧ served f i t < J.duration i

instance (f : Nat → Option ι) (t : Nat) : DecidablePred (J.Pending f t) := fun i =>
  inferInstanceAs (Decidable (J.arrival i ≤ t ∧ served f i t < J.duration i))

/-- What a work-conserving schedule may do in tick `t`: idle only when no job is
pending, else run a pending job. -/
def Busy (f : Nat → Option ι) (t : Nat) : Option ι → Prop
  | none => ∀ j, ¬ J.Pending f t j
  | some i => J.Pending f t i

/-- `f` schedules the first `t` ticks and wastes none of them. -/
structure Conserving (f : Nat → Option ι) (t : Nat) : Prop where
  beyond : ∀ u, t ≤ u → f u = none
  busy : ∀ u, u < t → J.Busy f u (f u)

/-- What shortest remaining time first may do in tick `t`: idle only when no
job is pending, else run a pending job that needs the least. -/
def Shortest (f : Nat → Option ι) (t : Nat) : Option ι → Prop
  | none => ∀ j, ¬ J.Pending f t j
  | some i => J.Pending f t i ∧ ∀ j, J.Pending f t j → J.remaining f t i ≤ J.remaining f t j

/-- `f` schedules the first `t` ticks by shortest remaining time. -/
structure Srpt (f : Nat → Option ι) (t : Nat) : Prop where
  beyond : ∀ u, t ≤ u → f u = none
  shortest : ∀ u, u < t → J.Shortest f u (f u)

variable {J}

theorem pending_update {x : Option ι} {u : Nat} (h : u ≤ t) :
    J.Pending (update f t x) u i ↔ J.Pending f u i := by
  rw [Pending, Pending, served_update h]

theorem busy_update {x y : Option ι} {u : Nat} (h : u ≤ t) :
    J.Busy (update f t x) u y ↔ J.Busy f u y := by
  cases y with
  | none => simp only [Busy, pending_update h]
  | some i => simp only [Busy, pending_update h]

theorem shortest_update {x y : Option ι} {u : Nat} (h : u ≤ t) :
    J.Shortest (update f t x) u y ↔ J.Shortest f u y := by
  cases y with
  | none => simp only [Shortest, pending_update h]
  | some i => simp only [Shortest, pending_update h, remaining, served_update h]

theorem Shortest.busy {x : Option ι} (h : J.Shortest f t x) : J.Busy f t x := by
  cases x with
  | none => exact h
  | some i => exact h.1

/-- The empty schedule. -/
theorem Conserving.nil : J.Conserving (fun _ => none) 0 :=
  ⟨fun _ _ => rfl, fun u hu => absurd hu (by omega)⟩

/-- One more tick. -/
theorem Conserving.extend {x : Option ι} (h : J.Conserving f t) (hx : J.Busy f t x) :
    J.Conserving (update f t x) (t + 1) where
  beyond u hu := by
    rw [update_of_ne (by omega)]
    exact h.beyond u (by omega)
  busy u hu := by
    rw [busy_update (by omega)]
    rcases Nat.lt_succ_iff_lt_or_eq.mp hu with hlt | rfl
    · rw [update_of_ne (by omega)]
      exact h.busy u hlt
    · rw [update_self]
      exact hx

theorem Conserving.pending (h : J.Conserving f t) {u : Nat} (hf : f u = some i) :
    J.Pending f u i := by
  have hu : u < t := by
    by_contra hge
    rw [h.beyond u (by omega)] at hf
    simp at hf
  have := h.busy u hu
  rwa [hf] at this

theorem Conserving.served_le (h : J.Conserving f t) {u : Nat} : served f i u ≤ J.duration i := by
  induction u with
  | zero => simp
  | succ u ih =>
      rw [served_succ]
      by_cases hf : f u = some i
      · have := (h.pending hf).2
        rw [if_pos hf]
        omega
      · rwa [if_neg hf]

/-- A job that has not arrived has not been served. -/
theorem Conserving.served_eq_zero (h : J.Conserving f t) {u : Nat} (ha : u ≤ J.arrival i) :
    served f i u = 0 := by
  by_contra hne
  obtain ⟨v, hv, hf⟩ := served_pos_iff.mp (Nat.pos_of_ne_zero hne)
  have := (h.pending hf).1
  omega

theorem Srpt.conserving (h : J.Srpt f t) : J.Conserving f t :=
  ⟨h.beyond, fun u hu => (h.shortest u hu).busy⟩

theorem Srpt.nil : J.Srpt (fun _ => none) 0 :=
  ⟨fun _ _ => rfl, fun u hu => absurd hu (by omega)⟩

theorem Srpt.extend {x : Option ι} (h : J.Srpt f t) (hx : J.Shortest f t x) :
    J.Srpt (update f t x) (t + 1) where
  beyond := (h.conserving.extend hx.busy).beyond
  shortest u hu := by
    rw [shortest_update (by omega)]
    rcases Nat.lt_succ_iff_lt_or_eq.mp hu with hlt | rfl
    · rw [update_of_ne (by omega)]
      exact h.shortest u hlt
    · rw [update_self]
      exact hx

theorem Srpt.pending (h : J.Srpt f t) {u : Nat} (hf : f u = some i) : J.Pending f u i :=
  h.conserving.pending hf

theorem Srpt.served_le (h : J.Srpt f t) : served f i t ≤ J.duration i := h.conserving.served_le

theorem Srpt.served_eq_zero (h : J.Srpt f t) (ha : t ≤ J.arrival i) : served f i t = 0 :=
  h.conserving.served_eq_zero ha

variable [Fintype ι] (J)

/-- Ticks all jobs together still need. -/
def work (f : Nat → Option ι) (t : Nat) : Nat := ∑ i, J.remaining f t i

variable {J}

/-- Idling leaves the work as it is. -/
theorem work_idle : J.work (update f t none) (t + 1) = J.work f t := by
  unfold work remaining
  apply Finset.sum_congr rfl
  intro i _
  rw [served_succ, served_update (le_refl t), update_self]
  simp

/-- Running a pending job uses one tick of work. -/
theorem work_run (h : J.Pending f t i) :
    J.work (update f t (some i)) (t + 1) + 1 = J.work f t := by
  unfold work
  rw [← Finset.add_sum_erase _ _ (Finset.mem_univ i),
    ← Finset.add_sum_erase Finset.univ (J.remaining f t) (Finset.mem_univ i)]
  have hrest : ∑ j ∈ Finset.univ.erase i, J.remaining (update f t (some i)) (t + 1) j
      = ∑ j ∈ Finset.univ.erase i, J.remaining f t j := by
    apply Finset.sum_congr rfl
    intro j hj
    have hne : ¬ i = j := fun he => Finset.ne_of_mem_erase hj he.symm
    rw [remaining, remaining, served_succ, served_update (le_refl t), update_self]
    simp [hne]
  have hone : J.remaining (update f t (some i)) (t + 1) i + 1 = J.remaining f t i := by
    rw [remaining, remaining, served_succ, served_update (le_refl t), update_self]
    have := h.2
    simp only [if_true]
    omega
  rw [hrest]
  omega

end Jobs

end Os377.Lib
