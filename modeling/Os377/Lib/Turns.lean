import Mathlib.Data.Set.Subsingleton
import Os377.Lib.Schedule

/-!
# Turns

A schedule that serves its jobs from a line: the job in front has a tick, then it
goes to the end of the line unless it is done, and the jobs that arrive go to the
end as well. While a job waits it is passed by nobody, so every other job has at
most one tick.

* `since` — when a waiting job went to the end of the line;
* `Turns` — the line and the ticks so far;
* `Turns.arrive`, `Turns.back`, `Turns.leave` — what can happen to the line;
* `Fair` — the ticks of the others while a job waited for one of its own.
-/

namespace Os377.Lib

open Function

variable {ι : Type*} [DecidableEq ι]

namespace Jobs

variable (J : Jobs ι)

/-- The time at which a job that waits at time `t` went to the end of the line: when
it arrived, or after its last tick. -/
def since (f : Nat → Option ι) (i : ι) (t : Nat) : Nat :=
  if served f i t = 0 then J.arrival i else lastTick f i t + 1

/-- Before each of its ticks a job, which had arrived, waited for at most one tick of
every other job. -/
def Fair (f : Nat → Option ι) (t : Nat) : Prop :=
  ∀ v < t, ∀ i, f v = some i → J.arrival i ≤ v ∧
    ∀ j ≠ i, served f j v ≤ served f j (J.since f i v) + 1

/-- `line` is the line at time `t`. -/
structure Turns (f : Nat → Option ι) (t : Nat) (line : List ι) : Prop where
  arrived : ∀ i ∈ line, J.arrival i ≤ t
  nodup : line.Nodup
  /-- Whoever is ahead of a job has had no tick since the job joined. -/
  ahead : line.Pairwise fun j i => served f j t = served f j (J.since f i t)
  /-- Whoever is behind it has had one at most. -/
  once : ∀ i ∈ line, ∀ j ≠ i, served f j t ≤ served f j (J.since f i t) + 1
  fair : J.Fair f t

variable {J} {f : Nat → Option ι} {t u v : Nat} {i j : ι} {line : List ι}

theorem since_le (h : J.arrival i ≤ t) : J.since f i t ≤ t := by
  unfold since
  split_ifs with hzero
  · exact h
  · exact (lastTick_spec (Nat.pos_of_ne_zero hzero)).1

theorem since_update {x : Option ι} : J.since (update f t x) i t = J.since f i t := by
  rw [since, served_update (le_refl t), lastTick_update, since]

/-- A tick for somebody else. -/
theorem since_succ (h : f t ≠ some i) : J.since f i (t + 1) = J.since f i t := by
  rw [since, served_succ, if_neg h, Nat.add_zero, lastTick, if_neg h, since]

/-- After its own tick a job joins again. -/
theorem since_own (h : f t = some i) : J.since f i (t + 1) = t + 1 := by
  have hpos : ¬ served f i (t + 1) = 0 := by
    rw [served_succ, if_pos h]
    omega
  rw [since, if_neg hpos, lastTick, if_pos h]

/-- The job that has tick `t` and the others, afterwards. -/
theorem served_tick : served (update f t (some i)) j (t + 1) =
    served f j t + if i = j then 1 else 0 := by
  rw [served_succ, served_update (le_refl t), update_self]
  simp only [Option.some.injEq]

theorem since_tick (h : i ≠ j) :
    J.since (update f t (some i)) j (t + 1) = J.since f j t := by
  rw [since_succ, since_update]
  rw [update_self]
  exact fun heq => h (Option.some.inj heq)

theorem Turns.nil : J.Turns f 0 [] := by
  refine ⟨?_, List.nodup_nil, List.Pairwise.nil, ?_, fun v hv => absurd hv (by omega)⟩
  · exact fun i hi => absurd hi List.not_mem_nil
  · exact fun i hi => absurd hi List.not_mem_nil

/-- The jobs that arrive now join. -/
theorem Turns.arrive {new : List ι} (h : J.Turns f t line) (hnew : ∀ i ∈ new, J.arrival i = t)
    (hnodup : new.Nodup) (hlate : ∀ i ∈ line, J.arrival i < t)
    (hzero : ∀ i ∈ new, served f i t = 0) : J.Turns f t (line ++ new) := by
  have hsince : ∀ i ∈ new, J.since f i t = t := by
    intro i hi
    rw [since, if_pos (hzero i hi), hnew i hi]
  refine ⟨fun i hi => ?_, ?_, ?_, fun i hi j hj => ?_, h.fair⟩
  · rcases List.mem_append.mp hi with hi | hi
    · exact h.arrived i hi
    · exact (hnew i hi).le
  · refine List.nodup_append.mpr ⟨h.nodup, hnodup, ?_⟩
    rintro i hi j hj rfl
    have := hlate i hi
    have := hnew i hj
    omega
  · refine List.pairwise_append.mpr ⟨h.ahead, ?_, fun j _ i hi => by rw [hsince i hi]⟩
    refine List.pairwise_of_forall_mem_list fun j _ i hi => ?_
    rw [hsince i hi]
  · rcases List.mem_append.mp hi with hi | hi
    · exact h.once i hi j hj
    · rw [hsince i hi]
      exact Nat.le_succ _

section Tick

variable {rest : List ι}

/-- The others after a tick for the job in front. -/
theorem Turns.behind (h : J.Turns f t (i :: rest)) (hj : j ∈ rest) :
    i ≠ j ∧ J.since f j t ≤ t ∧ served f i t = served f i (J.since f j t) ∧
      J.since (update f t (some i)) j (t + 1) = J.since f j t := by
  have hne : i ≠ j := by
    rintro rfl
    exact (List.nodup_cons.mp h.nodup).1 hj
  exact ⟨hne, since_le (h.arrived j (List.mem_cons_of_mem _ hj)),
    (List.pairwise_cons.mp h.ahead).1 j hj, since_tick hne⟩

theorem Turns.fair_tick (h : J.Turns f t (i :: rest)) : J.Fair (update f t (some i)) (t + 1) := by
  intro v hv k hk
  rcases Nat.lt_succ_iff_lt_or_eq.mp hv with hlt | rfl
  · rw [update_of_ne (by omega)] at hk
    obtain ⟨harr, hold⟩ := h.fair v hlt k hk
    obtain ⟨hserved, -, hlast⟩ := ticks_congr (i := k) fun w (hw : w < v) =>
      update_of_ne (show w ≠ t by omega) (some i) f
    have hsince : J.since (update f t (some i)) k v = J.since f k v := by
      rw [since, hserved, hlast, since]
    have hle := since_le (f := f) harr
    refine ⟨harr, fun j hj => ?_⟩
    rw [hsince, served_update hlt.le, served_update (hle.trans hlt.le)]
    exact hold j hj
  · rw [update_self] at hk
    obtain rfl := Option.some.inj hk
    have harr := h.arrived i List.mem_cons_self
    refine ⟨harr, fun j hj => ?_⟩
    rw [since_update, served_update (le_refl _), served_update (since_le harr)]
    exact h.once i List.mem_cons_self j hj

/-- The job in front is done after its tick. -/
theorem Turns.leave (h : J.Turns f t (i :: rest)) :
    J.Turns (update f t (some i)) (t + 1) rest := by
  refine ⟨fun j hj => ?_, (List.nodup_cons.mp h.nodup).2, ?_, fun j hj k hk => ?_, h.fair_tick⟩
  · exact (h.arrived j (List.mem_cons_of_mem _ hj)).trans (Nat.le_succ t)
  · refine (List.pairwise_cons.mp h.ahead).2.imp_of_mem fun {k j} hk hj hkj => ?_
    obtain ⟨-, hle, -, hsince⟩ := h.behind hj
    rw [hsince, served_update hle, served_tick, if_neg (h.behind hk).1, hkj, Nat.add_zero]
  · obtain ⟨-, hle, hfront, hsince⟩ := h.behind hj
    rw [hsince, served_update hle, served_tick]
    by_cases hik : i = k
    · -- it was ahead of `j`, and this is its first tick since
      subst hik
      rw [if_pos rfl, hfront]
    · rw [if_neg hik]
      exact h.once j (List.mem_cons_of_mem _ hj) k hk

/-- The job in front goes back to the end of the line. -/
theorem Turns.back (h : J.Turns f t (i :: rest)) :
    J.Turns (update f t (some i)) (t + 1) (rest ++ [i]) := by
  have hown : J.since (update f t (some i)) i (t + 1) = t + 1 := since_own (update_self ..)
  have hleave := h.leave
  refine ⟨fun j hj => ?_, ?_, ?_, fun j hj k hk => ?_, h.fair_tick⟩
  · rcases List.mem_append.mp hj with hj | hj
    · exact hleave.arrived j hj
    · rw [List.mem_singleton.mp hj]
      exact (h.arrived i List.mem_cons_self).trans (Nat.le_succ t)
  · refine List.nodup_append.mpr ⟨hleave.nodup, List.nodup_singleton i, fun j hj k hk => ?_⟩
    rw [List.mem_singleton.mp hk]
    exact (h.behind hj).1.symm
  · refine List.pairwise_append.mpr ⟨hleave.ahead, List.pairwise_singleton _ _, fun j _ k hk => ?_⟩
    rw [List.mem_singleton.mp hk, hown]
  · rcases List.mem_append.mp hj with hj | hj
    · exact hleave.once j hj k hk
    · rw [List.mem_singleton.mp hj, hown]
      exact Nat.le_succ _

end Tick

/-! ## What a fair schedule gives -/

/-- A job that is served at most once more has one tick at most. -/
theorem subsingleton_ticks (h : served f j v ≤ served f j u + 1) :
    { w | u ≤ w ∧ w < v ∧ f w = some j }.Subsingleton := by
  have hlt : ∀ w w', u ≤ w → w < w' → w' < v → f w = some j → f w' ≠ some j := by
    intro w w' huw hww hwv hf hf'
    have h1 := served_mono (f := f) (i := j) huw
    have h2 := served_mono (f := f) (i := j) (show w + 1 ≤ w' by omega)
    have h3 := served_mono (f := f) (i := j) (show w' + 1 ≤ v by omega)
    rw [served_succ, if_pos hf] at h2
    rw [served_succ, if_pos hf'] at h3
    omega
  rintro w ⟨hw, hwv, hf⟩ w' ⟨hw', hwv', hf'⟩
  rcases Nat.lt_trichotomy w w' with hlt' | heq | hgt
  · exact absurd hf' (hlt w w' hw hlt' hwv' hf)
  · exact heq
  · exact absurd hf (hlt w' w hw' hgt hwv hf')

/-- Between two consecutive ticks of a job. -/
theorem Fair.between (h : J.Fair f t) (hv : v < t) (huv : u < v) (hfu : f u = some i)
    (hfv : f v = some i) (hnone : ∀ w, u < w → w < v → f w ≠ some i) (hj : j ≠ i) :
    { w | u < w ∧ w < v ∧ f w = some j }.Subsingleton := by
  have hpos : 0 < served f i v := served_pos_iff.mpr ⟨u, huv, hfu⟩
  obtain ⟨hlast, hat, hmax⟩ := lastTick_spec hpos
  have heq : lastTick f i v = u := by
    have hge := hmax u huv hfu
    by_contra hne
    exact hnone _ (by omega) hlast hat
  have hfair := (h v hv i hfv).2 j hj
  rw [since, if_neg (by omega), heq] at hfair
  exact subsingleton_ticks hfair

/-- Between the arrival of a job and its first tick. -/
theorem Fair.first (h : J.Fair f t) (hv : v < t) (hleast : IsLeast { w | f w = some i } v)
    (hj : j ≠ i) : { w | J.arrival i ≤ w ∧ w < v ∧ f w = some j }.Subsingleton := by
  have hzero : served f i v = 0 := by
    by_contra hne
    obtain ⟨w, hw, hf⟩ := served_pos_iff.mp (Nat.pos_of_ne_zero hne)
    have := hleast.2 hf
    omega
  have hfair := (h v hv i hleast.1).2 j hj
  rw [since, if_pos hzero] at hfair
  exact subsingleton_ticks hfair

end Jobs

end Os377.Lib
