import Os377.Lib.ShortestRemaining
import Os377.Sched.StcfCorrect

/-!
# What a run of a scheduler leaves behind

The three loops that admit with `time >= arrival` have this in common: while they
run they give each tick to at most one process, and the list they return has one
record for each process, with the end of its last tick as `completion`. A
`Timetable` says so, and the results that compare schedulers only use it.
-/

namespace Os377.Sched

open Os377.Lib

/-- The ticks in which the processor is busy: iteration `u` of the loop leaves
`idle` false. -/
def busyTicks {σ ρ : Type} (body : σ → σ ⊕ ρ) (idle : σ → Bool) (start : σ) : Set Nat :=
  { u | ∃ s, iterate body (u + 1) start = some s ∧ idle s = false }

/-- A loop that shows in `idle` which ticks of `f` are busy is busy in these. -/
theorem busyTicks_eq {σ ρ κ : Type} {body : σ → σ ⊕ ρ} {idle : σ → Bool} {start : σ}
    {f : Nat → Option κ}
    (hend : ∀ u, iterate body (u + 1) start = none → f u = none)
    (hshow : ∀ u s, iterate body (u + 1) start = some s → idle s = (f u).isNone) :
    busyTicks body idle start = { u | (f u).isSome } := by
  ext u
  show (∃ s, iterate body (u + 1) start = some s ∧ idle s = false) ↔ (f u).isSome
  cases hs : iterate body (u + 1) start with
  | none => simp [hend u hs]
  | some s =>
      have hidle := hshow u s hs
      simp only [Option.some.injEq, exists_eq_left', hidle]
      cases f u <;> simp

/-- The completion time of the last process. -/
def lastCompletion (processes : List Process) : Option Int :=
  (processes.map fun each => each.completion).max?

/-- The completion times, added up. -/
def totalCompletion (processes : List Process) : Int :=
  (processes.map fun each => each.completion).sum

/-- What `avg_turnaround` adds up. -/
def totalTurnaround (processes : List Process) : Int :=
  (processes.map fun each => each.completion - each.arrival).sum

variable {ι : Type} [DecidableEq ι]

/-- The schedule `f` of the first `t` ticks, all jobs done, and the records that
tell it. -/
structure Timetable (job : ι → Process) (busy : Set Nat) (records : List Process)
    (f : Nat → Option ι) (t : Nat) : Prop where
  conserving : (Stcf.jobs job).Conserving f t
  done : ∀ i, served f i t = (Stcf.jobs job).duration i
  busy : busy = { u | (f u).isSome }
  listed : ∃ order : List ι, order.Nodup ∧ (∀ i, i ∈ order) ∧
    List.Forall₂ (fun i r => r.arrival = (job i).arrival ∧
      r.completion = (lastTick f i t : Int) + 1) order records

/-- Values of the records that are values of the processes. -/
theorem map_eq_of_forall₂ {κ α β : Type} {val : α → β} {w : κ → β} {order : List κ}
    {records : List α} (h : List.Forall₂ (fun i r => val r = w i) order records) :
    records.map val = order.map w := by
  induction h with
  | nil => rfl
  | cons hhead _ ih => rw [List.map_cons, List.map_cons, hhead, ih]

namespace Timetable

variable {job : ι → Process} {busy : Set Nat} {records : List Process} {f : Nat → Option ι}
  {t : Nat}

/-- The last tick of a job that takes time. -/
theorem last (h : Timetable job busy records f t) (hfresh : ∀ i, (job i).Fresh) (i : ι) :
    IsGreatest { u | f u = some i } (lastTick f i t) := by
  have hpos := Stcf.jobs_duration_pos hfresh i
  obtain ⟨-, hat, hlast⟩ := lastTick_spec (show 0 < served f i t by rw [h.done]; exact hpos)
  refine ⟨hat, fun v hv => ?_⟩
  by_cases hvt : v < t
  · exact hlast v hvt hv
  · have hv' : f v = some i := hv
    rw [h.conserving.beyond v (by omega)] at hv'
    cases hv'

/-- The last process completes at the end of the last busy tick. -/
theorem lastCompletion_eq_some (h : Timetable job busy records f t)
    (hfresh : ∀ i, (job i).Fresh) (c : Int) :
    lastCompletion records = some c ↔ ∃ u : Nat, IsGreatest busy u ∧ c = u + 1 := by
  obtain ⟨order, -, hmem, hlisted⟩ := h.listed
  have hcompletion : ∀ c, c ∈ records.map (fun each => each.completion) ↔
      ∃ i, c = (lastTick f i t : Int) + 1 := by
    intro c
    rw [map_eq_of_forall₂ (hlisted.imp fun i r hr => hr.2), List.mem_map]
    exact ⟨fun ⟨i, _, hc⟩ => ⟨i, hc.symm⟩, fun ⟨i, hc⟩ => ⟨i, hmem i, hc.symm⟩⟩
  rw [lastCompletion, List.max?_eq_some_iff, h.busy]
  constructor
  · rintro ⟨hc, hmax⟩
    obtain ⟨i, rfl⟩ := (hcompletion c).mp hc
    refine ⟨lastTick f i t, ⟨?_, fun v hv => ?_⟩, rfl⟩
    · show (f _).isSome
      rw [show f (lastTick f i t) = some i from (h.last hfresh i).1]
      rfl
    · obtain ⟨j, hj⟩ := Option.isSome_iff_exists.mp hv
      have hle := (h.last hfresh j).2 hj
      have := hmax _ ((hcompletion _).mpr ⟨j, rfl⟩)
      omega
  · rintro ⟨u, ⟨hu, hgreatest⟩, rfl⟩
    obtain ⟨i, hi⟩ := Option.isSome_iff_exists.mp hu
    have hlast : ∀ j, lastTick f j t ≤ u := fun j => hgreatest <| by
      show (f _).isSome
      rw [show f (lastTick f j t) = some j from (h.last hfresh j).1]
      rfl
    refine ⟨(hcompletion _).mpr ⟨i, ?_⟩, fun c hc => ?_⟩
    · have := (h.last hfresh i).2 hi
      have := hlast i
      omega
    · obtain ⟨j, rfl⟩ := (hcompletion c).mp hc
      have := hlast j
      omega

variable [Fintype ι]

/-- One record for each process. -/
theorem length (h : Timetable job busy records f t) : records.length = Fintype.card ι := by
  obtain ⟨order, hnodup, hmem, hlisted⟩ := h.listed
  have hall : order.toFinset = Finset.univ := by
    ext i
    simp [hmem i]
  rw [← hlisted.length_eq, ← List.toFinset_card_of_nodup hnodup, hall, Finset.card_univ]

/-- A sum over the records is a sum over the processes. -/
theorem sum_map (h : Timetable job busy records f t) {val : Process → Int} {w : ι → Int}
    (hval : ∀ i r, r.arrival = (job i).arrival → r.completion = (lastTick f i t : Int) + 1 →
      val r = w i) : (records.map val).sum = ∑ i, w i := by
  obtain ⟨order, hnodup, hmem, hlisted⟩ := h.listed
  have hmap := map_eq_of_forall₂ (hlisted.imp fun i r hr => hval i r hr.1 hr.2)
  have hall : order.toFinset = Finset.univ := by
    ext i
    simp [hmem i]
  rw [hmap, ← List.sum_toFinset w hnodup, hall]

theorem totalCompletion_eq (h : Timetable job busy records f t) :
    totalCompletion records = ∑ i, ((lastTick f i t : Int) + 1) :=
  h.sum_map fun _ _ _ hc => hc

theorem totalTurnaround_eq (h : Timetable job busy records f t) :
    totalTurnaround records = ∑ i, ((lastTick f i t : Int) + 1 - (job i).arrival) :=
  h.sum_map fun _ _ ha hc => by rw [ha, hc]

end Timetable

end Os377.Sched
