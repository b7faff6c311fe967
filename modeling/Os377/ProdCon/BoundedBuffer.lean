import Os377.Lib.Ring

/-!
# The circular buffer of `BoundedBuffer`

The data members of the class and the critical sections of its methods,
without the threads (`Monitor` adds those). `append` and `remove` are the code
that follows the wait loop; they return `none` exactly where the loop's guard
sends the caller to `pthread_cond_wait`.

The buffer refines a FIFO queue: `contents` is the abstract queue, `append`
adds at its back and `remove` takes from its front.
-/

namespace Os377.ProdCon

open Os377.Lib

/-- The data members of `BoundedBuffer`; `buffer` is the `int` array, read and
written only at indices in `[0, bufferSize)`. -/
structure BoundedBuffer where
  buffer : Int → Int
  bufferSize : Int
  bufferCnt : Int
  bufferFirst : Int
  bufferLast : Int

namespace BoundedBuffer

/-- The constructor. `new int[N]` leaves the cells unset: `mem` is whatever
they hold. -/
def new (N : Int) (mem : Int → Int) : BoundedBuffer :=
  { buffer := mem, bufferSize := N, bufferCnt := 0, bufferFirst := 0, bufferLast := 0 }

def isEmpty (b : BoundedBuffer) : Bool := b.bufferCnt == 0

/-- `append` once it holds `buffer_lock`; `none` is the wait on
`buffer_not_full`. -/
def append (b : BoundedBuffer) (data : Int) : Option BoundedBuffer :=
  if b.bufferCnt = b.bufferSize then none
  else some { b with
    buffer := Function.update b.buffer b.bufferLast data
    bufferLast := (b.bufferLast + 1).tmod b.bufferSize
    bufferCnt := b.bufferCnt + 1 }

/-- `remove` once it holds `buffer_lock`; `none` is the wait on
`buffer_not_empty`. -/
def remove (b : BoundedBuffer) : Option (Int × BoundedBuffer) :=
  if b.isEmpty then none
  else some (b.buffer b.bufferFirst, { b with
    bufferFirst := (b.bufferFirst + 1).tmod b.bufferSize
    bufferCnt := b.bufferCnt - 1 })

/-- The abstract queue: the `bufferCnt` values read circularly from
`bufferFirst`. -/
def contents (b : BoundedBuffer) : List Int :=
  ringRead b.buffer b.bufferSize b.bufferFirst b.bufferCnt.toNat

/-- The representation invariant for capacity `N`. -/
structure Wf (N : Int) (b : BoundedBuffer) : Prop where
  size : b.bufferSize = N
  cnt_nonneg : 0 ≤ b.bufferCnt
  cnt_le : b.bufferCnt ≤ N
  first_nonneg : 0 ≤ b.bufferFirst
  first_lt : b.bufferFirst < N
  last_nonneg : 0 ≤ b.bufferLast
  last_lt : b.bufferLast < N
  last_eq : b.bufferLast = (b.bufferFirst + b.bufferCnt) % N

theorem new_wf {N : Int} (hN : 1 ≤ N) (mem : Int → Int) : Wf N (new N mem) := by
  constructor <;> simp [new] <;> omega

@[simp] theorem new_contents (N : Int) (mem : Int → Int) : (new N mem).contents = [] := by
  simp [contents, new, ringRead]

theorem contents_length {N : Int} {b : BoundedBuffer} (h : Wf N b) :
    (b.contents.length : Int) = b.bufferCnt := by
  have := h.cnt_nonneg
  simp only [contents, ringRead_length]
  omega

/-- One step of an index around the ring: in range, and the C++ remainder is
the mathematical one. -/
theorem wrap_succ {N i : Int} (h0 : 0 ≤ i) (hN : i < N) :
    (i + 1).tmod N = (i + 1) % N ∧ 0 ≤ (i + 1).tmod N ∧ (i + 1).tmod N < N := by
  rw [Int.tmod_eq_emod_of_nonneg (by omega)]
  exact ⟨rfl, Int.emod_nonneg _ (by omega), Int.emod_lt_of_pos _ (by omega)⟩

theorem append_eq_none {b : BoundedBuffer} {data : Int} :
    b.append data = none ↔ b.bufferCnt = b.bufferSize := by
  simp [append]

theorem remove_eq_none {b : BoundedBuffer} : b.remove = none ↔ b.bufferCnt = 0 := by
  simp [remove, isEmpty]

/-- `append` keeps the representation and adds at the back of the queue. -/
theorem append_spec {N : Int} {b b' : BoundedBuffer} {data : Int} (h : Wf N b)
    (ha : b.append data = some b') :
    Wf N b' ∧ b'.bufferCnt = b.bufferCnt + 1 ∧ b'.contents = b.contents ++ [data] := by
  unfold append at ha
  split at ha
  · cases ha
  · rename_i hfull
    injection ha with ha
    subst ha
    rw [h.size] at hfull
    have hc0 := h.cnt_nonneg
    have hlt : b.bufferCnt < N := by have := h.cnt_le; omega
    obtain ⟨hmod, hge, hltN⟩ := wrap_succ h.last_nonneg h.last_lt
    have hlast : (b.bufferLast + 1).tmod N = (b.bufferFirst + (b.bufferCnt + 1)) % N := by
      rw [hmod, h.last_eq, Int.emod_add_emod, Int.add_assoc]
    refine ⟨?_, rfl, ?_⟩
    · exact { size := h.size, cnt_nonneg := by simp only; omega, cnt_le := by simp only; omega,
              first_nonneg := h.first_nonneg, first_lt := h.first_lt,
              last_nonneg := by simpa only [h.size] using hge,
              last_lt := by simpa only [h.size] using hltN,
              last_eq := by simpa only [h.size] using hlast }
    · have hnat : (b.bufferCnt + 1).toNat = b.bufferCnt.toNat + 1 := by omega
      have hcell : b.bufferLast = (b.bufferFirst + (b.bufferCnt.toNat : Int)) % N := by
        rw [Int.toNat_of_nonneg hc0]
        exact h.last_eq
      simp only [contents, h.size, hnat]
      rw [hcell]
      exact ringRead_push b.buffer data (by omega)

/-- `remove` keeps the representation and takes the front of the queue. -/
theorem remove_spec {N : Int} {b b' : BoundedBuffer} {data : Int} (h : Wf N b)
    (hr : b.remove = some (data, b')) :
    Wf N b' ∧ b'.bufferCnt = b.bufferCnt - 1 ∧ b.contents = data :: b'.contents := by
  unfold remove isEmpty at hr
  split at hr
  · cases hr
  · rename_i hempty
    simp only [Option.some.injEq, Prod.mk.injEq] at hr
    obtain ⟨rfl, rfl⟩ := hr
    have hne : b.bufferCnt ≠ 0 := by simpa using hempty
    have hc0 := h.cnt_nonneg
    have hcN := h.cnt_le
    obtain ⟨hmod, hge, hltN⟩ := wrap_succ h.first_nonneg h.first_lt
    refine ⟨?_, rfl, ?_⟩
    · have hlast : b.bufferLast = ((b.bufferFirst + 1).tmod N + (b.bufferCnt - 1)) % N := by
        rw [h.last_eq, hmod, Int.emod_add_emod]
        congr 1
        omega
      exact { size := h.size, cnt_nonneg := by simp only; omega, cnt_le := by simp only; omega,
              first_nonneg := by simpa only [h.size] using hge,
              first_lt := by simpa only [h.size] using hltN,
              last_nonneg := h.last_nonneg, last_lt := h.last_lt,
              last_eq := by simpa only [h.size] using hlast }
    · have hnat : b.bufferCnt.toNat = (b.bufferCnt - 1).toNat + 1 := by omega
      have hfirst : b.bufferFirst % N = b.bufferFirst :=
        Int.emod_eq_of_lt h.first_nonneg h.first_lt
      simp only [contents, h.size]
      rw [hnat, ringRead_pop, hfirst, hmod]

end BoundedBuffer

end Os377.ProdCon
