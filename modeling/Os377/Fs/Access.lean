import Os377.Fs.ReadWrite

/-!
# Block numbers

`read` and `write` compare the block number with the size of the file and
index `blockPointers` with it. The comparison is signed, so a negative block
number of a file that exists goes through it.
-/

namespace Os377.Fs

open Os377.Lib Function

/-- Inode `k` is the first used one that carries the name. -/
def FirstMatch (d : Disk) (name : CString) (k : Nat) : Prop :=
  InUse d k ∧ Spells (inode d k) 0 name.bytes ∧
    ∀ j < k, ¬ (InUse d j ∧ Spells (inode d j) 0 name.bytes)

/-- The file has a block of this number, and it is block `j` of the disk. -/
def Addressed (d : Disk) (name : CString) (blockNum : Int) (j : Nat) : Prop :=
  ∃ k, FirstMatch d name k ∧ 0 ≤ blockNum ∧ Owns d k blockNum.toNat j

/-- `write` changes the addressed block and nothing else, `read` returns it,
and both return -1 if no block is addressed; then the disk is what it was. -/
structure StaysInside (d : Disk) (name : CString) (blockNum : Int) (buf : Buf) : Prop where
  write : ∃ r, Fs.write d name blockNum buf = .ok r ∧
    ((∃ j, Addressed d name blockNum j ∧ r.ret = 0 ∧ Written d j buf r.disk) ∨
      (¬ ∃ j, Addressed d name blockNum j) ∧ r.ret = -1 ∧ r.disk = d)
  read : ∃ r, Fs.read d name blockNum = .ok r ∧
    ((∃ j, Addressed d name blockNum j ∧ r.ret = 1 ∧
        ∃ out, r.buf = some out ∧ ∀ i : Fin 1024, out i = d (j * 1024 + i)) ∨
      (¬ ∃ j, Addressed d name blockNum j) ∧ r.ret = -1 ∧ r.buf = none)

variable {d : Disk} {name : CString} {blockNum : Int} {k : Nat}

/-- What the scan of `read` and `write` finds. -/
theorem Owned.firstMatch (ho : Owned d) (hname : name.bytes ≠ [])
    (h : scan d (fun n => n.used == 1 && strcmpEq n 0 name.bytes) = some k) :
    FirstMatch d name k := by
  obtain ⟨hu, hs⟩ := ho.scan_strcmp hname h
  refine ⟨hu, hs, fun j hj hmatch => ?_⟩
  have := (scan_eq_some h).2.2 j hj
  rw [hmatch.1.2, strcmpEq_iff.mpr hmatch.2] at this
  simp at this

theorem FirstMatch.present (h : FirstMatch d name k) : Present d name := ⟨k, h.1, h.2.1⟩

theorem FirstMatch.unique {k' : Nat} (h : FirstMatch d name k) (h' : FirstMatch d name k') :
    k = k' := by
  rcases Nat.lt_trichotomy k k' with hlt | heq | hlt
  · exact absurd ⟨h.1, h.2.1⟩ (h'.2.2 k hlt)
  · exact heq
  · exact absurd ⟨h'.1, h'.2.1⟩ (h.2.2 k' hlt)

theorem not_present (h : scan d (fun n => n.used == 1 && strcmpEq n 0 name.bytes) = none) :
    ¬ Present d name := by
  rintro ⟨k, hu, hs⟩
  have hk := hu.1
  have := scan_eq_none h k (by omega)
  rw [hu.2, strcmpEq_iff.mpr hs] at this
  simp at this

/-- Of the first match, the blocks `0 .. size - 1` are addressed. -/
theorem FirstMatch.addressed_iff (ho : Owned d) (h : FirstMatch d name k) :
    (∃ j, Addressed d name blockNum j) ↔ 0 ≤ blockNum ∧ blockNum < (inode d k).size := by
  constructor
  · rintro ⟨j, k', h', h0, howns⟩
    rw [h.unique h']
    have := howns.2.1
    omega
  · rintro ⟨h0, hlt⟩
    obtain ⟨j, howns, -⟩ := ho.blockAddr_eq h0 h.1 hlt
    exact ⟨j, k, h, h0, howns⟩

/-- Names that are not there: both operations return -1. -/
theorem staysInside_of_not_present (buf : Buf)
    (hscan : scan d (fun n => n.used == 1 && strcmpEq n 0 name.bytes) = none) :
    StaysInside d name blockNum buf := by
  have hnone : ¬ ∃ j, Addressed d name blockNum j := by
    rintro ⟨j, k, h, -⟩
    exact not_present hscan h.present
  constructor
  · refine ⟨⟨d, -1, .writingNotFound⟩, ?_, Or.inr ⟨hnone, rfl, rfl⟩⟩
    rw [Fs.write, hscan]
  · refine ⟨⟨none, -1, .readingNotFound⟩, ?_, Or.inr ⟨hnone, rfl, rfl⟩⟩
    rw [Fs.read, hscan]

/-- Block numbers from `0` on. -/
theorem staysInside_of_nonneg (ho : Owned d) (hname : name.bytes ≠ []) (h0 : 0 ≤ blockNum)
    (buf : Buf) (hscan : scan d (fun n => n.used == 1 && strcmpEq n 0 name.bytes) = some k) :
    StaysInside d name blockNum buf := by
  have hfirst := ho.firstMatch hname hscan
  by_cases hlt : blockNum < (inode d k).size
  · obtain ⟨j, howns, haddr⟩ := ho.blockAddr_eq h0 hfirst.1 hlt
    have haddressed : Addressed d name blockNum j := ⟨k, hfirst, h0, howns⟩
    have hin : ¬ blockNum ≥ (inode d k).size := by omega
    constructor
    · refine ⟨⟨splice d (j * 1024) 1024 buf.toMem, 0, .writingComplete⟩, ?_,
        Or.inl ⟨j, haddressed, rfl, written_splice d j buf⟩⟩
      rw [Fs.write, hscan]
      simp only [if_neg hin, haddr]
    · refine ⟨⟨some fun i => d (j * 1024 + i), 1, .readFrom name blockNum⟩, ?_,
        Or.inl ⟨j, haddressed, rfl, _, rfl, fun _ => rfl⟩⟩
      rw [Fs.read, hscan]
      simp only [if_neg hin, haddr]
  · have hnone : ¬ ∃ j, Addressed d name blockNum j := by
      rw [hfirst.addressed_iff ho]
      omega
    have hout : blockNum ≥ (inode d k).size := by omega
    constructor
    · refine ⟨⟨d, -1, .writeBlockNumber⟩, ?_, Or.inr ⟨hnone, rfl, rfl⟩⟩
      rw [Fs.write, hscan]
      simp only [if_pos hout]
    · refine ⟨⟨none, -1, .readBlockNumber⟩, ?_, Or.inr ⟨hnone, rfl, rfl⟩⟩
      rw [Fs.read, hscan]
      simp only [if_pos hout]

/-- A negative block number passes the check and leaves `blockPointers`. -/
theorem write_negative (ho : Owned d) (hu : InUse d k) (hneg : blockNum < 0) (buf : Buf)
    (hscan : scan d (fun n => n.used == 1 && strcmpEq n 0 name.bytes) = some k) :
    Fs.write d name blockNum buf = .error .inodeBounds := by
  have hsize := ho.size_range k hu
  have haddr : blockAddr (inode d k) blockNum = .error .inodeBounds := by
    rw [blockAddr, if_neg (by omega)]
  rw [Fs.write, hscan]
  simp only [if_neg (show ¬ blockNum ≥ (inode d k).size by omega), haddr]

/-- **Block accesses stay inside the file** exactly if the block number is not
negative or no file has the name. -/
theorem block_access_iff (ho : Owned d) (hname : name.bytes ≠ []) (buf : Buf) :
    StaysInside d name blockNum buf ↔ 0 ≤ blockNum ∨ ¬ Present d name := by
  cases hscan : scan d fun n => n.used == 1 && strcmpEq n 0 name.bytes with
  | none =>
      exact ⟨fun _ => Or.inr (not_present hscan), fun _ => staysInside_of_not_present buf hscan⟩
  | some k =>
      have hfirst := ho.firstMatch hname hscan
      by_cases h0 : 0 ≤ blockNum
      · exact ⟨fun _ => Or.inl h0, fun _ => staysInside_of_nonneg ho hname h0 buf hscan⟩
      · refine ⟨fun h => ?_, fun h => absurd hfirst.present (h.resolve_left h0)⟩
        obtain ⟨r, hr, -⟩ := h.write
        rw [write_negative ho hfirst.1 (by omega) buf hscan] at hr
        cases hr

theorem sampleName_short : Short sampleName := ⟨by simp [sampleName], by simp [sampleName]⟩

/-- A disk with one file, of one block. -/
theorem one_file : ∃ d k, Owned d ∧ InUse d k ∧ Spells (inode d k) 0 sampleName.bytes := by
  obtain ⟨r, -, h⟩ := createFile_spec owned_formatted sampleName
    (show (0 : Int) ≤ 1 by omega) (by omega)
  rcases h with ⟨-, -, hfull⟩ | ⟨-, -, k, bs, hlen, -, hc⟩
  · exact absurd hfull (room_iff.mpr ⟨by decide +kernel, 0, by omega, formatted_used⟩)
  · exact ⟨r.disk, k, owned_formatted.created hc (by omega), ⟨hc.slot_lt, hc.used⟩,
      hc.spells sampleName_short⟩

/-- Block 0 of that file. -/
theorem block_access_zero : ∃ d, Present d sampleName ∧ StaysInside d sampleName 0 fun _ => 7 := by
  obtain ⟨d, k, ho, hu, hs⟩ := one_file
  exact ⟨d, ⟨k, hu, hs⟩, (block_access_iff ho sampleName_short.1 _).mpr (Or.inl (le_refl 0))⟩

/-- Block -1 of that file: the index goes through. -/
theorem negative_block_accepted :
    ¬ ∀ (d : Disk) (name : CString) (blockNum : Int) (buf : Buf), Owned d → Short name →
      StaysInside d name blockNum buf := by
  intro hall
  obtain ⟨d, k, ho, hu, hs⟩ := one_file
  cases hscan : scan d fun n => n.used == 1 && strcmpEq n 0 sampleName.bytes with
  | none => exact not_present hscan ⟨k, hu, hs⟩
  | some j =>
      have hfirst := ho.firstMatch sampleName_short.1 hscan
      obtain ⟨w, hw, -⟩ := (hall d sampleName (-1) (fun _ => 7) ho sampleName_short).write
      rw [write_negative ho hfirst.1 (by omega) _ hscan] at hw
      cases hw

end Os377.Fs
