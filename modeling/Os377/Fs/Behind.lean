import Os377.Fs.Ownership

/-!
# Calls with any name

The scan of the inode table goes on behind its 16 inodes: slots 16 and 17 lie in the
padding, which is zero, but `used` of slot 18 lies in block 1, where the program writes
its data. What a lookup finds is an inode or slot 18, and a call that does not read
outside `blockPointers` keeps the ownership of the blocks and the inodes of the files,
whatever the names are.
-/

namespace Os377.Fs

open Os377.Lib Function

/-- The slot `delete_file` finds. -/
def deleteLookup (d : Disk) (name : CString) : Option Nat :=
  scan d fun n => n.used == 1 && strncmpEq n 0 8 name.bytes

/-- The slot `read` finds. -/
def readLookup (d : Disk) (name : CString) : Option Nat :=
  scan d fun n => n.used == 1 && strcmpEq n 0 name.bytes

/-- The slot `write` finds. -/
def writeLookup (d : Disk) (name : CString) : Option Nat :=
  scan d fun n => n.used == 1 && strcmpEq n 0 name.bytes

/-- `create_file` with a size in `0 .. 8`, or any other call. -/
def Op.Sized : Op → Prop
  | .createFile _ size => 0 ≤ size ∧ size ≤ 8
  | _ => True

/-- The call reads no `blockPointers[blockNum]` with a negative `blockNum`: such a
number comes with a name that is not found. -/
def Op.InBounds (d : Disk) : Op → Prop
  | .read name blockNum => 0 ≤ blockNum ∨ readLookup d name = none
  | .write name blockNum _ => 0 ≤ blockNum ∨ writeLookup d name = none
  | _ => True

/-- The disks have the same super block. -/
def SameSuper (d d' : Disk) : Prop := ∀ x < 1024, d' x = d x

/-- Every file of `d'` is the one that was just created, or was there before with the
same inode. -/
def FilesKept (d : Disk) (op : Op) (d' : Disk) : Prop :=
  ∀ k, InUse d' k → (∃ name size bs, op = .createFile name size ∧ Created d k name bs d') ∨
    InUse d k ∧ ∀ x, slot k ≤ x → x < slot k + 48 → d' x = d x

variable {d d' : Disk} {k : Nat} {name : CString} {op : Op}

/-! ## Slot 18 -/

/-- The numbers in the padding. -/
theorem Owned.padding_getInt (ho : Owned d) {a : Nat} (h1 : 896 ≤ a) (h2 : a + 4 ≤ 1024) :
    getInt d a = 0 := by
  rw [getInt_congr (w := fun _ => 0), getInt_zero]
  exact fun x h3 h4 => ho.padding x (by omega) (by omega)

/-- Behind the table only slot 18 can look used. -/
theorem Owned.behind_eq (ho : Owned d) (h1 : 16 ≤ k) (h2 : k < 19) (hu : (inode d k).used = 1) :
    k = 18 := by
  by_contra hne
  rw [used_eq, ho.padding_getInt (by simp only [slot]; omega) (by simp only [slot]; omega)] at hu
  simp at hu

/-- What a lookup can find. -/
theorem Owned.found (ho : Owned d) {c : IdxNode → Bool}
    (hscan : scan d (fun n => n.used == 1 && c n) = some k) :
    c (inode d k) = true ∧ (InUse d k ∨ k = 18) := by
  obtain ⟨hp, hk, -⟩ := scan_eq_some hscan
  rw [Bool.and_eq_true, beq_iff_eq] at hp
  refine ⟨hp.2, ?_⟩
  by_cases hlt : k < 16
  · exact Or.inl ⟨hlt, hp.1⟩
  · exact Or.inr (ho.behind_eq (by omega) hk hp.1)

/-- Its size is 0. -/
theorem Owned.behind_size (ho : Owned d) : (inode d 18).size = 0 := by
  rw [size_eq]
  exact ho.padding_getInt (by decide) (by decide)

/-- `delete_file` of slot 18 clears 4 bytes of block 1. -/
theorem deleteFile_behind (ho : Owned d) (hscan : deleteLookup d name = some 18) :
    ∃ d', deleteFile d name = .ok ⟨d', 1, .deleted name 18⟩ ∧
      ∀ x, x < 1036 ∨ 1040 ≤ x → d' x = d x := by
  refine ⟨writeBack d d 18 (putInt (inode d 18) 44 0), ?_, fun x hx => ?_⟩
  · unfold deleteFile
    rw [deleteLookup] at hscan
    rw [hscan]
    simp only [ho.behind_size]
    rfl
  · by_cases h1 : x < 128
    · exact writeBack_list h1
    · by_cases h2 : x < 992 ∨ 1040 ≤ x
      · exact writeBack_frame (by omega) (by simp only [slot]; omega)
      · have hin : inode (writeBack d d 18 (putInt (inode d 18) 44 0)) 18 (x - 992) = d x := by
          rw [writeBack_inode (by omega), putInt_outside (by omega)]
          show d (992 + (x - 992)) = d x
          rw [Nat.add_sub_cancel' (by omega)]
        have hx : 992 + (x - 992) = x := by omega
        rw [← hin]
        show _ = writeBack d d 18 (putInt (inode d 18) 44 0) (992 + (x - 992))
        rw [hx]

/-- `read` and `write` never get past the check of the block number with slot
18. -/
theorem Owned.inUse_of_lt (ho : Owned d) {blockNum : Int} {c : IdxNode → Bool}
    (hscan : scan d (fun n => n.used == 1 && c n) = some k) (h0 : 0 ≤ blockNum)
    (hlt : ¬ blockNum ≥ (inode d k).size) : InUse d k := by
  refine (ho.found hscan).2.resolve_right fun h18 => hlt ?_
  rw [h18, ho.behind_size]
  exact h0

/-! ## One call -/

theorem SameSuper.inode (h : SameSuper d d') (hk : k < 16) :
    ∀ x, slot k ≤ x → x < slot k + 48 → d' x = d x := by
  intro x _ hx
  exact h x (by simp only [slot] at hx; omega)

theorem FilesKept.refl : FilesKept d op d := fun _ hk => Or.inr ⟨hk, fun _ _ _ => rfl⟩

theorem SameSuper.filesKept (h : SameSuper d d') : FilesKept d op d' := fun _ hk =>
  Or.inr ⟨(inUse_congr (h.inode hk.1)).mp hk, h.inode hk.1⟩

theorem Deleted.filesKept (hd : Deleted d k d') : FilesKept d op d' := by
  intro k' hk'
  have hne : k' ≠ k := by
    intro heq
    subst heq
    exact hd.not_inUse hk'
  exact Or.inr ⟨(inUse_congr (hd.same_bytes hne)).mp hk', hd.same_bytes hne⟩

theorem Created.filesKept {size : Int} {bs : List Nat} (hc : Created d k name bs d') :
    FilesKept d (.createFile name size) d' := by
  intro k' hk'
  by_cases hne : k' = k
  · exact Or.inl ⟨name, size, bs, rfl, hne ▸ hc⟩
  · exact Or.inr ⟨(inUse_congr (hc.same_bytes hne)).mp hk', hc.same_bytes hne⟩

/-- **A call in bounds returns**, keeps the ownership of the blocks and leaves the files
where they were. -/
theorem exec_keeps (ho : Owned d) (hsize : op.Sized) (hin : op.InBounds d) :
    ∃ d', exec d op = .ok d' ∧ Owned d' ∧ FilesKept d op d' := by
  cases op with
  | createFile name size =>
      obtain ⟨r, hr, h⟩ := createFile_spec ho name hsize.1 hsize.2
      refine ⟨r.disk, by rw [exec, hr]; rfl, ?_⟩
      rcases h with ⟨-, hdisk, -⟩ | ⟨-, -, k, bs, hlen, -, hc⟩
      · rw [hdisk]
        exact ⟨ho, .refl⟩
      · have := hsize.2
        exact ⟨ho.created hc (by omega), hc.filesKept⟩
  | deleteFile name =>
      cases hscan : deleteLookup d name with
      | none =>
          rw [deleteLookup] at hscan
          exact ⟨d, by rw [exec, deleteFile, hscan]; rfl, ho, .refl⟩
      | some k =>
          rcases (ho.found hscan).2 with hu | rfl
          · obtain ⟨d', hrun, hd⟩ := deleteFile_found ho hscan hu.1
            exact ⟨d', by rw [exec, hrun]; rfl, ho.deleted hd, hd.filesKept⟩
          · obtain ⟨d', hrun, hbytes⟩ := deleteFile_behind ho hscan
            have hsame : SameSuper d d' := fun x hx => hbytes x (by omega)
            exact ⟨d', by rw [exec, hrun]; rfl, ho.congr hsame, hsame.filesKept⟩
  | read name blockNum =>
      refine ⟨d, ?_, ho, .refl⟩
      cases hscan : scan d fun n => n.used == 1 && strcmpEq n 0 name.bytes with
      | none =>
          rw [exec, read, hscan]
          rfl
      | some k =>
          have h0 : 0 ≤ blockNum := hin.resolve_right (by rw [readLookup, hscan]; simp)
          rw [exec, read, hscan]
          by_cases hlt : blockNum ≥ (inode d k).size
          · simp only [if_pos hlt]
            rfl
          · obtain ⟨j, -, haddr⟩ :=
              ho.blockAddr_eq h0 (ho.inUse_of_lt hscan h0 hlt) (by omega)
            simp only [if_neg hlt, haddr]
            rfl
  | write name blockNum buf =>
      cases hscan : scan d fun n => n.used == 1 && strcmpEq n 0 name.bytes with
      | none => exact ⟨d, by rw [exec, write, hscan]; rfl, ho, .refl⟩
      | some k =>
          have h0 : 0 ≤ blockNum := hin.resolve_right (by rw [writeLookup, hscan]; simp)
          by_cases hlt : blockNum ≥ (inode d k).size
          · refine ⟨d, ?_, ho, .refl⟩
            rw [exec, write, hscan]
            simp only [if_pos hlt]
            rfl
          · obtain ⟨j, howns, haddr⟩ :=
              ho.blockAddr_eq h0 (ho.inUse_of_lt hscan h0 hlt) (by omega)
            have hj := ho.pointer_range _ _ _ howns
            have hsame : SameSuper d (splice d (j * 1024) 1024 buf.toMem) := fun x hx =>
              (written_splice d j buf).frame x (Or.inl (by omega))
            refine ⟨splice d (j * 1024) 1024 buf.toMem, ?_, ho.congr hsame, hsame.filesKept⟩
            rw [exec, write, hscan]
            simp only [if_neg hlt, haddr]
            rfl
  | ls => exact ⟨d, rfl, ho, .refl⟩

end Os377.Fs
