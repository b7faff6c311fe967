import Os377.Fs.Lookup

/-!
# The end of the inode table

The scan of the inode table goes on behind its 16 inodes. Slots 16 and 17 lie
in the padding, which is zero, but `used` of slot 18 lies in block 1, where the
program writes its data. A name that is not empty is not found there, since
the name of slot 18 is still padding; the empty name can be.
-/

namespace Os377.Fs

open Os377.Lib Function

/-- Sizes in `0 .. 8`, block numbers from `0` on, and any names. -/
def Op.Bounded : Op → Prop
  | .createFile _ size => 0 ≤ size ∧ size ≤ 8
  | .deleteFile _ => True
  | .read _ blockNum => 0 ≤ blockNum
  | .write _ blockNum _ => 0 ≤ blockNum
  | .ls => True

instance : (op : Op) → Decidable op.Bounded
  | .createFile _ _ => inferInstanceAs (Decidable (_ ∧ _))
  | .deleteFile _ => inferInstanceAs (Decidable True)
  | .read _ _ | .write _ _ _ => inferInstanceAs (Decidable (_ ≤ _))
  | .ls => inferInstanceAs (Decidable True)

/-- What the caller is told. -/
def Result.answer (r : Result) : Int × Message := (r.ret, r.said)

def ReadResult.answer (r : ReadResult) : Int × Message := (r.ret, r.said)

/-- Whatever the data blocks hold: under this name only the 16 inodes are
found, the answers are the same, and `delete_file` changes no data. -/
structure TableOnly (d : Disk) (name : CString) : Prop where
  slot : ∀ d', SameSuper d d' → ∀ k, deleteLookup d' name = some k ∨
    readLookup d' name = some k ∨ writeLookup d' name = some k → k < 16
  delete : ∀ d', SameSuper d d' →
    (deleteFile d' name).map Result.answer = (deleteFile d name).map Result.answer
  read : ∀ d' blockNum, SameSuper d d' →
    (Fs.read d' name blockNum).map ReadResult.answer
      = (Fs.read d name blockNum).map ReadResult.answer
  write : ∀ d' blockNum buf, SameSuper d d' →
    (Fs.write d' name blockNum buf).map Result.answer
      = (Fs.write d name blockNum buf).map Result.answer
  data : ∀ d', SameSuper d d' → ∀ r, deleteFile d' name = .ok r →
    ∀ x ≥ 1024, r.disk x = d' x

/-- Some file has the empty name. -/
def EmptyNamed (d : Disk) : Prop := ∃ k, InUse d k ∧ inode d k 0 = 0

variable {d d' : Disk} {k : Nat} {name : CString} {op : Op}

section Session

/-- One call with any name: it returns, and the disk still has the ownership
invariant. -/
theorem exec_bounded (ho : Owned d) (hop : op.Bounded) :
    ∃ d', exec d op = .ok d' ∧ Owned d' := by
  have hsize : op.Sized := by
    cases op with
    | createFile name size => exact hop
    | _ => trivial
  have hin : op.InBounds d := by
    cases op with
    | read name blockNum => exact Or.inl hop
    | write name blockNum buf => exact Or.inl hop
    | _ => trivial
  obtain ⟨d', hd', ho', -⟩ := exec_keeps ho hsize hin
  exact ⟨d', hd', ho'⟩

theorem bounded_inductive : sessions.Inductive (fun _ op => op.Bounded) Owned where
  init s hs := hs ▸ owned_formatted
  step s op s' ho hop hn := by
    obtain ⟨d', hd', ho'⟩ := exec_bounded ho hop
    rw [next_eq_some hd', Option.some.injEq] at hn
    exact hn ▸ ho'

end Session

section Table

theorem SameSuper.symm (h : SameSuper d d') : SameSuper d' d := fun x hx => (h x hx).symm

theorem SameSuper.emptyNamed (h : SameSuper d d') (he : EmptyNamed d) : EmptyNamed d' := by
  obtain ⟨k, hu, hzero⟩ := he
  refine ⟨k, (inUse_congr (h.inode hu.1)).mpr hu, ?_⟩
  rw [← hzero]
  exact h.inode hu.1 (slot k + 0) (by omega) (by omega)

/-- A comparison of names looks at the first byte, and at no other one for the
empty name. -/
structure Compares (c : IdxNode → Bool) (name : CString) : Prop where
  first : ∀ n, c n = true → n (0 + 0) = name.bytes.getD 0 0
  empty : name.bytes = [] → ∀ n : IdxNode, n 0 = 0 → c n = true

theorem strncmp_compares (name : CString) :
    Compares (fun n => strncmpEq n 0 8 name.bytes) name where
  first n h := strncmpEq_iff_forall.mp h 0 (by omega) (by omega)
  empty hname n h := by
    rw [hname, strncmpEq, h]
    rfl

theorem strcmp_compares (name : CString) : Compares (fun n => strcmpEq n 0 name.bytes) name where
  first n h := strcmpEq_iff.mp h 0 (by omega)
  empty hname n h := by
    rw [hname, strcmpEq, h]
    rfl

/-- A name that is not empty, or that a file has, is found in the table. -/
theorem Compares.found {c : IdxNode → Bool} (hc : Compares c name) (ho : Owned d)
    (hname : name.bytes ≠ [] ∨ EmptyNamed d) :
    ∀ k, scan d (fun n => n.used == 1 && c n) = some k → k < 16 := by
  intro k hscan
  obtain ⟨hp, hk19, hfirst⟩ := scan_eq_some hscan
  rw [Bool.and_eq_true, beq_iff_eq] at hp
  by_cases hne : name.bytes = []
  · obtain ⟨j, hu, hzero⟩ := hname.resolve_left (not_not_intro hne)
    by_contra hge
    have := hfirst j (by have := hu.1; omega)
    rw [hu.2, hc.empty hne _ hzero] at this
    simp at this
  · exact ho.slot_lt hk19 hne (hc.first _ hp.2)

/-- The scans of two tables with the same inodes. -/
theorem scan_congr {p : IdxNode → Bool} (hp : ∀ k < 16, p (inode d' k) = p (inode d k))
    (hd : ∀ k, scan d p = some k → k < 16) (hd' : ∀ k, scan d' p = some k → k < 16) :
    scan d' p = scan d p := by
  cases hscan : scan d p with
  | none =>
      cases hscan' : scan d' p with
      | none => rfl
      | some k =>
          have hk := hd' k hscan'
          have := (scan_eq_some hscan').1
          rw [hp k hk, scan_eq_none hscan k (by omega)] at this
          cases this
  | some k =>
      have hk := hd k hscan
      obtain ⟨htrue, -, hfirst⟩ := scan_eq_some hscan
      rw [scan, List.find?_range_eq_some]
      refine ⟨(hp k hk).trans htrue, List.mem_range.mpr (by rw [slotCount]; omega),
        fun j hj => ?_⟩
      rw [hp j (by omega), hfirst j hj]
      rfl

/-- `strcmp` stops in the padding at the latest. -/
theorem SameSuper.spells (h : SameSuper d d') (ho : Owned d) (hk : k < 16)
    (hs : Spells (Fs.inode d k) 0 name.bytes) : Spells (Fs.inode d' k) 0 name.bytes := by
  have hslot : slot k ≤ 848 := by
    simp only [slot]
    omega
  have hlen : name.bytes.length ≤ 896 - slot k := by
    by_contra hlong
    have hbyte := hs (896 - slot k) (by omega)
    have hzero : Fs.inode d k (0 + (896 - slot k)) = 0 :=
      ho.padding (slot k + (0 + (896 - slot k))) (by omega) (by omega)
    rw [hzero, eq_comm, name.getD_eq_zero] at hbyte
    exact hlong hbyte
  exact hs.congr fun i hi => h (slot k + (0 + i)) (by omega)

/-- A lookup in the table does not see the data blocks. -/
theorem Compares.lookup_same {c : IdxNode → Bool} (hc : Compares c name) (ho : Owned d)
    (h : SameSuper d d') (hname : name.bytes ≠ [] ∨ EmptyNamed d)
    (hsame : ∀ k < 16, c (Fs.inode d' k) = c (Fs.inode d k)) :
    scan d' (fun n => n.used == 1 && c n) = scan d fun n => n.used == 1 && c n := by
  refine scan_congr (fun k hk => ?_) (hc.found ho hname)
    (hc.found (ho.congr h) (hname.imp_right h.emptyNamed))
  rw [(inode_congr (show 0 < 8 by omega) (h.inode hk)).1, hsame k hk]

theorem SameSuper.delete_lookup (h : SameSuper d d') (ho : Owned d)
    (hname : name.bytes ≠ [] ∨ EmptyNamed d) : deleteLookup d' name = deleteLookup d name := by
  refine (strncmp_compares name).lookup_same ho h hname fun k hk => ?_
  rw [Bool.eq_iff_iff, strncmpEq_iff_forall, strncmpEq_iff_forall]
  refine forall₂_congr fun i hi => ?_
  have hbyte : Fs.inode d' k (0 + i) = Fs.inode d k (0 + i) :=
    h.inode hk (slot k + (0 + i)) (by omega) (by omega)
  rw [hbyte]

theorem SameSuper.read_lookup (h : SameSuper d d') (ho : Owned d)
    (hname : name.bytes ≠ [] ∨ EmptyNamed d) : readLookup d' name = readLookup d name := by
  refine (strcmp_compares name).lookup_same ho h hname fun k hk => ?_
  rw [Bool.eq_iff_iff, strcmpEq_iff, strcmpEq_iff]
  exact ⟨h.symm.spells (ho.congr h) hk, h.spells ho hk⟩

/-- The address of a block does not depend on the data blocks either. -/
theorem SameSuper.blockAddr (h : SameSuper d d') (hk : k < 16) (blockNum : Int) :
    blockAddr (Fs.inode d' k) blockNum = blockAddr (Fs.inode d k) blockNum := by
  rw [Fs.blockAddr, Fs.blockAddr]
  by_cases hin : 0 ≤ blockNum ∧ blockNum < 8
  · rw [if_pos hin, if_pos hin, (inode_congr (by omega) (h.inode hk)).2.2]
  · rw [if_neg hin, if_neg hin]

/-- `delete_file` says the same on both disks, and touches no data. -/
theorem SameSuper.delete (h : SameSuper d d') (ho : Owned d)
    (hname : name.bytes ≠ [] ∨ EmptyNamed d) :
    (deleteFile d' name).map Result.answer = (deleteFile d name).map Result.answer ∧
      ∀ r, deleteFile d' name = .ok r → ∀ x ≥ 1024, r.disk x = d' x := by
  have hlookup := h.delete_lookup ho hname
  cases hscan : deleteLookup d name with
  | none =>
      rw [hscan] at hlookup
      rw [deleteLookup] at hscan hlookup
      rw [deleteFile, deleteFile, hscan, hlookup]
      refine ⟨rfl, fun r hr x _ => ?_⟩
      cases hr
      rfl
  | some k =>
      have hk := (strncmp_compares name).found ho hname k hscan
      obtain ⟨e, hrun, -⟩ := deleteFile_found ho hscan hk
      obtain ⟨e', hrun', hd⟩ := deleteFile_found (ho.congr h) (hlookup.trans hscan) hk
      rw [hrun, hrun']
      refine ⟨rfl, fun r hr x hx => ?_⟩
      cases hr
      exact hd.frame x (by omega) (by simp only [slot]; omega)

/-- So does `read`. -/
theorem SameSuper.read (h : SameSuper d d') (ho : Owned d)
    (hname : name.bytes ≠ [] ∨ EmptyNamed d) (blockNum : Int) :
    (Fs.read d' name blockNum).map ReadResult.answer
      = (Fs.read d name blockNum).map ReadResult.answer := by
  have hlookup := h.read_lookup ho hname
  cases hscan : readLookup d name with
  | none =>
      rw [hscan] at hlookup
      rw [readLookup] at hscan hlookup
      rw [Fs.read, Fs.read, hscan, hlookup]
  | some k =>
      have hk := (strcmp_compares name).found ho hname k hscan
      rw [hscan] at hlookup
      rw [readLookup] at hscan hlookup
      rw [Fs.read, Fs.read, hscan, hlookup]
      simp only [(inode_congr (show 0 < 8 by omega) (h.inode hk)).2.1, h.blockAddr hk]
      by_cases hlt : blockNum ≥ (Fs.inode d k).size
      · simp only [if_pos hlt]
      · simp only [if_neg hlt]
        cases Fs.blockAddr (Fs.inode d k) blockNum with
        | error e => rfl
        | ok a => rfl

/-- So does `write`. -/
theorem SameSuper.write (h : SameSuper d d') (ho : Owned d)
    (hname : name.bytes ≠ [] ∨ EmptyNamed d) (blockNum : Int) (buf : Buf) :
    (Fs.write d' name blockNum buf).map Result.answer
      = (Fs.write d name blockNum buf).map Result.answer := by
  have hlookup := h.read_lookup ho hname
  cases hscan : readLookup d name with
  | none =>
      rw [hscan] at hlookup
      rw [readLookup] at hscan hlookup
      rw [Fs.write, Fs.write, hscan, hlookup]
      rfl
  | some k =>
      have hk := (strcmp_compares name).found ho hname k hscan
      rw [hscan] at hlookup
      rw [readLookup] at hscan hlookup
      rw [Fs.write, Fs.write, hscan, hlookup]
      simp only [(inode_congr (show 0 < 8 by omega) (h.inode hk)).2.1, h.blockAddr hk]
      by_cases hlt : blockNum ≥ (Fs.inode d k).size
      · simp only [if_pos hlt]
        rfl
      · simp only [if_neg hlt]
        cases Fs.blockAddr (Fs.inode d k) blockNum with
        | error e => rfl
        | ok a => rfl

end Table

/-- A 1 in the right place of block 1 makes slot 18 a used inode with the empty
name. -/
theorem found_behind (ho : Owned d) (hname : name.bytes = []) (hnone : ¬ EmptyNamed d) :
    deleteLookup (putInt d 1036 1) name = some 18 := by
  have hsame : SameSuper d (putInt d 1036 1) := fun x hx => putInt_outside (by omega)
  have ho' := ho.congr hsame
  rw [deleteLookup, scan, List.find?_range_eq_some, hname]
  refine ⟨?_, by decide, fun j hj => ?_⟩
  · have hu : (inode (putInt d 1036 1) 18).used = 1 := by
      rw [used_eq]
      exact getInt_putInt (by omega) (by omega)
    rw [hu, strncmpEq, ho'.behind_table (by omega) (by omega)]
    rfl
  · by_contra hp
    rw [Bool.not_eq_true, Bool.not_eq_false', Bool.and_eq_true, beq_iff_eq] at hp
    by_cases hk : j < 16
    · rw [strncmpEq, beq_iff_eq] at hp
      exact hnone (hsame.symm.emptyNamed ⟨j, ⟨hk, hp.1⟩, hp.2⟩)
    · have := ho'.behind_eq (by omega) (by omega) hp.1
      omega

/-- **User data is never taken for an inode** under a name exactly if the name
is not empty or some file has the empty name. -/
theorem tableOnly_iff (ho : Owned d) (name : CString) :
    TableOnly d name ↔ name.bytes ≠ [] ∨ EmptyNamed d := by
  constructor
  · intro h
    by_contra hcond
    rw [not_or, not_not] at hcond
    have hsame : SameSuper d (putInt d 1036 1) := fun x hx => putInt_outside (by omega)
    have := h.slot _ hsame 18 (Or.inl (found_behind ho hcond.1 hcond.2))
    omega
  · intro hname
    refine ⟨fun d' h k hk => ?_, fun d' h => (h.delete ho hname).1,
      fun d' blockNum h => h.read ho hname blockNum,
      fun d' blockNum buf h => h.write ho hname blockNum buf,
      fun d' h => (h.delete ho hname).2⟩
    have ho' := ho.congr h
    have hname' := hname.imp_right h.emptyNamed
    rcases hk with hk | hk | hk
    · exact (strncmp_compares name).found ho' hname' k hk
    · exact (strcmp_compares name).found ho' hname' k hk
    · exact (strcmp_compares name).found ho' hname' k hk

/-- **User data and inodes.** On every disk of a session with sizes in `0 .. 8`
and block numbers from `0` on, and for every name: `delete_file`, `read` and
`write` look at the inode table only, whatever the data blocks hold, exactly if
the name is not empty or some file has the empty name. -/
theorem user_data_apart {d : Disk}
    (hd : sessions.ReachableUnder (fun _ op => op.Bounded) d) (name : CString) :
    TableOnly d name ↔ name.bytes ≠ [] ∨ EmptyNamed d :=
  tableOnly_iff (bounded_inductive.invariantUnder d hd) name

/-- `create_file("a", 1)`, then `write("a", 0, buf)` with a 1 at byte 12 of `buf`. -/
def dataSession : List Op :=
  [.createFile sampleName 1, .write sampleName 0 fun i => if i = 12 then 1 else 0]

/-- Under its name the file is found, and the empty name is not apart from its data. -/
theorem user_data_apart_written : ∃ d, sessions.run formatted dataSession = some d ∧
    d 1036 = 1 ∧ readLookup d sampleName = some 0 ∧ TableOnly d sampleName ∧
    ¬ TableOnly d ⟨[], by decide⟩ := by
  have hrun : (sessions.runChecked (fun _ op => op.Bounded) formatted dataSession).any
      (fun d => decide (d 1036 = 1 ∧ readLookup d sampleName = some 0 ∧
        ∀ k ∈ List.range 16, (inode d k).used = 1 → inode d k 0 ≠ 0)) = true := by
    decide +kernel
  obtain ⟨d, hd, hview⟩ := (Option.any_eq_true _ _).mp hrun
  obtain ⟨hdata, hfound, hnamed⟩ := of_decide_eq_true hview
  have hreach : sessions.ReachableUnder (fun _ op => op.Bounded) d := .runChecked (.init rfl) hd
  refine ⟨d, TSys.run_of_runChecked hd, hdata, hfound,
    (user_data_apart hreach sampleName).mpr (Or.inl (by simp [sampleName])), fun h => ?_⟩
  rcases (user_data_apart hreach _).mp h with hne | ⟨k, hu, hzero⟩
  · exact hne rfl
  · exact hnamed k (List.mem_range.mpr hu.1) hu.2 hzero

/-- `delete_file("")` returns 1 and clears that byte of block 1. -/
theorem user_data_deleted :
    ¬ sessions.InvariantUnder (fun _ op => op.Bounded) fun d => ∀ name, TableOnly d name := by
  intro hinv
  have hrun : (sessions.runChecked (fun _ op => op.Bounded) formatted dataSession).any
      (fun d => (deleteFile d ⟨[], by decide⟩).toOption.any
        fun r => decide (r.ret = 1 ∧ r.disk 1036 ≠ d 1036)) = true := by
    decide +kernel
  obtain ⟨d, hd, hview⟩ := (Option.any_eq_true _ _).mp hrun
  obtain ⟨r, hr, hclear⟩ := (Option.any_eq_true _ _).mp hview
  have hdelete : deleteFile d ⟨[], by decide⟩ = .ok r := by
    cases h : deleteFile d ⟨[], by decide⟩ with
    | error e => simp [h, Except.toOption] at hr
    | ok r' => simpa [h, Except.toOption] using hr
  have htable := hinv d (.runChecked (.init rfl) hd) ⟨[], by decide⟩
  exact (of_decide_eq_true hclear).2 (htable.data d (fun _ _ => rfl) r hdelete 1036 (by omega))

end Os377.Fs
