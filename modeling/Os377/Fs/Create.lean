import Os377.Fs.Ownership

/-!
# Creating files

`create_file` of a size in `0 .. 8` succeeds exactly when there is room, and
`delete_file` takes everything back. The size itself is not checked: only a
disk without room rejects a size that an inode cannot hold.
-/

namespace Os377.Fs

open Os377.Lib Function

variable {d d' : Disk} {k n : Nat} {name : CString} {bs : List Nat} {size : Int}

/-- The blocks of the new file are those whose byte in the free list changed. -/
theorem Created.changed_iff (hc : Created d k name bs d') {j : Nat} (hj : j < 128) :
    d j = 0 ∧ d' j = 1 ↔ j ∈ bs := by
  rw [hc.free j hj]
  constructor
  · rintro ⟨h0, h1⟩
    by_contra hnot
    rw [if_neg hnot, h0] at h1
    simp at h1
  · intro hmem
    exact ⟨(hc.blocks_free j hmem).2, if_pos hmem⟩

/-- **`create_file` succeeds exactly when it can, and fails cleanly.** On every
disk with the ownership invariant, for every name and every size in `0 .. 8`:
it returns 1 exactly if `size` blocks and an inode are free; otherwise it
returns -1 and the disk is what it was. If it returns 1, a free inode has
become a file of this name and size, and the bytes of the free list that went
from 0 to 1 are its blocks, in increasing order; all other bytes are what they
were. -/
theorem create_file_exact (ho : Owned d) (name : CString) (h0 : 0 ≤ size) (h8 : size ≤ 8) :
    ∃ r, createFile d name size = .ok r ∧
      (r.ret = 1 ↔ size ≤ freeCount d ∧ ∃ k < 16, (inode d k).used = 0) ∧
      (r.ret ≠ 1 → r.ret = -1 ∧ r.disk = d) ∧
      (r.ret = 1 → ∃ k bs, (bs.length : Int) = size ∧ bs.Pairwise (· < ·) ∧
        Created d k name bs r.disk ∧ ∀ j < 128, d j = 0 ∧ r.disk j = 1 ↔ j ∈ bs) := by
  obtain ⟨r, hr, h⟩ := createFile_spec ho name h0 h8
  refine ⟨r, hr, ?_⟩
  rw [← room_iff]
  rcases h with ⟨hret, hdisk, hfull⟩ | ⟨hret, hroom, k, bs, hlen, hsorted, hc⟩
  · rw [hret]
    exact ⟨⟨fun h => by simp at h, fun hroom => absurd hfull hroom⟩, fun _ => ⟨rfl, hdisk⟩,
      fun h => by simp at h⟩
  · exact ⟨⟨fun _ => hroom, fun _ => hret⟩, fun hne => absurd hret hne,
      fun _ => ⟨k, bs, hlen, hsorted, hc, fun j hj => hc.changed_iff hj⟩⟩

/-- Three blocks on a formatted disk. -/
theorem create_file_exact_three :
    ∃ r, createFile formatted sampleName 3 = .ok r ∧
      (r.ret = 1 ↔ 3 ≤ (freeCount formatted : Int) ∧ ∃ k < 16, (inode formatted k).used = 0) := by
  obtain ⟨r, hr, hiff, -⟩ := create_file_exact owned_formatted sampleName
    (show (0 : Int) ≤ 3 by omega) (by omega)
  exact ⟨r, hr, hiff⟩

section Sizes

/-- The ninth round of the allocation loop stores behind `blockPointers`. -/
theorem allocate_overflow (super : Mem) (node : IdxNode) (hn : 8 < n)
    (hfree : n ≤ freeCount super) :
    (List.range n).foldlM allocStep (super, node) = .error .inodeBounds := by
  obtain ⟨bs, super', node', hrun, h⟩ := allocate_spec super node (le_refl 8) (by omega)
  obtain ⟨j, hfind⟩ := h.exists_next (by omega)
  have hstep : allocStep (super', node') 8 = .error .inodeBounds := by
    simp only [allocStep, hfind]
    rw [if_neg (by omega)]
  obtain ⟨m, rfl⟩ : ∃ m, n = 8 + (1 + m) := ⟨n - 9, by omega⟩
  rw [List.range_add, List.foldlM_append, hrun]
  show List.foldlM allocStep (super', node') (List.map _ (List.range (1 + m))) = _
  rw [Nat.add_comm 1 m, List.range_succ_eq_map, List.map_cons, List.foldlM_cons, hstep]
  rfl

/-- `create_file` returns -1 and leaves every byte as it is. -/
def Rejected (d : Disk) (name : CString) (size : Int) : Prop :=
  ∃ r, createFile d name size = .ok r ∧ r.ret = -1 ∧ r.disk = d

/-- What happens with room: a negative size creates a file without blocks, and
a size above 8 stores outside the inode. -/
theorem createFile_impossible (ho : Owned d) (name : CString) (hroom : ¬ NoRoom d size) :
    (size < 0 → ∃ r, createFile d name size = .ok r ∧ r.ret = 1) ∧
      (8 < size → createFile d name size = .error .inodeBounds) := by
  obtain ⟨k, -, -, hrun⟩ := createFile_room ho name hroom
  have hcount := (room_iff.mp hroom).1
  constructor
  · intro hneg
    rw [Int.toNat_of_nonpos (by omega)] at hrun
    exact ⟨_, hrun, rfl⟩
  · intro hbig
    rw [allocate_overflow _ _ (by omega) (by omega)] at hrun
    exact hrun

/-- **Impossible sizes.** A size below 0 or above 8 is rejected exactly if
there is no room: no free inode, or fewer free blocks than `size`. -/
theorem impossible_size_iff (ho : Owned d) (name : CString) (hsize : size < 0 ∨ 8 < size) :
    Rejected d name size ↔ NoRoom d size := by
  constructor
  · rintro ⟨r, hr, hret, -⟩
    by_contra hroom
    obtain ⟨hneg, hbig⟩ := createFile_impossible ho name hroom
    rcases hsize with h | h
    · obtain ⟨r', hr', hret'⟩ := hneg h
      rw [hr, Except.ok.injEq] at hr'
      rw [hr', hret'] at hret
      simp at hret
    · rw [hbig h] at hr
      cases hr
  · intro hroom
    obtain ⟨said, hrun⟩ := createFile_noRoom ho name hroom
    exact ⟨_, hrun, rfl, rfl⟩

/-- 128 blocks are too many for a formatted disk. -/
theorem impossible_size_128 : Rejected formatted sampleName 128 :=
  (impossible_size_iff owned_formatted sampleName (by omega)).mpr
    (Or.inl (by decide +kernel))

/-- `create_file("a", -1)` on a formatted disk returns 1. -/
theorem impossible_size_accepted :
    ¬ ∀ (d : Disk) (name : CString) (size : Int), Owned d → size < 0 ∨ 8 < size →
      Rejected d name size := by
  intro hall
  obtain ⟨r, hr, hret, -⟩ := hall formatted sampleName (-1) owned_formatted (by omega)
  have hroom : ¬ NoRoom formatted (-1) :=
    room_iff.mpr ⟨by omega, 0, by omega, formatted_used⟩
  obtain ⟨r', hr', hret'⟩ := (createFile_impossible owned_formatted _ hroom).1 (by omega)
  rw [hr, Except.ok.injEq] at hr'
  rw [hr', hret'] at hret
  simp at hret

end Sizes

section Undo

/-- The file that was created is the one that `delete_file` finds: the other
used inodes are those from before. -/
theorem Created.scan (ho' : Owned d') (hc : Created d k name bs d') (hname : name.bytes ≠ [])
    (hnew : ∀ k, InUse d k → strncmpEq (inode d k) 0 8 name.bytes = false) :
    scan d' (fun n => n.used == 1 && strncmpEq n 0 8 name.bytes) = some k := by
  have hcmp : strncmpEq (inode d' k) 0 8 name.bytes = true := by
    rw [strncmpEq_iff_forall]
    intro i hi _
    rw [Nat.zero_add]
    exact hc.name i hi
  cases hscan : Fs.scan d' fun n => n.used == 1 && strncmpEq n 0 8 name.bytes with
  | none =>
      have hk := hc.slot_lt
      have := scan_eq_none hscan k (by omega)
      rw [hc.used, hcmp] at this
      simp at this
  | some j =>
      obtain ⟨hj, hcmpj⟩ := ho'.scan_strncmp hname hscan
      by_cases hne : j = k
      · rw [hne]
      · exfalso
        have hbytes := hc.same_bytes hne
        have hold : strncmpEq (inode d j) 0 8 name.bytes = true := by
          rw [strncmpEq_iff_forall] at hcmpj ⊢
          intro i hi hlen
          rw [← hcmpj i hi hlen, Nat.zero_add]
          exact (hbytes (slot j + i) (by omega) (by omega)).symm
        rw [hnew j ((inUse_congr hbytes).mp hj)] at hold
        cases hold

/-- The disks have the same free list, the same files with the same inodes,
and the same data blocks. -/
structure SameFiles (d d' : Disk) : Prop where
  free : ∀ j < 128, d' j = d j
  inUse : ∀ k, InUse d' k ↔ InUse d k
  inode : ∀ k, InUse d k → ∀ i < 48, Fs.inode d' k i = Fs.inode d k i
  data : ∀ x ≥ 1024, d' x = d x

/-- Creating a file and deleting it. -/
theorem Created.deleted {d'' : Disk} (hc : Created d k name bs d') (hd : Deleted d' k d'') :
    SameFiles d d'' where
  free j hj := by
    by_cases hmem : j ∈ bs
    · obtain ⟨i, howns⟩ := hc.owned_iff.mpr hmem
      rw [hd.freed i _ hj howns, (hc.blocks_free j hmem).2]
    · have hnot : ∀ i, ¬ Owns d' k i j := fun i howns => hmem (hc.owned_iff.mp ⟨i, howns⟩)
      rw [hd.kept j hj hnot, hc.free j hj, if_neg hmem]
  inUse j := by
    by_cases hne : j = k
    · subst hne
      refine iff_of_false hd.not_inUse fun hu => ?_
      simpa [hc.was_free] using hu.2
    · rw [inUse_congr (hd.same_bytes hne), inUse_congr (hc.same_bytes hne)]
  inode j hj i hi := by
    have hne : j ≠ k := by
      intro heq
      subst heq
      simpa [hc.was_free] using hj.2
    show d'' (slot j + i) = d (slot j + i)
    rw [hd.same_bytes hne _ (by omega) (by omega), hc.same_bytes hne _ (by omega) (by omega)]
  data x hx := by
    have hk := hc.slot_lt
    have hout : x < slot k ∨ slot k + 48 ≤ x := by
      simp only [slot]
      omega
    rw [hd.frame x (by omega) hout, hc.frame x (by omega) hout]

/-- **`delete_file` undoes `create_file`**: for every name that is not empty
and agrees with no file in its first 8 characters, and every size in `0 .. 8`,
if `create_file` returns 1 then so does `delete_file` of the name after it, and
the free list, the files with their inodes, and all data blocks are those from
before. -/
theorem delete_undoes_create (ho : Owned d) (hname : name.bytes ≠ [])
    (hnew : ∀ k, InUse d k → strncmpEq (inode d k) 0 8 name.bytes = false)
    (h0 : 0 ≤ size) (h8 : size ≤ 8) {r : Result} (hr : createFile d name size = .ok r)
    (hret : r.ret = 1) :
    ∃ r', deleteFile r.disk name = .ok r' ∧ r'.ret = 1 ∧ SameFiles d r'.disk := by
  obtain ⟨r₁, hr₁, h⟩ := createFile_spec ho name h0 h8
  rw [hr, Except.ok.injEq] at hr₁
  subst hr₁
  rcases h with ⟨hfail, -⟩ | ⟨-, -, k, bs, hlen, -, hc⟩
  · rw [hret] at hfail
    simp at hfail
  · have ho' := ho.created hc (by omega)
    obtain ⟨d'', hrun, hd⟩ := deleteFile_found ho' (hc.scan ho' hname hnew) hc.slot_lt
    exact ⟨_, hrun, rfl, hc.deleted hd⟩

/-- A file of eight blocks with a name of nine characters. -/
theorem delete_undoes_create_nine :
    ∃ r r', createFile formatted ⟨[97, 98, 99, 100, 101, 102, 103, 104, 105], by decide⟩ 8 = .ok r ∧
      deleteFile r.disk ⟨[97, 98, 99, 100, 101, 102, 103, 104, 105], by decide⟩ = .ok r' ∧
      SameFiles formatted r'.disk := by
  have hroom : ¬ NoRoom formatted 8 :=
    room_iff.mpr ⟨by decide +kernel, 0, by omega, formatted_used⟩
  obtain ⟨r, hr, h⟩ := createFile_spec owned_formatted
    ⟨[97, 98, 99, 100, 101, 102, 103, 104, 105], by decide⟩ (show (0 : Int) ≤ 8 by omega) (by omega)
  have hret : r.ret = 1 := by
    rcases h with ⟨-, -, hfull⟩ | ⟨hret, -⟩
    · exact absurd hfull hroom
    · exact hret
  obtain ⟨r', hr', -, hsame⟩ := delete_undoes_create owned_formatted (by simp)
    (fun k hk => (formatted_not_inUse hk).elim) (by omega) (by omega) hr hret
  exact ⟨r, r', hr, hr', hsame⟩

end Undo

end Os377.Fs
