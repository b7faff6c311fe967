import Os377.Fs.Disk
import Mathlib.Data.List.Count
import Mathlib.Data.List.GetD
import Mathlib.Data.List.Nodup

/-!
# Who owns a block

What each operation does to the disk (`Created`, `Deleted`, `Written`), with
everything it leaves alone, and the ownership invariant `Owned` of every
session: the free list and the pointers of the used inodes agree, and no block
belongs to two files.
-/

namespace Os377.Fs

open Os377.Lib Function

/-- Inode `k` is in use. -/
def InUse (d : Disk) (k : Nat) : Prop := k < 16 ∧ (inode d k).used = 1

/-- File `k` has a block number `i`, and it is block `j` of the disk. -/
def Owns (d : Disk) (k i : Nat) (j : Int) : Prop :=
  InUse d k ∧ (i : Int) < (inode d k).size ∧ (inode d k).blockPointer i = j

/-- The ownership invariant. -/
structure Owned (d : Disk) : Prop where
  free_bit : ∀ j < 128, d j = 0 ∨ d j = 1
  super : d 0 = 1
  used_bit : ∀ k < 16, (inode d k).used = 0 ∨ (inode d k).used = 1
  size_range : ∀ k, InUse d k → 0 ≤ (inode d k).size ∧ (inode d k).size ≤ 8
  pointer_range : ∀ k i j, Owns d k i j → 1 ≤ j ∧ j ≤ 127
  unique : ∀ k i k' i' j, Owns d k i j → Owns d k' i' j → k = k' ∧ i = i'
  allocated : ∀ j : Nat, 1 ≤ j → j < 128 → (d j = 1 ↔ ∃ k i, Owns d k i j)
  padding : ∀ a, 896 ≤ a → a < 1024 → d a = 0

/-- `d'` is `d` with a file of blocks `bs` in slot `k`. -/
structure Created (d : Disk) (k : Nat) (name : CString) (bs : List Nat) (d' : Disk) : Prop where
  slot_lt : k < 16
  was_free : (inode d k).used = 0
  nodup : bs.Nodup
  blocks_free : ∀ b ∈ bs, b < 128 ∧ d b = 0
  free : ∀ j < 128, d' j = if j ∈ bs then 1 else d j
  used : (inode d' k).used = 1
  size : (inode d' k).size = bs.length
  pointer : ∀ i < bs.length, (inode d' k).blockPointer i = bs.getD i 0
  name : ∀ i < 8, inode d' k i = name.bytes.getD i 0
  frame : ∀ x, 128 ≤ x → x < slot k ∨ slot k + 48 ≤ x → d' x = d x

/-- `d'` is `d` without the file in slot `k`. -/
structure Deleted (d : Disk) (k : Nat) (d' : Disk) : Prop where
  inUse : InUse d k
  freed : ∀ i (j : Nat), j < 128 → Owns d k i j → d' j = 0
  kept : ∀ j : Nat, j < 128 → (∀ i, ¬ Owns d k i j) → d' j = d j
  used : (inode d' k).used = 0
  frame : ∀ x, 128 ≤ x → x < slot k ∨ slot k + 48 ≤ x → d' x = d x

/-- `d'` is `d` with `buf` in block `j`. -/
structure Written (d : Disk) (j : Nat) (buf : Buf) (d' : Disk) : Prop where
  block : ∀ i : Fin 1024, d' (j * 1024 + i) = buf i
  frame : ∀ x, x < j * 1024 ∨ j * 1024 + 1024 ≤ x → d' x = d x

variable {d d' : Disk} {k : Nat}

section Views

theorem used_eq : (inode d k).used = getInt d (slot k + 44) := getInt_slice

theorem size_eq : (inode d k).size = getInt d (slot k + 8) := getInt_slice

theorem blockPointer_eq {i : Nat} :
    (inode d k).blockPointer i = getInt d (slot k + (12 + 4 * i)) := getInt_slice

/-- The fields of an inode are determined by its 48 bytes. -/
theorem inode_congr {i : Nat} (hi : i < 8) (h : ∀ x, slot k ≤ x → x < slot k + 48 → d' x = d x) :
    (inode d' k).used = (inode d k).used ∧ (inode d' k).size = (inode d k).size ∧
      (inode d' k).blockPointer i = (inode d k).blockPointer i := by
  simp only [used_eq, size_eq, blockPointer_eq]
  refine ⟨getInt_congr ?_, getInt_congr ?_, getInt_congr ?_⟩ <;>
    exact fun x h1 h2 => h x (by omega) (by omega)

theorem inUse_congr (h : ∀ x, slot k ≤ x → x < slot k + 48 → d' x = d x) :
    InUse d' k ↔ InUse d k := by
  rw [InUse, InUse, (inode_congr (show 0 < 8 by omega) h).1]

theorem Owned.owns_congr {i : Nat} {j : Int} (ho : Owned d)
    (h : ∀ x, slot k ≤ x → x < slot k + 48 → d' x = d x) : Owns d' k i j ↔ Owns d k i j := by
  rw [Owns, Owns, inUse_congr h, (inode_congr (show 0 < 8 by omega) h).2.1]
  refine and_congr_right fun hu => and_congr_right fun hi => ?_
  have := (ho.size_range k hu).2
  rw [(inode_congr (by omega) h).2.2]

end Views

section Scan

theorem scan_eq_some {p : IdxNode → Bool} (h : scan d p = some k) :
    p (inode d k) = true ∧ k < 19 ∧ ∀ j < k, p (inode d j) = false := by
  rw [scan, List.find?_range_eq_some] at h
  obtain ⟨hp, hk, hfirst⟩ := h
  exact ⟨hp, List.mem_range.mp hk, fun j hj => by simpa using hfirst j hj⟩

theorem scan_eq_none {p : IdxNode → Bool} (h : scan d p = none) :
    ∀ j < 19, p (inode d j) = false := by
  rw [scan, List.find?_range_eq_none] at h
  exact fun j hj => by simpa using h j hj

/-- The slots behind the inode table start with a NUL, whatever block 1 holds. -/
theorem Owned.behind_table (ho : Owned d) (h1 : 16 ≤ k) (h2 : k < 19) : inode d k 0 = 0 :=
  ho.padding _ (by simp only [slot]; omega) (by simp only [slot]; omega)

/-- A slot whose first byte starts a non-empty name is one of the 16 inodes. -/
theorem Owned.slot_lt {name : CString} (ho : Owned d) (hk : k < 19) (hname : name.bytes ≠ [])
    (h : inode d k (0 + 0) = name.bytes.getD 0 0) : k < 16 := by
  by_contra hge
  rw [Nat.zero_add, ho.behind_table (by omega) hk, eq_comm, name.getD_eq_zero] at h
  exact hname (List.length_eq_zero_iff.mp (by omega))

end Scan

section Allocate

/-- Free blocks, counted. -/
def freeCount (super : Mem) : Nat := (List.range 128).countP fun j => super j == 0

theorem blocked_eq {super : Mem} (hbit : ∀ j < 128, super j = 0 ∨ super j = 1) :
    blocked super = 128 - freeCount super := by
  have hlist : ∀ l : List Nat, (∀ j ∈ l, super j = 0 ∨ super j = 1) →
      (l.map fun i => (super i).toInt8.toInt).sum
        = (l.length : Int) - l.countP fun j => super j == 0 := by
    intro l hl
    induction l with
    | nil => rfl
    | cons j l ih =>
        rw [List.map_cons, List.sum_cons, ih fun i hi => hl i (List.mem_cons_of_mem j hi),
          List.length_cons, List.countP_cons]
        rcases hl j List.mem_cons_self with h | h
        · rw [h]
          simp
        · rw [h]
          simp
          omega
  rw [blocked, hlist _ fun j hj => hbit j (List.mem_range.mp hj), List.length_range, freeCount]
  rfl

/-- While fewer blocks than the free ones are taken, one is left. -/
theorem exists_free {super : Mem} {bs : List Nat} (h : bs.length < freeCount super) :
    ∃ j < 128, super j = 0 ∧ j ∉ bs := by
  by_contra hnone
  push Not at hnone
  have hsub : (List.range 128).filter (fun j => super j == 0) ⊆ bs := by
    intro j hj
    rw [List.mem_filter, List.mem_range, beq_iff_eq] at hj
    exact hnone j hj.1 hj.2
  have hle := (List.subperm_of_subset (List.nodup_range.filter _) hsub).length_le
  rw [← List.countP_eq_length_filter] at hle
  exact absurd h (by rw [freeCount]; omega)

/-- After `n` rounds of the allocation loop on `super` and `node`: the blocks
`bs`, the first `n` free ones in increasing order, are taken. -/
structure Allocated (super : Mem) (node : IdxNode) (n : Nat) (bs : List Nat) (super' : Mem)
    (node' : IdxNode) : Prop where
  length : bs.length = n
  sorted : bs.Pairwise (· < ·)
  blocks_free : ∀ b ∈ bs, b < 128 ∧ super b = 0
  first : ∀ b ∈ bs, ∀ i < b, super i = 0 → i ∈ bs
  list : ∀ j, super' j = if j ∈ bs then 1 else super j
  pointer : ∀ i < n, getInt node' (12 + 4 * i) = bs.getD i 0
  frame : ∀ x, x < 12 ∨ 12 + 4 * n ≤ x → node' x = node x

variable {super super' : Mem} {node node' : IdxNode} {n : Nat} {bs : List Nat}

theorem Allocated.isFree (h : Allocated super node n bs super' node') {j : Nat} :
    super' j = 0 ↔ super j = 0 ∧ j ∉ bs := by
  rw [h.list j]
  by_cases hj : j ∈ bs
  · simp [hj]
  · simp [hj]

/-- One more round: the block it takes lies behind those taken before, since
each of them was the first free one. -/
theorem Allocated.step (h : Allocated super node n bs super' node') {j : Nat}
    (hfind : ((List.range 128).find? fun j => super' j == 0) = some j) :
    Allocated super node (n + 1) (bs ++ [j]) (update super' j 1) (putInt node' (12 + 4 * n) j) := by
  obtain ⟨hzero, hj, hfirst⟩ := List.find?_range_eq_some.mp hfind
  rw [beq_iff_eq, h.isFree] at hzero
  obtain ⟨hfree, hnot⟩ := hzero
  have hj : j < 128 := List.mem_range.mp hj
  have hlen := h.length
  refine ⟨by simp [hlen], ?_, ?_, ?_, fun i => ?_, fun i hi => ?_, fun x hx => ?_⟩
  · rw [List.pairwise_append]
    refine ⟨h.sorted, List.pairwise_singleton _ _, fun b hb c hc => ?_⟩
    rw [List.mem_singleton] at hc
    subst hc
    have hne : b ≠ c := fun heq => hnot (heq ▸ hb)
    have hle : ¬ c < b := fun hlt => hnot (h.first b hb c hlt hfree)
    omega
  · intro b hb
    rcases List.mem_append.mp hb with hb | hb
    · exact h.blocks_free b hb
    · rw [List.mem_singleton] at hb
      exact hb ▸ ⟨hj, hfree⟩
  · intro b hb i hi hzero
    rw [List.mem_append]
    left
    rcases List.mem_append.mp hb with hb | hb
    · exact h.first b hb i hi hzero
    · rw [List.mem_singleton] at hb
      by_contra hmem
      have := hfirst i (hb ▸ hi)
      rw [h.isFree.mpr ⟨hzero, hmem⟩] at this
      simp at this
  · by_cases hij : i = j
    · simp [hij]
    · rw [update_of_ne hij, h.list i]
      simp [hij]
  · by_cases hin : i = n
    · subst hin
      rw [getInt_putInt (by omega) (by omega), List.getD_append_right _ _ _ _ (by omega)]
      simp [hlen]
    · rw [getInt_putInt_of_disjoint (by omega), h.pointer i (by omega),
        List.getD_append _ _ _ _ (by omega)]
  · rw [putInt_outside (by omega), h.frame x (by omega)]

/-- While free blocks are left, the round finds one. -/
theorem Allocated.exists_next (h : Allocated super node n bs super' node')
    (hfree : n < freeCount super) :
    ∃ j, ((List.range 128).find? fun j => super' j == 0) = some j := by
  cases hfind : (List.range 128).find? fun j => super' j == 0 with
  | some j => exact ⟨j, rfl⟩
  | none =>
      exfalso
      obtain ⟨j, hj, hzero, hnot⟩ := exists_free (h.length ▸ hfree)
      rw [List.find?_range_eq_none] at hfind
      have := hfind j hj
      rw [h.isFree.mpr ⟨hzero, hnot⟩] at this
      simp at this

/-- The rounds that stay inside `blockPointers`. -/
theorem allocate_spec (super : Mem) (node : IdxNode) {n : Nat} (hn : n ≤ 8)
    (hfree : n ≤ freeCount super) :
    ∃ (bs : List Nat) (super' : Mem) (node' : IdxNode),
      (List.range n).foldlM allocStep (super, node) = .ok (super', node') ∧
      Allocated super node n bs super' node' := by
  induction n with
  | zero =>
      exact ⟨[], super, node, rfl, rfl, List.Pairwise.nil, by simp, by simp, by simp, by simp,
        by simp⟩
  | succ n ih =>
      obtain ⟨bs, super', node', hrun, h⟩ := ih (by omega) (by omega)
      obtain ⟨j, hfind⟩ := h.exists_next (by omega)
      refine ⟨bs ++ [j], _, _, ?_, h.step hfind⟩
      have hstep : allocStep (super', node') n
          = .ok (update super' j 1, putInt node' (12 + 4 * n) j) := by
        simp only [allocStep, hfind]
        rw [if_pos (by omega)]
      rw [List.range_succ, List.foldlM_append, hrun]
      show List.foldlM allocStep (super', node') [n] = _
      rw [List.foldlM_cons, hstep]
      rfl

end Allocate

section Specs

variable {super : Mem} {node : IdxNode}

theorem writeBack_list {j : Nat} (hj : j < 128) : writeBack d super k node j = super j := by
  rw [writeBack, splice_outside (by simp only [slot]; omega), splice_inside (by omega) (by omega)]
  rfl

theorem writeBack_getInt {i : Nat} (hi : i + 4 ≤ 48) :
    getInt (inode (writeBack d super k node) k) i = getInt node i := by
  rw [inode, getInt_slice, writeBack, getInt_splice_inside (by omega) (by omega)]
  congr 1
  omega

theorem writeBack_inode {i : Nat} (hi : i < 48) :
    inode (writeBack d super k node) k i = node i := by
  rw [inode, slice, writeBack, splice_inside (by omega) (by omega)]
  congr 1
  omega

theorem writeBack_frame {x : Nat} (h1 : 128 ≤ x) (h2 : x < slot k ∨ slot k + 48 ≤ x) :
    writeBack d super k node x = d x := by
  rw [writeBack, splice_outside h2, splice_outside (by omega)]

/-- Too few free blocks for a file of `size`, or no free inode. -/
def NoRoom (d : Disk) (size : Int) : Prop :=
  (freeCount d : Int) < size ∨ ∀ k < 16, (inode d k).used ≠ 0

theorem room_iff {size : Int} :
    ¬ NoRoom d size ↔ size ≤ freeCount d ∧ ∃ k < 16, (inode d k).used = 0 := by
  rw [NoRoom]
  push Not
  rfl

/-- Without room `create_file` fails, whatever the size. -/
theorem createFile_noRoom (ho : Owned d) (name : CString) {size : Int} (h : NoRoom d size) :
    ∃ said, createFile d name size = .ok ⟨d, -1, said⟩ := by
  unfold createFile
  rw [blocked_eq ho.free_bit]
  by_cases hspace : 128 - (128 - (freeCount d : Int)) < size
  · rw [if_pos hspace]
    exact ⟨_, rfl⟩
  rw [if_neg hspace]
  cases hscan : scan d fun n => n.used == 0 with
  | none => exact ⟨_, rfl⟩
  | some k =>
      obtain ⟨hfree, -, -⟩ := scan_eq_some hscan
      have hk : k ≥ 16 := by
        rcases h with hlt | hall
        · omega
        · by_contra hlt
          exact hall k (by omega) (by simpa using hfree)
      simp only [if_pos hk]
      exact ⟨_, rfl⟩

/-- With room it runs the allocation loop on a free inode. -/
theorem createFile_room (ho : Owned d) (name : CString) {size : Int} (h : ¬ NoRoom d size) :
    ∃ k < 16, (inode d k).used = 0 ∧ createFile d name size =
      match (List.range size.toNat).foldlM allocStep
        (d, putInt (strncpy (putInt (inode d k) 44 1) 0 8 name.bytes) 8 size) with
      | .error e => .error e
      | .ok (super, node) => .ok ⟨writeBack d super k node, 1, .created name k⟩ := by
  obtain ⟨hroom, j, hj, hjfree⟩ := room_iff.mp h
  have hspace : ¬ 128 - blocked d < size := by
    rw [blocked_eq ho.free_bit]
    omega
  cases hscan : scan d fun n => n.used == 0 with
  | none =>
      have := scan_eq_none hscan j (by omega)
      rw [hjfree] at this
      simp at this
  | some k =>
      obtain ⟨hfree, -, hfirst⟩ := scan_eq_some hscan
      have hk : k < 16 := by
        by_contra hge
        have := hfirst j (by omega)
        rw [hjfree] at this
        simp at this
      refine ⟨k, hk, by simpa using hfree, ?_⟩
      rw [createFile, if_neg hspace, hscan]
      exact if_neg (show ¬ k ≥ 16 by omega)

/-- The inode and the free list after the loop, written back, are a new file. -/
theorem Allocated.created {name : CString} {super : Mem} {node : IdxNode} {bs : List Nat}
    {size : Int} (h0 : 0 ≤ size) (h8 : size ≤ 8) (hk : k < 16) (hfree : (inode d k).used = 0)
    (h : Allocated d (putInt (strncpy (putInt (inode d k) 44 1) 0 8 name.bytes) 8 size)
      size.toNat bs super node) : Created d k name bs (writeBack d super k node) := by
  have hlen := h.length
  refine ⟨hk, hfree, h.sorted.imp fun hlt => Nat.ne_of_lt hlt, h.blocks_free, ?_, ?_, ?_, ?_, ?_,
    fun x => writeBack_frame⟩
  · intro j hj
    exact (writeBack_list hj).trans (h.list j)
  · rw [IdxNode.used, writeBack_getInt (by omega)]
    rw [getInt_congr (w := putInt (inode d k) 44 1)]
    · exact getInt_putInt (by omega) (by omega)
    · intro x h1 h2
      rw [h.frame x (by omega), putInt_outside (by omega), strncpy, splice_outside (by omega)]
  · rw [IdxNode.size, writeBack_getInt (by omega)]
    rw [getInt_congr (w := putInt (strncpy (putInt (inode d k) 44 1) 0 8 name.bytes) 8 size)]
    · rw [getInt_putInt (by omega) (by omega)]
      omega
    · intro x h1 h2
      exact h.frame x (by omega)
  · intro i hi
    rw [IdxNode.blockPointer, writeBack_getInt (by omega), h.pointer i (by omega)]
  · intro i hi
    rw [writeBack_inode (by omega), h.frame i (by omega), putInt_outside (by omega), strncpy,
      splice_inside (by omega) (by omega)]
    rfl

/-- `create_file` leaves the disk alone if there is no room, and creates the
file otherwise. -/
theorem createFile_spec (ho : Owned d) (name : CString) {size : Int} (h0 : 0 ≤ size)
    (h8 : size ≤ 8) :
    ∃ r, createFile d name size = .ok r ∧
      ((r.ret = -1 ∧ r.disk = d ∧ NoRoom d size) ∨
        (r.ret = 1 ∧ ¬ NoRoom d size ∧ ∃ k bs, (bs.length : Int) = size ∧
          bs.Pairwise (· < ·) ∧ Created d k name bs r.disk)) := by
  by_cases hroom : NoRoom d size
  · obtain ⟨said, hrun⟩ := createFile_noRoom ho name hroom
    exact ⟨_, hrun, Or.inl ⟨rfl, rfl, hroom⟩⟩
  · obtain ⟨k, hk, hfree, hrun⟩ := createFile_room ho name hroom
    have hcount := (room_iff.mp hroom).1
    obtain ⟨bs, super, node, hloop, h⟩ :=
      allocate_spec d (putInt (strncpy (putInt (inode d k) 44 1) 0 8 name.bytes) 8 size)
        (n := size.toNat) (by omega) (by omega)
    have hlen := h.length
    rw [hloop] at hrun
    exact ⟨_, hrun, Or.inr ⟨rfl, hroom, k, bs, by omega, h.sorted, h.created h0 h8 hk hfree⟩⟩

/-- The loop that frees the blocks of a file. -/
theorem free_spec (node : IdxNode) (list : Mem) {n : Nat} (hn : n ≤ 8)
    (hptr : ∀ i < n, 0 ≤ node.blockPointer i ∧ node.blockPointer i < 128) :
    ∃ list', (List.range n).foldlM (freeStep node) list = .ok list' ∧
      (∀ i < n, list' (node.blockPointer i).toNat = 0) ∧
      ∀ j : Nat, (∀ i < n, node.blockPointer i ≠ j) → list' j = list j := by
  induction n with
  | zero => exact ⟨list, rfl, by simp, by simp⟩
  | succ n ih =>
      obtain ⟨list', hrun, hfreed, hkept⟩ := ih (by omega) fun i hi => hptr i (by omega)
      have hn' := hptr n (by omega)
      refine ⟨update list' (node.blockPointer n).toNat 0, ?_, ?_, ?_⟩
      · rw [List.range_succ, List.foldlM_append, hrun]
        show List.foldlM (freeStep node) list' [n] = _
        rw [List.foldlM_cons, freeStep, if_pos (by omega)]
        simp only [if_pos hn']
        rfl
      · intro i hi
        by_cases heq : (node.blockPointer i).toNat = (node.blockPointer n).toNat
        · rw [heq, update_self]
        · have hne : i ≠ n := by
            intro heq
            subst heq
            exact heq rfl
          rw [update_of_ne heq, hfreed i (by omega)]
      · intro j hj
        have hne := hj n (by omega)
        rw [update_of_ne (by omega)]
        exact hkept j fun i hi => hj i (by omega)

/-- `delete_file` deletes the file it finds. -/
theorem deleteFile_found (ho : Owned d) {name : CString}
    (hscan : scan d (fun n => n.used == 1 && strncmpEq n 0 8 name.bytes) = some k)
    (hk : k < 16) :
    ∃ d', deleteFile d name = .ok ⟨d', 1, .deleted name k⟩ ∧ Deleted d k d' := by
  obtain ⟨hp, -, -⟩ := scan_eq_some hscan
  rw [Bool.and_eq_true, beq_iff_eq] at hp
  have hu : InUse d k := ⟨hk, hp.1⟩
  have hsize := ho.size_range k hu
  have howns : ∀ i < (inode d k).size.toNat, Owns d k i ((inode d k).blockPointer i) :=
    fun i hi => ⟨hu, by omega, rfl⟩
  obtain ⟨list, hrun, hfreed, hkept⟩ := free_spec (inode d k) d
    (n := (inode d k).size.toNat) (by omega) (by
      intro i hi
      have := ho.pointer_range k i _ (howns i hi)
      omega)
  refine ⟨writeBack d list k (putInt (inode d k) 44 0), ?_, hu, fun i j hj hij => ?_,
    fun j hj hnot => ?_, ?_, fun x => writeBack_frame⟩
  · unfold deleteFile
    rw [hscan]
    simp only [hrun]
  · have := hfreed i (by have := hij.2.1; omega)
    rw [hij.2.2, Int.toNat_natCast] at this
    exact (writeBack_list hj).trans this
  · refine (writeBack_list hj).trans (hkept j ?_)
    intro i hi heq
    exact hnot i (heq ▸ howns i hi)
  · rw [IdxNode.used, writeBack_getInt (by omega)]
    exact getInt_putInt (by omega) (by omega)

/-- Behind the table there are NULs: a name that is not empty is not found
there. -/
theorem Owned.scan_strncmp (ho : Owned d) {name : CString} (hname : name.bytes ≠ [])
    (h : scan d (fun n => n.used == 1 && strncmpEq n 0 8 name.bytes) = some k) :
    InUse d k ∧ strncmpEq (inode d k) 0 8 name.bytes = true := by
  obtain ⟨hp, hk19, -⟩ := scan_eq_some h
  rw [Bool.and_eq_true, beq_iff_eq] at hp
  have hfirst := strncmpEq_iff_forall.mp hp.2 0 (by omega) (by omega)
  exact ⟨⟨ho.slot_lt hk19 hname hfirst, hp.1⟩, hp.2⟩

/-- `delete_file` either finds no file or deletes the first one it finds. -/
theorem deleteFile_spec (ho : Owned d) {name : CString} (hname : name.bytes ≠ []) :
    ∃ r, deleteFile d name = .ok r ∧
      ((r.ret = -1 ∧ r.disk = d) ∨
        (r.ret = 1 ∧ ∃ k, strncmpEq (inode d k) 0 8 name.bytes = true ∧
          Deleted d k r.disk)) := by
  cases hscan : scan d fun n => n.used == 1 && strncmpEq n 0 8 name.bytes with
  | none =>
      refine ⟨⟨d, -1, .deletingNotFound⟩, ?_, Or.inl ⟨rfl, rfl⟩⟩
      unfold deleteFile
      rw [hscan]
  | some k =>
      obtain ⟨hu, hcmp⟩ := ho.scan_strncmp hname hscan
      obtain ⟨d', hrun, hd⟩ := deleteFile_found ho hscan hu.1
      exact ⟨_, hrun, Or.inr ⟨rfl, k, hcmp, hd⟩⟩

/-- The disk address of a block that a file owns. -/
theorem Owned.blockAddr_eq (ho : Owned d) {blockNum : Int} (h0 : 0 ≤ blockNum) (hu : InUse d k)
    (hlt : blockNum < (inode d k).size) :
    ∃ j : Nat, Owns d k blockNum.toNat j ∧ blockAddr (inode d k) blockNum = .ok (j * 1024) := by
  have hsize := ho.size_range k hu
  have howns : Owns d k blockNum.toNat ((inode d k).blockPointer blockNum.toNat) :=
    ⟨hu, by omega, rfl⟩
  have hrange := ho.pointer_range k _ _ howns
  refine ⟨((inode d k).blockPointer blockNum.toNat).toNat, ?_, ?_⟩
  · rwa [Int.toNat_of_nonneg (by omega)]
  · rw [blockAddr, if_pos (by omega)]
    exact if_pos (by omega)

/-- What the scan of `read` and `write` finds is a used inode with the name. -/
theorem Owned.scan_strcmp (ho : Owned d) {name : CString} (hname : name.bytes ≠ [])
    (h : scan d (fun n => n.used == 1 && strcmpEq n 0 name.bytes) = some k) :
    InUse d k ∧ Spells (inode d k) 0 name.bytes := by
  obtain ⟨hp, hk, -⟩ := scan_eq_some h
  rw [Bool.and_eq_true, beq_iff_eq, strcmpEq_iff] at hp
  exact ⟨⟨ho.slot_lt hk hname (hp.2 0 (by omega)), hp.1⟩, hp.2⟩

/-- `read` always returns. -/
theorem read_spec (ho : Owned d) {name : CString} (hname : name.bytes ≠ []) {blockNum : Int}
    (h0 : 0 ≤ blockNum) : ∃ r, read d name blockNum = .ok r := by
  unfold read
  cases hscan : scan d fun n => n.used == 1 && strcmpEq n 0 name.bytes with
  | none => exact ⟨_, rfl⟩
  | some k =>
      obtain ⟨hu, -⟩ := ho.scan_strcmp hname hscan
      by_cases hlt : blockNum ≥ (inode d k).size
      · simp only [if_pos hlt]
        exact ⟨_, rfl⟩
      · obtain ⟨j, -, haddr⟩ := ho.blockAddr_eq h0 hu (by omega)
        simp only [if_neg hlt, haddr]
        exact ⟨_, rfl⟩

/-- The block that `write` writes. -/
theorem written_splice (d : Disk) (j : Nat) (buf : Buf) :
    Written d j buf (splice d (j * 1024) 1024 buf.toMem) := by
  refine ⟨fun i => ?_, fun x => splice_outside⟩
  have hi := i.isLt
  rw [splice_inside (by omega) (by omega), Nat.add_sub_cancel_left, Buf.toMem, dif_pos hi]

/-- `write` either leaves the disk alone or writes a block of the file. -/
theorem write_spec (ho : Owned d) {name : CString} (hname : name.bytes ≠ []) {blockNum : Int}
    (h0 : 0 ≤ blockNum) (buf : Buf) :
    ∃ r, write d name blockNum buf = .ok r ∧
      ((r.ret = -1 ∧ r.disk = d) ∨
        (r.ret = 0 ∧ ∃ k j, Spells (inode d k) 0 name.bytes ∧
          Owns d k blockNum.toNat (j : Nat) ∧ Written d j buf r.disk)) := by
  unfold write
  cases hscan : scan d fun n => n.used == 1 && strcmpEq n 0 name.bytes with
  | none => exact ⟨_, rfl, Or.inl ⟨rfl, rfl⟩⟩
  | some k =>
      obtain ⟨hu, hs⟩ := ho.scan_strcmp hname hscan
      by_cases hlt : blockNum ≥ (inode d k).size
      · simp only [if_pos hlt]
        exact ⟨_, rfl, Or.inl ⟨rfl, rfl⟩⟩
      · obtain ⟨j, howns, haddr⟩ := ho.blockAddr_eq h0 hu (by omega)
        simp only [if_neg hlt, haddr]
        exact ⟨_, rfl, Or.inr ⟨rfl, k, j, hs, howns, written_splice d j buf⟩⟩

end Specs

section Preservation

/-- Two slots have no byte in common. -/
theorem slot_disjoint {k k' x : Nat} (hne : k' ≠ k) (h1 : slot k' ≤ x) (h2 : x < slot k' + 48) :
    x < slot k ∨ slot k + 48 ≤ x := by
  simp only [slot] at *
  omega

theorem le_slot : 128 ≤ slot k := by
  simp only [slot]
  omega

variable {name : CString} {bs : List Nat} {k' i : Nat} {j : Int}

theorem Created.same_bytes (hc : Created d k name bs d') (hne : k' ≠ k) :
    ∀ x, slot k' ≤ x → x < slot k' + 48 → d' x = d x := fun x h1 h2 =>
  hc.frame x (le_trans le_slot h1) (slot_disjoint hne h1 h2)

theorem Deleted.same_bytes (hd : Deleted d k d') (hne : k' ≠ k) :
    ∀ x, slot k' ≤ x → x < slot k' + 48 → d' x = d x := fun x h1 h2 =>
  hd.frame x (le_trans le_slot h1) (slot_disjoint hne h1 h2)

/-- The new file owns the blocks it was given. -/
theorem Created.owns_new (hc : Created d k name bs d') :
    Owns d' k i j ↔ i < bs.length ∧ (bs.getD i 0 : Int) = j := by
  rw [Owns, hc.size]
  constructor
  · rintro ⟨-, hi, hj⟩
    rw [hc.pointer i (by omega)] at hj
    exact ⟨by omega, hj⟩
  · rintro ⟨hi, hj⟩
    exact ⟨⟨hc.slot_lt, hc.used⟩, by omega, by rw [hc.pointer i hi, hj]⟩

theorem Created.owned_iff (hc : Created d k name bs d') {j : Nat} :
    (∃ i, Owns d' k i j) ↔ j ∈ bs := by
  constructor
  · rintro ⟨i, howns⟩
    obtain ⟨hi, heq⟩ := hc.owns_new.mp howns
    rw [List.getD_eq_getElem _ _ hi, Nat.cast_inj] at heq
    exact heq ▸ List.getElem_mem hi
  · intro hmem
    obtain ⟨i, hi, rfl⟩ := List.getElem_of_mem hmem
    exact ⟨i, hc.owns_new.mpr ⟨hi, by rw [List.getD_eq_getElem _ _ hi]⟩⟩

/-- The other files own what they owned. -/
theorem Created.owns_old (ho : Owned d) (hc : Created d k name bs d') (hne : k' ≠ k) :
    Owns d' k' i j ↔ Owns d k' i j :=
  ho.owns_congr (hc.same_bytes hne)

theorem Created.not_owns (hc : Created d k name bs d') : ¬ Owns d k i j := by
  rintro ⟨⟨-, hu⟩, -, -⟩
  rw [hc.was_free] at hu
  simp at hu

/-- The blocks of the new file were free. -/
theorem Created.block_free (ho : Owned d) (hc : Created d k name bs d') (hi : i < bs.length) :
    1 ≤ bs.getD i 0 ∧ bs.getD i 0 < 128 ∧ d (bs.getD i 0) = 0 := by
  have hmem : bs.getD i 0 ∈ bs := by
    rw [List.getD_eq_getElem _ _ hi]
    exact List.getElem_mem hi
  obtain ⟨hlt, hzero⟩ := hc.blocks_free _ hmem
  refine ⟨Nat.pos_of_ne_zero fun h => ?_, hlt, hzero⟩
  rw [h, ho.super] at hzero
  simp at hzero

theorem Owned.block_used (ho : Owned d) {j : Nat} (h : Owns d k i j) : d j = 1 := by
  have := ho.pointer_range k i j h
  exact (ho.allocated j (by omega) (by omega)).mpr ⟨k, i, h⟩

/-- A block of the new file was free, so no other file owns it. -/
theorem Created.owns_apart (ho : Owned d) (hc : Created d k name bs d') {i' : Nat} (hne : k' ≠ k)
    (hnew : Owns d' k i j) : ¬ Owns d' k' i' j := by
  intro hold
  obtain ⟨hi, rfl⟩ := hc.owns_new.mp hnew
  have hzero := (hc.block_free ho hi).2.2
  rw [ho.block_used ((hc.owns_old ho hne).mp hold)] at hzero
  simp at hzero

theorem Owned.created (ho : Owned d) (hc : Created d k name bs d') (h8 : bs.length ≤ 8) :
    Owned d' where
  free_bit j hj := by
    rw [hc.free j hj]
    split
    · exact Or.inr rfl
    · exact ho.free_bit j hj
  super := by
    rw [hc.free 0 (by omega), ho.super, ite_self]
  used_bit k' hk' := by
    by_cases hne : k' = k
    · rw [hne]
      exact Or.inr hc.used
    · rw [(inode_congr (show 0 < 8 by omega) (hc.same_bytes hne)).1]
      exact ho.used_bit k' hk'
  size_range k' hu := by
    by_cases hne : k' = k
    · rw [hne, hc.size]
      omega
    · rw [(inode_congr (show 0 < 8 by omega) (hc.same_bytes hne)).2.1]
      exact ho.size_range k' ((inUse_congr (hc.same_bytes hne)).mp hu)
  pointer_range k' i j h := by
    by_cases hne : k' = k
    · subst hne
      obtain ⟨hi, rfl⟩ := hc.owns_new.mp h
      have := hc.block_free ho hi
      omega
    · exact ho.pointer_range k' i j ((hc.owns_old ho hne).mp h)
  unique k1 i1 k2 i2 j h1 h2 := by
    by_cases e1 : k1 = k <;> by_cases e2 : k2 = k
    · subst e1 e2
      obtain ⟨hi1, h1⟩ := hc.owns_new.mp h1
      obtain ⟨hi2, h2⟩ := hc.owns_new.mp h2
      refine ⟨rfl, ?_⟩
      rw [← h2, List.getD_eq_getElem _ _ hi1, List.getD_eq_getElem _ _ hi2, Nat.cast_inj] at h1
      exact (List.Nodup.getElem_inj_iff hc.nodup).mp h1
    · subst e1
      exact absurd h2 (hc.owns_apart ho e2 h1)
    · subst e2
      exact absurd h1 (hc.owns_apart ho e1 h2)
    · exact ho.unique k1 i1 k2 i2 j ((hc.owns_old ho e1).mp h1) ((hc.owns_old ho e2).mp h2)
  allocated j h1 hj := by
    rw [hc.free j hj]
    by_cases hmem : j ∈ bs
    · obtain ⟨i, howns⟩ := hc.owned_iff.mpr hmem
      rw [if_pos hmem]
      exact iff_of_true rfl ⟨k, i, howns⟩
    · rw [if_neg hmem, ho.allocated j h1 hj]
      constructor
      · rintro ⟨k', i, h⟩
        have hne : k' ≠ k := by
          intro heq
          subst heq
          exact hc.not_owns h
        exact ⟨k', i, (hc.owns_old ho hne).mpr h⟩
      · rintro ⟨k', i, h⟩
        by_cases hne : k' = k
        · subst hne
          exact absurd (hc.owned_iff.mp ⟨i, h⟩) hmem
        · exact ⟨k', i, (hc.owns_old ho hne).mp h⟩
  padding a h1 h2 := by
    have := hc.slot_lt
    rw [hc.frame a (by omega) (by simp only [slot]; omega)]
    exact ho.padding a h1 h2

theorem Deleted.owns_old (ho : Owned d) (hd : Deleted d k d') (hne : k' ≠ k) :
    Owns d' k' i j ↔ Owns d k' i j :=
  ho.owns_congr (hd.same_bytes hne)

theorem Deleted.not_inUse (hd : Deleted d k d') : ¬ InUse d' k := by
  rintro ⟨-, hu⟩
  rw [hd.used] at hu
  simp at hu

/-- A file that is still there is not the deleted one. -/
theorem Deleted.ne_of_owns (hd : Deleted d k d') (h : Owns d' k' i j) : k' ≠ k := by
  intro heq
  subst heq
  exact hd.not_inUse h.1

theorem Owned.deleted (ho : Owned d) (hd : Deleted d k d') : Owned d' where
  free_bit j hj := by
    by_cases h : ∃ i, Owns d k i j
    · obtain ⟨i, h⟩ := h
      exact Or.inl (hd.freed i j hj h)
    · push Not at h
      rw [hd.kept j hj h]
      exact ho.free_bit j hj
  super := by
    rw [hd.kept 0 (by omega) fun i h => ?_]
    · exact ho.super
    · have := ho.pointer_range k i _ h
      omega
  used_bit k' hk' := by
    by_cases hne : k' = k
    · rw [hne]
      exact Or.inl hd.used
    · rw [(inode_congr (show 0 < 8 by omega) (hd.same_bytes hne)).1]
      exact ho.used_bit k' hk'
  size_range k' hu := by
    have hne : k' ≠ k := by
      intro heq
      subst heq
      exact hd.not_inUse hu
    rw [(inode_congr (show 0 < 8 by omega) (hd.same_bytes hne)).2.1]
    exact ho.size_range k' ((inUse_congr (hd.same_bytes hne)).mp hu)
  pointer_range k' i j h := ho.pointer_range k' i j ((hd.owns_old ho (hd.ne_of_owns h)).mp h)
  unique k1 i1 k2 i2 j h1 h2 := ho.unique k1 i1 k2 i2 j
    ((hd.owns_old ho (hd.ne_of_owns h1)).mp h1) ((hd.owns_old ho (hd.ne_of_owns h2)).mp h2)
  allocated j h1 hj := by
    by_cases h : ∃ i, Owns d k i j
    · obtain ⟨i, h⟩ := h
      rw [hd.freed i j hj h]
      refine iff_of_false (by simp) ?_
      rintro ⟨k', i', h'⟩
      have hne := hd.ne_of_owns h'
      exact hne (ho.unique k' i' k i j ((hd.owns_old ho hne).mp h') h).1
    · push Not at h
      rw [hd.kept j hj h, ho.allocated j h1 hj]
      constructor
      · rintro ⟨k', i, h'⟩
        have hne : k' ≠ k := by
          intro heq
          subst heq
          exact h i h'
        exact ⟨k', i, (hd.owns_old ho hne).mpr h'⟩
      · rintro ⟨k', i, h'⟩
        exact ⟨k', i, (hd.owns_old ho (hd.ne_of_owns h')).mp h'⟩
  padding a h1 h2 := by
    have := hd.inUse.1
    rw [hd.frame a (by omega) (by simp only [slot]; omega)]
    exact ho.padding a h1 h2

/-- The invariant is about the super block only. -/
theorem Owned.congr (ho : Owned d) (h : ∀ x < 1024, d' x = d x) : Owned d' := by
  have hbytes : ∀ k < 16, ∀ x, slot k ≤ x → x < slot k + 48 → d' x = d x := by
    intro k hk x _ hx
    exact h x (by simp only [slot] at hx; omega)
  have hfields := fun k (hk : k < 16) => inode_congr (show 0 < 8 by omega) (hbytes k hk)
  have hinUse : ∀ k, InUse d' k ↔ InUse d k := fun k =>
    and_congr_right fun hk => by rw [(hfields k hk).1]
  have howns : ∀ k i j, Owns d' k i j ↔ Owns d k i j := by
    intro k i j
    by_cases hk : k < 16
    · exact ho.owns_congr (hbytes k hk)
    · exact iff_of_false (fun h => hk h.1.1) fun h => hk h.1.1
  refine ⟨fun j hj => ?_, ?_, fun k hk => ?_, fun k hu => ?_, fun k i j hj => ?_,
    fun k1 i1 k2 i2 j h1 h2 => ?_, fun j h1 hj => ?_, fun a h1 h2 => ?_⟩
  · rw [h j (by omega)]
    exact ho.free_bit j hj
  · rw [h 0 (by omega)]
    exact ho.super
  · rw [(hfields k hk).1]
    exact ho.used_bit k hk
  · rw [(hfields k hu.1).2.1]
    exact ho.size_range k ((hinUse k).mp hu)
  · exact ho.pointer_range k i j ((howns k i j).mp hj)
  · exact ho.unique k1 i1 k2 i2 j ((howns _ _ _).mp h1) ((howns _ _ _).mp h2)
  · rw [h j (by omega), ho.allocated j h1 hj]
    simp only [howns]
  · rw [h a h2]
    exact ho.padding a h1 h2

end Preservation

/-- The calls the invariant is about. -/
def Op.Sane : Op → Prop
  | .createFile name size => name.bytes ≠ [] ∧ 0 ≤ size ∧ size ≤ 8
  | .deleteFile name => name.bytes ≠ []
  | .read name blockNum => name.bytes ≠ [] ∧ 0 ≤ blockNum
  | .write name blockNum _ => name.bytes ≠ [] ∧ 0 ≤ blockNum
  | .ls => True

/-- What a call can do to the disk. -/
inductive Effect (d : Disk) : Op → Disk → Prop
  | none {op} : Effect d op d
  | created {name size k bs d'} : (bs.length : Int) = size → Created d k name bs d' →
      Effect d (.createFile name size) d'
  | deleted {name k d'} : strncmpEq (inode d k) 0 8 name.bytes = true → Deleted d k d' →
      Effect d (.deleteFile name) d'
  | written {name blockNum buf k d'} {j : Nat} : Spells (inode d k) 0 name.bytes →
      Owns d k blockNum.toNat j → Written d j buf d' → Effect d (.write name blockNum buf) d'

/-- One call: it returns, with one of the effects above. -/
theorem exec_effect (ho : Owned d) {op : Op} (hop : op.Sane) :
    ∃ d', exec d op = .ok d' ∧ Effect d op d' := by
  cases op with
  | createFile name size =>
      obtain ⟨r, hr, h⟩ := createFile_spec ho name hop.2.1 hop.2.2
      refine ⟨r.disk, by rw [exec, hr]; rfl, ?_⟩
      rcases h with ⟨-, h, -⟩ | ⟨-, -, k, bs, hlen, -, hc⟩
      · rw [h]
        exact .none
      · exact .created hlen hc
  | deleteFile name =>
      obtain ⟨r, hr, h⟩ := deleteFile_spec ho hop
      refine ⟨r.disk, by rw [exec, hr]; rfl, ?_⟩
      rcases h with ⟨-, h⟩ | ⟨-, k, hcmp, hd⟩
      · rw [h]
        exact .none
      · exact .deleted hcmp hd
  | read name blockNum =>
      obtain ⟨r, hr⟩ := read_spec ho hop.1 hop.2
      exact ⟨d, by rw [exec, hr]; rfl, .none⟩
  | write name blockNum buf =>
      obtain ⟨r, hr, h⟩ := write_spec ho hop.1 hop.2 buf
      refine ⟨r.disk, by rw [exec, hr]; rfl, ?_⟩
      rcases h with ⟨-, h⟩ | ⟨-, k, j, hs, howns, hw⟩
      · rw [h]
        exact .none
      · exact .written hs howns hw
  | ls => exact ⟨d, rfl, .none⟩

/-- A file of `d'` is the one that was just created, or was there before with
the same inode. -/
theorem Effect.file {op : Op} (h : Effect d op d') (ho : Owned d) (hk : InUse d' k) :
    (∃ name size bs, op = .createFile name size ∧ Created d k name bs d') ∨
      InUse d k ∧ ∀ x, slot k ≤ x → x < slot k + 48 → d' x = d x := by
  cases h with
  | none => exact Or.inr ⟨hk, fun _ _ _ => rfl⟩
  | @created name size j bs _ _ hc =>
      by_cases hne : k = j
      · exact Or.inl ⟨name, size, bs, rfl, hne ▸ hc⟩
      · have hsame := hc.same_bytes hne
        exact Or.inr ⟨(inUse_congr hsame).mp hk, hsame⟩
  | @deleted name j _ _ hd =>
      have hne : k ≠ j := by
        intro heq
        subst heq
        exact hd.not_inUse hk
      have hsame := hd.same_bytes hne
      exact Or.inr ⟨(inUse_congr hsame).mp hk, hsame⟩
  | @written name blockNum buf j _ b _ howns hw =>
      have hb := ho.pointer_range _ _ _ howns
      have hsame : ∀ x, slot k ≤ x → x < slot k + 48 → d' x = d x := by
        intro x _ hx
        have := hk.1
        exact hw.frame x (Or.inl (by simp only [slot] at hx; omega))
      exact Or.inr ⟨(inUse_congr hsame).mp hk, hsame⟩

theorem Owned.effect {op : Op} (ho : Owned d) (hop : op.Sane) (h : Effect d op d') :
    Owned d' := by
  cases h with
  | none => exact ho
  | created hlen hc => exact ho.created hc (by have := hop.2.2; omega)
  | deleted _ hd => exact ho.deleted hd
  | written _ howns hw =>
      have := ho.pointer_range _ _ _ howns
      exact ho.congr fun x hx => hw.frame x (Or.inl (by omega))

/-- A freshly formatted disk has no files. -/
theorem formatted_used : (inode formatted k).used = 0 := by
  rw [used_eq, getInt_congr (w := fun _ => 0), getInt_zero]
  intro x h1 _
  exact if_neg (by omega)

theorem formatted_not_inUse : ¬ InUse formatted k := by
  rintro ⟨-, hu⟩
  rw [formatted_used] at hu
  simp at hu

theorem owned_formatted : Owned formatted := by
  have hzero : ∀ a ≠ 0, formatted a = 0 := fun a ha => if_neg ha
  refine ⟨fun j _ => ?_, rfl, fun k _ => Or.inl formatted_used,
    fun k hu => (formatted_not_inUse hu).elim, fun k i j h => (formatted_not_inUse h.1).elim,
    fun k i k' i' j h => (formatted_not_inUse h.1).elim, fun j h1 _ => ?_,
    fun a h1 _ => hzero a (by omega)⟩
  · by_cases hj : j = 0
    · rw [hj]
      exact Or.inr rfl
    · exact Or.inl (hzero j hj)
  · rw [hzero j (by omega)]
    refine iff_of_false (by simp) ?_
    rintro ⟨k, i, h⟩
    exact formatted_not_inUse h.1

theorem next_eq_some {op : Op} (h : exec d op = .ok d') : sessions.next d op = some d' := by
  show (exec d op).toOption = _
  rw [h]
  rfl

theorem owned_inductive : sessions.Inductive (fun _ op => op.Sane) Owned where
  init s hs := hs ▸ owned_formatted
  step s op s' ho hop hn := by
    obtain ⟨d', hd', heff⟩ := exec_effect ho hop
    rw [next_eq_some hd', Option.some.injEq] at hn
    exact hn ▸ ho.effect hop heff

/-- **Block ownership.** In every session of sane calls on a formatted disk
the ownership invariant holds after every call, and every further sane call
returns. -/
theorem block_ownership {d : Disk} (hd : sessions.ReachableUnder (fun _ op => op.Sane) d) :
    Owned d ∧ ∀ op : Op, op.Sane → ∃ d', sessions.next d op = some d' := by
  have ho := owned_inductive.invariantUnder d hd
  refine ⟨ho, fun op hop => ?_⟩
  obtain ⟨d', hd', -⟩ := exec_effect ho hop
  exact ⟨d', next_eq_some hd'⟩

/-- After creating a file of three blocks. -/
theorem block_ownership_after_create :
    ∃ d, sessions.next formatted (.createFile ⟨[97], by decide⟩ 3) = some d ∧ Owned d := by
  have hsane : (Op.createFile ⟨[97], by decide⟩ 3).Sane := ⟨by simp, by omega, by omega⟩
  obtain ⟨d, hd⟩ := (block_ownership (.init rfl)).2 _ hsane
  exact ⟨d, hd, (block_ownership (.step (.init rfl) hsane hd)).1⟩

end Os377.Fs
