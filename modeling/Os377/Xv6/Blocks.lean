import Os377.Lib.Bitmap
import Os377.Lib.Holdings

/-!
# The blocks of the xv6 file system

The lowest layer of `fs.c`: the superblock, and the allocator of disk blocks with its
bitmap. The disk is what the buffer cache shows of it; the log below it is
transparent and keeps, of each transaction, the list of the blocks it has to write.

`balloc_spec` and `bfree_spec` say what the two operations do to the bits, and
`Placed` (of the library) is what the rest of the file system knows about them.
-/

namespace Os377.Xv6.Filesys

open Os377.Lib Function

/-- `BSIZE` of `fs.h`. -/
def bsize : Nat := 512

/-- `BPB`, the bits in a block. -/
def bpb : Nat := bsize * 8

/-- `IPB`, the inodes in a block. -/
def ipb : Nat := bsize / 64

/-- `struct superblock`, laid out as `mkfs` lays it out. -/
structure Superblock where
  size : Nat
  nblocks : Nat
  ninodes : Nat
  nlog : Nat
  logstart : Nat
  inodestart : Nat
  bmapstart : Nat
  inodes_before : inodestart + ninodes / ipb < bmapstart
  bitmap_before : bmapstart + size / bpb < size - nblocks
  size_lt : size < 2 ^ 32

/-- The first data block; before it come the log, the inodes and the bitmap. -/
def Superblock.nmeta (sb : Superblock) : Nat := sb.size - sb.nblocks

/-- The blocks as `bread` returns them, and the blocks in the log header. -/
structure Disk where
  data : Nat → Mem
  logged : List Nat

/-- The buffer of the block `b` now holds `m`, and `log_write` is called on it. -/
def Disk.logWrite (d : Disk) (b : Nat) (m : Mem) : Disk where
  data := update d.data b m
  logged := if b ∈ d.logged then d.logged else d.logged ++ [b]

variable (sb : Superblock)

/-- `BBLOCK` -/
def bblock (b : Nat) : Nat := b / bpb + sb.bmapstart

/-- Zero a block. -/
def bzero (d : Disk) (bno : Nat) : Disk :=
  d.logWrite bno (splice (d.data bno) 0 bsize fun _ => 0)

/-- The body of the outer loop of `balloc`: the first clear bit of one bitmap block. -/
def scanBitmap (d : Disk) (b : Nat) : Option Nat :=
  (List.range (min bpb (sb.size - b))).find? fun bi => !bit (d.data (bblock sb b)) bi

/-- The outer loop of `balloc`, over the values of `b`. -/
def ballocFrom (d : Disk) : List Nat → Except String (Nat × Disk)
  | [] => .error "balloc: out of blocks"
  | b :: bs =>
      match scanBitmap sb d b with
      | some bi =>
          let d := d.logWrite (bblock sb b) (setBit (d.data (bblock sb b)) bi)
          .ok (b + bi, bzero d (b + bi))
      | none => ballocFrom d bs

/-- Allocate a zeroed disk block. -/
def balloc (d : Disk) : Except String (Nat × Disk) :=
  ballocFrom sb d ((List.range ((sb.size + bpb - 1) / bpb)).map (· * bpb))

/-- Free a disk block. -/
def bfree (d : Disk) (b : Nat) : Except String Disk :=
  let m := d.data (bblock sb b)
  let bi := b % bpb
  if bit m bi then .ok (d.logWrite (bblock sb b) (clearBit m bi))
  else .error "freeing free block"

/-- A call that does not panic goes on with its result. -/
theorem ok_bind {α β : Type} (a : α) (f : α → Except String β) : (Except.ok a >>= f) = f a := rfl

/-! ## Bits -/

/-- The bit of the block `b` in the bitmap. -/
def Used (d : Disk) (b : Nat) : Prop := bit (d.data (bblock sb b)) (b % bpb) = true

instance (d : Disk) (b : Nat) : Decidable (Used sb d b) := inferInstanceAs (Decidable (_ = true))

/-- The blocks of the bitmap. -/
def InBitmap (x : Nat) : Prop := sb.bmapstart ≤ x ∧ x < sb.nmeta

variable {sb} {d d' : Disk} {b c x : Nat} {m : Mem}

@[simp] theorem logWrite_self : (d.logWrite b m).data b = m := update_self b _ _

theorem logWrite_of_ne (h : x ≠ b) : (d.logWrite b m).data x = d.data x := update_of_ne h _ _

theorem mem_logWrite : x ∈ (d.logWrite b m).logged ↔ x ∈ d.logged ∨ x = b := by
  unfold Disk.logWrite
  by_cases hb : b ∈ d.logged
  · rw [if_pos hb]
    constructor
    · exact Or.inl
    · rintro (hx | rfl)
      · exact hx
      · exact hb
  · rw [if_neg hb, List.mem_append, List.mem_singleton]

theorem inBitmap_bblock (h : b < sb.size) : InBitmap sb (bblock sb b) := by
  have hb := sb.bitmap_before
  have hle : b / bpb ≤ sb.size / bpb := Nat.div_le_div_right (Nat.le_of_lt h)
  exact ⟨Nat.le_add_left _ _, Nat.lt_of_le_of_lt (by rw [bblock, Nat.add_comm]; gcongr) hb⟩

/-- A block is reached in the bitmap by its bitmap block and the bit there. -/
theorem bit_pos (sb : Superblock) (b c : Nat) : bblock sb c = bblock sb b ∧ c % bpb = b % bpb ↔ c = b := by
  unfold bblock bpb bsize
  omega

theorem used_congr (h : d'.data (bblock sb b) = d.data (bblock sb b)) :
    Used sb d' b ↔ Used sb d b := by
  rw [Used, Used, h]

theorem used_logWrite (hb : b < sb.size) (h : ¬ InBitmap sb x) :
    Used sb (d.logWrite x m) b ↔ Used sb d b := by
  apply used_congr
  apply logWrite_of_ne
  rintro rfl
  exact h (inBitmap_bblock hb)

/-- The disk with the block `b` marked in the bitmap. -/
def mark (sb : Superblock) (d : Disk) (b : Nat) : Disk :=
  d.logWrite (bblock sb b) (setBit (d.data (bblock sb b)) (b % bpb))

/-- The disk with the mark of the block `b` cleared. -/
def unmark (sb : Superblock) (d : Disk) (b : Nat) : Disk :=
  d.logWrite (bblock sb b) (clearBit (d.data (bblock sb b)) (b % bpb))

theorem used_mark : Used sb (mark sb d b) c ↔ Used sb d c ∨ c = b := by
  unfold mark Used
  by_cases hbl : bblock sb c = bblock sb b
  · have hpos := bit_pos sb b c
    rw [hbl, logWrite_self, bit_setBit, Bool.or_eq_true, decide_eq_true_eq, or_comm]
    simp only [hbl, true_and] at hpos
    rw [hpos]
  · have hne : c ≠ b := fun h => hbl (by rw [h])
    rw [logWrite_of_ne hbl]
    simp only [hne, or_false]

theorem used_unmark : Used sb (unmark sb d b) c ↔ Used sb d c ∧ c ≠ b := by
  unfold unmark Used
  by_cases hbl : bblock sb c = bblock sb b
  · have hpos := bit_pos sb b c
    simp only [hbl, true_and] at hpos
    rw [hbl, logWrite_self, bit_clearBit, Bool.and_eq_true, Bool.not_eq_true',
      decide_eq_false_iff_not, and_comm, hpos]
  · have hne : c ≠ b := fun h => hbl (by rw [h])
    rw [logWrite_of_ne hbl]
    simp only [hne, ne_eq, not_false_eq_true, and_true]

/-! ## The blocks of a transaction -/

/-- `d'` has logged what `d` has, blocks of `S` and at most `k` others. -/
def Logs (d d' : Disk) (k : Nat) (S : Nat → Prop) : Prop :=
  ∃ others : List Nat, others.length ≤ k ∧ ∀ x ∈ d'.logged, x ∈ d.logged ∨ x ∈ others ∨ S x

namespace Logs

variable {d₁ : Disk} {k k' : Nat} {S S' : Nat → Prop}

theorem refl (d : Disk) : Logs d d 0 S := ⟨[], Nat.le_refl 0, fun _ => .inl⟩

theorem mono (h : Logs d d' k S) (hk : k ≤ k') (hS : ∀ x, S x → S' x) : Logs d d' k' S' := by
  obtain ⟨others, hlen, hx⟩ := h
  exact ⟨others, hlen.trans hk, fun x hmem => (hx x hmem).imp_right (Or.imp_right (hS x))⟩

theorem trans (h : Logs d d₁ k S) (h' : Logs d₁ d' k' S) : Logs d d' (k + k') S := by
  obtain ⟨others, hlen, hx⟩ := h
  obtain ⟨others', hlen', hx'⟩ := h'
  refine ⟨others ++ others', by rw [List.length_append]; omega, fun x hmem => ?_⟩
  rw [List.mem_append]
  rcases hx' x hmem with h1 | h1 | h1
  · rcases hx x h1 with h2 | h2 | h2
    · exact .inl h2
    · exact .inr (.inl (.inl h2))
    · exact .inr (.inr h2)
  · exact .inr (.inl (.inr h1))
  · exact .inr (.inr h1)

theorem logWrite (h : Logs d d' k S) (hb : S b) (m : Mem) : Logs d (d'.logWrite b m) k S := by
  obtain ⟨others, hlen, hx⟩ := h
  refine ⟨others, hlen, fun x hmem => ?_⟩
  rcases mem_logWrite.mp hmem with h1 | rfl
  · exact hx x h1
  · exact .inr (.inr hb)

theorem logWrite_new (h : Logs d d' k S) (b : Nat) (m : Mem) :
    Logs d (d'.logWrite b m) (k + 1) S := by
  obtain ⟨others, hlen, hx⟩ := h
  refine ⟨b :: others, Nat.succ_le_succ hlen, fun x hmem => ?_⟩
  rw [List.mem_cons]
  rcases mem_logWrite.mp hmem with h1 | h1
  · exact (hx x h1).imp_right (Or.imp_left .inr)
  · exact .inr (.inl (.inl h1))

/-- With the blocks of `S` counted too. -/
theorem all (h : Logs d d' k S) (xs : List Nat) (hS : ∀ x, S x → x ∈ xs) :
    Logs d d' (k + xs.length) fun _ => False := by
  obtain ⟨others, hlen, hx⟩ := h
  refine ⟨others ++ xs, by rw [List.length_append]; omega, fun x hmem => ?_⟩
  rw [List.mem_append]
  rcases hx x hmem with h1 | h1 | h1
  · exact .inl h1
  · exact .inr (.inl (.inl h1))
  · exact .inr (.inl (.inr (hS x h1)))

end Logs

/-- What `balloc` returns: a block that was free, marked and zeroed. -/
structure Allocated (sb : Superblock) (d : Disk) (b : Nat) (d' : Disk) : Prop where
  lt : b < sb.size
  free : ¬ Used sb d b
  eq : d' = bzero (mark sb d b) b

theorem scanBitmap_some {k bi : Nat} (h : scanBitmap sb d (k * bpb) = some bi) :
    bi < bpb ∧ k * bpb + bi < sb.size ∧ ¬ Used sb d (k * bpb + bi) := by
  have hmem := List.mem_range.mp (List.mem_of_find?_eq_some h)
  have hbit := List.find?_some h
  have hblock : bblock sb (k * bpb + bi) = bblock sb (k * bpb) ∧ (k * bpb + bi) % bpb = bi := by
    unfold bblock bpb bsize at *
    omega
  refine ⟨by omega, by omega, ?_⟩
  rw [Used, hblock.1, hblock.2]
  simpa using hbit

theorem scanBitmap_none {k : Nat} (h : scanBitmap sb d (k * bpb) = none) (hb : b < sb.size)
    (hk : b / bpb = k) : Used sb d b := by
  have hmod : b % bpb < min bpb (sb.size - k * bpb) ∧ bblock sb b = bblock sb (k * bpb) := by
    unfold bblock bpb bsize at *
    omega
  have hbit := List.find?_eq_none.mp h (b % bpb) (List.mem_range.mpr hmod.1)
  rw [Used, hmod.2]
  simpa using hbit

theorem ballocFrom_spec (sb : Superblock) (d : Disk) (ks : List Nat) :
    (∃ b d', ballocFrom sb d (ks.map (· * bpb)) = .ok (b, d') ∧ Allocated sb d b d') ∨
      (ballocFrom sb d (ks.map (· * bpb)) = .error "balloc: out of blocks" ∧
        ∀ k ∈ ks, ∀ b < sb.size, b / bpb = k → Used sb d b) := by
  induction ks with
  | nil => exact .inr ⟨rfl, fun k hk => absurd hk List.not_mem_nil⟩
  | cons k ks ih =>
      rw [List.map_cons, ballocFrom]
      cases hscan : scanBitmap sb d (k * bpb) with
      | some bi =>
          obtain ⟨hlt, hsize, hfree⟩ := scanBitmap_some hscan
          refine .inl ⟨k * bpb + bi, _, rfl, hsize, hfree, ?_⟩
          have hblock : bblock sb (k * bpb + bi) = bblock sb (k * bpb) ∧
              (k * bpb + bi) % bpb = bi := by
            unfold bblock bpb bsize at *
            omega
          rw [mark, hblock.1, hblock.2]
      | none =>
          rcases ih with hok | ⟨herr, hall⟩
          · exact .inl hok
          · refine .inr ⟨herr, fun j hj b hb hbj => ?_⟩
            rcases List.mem_cons.mp hj with rfl | hj
            · exact scanBitmap_none hscan hb hbj
            · exact hall j hj b hb hbj

/-- `balloc` returns a free block, or there is none. -/
theorem balloc_spec (sb : Superblock) (d : Disk) :
    (∃ b d', balloc sb d = .ok (b, d') ∧ Allocated sb d b d') ∨
      (balloc sb d = .error "balloc: out of blocks" ∧ ∀ b < sb.size, Used sb d b) := by
  rcases ballocFrom_spec sb d (List.range ((sb.size + bpb - 1) / bpb)) with
    hok | ⟨herr, hall⟩
  · exact .inl hok
  · refine .inr ⟨herr, fun b hb => hall _ (List.mem_range.mpr ?_) b hb rfl⟩
    unfold bpb bsize
    omega

theorem bfree_spec (h : Used sb d b) : bfree sb d b = .ok (unmark sb d b) := if_pos h

namespace Allocated

variable (h : Allocated sb d b d')
include h

/-- Outside of the bitmap only the new block changes. -/
theorem data (hx : ¬ InBitmap sb x) (hne : x ≠ b) : d'.data x = d.data x := by
  rw [h.eq, bzero, logWrite_of_ne hne]
  apply logWrite_of_ne
  rintro rfl
  exact hx (inBitmap_bblock h.lt)

theorem zeroed {i : Nat} (hi : i < bsize) : d'.data b i = 0 := by
  rw [h.eq, bzero, logWrite_self]
  exact splice_inside (Nat.zero_le i) (by omega)

theorem used (hb : ¬ InBitmap sb b) (hc : c < sb.size) :
    Used sb d' c ↔ Used sb d c ∨ c = b := by
  rw [h.eq, bzero, used_logWrite hc hb]
  exact used_mark

theorem logs {S : Nat → Prop} (hS : S b) : Logs d d' 1 S := by
  rw [h.eq, bzero, mark]
  exact ((Logs.refl d).logWrite_new (bblock sb b) _).logWrite hS _

end Allocated

theorem unmark_data (hb : b < sb.size) (hx : ¬ InBitmap sb x) :
    (unmark sb d b).data x = d.data x := by
  apply logWrite_of_ne
  rintro rfl
  exact hx (inBitmap_bblock hb)

end Os377.Xv6.Filesys
