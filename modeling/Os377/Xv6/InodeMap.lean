import Os377.Xv6.Inode
import Mathlib.Data.Finset.Card
import Mathlib.Order.Interval.Finset.Nat

/-!
# The blocks of inodes

The pointers of an inode to its blocks, in one numbering: the direct ones, the one to the
indirect block, and the entries there. `Good` says that the bitmap and the pointers of
all inodes agree, `Filled` that an inode has its first `n` data blocks and the indirect
block where it needs one. `bmap` finds the blocks of a file without a change
(`Filled.bmap_eq`), and adds the next one if there is room for it (`Good.bmap_grown`).
-/

namespace Os377.Xv6.Filesys

open Os377.Lib Function

/-- Pointer number `k` of an inode. -/
def ptr (d : Disk) (ip : Dinode) (k : Nat) : Nat :=
  if k ≤ ndirect then ip.addrs k
  else if ip.addrs ndirect = 0 ∨ maxfile < k then 0
  else entry (d.data (ip.addrs ndirect)) (k - (ndirect + 1))

/-- The number of the pointer to the data block `n`. -/
def slot (n : Nat) : Nat := if n < ndirect then n else n + 1

/-- The data block `n` of an inode. -/
def block (d : Disk) (ip : Dinode) (n : Nat) : Nat := ptr d ip (slot n)

/-- The pointers of all inodes; `t` has their fields. -/
def pointers (sb : Superblock) (t : Nat → Dinode) (d : Disk) (x : Nat × Nat) : Nat :=
  if x.1 < sb.ninodes then ptr d (t x.1) x.2 else 0

/-- The bitmap has a bit for what comes before the data blocks and for the blocks of
inodes, and no block belongs to two. -/
def Good (sb : Superblock) (t : Nat → Dinode) (d : Disk) : Prop :=
  Placed (· < sb.size) (· < sb.nmeta) (Used sb d) (pointers sb t d)

/-- The inode has its first `n` data blocks, and the blocks to find them. -/
structure Filled (d : Disk) (ip : Dinode) (n : Nat) : Prop where
  block : ∀ k < maxfile, block d ip k ≠ 0 ↔ k < n
  indirect : ip.addrs ndirect ≠ 0 ↔ ndirect < n
  le : n ≤ maxfile

/-- The blocks that an inode with `n` data blocks has. -/
def held (n : Nat) : Nat := n + if ndirect < n then 1 else 0

/-- The free blocks of the disk. -/
def free (sb : Superblock) (d : Disk) : Nat :=
  ((Finset.range sb.size).filter fun b => ¬ Used sb d b).card

variable {sb : Superblock} {d d' d₁ : Disk} {ip ip' : Dinode} {t : Nat → Dinode}
variable {b i j k n x : Nat}

/-! ## Pointers -/

theorem ptr_direct (h : k ≤ ndirect) : ptr d ip k = ip.addrs k := if_pos h

theorem ptr_indirect (h0 : ip.addrs ndirect ≠ 0) (h1 : ndirect < k) (h2 : k ≤ maxfile) :
    ptr d ip k = entry (d.data (ip.addrs ndirect)) (k - (ndirect + 1)) := by
  rw [ptr, if_neg (by omega), if_neg]
  rintro (h | h)
  · exact h0 h
  · omega

theorem ptr_none (h0 : ip.addrs ndirect = 0) (h1 : ndirect < k) : ptr d ip k = 0 := by
  rw [ptr, if_neg (by omega), if_pos (.inl h0)]

/-- The pointers depend on the indirect block only. -/
theorem ptr_congr (h : ip.addrs ndirect ≠ 0 →
    d'.data (ip.addrs ndirect) = d.data (ip.addrs ndirect)) : ptr d' ip = ptr d ip := by
  funext k
  unfold ptr
  by_cases h0 : ip.addrs ndirect = 0
  · simp only [h0, true_or, if_true]
  · rw [h h0]

theorem slot_ne_ndirect (n : Nat) : slot n ≠ ndirect := by
  unfold slot
  split <;> omega

theorem slot_inj (h : slot k = slot n) : k = n := by
  unfold slot at h
  split at h <;> split at h <;> omega

theorem block_direct (h : n < ndirect) : block d ip n = ip.addrs n := by
  rw [block, slot, if_pos h, ptr_direct (Nat.le_of_lt h)]

theorem block_indirect (h0 : ip.addrs ndirect ≠ 0) (h1 : ¬ n < ndirect) (h2 : n < maxfile) :
    block d ip n = entry (d.data (ip.addrs ndirect)) (n - ndirect) := by
  have h3 : slot n = n + 1 := if_neg h1
  rw [block, ptr_indirect h0 (by omega) (by omega), h3, Nat.add_sub_add_right]

theorem entry_congr {m w : Mem} (h : ∀ i < bsize, m i = w i) (hn : n < nindirect) :
    entry m n = entry w n := by
  apply getLe_congr
  intro i h1 h2
  apply h
  unfold nindirect bsize at *
  omega

theorem entry_zero {m : Mem} (h : ∀ i < bsize, m i = 0) (hn : n < nindirect) : entry m n = 0 := by
  rw [entry_congr (w := fun _ => 0) h hn]
  exact getLe_zero

theorem entry_putLe {m : Mem} (hb : b < 2 ^ 32) :
    entry (putLe m (4 * n) 4 b) k = if k = n then b else entry m k := by
  by_cases hk : k = n
  · rw [if_pos hk, hk]
    exact getLe_putLe hb
  · rw [if_neg hk]
    exact getLe_putLe_of_disjoint (by omega)

theorem setAddr_self : (ip.setAddr k b).addrs k = b := by
  show update ip.addrs k b k = b
  rw [update_self]

theorem ptr_setAddr (hk : k ≤ ndirect) (h : k = ndirect → ∀ i < bsize, d'.data b i = 0)
    (hd : k ≠ ndirect → ip.addrs ndirect ≠ 0 →
      d'.data (ip.addrs ndirect) = d.data (ip.addrs ndirect))
    (h0 : ptr d ip k = 0) : ptr d' (ip.setAddr k b) = update (ptr d ip) k b := by
  have haddr : ∀ j, (ip.setAddr k b).addrs j = update ip.addrs k b j := fun _ => rfl
  funext j
  by_cases hj : j ≤ ndirect
  · rw [ptr_direct hj, haddr]
    by_cases hjk : j = k
    · rw [hjk, update_self, update_self]
    · rw [update_of_ne hjk, update_of_ne hjk, ptr_direct hj]
  · rw [update_of_ne (by omega)]
    by_cases hkn : k = ndirect
    · subst hkn
      rw [ptr_direct (Nat.le_refl _)] at h0
      rw [ptr_none h0 (by omega), ptr, if_neg hj, haddr, update_self]
      split
      · rfl
      · next hne =>
          refine entry_zero (h rfl) ?_
          unfold maxfile at hne
          omega
    · unfold ptr
      rw [if_neg hj, if_neg hj, haddr, update_of_ne (Ne.symm hkn)]
      by_cases hi : ip.addrs ndirect = 0
      · simp only [hi, true_or, if_true]
      · rw [hd hkn hi]

/-! ## The bitmap and the pointers -/

theorem pointers_lt (hi : i < sb.ninodes) : pointers sb t d (i, k) = ptr d (t i) k := if_pos hi

theorem pointers_congr {t' : Nat → Dinode}
    (hp : ∀ j < sb.ninodes, ptr d' (t' j) = ptr d (t j)) : pointers sb t' d' = pointers sb t d := by
  funext ⟨j, k⟩
  unfold pointers
  split
  · next hj => rw [hp j hj]
  · rfl

theorem free_congr (h : ∀ c < sb.size, Used sb d' c ↔ Used sb d c) : free sb d' = free sb d := by
  unfold free
  congr 1
  apply Finset.filter_congr
  intro c hc
  rw [h c (Finset.mem_range.mp hc)]

theorem free_take (hb : b < sb.size) (hu : ¬ Used sb d b)
    (h : ∀ c < sb.size, Used sb d' c ↔ Used sb d c ∨ c = b) : free sb d' + 1 = free sb d := by
  have heq : (Finset.range sb.size).filter (fun c => ¬ Used sb d' c)
      = ((Finset.range sb.size).filter fun c => ¬ Used sb d c).erase b := by
    ext c
    simp only [Finset.mem_filter, Finset.mem_range, Finset.mem_erase]
    constructor
    · rintro ⟨hc, hn⟩
      rw [h c hc, not_or] at hn
      exact ⟨hn.2, hc, hn.1⟩
    · rintro ⟨hne, hc, hn⟩
      rw [h c hc, not_or]
      exact ⟨hc, hn, hne⟩
  unfold free
  rw [heq]
  exact Finset.card_erase_add_one (Finset.mem_filter.mpr ⟨Finset.mem_range.mpr hb, hu⟩)

theorem free_drop (hb : b < sb.size) (hu : Used sb d b)
    (h : ∀ c < sb.size, Used sb d' c ↔ Used sb d c ∧ c ≠ b) : free sb d' = free sb d + 1 := by
  refine (free_take hb (d := d') (by simp [h b hb]) fun c hc => ?_).symm
  rw [h c hc]
  by_cases hcb : c = b
  · rw [hcb]
    exact iff_of_true hu (.inr rfl)
  · simp only [hcb, ne_eq, not_false_eq_true, and_true, or_false]

theorem free_eq_zero : free sb d = 0 ↔ ∀ b < sb.size, Used sb d b := by
  unfold free
  rw [Finset.card_eq_zero, Finset.filter_eq_empty_iff]
  simp only [Finset.mem_range, not_not]

theorem not_inBitmap (h : sb.nmeta ≤ x) : ¬ InBitmap sb x := fun hx => by
  have := hx.2
  omega

/-- What changes on the disk while the inode `i` gets a block: the bitmap, blocks that
nobody had, and its indirect block. -/
def Frame (sb : Superblock) (d d' : Disk) (indirect : Nat) : Prop :=
  ∀ x < sb.size, ¬ InBitmap sb x → Used sb d x → (x = indirect → x = 0) → d'.data x = d.data x

namespace Good

theorem placed (hg : Good sb t d) :
    Placed (· < sb.size) (· < sb.nmeta) (Used sb d) (pointers sb t d) := hg

variable (hg : Good sb t d) (hi : i < sb.ninodes)
include hg hi

theorem ptr_lt (h : ptr d (t i) k ≠ 0) : ptr d (t i) k < sb.size := by
  rw [← pointers_lt hi] at h ⊢
  exact (hg.placed.cell _ h).1

theorem ptr_ge (h : ptr d (t i) k ≠ 0) : sb.nmeta ≤ ptr d (t i) k := by
  rw [← pointers_lt hi] at h ⊢
  exact Nat.le_of_not_lt (hg.placed.cell _ h).2

theorem ptr_used (h : ptr d (t i) k ≠ 0) : Used sb d (ptr d (t i) k) := by
  rw [← pointers_lt hi] at h ⊢
  exact hg.placed.held h

theorem ptr_inj (hj : j < sb.ninodes) (h : ptr d (t i) k = ptr d (t j) n)
    (h0 : ptr d (t i) k ≠ 0) : i = j ∧ k = n := by
  rw [← pointers_lt hi, ← pointers_lt hj] at h
  rw [← pointers_lt hi] at h0
  exact Prod.mk.inj (hg.placed.unique _ _ h h0)

/-- The other inodes keep their pointers. -/
theorem ptr_frame (hf : Frame sb d d' ((t i).addrs ndirect)) (hj : j < sb.ninodes) (hne : j ≠ i) :
    ptr d' (t j) = ptr d (t j) := by
  apply ptr_congr
  intro h0
  rw [← ptr_direct (d := d) (Nat.le_refl ndirect)] at h0 ⊢
  apply hf _ (hg.ptr_lt hj h0) (not_inBitmap (hg.ptr_ge hj h0)) (hg.ptr_used hj h0)
  rw [← ptr_direct (d := d) (Nat.le_refl ndirect)]
  intro heq
  exact absurd (hg.ptr_inj hj hi heq h0).1 hne

theorem pointers_frame (hf : Frame sb d d' ((t i).addrs ndirect))
    (hp : ptr d' ip' = update (ptr d (t i)) k b) :
    pointers sb (update t i ip') d' = update (pointers sb t d) (i, k) b := by
  funext ⟨j, m⟩
  by_cases hj : j < sb.ninodes
  · rw [pointers_lt hj]
    by_cases hji : j = i
    · subst hji
      rw [update_self, hp]
      by_cases hmk : m = k
      · rw [hmk, update_self, update_self]
      · rw [update_of_ne hmk, update_of_ne (fun h => hmk (Prod.mk.inj h).2), pointers_lt hj]
    · rw [update_of_ne hji, update_of_ne (fun h => hji (Prod.mk.inj h).1), pointers_lt hj,
        hg.ptr_frame hi hf hj hji]
  · have hne : (j, m) ≠ (i, k) := by
      rintro ⟨⟩
      exact hj hi
    rw [update_of_ne hne, pointers, pointers, if_neg hj, if_neg hj]

/-- The inode takes a block that was free. -/
theorem take (hf : Frame sb d d' ((t i).addrs ndirect))
    (hp : ptr d' ip' = update (ptr d (t i)) k b) (h0 : ptr d (t i) k = 0) (hb : b < sb.size)
    (hu : ¬ Used sb d b) (hu' : ∀ c < sb.size, Used sb d' c ↔ Used sb d c ∨ c = b) :
    Good sb (update t i ip') d' := by
  unfold Good
  rw [hg.pointers_frame hi hf hp]
  exact hg.placed.take (by rw [pointers_lt hi, h0]) hb hu hu'

omit hi in
theorem allocated (ha : Allocated sb d b d₁) : sb.nmeta ≤ b ∧ b ≠ 0 ∧ ¬ InBitmap sb b := by
  have hm : ¬ b < sb.nmeta := hg.placed.not_reserved ha.lt ha.free
  have hle := Nat.le_of_not_lt hm
  exact ⟨hle, hg.placed.ne_zero ha.lt ha.free, not_inBitmap hle⟩

end Good

/-! ## One more block -/

/-- The inode has taken the block `b` as its pointer number `k`. -/
structure Took (sb : Superblock) (d : Disk) (ip : Dinode) (k b : Nat) (ip' : Dinode) (d' : Disk) :
    Prop where
  lt : b < sb.size
  free : ¬ Used sb d b
  ptr : ptr d' ip' = update (ptr d ip) k b
  used : ∀ c < sb.size, Used sb d' c ↔ Used sb d c ∨ c = b
  frame : Frame sb d d' (ip.addrs ndirect)
  same : ip' = { ip with addrs := ip'.addrs }
  beyond : ∀ m, ndirect < m → ip'.addrs m = ip.addrs m
  indirect : ip.addrs ndirect ≠ 0 → ip'.addrs ndirect = ip.addrs ndirect
  logged : Logs d d' 1 fun x => x = b ∨ (ip'.addrs ndirect ≠ 0 ∧ x = ip'.addrs ndirect)

theorem Allocated.frame (ha : Allocated sb d b d') (k : Nat) : Frame sb d d' k := by
  intro x _ hx hu _
  apply ha.data hx
  rintro rfl
  exact ha.free hu

namespace Good

variable (hg : Good sb t d) (hi : i < sb.ninodes)
include hg hi

/-- A direct block, or the indirect block. -/
theorem took_addr (ha : Allocated sb d b d') (hk : k ≤ ndirect) (h0 : (t i).addrs k = 0) :
    Took sb d (t i) k b ((t i).setAddr k b) d' where
  lt := ha.lt
  free := ha.free
  ptr := by
    refine ptr_setAddr hk (fun _ i hi => ha.zeroed hi) (fun _ hne => ?_) (by rw [ptr_direct hk, h0])
    rw [← ptr_direct (d := d) (Nat.le_refl ndirect)] at hne ⊢
    refine ha.data (not_inBitmap (hg.ptr_ge hi hne)) fun heq => ha.free ?_
    rw [← heq]
    exact hg.ptr_used hi hne
  used c hc := ha.used (hg.allocated ha).2.2 hc
  frame := ha.frame _
  same := rfl
  beyond m hm := update_of_ne (by omega) _ _
  indirect hne := by
    have hnk : ndirect ≠ k := fun heq => hne (by rw [heq, h0])
    show update (t i).addrs k b ndirect = _
    rw [update_of_ne hnk]
  logged := ha.logs (.inl rfl)

/-- An entry of the indirect block. -/
theorem took_entry (ha : Allocated sb d b d₁) (h0 : (t i).addrs ndirect ≠ 0) (hn : ¬ n < ndirect)
    (hmax : n < maxfile) :
    Took sb d (t i) (slot n) b (t i) (d₁.logWrite ((t i).addrs ndirect)
      (putLe (d₁.data ((t i).addrs ndirect)) (4 * (n - ndirect)) 4 b)) := by
  have hslot : slot n = n + 1 := if_neg hn
  have hbp : ptr d (t i) ndirect = (t i).addrs ndirect := ptr_direct (Nat.le_refl _)
  have hne : ptr d (t i) ndirect ≠ 0 := by rwa [hbp]
  have hmeta := hg.ptr_ge hi hne
  have hused := hg.ptr_used hi hne
  rw [hbp] at hmeta hused
  have hfresh : (t i).addrs ndirect ≠ b := by
    rintro rfl
    exact ha.free hused
  have hlt32 : b < 2 ^ 32 := Nat.lt_trans ha.lt sb.size_lt
  refine ⟨ha.lt, ha.free, ?_, fun c hc => ?_, ?_, rfl, fun m _ => rfl, fun _ => rfl, ?_⟩
  · funext m
    by_cases hm : m ≤ ndirect
    · rw [update_of_ne (by omega), ptr_direct hm, ptr_direct hm]
    · by_cases hmf : m ≤ maxfile
      · rw [ptr_indirect h0 (by omega) hmf, logWrite_self, entry_putLe hlt32]
        by_cases hmn : m = slot n
        · rw [if_pos (by omega), hmn, update_self]
        · rw [if_neg (by omega), update_of_ne hmn, ptr_indirect h0 (by omega) hmf,
            ha.data (not_inBitmap hmeta) hfresh]
      · have hnone : ∀ d : Disk, Filesys.ptr d (t i) m = 0 := by
          intro d
          rw [Filesys.ptr, if_neg hm, if_pos (.inr (by omega))]
        rw [hnone, update_of_ne (by rw [hslot]; omega), hnone]
  · rw [used_logWrite hc (not_inBitmap hmeta)]
    exact ha.used (hg.allocated ha).2.2 hc
  · intro x hx hnb hu hxi
    have hxne : x ≠ (t i).addrs ndirect := by
      intro heq
      exact h0 (heq ▸ hxi heq)
    rw [logWrite_of_ne hxne]
    apply ha.data hnb
    rintro rfl
    exact ha.free hu
  · exact (ha.logs (.inl rfl)).logWrite (.inr ⟨h0, rfl⟩) _

end Good

namespace Took

variable (h : Took sb d ip k b ip' d')
include h

theorem good (hg : Good sb t d) (hi : i < sb.ninodes) (hip : t i = ip)
    (h0 : Filesys.ptr d ip k = 0) : Good sb (update t i ip') d' := by
  subst hip
  exact hg.take hi h.frame h.ptr h0 h.lt h.free h.used

theorem free_succ : Filesys.free sb d' + 1 = Filesys.free sb d := free_take h.lt h.free h.used

theorem block_ne (hk : k ≠ slot n) : block d' ip' n = block d ip n := by
  rw [block, h.ptr, update_of_ne (Ne.symm hk)]
  rfl

theorem block_self (hk : k = slot n) : block d' ip' n = b := by
  rw [block, h.ptr, hk, update_self]

theorem used_of (hx : x < sb.size) (hu : Used sb d x) : Used sb d' x := (h.used x hx).mpr (.inl hu)

end Took

/-- The inode `i` had its first `n` blocks and now has its first `n'`; nothing else is
different but the bytes of its blocks. -/
structure Extended (sb : Superblock) (t : Nat → Dinode) (d : Disk) (i n : Nat) (ip' : Dinode)
    (d' : Disk) (n' : Nat) : Prop where
  good : Good sb (update t i ip') d'
  filled : Filled d' ip' n'
  grows : n ≤ n'
  idle : n' = n → ip' = t i
  same : ip' = { t i with addrs := ip'.addrs }
  beyond : ∀ m, ndirect < m → ip'.addrs m = (t i).addrs m
  indirect : (t i).addrs ndirect ≠ 0 → ip'.addrs ndirect = (t i).addrs ndirect
  blocks : ∀ k < n, block d' ip' k = block d (t i) k
  used : ∀ c < sb.size, Used sb d c → Used sb d' c
  fresh : ∀ k, ptr d' ip' k ≠ 0 → Used sb d (ptr d' ip' k) → ∃ m, ptr d (t i) m = ptr d' ip' k
  frame : ∀ x < sb.size, ¬ InBitmap sb x → Used sb d x →
    (∀ k, ptr d (t i) k ≠ 0 → x ≠ ptr d (t i) k) → d'.data x = d.data x
  free : free sb d' + held n' = free sb d + held n

/-- The inode has got its data block number `n`, the block `b`. -/
structure Grown (sb : Superblock) (t : Nat → Dinode) (d : Disk) (i n b : Nat) (ip' : Dinode)
    (d' : Disk) : Prop extends Extended sb t d i n ip' d' (n + 1) where
  new : block d' ip' n = b
  unused : ¬ Used sb d b
  kept : Frame sb d d' ((t i).addrs ndirect)
  logged : Logs d d' (held (n + 1) - held n) fun x =>
    x = b ∨ (ip'.addrs ndirect ≠ 0 ∧ x = ip'.addrs ndirect)

theorem Filled.succ (hf : Filled d ip n) (hn : n < maxfile)
    (hold : ∀ k, k ≠ n → Filesys.block d' ip' k = Filesys.block d ip k)
    (hnew : Filesys.block d' ip' n ≠ 0) (hind : ip'.addrs ndirect ≠ 0 ↔ ndirect < n + 1) :
    Filled d' ip' (n + 1) where
  block k hk := by
    by_cases hkn : k = n
    · rw [hkn]
      exact iff_of_true hnew (Nat.lt_succ_self n)
    · rw [hold k hkn, hf.block k hk]
      omega
  indirect := hind
  le := hn

/-- `bmap` finds the blocks of a file and changes nothing. -/
theorem Filled.bmap_eq (hf : Filled d ip n) (hk : k < n) :
    bmap sb ip k d = .ok (Filesys.block d ip k, ip, d) := by
  have hle := hf.le
  have hne := (hf.block k (by omega)).mpr hk
  unfold bmap
  by_cases h : k < ndirect
  · rw [block_direct h] at hne ⊢
    rw [if_pos h, if_neg hne]
  · have h0 := hf.indirect.mpr (by omega)
    rw [block_indirect h0 h (by omega)] at hne ⊢
    have hlt : k - ndirect < nindirect := by
      unfold maxfile at hle
      omega
    rw [if_neg h, if_pos hlt, if_neg h0]
    exact if_neg hne

theorem held_succ (n : Nat) : held (n + 1) = held n + if n = ndirect then 2 else 1 := by
  unfold held
  split <;> split <;> split <;> omega

theorem Filled.block_eq_zero (hf : Filled d ip n) (hn : n < maxfile) :
    Filesys.block d ip n = 0 := by
  by_contra hne
  exact absurd ((hf.block n hn).mp hne) (Nat.lt_irrefl n)

theorem held_mono (h : n ≤ k) : held n ≤ held k := by
  unfold held
  split <;> split <;> omega

/-- The second half of `bmap`, where the entry is not there yet. -/
theorem Good.bmapEntry_took (hg : Good sb t d) (hi : i < sb.ninodes) (hip : t i = ip)
    (h0 : ip.addrs ndirect ≠ 0) (hn : ¬ n < ndirect) (hmax : n < maxfile)
    (hz : Filesys.block d ip n = 0) :
    (∃ b d', bmapEntry sb ip (n - ndirect) d = .ok (b, ip, d') ∧ b ≠ 0 ∧
        Took sb d ip (slot n) b ip d') ∨
      (bmapEntry sb ip (n - ndirect) d = .error "balloc: out of blocks" ∧ free sb d = 0) := by
  subst hip
  rw [block_indirect h0 hn hmax] at hz
  unfold bmapEntry
  rw [if_pos hz]
  rcases balloc_spec sb d with ⟨b, d', hb, ha⟩ | ⟨hb, hall⟩
  · exact .inl ⟨b, _, by rw [hb]; rfl, (hg.allocated ha).2.1, hg.took_entry hi ha h0 hn hmax⟩
  · exact .inr ⟨by rw [hb]; rfl, free_eq_zero.mpr hall⟩

section Grow

variable (hg : Good sb t d) (hi : i < sb.ninodes) (hf : Filled d (t i) n) (hn : n < maxfile)
include hg hi hf hn

/-- A block that is found without a new indirect block. -/
theorem Took.grown (h : Took sb d (t i) (slot n) b ip' d') (hnd : n ≠ ndirect)
    (hb : b ≠ 0) (hind : ip'.addrs ndirect = (t i).addrs ndirect) :
    Grown sb t d i n b ip' d' where
  good := h.good hg hi rfl (hf.block_eq_zero hn)
  filled := by
    refine hf.succ hn (fun k hk => h.block_ne fun heq => hk (slot_inj heq).symm) ?_ ?_
    · rwa [h.block_self rfl]
    · rw [hind, hf.indirect]
      omega
  grows := Nat.le_succ n
  idle h := absurd h (Nat.succ_ne_self n)
  same := h.same
  beyond := h.beyond
  indirect := h.indirect
  blocks k hk := h.block_ne fun heq => (Nat.ne_of_lt hk) (slot_inj heq).symm
  used c hc := h.used_of hc
  fresh k hk hu := by
    rw [h.ptr] at hk hu ⊢
    by_cases hks : k = slot n
    · rw [hks, update_self] at hu
      exact absurd hu h.free
    · rw [update_of_ne hks]
      exact ⟨k, rfl⟩
  frame x hx hnb hu hx' := by
    refine h.frame x hx hnb hu fun heq => ?_
    by_contra h0
    rw [← ptr_direct (d := d) (Nat.le_refl ndirect)] at heq
    exact hx' ndirect (heq ▸ h0) heq
  free := by
    have h1 := h.free_succ
    have h2 := held_succ n
    rw [if_neg hnd] at h2
    omega
  new := h.block_self rfl
  unused := h.free
  kept := h.frame
  logged := by
    have h2 := held_succ n
    rw [if_neg hnd] at h2
    exact h.logged.mono (by omega) fun _ => id

omit hg in
/-- The first block that needs the indirect block `c`. -/
theorem Took.grown_indirect {c : Nat} {ip₁ : Dinode} (h : Took sb d (t i) ndirect c ip₁ d₁)
    (h' : Took sb d₁ ip₁ (slot n) b ip₁ d') (hg₁ : Good sb (update t i ip₁) d₁)
    (hnd : n = ndirect) (hb : b ≠ 0) (hc : ip₁.addrs ndirect = c) (hc0 : c ≠ 0) :
    Grown sb t d i n b ip₁ d' := by
  have hne : ∀ k, ndirect ≠ slot k := fun k => Ne.symm (slot_ne_ndirect k)
  have hold : ∀ k, k ≠ n → Filesys.block d' ip₁ k = Filesys.block d (t i) k := by
    intro k hk
    rw [h'.block_ne fun heq => hk (slot_inj heq).symm, h.block_ne (hne k)]
  have h0 : Filesys.block d₁ ip₁ n = 0 := by
    rw [h.block_ne (hne n)]
    exact hf.block_eq_zero hn
  have hgood := h'.good hg₁ hi (update_self i _ _) h0
  have hunused : ¬ Used sb d b := fun hu => h'.free (h.used_of h'.lt hu)
  have hkept : Frame sb d d' ((t i).addrs ndirect) := by
    intro x hx hnb hu hxi
    rw [h'.frame x hx hnb (h.used_of hx hu) ?_, h.frame x hx hnb hu hxi]
    rw [hc]
    rintro rfl
    exact absurd hu h.free
  exact {
    good := by rwa [update_idem] at hgood
    filled := by
      refine hf.succ hn hold ?_ ?_
      · rwa [h'.block_self rfl]
      · rw [hc, hnd]
        exact iff_of_true hc0 (Nat.lt_succ_self _)
    grows := Nat.le_succ n
    idle := fun h => absurd h (Nat.succ_ne_self n)
    same := h.same
    beyond := h.beyond
    indirect := h.indirect
    blocks := fun k hk => hold k (Nat.ne_of_lt hk)
    used := fun x hx hu => h'.used_of hx (h.used_of hx hu)
    fresh := fun k hk hu => by
      rw [h'.ptr, h.ptr] at hk hu ⊢
      by_cases hks : k = slot n
      · rw [hks, update_self] at hu
        exact absurd hu hunused
      · rw [update_of_ne hks] at hk hu ⊢
        by_cases hkn : k = ndirect
        · rw [hkn, update_self] at hu
          exact absurd hu h.free
        · rw [update_of_ne hkn]
          exact ⟨k, rfl⟩
    frame := fun x hx hnb hu hx' => by
      refine hkept x hx hnb hu fun heq => ?_
      by_contra h0
      rw [← ptr_direct (d := d) (Nat.le_refl ndirect)] at heq
      exact hx' ndirect (heq ▸ h0) heq
    free := by
      have h1 := h.free_succ
      have h2 := h'.free_succ
      have h3 := held_succ n
      rw [if_pos hnd] at h3
      omega
    new := h'.block_self rfl
    unused := hunused
    kept := hkept
    logged := by
      have h3 := held_succ n
      rw [if_pos hnd] at h3
      have hfirst : Logs d d₁ 1 fun x => x = b ∨ (ip₁.addrs ndirect ≠ 0 ∧ x = ip₁.addrs ndirect) := by
        refine h.logged.mono (Nat.le_refl 1) fun x hx => ?_
        rcases hx with rfl | hx
        · exact .inr ⟨hc ▸ hc0, hc.symm⟩
        · exact .inr hx
      exact (hfirst.trans h'.logged).mono (by omega) fun _ => id }

/-- `bmap` adds the next block to a file, if there is room for it. -/
theorem Good.bmap_grown :
    (∃ b ip' d', bmap sb (t i) n d = .ok (b, ip', d') ∧ Grown sb t d i n b ip' d') ∨
      (bmap sb (t i) n d = .error "balloc: out of blocks" ∧
        free sb d + held n < held (n + 1)) := by
  have hz := hf.block_eq_zero hn
  have hsucc := held_succ n
  unfold bmap
  by_cases hdir : n < ndirect
  · have hslot : slot n = n := if_pos hdir
    have h0 : (t i).addrs n = 0 := by rwa [block_direct hdir] at hz
    rw [if_neg (by omega)] at hsucc
    rw [if_pos hdir, if_pos h0]
    rcases balloc_spec sb d with ⟨b, d', hb, ha⟩ | ⟨hb, hall⟩
    · have ht : Took sb d (t i) (slot n) b ((t i).setAddr n b) d' :=
        hslot.symm ▸ hg.took_addr hi ha (Nat.le_of_lt hdir) h0
      refine .inl ⟨b, _, d', by rw [hb]; rfl, ?_⟩
      exact ht.grown hg hi hf hn (Nat.ne_of_lt hdir) (hg.allocated ha).2.1
        (update_of_ne (by omega) _ _)
    · refine .inr ⟨by rw [hb]; rfl, ?_⟩
      have := free_eq_zero.mpr hall
      omega
  · have hlt : n - ndirect < nindirect := by
      unfold maxfile at hn
      omega
    have hle := Nat.le_refl ndirect
    rw [if_neg hdir, if_pos hlt]
    by_cases hnd : n = ndirect
    · have h0 : (t i).addrs ndirect = 0 := by
        by_contra hne
        exact Nat.lt_irrefl n (hnd ▸ hf.indirect.mp hne)
      rw [if_pos hnd] at hsucc
      rw [if_pos h0]
      rcases balloc_spec sb d with ⟨c, d₁, hb, ha⟩ | ⟨hb, hall⟩
      · have ht := hg.took_addr hi ha hle h0
        have hg₁ := ht.good hg hi rfl (by rw [ptr_direct hle, h0])
        have hc : ((t i).setAddr ndirect c).addrs ndirect = c := setAddr_self
        have hc0 := (hg.allocated ha).2.1
        have hfree := ht.free_succ
        have hz₁ : Filesys.block d₁ ((t i).setAddr ndirect c) n = 0 := by
          rw [ht.block_ne (Ne.symm (slot_ne_ndirect n)), hz]
        rw [hb]
        rcases hg₁.bmapEntry_took hi (update_self i _ _) (by rwa [hc]) hdir hn hz₁ with
          ⟨b, d', hb', hb0, ht'⟩ | ⟨hb', hall⟩
        · exact .inl ⟨b, _, d', hb', ht.grown_indirect hi hf hn ht' hg₁ hnd hb0 hc hc0⟩
        · exact .inr ⟨hb', by omega⟩
      · refine .inr ⟨by rw [hb]; rfl, ?_⟩
        have := free_eq_zero.mpr hall
        omega
    · have h0 := hf.indirect.mpr (by omega)
      rw [if_neg hnd] at hsucc
      rw [if_neg h0]
      rcases hg.bmapEntry_took hi rfl h0 hdir hn hz with ⟨b, d', hb, hb0, ht⟩ | ⟨hb, hall⟩
      · exact .inl ⟨b, _, d', hb, ht.grown hg hi hf hn hnd hb0 rfl⟩
      · exact .inr ⟨hb, by omega⟩

end Grow

end Os377.Xv6.Filesys
