import Os377.Lib.Files
import Os377.Xv6.InodeData
import Mathlib.Algebra.BigOperators.Group.Finset.Piecewise
import Mathlib.Algebra.BigOperators.Group.Finset.Sigma
import Mathlib.Data.Finset.Prod

/-!
# The inodes on the disk

Inodes read back from their block as they were stored, each in its own 64 bytes.
`Consistent` is what a file-system checker would test: the bitmap agrees with the
pointers of the inodes, every inode has exactly the blocks that its size needs, and the
free inodes have none.
-/

namespace Os377.Xv6.Filesys

open Os377.Lib Function

/-- The fields fit into their place on the disk. -/
structure Fits (ip : Dinode) : Prop where
  type : ip.type < 2 ^ 16
  major : ip.major < 2 ^ 16
  minor : ip.minor < 2 ^ 16
  nlink : ip.nlink < 2 ^ 16
  size : ip.size < 2 ^ 32
  addrs : ∀ k, ip.addrs k < 2 ^ 32
  beyond : ∀ k, ndirect < k → ip.addrs k = 0

/-- The disk is as a checker wants it. -/
structure Consistent (sb : Superblock) (d : Disk) : Prop where
  good : Good sb (dinode sb d) d
  filled : ∀ i < sb.ninodes, Filled d (dinode sb d i) (blocksFor (dinode sb d i).size)
  unused : ∀ i < sb.ninodes, (dinode sb d i).type = 0 →
    (dinode sb d i).size = 0 ∧ (dinode sb d i).nlink = 0

variable {sb : Superblock} {d d' d₁ : Disk} {ip ip' : Dinode} {t : Nat → Dinode} {m w : Mem}
variable {a i j k n x : Nat}

/-! ## Loading and storing -/

theorem fits_load (m : Mem) (a : Nat) : Fits (loadDinode m a) where
  type := getLe_lt
  major := getLe_lt
  minor := getLe_lt
  nlink := getLe_lt
  size := getLe_lt
  addrs k := by
    show (if k ≤ ndirect then getLe m (a + 12 + 4 * k) 4 else 0) < _
    split
    · exact getLe_lt
    · omega
  beyond k hk := if_neg (by omega)

theorem loadDinode_congr (h : ∀ x, a ≤ x → x < a + 64 → m x = w x) :
    loadDinode m a = loadDinode w a := by
  have hle : ∀ b n, a ≤ b → b + n ≤ a + 64 → getLe m b n = getLe w b n := by
    intro b n h1 h2
    exact getLe_congr fun x h3 h4 => h x (by omega) (by omega)
  unfold loadDinode
  rw [hle a 2 (by omega) (by omega), hle (a + 2) 2 (by omega) (by omega),
    hle (a + 4) 2 (by omega) (by omega), hle (a + 6) 2 (by omega) (by omega),
    hle (a + 8) 4 (by omega) (by omega)]
  congr 1
  funext k
  split
  · next hk => exact hle _ _ (by omega) (by unfold ndirect at hk; omega)
  · rfl

theorem storeAddrs_outside {f : Nat → Nat} (h : x < a ∨ a + 4 * n ≤ x) :
    storeAddrs m a f n x = m x := by
  induction n with
  | zero => rfl
  | succ n ih =>
      rw [storeAddrs, putLe_outside (by omega)]
      exact ih (by omega)

theorem getLe_storeAddrs {f : Nat → Nat} (hf : ∀ k, f k < 2 ^ 32) (hk : k < n) :
    getLe (storeAddrs m a f n) (a + 4 * k) 4 = f k := by
  induction n with
  | zero => exact absurd hk (Nat.not_lt_zero k)
  | succ n ih =>
      rw [storeAddrs]
      by_cases hkn : k = n
      · rw [hkn]
        exact getLe_putLe (hf n)
      · rw [getLe_putLe_of_disjoint (by omega)]
        exact ih (by omega)

theorem getLe_storeAddrs_of_disjoint {f : Nat → Nat} {b c : Nat} (h : b + c ≤ a) :
    getLe (storeAddrs m a f n) b c = getLe m b c := by
  apply getLe_congr
  intro x h1 h2
  exact storeAddrs_outside (by omega)

/-- An inode reads back as it was stored. -/
theorem loadDinode_storeDinode (h : Fits ip) : loadDinode (storeDinode m a ip) a = ip := by
  have hbefore : ∀ b c, b + c ≤ a + 12 →
      getLe (storeDinode m a ip) b c = getLe (putLe (putLe (putLe (putLe (putLe m a 2 ip.type)
        (a + 2) 2 ip.major) (a + 4) 2 ip.minor) (a + 6) 2 ip.nlink) (a + 8) 4 ip.size) b c :=
    fun b c hb => getLe_storeAddrs_of_disjoint hb
  have htype : getLe (storeDinode m a ip) a 2 = ip.type := by
    rw [hbefore _ _ (by omega), getLe_putLe_of_disjoint (by omega),
      getLe_putLe_of_disjoint (by omega), getLe_putLe_of_disjoint (by omega),
      getLe_putLe_of_disjoint (by omega), getLe_putLe h.type]
  have hmajor : getLe (storeDinode m a ip) (a + 2) 2 = ip.major := by
    rw [hbefore _ _ (by omega), getLe_putLe_of_disjoint (by omega),
      getLe_putLe_of_disjoint (by omega), getLe_putLe_of_disjoint (by omega), getLe_putLe h.major]
  have hminor : getLe (storeDinode m a ip) (a + 4) 2 = ip.minor := by
    rw [hbefore _ _ (by omega), getLe_putLe_of_disjoint (by omega),
      getLe_putLe_of_disjoint (by omega), getLe_putLe h.minor]
  have hnlink : getLe (storeDinode m a ip) (a + 6) 2 = ip.nlink := by
    rw [hbefore _ _ (by omega), getLe_putLe_of_disjoint (by omega), getLe_putLe h.nlink]
  have hsize : getLe (storeDinode m a ip) (a + 8) 4 = ip.size := by
    rw [hbefore _ _ (by omega), getLe_putLe h.size]
  have haddrs : (loadDinode (storeDinode m a ip) a).addrs = ip.addrs := by
    funext k
    by_cases hk : k ≤ ndirect
    · show (if k ≤ ndirect then _ else 0) = _
      rw [if_pos hk]
      exact getLe_storeAddrs h.addrs (by omega)
    · show (if k ≤ ndirect then _ else 0) = _
      rw [if_neg hk, h.beyond k (by omega)]
  cases ip
  unfold loadDinode at haddrs ⊢
  rw [htype, hmajor, hminor, hnlink, hsize]
  congr 1

theorem storeDinode_outside (h : x < a ∨ a + 64 ≤ x) : storeDinode m a ip x = m x := by
  unfold storeDinode
  rw [storeAddrs_outside (by unfold ndirect; omega), putLe_outside (by omega),
    putLe_outside (by omega), putLe_outside (by omega), putLe_outside (by omega),
    putLe_outside (by omega)]

/-! ## The table of inodes -/

theorem iblock_lt (hi : i < sb.ninodes) : iblock sb i < sb.bmapstart := by
  have h := sb.inodes_before
  have hle : i / ipb ≤ sb.ninodes / ipb := Nat.div_le_div_right (Nat.le_of_lt hi)
  unfold iblock
  omega

theorem bmapstart_lt (sb : Superblock) : sb.bmapstart < sb.nmeta :=
  Nat.lt_of_le_of_lt (Nat.le_add_right _ _) sb.bitmap_before

/-- The block of an inode comes before the bitmap and the data. -/
theorem iblock_reserved (hi : i < sb.ninodes) :
    iblock sb i < sb.nmeta ∧ iblock sb i < sb.size ∧ ¬ InBitmap sb (iblock sb i) := by
  have h1 := iblock_lt hi
  have h2 := bmapstart_lt sb
  have h3 : sb.nmeta ≤ sb.size := Nat.sub_le _ _
  exact ⟨by omega, by omega, fun h => absurd h.1 (by omega)⟩

theorem ioffset_disjoint (hne : i ≠ j) (h : iblock sb i = iblock sb j) :
    ioffset i + 64 ≤ ioffset j ∨ ioffset j + 64 ≤ ioffset i := by
  unfold iblock ioffset ipb bsize at *
  omega

theorem dinode_congr (h : d'.data (iblock sb i) = d.data (iblock sb i)) :
    dinode sb d' i = dinode sb d i := by
  rw [dinode, dinode, h]

/-- A store into the 64 bytes of one inode leaves the others alone. -/
theorem dinode_logWrite (h : loadDinode m (ioffset i) = ip)
    (hm : ∀ x, x < ioffset i ∨ ioffset i + 64 ≤ x → m x = d.data (iblock sb i) x) :
    dinode sb (d.logWrite (iblock sb i) m) = update (dinode sb d) i ip := by
  funext j
  by_cases hji : j = i
  · rw [hji, update_self, dinode, logWrite_self, h]
  · rw [update_of_ne hji]
    by_cases hb : iblock sb j = iblock sb i
    · rw [dinode, dinode, hb, logWrite_self]
      apply loadDinode_congr
      intro x h1 h2
      have hdis := ioffset_disjoint hji hb
      exact hm x (by omega)
    · exact dinode_congr (logWrite_of_ne hb)

/-- Storing an inode leaves the bitmap and all other blocks alone. -/
theorem used_iblock (hi : i < sb.ninodes) (hx : x < sb.size) :
    Used sb (d.logWrite (iblock sb i) m) x ↔ Used sb d x :=
  used_logWrite hx (iblock_reserved hi).2.2

theorem data_iblock (hi : i < sb.ninodes) (hx : sb.nmeta ≤ x) :
    (d.logWrite (iblock sb i) m).data x = d.data x := by
  have := (iblock_reserved hi).1
  exact logWrite_of_ne (by omega)

theorem Good.ptr_congr (hg : Good sb t d) (hd : ∀ x, sb.nmeta ≤ x → d'.data x = d.data x)
    (hj : j < sb.ninodes) : ptr d' (t j) = ptr d (t j) := by
  apply Filesys.ptr_congr
  intro h0
  apply hd
  rw [← ptr_direct (d := d) (Nat.le_refl ndirect)] at h0 ⊢
  exact hg.ptr_ge hj h0

/-- What matters for `Good` is the bitmap and the blocks behind it. -/
theorem Good.congr {t' : Nat → Dinode} (hg : Good sb t d) (ht : ∀ j < sb.ninodes, t' j = t j)
    (hu : ∀ x < sb.size, Used sb d' x ↔ Used sb d x)
    (hd : ∀ x, sb.nmeta ≤ x → d'.data x = d.data x) : Good sb t' d' := by
  have hp : pointers sb t' d' = pointers sb t d :=
    pointers_congr fun j hj => by rw [ht j hj, hg.ptr_congr hd hj]
  unfold Good
  rw [hp]
  exact hg.placed.congr_used hu

theorem Filled.congr (hf : Filled d ip n) (hp : ptr d' ip' = ptr d ip) : Filled d' ip' n where
  block k hk := by
    rw [Filesys.block, hp]
    exact hf.block k hk
  indirect := by
    rw [← ptr_direct (d := d') (Nat.le_refl ndirect), hp, ptr_direct (Nat.le_refl ndirect)]
    exact hf.indirect
  le := hf.le

theorem held_le (hn : n ≤ maxfile) : held n ≤ maxfile + 1 := by
  unfold held
  split <;> omega

theorem Filled.ptr_ne_iff (hf : Filled d ip n) (k : Nat) : ptr d ip k ≠ 0 ↔ k < held n := by
  have hle := hf.le
  have hmax : ndirect < maxfile := by decide
  unfold held
  -- A direct block, the indirect block, one of its entries, and no pointer at all.
  by_cases h1 : k < ndirect
  · have hb := hf.block k (by omega)
    rw [Filesys.block, slot, if_pos h1] at hb
    rw [hb]
    split <;> omega
  by_cases h2 : k = ndirect
  · rw [h2, ptr_direct (Nat.le_refl _), hf.indirect]
    split <;> omega
  by_cases h3 : k ≤ maxfile
  · have hb := hf.block (k - 1) (by omega)
    have hslot : slot (k - 1) = k := by
      unfold slot
      rw [if_neg (by omega)]
      omega
    rw [Filesys.block, hslot] at hb
    rw [hb]
    split <;> omega
  · have h0 : ptr d ip k = 0 := by
      rw [ptr, if_neg (by omega), if_pos (.inr (by omega))]
    rw [h0]
    split <;> omega

theorem Filled.card_pointers (hf : Filled d ip n) :
    ((Finset.range (maxfile + 1)).filter fun k => ptr d ip k ≠ 0).card = held n := by
  have hle := held_le hf.le
  have hset : (Finset.range (maxfile + 1)).filter (fun k => ptr d ip k ≠ 0)
      = Finset.range (held n) := by
    ext k
    rw [Finset.mem_filter, Finset.mem_range, Finset.mem_range, hf.ptr_ne_iff]
    omega
  rw [hset, Finset.card_range]

/-- An inode without blocks has no pointer. -/
theorem Filled.ptr_zero (hf : Filled d ip 0) (k : Nat) : ptr d ip k = 0 := by
  by_contra hne
  exact Nat.not_lt_zero _ ((hf.ptr_ne_iff k).mp hne)

/-- Every data block is free or the block of an inode. -/
theorem Consistent.free_add_held (hc : Consistent sb d) :
    free sb d + ∑ n ∈ Finset.range sb.ninodes, held (blocksFor (dinode sb d n).size)
      = sb.nblocks := by
  have hplaced : Placed (· ∈ Finset.range sb.size) (· < sb.nmeta) (Used sb d)
      (pointers sb (dinode sb d) d) := by
    simpa only [Finset.mem_range] using hc.good.placed
  -- The marked blocks are those before the data blocks and those with a pointer to them.
  have hused := hplaced.card_used (S := Finset.range sb.ninodes ×ˢ Finset.range (maxfile + 1)) ?_
  · have hmeta : (Finset.range sb.size).filter (· < sb.nmeta) = Finset.range sb.nmeta := by
      ext b
      have hle : sb.nmeta ≤ sb.size := Nat.sub_le _ _
      rw [Finset.mem_filter, Finset.mem_range, Finset.mem_range]
      omega
    have hheld : ((Finset.range sb.ninodes ×ˢ Finset.range (maxfile + 1)).filter
        fun x => pointers sb (dinode sb d) d x ≠ 0).card
        = ∑ n ∈ Finset.range sb.ninodes, held (blocksFor (dinode sb d n).size) := by
      rw [Finset.card_filter, Finset.sum_product]
      apply Finset.sum_congr rfl
      intro n hn
      have hn := Finset.mem_range.mp hn
      rw [← (hc.filled n hn).card_pointers, Finset.card_filter]
      apply Finset.sum_congr rfl
      intro k _
      rw [pointers_lt hn]
    have htotal := Finset.card_filter_add_card_filter_not (s := Finset.range sb.size) (Used sb d)
    have hdata : 0 < sb.size - sb.nblocks := Nat.lt_of_le_of_lt (Nat.zero_le _) sb.bitmap_before
    rw [hmeta, Finset.card_range, hheld] at hused
    rw [Finset.card_range] at htotal
    unfold Superblock.nmeta at hused
    unfold free
    omega
  · rintro ⟨n, k⟩ hne
    unfold pointers at hne
    dsimp only at hne
    split at hne
    · next hn =>
        have hk := ((hc.filled n hn).ptr_ne_iff k).mp hne
        have hle := held_le (hc.filled n hn).le
        rw [Finset.mem_product, Finset.mem_range, Finset.mem_range]
        exact ⟨hn, by omega⟩
    · exact absurd rfl hne

/-! ## Files -/

/-- The bytes of the inode `n`. -/
def content (sb : Superblock) (d : Disk) (n : Nat) : List UInt8 :=
  (List.range (dinode sb d n).size).map (byteAt d (dinode sb d n))

/-- `type`, `major` and `minor` of an inode. -/
abbrev Info := Nat × Nat × Nat

def Dinode.info (ip : Dinode) : Info := (ip.type, ip.major, ip.minor)

theorem type_eq_of_info {info : Info} (h : ip.info = info) : ip.type = info.1 :=
  congrArg Prod.fst h

/-- The file of the inode `n`, if it is in use. -/
def files (sb : Superblock) (d : Disk) (n : Nat) : Option (Lib.File Info UInt8) :=
  let ip := dinode sb d n
  if n < sb.ninodes ∧ ip.type ≠ 0 then some ⟨ip.info, ip.nlink, content sb d n⟩ else none

theorem files_none (hj : ¬ j < sb.ninodes) : files sb d j = none := if_neg fun h => hj h.1

theorem Consistent.block_ne (hc : Consistent sb d) (hj : j < sb.ninodes)
    (hx : x < (dinode sb d j).size) : block d (dinode sb d j) (x / bsize) ≠ 0 := by
  have hf := hc.filled j hj
  have hlt : x / bsize < blocksFor (dinode sb d j).size := by
    unfold blocksFor bsize
    omega
  exact (hf.block _ (Nat.lt_of_lt_of_le hlt hf.le)).mpr hlt

theorem byteAt_congr (hp : ptr d' ip' = ptr d ip)
    (hd : d'.data (block d ip (x / bsize)) = d.data (block d ip (x / bsize))) :
    byteAt d' ip' x = byteAt d ip x := by
  have hb : block d' ip' = block d ip := by
    funext k
    rw [block, hp]
    rfl
  rw [byteAt, hb, hd, byteAt]

/-- A file keeps its bytes while its blocks do. -/
theorem Consistent.content_congr (hc : Consistent sb d) (hj : j < sb.ninodes)
    (hsize : (dinode sb d' j).size = (dinode sb d j).size)
    (hp : ptr d' (dinode sb d' j) = ptr d (dinode sb d j))
    (hdata : ∀ k, ptr d (dinode sb d j) k ≠ 0 →
      d'.data (ptr d (dinode sb d j) k) = d.data (ptr d (dinode sb d j) k)) :
    content sb d' j = content sb d j := by
  unfold content
  rw [hsize]
  apply List.map_congr_left
  intro x hx
  exact byteAt_congr hp (hdata _ (hc.block_ne hj (List.mem_range.mp hx)))

/-- The inode `i` is now `ip'`, and nothing of the other files has changed. -/
structure Stored (sb : Superblock) (d : Disk) (i : Nat) (ip' : Dinode) (d' : Disk) : Prop where
  consistent : Consistent sb d'
  dinode : ∀ j < sb.ninodes, dinode sb d' j = update (dinode sb d) i ip' j
  files : ∀ j, j ≠ i → files sb d' j = files sb d j

theorem Stored.trans (h : Stored sb d i ip d₁) (h' : Stored sb d₁ i ip' d') :
    Stored sb d i ip' d' where
  consistent := h'.consistent
  dinode j hj := by
    rw [h'.dinode j hj]
    by_cases hji : j = i
    · rw [hji, update_self, update_self]
    · rw [update_of_ne hji, update_of_ne hji, h.dinode j hj, update_of_ne hji]
  files j hj := (h'.files j hj).trans (h.files j hj)

theorem Stored.self (h : Stored sb d i ip' d') (hi : i < sb.ninodes) :
    Filesys.dinode sb d' i = ip' := by
  rw [h.dinode i hi, update_self]

/-- The disk after the inode `i` and its blocks have changed. -/
theorem Consistent.stored (hc : Consistent sb d)
    (hg : Good sb (update (dinode sb d) i ip') d')
    (hdin : ∀ j < sb.ninodes, dinode sb d' j = update (dinode sb d) i ip' j)
    (hown : ∀ j < sb.ninodes, j ≠ i → ∀ k, ptr d (dinode sb d j) k ≠ 0 →
      d'.data (ptr d (dinode sb d j) k) = d.data (ptr d (dinode sb d j) k))
    (hf : Filled d' ip' (blocksFor ip'.size))
    (hu : ip'.type = 0 → ip'.size = 0 ∧ ip'.nlink = 0) : Stored sb d i ip' d' := by
  have hptr : ∀ j < sb.ninodes, j ≠ i → ptr d' (dinode sb d j) = ptr d (dinode sb d j) := by
    intro j hj hji
    apply ptr_congr
    intro h0
    rw [← ptr_direct (d := d) (Nat.le_refl ndirect)] at h0 ⊢
    exact hown j hj hji ndirect h0
  refine ⟨⟨hg.congr hdin (fun _ _ => Iff.rfl) fun _ _ => rfl, fun j hj => ?_, fun j hj => ?_⟩,
    hdin, fun j hji => ?_⟩
  · rw [hdin j hj]
    by_cases hji : j = i
    · rw [hji, update_self]
      exact hf
    · rw [update_of_ne hji]
      exact (hc.filled j hj).congr (hptr j hj hji)
  · rw [hdin j hj]
    by_cases hji : j = i
    · rw [hji, update_self]
      exact hu
    · rw [update_of_ne hji]
      exact hc.unused j hj
  · by_cases hj : j < sb.ninodes
    · have hsame : dinode sb d' j = dinode sb d j := by rw [hdin j hj, update_of_ne hji]
      unfold Filesys.files
      rw [hc.content_congr hj (by rw [hsame]) (by rw [hsame, hptr j hj hji]) (hown j hj hji), hsame]
    · rw [files_none hj, files_none hj]

/-- Storing the inode `i` in its place, after its blocks have changed. -/
theorem Consistent.stored_iblock (hc : Consistent sb d) (hi : i < sb.ninodes)
    (hg : Good sb (update (dinode sb d) i ip') d₁)
    (hd : ∀ j < sb.ninodes, d₁.data (iblock sb j) = d.data (iblock sb j))
    (hown : ∀ j < sb.ninodes, j ≠ i → ∀ k, ptr d (dinode sb d j) k ≠ 0 →
      d₁.data (ptr d (dinode sb d j) k) = d.data (ptr d (dinode sb d j) k))
    (hload : loadDinode m (ioffset i) = ip')
    (hm : ∀ x, x < ioffset i ∨ ioffset i + 64 ≤ x → m x = d₁.data (iblock sb i) x)
    (hf : Filled d₁ ip' (blocksFor ip'.size))
    (hu : ip'.type = 0 → ip'.size = 0 ∧ ip'.nlink = 0) :
    Stored sb d i ip' (d₁.logWrite (iblock sb i) m) := by
  have hptr : ptr (d₁.logWrite (iblock sb i) m) ip' = ptr d₁ ip' := by
    have hp := hg.ptr_congr (fun x hx => data_iblock (m := m) hi hx) hi
    rwa [update_self] at hp
  refine hc.stored (hg.congr (fun _ _ => rfl) (fun x hx => used_iblock hi hx)
    fun x hx => data_iblock hi hx) (fun j hj => ?_) (fun j hj hji k hk => ?_) (hf.congr hptr) hu
  · rw [dinode_logWrite hload hm]
    by_cases hji : j = i
    · rw [hji, update_self, update_self]
    · rw [update_of_ne hji, update_of_ne hji, dinode_congr (hd j hj)]
  · rw [data_iblock hi (hc.good.ptr_ge hj hk), hown j hj hji k hk]

/-- Storing an inode that keeps its blocks. -/
theorem Consistent.stored_same (hc : Consistent sb d) (hi : i < sb.ninodes)
    (hp : ptr d ip' = ptr d (dinode sb d i)) (hsize : ip'.size = (dinode sb d i).size)
    (hload : loadDinode m (ioffset i) = ip')
    (hm : ∀ x, x < ioffset i ∨ ioffset i + 64 ≤ x → m x = d.data (iblock sb i) x)
    (hu : ip'.type = 0 → ip'.size = 0 ∧ ip'.nlink = 0) :
    Stored sb d i ip' (d.logWrite (iblock sb i) m) ∧
      content sb (d.logWrite (iblock sb i) m) i = content sb d i := by
  have hst : Stored sb d i ip' (d.logWrite (iblock sb i) m) := by
    refine hc.stored_iblock hi ?_ (fun _ _ => rfl) (fun _ _ _ _ _ => rfl) hload hm ?_ hu
    · unfold Good
      rw [pointers_congr (d := d) (t := dinode sb d)]
      · exact hc.good.placed
      · intro j hj
        by_cases hji : j = i
        · rw [hji, update_self, hp]
        · rw [update_of_ne hji]
    · rw [hsize]
      exact (hc.filled i hi).congr hp
  refine ⟨hst, hc.content_congr hi (by rw [hst.self hi, hsize]) ?_ fun k hk =>
    data_iblock hi (hc.good.ptr_ge hi hk)⟩
  rw [hst.self hi, ← hp]
  have hkeep : ptr d _ = _ :=
    hst.consistent.good.ptr_congr (fun x hx => (data_iblock hi hx).symm) hi
  rw [hst.self hi] at hkeep
  exact hkeep.symm

end Os377.Xv6.Filesys
