import Os377.Xv6.InodeTable

/-!
# Reading, writing and freeing inodes on a consistent disk

What `readi`, `writei`, `itrunc` and `ialloc` do to the inode they are called for, and
that they leave all other files as they are. A write needs as many free blocks as the
inode grows by, and it fails exactly when there are fewer.
-/

namespace Os377.Xv6.Filesys

open Os377.Lib Function

variable {sb : Superblock} {d d' d₁ : Disk} {ip ip' : Dinode}
variable {t : Nat → Dinode} {a i j k m n x type off : Nat} {src : List UInt8}

theorem Stored.refl (hc : Consistent sb d) (n : Nat) : Stored sb d n (Filesys.dinode sb d n) d where
  consistent := hc
  dinode j _ := by rw [update_eq_self]
  files _ _ := rfl

theorem Stored.files_eq (hst : Stored sb d i ip' d') (hi : i < sb.ninodes) (ht : ip'.type ≠ 0) :
    Filesys.files sb d' = update (Filesys.files sb d) i (some ⟨ip'.info, ip'.nlink, content sb d' i⟩) := by
  funext j
  by_cases hji : j = i
  · subst hji
    rw [update_self]
    unfold Filesys.files
    rw [hst.self hi]
    exact if_pos ⟨hi, ht⟩
  · rw [update_of_ne hji, hst.files j hji]

theorem Stored.files_gone (hst : Stored sb d i ip' d') (hi : i < sb.ninodes) (ht : ip'.type = 0) :
    Filesys.files sb d' = update (Filesys.files sb d) i none := by
  funext j
  by_cases hji : j = i
  · subst hji
    rw [update_self]
    unfold Filesys.files
    rw [hst.self hi]
    exact if_neg fun h => h.2 ht
  · rw [update_of_ne hji, hst.files j hji]

/-! ## Reading -/

/-- What a read of an inode with these fields and these bytes returns. -/
def readAnswer (devsw : Nat → Device) (ip : Dinode) (bytes : List UInt8) (off n : Nat) :
    Int × List UInt8 :=
  if ip.type = tDev then
    if ndev ≤ ip.major then (-1, [])
    else match (devsw ip.major).read with
      | none => (-1, [])
      | some read => read n
  else if bytes.length < off ∨ 2 ^ 32 ≤ off + n then (-1, [])
  else ((min n (bytes.length - off) : Nat), (bytes.drop off).take n)

theorem length_content : (content sb d n).length = (dinode sb d n).size := by
  rw [content, List.length_map, List.length_range]

theorem readi_spec {devsw : Nat → Device} {len : Nat} (hc : Consistent sb d) (hn : n < sb.ninodes)
    (hoff : off < 2 ^ 32) (hlen : len < 2 ^ 32) :
    readi sb devsw (dinode sb d n) off len d
      = .ok (readAnswer devsw (dinode sb d n) (content sb d n) off len, dinode sb d n, d) := by
  unfold readi readAnswer
  rw [length_content]
  by_cases hdev : (dinode sb d n).type = tDev
  · rw [if_pos hdev, if_pos hdev]
    by_cases hmaj : ndev ≤ (dinode sb d n).major
    · rw [if_pos (.inr hmaj), if_pos hmaj]
    · rw [if_neg (by unfold ndev at *; omega), if_neg hmaj]
      cases (devsw (dinode sb d n).major).read <;> rfl
  · rw [if_neg hdev, if_neg hdev]
    by_cases hbad : (dinode sb d n).size < off ∨ 2 ^ 32 ≤ off + len
    · rw [if_pos (by omega), if_pos hbad]
    · have hmod : (off + len) % 2 ^ 32 = off + len := Nat.mod_eq_of_lt (by omega)
      have hclip : (if (dinode sb d n).size < off + len then (dinode sb d n).size - off else len)
          = min len ((dinode sb d n).size - off) := by
        split <;> omega
      have hroom : off + min len ((dinode sb d n).size - off)
          ≤ bsize * blocksFor (dinode sb d n).size := by
        unfold blocksFor bsize
        omega
      rw [hmod, if_neg (by omega), if_neg hbad, hclip]
      dsimp only
      rw [readLoop_spec (hc.filled n hn) (Nat.le_refl _) hroom, ok_bind]
      dsimp only
      congr 3
      apply List.ext_getElem
      · rw [List.length_map, List.length_range, List.length_take, List.length_drop, length_content]
      · intro k hk hk'
        rw [List.getElem_map, List.getElem_range, List.getElem_take, List.getElem_drop]
        simp only [content, List.getElem_map, List.getElem_range]

/-! ## Writing -/

/-- A write at `off` that the inode takes. -/
def Fitting (size off len : Nat) : Prop := off ≤ size ∧ off + len ≤ maxfile * bsize

/-- The end of such a write does not wrap around. -/
theorem Fitting.lt {size len : Nat} (h : Fitting size off len) : off + len < 2 ^ 32 :=
  Nat.lt_of_le_of_lt h.2 (by decide)

/-- The blocks of the inode after writing up to `off + len`. -/
def grownTo (size off len : Nat) : Nat := max (blocksFor size) (blocksFor (off + len))

/-- The blocks that a write logs at most: those that get its bytes, a block of the bitmap
for each new block, the indirect block and the block of the inode. -/
def writeCost (size off len : Nat) : Nat :=
  held (grownTo size off len) - held (blocksFor size) + (blocksFor (off + len) - off / bsize) + 2

/-- What a write to a device returns. -/
def deviceWrite (devsw : Nat → Device) (ip : Dinode) (src : List UInt8) : Int :=
  if ndev ≤ ip.major then -1
  else match (devsw ip.major).write with
    | none => -1
    | some write => write src

theorem writei_device {devsw : Nat → Device} (hdev : ip.type = tDev) :
    writei sb devsw n ip src off d = .ok (deviceWrite devsw ip src, ip, d) := by
  unfold writei deviceWrite
  dsimp only
  rw [if_pos hdev]
  by_cases hmaj : ndev ≤ ip.major
  · rw [if_pos (.inr hmaj), if_pos hmaj]
  · rw [if_neg (by unfold ndev at *; omega), if_neg hmaj]
    cases (devsw ip.major).write <;> rfl

theorem writei_refused {devsw : Nat → Device} (hdev : ip.type ≠ tDev) (hoff : off < 2 ^ 32)
    (hlen : src.length < 2 ^ 32) (hbad : ¬ Fitting ip.size off src.length) :
    writei sb devsw n ip src off d = .ok (-1, ip, d) := by
  unfold writei Fitting at *
  dsimp only
  rw [if_neg hdev]
  split
  · rfl
  · next h1 => exact if_pos (by omega)

/-- What a write does to the disk, when there is room. -/
structure Overwritten (sb : Superblock) (d : Disk) (n off : Nat) (src : List UInt8) (ip' : Dinode)
    (d' : Disk) : Prop where
  stored : Stored sb d n ip' d'
  info : ip'.info = (dinode sb d n).info
  nlink : ip'.nlink = (dinode sb d n).nlink
  content : content sb d' n = overwrite (content sb d n) off src
  free : free sb d' + held (grownTo (dinode sb d n).size off src.length)
    = free sb d + held (blocksFor (dinode sb d n).size)
  logged : Logs d d' (writeCost (dinode sb d n).size off src.length) fun _ => False

section Write

variable (hc : Consistent sb d) (hn : n < sb.ninodes)
include hc hn

/-- The inode blocks and the blocks of the other inodes are not touched. -/
theorem Consistent.frame {n' : Nat} (h : Extended sb (dinode sb d) d n k ip' d' n') :
    (∀ j < sb.ninodes, d'.data (iblock sb j) = d.data (iblock sb j)) ∧
      ∀ j < sb.ninodes, j ≠ n → ∀ k, ptr d (dinode sb d j) k ≠ 0 →
        d'.data (ptr d (dinode sb d j) k) = d.data (ptr d (dinode sb d j) k) := by
  constructor
  · intro j hj
    obtain ⟨h1, h2, h3⟩ := iblock_reserved hj
    refine h.frame _ h2 h3 (hc.good.placed.used_of_reserved h2 h1) fun k hk heq => ?_
    have := hc.good.ptr_ge hn hk
    omega
  · intro j hj hjn k hk
    refine h.frame _ (hc.good.ptr_lt hj hk) (not_inBitmap (hc.good.ptr_ge hj hk))
      (hc.good.ptr_used hj hk) fun k' _ heq => ?_
    exact hjn (hc.good.ptr_inj hj hn heq hk).1

omit hc hn in
/-- The bytes of the inode after the loop of `writei`. -/
theorem Wrote.bytes {n' : Nat}
    (hw : Wrote sb (dinode sb d) d n (blocksFor (dinode sb d n).size) off src ip' d' n')
    (hoff : off ≤ (dinode sb d n).size) :
    (List.range (max (dinode sb d n).size (off + src.length))).map (byteAt d' ip')
      = overwrite (content sb d n) off src := by
  refine map_range_overwrite hoff (fun x h1 h2 => ?_) fun x hx hout => ?_
  · rw [hw.stored x h1 (by omega), List.getD_eq_getElem?_getD, List.getElem?_eq_getElem h2,
      Option.getD_some]
  · refine hw.rest x ?_ hout
    unfold blocksFor bsize
    omega

omit hc hn in
/-- What the loop of `writei` logs; `iupdate` logs one more block. -/
theorem Wrote.cost {n' : Nat} (hw : Wrote sb t d n k off src ip' d' n') :
    Logs d d' (held n' - held k + (blocksFor (off + src.length) - off / bsize) + 1)
      fun _ => False := by
  have hall := hw.logged.all (ip'.addrs ndirect ::
    (List.range' (off / bsize) (blocksFor (off + src.length) - off / bsize)).map (block d' ip')) ?_
  · rw [List.length_cons, List.length_map, List.length_range'] at hall
    exact hall.mono (by omega) fun _ => id
  · rintro x (⟨k, h1, h2, rfl⟩ | ⟨-, rfl⟩)
    · exact List.mem_cons_of_mem _ (List.mem_map_of_mem (List.mem_range'_1.mpr (by omega)))
    · exact List.mem_cons_self

/-- `writei` leaves the size alone: no block is new, and the disk has the inode as it is. -/
theorem Consistent.overwritten_inside
    (hw : Wrote sb (dinode sb d) d n (blocksFor (dinode sb d n).size) off src ip' d'
      (grownTo (dinode sb d n).size off src.length))
    (hoff : off ≤ (dinode sb d n).size)
    (hin : ¬ (0 < src.length ∧ (dinode sb d n).size < off + src.length)) :
    ip' = dinode sb d n ∧ Overwritten sb d n off src (dinode sb d n) d' := by
  obtain ⟨hinodes, hothers⟩ := hc.frame hn hw.toExtended
  have hbytes := hw.bytes hoff
  have hmax : max (dinode sb d n).size (off + src.length) = (dinode sb d n).size := by omega
  have hidle : grownTo (dinode sb d n).size off src.length = blocksFor (dinode sb d n).size := by
    unfold grownTo blocksFor bsize
    omega
  have hip := hw.idle hidle
  have hgood := hw.good
  have hfilled := hw.filled
  rw [hip] at hgood hbytes hfilled
  rw [hidle] at hfilled
  rw [hmax] at hbytes
  have hst : Stored sb d n (dinode sb d n) d' :=
    hc.stored hgood (fun j hj => by rw [update_eq_self, dinode_congr (hinodes j hj)]) hothers
      hfilled (hc.unused n hn)
  refine ⟨hip, hst, rfl, rfl, ?_, hw.free, hw.cost.mono (Nat.le_succ _) fun _ => id⟩
  rw [← hbytes, Filesys.content, hst.self hn]

omit hc in
/-- The fields of an inode that has got blocks fit. -/
theorem Extended.fits {n' size : Nat} (h : Extended sb (dinode sb d) d n k ip' d' n')
    (hsize : size < 2 ^ 32) : Fits { ip' with size := size } := by
  have hfits : Fits (dinode sb d n) := fits_load _ _
  have hlt : ∀ m, ptr d' ip' m ≠ 0 → ptr d' ip' m < sb.size := by
    intro m hm
    have := h.good.ptr_lt (i := n) (k := m) hn
    rw [update_self] at this
    exact this hm
  rw [h.same]
  refine ⟨hfits.type, hfits.major, hfits.minor, hfits.nlink, hsize, fun m => ?_, fun m hm => ?_⟩
  · show ip'.addrs m < 2 ^ 32
    by_cases hm : m ≤ ndirect
    · have hm' := hlt m
      rw [ptr_direct hm] at hm'
      have := sb.size_lt
      by_cases h0 : ip'.addrs m = 0
      · omega
      · exact Nat.lt_trans (hm' h0) this
    · rw [h.beyond m (by omega)]
      exact hfits.addrs m
  · show ip'.addrs m = 0
    rw [h.beyond m hm]
    exact hfits.beyond m hm

/-- `writei` has made the inode larger, and calls `iupdate`. -/
theorem Consistent.overwritten_grown
    (hw : Wrote sb (dinode sb d) d n (blocksFor (dinode sb d n).size) off src ip' d'
      (grownTo (dinode sb d n).size off src.length))
    (hoff : off ≤ (dinode sb d n).size) (hmax : off + src.length ≤ maxfile * bsize)
    (hout : (dinode sb d n).size < off + src.length) (ht : (dinode sb d n).type ≠ 0) :
    Overwritten sb d n off src { ip' with size := off + src.length }
      (iupdate sb d' n { ip' with size := off + src.length }) := by
  obtain ⟨hinodes, hothers⟩ := hc.frame hn hw.toExtended
  have hbytes := hw.bytes hoff
  have hbig : maxfile * bsize < 2 ^ 32 := by decide
  have hgrown : grownTo (dinode sb d n).size off src.length = blocksFor (off + src.length) := by
    unfold grownTo blocksFor bsize
    omega
  have hlarger : max (dinode sb d n).size (off + src.length) = off + src.length := by omega
  have hptr : ptr d' { ip' with size := off + src.length } = ptr d' ip' := rfl
  have hgood : Good sb (update (dinode sb d) n { ip' with size := off + src.length }) d' := by
    unfold Good
    rw [pointers_congr (d := d') (t := update (dinode sb d) n ip')]
    · exact hw.good.placed
    · intro j _
      by_cases hjn : j = n
      · rw [hjn, update_self, update_self, hptr]
      · rw [update_of_ne hjn, update_of_ne hjn]
  have hfilled := hw.filled
  rw [hgrown] at hfilled
  have hst : Stored sb d n { ip' with size := off + src.length }
      (iupdate sb d' n { ip' with size := off + src.length }) := by
    refine hc.stored_iblock hn hgood hinodes hothers
      (loadDinode_storeDinode (hw.toExtended.fits hn (by omega)))
      (fun x hx => storeDinode_outside hx) (hfilled.congr hptr) fun h0 => absurd h0 ?_
    show ip'.type ≠ 0
    rw [hw.same]
    exact ht
  refine ⟨hst, ?_, ?_, ?_, ?_, hw.cost.logWrite_new _ _⟩
  · show ip'.info = _
    rw [hw.same]
    rfl
  · show ip'.nlink = _
    rw [hw.same]
  · rw [hlarger] at hbytes
    rw [← hbytes, Filesys.content, hst.self hn]
    apply List.map_congr_left
    intro x hx
    have hx : x < off + src.length := List.mem_range.mp hx
    have hne : block d' ip' (x / bsize) ≠ 0 := by
      have hlt : x / bsize < blocksFor (off + src.length) := by
        unfold blocksFor bsize
        omega
      exact (hfilled.block _ (Nat.lt_of_lt_of_le hlt hfilled.le)).mpr hlt
    have hge : ∀ m, ptr d' ip' m ≠ 0 → sb.nmeta ≤ ptr d' ip' m := by
      intro m hm
      have := hw.good.ptr_ge (i := n) (k := m) hn
      rw [update_self] at this
      exact this hm
    refine byteAt_congr (ptr_congr fun h0 => ?_) (data_iblock hn (hge _ hne))
    apply data_iblock hn
    rw [← ptr_direct (d := d') (Nat.le_refl ndirect)] at h0 ⊢
    exact hge ndirect h0
  · rw [← hw.free]
    congr 1
    exact free_congr fun x hx => used_iblock hn hx

theorem writei_spec (devsw : Nat → Device) (hdev : (dinode sb d n).type ≠ tDev)
    (hfit : Fitting (dinode sb d n).size off src.length) (ht : (dinode sb d n).type ≠ 0) :
    (∃ ip' d', writei sb devsw n (dinode sb d n) src off d = .ok (src.length, ip', d') ∧
      Overwritten sb d n off src ip' d') ∨
      (writei sb devsw n (dinode sb d n) src off d = .error "balloc: out of blocks" ∧
        free sb d + held (blocksFor (dinode sb d n).size)
          < held (grownTo (dinode sb d n).size off src.length)) := by
  have hmod : (off + src.length) % 2 ^ 32 = off + src.length := Nat.mod_eq_of_lt hfit.lt
  obtain ⟨hoff, hmax⟩ := hfit
  have hblocks : off ≤ bsize * blocksFor (dinode sb d n).size := by
    unfold blocksFor bsize
    omega
  unfold writei
  dsimp only
  rw [if_neg hdev, hmod, if_neg (by omega), if_neg (by omega)]
  rcases hc.good.writeLoop_wrote hn (hc.filled n hn) (Nat.le_refl src.length) hblocks hmax with
    ⟨ip', d', hrun, hw⟩ | ⟨hrun, hroom⟩
  · rw [hrun, ok_bind]
    dsimp only
    have hsize : ip'.size = (dinode sb d n).size := by rw [hw.same]
    rw [hsize]
    by_cases hgrow : 0 < src.length ∧ (dinode sb d n).size < off + src.length
    · rw [if_pos hgrow]
      exact .inl ⟨_, _, rfl, hc.overwritten_grown hn hw hoff hmax hgrow.2 ht⟩
    · rw [if_neg hgrow]
      obtain ⟨hip, hover⟩ := hc.overwritten_inside hn hw hoff hgrow
      exact .inl ⟨_, _, by rw [hip], hover⟩
  · exact .inr ⟨by rw [hrun]; rfl, hroom⟩

end Write

/-! ## Freeing and allocating -/

/-- Truncating an inode and clearing its type. -/
theorem Consistent.freed (hc : Consistent sb d) (hn : n < sb.ninodes)
    (ht : (dinode sb d n).type ≠ 0) (hl : (dinode sb d n).nlink = 0) :
    ∃ d₁, itrunc sb n (dinode sb d n) d = .ok (emptied (dinode sb d n), d₁) ∧
      Stored sb d n { emptied (dinode sb d n) with type := 0 }
        (iupdate sb d₁ n { emptied (dinode sb d n) with type := 0 }) ∧
      Logs d (iupdate sb d₁ n { emptied (dinode sb d n) with type := 0 })
        (sb.nmeta - sb.bmapstart + 1) fun _ => False := by
  obtain ⟨d₁, hrun, hfreed, hgood⟩ := hc.good.itrunc_freed hn (hc.filled n hn)
  have hfits : Fits (dinode sb d n) := fits_load _ _
  have hempty : Fits (emptied (dinode sb d n)) := by
    refine ⟨hfits.type, hfits.major, hfits.minor, hfits.nlink, Nat.two_pow_pos 32,
      fun k => ?_, fun k hk => ?_⟩
    · show (if k ≤ ndirect then 0 else (dinode sb d n).addrs k) < _
      split
      · omega
      · exact hfits.addrs k
    · show (if k ≤ ndirect then 0 else (dinode sb d n).addrs k) = 0
      rw [if_neg (by omega)]
      exact hfits.beyond k hk
  have hst : Stored sb d n (emptied (dinode sb d n))
      (iupdate sb d₁ n (emptied (dinode sb d n))) := by
    refine hc.stored_iblock hn hgood (fun j hj => hfreed.data _ (iblock_reserved hj).2.2)
      (fun j hj _ k hk => hfreed.data _ (not_inBitmap (hc.good.ptr_ge hj hk)))
      (loadDinode_storeDinode hempty) (fun x hx => storeDinode_outside hx) ?_
      fun h0 => absurd h0 ht
    have hnone : blocksFor 0 = 0 := by
      unfold blocksFor bsize
      rfl
    show Filled d₁ _ (blocksFor 0)
    rw [hnone]
    exact .emptied
  have hcleared : Fits { emptied (dinode sb d n) with type := 0 } :=
    ⟨Nat.two_pow_pos 16, hempty.major, hempty.minor, hempty.nlink, hempty.size, hempty.addrs,
      hempty.beyond⟩
  have hlogs : Logs d (iupdate sb (iupdate sb d₁ n (emptied (dinode sb d n))) n
      { emptied (dinode sb d n) with type := 0 }) (sb.nmeta - sb.bmapstart + 1) fun _ => False :=
    (((hfreed.logs (· = iblock sb n)).logWrite rfl _).logWrite rfl _).all [iblock sb n]
      fun x hx => List.mem_singleton.mpr hx
  refine ⟨_, hrun, hst.trans ?_, hlogs⟩
  have hself := hst.self hn
  refine (hst.consistent.stored_same hn ?_ ?_ (loadDinode_storeDinode hcleared)
    (fun x hx => storeDinode_outside hx) fun _ => ⟨rfl, hl⟩).1
  · rw [hself]
    rfl
  · rw [hself]

/-- The fields of an inode that `ialloc` returns. -/
def freshDinode (type : Nat) : Dinode :=
  { type := type, major := 0, minor := 0, nlink := 0, size := 0, addrs := fun _ => 0 }

theorem loadDinode_fresh {m : Mem} (ht : type < 2 ^ 16) :
    loadDinode (putLe (splice m a 64 fun _ => 0) a 2 type) a = freshDinode type := by
  have hzero : ∀ b c, a + 2 ≤ b → b + c ≤ a + 64 →
      getLe (putLe (splice m a 64 fun _ => 0) a 2 type) b c = 0 := by
    intro b c h1 h2
    rw [getLe_putLe_of_disjoint (by omega)]
    have hcongr : getLe (splice m a 64 fun _ => 0) b c = getLe (fun _ => 0) b c :=
      getLe_congr fun x h3 h4 => splice_inside (by omega) (by omega)
    rw [hcongr, getLe_zero]
  have haddrs : (loadDinode (putLe (splice m a 64 fun _ => 0) a 2 type) a).addrs = fun _ => 0 := by
    funext k
    show (if k ≤ ndirect then _ else 0) = 0
    split
    · next hk => exact hzero _ _ (by omega) (by unfold ndirect at hk; omega)
    · rfl
  unfold loadDinode at haddrs ⊢
  rw [getLe_putLe ht, hzero _ _ (by omega) (by omega), hzero _ _ (by omega) (by omega),
    hzero _ _ (by omega) (by omega), hzero _ _ (by omega) (by omega)]
  unfold freshDinode
  congr 1

theorem ptr_fresh (k : Nat) : ptr d (freshDinode type) k = 0 := by
  by_cases hk : k ≤ ndirect
  · rw [ptr_direct hk]
    rfl
  · exact ptr_none rfl (by omega)

/-- The disk after `ialloc` has marked the inode `n`. -/
theorem Consistent.fresh (hc : Consistent sb d) (hn : n < sb.ninodes)
    (h0 : (dinode sb d n).type = 0) (ht : type < 2 ^ 16) (ht0 : type ≠ 0) :
    Stored sb d n (freshDinode type) (d.logWrite (iblock sb n)
      (putLe (splice (d.data (iblock sb n)) (ioffset n) 64 fun _ => 0) (ioffset n) 2 type)) := by
  have hsize := (hc.unused n hn h0).1
  have hfilled := hc.filled n hn
  rw [hsize] at hfilled
  refine (hc.stored_same hn ?_ hsize.symm (loadDinode_fresh ht) (fun x hx => ?_)
    fun hz => absurd hz ht0).1
  · funext k
    rw [ptr_fresh, hfilled.ptr_zero k]
  · rw [putLe_outside (by omega), splice_outside hx]

theorem loadDinode_zero {m : Mem} (hm : ∀ x, m x = 0) (a : Nat) :
    loadDinode m a = freshDinode 0 := by
  obtain rfl : m = fun _ => 0 := funext hm
  unfold loadDinode freshDinode
  simp only [getLe_zero, ite_self]

/-- A disk of zeroes with the bits of what comes before the data blocks is consistent. -/
theorem Consistent.blank (hzero : ∀ n < sb.ninodes, ∀ x, d.data (iblock sb n) x = 0)
    (hbits : ∀ b < sb.size, Used sb d b ↔ b < sb.nmeta) : Consistent sb d := by
  have hdinode : ∀ n < sb.ninodes, dinode sb d n = freshDinode 0 :=
    fun n hn => loadDinode_zero (hzero n hn) _
  have hnone : ∀ x, pointers sb (dinode sb d) d x = 0 := by
    rintro ⟨n, k⟩
    unfold pointers
    split
    · next hn => rw [hdinode n hn, ptr_fresh]
    · rfl
  refine ⟨⟨?_, fun x hx => absurd (hnone x) hx, fun b hb => ?_, fun x _ _ hx => absurd (hnone x) hx⟩,
    fun n hn => ?_, fun n hn _ => ?_⟩
  · exact Nat.lt_of_le_of_lt (Nat.zero_le _) sb.bitmap_before
  · rw [hbits b hb]
    constructor
    · exact .inl
    · rintro (hlt | ⟨x, rfl⟩)
      · exact hlt
      · rw [hnone]
        exact Nat.lt_of_le_of_lt (Nat.zero_le _) sb.bitmap_before
  · rw [hdinode n hn]
    refine ⟨fun k _ => ?_, ?_, Nat.zero_le _⟩
    · rw [block, ptr_fresh]
      exact iff_of_false (fun h => h rfl) (Nat.not_lt_zero k)
    · exact iff_of_false (fun h => h rfl) (Nat.not_lt_zero ndirect)
  · rw [hdinode n hn]
    exact ⟨rfl, rfl⟩

end Os377.Xv6.Filesys
