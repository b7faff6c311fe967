import Os377.Xv6.InodeStore
import Mathlib.Algebra.BigOperators.Group.Finset.Basic
import Mathlib.Algebra.Order.BigOperators.Group.Finset

/-!
# The calls on inodes

What processes do with the inodes: they create and find them, change their links, read
and write them and drop them, in any order, and the machine may be started again. `Inv`
is the invariant of all runs: the disk is consistent, an inode has one copy in memory,
and a copy that has been read is what is on the disk.
-/

namespace Os377.Xv6.Filesys

open Os377.Lib Function

/-! ## Calls -/

/-- `create` of `sysfile.c` from `ialloc` on: a new inode with one link. -/
def create (sb : Superblock) (s : State) (type major minor : Nat) :
    Except String (Nat × State) := do
  let (i, s) ← ialloc sb s type
  let s ← ilock sb s i
  let ip := s.icache i
  let copy := { ip.copy with major := major, minor := minor, nlink := 1 }
  .ok (i, { disk := iupdate sb s.disk ip.inum copy
            icache := update s.icache i { ip with copy := copy } })

/-- `link` and `unlink` of `sysfile.c`, as far as the inode goes. -/
def setLinks (sb : Superblock) (s : State) (i nlink : Nat) : Except String State := do
  let s ← ilock sb s i
  let ip := s.icache i
  let copy := { ip.copy with nlink := nlink }
  .ok { disk := iupdate sb s.disk ip.inum copy, icache := update s.icache i { ip with copy := copy } }

/-- `ilock` and `readi`. -/
def read (sb : Superblock) (devsw : Nat → Device) (s : State) (i off n : Nat) :
    Except String ((Int × List UInt8) × State) := do
  let s ← ilock sb s i
  let ip := s.icache i
  let (r, copy, d) ← readi sb devsw ip.copy off n s.disk
  .ok (r, { disk := d, icache := update s.icache i { ip with copy := copy } })

/-- `ilock` and `writei`. -/
def write (sb : Superblock) (devsw : Nat → Device) (s : State) (i off : Nat) (src : List UInt8) :
    Except String (Int × State) := do
  let s ← ilock sb s i
  let ip := s.icache i
  let (r, copy, d) ← writei sb devsw ip.inum ip.copy src off s.disk
  .ok (r, { disk := d, icache := update s.icache i { ip with copy := copy } })

/-! ## What they do, seen from above -/

abbrev World := Files.World Nat Info UInt8

/-- What a slot of the cache counts for the inode `n`. -/
def Inode.counts (ip : Inode) (n : Nat) : Nat := if ip.inum = n then ip.ref else 0

/-- The references to an inode. -/
def refs (s : State) (n : Nat) : Nat := ∑ i ∈ Finset.range ninode, (s.icache i).counts n

def world (sb : Superblock) (s : State) : World := ⟨files sb s.disk, refs s⟩

/-! ## The invariant -/

structure Inv (sb : Superblock) (s : State) : Prop where
  disk : Consistent sb s.disk
  inum : ∀ i < ninode, 0 < (s.icache i).ref →
    0 < (s.icache i).inum ∧ (s.icache i).inum < sb.ninodes
  distinct : ∀ i < ninode, ∀ j < ninode, 0 < (s.icache i).ref → 0 < (s.icache j).ref →
    (s.icache i).inum = (s.icache j).inum → i = j
  valid : ∀ i < ninode, 0 < (s.icache i).ref → (s.icache i).valid = true →
    (s.icache i).copy = dinode sb s.disk (s.icache i).inum
  inuse : ∀ i < ninode, 0 < (s.icache i).ref → (dinode sb s.disk (s.icache i).inum).type ≠ 0
  seen : ∀ i < ninode, 0 < (s.icache i).ref → (dinode sb s.disk (s.icache i).inum).nlink = 0 →
    (s.icache i).valid = true

variable {sb : Superblock} {s s' : State} {d d' d₁ : Disk} {ip ip' : Dinode} {slot : Inode}
variable {a i j k m n x inum type off : Nat} {src : List UInt8}

/-! ### References -/

theorem refs_setInode (s : State) (slot : Inode) (hi : i < ninode) (n : Nat) :
    refs (s.setInode i slot) n + (s.icache i).counts n = refs s n + slot.counts n := by
  have hmem := Finset.mem_range.mpr hi
  unfold refs
  rw [← Finset.add_sum_erase _ _ hmem, ← Finset.add_sum_erase (Finset.range ninode)
    (fun j => (s.icache j).counts n) hmem]
  have hself : (s.setInode i slot).icache i = slot := update_self i _ _
  have hrest : ∑ j ∈ (Finset.range ninode).erase i, ((s.setInode i slot).icache j).counts n
      = ∑ j ∈ (Finset.range ninode).erase i, (s.icache j).counts n := by
    apply Finset.sum_congr rfl
    intro j hj
    have hne := Finset.ne_of_mem_erase hj
    show (update s.icache i slot j).counts n = _
    rw [update_of_ne hne]
  rw [hself, hrest]
  omega

theorem refs_congr (h : ∀ i < ninode, (s'.icache i).counts n = (s.icache i).counts n) :
    refs s' n = refs s n :=
  Finset.sum_congr rfl fun i hi => h i (Finset.mem_range.mp hi)

theorem Inv.refs_eq (h : Inv sb s) (hi : i < ninode) (hr : 0 < (s.icache i).ref) :
    refs s (s.icache i).inum = (s.icache i).ref := by
  unfold refs
  rw [Finset.sum_eq_single_of_mem i (Finset.mem_range.mpr hi)]
  · exact if_pos rfl
  · intro j hj hji
    unfold Inode.counts
    split
    · next heq =>
        by_contra h0
        exact hji (h.distinct j (Finset.mem_range.mp hj) i hi (Nat.pos_of_ne_zero h0) hr heq)
    · rfl

theorem refs_eq_zero (h : ∀ i < ninode, (s.icache i).inum = n → (s.icache i).ref = 0) :
    refs s n = 0 := by
  apply Finset.sum_eq_zero
  intro i hi
  unfold Inode.counts
  split
  · next heq => exact h i (Finset.mem_range.mp hi) heq
  · rfl

/-- The references after the count of a slot has changed. -/
theorem refs_setRef (hi : i < ninode) (hn : slot.inum = (s.icache i).inum)
    (hr : slot.ref = (s.icache i).ref + 1) :
    refs (s.setInode i slot)
      = update (refs s) (s.icache i).inum (refs s (s.icache i).inum + 1) := by
  funext n
  have h := refs_setInode s slot hi n
  unfold Inode.counts at h
  rw [hn, hr] at h
  by_cases hni : n = (s.icache i).inum
  · rw [hni, update_self]
    rw [hni, if_pos rfl, if_pos rfl] at h
    omega
  · rw [update_of_ne hni]
    rw [if_neg (Ne.symm hni), if_neg (Ne.symm hni)] at h
    omega

/-! ### Slots -/

/-- What a call does to the slot `i` and to the inode `n` on the disk keeps the invariant. -/
theorem Inv.change (h : Inv sb s) {n : Nat} (hst : Stored sb s.disk n ip' s'.disk)
    (hother : ∀ j, j ≠ i → s'.icache j = s.icache j)
    (hfree : ∀ j < ninode, j ≠ i → 0 < (s.icache j).ref → (s.icache j).inum ≠ n)
    (hinum : 0 < (s'.icache i).ref → (s'.icache i).inum = n ∧ 0 < n ∧ n < sb.ninodes)
    (htype : 0 < (s'.icache i).ref → ip'.type ≠ 0)
    (hcopy : 0 < (s'.icache i).ref → (s'.icache i).valid = true → (s'.icache i).copy = ip')
    (hseen : 0 < (s'.icache i).ref → ip'.nlink = 0 → (s'.icache i).valid = true) : Inv sb s' := by
  have hself : 0 < (s'.icache i).ref → dinode sb s'.disk (s'.icache i).inum = ip' := by
    intro hr
    obtain ⟨hn, -, hlt⟩ := hinum hr
    rw [hn]
    exact hst.self hlt
  have hkeep : ∀ j < ninode, j ≠ i → 0 < (s.icache j).ref →
      dinode sb s'.disk (s.icache j).inum = dinode sb s.disk (s.icache j).inum := by
    intro j hj hji hr
    rw [hst.dinode _ (h.inum j hj hr).2, update_of_ne (hfree j hj hji hr)]
  -- The slot `i` has the new inode; the others have theirs as before.
  refine ⟨hst.consistent, fun j hj hr => ?_, fun j hj k hk hrj hrk heq => ?_,
    fun j hj hr hv => ?_, fun j hj hr => ?_, fun j hj hr hl => ?_⟩
  · by_cases hji : j = i
    · subst hji
      obtain ⟨hn, h1, h2⟩ := hinum hr
      rw [hn]
      exact ⟨h1, h2⟩
    · rw [hother j hji] at hr ⊢
      exact h.inum j hj hr
  · by_cases hji : j = i <;> by_cases hki : k = i
    · exact hji.trans hki.symm
    · subst hji
      rw [hother k hki] at hrk heq
      rw [(hinum hrj).1] at heq
      exact absurd heq.symm (hfree k hk hki hrk)
    · subst hki
      rw [hother j hji] at hrj heq
      rw [(hinum hrk).1] at heq
      exact absurd heq (hfree j hj hji hrj)
    · rw [hother j hji] at hrj heq
      rw [hother k hki] at hrk heq
      exact h.distinct j hj k hk hrj hrk heq
  · by_cases hji : j = i
    · subst hji
      rw [hself hr]
      exact hcopy hr hv
    · rw [hother j hji] at hr hv ⊢
      rw [hkeep j hj hji hr]
      exact h.valid j hj hr hv
  · by_cases hji : j = i
    · subst hji
      rw [hself hr]
      exact htype hr
    · rw [hother j hji] at hr ⊢
      rw [hkeep j hj hji hr]
      exact h.inuse j hj hr
  · by_cases hji : j = i
    · subst hji
      rw [hself hr] at hl
      exact hseen hr hl
    · rw [hother j hji] at hr hl ⊢
      rw [hkeep j hj hji hr] at hl
      exact h.seen j hj hr hl

/-- The state with the inode of the slot `i` read from the disk. -/
def locked (sb : Superblock) (s : State) (i : Nat) : State :=
  s.setInode i { s.icache i with copy := dinode sb s.disk (s.icache i).inum, valid := true }

/-- The state with a new inode `ip'` in the slot `i` and on the disk `d'`. -/
def stored (s : State) (i : Nat) (ip' : Dinode) (d' : Disk) : State where
  disk := d'
  icache := update s.icache i { s.icache i with copy := ip', valid := true }

section Slot

variable (h : Inv sb s) (hi : i < ninode) (hr : 0 < (s.icache i).ref)
include h hi hr

theorem Inv.others (j : Nat) (hj : j < ninode) (hji : j ≠ i) (hrj : 0 < (s.icache j).ref) :
    (s.icache j).inum ≠ (s.icache i).inum := by
  intro heq
  exact hji (h.distinct j hj i hi hrj hr heq)

theorem Inv.file : files sb s.disk (s.icache i).inum
    = some ⟨(dinode sb s.disk (s.icache i).inum).info, (dinode sb s.disk (s.icache i).inum).nlink,
        content sb s.disk (s.icache i).inum⟩ :=
  if_pos ⟨(h.inum i hi hr).2, h.inuse i hi hr⟩

theorem Inv.keep_stored (hst : Stored sb s.disk (s.icache i).inum ip' d') (ht : ip'.type ≠ 0) :
    Inv sb (stored s i ip' d') ∧ refs (stored s i ip' d') = refs s := by
  have hself : (stored s i ip' d').icache i
      = { s.icache i with copy := ip', valid := true } := update_self i _ _
  have hother : ∀ j, j ≠ i → (stored s i ip' d').icache j = s.icache j :=
    fun j hji => update_of_ne hji _ _
  constructor
  · refine h.change hst hother (h.others hi hr) ?_ (fun _ => ht) ?_ ?_ <;> rw [hself]
    · exact fun _ => ⟨rfl, h.inum i hi hr⟩
    · exact fun _ _ => rfl
    · exact fun _ _ => rfl
  · funext n
    apply refs_congr
    intro j _
    by_cases hji : j = i
    · rw [hji, hself]
      rfl
    · rw [hother j hji]

theorem Inv.keep_locked : Inv sb (locked sb s i) ∧ refs (locked sb s i) = refs s :=
  h.keep_stored hi hr (.refl h.disk _) (h.inuse i hi hr)

theorem Inv.ilock_eq : ilock sb s i = .ok (locked sb s i) := by
  unfold ilock
  dsimp only
  rw [if_neg (by omega)]
  by_cases hv : (s.icache i).valid = true
  · rw [if_pos hv]
    unfold locked State.setInode
    rw [← h.valid i hi hr hv, ← hv, update_eq_self]
  · rw [if_neg hv, if_neg (h.inuse i hi hr)]
    rfl

theorem Inv.setLinks_spec (hn : n < 2 ^ 16) :
    ∃ s', setLinks sb s i n = .ok s' ∧ Inv sb s' ∧ refs s' = refs s ∧
      files sb s'.disk = update (files sb s.disk) (s.icache i).inum
        (some ⟨(dinode sb s.disk (s.icache i).inum).info, n,
          content sb s.disk (s.icache i).inum⟩) := by
  have hlt := (h.inum i hi hr).2
  have ht := h.inuse i hi hr
  have hfits : Fits (dinode sb s.disk (s.icache i).inum) := fits_load _ _
  have hp : ptr s.disk { dinode sb s.disk (s.icache i).inum with nlink := n }
      = ptr s.disk (dinode sb s.disk (s.icache i).inum) := rfl
  have hst := h.disk.stored_same hlt hp rfl
    (loadDinode_storeDinode ⟨hfits.type, hfits.major, hfits.minor, hn, hfits.size, hfits.addrs,
      hfits.beyond⟩) (fun x hx => storeDinode_outside hx) fun h0 => absurd h0 ht
  obtain ⟨hinv, hrefs⟩ := h.keep_stored hi hr hst.1 ht
  refine ⟨_, ?_, hinv, hrefs, ?_⟩
  · unfold setLinks
    rw [h.ilock_eq hi hr, ok_bind]
    unfold locked State.setInode stored iupdate
    simp only [update_self, update_idem]
  · have hfiles := hst.1.files_eq hlt ht
    rw [hst.2] at hfiles
    exact hfiles

/-- A read changes nothing, but that the inode is now in memory. -/
theorem Inv.read_spec (devsw : Nat → Device) {len : Nat} (hoff : off < 2 ^ 32)
    (hlen : len < 2 ^ 32) :
    read sb devsw s i off len = .ok (readAnswer devsw (dinode sb s.disk (s.icache i).inum)
      (content sb s.disk (s.icache i).inum) off len, locked sb s i) := by
  unfold read
  rw [h.ilock_eq hi hr, ok_bind]
  unfold locked State.setInode
  simp only [update_self, update_idem]
  rw [readi_spec h.disk (h.inum i hi hr).2 hoff hlen]
  rfl

/-- A write that an inode refuses, or to a device, changes nothing. -/
theorem Inv.write_idle {devsw : Nat → Device} {r : Int}
    (hrun : writei sb devsw (s.icache i).inum (dinode sb s.disk (s.icache i).inum) src off s.disk
      = .ok (r, dinode sb s.disk (s.icache i).inum, s.disk)) :
    write sb devsw s i off src = .ok (r, locked sb s i) := by
  unfold write
  rw [h.ilock_eq hi hr, ok_bind]
  unfold locked State.setInode
  simp only [update_self, update_idem]
  rw [hrun]
  rfl

/-- A write that an inode takes. -/
theorem Inv.write_spec (devsw : Nat → Device)
    (hdev : (dinode sb s.disk (s.icache i).inum).type ≠ tDev)
    (hfit : Fitting (dinode sb s.disk (s.icache i).inum).size off src.length) :
    (∃ ip' d', write sb devsw s i off src = .ok (src.length, stored s i ip' d') ∧
      Inv sb (stored s i ip' d') ∧ refs (stored s i ip' d') = refs s ∧
      Overwritten sb s.disk (s.icache i).inum off src ip' d') ∨
      (write sb devsw s i off src = .error "balloc: out of blocks" ∧
        free sb s.disk + held (blocksFor (dinode sb s.disk (s.icache i).inum).size)
          < held (grownTo (dinode sb s.disk (s.icache i).inum).size off src.length)) := by
  have hlt := (h.inum i hi hr).2
  have ht := h.inuse i hi hr
  unfold write
  rw [h.ilock_eq hi hr, ok_bind]
  unfold locked State.setInode
  simp only [update_self, update_idem]
  rcases writei_spec h.disk hlt devsw hdev hfit ht with ⟨ip', d', hrun, ho⟩ | ⟨hrun, hroom⟩
  · have htype : ip'.type ≠ 0 := by
      rw [type_eq_of_info ho.info]
      exact ht
    obtain ⟨hinv, hrefs⟩ := h.keep_stored hi hr ho.stored htype
    exact .inl ⟨ip', d', by rw [hrun]; rfl, hinv, hrefs, ho⟩
  · exact .inr ⟨by rw [hrun]; rfl, hroom⟩

/-! ### Taking and dropping references -/

theorem Inv.idup_spec : Inv sb (idup s i) ∧
    refs (idup s i) = update (refs s) (s.icache i).inum (refs s (s.icache i).inum + 1) := by
  have hself : (idup s i).icache i = { s.icache i with ref := (s.icache i).ref + 1 } :=
    update_self i _ _
  refine ⟨h.change (.refl h.disk (s.icache i).inum) (fun j hji => update_of_ne hji _ _)
    (h.others hi hr) ?_ (fun _ => h.inuse i hi hr) ?_ ?_, refs_setRef hi rfl rfl⟩ <;> rw [hself]
  · exact fun _ => ⟨rfl, h.inum i hi hr⟩
  · exact fun _ => h.valid i hi hr
  · exact fun _ => h.seen i hi hr

end Slot

/-- The references after a slot that was free has been taken for an inode. -/
theorem refs_enter (hi : i < ninode) (h0 : (s.icache i).ref = 0) (hn : slot.inum = n)
    (hr : slot.ref = 1) : refs (s.setInode i slot) = update (refs s) n (refs s n + 1) := by
  funext m
  have h := refs_setInode s slot hi m
  have hold : (s.icache i).counts m = 0 := by
    unfold Inode.counts
    rw [h0, ite_self]
  have hnew : slot.counts m = if n = m then 1 else 0 := by
    unfold Inode.counts
    rw [hn, hr]
  rw [hold, hnew] at h
  by_cases hmn : m = n
  · subst hmn
    rw [if_pos rfl] at h
    rw [update_self]
    omega
  · rw [if_neg (Ne.symm hmn)] at h
    rw [update_of_ne hmn]
    omega

/-- The reference that an `iget` of the inode `n` returns. -/
structure Got (s : State) (n i : Nat) (s' : State) : Prop where
  lt : i < ninode
  disk : s'.disk = s.disk
  inum : (s'.icache i).inum = n
  ref : 0 < (s'.icache i).ref
  refs : refs s' = update (refs s) n (refs s n + 1)
  other : ∀ j, j ≠ i → s'.icache j = s.icache j
  free : ∀ j < ninode, j ≠ i → 0 < (s.icache j).ref → (s.icache j).inum ≠ n
  /-- A slot that was in use, or a new one. -/
  slot : (0 < (s.icache i).ref ∧ s' = idup s i) ∨ (s'.icache i).valid = false

/-- What `iget` does, whatever the inode is. -/
theorem iget_got (n : Nat) (hd : ∀ i < ninode, ∀ j < ninode, 0 < (s.icache i).ref →
    0 < (s.icache j).ref → (s.icache i).inum = (s.icache j).inum → i = j) :
    (∃ i s', iget s n = .ok (i, s') ∧ Got s n i s') ∨
      (iget s n = .error "iget: no inodes" ∧ ∀ i < ninode, 0 < (s.icache i).ref) := by
  unfold iget
  dsimp only
  split
  · next i hfind =>
      have hi := List.mem_range.mp (List.mem_of_find?_eq_some hfind)
      have hp := List.find?_some hfind
      simp only [Bool.and_eq_true, decide_eq_true_eq] at hp
      obtain ⟨hr, hn⟩ := hp
      refine .inl ⟨i, _, rfl, hi, rfl, ?_, ?_, ?_, fun j hji => update_of_ne hji _ _, ?_,
        .inl ⟨hr, rfl⟩⟩
      · show (update s.icache i _ i).inum = n
        rw [update_self]
        exact hn
      · show 0 < (update s.icache i _ i).ref
        rw [update_self]
        exact Nat.succ_pos _
      · rw [← hn]
        exact refs_setRef hi rfl rfl
      · intro j hj hji hrj hjn
        exact hji (hd j hj i hi hrj hr (hjn.trans hn.symm))
  · next hnone =>
      have hfree : ∀ j < ninode, 0 < (s.icache j).ref → (s.icache j).inum ≠ n := by
        intro j hj hrj hjn
        have := List.find?_eq_none.mp hnone j (List.mem_range.mpr hj)
        simp [hrj, hjn] at this
      split
      · next i hfind =>
          have hi := List.mem_range.mp (List.mem_of_find?_eq_some hfind)
          have h0 : (s.icache i).ref = 0 := by simpa using List.find?_some hfind
          refine .inl ⟨i, _, rfl, hi, rfl, ?_, ?_, ?_, fun j hji => update_of_ne hji _ _,
            fun j hj _ => hfree j hj, .inr ?_⟩
          · show (update s.icache i _ i).inum = n
            rw [update_self]
          · show 0 < (update s.icache i _ i).ref
            rw [update_self]
            exact Nat.one_pos
          · exact refs_enter hi h0 rfl rfl
          · show (update s.icache i _ i).valid = false
            rw [update_self]
      · next hfull =>
          refine .inr ⟨rfl, fun j hj => Nat.pos_of_ne_zero fun h0 => ?_⟩
          have := List.find?_eq_none.mp hfull j (List.mem_range.mpr hj)
          simp [h0] at this

/-- `iget` of an inode that a directory names. -/
theorem Inv.iget_inv (h : Inv sb s) (hg : Got s n i s') (h0 : 0 < n) (hn : n < sb.ninodes)
    (hl : (dinode sb s.disk n).nlink ≠ 0) : Inv sb s' := by
  have ht : (dinode sb s.disk n).type ≠ 0 := fun ht => hl (h.disk.unused n hn ht).2
  rcases hg.slot with ⟨hr, rfl⟩ | hv
  · exact (h.idup_spec hg.lt hr).1
  · have hst : Stored sb s.disk n (dinode sb s.disk n) s'.disk := by
      rw [hg.disk]
      exact .refl h.disk n
    refine h.change hst hg.other hg.free (fun _ => ⟨hg.inum, h0, hn⟩) (fun _ => ht)
      (fun _ hvalid => ?_) fun _ hzero => absurd hzero hl
    rw [hv] at hvalid
    cases hvalid

/-- The references after a slot has lost one. -/
theorem refs_drop (slot : Inode) (hi : i < ninode) (hr : 0 < (s.icache i).ref)
    (hn : slot.inum = (s.icache i).inum) (hs : slot.ref = (s.icache i).ref - 1) :
    refs (s.setInode i slot)
      = update (refs s) (s.icache i).inum (refs s (s.icache i).inum - 1) := by
  funext m
  have h := refs_setInode s slot hi m
  unfold Inode.counts at h
  rw [hn, hs] at h
  by_cases hmn : m = (s.icache i).inum
  · rw [hmn, update_self]
    rw [hmn, if_pos rfl, if_pos rfl] at h
    omega
  · rw [update_of_ne hmn]
    rw [if_neg (Ne.symm hmn), if_neg (Ne.symm hmn)] at h
    omega

/-- `iput` drops a reference, and frees the inode with the last one if it has no link. -/
theorem Inv.iput_spec (h : Inv sb s) (hi : i < ninode) (hr : 0 < (s.icache i).ref) :
    ∃ s', iput sb s i = .ok s' ∧ Inv sb s' ∧
      refs s' = update (refs s) (s.icache i).inum (refs s (s.icache i).inum - 1) ∧
      (files sb s'.disk = if (s.icache i).ref = 1 ∧
          (dinode sb s.disk (s.icache i).inum).nlink = 0
        then update (files sb s.disk) (s.icache i).inum none else files sb s.disk) ∧
      Logs s.disk s'.disk (sb.nmeta - sb.bmapstart + 1) fun _ => False := by
  have hlt := (h.inum i hi hr).2
  have hothers := h.others hi hr
  unfold iput ifree
  dsimp only
  -- The last reference to an inode without links frees it; that its copy has been read is
  -- what `seen` says.
  by_cases hlast : (s.icache i).ref = 1 ∧ (dinode sb s.disk (s.icache i).inum).nlink = 0
  · obtain ⟨hone, hl⟩ := hlast
    have hv := h.seen i hi hr hl
    have hcopy := h.valid i hi hr hv
    obtain ⟨d₁, hrun, hst, hlogs⟩ := h.disk.freed hlt (h.inuse i hi hr) hl
    rw [if_pos ⟨hv, by rw [hcopy]; exact hl, hone⟩, hcopy, hrun, if_pos ⟨hone, hl⟩]
    simp only [ok_bind, State.setInode, update_self, update_idem]
    refine ⟨_, rfl, h.change hst (fun j hji => update_of_ne hji _ _) hothers ?_ ?_ ?_ ?_, ?_,
      hst.files_gone hlt rfl, hlogs⟩
    · simp [hone]
    · simp [hone]
    · simp [hone]
    · simp [hone]
    · exact refs_drop { s.icache i with
        copy := { emptied (dinode sb s.disk (s.icache i).inum) with type := 0 }
        valid := false, ref := (s.icache i).ref - 1 } hi hr rfl rfl
  · have hcond : ¬ ((s.icache i).valid = true ∧ (s.icache i).copy.nlink = 0 ∧
        (s.icache i).ref = 1) := by
      rintro ⟨hv, hl, hone⟩
      rw [h.valid i hi hr hv] at hl
      exact hlast ⟨hone, hl⟩
    have hself : (s.setInode i { s.icache i with ref := (s.icache i).ref - 1 }).icache i
        = { s.icache i with ref := (s.icache i).ref - 1 } := update_self i _ _
    rw [if_neg hcond, if_neg hlast, ok_bind]
    refine ⟨_, rfl, h.change (.refl h.disk (s.icache i).inum) (fun j hji => update_of_ne hji _ _)
      hothers ?_ (fun _ => h.inuse i hi hr) ?_ ?_, refs_drop _ hi hr rfl rfl, rfl,
      (Logs.refl _).mono (Nat.zero_le _) fun _ => id⟩ <;> rw [hself]
    · exact fun _ => ⟨rfl, h.inum i hi hr⟩
    · exact fun _ => h.valid i hi hr
    · exact fun _ => h.seen i hi hr

/-- What `create` returns: an inode that was free, with one link and one reference. -/
structure Created (sb : Superblock) (s : State) (type major minor i : Nat) (s' : State) :
    Prop where
  lt : i < ninode
  inv : Inv sb s'
  was_free : files sb s.disk (s'.icache i).inum = none
  unreferenced : refs s (s'.icache i).inum = 0
  files : files sb s'.disk = update (Filesys.files sb s.disk) (s'.icache i).inum
    (some ⟨(type, major, minor), 1, []⟩)
  refs : Filesys.refs s' = update (Filesys.refs s) (s'.icache i).inum 1

/-- The slot that `iget` returned for the new inode `n`, once its fields are set. -/
theorem Inv.created {major minor : Nat} (h : Inv sb s) (h0 : 0 < n) (hn : n < sb.ninodes)
    (hzero : (dinode sb s.disk n).type = 0) (hst : Stored sb s.disk n ip' d')
    (hinfo : ip'.info = (type, major, minor)) (ht0 : type ≠ 0) (hl : ip'.nlink = 1)
    (hsize : ip'.size = 0) (hg : Got { s with disk := d₁ } n i s') :
    Created sb s type major minor i (stored s' i ip' d') := by
  have hself : (stored s' i ip' d').icache i = { s'.icache i with copy := ip', valid := true } :=
    update_self i _ _
  have hother : ∀ j, j ≠ i → (stored s' i ip' d').icache j = s'.icache j :=
    fun j hji => update_of_ne hji _ _
  have hinum : ((stored s' i ip' d').icache i).inum = n := by
    rw [hself]
    exact hg.inum
  have htype : ip'.type ≠ 0 := by
    rw [type_eq_of_info hinfo]
    exact ht0
  have hrefs : refs (stored s' i ip' d') = refs s' := by
    funext m
    apply refs_congr
    intro j _
    by_cases hji : j = i
    · rw [hji, hself]
      rfl
    · rw [hother j hji]
  have hnone : refs s n = 0 := by
    apply refs_eq_zero
    intro j hj hjn
    by_contra hrj
    exact h.inuse j hj (Nat.pos_of_ne_zero hrj) (by rw [hjn]; exact hzero)
  refine ⟨hg.lt, ?_, ?_, by rw [hinum]; exact hnone, ?_, ?_⟩
  · refine h.change hst (fun j hji => (hother j hji).trans (hg.other j hji)) hg.free
      (fun _ => ⟨hinum, h0, hn⟩) (fun _ => htype) ?_ ?_ <;> rw [hself]
    · exact fun _ _ => rfl
    · exact fun _ _ => rfl
  · rw [hinum]
    exact if_neg fun hp => hp.2 hzero
  · have hcontent : content sb d' n = [] := by
      rw [content, hst.self hn, hsize]
      rfl
    have hfiles := hst.files_eq hn htype
    rw [hcontent, hinfo, hl] at hfiles
    rw [hinum]
    exact hfiles
  · have hgot := hg.refs
    have hold : Filesys.refs { s with disk := d₁ } = Filesys.refs s := rfl
    rw [hold, hnone] at hgot
    rw [hrefs, hinum, hgot]

theorem Inv.create_spec {major minor : Nat} (h : Inv sb s) (ht : type < 2 ^ 16) (ht0 : type ≠ 0)
    (hmajor : major < 2 ^ 16) (hminor : minor < 2 ^ 16) :
    (∃ i s', create sb s type major minor = .ok (i, s') ∧
      Created sb s type major minor i s') ∨
      (create sb s type major minor = .error "ialloc: no inodes" ∧
        ∀ n, 0 < n → n < sb.ninodes → files sb s.disk n ≠ none) ∨
      (create sb s type major minor = .error "iget: no inodes" ∧
        ∀ i < ninode, 0 < (s.icache i).ref) := by
  unfold create ialloc
  cases hfind : (List.range' 1 (sb.ninodes - 1)).find?
      fun inum => decide ((dinode sb s.disk inum).type = 0) with
  | none =>
      refine .inr (.inl ⟨rfl, fun n h0 hn => ?_⟩)
      have hne := List.find?_eq_none.mp hfind n (List.mem_range'_1.mpr (by omega))
      simp only [decide_eq_true_eq] at hne
      unfold files
      dsimp only
      rw [if_pos ⟨hn, hne⟩]
      exact Option.some_ne_none _
  | some n =>
      have hmem := List.mem_range'_1.mp (List.mem_of_find?_eq_some hfind)
      have hzero : (dinode sb s.disk n).type = 0 := by simpa using List.find?_some hfind
      have hn : n < sb.ninodes := by omega
      have hunref : ∀ j < ninode, 0 < (s.icache j).ref → (s.icache j).inum ≠ n := by
        intro j hj hrj hjn
        exact h.inuse j hj hrj (by rw [hjn]; exact hzero)
      have hst := h.disk.fresh hn hzero ht ht0
      dsimp only
      generalize hd : s.disk.logWrite (iblock sb n) _ = d₁ at hst ⊢
      rcases iget_got (s := { s with disk := d₁ }) n h.distinct with ⟨i, s₂, hrun, hg⟩ | ⟨hrun, hfull⟩
      -- No slot has the inode, so `iget` has taken a new one, which `ilock` reads.
      · have hslot : (s₂.icache i).valid = false := by
          refine hg.slot.resolve_left ?_
          rintro ⟨hr, rfl⟩
          have hsame : ((idup { s with disk := d₁ } i).icache i).inum = (s.icache i).inum := by
            show (update s.icache i _ i).inum = _
            rw [update_self]
          exact hunref i hg.lt hr (hsame.symm.trans hg.inum)
        have hdisk : s₂.disk = d₁ := hg.disk
        have hself := hst.self hn
        have hlock : ilock sb s₂ i
            = .ok (s₂.setInode i { s₂.icache i with copy := freshDinode type, valid := true }) := by
          unfold ilock
          dsimp only
          have hr := hg.ref
          rw [if_neg (by omega), hslot, hdisk, hg.inum, hself]
          simp only [Bool.false_eq_true, if_false]
          exact if_neg ht0
        have hfits : Fits { freshDinode type with major := major, minor := minor, nlink := 1 } :=
          ⟨ht, hmajor, hminor, Nat.one_lt_two_pow (by omega), Nat.two_pow_pos 32,
            fun _ => Nat.two_pow_pos 32, fun _ _ => rfl⟩
        have hst' : Stored sb d₁ n _ (iupdate sb d₁ n _) :=
          (hst.consistent.stored_same hn (by rw [hself]; rfl) (by rw [hself])
            (loadDinode_storeDinode hfits) (fun x hx => storeDinode_outside hx)
            fun hz => absurd hz ht0).1
        refine .inl ⟨i, _, ?_, h.created (by omega) hn hzero (hst.trans hst') rfl ht0 rfl rfl hg⟩
        rw [hrun, ok_bind]
        dsimp only
        rw [hlock, ok_bind]
        unfold stored State.setInode
        simp only [update_self, update_idem, hdisk, hg.inum]
      · exact .inr (.inr ⟨by rw [hrun]; rfl, hfull⟩)

end Os377.Xv6.Filesys
