import Os377.Xv6.InodeRuns
import Os377.Xv6.Log

/-!
# Writes to files

`filewrite` of `file.c` cuts a write into pieces, each a transaction of its own, so that
no transaction is larger than the log has room for (`write_budget`). Together the pieces
are one write, as far as the largest file goes (`filewrite_answers`).
-/

namespace Os377.Xv6.Filesys

open Os377.Lib Function

/-- `max` of `filewrite`. -/
def filewriteMax : Nat := (maxOpBlocks - 1 - 1 - 2) / 2 * 512

theorem filewriteMax_eq : filewriteMax = 1536 := by decide

/-- `begin_op`: the transaction has logged nothing. -/
def State.beginOp (s : State) : State := { s with disk := { s.disk with logged := [] } }

/-- The loop of `filewrite`, at most `fuel` times round: whether all is written, `f->off` and
the state. -/
def filewriteLoop (sb : Superblock) (devsw : Nat → Device) :
    Nat → State → Nat → Nat → List UInt8 → Except String (Bool × Nat × State)
  | 0, s, _, off, src => .ok (src = [], off, s)
  | fuel + 1, s, i, off, src =>
      if src = [] then .ok (true, off, s)
      else do
        let n1 := min src.length filewriteMax
        let (r, s) ← write sb devsw s.beginOp i off (src.take n1)
        if r < 0 then .ok (false, off, s)
        else if r ≠ n1 then .error "short filewrite"
        else filewriteLoop sb devsw fuel s i ((off + n1) % 2 ^ 32) (src.drop n1)

/-- Write to the file of the slot `i`, from `off` on: what is returned, and the new `f->off`.
No other call comes between the pieces. -/
def filewrite (sb : Superblock) (devsw : Nat → Device) (s : State) (i off : Nat)
    (src : List UInt8) : Except String (Int × Nat × State) := do
  let (all, off, s) ← filewriteLoop sb devsw src.length s i off src
  .ok (if all then src.length else -1, off, s)

variable {sb : Superblock} {devsw : Nat → Device} {s s' : State} {d d' : Disk}
variable {i k m n off size len fuel : Nat} {src : List UInt8}

/-! ## Transactions -/

theorem Inv.beginOp (h : Inv sb s) : Inv sb s.beginOp :=
  ⟨⟨h.disk.good, fun n hn => (h.disk.filled n hn).congr rfl, h.disk.unused⟩, h.inum, h.distinct,
    h.valid, h.inuse, h.seen⟩

theorem Logs.card_le (h : Logs d d' k fun _ => False) (h0 : d.logged = []) :
    d'.logged.toFinset.card ≤ k := by
  obtain ⟨others, hlen, hx⟩ := h
  have hsub : d'.logged.toFinset ⊆ others.toFinset := by
    intro x hmem
    rcases hx x (List.mem_toFinset.mp hmem) with h1 | h1 | h1
    · rw [h0] at h1
      exact absurd h1 List.not_mem_nil
    · exact List.mem_toFinset.mpr h1
    · exact h1.elim
  calc d'.logged.toFinset.card
      ≤ others.toFinset.card := Finset.card_le_card hsub
    _ ≤ others.length := List.toFinset_card_le others
    _ ≤ k := hlen

/-- A piece of `filewrite` fits into a transaction. Where it does not start with a block, the
inode has its first block already. -/
theorem writeCost_le (hoff : off ≤ size) (hlen : len ≤ filewriteMax) :
    writeCost size off len ≤ maxOpBlocks := by
  have hmax := filewriteMax_eq
  have hops : maxOpBlocks = 10 := rfl
  have hheld : held (grownTo size off len) - held (blocksFor size)
      ≤ grownTo size off len - blocksFor size + 1 := by
    unfold held grownTo
    split <;> split <;> omega
  unfold writeCost
  unfold grownTo blocksFor bsize at *
  omega

/-- A write of a piece of `filewrite` logs no more blocks than an operation may. -/
theorem write_budget : (system sb devsw).Invariant fun s => ∀ i off (src : List UInt8) r s',
    Referenced s i → off < 2 ^ 32 → src.length ≤ filewriteMax →
    write sb devsw s.beginOp i off src = .ok (r, s') →
    s'.disk.logged.toFinset.card ≤ maxOpBlocks := by
  rintro s hs i off src r s' ⟨hi, hr⟩ hoff hlen hrun
  have h := (inv_reachable s hs).beginOp
  have hlen32 : src.length < 2 ^ 32 := Nat.lt_of_le_of_lt hlen (by decide)
  have hidle : (locked sb s.beginOp i).disk.logged.toFinset.card ≤ maxOpBlocks := Nat.zero_le _
  by_cases hdev : (dinode sb s.beginOp.disk (s.beginOp.icache i).inum).type = tDev
  · have hw : write sb devsw s.beginOp i off src = .ok (_, _) :=
      h.write_idle hi hr (writei_device hdev)
    rw [hw] at hrun
    cases hrun
    exact hidle
  by_cases hfit : Fitting (dinode sb s.beginOp.disk (s.beginOp.icache i).inum).size off src.length
  · rcases h.write_spec hi hr devsw hdev hfit with ⟨ip', d', hw, -, -, ho⟩ | ⟨hw, -⟩
    · rw [hw] at hrun
      cases hrun
      exact (ho.logged.card_le rfl).trans (writeCost_le hfit.1 hlen)
    · rw [hw] at hrun
      cases hrun
  · have hw : write sb devsw s.beginOp i off src = .ok (-1, _) :=
      h.write_idle hi hr (writei_refused hdev hoff hlen32 hfit)
    rw [hw] at hrun
    cases hrun
    exact hidle

/-- A byte behind the two of a file. -/
theorem write_budget_written : ∃ (s s' : State) (r : Int),
    write small noDevice s.beginOp 0 2 [106] = .ok (r, s') ∧
      s'.disk.logged.toFinset.card ≤ maxOpBlocks := by
  obtain ⟨s, hs, href, hok⟩ := (system small noDevice).exists_of_run
    (P := fun s => Referenced s 0 ∧
      (write small noDevice s.beginOp 0 2 [106]).toOption.isSome = true) formatted written
    formatted_init (by decide +kernel)
  cases hwrite : write small noDevice s.beginOp 0 2 [106] with
  | error e =>
      rw [hwrite] at hok
      cases hok
  | ok x => exact ⟨s, x.2, x.1, hwrite, write_budget s hs 0 2 [106] x.1 x.2 href (by decide)
      (by decide) hwrite⟩

/-- An `iput` logs the bitmap at most, and the block of the inode. -/
theorem iput_budget : (system sb devsw).Invariant fun s => ∀ i, Referenced s i →
    ∃ s', iput sb s.beginOp i = .ok s' ∧
      s'.disk.logged.toFinset.card ≤ sb.nmeta - sb.bmapstart + 1 := by
  rintro s hs i ⟨hi, hr⟩
  obtain ⟨s', hrun, -, -, -, hlogs⟩ := (inv_reachable s hs).beginOp.iput_spec hi hr
  exact ⟨s', hrun, hlogs.card_le rfl⟩

/-- The file has no link any more, and its last reference goes. -/
theorem iput_budget_written : ∃ s s' : State, (dinode small s.disk 1).nlink = 0 ∧
    iput small s.beginOp 0 = .ok s' ∧ s'.disk.logged.toFinset.card ≤ 2 := by
  obtain ⟨s, hs, href, hlink⟩ := (system small noDevice).exists_of_run
    (P := fun s => Referenced s 0 ∧ (dinode small s.disk 1).nlink = 0) formatted
    (written ++ [.call (.link 0 0)]) formatted_init (by decide +kernel)
  obtain ⟨s', hrun, hlogged⟩ := iput_budget s hs 0 href
  exact ⟨s, s', hlink, hrun, hlogged⟩

/-! ## All pieces -/

theorem filewriteLoop_piece {r : Int} {n1 : Nat} {s₁ : State} (hsrc : src ≠ [])
    (hn1 : n1 = min src.length filewriteMax)
    (hw : write sb devsw s.beginOp i off (src.take n1) = .ok (r, s₁)) :
    filewriteLoop sb devsw (fuel + 1) s i off src =
      if r < 0 then .ok (false, off, s₁)
      else if r ≠ n1 then .error "short filewrite"
      else filewriteLoop sb devsw fuel s₁ i ((off + n1) % 2 ^ 32) (src.drop n1) := by
  rw [hn1] at hw ⊢
  rw [filewriteLoop, if_neg hsrc]
  dsimp only
  rw [hw, ok_bind]

theorem filewriteLoop_panic {n1 : Nat} {e : String} (hsrc : src ≠ [])
    (hn1 : n1 = min src.length filewriteMax)
    (hw : write sb devsw s.beginOp i off (src.take n1) = .error e) :
    filewriteLoop sb devsw (fuel + 1) s i off src = .error e := by
  rw [hn1] at hw
  rw [filewriteLoop, if_neg hsrc]
  dsimp only
  rw [hw]
  rfl

/-- The bytes that `filewrite` stores: all, or the pieces before the end of the largest file,
and none behind the end of the file. -/
def storedLen (size off len : Nat) : Nat :=
  if size < off then 0
  else if off + len ≤ maxfile * bsize then len
  else (maxfile * bsize - off) / filewriteMax * filewriteMax

/-- The size of a file after storing `m` bytes at `off`. -/
def sizeAfter (size off m : Nat) : Nat := if m = 0 then size else max size (off + m)

theorem maxfile_bytes : maxfile * bsize = 71680 := by decide

theorem storedLen_zero : storedLen size off 0 = 0 := by
  unfold storedLen
  rw [filewriteMax_eq, maxfile_bytes]
  split
  · rfl
  · split <;> omega

/-- A piece is stored, or nothing more is. -/
theorem storedLen_piece (size off : Nat) (hlen : 0 < len) (hn1 : n = min len filewriteMax) :
    (0 < n ∧ Fitting size off n ∧
      storedLen size off len = n + storedLen (max size (off + n)) (off + n) (len - n)) ∨
    (¬ Fitting size off n ∧ storedLen size off len = 0) := by
  rw [filewriteMax_eq] at hn1
  unfold storedLen Fitting
  rw [filewriteMax_eq, maxfile_bytes]
  by_cases hoff : off ≤ size
  · by_cases hend : off + n ≤ 71680
    · refine .inl ⟨by omega, ⟨hoff, hend⟩, ?_⟩
      rw [if_neg (Nat.not_lt_of_le hoff), if_neg (Nat.not_lt_of_le (Nat.le_max_right _ _))]
      split <;> split <;> omega
    · refine .inr ⟨fun h => hend h.2, ?_⟩
      rw [if_neg (by omega)]
      split <;> omega
  · exact .inr ⟨fun h => hoff h.1, if_pos (by omega)⟩

theorem sizeAfter_add (size off m : Nat) (hn : 0 < n) :
    sizeAfter (max size (off + n)) (off + n) m = sizeAfter size off (n + m) := by
  unfold sizeAfter
  rw [if_neg (show ¬ n + m = 0 by omega)]
  split <;> omega

theorem grownTo_eq : grownTo size off len = blocksFor (max size (off + len)) := by
  unfold grownTo blocksFor bsize
  omega

/-- The bytes `src` have been stored at `off` in the file of the slot `i`, and nothing else. -/
structure Filewrote (sb : Superblock) (s : State) (i off : Nat) (src : List UInt8) (s' : State) :
    Prop where
  inv : Inv sb s'
  refs : refs s' = refs s
  inum : (s'.icache i).inum = (s.icache i).inum
  ref : (s'.icache i).ref = (s.icache i).ref
  info : (dinode sb s'.disk (s.icache i).inum).info = (dinode sb s.disk (s.icache i).inum).info
  nlink : (dinode sb s'.disk (s.icache i).inum).nlink = (dinode sb s.disk (s.icache i).inum).nlink
  content : content sb s'.disk (s.icache i).inum
    = overwrite (content sb s.disk (s.icache i).inum) off src
  others : ∀ m, m ≠ (s.icache i).inum → files sb s'.disk m = files sb s.disk m

namespace Filewrote

variable {s₁ : State} {rest : List UInt8}

/-- Nothing to write, or a write that is refused: the inode is in memory at most. -/
theorem none (hinv : Inv sb s') (hrefs : Filesys.refs s' = Filesys.refs s)
    (hinum : (s'.icache i).inum = (s.icache i).inum) (href : (s'.icache i).ref = (s.icache i).ref)
    (hdata : s'.disk.data = s.disk.data) : Filewrote sb s i off [] s' := by
  obtain ⟨⟨data, logged⟩, icache⟩ := s'
  obtain rfl : data = s.disk.data := hdata
  exact ⟨hinv, hrefs, hinum, href, rfl, rfl, (overwrite_nil _ _).symm, fun _ _ => rfl⟩

theorem trans (h : Filewrote sb s i off src s₁) (h' : Filewrote sb s₁ i (off + src.length) rest s')
    (hoff : off ≤ (dinode sb s.disk (s.icache i).inum).size) :
    Filewrote sb s i off (src ++ rest) s' where
  inv := h'.inv
  refs := h'.refs.trans h.refs
  inum := h'.inum.trans h.inum
  ref := h'.ref.trans h.ref
  info := by
    have h1 := h'.info
    rw [h.inum] at h1
    exact h1.trans h.info
  nlink := by
    have h1 := h'.nlink
    rw [h.inum] at h1
    exact h1.trans h.nlink
  content := by
    have h1 := h'.content
    rw [h.inum, h.content, overwrite_append (by rwa [length_content])] at h1
    exact h1
  others m hm := (h'.others m (by rwa [h.inum])).trans (h.others m hm)

end Filewrote

section Slot

variable (h : Inv sb s) (hi : i < ninode) (hr : 0 < (s.icache i).ref)
include h hi hr

/-- A piece that is refused. -/
theorem Inv.filewrote_none : Filewrote sb s i off [] (locked sb s.beginOp i) := by
  obtain ⟨hinv, hrefs⟩ := h.beginOp.keep_locked hi hr
  have hself : (locked sb s.beginOp i).icache i
      = { s.icache i with copy := dinode sb s.disk (s.icache i).inum, valid := true } :=
    update_self i _ _
  exact .none hinv hrefs (by rw [hself]) (by rw [hself]) rfl

/-- A piece that is stored, and the size and the free blocks then. -/
theorem Inv.filewrote_piece {ip' : Dinode} {s₁ : State}
    (hs₁ : s₁ = stored s.beginOp i ip' d') (hinv : Inv sb s₁) (hrefs : refs s₁ = refs s)
    (hoff : off ≤ (dinode sb s.disk (s.icache i).inum).size)
    (ho : Overwritten sb s.beginOp.disk (s.icache i).inum off src ip' d') :
    Filewrote sb s i off src s₁ ∧
      (dinode sb s₁.disk (s.icache i).inum).size
        = max (dinode sb s.disk (s.icache i).inum).size (off + src.length) ∧
      free sb s₁.disk
          + held (blocksFor (max (dinode sb s.disk (s.icache i).inum).size (off + src.length)))
        = free sb s.disk + held (blocksFor (dinode sb s.disk (s.icache i).inum).size) := by
  subst hs₁
  have hself : (stored s.beginOp i ip' d').icache i
      = { s.icache i with copy := ip', valid := true } := update_self i _ _
  have hdisk := ho.stored.self (h.inum i hi hr).2
  have hcontent : content sb d' (s.icache i).inum
      = overwrite (content sb s.disk (s.icache i).inum) off src := ho.content
  refine ⟨⟨hinv, hrefs, by rw [hself], by rw [hself], ?_, ?_, hcontent, ho.stored.files⟩, ?_, ?_⟩
  · exact (congrArg Dinode.info hdisk).trans ho.info
  · exact (congrArg Dinode.nlink hdisk).trans ho.nlink
  · have hlen := congrArg List.length hcontent
    rw [length_content, length_overwrite (by rwa [length_content]), length_content] at hlen
    exact hlen
  · rw [← grownTo_eq]
    exact ho.free

/-- What the loop of `filewrite` does. -/
def LoopResult (sb : Superblock) (devsw : Nat → Device) (fuel : Nat) (s : State) (i off : Nat)
    (src : List UInt8) : Prop :=
  let size := (dinode sb s.disk (s.icache i).inum).size
  let m := storedLen size off src.length
  (∃ s', filewriteLoop sb devsw fuel s i off src = .ok (decide (m = src.length), off + m, s') ∧
      Filewrote sb s i off (src.take m) s' ∧
      held (blocksFor (sizeAfter size off m)) ≤ free sb s.disk + held (blocksFor size)) ∨
    (filewriteLoop sb devsw fuel s i off src = .error "balloc: out of blocks" ∧
      free sb s.disk + held (blocksFor size) < held (blocksFor (sizeAfter size off m)))

omit h hi hr in
theorem loopResult_idle (hm : storedLen (dinode sb s.disk (s.icache i).inum).size off
      src.length = 0) (hrun : filewriteLoop sb devsw fuel s i off src
      = .ok (decide (0 = src.length), off, s')) (hw : Filewrote sb s i off [] s') :
    LoopResult sb devsw fuel s i off src := by
  unfold LoopResult
  dsimp only
  rw [hm]
  exact .inl ⟨s', hrun, hw, Nat.le_add_left _ _⟩

end Slot

/-- A piece that is stored, and then the others. -/
theorem LoopResult.cons {n1 : Nat} {s₁ : State} (hsrc : src ≠ [])
    (hn1 : n1 = min src.length filewriteMax) (hpos : 0 < n1)
    (hfit : Fitting (dinode sb s.disk (s.icache i).inum).size off n1)
    (hm : storedLen (dinode sb s.disk (s.icache i).inum).size off src.length
      = n1 + storedLen (max (dinode sb s.disk (s.icache i).inum).size (off + n1)) (off + n1)
          (src.length - n1))
    (hw : write sb devsw s.beginOp i off (src.take n1) = .ok ((n1 : Int), s₁))
    (hone : Filewrote sb s i off (src.take n1) s₁)
    (hsize : (dinode sb s₁.disk (s.icache i).inum).size
      = max (dinode sb s.disk (s.icache i).inum).size (off + n1))
    (hfree : free sb s₁.disk
        + held (blocksFor (max (dinode sb s.disk (s.icache i).inum).size (off + n1)))
      = free sb s.disk + held (blocksFor (dinode sb s.disk (s.icache i).inum).size))
    (hrest : LoopResult sb devsw fuel s₁ i (off + n1) (src.drop n1)) :
    LoopResult sb devsw (fuel + 1) s i off src := by
  have htake : (src.take n1).length = n1 := by
    rw [List.length_take]
    omega
  have hmod : (off + n1) % 2 ^ 32 = off + n1 := Nat.mod_eq_of_lt hfit.lt
  have hstep : filewriteLoop sb devsw (fuel + 1) s i off src
      = filewriteLoop sb devsw fuel s₁ i (off + n1) (src.drop n1) := by
    rw [filewriteLoop_piece hsrc hn1 hw, if_neg (by omega), if_neg (by simp), hmod]
  unfold LoopResult at hrest ⊢
  dsimp only at hrest ⊢
  rw [hone.inum, hsize, List.length_drop] at hrest
  rw [hm]
  generalize storedLen _ (off + n1) (src.length - n1) = m at hrest ⊢
  have hafter : sizeAfter _ (off + n1) m = sizeAfter _ off (n1 + m) :=
    sizeAfter_add (dinode sb s.disk (s.icache i).inum).size off m hpos
  rw [hafter] at hrest
  rcases hrest with ⟨s', hrun, hmore, hroom⟩ | ⟨hrun, hroom⟩
  · refine .inl ⟨s', ?_, ?_, by omega⟩
    · have hall : decide (m = src.length - n1) = decide (n1 + m = src.length) := by
        rw [decide_eq_decide]
        omega
      rw [hstep, hrun, hall, Nat.add_assoc]
    · rw [List.take_add]
      refine hone.trans ?_ hfit.1
      rwa [htake]
  · exact .inr ⟨hstep.trans hrun, by omega⟩

theorem Inv.filewriteLoop_spec (h : Inv sb s) (hi : i < ninode) (hr : 0 < (s.icache i).ref)
    (hdev : (dinode sb s.disk (s.icache i).inum).type ≠ tDev) (hfuel : src.length ≤ fuel)
    (hoff : off < 2 ^ 32) : LoopResult sb devsw fuel s i off src := by
  induction fuel generalizing s off src with
  | zero =>
      obtain rfl := List.length_eq_zero_iff.mp (Nat.le_zero.mp hfuel)
      exact loopResult_idle storedLen_zero rfl (.none h rfl rfl rfl rfl)
  | succ fuel ih =>
      by_cases hsrc : src = []
      · subst hsrc
        exact loopResult_idle storedLen_zero rfl (.none h rfl rfl rfl rfl)
      -- The first piece; the others are left to the induction.
      have hlen := List.length_pos_iff.mpr hsrc
      obtain ⟨n1, hn1⟩ : ∃ n1, n1 = min src.length filewriteMax := ⟨_, rfl⟩
      have htake : (src.take n1).length = n1 := by
        rw [List.length_take]
        omega
      have hmax := filewriteMax_eq
      rcases storedLen_piece (dinode sb s.disk (s.icache i).inum).size off hlen hn1 with
        ⟨hpos, hfit, hm⟩ | ⟨hbad, hm⟩
      · have hpiece : Fitting (dinode sb s.disk (s.icache i).inum).size off
            (src.take n1).length := by rwa [htake]
        rcases h.beginOp.write_spec hi hr devsw hdev hpiece with
          ⟨ip', d', hw, hinv, hrefs, ho⟩ | ⟨hw, hroom⟩
        · obtain ⟨hone, hsize, hfree⟩ := h.filewrote_piece hi hr rfl hinv hrefs hfit.1 ho
          rw [htake] at hw hsize hfree
          refine .cons hsrc hn1 hpos hfit hm hw hone hsize hfree (ih hinv ?_ ?_ ?_ ?_)
          · rw [hone.ref]
            exact hr
          · rw [hone.inum]
            intro heq
            exact hdev ((type_eq_of_info hone.info).symm.trans heq)
          · rw [List.length_drop]
            omega
          · exact hfit.lt
        -- Without room for this piece there is none for all of them.
        · have hless : free sb s.disk + held (blocksFor (dinode sb s.disk (s.icache i).inum).size)
              < held (grownTo (dinode sb s.disk (s.icache i).inum).size off
                (src.take n1).length) := hroom
          refine .inr ⟨filewriteLoop_panic hsrc hn1 hw, Nat.lt_of_lt_of_le hless (held_mono ?_)⟩
          rw [htake, hm, ← sizeAfter_add _ _ _ hpos, grownTo_eq]
          unfold sizeAfter
          split
          · exact Nat.le_refl _
          · exact Nat.div_le_div_right (Nat.add_le_add_right (Nat.le_max_left _ _) _)
      -- A piece that is refused is the last one.
      · have hw : write sb devsw s.beginOp i off (src.take n1) = .ok (-1, _) :=
          h.beginOp.write_idle hi hr (writei_refused hdev hoff (by rw [htake, hn1]; omega)
            (by rwa [htake]))
        refine loopResult_idle hm ?_ (h.filewrote_none hi hr)
        have hne : decide (0 = src.length) = false := decide_eq_false (by omega)
        rw [filewriteLoop_piece hsrc hn1 hw, hne]
        rfl

/-- What `filewrite` returns and stores. A write over the end of the largest file stores the
pieces that fit, and then it fails. -/
theorem filewrite_answers : (system sb devsw).Invariant fun s => ∀ i off (src : List UInt8),
    Referenced s i → off < 2 ^ 32 → (dinode sb s.disk (s.icache i).inum).type ≠ tDev →
    let size := (dinode sb s.disk (s.icache i).inum).size
    let m := storedLen size off src.length
    (∃ s', filewrite sb devsw s i off src
          = .ok (if m = src.length then (src.length : Int) else -1, off + m, s') ∧
        Filewrote sb s i off (src.take m) s' ∧
        held (blocksFor (sizeAfter size off m)) ≤ free sb s.disk + held (blocksFor size)) ∨
      (filewrite sb devsw s i off src = .error "balloc: out of blocks" ∧
        free sb s.disk + held (blocksFor size) < held (blocksFor (sizeAfter size off m))) := by
  rintro s hs i off src ⟨hi, hr⟩ hoff hdev
  dsimp only
  unfold filewrite
  rcases (inv_reachable s hs).filewriteLoop_spec hi hr hdev (Nat.le_refl src.length) hoff
    with ⟨s', hrun, hw, hroom⟩ | ⟨hrun, hroom⟩
  · refine .inl ⟨s', ?_, hw, hroom⟩
    rw [hrun, ok_bind]
    dsimp only
    simp only [decide_eq_true_eq]
  · exact .inr ⟨by rw [hrun]; rfl, hroom⟩

/-- A byte behind the two of a file. -/
theorem filewrite_answers_written : ∃ s s' : State, content small s.disk 1 = [104, 105] ∧
    filewrite small noDevice s 0 2 [106] = .ok (1, 3, s') ∧ Filewrote small s 0 2 [106] s' := by
  obtain ⟨s, hs, hcontent, hinum, href, htype, hsize, hfree⟩ :=
    (system small noDevice).exists_of_run
      (P := fun s => content small s.disk 1 = [104, 105] ∧ (s.icache 0).inum = 1 ∧
        Referenced s 0 ∧ (dinode small s.disk 1).type = 2 ∧ (dinode small s.disk 1).size = 2 ∧
        free small s.disk = 5) formatted written formatted_init (by decide +kernel)
  have hanswer := filewrite_answers s hs 0 2 [106] href (by decide)
  rw [hinum, htype, hsize, hfree] at hanswer
  rcases hanswer (by decide) with ⟨s', hrun, hwrote, -⟩ | ⟨-, hroom⟩
  · exact ⟨s, s', hcontent, hrun, hwrote⟩
  · exact absurd hroom (by decide)

end Os377.Xv6.Filesys
