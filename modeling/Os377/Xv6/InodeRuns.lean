import Os377.Xv6.InodeCalls

/-!
# Runs of the inode layer

Any sequence of the calls, with restarts in between that forget the inodes in memory. The
disk stays consistent (`disk_consistent`) and no block of it is lost (`blocks_counted`), and
the copies in memory stay those on the disk (`copies_current`). Every call does to the files
what it should (`calls_refine`, `io_answers`) and panics for want of room only
(`panics_scarce`), and without a restart no inode is lost (`none_lost`).
-/

namespace Os377.Xv6.Filesys

open Os377.Lib Function

inductive Call where
  | create (type major minor : Nat)
  | iget (inum : Nat)
  | idup (i : Nat)
  | iput (i : Nat)
  | link (i nlink : Nat)
  | read (i off n : Nat)
  | write (i off : Nat) (src : List UInt8)

inductive Reply where
  | done
  | inode (i : Nat)
  | read (r : Int) (bytes : List UInt8)
  | written (r : Int)

section Machine

variable (sb : Superblock) (devsw : Nat → Device)

def call (s : State) : Call → Except String (Reply × State)
  | .create type major minor => do
      let (i, s) ← create sb s type major minor
      .ok (.inode i, s)
  | .iget inum => do
      let (i, s) ← iget s inum
      .ok (.inode i, s)
  | .idup i => .ok (.done, idup s i)
  | .iput i => do
      let s ← iput sb s i
      .ok (.done, s)
  | .link i nlink => do
      let s ← setLinks sb s i nlink
      .ok (.done, s)
  | .read i off n => do
      let ((r, bytes), s) ← read sb devsw s i off n
      .ok (.read r bytes, s)
  | .write i off src => do
      let (r, s) ← write sb devsw s i off src
      .ok (.written r, s)

/-- The slot `i` is one that the caller has a reference to. -/
def Referenced (s : State) (i : Nat) : Prop := i < ninode ∧ 0 < (s.icache i).ref

/-- What the callers keep to: a directory only names inodes with links, a pointer to an
inode has a reference, and the arguments fit their types. -/
def Allowed (s : State) : Call → Prop
  | .create type major minor =>
      type ≠ 0 ∧ type < 2 ^ 16 ∧ major < 2 ^ 16 ∧ minor < 2 ^ 16
  | .iget inum => 0 < inum ∧ inum < sb.ninodes ∧ (dinode sb s.disk inum).nlink ≠ 0
  | .idup i => Referenced s i
  | .iput i => Referenced s i
  | .link i nlink => Referenced s i ∧ nlink < 2 ^ 16
  | .read i off n => Referenced s i ∧ off < 2 ^ 32 ∧ n < 2 ^ 32
  | .write i off src => Referenced s i ∧ off < 2 ^ 32 ∧ src.length < 2 ^ 32

instance (s : State) (i : Nat) : Decidable (Referenced s i) := inferInstanceAs (Decidable (_ ∧ _))

instance (s : State) : (c : Call) → Decidable (Allowed sb s c)
  | .create _ _ _ => inferInstanceAs (Decidable (_ ∧ _))
  | .iget _ => inferInstanceAs (Decidable (_ ∧ _))
  | .idup _ => inferInstanceAs (Decidable (_ ∧ _))
  | .iput _ => inferInstanceAs (Decidable (_ ∧ _))
  | .link _ _ => inferInstanceAs (Decidable (_ ∧ _))
  | .read _ _ _ => inferInstanceAs (Decidable (_ ∧ _))
  | .write _ _ _ => inferInstanceAs (Decidable (_ ∧ _))

inductive Label where
  | call (c : Call)
  | restart

/-- The inodes in memory are gone. -/
def restarted (s : State) : State :=
  { s with icache := fun i => { s.icache i with ref := 0 } }

def next (s : State) : Label → Option State
  | .call c => if Allowed sb s c then (call sb devsw s c).toOption.map (·.2) else none
  | .restart => some (restarted s)

/-- The machine, started on a consistent disk on which every inode in use has a link. -/
def system : TSys State Label where
  init s := Consistent sb s.disk ∧
    (∀ n < sb.ninodes, (dinode sb s.disk n).type ≠ 0 → (dinode sb s.disk n).nlink ≠ 0) ∧
    ∀ i, (s.icache i).ref = 0
  next := next sb devsw

/-- What a call is to the files. Devices are not files, and a call that is refused is
nothing. -/
def event (s : State) (c : Call) (r : Reply) (s' : State) : Option (Files.Event Nat Info UInt8) :=
  match c, r with
  | .create type major minor, .inode i => some (.create (s'.icache i).inum (type, major, minor))
  | .iget inum, _ => some (.get inum)
  | .idup i, _ => some (.get (s.icache i).inum)
  | .iput i, _ => some (.put (s.icache i).inum)
  | .link i nlink, _ => some (.link (s.icache i).inum nlink)
  | .read i off n, .read r bytes =>
      if (dinode sb s.disk (s.icache i).inum).type = tDev ∨ r = -1 then none
      else some (.read (s.icache i).inum off n bytes)
  | .write i off src, .written r =>
      if (dinode sb s.disk (s.icache i).inum).type = tDev ∨ r = -1 then none
      else some (.write (s.icache i).inum off src)
  | _, _ => none

/-- What the event of a call makes of the files and the references. -/
def Follows (s : State) (c : Call) (r : Reply) (s' : State) : Prop :=
  match event sb s c r s' with
  | some e => Files.next (world sb s) e = some (world sb s')
  | none => world sb s' = world sb s

end Machine

variable {sb : Superblock} {devsw : Nat → Device} {s s' : State} {c : Call} {r : Reply}
variable {i n off len : Nat} {src : List UInt8}

/-! ## One call -/

theorem Follows.of_none (he : event sb s c r s' = none) (hw : world sb s' = world sb s) :
    Follows sb s c r s' := by
  unfold Follows
  rw [he]
  exact hw

theorem Follows.of_some {e : Files.Event Nat Info UInt8} (he : event sb s c r s' = some e)
    (hn : Files.next (world sb s) e = some (world sb s')) : Follows sb s c r s' := by
  unfold Follows
  rw [he]
  exact hn

theorem Inv.refs_pos (h : Inv sb s) (hi : i < ninode) (hr : 0 < (s.icache i).ref) :
    0 < refs s (s.icache i).inum := by
  rw [h.refs_eq hi hr]
  exact hr

theorem Inv.world_locked (h : Inv sb s) (hi : i < ninode) (hr : 0 < (s.icache i).ref) :
    world sb (locked sb s i) = world sb s := by
  unfold world
  rw [(h.keep_locked hi hr).2]
  rfl

theorem call_create {type major minor : Nat} (h : Inv sb s)
    (ha : Allowed sb s (.create type major minor))
    (hc : call sb devsw s (.create type major minor) = .ok (r, s')) :
    Inv sb s' ∧ Follows sb s (.create type major minor) r s' := by
  obtain ⟨ht0, ht, hmajor, hminor⟩ := ha
  rcases h.create_spec ht ht0 hmajor hminor with ⟨i, s₁, hrun, hmade⟩ | ⟨hrun, -⟩ | ⟨hrun, -⟩
  · rw [call, hrun] at hc
    cases hc
    exact ⟨hmade.inv, .of_some rfl
      (Files.next_create hmade.was_free hmade.unreferenced hmade.files hmade.refs)⟩
  · rw [call, hrun] at hc
    cases hc
  · rw [call, hrun] at hc
    cases hc

theorem call_iget (h : Inv sb s) (ha : Allowed sb s (.iget n))
    (hc : call sb devsw s (.iget n) = .ok (r, s')) : Inv sb s' ∧ Follows sb s (.iget n) r s' := by
  obtain ⟨h0, hn, hl⟩ := ha
  rcases iget_got n h.distinct with ⟨i, s₁, hrun, hg⟩ | ⟨hrun, -⟩
  · rw [call, hrun] at hc
    cases hc
    have ht : (dinode sb s.disk n).type ≠ 0 := fun ht => hl (h.disk.unused n hn ht).2
    have hfile : files sb s.disk n
        = some ⟨(dinode sb s.disk n).info, (dinode sb s.disk n).nlink, content sb s.disk n⟩ :=
      if_pos ⟨hn, ht⟩
    exact ⟨h.iget_inv hg h0 hn hl, .of_some rfl (Files.next_get hfile
      (.inl (Nat.pos_of_ne_zero hl)) (congrArg (files sb) hg.disk) hg.refs)⟩
  · rw [call, hrun] at hc
    cases hc

theorem call_idup (h : Inv sb s) (ha : Allowed sb s (.idup i))
    (hc : call sb devsw s (.idup i) = .ok (r, s')) : Inv sb s' ∧ Follows sb s (.idup i) r s' := by
  obtain ⟨hi, hr⟩ := ha
  obtain ⟨hinv, hrefs⟩ := h.idup_spec hi hr
  rw [call] at hc
  cases hc
  exact ⟨hinv, .of_some rfl
    (Files.next_get (h.file hi hr) (.inr (h.refs_pos hi hr)) rfl hrefs)⟩

theorem call_iput (h : Inv sb s) (ha : Allowed sb s (.iput i))
    (hc : call sb devsw s (.iput i) = .ok (r, s')) : Inv sb s' ∧ Follows sb s (.iput i) r s' := by
  obtain ⟨hi, hr⟩ := ha
  obtain ⟨s₁, hrun, hinv, hrefs, hfiles, -⟩ := h.iput_spec hi hr
  rw [call, hrun] at hc
  cases hc
  rw [← h.refs_eq hi hr] at hfiles
  exact ⟨hinv, .of_some rfl
    (Files.next_put (h.file hi hr) (h.refs_pos hi hr) hfiles hrefs)⟩

theorem call_link (h : Inv sb s) (ha : Allowed sb s (.link i n))
    (hc : call sb devsw s (.link i n) = .ok (r, s')) :
    Inv sb s' ∧ Follows sb s (.link i n) r s' := by
  obtain ⟨⟨hi, hr⟩, hn⟩ := ha
  obtain ⟨s₁, hrun, hinv, hrefs, hfiles⟩ := h.setLinks_spec hi hr hn
  rw [call, hrun] at hc
  cases hc
  exact ⟨hinv, .of_some rfl
    (Files.next_link (h.file hi hr) (h.refs_pos hi hr) hfiles hrefs)⟩

/-- A read of a file that does not fail. -/
theorem readAnswer_file {ip : Dinode} {bytes result : List UInt8} {res : Int}
    (hdev : ip.type ≠ tDev) (hres : res ≠ -1)
    (h : readAnswer devsw ip bytes off len = (res, result)) :
    off ≤ bytes.length ∧ result = (bytes.drop off).take len := by
  unfold readAnswer at h
  rw [if_neg hdev] at h
  split at h
  · cases h
    exact absurd rfl hres
  · cases h
    exact ⟨by omega, rfl⟩

theorem call_read (h : Inv sb s) (ha : Allowed sb s (.read i off len))
    (hc : call sb devsw s (.read i off len) = .ok (r, s')) :
    Inv sb s' ∧ Follows sb s (.read i off len) r s' := by
  obtain ⟨⟨hi, hr⟩, hoff, hlen⟩ := ha
  have hrun := h.read_spec hi hr devsw hoff hlen
  cases hans : readAnswer devsw (dinode sb s.disk (s.icache i).inum)
    (content sb s.disk (s.icache i).inum) off len with
  | mk res result =>
      rw [hans] at hrun
      rw [call, hrun] at hc
      cases hc
      refine ⟨(h.keep_locked hi hr).1, ?_⟩
      by_cases hnone : (dinode sb s.disk (s.icache i).inum).type = tDev ∨ res = -1
      · exact .of_none (if_pos hnone) (h.world_locked hi hr)
      · obtain ⟨hdev, hres⟩ := not_or.mp hnone
        obtain ⟨hle, hresult⟩ := readAnswer_file hdev hres hans
        refine .of_some (if_neg hnone) ?_
        rw [h.world_locked hi hr]
        exact Files.next_read (h.file hi hr) (h.refs_pos hi hr) hle hresult

theorem call_write (h : Inv sb s) (ha : Allowed sb s (.write i off src))
    (hc : call sb devsw s (.write i off src) = .ok (r, s')) :
    Inv sb s' ∧ Follows sb s (.write i off src) r s' := by
  obtain ⟨⟨hi, hr⟩, hoff, hlen⟩ := ha
  -- A device, a file that takes the bytes and one that refuses them.
  by_cases hdev : (dinode sb s.disk (s.icache i).inum).type = tDev
  · have hrun : write sb devsw s i off src = .ok (_, _) :=
      h.write_idle hi hr (writei_device hdev)
    rw [call, hrun] at hc
    cases hc
    exact ⟨(h.keep_locked hi hr).1, .of_none (if_pos (.inl hdev)) (h.world_locked hi hr)⟩
  by_cases hfit : Fitting (dinode sb s.disk (s.icache i).inum).size off src.length
  · rcases h.write_spec hi hr devsw hdev hfit with ⟨ip', s₁, hrun, hinv, hrefs, ho⟩ | ⟨hrun, -⟩
    · rw [call, hrun] at hc
      cases hc
      have hsome : ¬ ((dinode sb s.disk (s.icache i).inum).type = tDev ∨
          ((src.length : Nat) : Int) = -1) := by
        rintro (h1 | h1)
        · exact hdev h1
        · omega
      have htype : ip'.type ≠ 0 := by
        rw [type_eq_of_info ho.info]
        exact h.inuse i hi hr
      have hfiles := ho.stored.files_eq (h.inum i hi hr).2 htype
      rw [ho.content, ho.info, ho.nlink] at hfiles
      have hle : off ≤ (content sb s.disk (s.icache i).inum).length := by
        rw [length_content]
        exact hfit.1
      exact ⟨hinv, .of_some (if_neg hsome)
        (Files.next_write (h.file hi hr) (h.refs_pos hi hr) hle hfiles hrefs)⟩
    · rw [call, hrun] at hc
      cases hc
  · have hrun : write sb devsw s i off src = .ok (-1, _) :=
      h.write_idle hi hr (writei_refused hdev hoff hlen hfit)
    rw [call, hrun] at hc
    cases hc
    exact ⟨(h.keep_locked hi hr).1, .of_none (if_pos (.inr rfl)) (h.world_locked hi hr)⟩

/-- A call keeps the invariant, and does to the files what its event says. -/
theorem call_follows (h : Inv sb s) (ha : Allowed sb s c)
    (hc : call sb devsw s c = .ok (r, s')) : Inv sb s' ∧ Follows sb s c r s' := by
  cases c with
  | create type major minor => exact call_create h ha hc
  | iget inum => exact call_iget h ha hc
  | idup i => exact call_idup h ha hc
  | iput i => exact call_iput h ha hc
  | link i nlink => exact call_link h ha hc
  | read i off n => exact call_read h ha hc
  | write i off src => exact call_write h ha hc

/-! ## Runs -/

theorem Inv.restarted (h : Inv sb s) : Inv sb (restarted s) := by
  have hnone : ∀ i, ¬ 0 < ((Filesys.restarted s).icache i).ref := fun i => Nat.lt_irrefl 0
  exact ⟨h.disk, fun i _ hr => absurd hr (hnone i), fun i _ j _ hr => absurd hr (hnone i),
    fun i _ hr => absurd hr (hnone i), fun i _ hr => absurd hr (hnone i),
    fun i _ hr => absurd hr (hnone i)⟩

theorem inv_init (h : (system sb devsw).init s) : Inv sb s := by
  obtain ⟨hdisk, -, hzero⟩ := h
  have hnone : ∀ i, ¬ 0 < (s.icache i).ref := fun i hr => by
    rw [hzero i] at hr
    exact Nat.lt_irrefl 0 hr
  exact ⟨hdisk, fun i _ hr => absurd hr (hnone i), fun i _ j _ hr => absurd hr (hnone i),
    fun i _ hr => absurd hr (hnone i), fun i _ hr => absurd hr (hnone i),
    fun i _ hr => absurd hr (hnone i)⟩

/-- The machine can start on such a disk. -/
theorem init_blank (hzero : ∀ n < sb.ninodes, ∀ x, s.disk.data (iblock sb n) x = 0)
    (hbits : ∀ b < sb.size, Used sb s.disk b ↔ b < sb.nmeta) (href : ∀ i, (s.icache i).ref = 0) :
    (system sb devsw).init s := by
  refine ⟨Consistent.blank hzero hbits, fun n hn ht => ?_, href⟩
  rw [dinode, loadDinode_zero (hzero n hn)] at ht
  exact absurd rfl ht

theorem next_call (hn : (system sb devsw).next s (.call c) = some s') :
    Allowed sb s c ∧ ∃ r, call sb devsw s c = .ok (r, s') := by
  obtain ⟨ha, hn⟩ := Option.ite_none_right_eq_some.mp hn
  refine ⟨ha, ?_⟩
  cases hc : call sb devsw s c with
  | error e =>
      rw [hc] at hn
      cases hn
  | ok x =>
      rw [hc] at hn
      obtain rfl := Option.some.inj hn
      exact ⟨x.1, rfl⟩

theorem inv_reachable : (system sb devsw).Invariant (Inv sb) := by
  refine TSys.Inductive.invariant ⟨fun s => inv_init, fun s a s' h _ hn => ?_⟩
  cases a with
  | call c =>
      obtain ⟨ha, r, hc⟩ := next_call hn
      exact (call_follows h ha hc).1
  | restart =>
      obtain rfl := Option.some.inj hn
      exact h.restarted

/-! ### A small disk -/

/-- Six data blocks, and one inode beside the inode 0. -/
def small : Superblock where
  size := 40
  nblocks := 6
  ninodes := 2
  nlog := 30
  logstart := 2
  inodestart := 32
  bmapstart := 33
  inodes_before := by decide
  bitmap_before := by decide
  size_lt := by decide

def noDevice (_ : Nat) : Device := ⟨none, none⟩

/-- The bits of the 34 blocks before the data are set. -/
def formatted : State where
  disk := ⟨fun b x => if b = 33 then (if x < 4 then 255 else if x = 4 then 3 else 0) else 0, []⟩
  icache _ := ⟨0, 0, false, ⟨0, 0, 0, 0, 0, fun _ => 0⟩⟩

theorem formatted_init : (system small noDevice).init formatted := by
  refine init_blank (fun n hn x => ?_) (by decide) fun _ => rfl
  match n, hn with
  | 0, _ => rfl
  | 1, _ => rfl

/-- A new file of two bytes. -/
def written : List Label := [.call (.create 2 0 0), .call (.write 0 0 [104, 105])]

/-! ### What holds in every run -/

/-- In every run the bitmap marks the blocks that some inode has and those before them, no
block belongs to two inodes or twice to one, and an inode has the blocks that its size
needs. -/
theorem disk_consistent : (system sb devsw).Invariant fun s =>
    (∀ b < sb.size, Used sb s.disk b ↔
      b < sb.nmeta ∨ ∃ n < sb.ninodes, ∃ k, ptr s.disk (dinode sb s.disk n) k = b) ∧
    (∀ n < sb.ninodes, ∀ k, ptr s.disk (dinode sb s.disk n) k ≠ 0 →
      sb.nmeta ≤ ptr s.disk (dinode sb s.disk n) k ∧
      ptr s.disk (dinode sb s.disk n) k < sb.size ∧
      ∀ m < sb.ninodes, ∀ j,
        ptr s.disk (dinode sb s.disk m) j = ptr s.disk (dinode sb s.disk n) k → m = n ∧ j = k) ∧
    ∀ n < sb.ninodes,
      Filled s.disk (dinode sb s.disk n) (blocksFor (dinode sb s.disk n).size) := by
  intro s hs
  obtain ⟨hgood, hfilled, -⟩ := (inv_reachable s hs).disk
  refine ⟨fun b hb => ?_, fun n hn k hk => ?_, hfilled⟩
  · rw [hgood.placed.used_iff b hb]
    constructor
    · rintro (hr | ⟨⟨n, k⟩, hnk⟩)
      · exact .inl hr
      · by_cases hn : n < sb.ninodes
        · exact .inr ⟨n, hn, k, (if_pos hn).symm.trans hnk⟩
        · have h0 : 0 = b := (if_neg hn).symm.trans hnk
          exact .inl (h0 ▸ hgood.placed.zero)
    · rintro (hr | ⟨n, hn, k, hnk⟩)
      · exact .inl hr
      · exact .inr ⟨(n, k), (if_pos hn).trans hnk⟩
  · exact ⟨hgood.ptr_ge hn hk, hgood.ptr_lt hn hk,
      fun m hm j heq => hgood.ptr_inj hm hn heq (by rw [heq]; exact hk)⟩

/-- The first data block belongs to the file. -/
theorem disk_consistent_written : ∃ s : State, ptr s.disk (dinode small s.disk 1) 0 = 34 ∧
    Used small s.disk 34 := by
  obtain ⟨s, hs, hptr⟩ := (system small noDevice).exists_of_run
    (P := fun s => ptr s.disk (dinode small s.disk 1) 0 = 34) formatted written formatted_init
    (by decide +kernel)
  exact ⟨s, hptr, ((disk_consistent s hs).1 34 (by decide)).mpr (.inr ⟨1, by decide, 0, hptr⟩)⟩

/-- No block of data leaks: it is free, or an inode in the table has it. -/
theorem blocks_counted : (system sb devsw).Invariant fun s =>
    free sb s.disk + ∑ n ∈ Finset.range sb.ninodes, held (blocksFor (dinode sb s.disk n).size)
      = sb.nblocks :=
  fun s hs => (inv_reachable s hs).disk.free_add_held

/-- Five blocks are left. -/
theorem blocks_counted_written : ∃ s : State, (dinode small s.disk 1).size = 2 ∧
    free small s.disk = 5 := by
  obtain ⟨s, hs, hzero, hone⟩ := (system small noDevice).exists_of_run
    (P := fun s => (dinode small s.disk 0).size = 0 ∧ (dinode small s.disk 1).size = 2) formatted
    written formatted_init (by decide +kernel)
  have hsum := blocks_counted s hs
  have hrange : small.ninodes = 2 := rfl
  rw [hrange, Finset.sum_range_succ, Finset.sum_range_one, hzero, hone] at hsum
  exact ⟨s, hone, Nat.add_right_cancel hsum⟩

/-- An inode has one copy in memory at most, of an inode in use, and when it has been read
it is what is on the disk. -/
theorem copies_current : (system sb devsw).Invariant fun s =>
    ∀ i < ninode, 0 < (s.icache i).ref →
      (dinode sb s.disk (s.icache i).inum).type ≠ 0 ∧
      ((s.icache i).valid = true → (s.icache i).copy = dinode sb s.disk (s.icache i).inum) ∧
      ∀ j < ninode, 0 < (s.icache j).ref → (s.icache j).inum = (s.icache i).inum → j = i := by
  intro s hs i hi hr
  have h := inv_reachable s hs
  exact ⟨h.inuse i hi hr, h.valid i hi hr, fun j hj hrj heq => h.distinct j hj i hi hrj hr heq⟩

/-- The file has been read from the disk, and written since. -/
theorem copies_current_written : ∃ s : State, content small s.disk 1 = [104, 105] ∧
    (s.icache 0).copy = dinode small s.disk 1 := by
  obtain ⟨s, hs, hcontent, hinum, href, hvalid⟩ := (system small noDevice).exists_of_run
    (P := fun s => content small s.disk 1 = [104, 105] ∧ (s.icache 0).inum = 1 ∧
      0 < (s.icache 0).ref ∧ (s.icache 0).valid = true) formatted written formatted_init
    (by decide +kernel)
  obtain ⟨-, hcopy, -⟩ := copies_current s hs 0 (by decide) href
  exact ⟨s, hcontent, hinum ▸ hcopy hvalid⟩

/-- Every call does to the files what its event says, a restart forgets the references. -/
theorem calls_refine : (system sb devsw).Invariant fun s =>
    (∀ c r s', Allowed sb s c → call sb devsw s c = .ok (r, s') → Follows sb s c r s') ∧
      Files.next (world sb s) .restart = some (world sb (restarted s)) := by
  intro s hs
  refine ⟨fun c r s' ha hc => (call_follows (inv_reachable s hs) ha hc).2, ?_⟩
  have hrefs : refs (restarted s) = fun _ => 0 := by
    funext n
    exact refs_eq_zero fun i _ _ => rfl
  unfold Files.next world
  rw [hrefs]
  rfl

/-- The file has no link any more, and its last reference goes. -/
theorem calls_refine_written : ∃ s s' : State, content small s.disk 1 = [104, 105] ∧
    call small noDevice s (.iput 0) = .ok (.done, s') ∧
    Files.next (world small s) (.put 1) = some (world small s') := by
  obtain ⟨s, hs, hcontent, hinum, hallowed, hok⟩ := (system small noDevice).exists_of_run
    (P := fun s => content small s.disk 1 = [104, 105] ∧ (s.icache 0).inum = 1 ∧
      Allowed small s (.iput 0) ∧ (iput small s 0).toOption.isSome = true) formatted
    (written ++ [.call (.link 0 0)]) formatted_init (by decide +kernel)
  cases hiput : iput small s 0 with
  | error e =>
      rw [hiput] at hok
      cases hok
  | ok s' =>
      have hcall : call small noDevice s (.iput 0) = .ok (.done, s') := by
        rw [call, hiput]
        rfl
      have hfollows := (calls_refine s hs).1 (.iput 0) .done s' hallowed hcall
      change Files.next (world small s) (.put (s.icache 0).inum) = some (world small s') at hfollows
      exact ⟨s, s', hcontent, hcall, hinum ▸ hfollows⟩

/-- What reading and writing a file returns. -/
theorem io_answers : (system sb devsw).Invariant fun s => ∀ i off, Referenced s i → off < 2 ^ 32 →
    (∀ n < 2 ^ 32, read sb devsw s i off n = .ok (readAnswer devsw
      (dinode sb s.disk (s.icache i).inum) (content sb s.disk (s.icache i).inum) off n,
      locked sb s i)) ∧
    ((dinode sb s.disk (s.icache i).inum).type ≠ tDev → ∀ src : List UInt8, src.length < 2 ^ 32 →
      (¬ Fitting (dinode sb s.disk (s.icache i).inum).size off src.length →
        write sb devsw s i off src = .ok (-1, locked sb s i)) ∧
      (Fitting (dinode sb s.disk (s.icache i).inum).size off src.length →
        ((∃ s', write sb devsw s i off src = .ok (src.length, s')) ↔
          held (grownTo (dinode sb s.disk (s.icache i).inum).size off src.length)
            ≤ free sb s.disk + held (blocksFor (dinode sb s.disk (s.icache i).inum).size)))) := by
  rintro s hs i off ⟨hi, hr⟩ hoff
  have h := inv_reachable s hs
  refine ⟨fun n hn => h.read_spec hi hr devsw hoff hn, fun hdev src hlen =>
    ⟨fun hbad => h.write_idle hi hr (writei_refused hdev hoff hlen hbad), fun hfit => ?_⟩⟩
  rcases h.write_spec hi hr devsw hdev hfit with ⟨ip', d', hrun, -, -, ho⟩ | ⟨hrun, hroom⟩
  · have hfree := ho.free
    exact ⟨fun _ => by omega, fun _ => ⟨_, hrun⟩⟩
  · refine ⟨?_, fun hle => absurd hle (by omega)⟩
    rintro ⟨s', hok⟩
    rw [hrun] at hok
    cases hok

/-- The second byte of two, and a write that needs one block more than there is. -/
theorem io_answers_written : ∃ s : State, content small s.disk 1 = [104, 105] ∧
    read small noDevice s 0 1 5 = .ok ((1, [105]), locked small s 0) ∧
    ¬ ∃ s', write small noDevice s 0 2 (List.replicate 3071 0) = .ok (3071, s') := by
  obtain ⟨s, hs, hcontent, hinum, href, htype, hsize, hfree⟩ :=
    (system small noDevice).exists_of_run
      (P := fun s => content small s.disk 1 = [104, 105] ∧ (s.icache 0).inum = 1 ∧
        Referenced s 0 ∧ (dinode small s.disk 1).type = 2 ∧ (dinode small s.disk 1).size = 2 ∧
        free small s.disk = 5) formatted written formatted_init (by decide +kernel)
  obtain ⟨hread, -⟩ := io_answers s hs 0 1 href (by decide)
  refine ⟨s, hcontent, ?_, ?_⟩
  · rw [hread 5 (by decide), hinum, hcontent, readAnswer, htype]
    rfl
  · obtain ⟨-, hwrite⟩ := io_answers s hs 0 2 href (by decide)
    rw [hinum, htype, hsize, hfree] at hwrite
    have hlen : (List.replicate 3071 (0 : UInt8)).length = 3071 := List.length_replicate
    have hlt : (List.replicate 3071 (0 : UInt8)).length < 2 ^ 32 := hlen.trans_lt (by decide)
    obtain ⟨-, hiff⟩ := hwrite (by decide) _ hlt
    rw [hlen] at hiff
    exact fun hok => absurd ((hiff ⟨by decide, by decide⟩).mp hok) (by decide)

/-- What a panic of a call is for. -/
inductive Scarce (sb : Superblock) (s : State) : Call → String → Prop
  | inodes {type major minor : Nat} :
      (∀ n, 0 < n → n < sb.ninodes → files sb s.disk n ≠ none) →
      Scarce sb s (.create type major minor) "ialloc: no inodes"
  | newSlot {type major minor : Nat} : (∀ i < ninode, 0 < (s.icache i).ref) →
      Scarce sb s (.create type major minor) "iget: no inodes"
  | slots {inum : Nat} : (∀ i < ninode, 0 < (s.icache i).ref) →
      Scarce sb s (.iget inum) "iget: no inodes"
  | blocks {i off : Nat} {src : List UInt8} :
      free sb s.disk + held (blocksFor (dinode sb s.disk (s.icache i).inum).size)
        < held (grownTo (dinode sb s.disk (s.icache i).inum).size off src.length) →
      Scarce sb s (.write i off src) "balloc: out of blocks"

/-- No call panics but for want of inodes, slots or blocks. -/
theorem panics_scarce : (system sb devsw).Invariant fun s =>
    ∀ c e, Allowed sb s c → call sb devsw s c = .error e → Scarce sb s c e := by
  intro s hs c e ha hc
  have h := inv_reachable s hs
  cases c with
  | create type major minor =>
      obtain ⟨ht0, ht, hmajor, hminor⟩ := ha
      rcases h.create_spec ht ht0 hmajor hminor with ⟨i, s₁, hrun, -⟩ | ⟨hrun, hnone⟩ |
        ⟨hrun, hfull⟩
      · rw [call, hrun] at hc
        cases hc
      · rw [call, hrun] at hc
        cases hc
        exact .inodes hnone
      · rw [call, hrun] at hc
        cases hc
        exact .newSlot hfull
  | iget inum =>
      rcases iget_got inum h.distinct with ⟨i, s₁, hrun, -⟩ | ⟨hrun, hfull⟩
      · rw [call, hrun] at hc
        cases hc
      · rw [call, hrun] at hc
        cases hc
        exact .slots hfull
  | idup i =>
      rw [call] at hc
      cases hc
  | iput i =>
      obtain ⟨s₁, hrun, -⟩ := h.iput_spec ha.1 ha.2
      rw [call, hrun] at hc
      cases hc
  | link i nlink =>
      obtain ⟨⟨hi, hr⟩, hn⟩ := ha
      obtain ⟨s₁, hrun, -⟩ := h.setLinks_spec hi hr hn
      rw [call, hrun] at hc
      cases hc
  | read i off n =>
      obtain ⟨⟨hi, hr⟩, hoff, hn⟩ := ha
      rw [call, h.read_spec hi hr devsw hoff hn] at hc
      cases hc
  | write i off src =>
      obtain ⟨⟨hi, hr⟩, hoff, hlen⟩ := ha
      by_cases hdev : (dinode sb s.disk (s.icache i).inum).type = tDev
      · have hrun : write sb devsw s i off src = .ok (_, _) :=
          h.write_idle hi hr (writei_device hdev)
        rw [call, hrun] at hc
        cases hc
      by_cases hfit : Fitting (dinode sb s.disk (s.icache i).inum).size off src.length
      · rcases h.write_spec hi hr devsw hdev hfit with ⟨ip', s₁, hrun, -⟩ | ⟨hrun, hroom⟩
        · rw [call, hrun] at hc
          cases hc
        · rw [call, hrun] at hc
          cases hc
          exact .blocks hroom
      · have hrun : write sb devsw s i off src = .ok (-1, _) :=
          h.write_idle hi hr (writei_refused hdev hoff hlen hfit)
        rw [call, hrun] at hc
        cases hc

/-- A second file in a table for one. -/
theorem panics_scarce_written : ∃ (s : State) (e : String),
    call small noDevice s (.create 2 0 0) = .error e ∧ Scarce small s (.create 2 0 0) e := by
  obtain ⟨s, hs, hfail⟩ := (system small noDevice).exists_of_run
    (P := fun s => (call small noDevice s (.create 2 0 0)).toOption.isNone = true) formatted
    written formatted_init (by decide +kernel)
  cases hcall : call small noDevice s (.create 2 0 0) with
  | ok r =>
      rw [hcall] at hfail
      cases hfail
  | error e =>
      have hallowed : Allowed small s (.create 2 0 0) := by
        show (2 : Nat) ≠ 0 ∧ _
        decide
      exact ⟨s, e, hcall, panics_scarce s hs _ e hallowed hcall⟩

/-! ### Inodes that nobody can reach -/

theorem event_ne_restart {e : Files.Event Nat Info UInt8} (he : event sb s c r s' = some e) :
    e ≠ .restart := by
  rintro rfl
  cases c <;> cases r <;> simp [event] at he

theorem Follows.kept (hf : Follows sb s c r s') (h : Files.Kept (world sb s)) :
    Files.Kept (world sb s') := by
  unfold Follows at hf
  cases he : event sb s c r s' with
  | none =>
      rw [he] at hf
      exact hf ▸ h
  | some e =>
      rw [he] at hf
      exact h.step (event_ne_restart he) hf

/-- Without a restart every inode in use has a link or a reference. -/
theorem none_lost : (system sb devsw).InvariantUnder (fun _ a => a ≠ .restart) fun s =>
    ∀ n < sb.ninodes, (dinode sb s.disk n).type ≠ 0 → (dinode sb s.disk n).nlink ≠ 0 ∨
      ∃ i < ninode, 0 < (s.icache i).ref ∧ (s.icache i).inum = n := by
  -- The promise is about the files; every call keeps it, as its event does.
  have hkept : (system sb devsw).InvariantUnder (fun _ a => a ≠ .restart) fun s =>
      Files.Kept (world sb s) := by
    refine inv_reachable.stepUnder (fun s h0 n f hf => ?_) fun s a s' h hk ha hn => ?_
    · obtain ⟨⟨hn, ht⟩, hf⟩ := Option.ite_none_right_eq_some.mp hf
      obtain rfl := Option.some.inj hf
      exact .inl (Nat.pos_of_ne_zero (h0.2.1 n hn ht))
    · cases a with
      | call c =>
          obtain ⟨hallowed, r, hc⟩ := next_call hn
          exact (call_follows h hallowed hc).2.kept hk
      | restart => exact absurd rfl ha
  intro s hs n hn ht
  rcases hkept s hs n _ (if_pos ⟨hn, ht⟩) with hl | hr
  · exact .inl (Nat.ne_of_gt hl)
  -- References that are counted are counted in some slot.
  · by_contra hlost
    rw [not_or] at hlost
    refine Nat.ne_of_gt hr (refs_eq_zero fun i hi hin => ?_)
    by_contra hpos
    exact hlost.2 ⟨i, hi, Nat.pos_of_ne_zero hpos, hin⟩

instance (a : Label) : Decidable (a ≠ .restart) :=
  match a with
  | .call _ => isTrue fun h => nomatch h
  | .restart => isFalse fun h => h rfl

/-- The file has lost its link, and somebody still refers to it. -/
theorem none_lost_written : ∃ s : State, (dinode small s.disk 1).type ≠ 0 ∧
    (dinode small s.disk 1).nlink = 0 ∧
    ∃ i < ninode, 0 < (s.icache i).ref ∧ (s.icache i).inum = 1 := by
  obtain ⟨s, hs, htype, hlink⟩ := (system small noDevice).exists_of_runChecked
    (C := fun _ a => a ≠ .restart)
    (P := fun s => (dinode small s.disk 1).type ≠ 0 ∧ (dinode small s.disk 1).nlink = 0) formatted
    (written ++ [.call (.link 0 0)]) formatted_init (by decide +kernel)
  exact ⟨s, htype, hlink, (none_lost s hs 1 (by decide) htype).resolve_left (absurd hlink)⟩

end Os377.Xv6.Filesys
