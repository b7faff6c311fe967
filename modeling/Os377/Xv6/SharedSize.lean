import Os377.Xv6.Growth

/-!
# One size for one address space

The invariant speaks about the groups of entries that share an address space:
all members have the size of their leader, and the leader's directory holds the
pages of that size (`Sized`). `fork` and `clone` keep it, `growproc` keeps it
for a process that is alone in its group.
-/

namespace Os377.Xv6

open Os377.Lib Function

/-- The members of a group have the size of their leader, whose directory holds
the pages of that size; a slot outside the groups has no address space. -/
structure Sized (m : Space) (dirs : Nat → PageDir) : Prop where
  group : ∀ i l, m.leader i = some l → m.sz i = m.sz l
  below : ∀ l, m.leader l = some l → m.sz l < kernbase
  upto : ∀ l, m.leader l = some l → Upto (dirs (m.pgdir l)) (m.sz l).toNat
  unplaced : ∀ i, m.leader i = none → m.pgdir i = 0 ∧ m.sz i = 0
  null : Upto (dirs 0) 0

structure VmInv (s : VmState) : Prop where
  table : Inv s.procs.view
  sized : Sized s.procs.space s.dirs

section Facts

variable {s : VmState} {p q l : Proc}

/-- The page directory of a leader is no null pointer. -/
theorem Inv.pgdir_ne_zero {v : View} (hI : Inv v) (hl : v.leader p = some l) : v.pgdir p ≠ 0 := by
  intro h0
  have hpage := hI.held.allocated (page_space (hI.groups.leads p l hl))
  rw [← hI.groups.same_dir p l hl, h0, hI.null] at hpage
  cases hpage

/-- What the address space of an entry holds. -/
theorem VmInv.fits (h : VmInv s) (p : Proc) : (s.procs.table p).sz < kernbase ∧
    Upto (s.dirs (s.procs.table p).pgdir) (s.procs.table p).sz.toNat := by
  cases hl : s.procs.leader p with
  | none =>
      obtain ⟨hpgdir, hsz⟩ := h.sized.unplaced p hl
      change (s.procs.table p).pgdir = 0 at hpgdir
      change (s.procs.table p).sz = 0 at hsz
      rw [hpgdir, hsz]
      exact ⟨by decide, h.sized.null⟩
  | some l =>
      have hll := h.table.groups.leads p l hl
      have hsz : (s.procs.table p).sz = (s.procs.table l).sz := h.sized.group p l hl
      have hpgdir : (s.procs.table p).pgdir = (s.procs.table l).pgdir :=
        h.table.groups.same_dir p l hl
      rw [hsz, hpgdir]
      exact ⟨h.sized.below l hll, h.sized.upto l hll⟩

/-- Entries with one directory have one size. -/
theorem VmInv.same_size (h : VmInv s)
    (hd : (s.procs.table p).pgdir = (s.procs.table q).pgdir) :
    (s.procs.table p).sz = (s.procs.table q).sz := by
  cases hp : s.procs.leader p with
  | none =>
      obtain ⟨hpgdir, hsz⟩ := h.sized.unplaced p hp
      cases hq : s.procs.leader q with
      | none => exact hsz.trans (h.sized.unplaced q hq).2.symm
      | some l => exact absurd (hd.symm.trans hpgdir) (h.table.pgdir_ne_zero hq)
  | some l =>
      cases hq : s.procs.leader q with
      | none => exact absurd (hd.trans (h.sized.unplaced q hq).1) (h.table.pgdir_ne_zero hp)
      | some m =>
          have hlm : l = m := h.table.leader_eq hp hq hd
          exact (h.sized.group p l hp).trans (hlm ▸ (h.sized.group q m hq).symm)

/-- The invariant is the property, and more. -/
theorem VmInv.agree (h : VmInv s) : Agree s where
  size p q _ _ hd := h.same_size hd
  pages p _ va hva := by
    obtain ⟨hsz, hupto⟩ := h.fits p
    rw [hupto va hva, lt_pgroundup (le_kernbase.mpr (lt_kernbase.mp hsz).le)]

end Facts

/-! ## Steps of the table -/

section Steps

variable {s s' : VmState} {m : Space} {c : Option (Proc × Nat)} {dirs : Nat → PageDir}
  {i l p np : Proc} {d : Nat} {new : PageDir}

/-- A slot that gets its address space only now leads nobody. -/
theorem VmInv.ne_making (h : VmInv s) (hst : s.procs.view.stage p = .making np)
    (hi : s.procs.leader i = some l) : i ≠ np ∧ l ≠ np := by
  have hnone : s.procs.leader np = none := h.table.groups.making p np hst
  refine ⟨fun hnp => ?_, fun hnp => ?_⟩
  · rw [← hnp, hi] at hnone
    cases hnone
  · have hll : s.procs.leader l = some l := h.table.groups.leads i l hi
    rw [← hnp, hll] at hnone
    cases hnone

/-- `fork` fails. -/
theorem VmInv.drop (h : VmInv s) (hst : s.procs.view.stage p = .making np) :
    Sized { s.procs.space with pgdir := update s.procs.space.pgdir np 0 } s.dirs := by
  refine { h.sized with upto := fun l hl => ?_, unplaced := fun i hi => ?_ }
  · show Upto (s.dirs (update s.procs.space.pgdir np 0 l)) _
    rw [update_of_ne (h.ne_making hst hl).1]
    exact h.sized.upto l hl
  · obtain ⟨hpgdir, hsz⟩ := h.sized.unplaced i hi
    refine ⟨?_, hsz⟩
    show update s.procs.space.pgdir np 0 i = 0
    by_cases hnp : i = np
    · rw [hnp, update_self]
    · rw [update_of_ne hnp, hpgdir]

/-- `fork` has copied the address space of `p`. -/
theorem VmInv.copy (h : VmInv s) (hst : s.procs.view.stage p = .making np) (hd : d ≠ 0)
    (hfree : s.procs.view.pages d = false) (hnew : Upto new (s.procs.table p).sz.toNat) :
    Sized
      { sz := update s.procs.space.sz np (s.procs.space.sz p)
        pgdir := update s.procs.space.pgdir np d
        leader := update s.procs.space.leader np (some np) }
      (update s.dirs d new) := by
  constructor
  case group =>
    intro i l hl
    dsimp only at hl ⊢
    by_cases hi : i = np
    · rw [hi, update_self, Option.some.injEq] at hl
      rw [hi, hl]
    · rw [update_of_ne hi] at hl
      rw [update_of_ne hi, update_of_ne (h.ne_making hst hl).2]
      exact h.sized.group i l hl
  case below =>
    intro l hl
    dsimp only at hl ⊢
    by_cases hnp : l = np
    · rw [hnp, update_self]
      exact (h.fits p).1
    · rw [update_of_ne hnp] at hl ⊢
      exact h.sized.below l hl
  case upto =>
    intro l hl
    dsimp only at hl ⊢
    by_cases hnp : l = np
    · rw [hnp, update_self, update_self, update_self]
      exact hnew
    · rw [update_of_ne hnp] at hl
      have hother : s.procs.space.pgdir l ≠ d := fun heq => by
        have hpage := h.table.held.allocated (page_space hl)
        rw [show s.procs.view.pgdir l = d from heq, hfree] at hpage
        cases hpage
      rw [update_of_ne hnp, update_of_ne hnp, update_of_ne hother]
      exact h.sized.upto l hl
  case unplaced =>
    intro i hi
    dsimp only at hi ⊢
    have hnp : i ≠ np := by
      intro heq
      subst heq
      simp at hi
    rw [update_of_ne hnp] at hi
    rw [update_of_ne hnp, update_of_ne hnp]
    exact h.sized.unplaced i hi
  case null =>
    rw [update_of_ne hd.symm]
    exact h.sized.null

/-- `clone` has shared the address space of `p`. -/
theorem VmInv.share (h : VmInv s) (hst : s.procs.view.stage p = .making np) :
    Sized
      { sz := update s.procs.space.sz np (s.procs.space.sz p)
        pgdir := update s.procs.space.pgdir np (s.procs.space.pgdir p)
        leader := update s.procs.space.leader np (s.procs.space.leader p) }
      s.dirs := by
  have hp := h.table.roles.busy p (by rw [hst]; simp)
  obtain ⟨lp, hlp, -⟩ := h.table.leader (.inl hp)
  -- the new entry is a member of a group, not a leader
  have hlead : ∀ l, update s.procs.space.leader np (s.procs.space.leader p) l = some l →
      l ≠ np ∧ s.procs.leader l = some l := by
    intro l hl
    by_cases hnp : l = np
    · rw [hnp, update_self] at hl
      exact absurd rfl (h.ne_making hst hl).2
    · rw [update_of_ne hnp] at hl
      exact ⟨hnp, hl⟩
  constructor
  case group =>
    intro i l hl
    dsimp only at hl ⊢
    by_cases hi : i = np
    · rw [hi, update_self] at hl
      rw [hi, update_self, update_of_ne (h.ne_making hst hl).2]
      exact h.sized.group p l hl
    · rw [update_of_ne hi] at hl
      rw [update_of_ne hi, update_of_ne (h.ne_making hst hl).2]
      exact h.sized.group i l hl
  case below =>
    intro l hl
    obtain ⟨hnp, hll⟩ := hlead l hl
    dsimp only
    rw [update_of_ne hnp]
    exact h.sized.below l hll
  case upto =>
    intro l hl
    obtain ⟨hnp, hll⟩ := hlead l hl
    dsimp only
    rw [update_of_ne hnp, update_of_ne hnp]
    exact h.sized.upto l hll
  case unplaced =>
    intro i hi
    dsimp only at hi ⊢
    by_cases hnp : i = np
    · rw [hnp, update_self, show s.procs.space.leader p = some lp from hlp] at hi
      cases hi
    · rw [update_of_ne hnp] at hi
      rw [update_of_ne hnp, update_of_ne hnp]
      exact h.sized.unplaced i hi
  case null => exact h.sized.null

/-- Every step of the table keeps the invariant. -/
theorem VmInv.tableStep {a : Act} (h : VmInv s) (hn : vm.next s (.table a) = some s') :
    VmInv s' := by
  obtain ⟨hkeeps, hn⟩ := Option.ite_none_right_eq_some.mp hn
  obtain ⟨procs, hprocs, hn⟩ := Option.bind_eq_some_iff.mp hn
  obtain ⟨dirs, hdirs, hs'⟩ := Option.map_eq_some_iff.mp hn
  subst hs'
  have hnofree : freed s.procs a = none := by
    cases a <;> first | rfl | cases hkeeps
  refine ⟨h.table.step (step_change hprocs) (by simp [hnofree]), ?_⟩
  have hsettle := next_settle hkeeps hprocs
  unfold mapStep at hdirs
  show Sized procs.space dirs
  generalize copied a = c at hsettle hdirs
  generalize procs.space = m at hsettle
  cases hsettle with
  | keep => exact Option.some.inj hdirs ▸ h.sized
  | drop hst => exact Option.some.inj hdirs ▸ h.drop hst
  | share hst => exact Option.some.inj hdirs ▸ h.share hst
  | copy hst hd hfree =>
      obtain ⟨new, hnew, rfl⟩ := Option.map_eq_some_iff.mp hdirs
      obtain ⟨hsz, hupto⟩ := h.fits _
      obtain ⟨new', hnew', hcopied⟩ :=
        copyuvm_spec hupto (le_kernbase.mpr (lt_kernbase.mp hsz).le)
      rw [hnew', Option.some.injEq] at hnew
      exact h.copy hst hd hfree (hnew ▸ hcopied)

end Steps

/-! ## `growproc` -/

section Grow

variable {s s' : VmState} {p q : Proc} {n : BitVec 32} {avail : Nat}

/-- A size and a directory that `growproc` may leave behind: the pages fit the
size, which is another one exactly if the call moves it. -/
structure Grown (s : VmState) (p : Proc) (n : BitVec 32) (sz : Addr) (d : PageDir) : Prop where
  below : sz < kernbase
  upto : Upto d sz.toNat
  moved : Moves (s.procs.table p).sz n → sz ≠ (s.procs.table p).sz
  still : ¬ Moves (s.procs.table p).sz n →
    sz = (s.procs.table p).sz ∧ d = s.dirs (s.procs.table p).pgdir

theorem toInt_pos_iff : 0 < n.toInt ↔ 0 < n.toNat ∧ n.toNat < 2 ^ 31 := by
  rw [BitVec.toInt_eq_toNat_cond]
  split <;> omega

/-- The end of `growproc`. -/
theorem resize_spec {sz : Addr} {d : PageDir} (hgrown : sz ≠ 0 → Grown s p n sz d) :
    ∃ r s', resize s p (sz, d) = (r, s') ∧ (r = 0 → ∃ sz d,
      s' = (s.setDir (s.procs.table p).pgdir d).setSz p sz ∧ Grown s p n sz d) := by
  unfold resize
  dsimp only
  split
  · exact ⟨_, _, rfl, fun h => absurd h (by decide)⟩
  · next hne => exact ⟨_, _, rfl, fun _ => ⟨sz, d, rfl, hgrown hne⟩⟩

/-- Growing: the directory held the pages of the old size, so none is mapped twice. -/
theorem VmInv.grows (h : VmInv s) (p : Proc) (hpos : 0 < n.toInt) (avail : Nat) :
    ∃ sz d, allocuvm (s.dirs (s.procs.table p).pgdir) (s.procs.table p).sz
      ((s.procs.table p).sz + n) avail = some (sz, d) ∧ (sz ≠ 0 → Grown s p n sz d) := by
  obtain ⟨hsz, hupto⟩ := h.fits p
  have hsz' := lt_kernbase.mp hsz
  have hn := toInt_pos_iff.mp hpos
  have hadd : ((s.procs.table p).sz + n).toNat = (s.procs.table p).sz.toNat + n.toNat := by
    rw [BitVec.toNat_add]
    omega
  obtain ⟨sz, d, halloc, hcases⟩ := allocuvm_spec hupto hsz ((s.procs.table p).sz + n) avail
  refine ⟨sz, d, halloc, fun hne => ?_⟩
  rcases hcases with ⟨h0, -⟩ | ⟨hlt, -, -⟩ | ⟨-, hbelow, rfl, hd⟩
  · exact absurd h0 hne
  · rw [BitVec.lt_def, hadd] at hlt
    omega
  · refine ⟨hbelow, hd, fun _ heq => ?_, fun hstill => absurd (Or.inl hpos) hstill⟩
    have := congrArg BitVec.toNat heq
    omega

/-- Shrinking by more than there is changes nothing. -/
theorem VmInv.shrinks (h : VmInv s) (p : Proc) (hneg : n.toInt < 0) :
    ∃ sz d, deallocuvm (s.dirs (s.procs.table p).pgdir) (s.procs.table p).sz
      ((s.procs.table p).sz + n) = (sz, d) ∧ Grown s p n sz d := by
  obtain ⟨hsz, hupto⟩ := h.fits p
  have hle := le_kernbase.mpr (lt_kernbase.mp hsz).le
  by_cases hlt : (s.procs.table p).sz + n < (s.procs.table p).sz
  · obtain ⟨d, hdealloc, hd⟩ := deallocuvm_upto hupto (le_refl _) hle hlt (le_of_lt hlt)
    refine ⟨_, d, hdealloc, lt_kernbase_of_lt hlt hle, hd, fun _ heq => ?_, fun hstill => ?_⟩
    · rw [heq] at hlt
      exact absurd hlt (BitVec.lt_irrefl _)
    · exact absurd (Or.inr ⟨hneg, hlt⟩) hstill
  · have hpos : ¬ 0 < n.toInt := by omega
    have hstill : ¬ Moves (s.procs.table p).sz n := fun hmoves =>
      hlt (hmoves.resolve_left hpos).2
    exact ⟨_, _, if_pos (BitVec.not_lt.mp hlt), hsz, hupto, fun hmoves => absurd hmoves hstill,
      fun _ => ⟨rfl, rfl⟩⟩

/-- `growproc` does not panic; when it returns 0, it has stored a new size. -/
theorem VmInv.growproc (h : VmInv s) (p : Proc) (n : BitVec 32) (avail : Nat) :
    ∃ r s', growproc s p n avail = some (r, s') ∧ (r = 0 → ∃ sz d,
      s' = (s.setDir (s.procs.table p).pgdir d).setSz p sz ∧ Grown s p n sz d) := by
  unfold Xv6.growproc
  dsimp only
  split
  · next hpos =>
      obtain ⟨sz, d, halloc, hgrown⟩ := h.grows p hpos avail
      obtain ⟨r, s', hr, hspec⟩ := resize_spec hgrown
      rw [halloc, Option.map_some]
      exact ⟨r, s', congrArg some hr, hspec⟩
  · next hpos =>
      split
      · next hneg =>
          obtain ⟨sz, d, hdealloc, hgrown⟩ := h.shrinks p hneg
          obtain ⟨r, s', hr, hspec⟩ := resize_spec fun _ => hgrown
          rw [hdealloc]
          exact ⟨r, s', congrArg some hr, hspec⟩
      · next hneg =>
          obtain ⟨hsz, hupto⟩ := h.fits p
          have hstill : ¬ Moves (s.procs.table p).sz n := fun hmoves =>
            hneg (hmoves.resolve_left hpos).1
          have hsame : s.setDir (s.procs.table p).pgdir (s.dirs (s.procs.table p).pgdir) = s := by
            show VmState.mk _ (update _ _ _) = s
            rw [update_eq_self]
          refine ⟨_, _, rfl, fun _ => ⟨_, s.dirs (s.procs.table p).pgdir, ?_, hsz, hupto,
            fun hmoves => absurd hmoves hstill, fun _ => ⟨rfl, rfl⟩⟩⟩
          rw [hsame]

/-- What an accepted `sbrk` does. -/
theorem VmInv.sbrk (h : VmInv s) (hc : Accepted s (.sbrk p n avail))
    (hn : vm.next s (.sbrk p n avail) = some s') : ∃ sz d, Grown s p n sz d ∧
      s.procs.view.kind p = .active ∧ s'.procs.view = s.procs.view ∧
      s'.procs.space = { s.procs.space with sz := update s.procs.space.sz p sz } ∧
      s'.dirs = update s.dirs (s.procs.table p).pgdir d := by
  obtain ⟨⟨hrun, hdoing⟩, hn⟩ := Option.ite_none_right_eq_some.mp hn
  have hidle : s.procs.view.stage p = .idle := stage_of_doing hdoing
  obtain ⟨r, t, hgrow, hspec⟩ := h.growproc p n avail
  unfold Xv6.sbrk at hn
  rw [hgrow, Option.map_some, Option.some.injEq] at hn
  have hr : r = 0 := by simpa [Accepted, hgrow] using hc
  obtain ⟨sz, d, rfl, hgrown⟩ := hspec hr
  have hview : (s.procs.setEntry p { s.procs.table p with sz := sz }).view = s.procs.view :=
    view_setEntry_self s.procs p _ rfl rfl rfl rfl
  refine ⟨sz, d, hgrown, kind_of_running hrun, ?_, ?_, ?_⟩
  · rw [← hn]
    show ((s.procs.setEntry p { s.procs.table p with sz := sz }).ret p _).view = _
    rw [view_ret, hview, ← hidle, update_eq_self]
  · rw [← hn]
    show ((s.procs.setEntry p { s.procs.table p with sz := sz }).ret p _).space = _
    rw [space_ret, space_setEntry]
    simp only [update_space_pgdir_self]
  · rw [← hn]
    rfl

/-- A process that is alone with its directory may change its size. -/
theorem VmInv.resized (h : VmInv s) (hp : s.procs.view.kind p = .active)
    (halone : Alone s.procs.view p (s.procs.table p).pgdir) {sz : Addr} {d : PageDir}
    (hsz : sz < kernbase) (hd : Upto d sz.toNat) :
    Sized { s.procs.space with sz := update s.procs.space.sz p sz }
      (update s.dirs (s.procs.table p).pgdir d) := by
  obtain ⟨⟨hlead, hlast⟩, -⟩ := (h.table.alone_iff (.inl hp)).mp halone
  constructor
  case group =>
    intro i l hl
    dsimp only
    by_cases hi : i = p
    · rw [hi, show s.procs.space.leader p = some p from hlead, Option.some.injEq] at hl
      rw [hi, hl]
    · have hlp : l ≠ p := fun hlp => hi (hlast i (hlp ▸ hl))
      rw [update_of_ne hi, update_of_ne hlp]
      exact h.sized.group i l hl
  case below =>
    intro l hl
    dsimp only
    by_cases hlp : l = p
    · rwa [hlp, update_self]
    · rw [update_of_ne hlp]
      exact h.sized.below l hl
  case upto =>
    intro l hl
    dsimp only
    by_cases hlp : l = p
    · rw [hlp, update_self, show s.procs.space.pgdir p = (s.procs.table p).pgdir from rfl,
        update_self]
      exact hd
    · have hother : s.procs.space.pgdir l ≠ (s.procs.table p).pgdir :=
        halone l hlp (h.table.groups.live l l hl)
      rw [update_of_ne hlp, update_of_ne hother]
      exact h.sized.upto l hl
  case unplaced =>
    intro i hi
    dsimp only
    have hip : i ≠ p := by
      intro heq
      subst heq
      rw [show s.procs.space.leader i = some i from hlead] at hi
      cases hi
    rw [update_of_ne hip]
    exact h.sized.unplaced i hi
  case null =>
    have hpgdir : (s.procs.table p).pgdir ≠ 0 := h.table.pgdir_ne_zero hlead
    rw [update_of_ne hpgdir.symm]
    exact h.sized.null

/-- An accepted `sbrk` that meets the condition keeps the invariant. -/
theorem VmInv.sbrkStep (h : VmInv s) (hc : Accepted s (.sbrk p n avail))
    (hsole : Sole s (.sbrk p n avail)) (hn : vm.next s (.sbrk p n avail) = some s') :
    VmInv s' := by
  obtain ⟨sz, d, hgrown, hp, hview, hspace, hdirs⟩ := h.sbrk hc hn
  refine ⟨hview ▸ h.table, ?_⟩
  rw [hspace, hdirs]
  by_cases hmoves : Moves (s.procs.table p).sz n
  · exact h.resized hp (hsole hmoves) hgrown.below hgrown.upto
  · obtain ⟨hsz, hd⟩ := hgrown.still hmoves
    rw [hsz, hd, update_space_sz_self, update_eq_self]
    exact h.sized

/-- One that does not meet it leaves two sizes for one directory. -/
theorem VmInv.sole_of_agree (h : VmInv s) (hc : Accepted s (.sbrk p n avail))
    (hn : vm.next s (.sbrk p n avail) = some s') (hagree : Agree s') :
    Sole s (.sbrk p n avail) := by
  intro hmoves q hq hlive hd
  obtain ⟨sz, d, hgrown, hp, hview, hspace, -⟩ := h.sbrk hc hn
  have hkind : ∀ i, s'.procs.view.kind i = s.procs.view.kind i := fun i => by rw [hview]
  have hpgdir : ∀ i, (s'.procs.table i).pgdir = (s.procs.table i).pgdir := fun i =>
    congrFun (congrArg View.pgdir hview) i
  have hsize : ∀ i, (s'.procs.table i).sz = update s.procs.space.sz p sz i := fun i =>
    congrFun (congrArg Space.sz hspace) i
  have hsame := hagree.size p q (kind_ne_unused.mp (by rw [hkind, hp]; simp))
    (kind_ne_unused.mp (by rwa [hkind])) (by rw [hpgdir, hpgdir]; exact hd.symm)
  rw [hsize, hsize, update_self, update_of_ne hq] at hsame
  exact hgrown.moved hmoves (hsame.trans (h.same_size hd))

end Grow

/-! ## Along runs -/

theorem vmInv_init {kstack pgdir : Nat} (hk : kstack ≠ 0) (hd : pgdir ≠ 0) (hne : kstack ≠ pgdir) :
    VmInv (vmInit kstack pgdir) := by
  have hinit : ∀ i l, (vmInit kstack pgdir).procs.leader i = some l →
      i = initproc ∧ l = initproc := by
    intro i l hl
    by_cases hi : i = initproc
    · rw [hi] at hl
      simp only [vmInit, userinit, update_self, Option.some.injEq] at hl
      exact ⟨hi, hl.symm⟩
    · simp only [vmInit, userinit, update_of_ne hi] at hl
      cases hl
  have hpages : Upto inituvm 4096 := by
    have hstart : Upto PageDir.empty (0 : Addr).toNat := upto_empty
    refine hstart.next (by decide) fun x => ?_
    rw [inituvm, mapped_setPte (by rfl), mapped_addTable rfl]
  refine ⟨inv_userinit hk hd hne, ?_⟩
  constructor
  case group =>
    intro i l hl
    obtain ⟨rfl, rfl⟩ := hinit i l hl
    rfl
  case below =>
    intro l hl
    obtain ⟨rfl, -⟩ := hinit l l hl
    show BitVec.ofNat 32 pgsize < kernbase
    decide
  case upto =>
    intro l hl
    obtain ⟨rfl, -⟩ := hinit l l hl
    simp only [vmInit, userinit, State.space, update_self]
    exact hpages
  case unplaced =>
    intro i hi
    have hne : i ≠ initproc := by
      intro heq
      subst heq
      simp [vmInit, userinit, State.space] at hi
    simp only [vmInit, userinit, State.space, update_of_ne hne]
    exact ⟨rfl, rfl⟩
  case null =>
    simp only [vmInit, update_of_ne hd.symm]
    exact upto_empty

theorem vmInv_inductive : vm.Inductive (fun s a => Accepted s a ∧ Sole s a) VmInv where
  init s hs := by
    obtain ⟨kstack, pgdir, hk, hd, hne, rfl⟩ := hs
    exact vmInv_init hk hd hne
  step s a s' h hc hn := by
    cases a with
    | table a => exact h.tableStep hn
    | sbrk p n avail => exact h.sbrkStep hc.1 hc.2 hn

/-- A block that `argptr` accepts is below `sz`. -/
theorem argptr_below {sz esp i : Addr} {word : Addr → BitVec 32} {n size : BitVec 32}
    (hsz : sz < kernbase) (h : argptr sz esp word n size = some i) :
    i.toNat < sz.toNat ∧ i.toNat + size.toNat ≤ sz.toNat := by
  have hsz' := lt_kernbase.mp hsz
  obtain ⟨i', -, hptr⟩ := Option.bind_eq_some_iff.mp h
  obtain ⟨hguard, heq⟩ := Option.ite_none_left_eq_some.mp hptr
  obtain rfl : i' = i := Option.some.inj heq
  rw [not_or, not_or, not_lt, BitVec.not_le, BitVec.not_lt] at hguard
  obtain ⟨hsize, hfirst, hlast⟩ := hguard
  -- neither sum wraps
  have hnonneg : size.toNat < 2 ^ 31 := by
    rw [BitVec.toInt_eq_toNat_cond] at hsize
    have := size.isLt
    split at hsize <;> omega
  rw [BitVec.lt_def] at hfirst
  rw [BitVec.le_def, BitVec.toNat_add] at hlast
  omega

/-- **Threads agree on their size.** In every run in which whoever changes its
size with `sbrk` shares its page directory with no other entry, the entries with
one directory have one size and the directory holds the pages below it;
`growproc` never reaches `panic("remap")`, and what `argptr` accepts is mapped.
An accepted `sbrk` keeps this exactly if it meets the condition. -/
theorem sizes_agree {s : VmState}
    (hs : vm.ReachableUnder (fun s a => Accepted s a ∧ Sole s a) s) :
    Agree s ∧ (∀ p n avail, growproc s p n avail ≠ none) ∧
    (∀ p word n size i, (s.procs.table p).state ≠ .unused →
      argptr (s.procs.table p).sz (s.procs.table p).tf.esp word n size = some i →
      ∀ va, va = i ∨ i.toNat ≤ va.toNat ∧ va.toNat < i.toNat + size.toNat →
        (s.dirs (s.procs.table p).pgdir).mapped va = true) ∧
    ∀ p n avail s', Accepted s (.sbrk p n avail) → vm.next s (.sbrk p n avail) = some s' →
      (Agree s' ↔ Sole s (.sbrk p n avail)) := by
  have h := vmInv_inductive.invariantUnder s hs
  refine ⟨h.agree, fun p n avail => ?_, fun p word n size i _ hptr va hva => ?_,
    fun p n avail s' hc hn => ⟨h.sole_of_agree hc hn, fun hsole => (h.sbrkStep hc hsole hn).agree⟩⟩
  · obtain ⟨r, s', hgrow, -⟩ := h.growproc p n avail
    rw [hgrow]
    exact Option.some_ne_none _
  · obtain ⟨hsz, hupto⟩ := h.fits p
    obtain ⟨hfirst, hlast⟩ := argptr_below hsz hptr
    have hsz' := lt_kernbase.mp hsz
    have hbelow : va.toNat < (s.procs.table p).sz.toNat := by
      rcases hva with rfl | hva
      · exact hfirst
      · omega
    exact (hupto va (lt_kernbase.mpr (by omega))).mpr (by omega)

/-- `initproc` grows by a page and clones a thread, which has its size. -/
theorem sizes_agree_grown : ∃ s, (s.procs.table child).state ≠ .unused ∧
    (s.procs.table initproc).pgdir = (s.procs.table child).pgdir ∧
    (s.procs.table child).sz = 8192 ∧ Agree s := by
  obtain ⟨s, hs, hinit, hthread, hd, hsz⟩ := vm.exists_of_runChecked
    (C := fun s a => Accepted s a ∧ Sole s a)
    (P := fun s => (s.procs.table initproc).state ≠ .unused ∧
      (s.procs.table child).state ≠ .unused ∧
      (s.procs.table initproc).pgdir = (s.procs.table child).pgdir ∧
      (s.procs.table initproc).sz = 8192)
    (vmInit 1 2)
    [.table (.schedule initproc), .sbrk initproc 4096 8,
      .table (.create initproc (.clone 0 0 4096)), .table (.kalloc initproc (some 3)),
      .table (.share initproc true), .table (.ready initproc), .table (.cloned initproc)]
    ⟨1, 2, by decide, by decide, by decide, rfl⟩ (by decide +kernel)
  obtain ⟨hagree, -⟩ := sizes_agree hs
  exact ⟨s, hthread, hd, (hagree.size initproc child hinit hthread hd).symm.trans hsz, hagree⟩

/-- `initproc` grows by a page, clones a thread on the new page, and grows once
more: the thread keeps the old size. -/
theorem stale_thread_size : ¬ vm.InvariantUnder Accepted Agree := by
  intro hinv
  have hrun : (vm.runChecked Accepted (vmInit 1 2)
      [.table (.schedule initproc), .sbrk initproc 4096 8,
        .table (.create initproc (.clone 0 0 4096)), .table (.kalloc initproc (some 3)),
        .table (.share initproc true), .table (.ready initproc), .table (.cloned initproc),
        .sbrk initproc 4096 8]).any
      (fun s => decide ((s.procs.table initproc).state ≠ .unused ∧
        (s.procs.table child).state ≠ .unused ∧
        (s.procs.table initproc).pgdir = (s.procs.table child).pgdir ∧
        (s.procs.table initproc).sz ≠ (s.procs.table child).sz)) = true := by
    decide +kernel
  obtain ⟨s, hs, hview⟩ := (Option.any_eq_true _ _).mp hrun
  obtain ⟨hinit, hthread, hd, hsz⟩ := of_decide_eq_true hview
  exact hsz ((hinv s (.runChecked (.init ⟨1, 2, by decide, by decide, by decide, rfl⟩) hs)).size
    initproc child hinit hthread hd)

end Os377.Xv6
