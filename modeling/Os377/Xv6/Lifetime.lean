import Os377.Xv6.AddressSpace

/-!
# Lifetime of address spaces

When `wait` and `exec` free a page directory, does another entry still use it?
`clone` makes several entries share one, and `wait` frees the directory of the
zombie it finds whoever shares it. The directory is free of other users exactly
if its entry owns it (`Owned`: it was not made by `clone`, and every thread
cloned into it has been reaped), and no slot that is being built still carries
it as a left-over pointer of its last occupant (`NoLeftover`).

The invariant has three parts: the roles the entries play in each other's calls
(`Roles`), the groups of entries that share an address space (`Groups`), and
the custody of the pages (`Held` of `page`).
-/

namespace Os377.Xv6

open Os377.Lib Function

/-! ## The condition -/

/-- The address space of `i` is its own, and nobody else's. -/
def Owned (v : View) (i : Proc) : Prop :=
  v.leader i = some i ∧ ∀ j, v.leader j = some i → j = i

/-- No slot other than `i` that has yet to get an address space carries `d`. -/
def NoLeftover (v : View) (i : Proc) (d : Nat) : Prop :=
  ∀ j, j ≠ i → v.kind j ≠ .unused → v.leader j = none → v.pgdir j ≠ d

/-- No entry other than `i` has `pgdir == d`. -/
def Alone (v : View) (i : Proc) (d : Nat) : Prop :=
  ∀ j, j ≠ i → v.kind j ≠ .unused → v.pgdir j ≠ d

/-! ## The invariant -/

/-- The roles of the entries in each other's calls. -/
structure Roles (v : View) : Prop where
  busy : ∀ p, v.stage p ≠ .idle → v.kind p = .active
  /-- An entry under construction is an `EMBRYO`, of one creator. -/
  embryo : ∀ p np, (v.stage p).target = some np → v.kind np = .embryo
  single : ∀ p q np, (v.stage p).target = some np → (v.stage q).target = some np → p = q
  parent_active : ∀ i q, v.parent i = some q → v.kind q = .active
  init_active : v.kind initproc = .active
  init_parent : v.parent initproc = none

/-- The groups of entries that share an address space. -/
structure Groups (v : View) : Prop where
  live : ∀ i l, v.leader i = some l → v.kind i ≠ .unused
  leads : ∀ i l, v.leader i = some l → v.leader l = some l
  same_dir : ∀ i l, v.leader i = some l → v.pgdir i = v.pgdir l
  placed : ∀ i, v.kind i = .active ∨ v.kind i = .zombie → v.leader i ≠ none
  making : ∀ p np, v.stage p = .making np → v.leader np = none
  made : ∀ p np, v.stage p = .made np → v.leader np ≠ none
  init_leads : v.leader initproc = some initproc
  /-- The parent of a leader runs in another address space, so that no `join`
  reaps a leader. -/
  outside : ∀ l q, v.leader l = some l → v.parent l = some q → v.leader q ≠ some l

/-- Who holds a page: an entry its kernel stack, a leader its page directory, a
process in `exec` the directory it builds. -/
inductive Holder where
  | stack (i : Proc)
  | space (l : Proc)
  | fresh (p : Proc)
  deriving DecidableEq, Repr

/-- The directory a process builds. -/
def Stage.fresh : Stage → Option Nat
  | .building d => some d
  | _ => none

def page (v : View) : Holder → Option Nat
  | .stack i => if v.kstack i = 0 then none else some (v.kstack i)
  | .space l => if v.leader l = some l then some (v.pgdir l) else none
  | .fresh p => (v.stage p).fresh

structure Inv (v : View) : Prop where
  roles : Roles v
  groups : Groups v
  held : Held (page v) v.pages
  null : v.pages 0 = false

section Facts

variable {v : View} {i j l p q : Proc} {d : Nat}

theorem page_space (h : v.leader l = some l) : page v (.space l) = some (v.pgdir l) := if_pos h

theorem page_fresh (h : v.stage p = .building d) : page v (.fresh p) = some d := by
  simp [page, h, Stage.fresh]

/-- An entry that is past its construction runs in the address space of its
leader. -/
theorem Inv.leader (hI : Inv v) (hi : v.kind i = .active ∨ v.kind i = .zombie) :
    ∃ l, v.leader i = some l ∧ page v (.space l) = some (v.pgdir i) := by
  obtain ⟨l, hl⟩ := Option.ne_none_iff_exists'.mp (hI.groups.placed i hi)
  refine ⟨l, hl, ?_⟩
  rw [hI.groups.same_dir i l hl]
  exact page_space (hI.groups.leads i l hl)

theorem Groups.leader_unused (hG : Groups v) (hi : v.kind i = .unused) : v.leader i = none := by
  cases hl : v.leader i with
  | none => rfl
  | some l => exact absurd hi (hG.live i l hl)

/-- Entries with one directory are in one group. -/
theorem Inv.leader_eq (hI : Inv v) {li lj : Proc} (hi : v.leader i = some li)
    (hj : v.leader j = some lj) (hd : v.pgdir i = v.pgdir j) : li = lj := by
  have hpi := page_space (hI.groups.leads i li hi)
  have hpj := page_space (hI.groups.leads j lj hj)
  rw [← hI.groups.same_dir i li hi] at hpi
  rw [← hI.groups.same_dir j lj hj, ← hd] at hpj
  exact Holder.space.inj (hI.held.unique hpi hpj)

/-- The directory `exec` builds is not that of any group. -/
theorem Inv.fresh_ne (hI : Inv v) (hp : v.stage p = .building d) (hi : v.leader i = some l) :
    v.pgdir i ≠ d := by
  intro hd
  have hpi := page_space (hI.groups.leads i l hi)
  rw [← hI.groups.same_dir i l hi, hd] at hpi
  exact absurd (hI.held.unique hpi (page_fresh hp)) (by simp)

/-- The zombie that `join` reaps is no leader. -/
theorem Inv.not_leader (hI : Inv v) (hp : v.kind p = .active)
    (hpar : v.parent q = some p) (hd : v.pgdir q = v.pgdir p) : v.leader q ≠ some q := by
  intro hlq
  obtain ⟨lp, hlp, -⟩ := hI.leader (.inl hp)
  have hqp : q = lp := hI.leader_eq hlq hlp hd
  exact hI.groups.outside q p hlq hpar (hqp ▸ hlp)

end Facts

/-! ## What a change keeps: the roles -/

section Roles

variable {v v' : View} {f : Option (Proc × Nat)} {i p q np : Proc}

/-- `p` goes to a stage in which it builds nothing, or an `EMBRYO` of its own. -/
theorem Roles.setStage (hR : Roles v) {st : Stage} (hp : st ≠ .idle → v.kind p = .active)
    (hnp : ∀ np, st.target = some np →
      v.kind np = .embryo ∧ ∀ q, (v.stage q).target = some np → q = p) :
    Roles { v with stage := update v.stage p st } where
  __ := hR
  busy := by
    intro q hq
    by_cases hqp : q = p
    · subst hqp
      exact hp (by simpa using hq)
    · exact hR.busy q (by simpa [update_of_ne hqp] using hq)
  embryo := by
    intro q n hq
    by_cases hqp : q = p
    · subst hqp
      exact (hnp n (by simpa using hq)).1
    · exact hR.embryo q n (by simpa [update_of_ne hqp] using hq)
  single := by
    intro q r n hq hr
    dsimp only at hq hr
    by_cases hqp : q = p <;> by_cases hrp : r = p
    · rw [hqp, hrp]
    · subst hqp
      rw [update_of_ne hrp] at hr
      exact ((hnp n (by simpa using hq)).2 r hr).symm
    · subst hrp
      rw [update_of_ne hqp] at hq
      exact (hnp n (by simpa using hr)).2 q hq
    · rw [update_of_ne hqp] at hq
      rw [update_of_ne hrp] at hr
      exact hR.single q r n hq hr

/-- `p` has nothing in its hands any more. -/
theorem Roles.drop (hR : Roles v) (p : Proc) :
    Roles { v with stage := update v.stage p .idle } :=
  hR.setStage (by simp) (by simp [Stage.target])

/-- After that, nobody builds the entry `p` was building. -/
theorem Roles.target_drop (hR : Roles v) (hst : (v.stage p).target = some np) :
    (update v.stage p .idle q).target ≠ some np := by
  intro hq
  by_cases hqp : q = p
  · subst hqp
    simp [Stage.target] at hq
  · rw [update_of_ne hqp] at hq
    exact hqp (hR.single q p np hq hst)

/-- `i` changes its kind, but is not taken from those who rely on it. -/
theorem Roles.setKind (hR : Roles v) {k : Kind} (hk : v.kind i = .active → k = .active)
    (ht : ∀ p, (v.stage p).target = some i → k = .embryo) :
    Roles { v with kind := update v.kind i k } := by
  have hactive : ∀ j, v.kind j = .active → update v.kind i k j = .active := by
    intro j hj
    by_cases hji : j = i
    · subst hji
      rw [update_self, hk hj]
    · rwa [update_of_ne hji]
  refine { hR with
    busy := fun p hp => hactive p (hR.busy p hp)
    embryo := ?_
    parent_active := fun j q hj => hactive q (hR.parent_active j q hj)
    init_active := hactive initproc hR.init_active }
  intro p n hp
  by_cases hni : n = i
  · subst hni
    simpa using ht p hp
  · simpa [update_of_ne hni] using hR.embryo p n hp

theorem Roles.setParent (hR : Roles v) {o : Option Proc} (ho : ∀ q, o = some q → v.kind q = .active)
    (hi : i ≠ initproc) : Roles { v with parent := update v.parent i o } where
  __ := hR
  parent_active := by
    intro j q hj
    by_cases hji : j = i
    · subst hji
      exact ho q (by simpa using hj)
    · exact hR.parent_active j q (by simpa [update_of_ne hji] using hj)
  init_parent := by simpa [update_of_ne hi.symm] using hR.init_parent

theorem Roles.ne_init (hR : Roles v) (hi : v.kind i ≠ .active) : i ≠ initproc := by
  intro heq
  subst heq
  exact hi hR.init_active

/-- `np` gets its parent, and its creator goes on to make it ready or gives up. -/
theorem Roles.fill (hR : Roles v) (hst : v.stage p = .making np) {stage : Stage}
    (hstage : stage = .made np ∨ stage = .idle) : Roles { v with
      stage := update v.stage p stage
      parent := update v.parent np (some p) } := by
  have ht : (v.stage p).target = some np := by rw [hst]; rfl
  have hnp := hR.embryo p np ht
  have hp : v.kind p = .active := hR.busy p (by simp [hst])
  have hset : Roles { v with stage := update v.stage p stage } := by
    refine hR.setStage (fun _ => hp) ?_
    intro n hn
    obtain rfl | rfl := hstage
    · obtain rfl : np = n := by simpa [Stage.target] using hn
      exact ⟨hnp, fun q hq => hR.single q p np hq ht⟩
    · simp [Stage.target] at hn
  exact hset.setParent (by simpa using hp) (hR.ne_init (by simp [hnp]))

theorem Roles.reap (hR : Roles v) (hq : v.kind q = .zombie) : Roles (v.reap q) := by
  have hkind : Roles { v with kind := update v.kind q .unused } := by
    refine hR.setKind (by simp [hq]) ?_
    intro p hp
    simp [hR.embryo p q hp] at hq
  have hinit : q ≠ initproc := hR.ne_init (by simp [hq])
  exact { hkind.setParent (i := q) (o := none) (by simp) hinit with }

theorem Roles.exit (hR : Roles v) (hidle : v.stage p = .idle) (hinit : p ≠ initproc)
    (hp : v.kind p = .active) : Roles { v with
      kind := update v.kind p .zombie
      parent := fun q => if v.parent q = some p then some initproc else v.parent q } where
  __ := hR
  busy := by
    intro q hq
    have hqp : q ≠ p := by
      intro heq
      subst heq
      exact hq hidle
    simpa [update_of_ne hqp] using hR.busy q hq
  embryo := by
    intro q n hq
    have hnp : n ≠ p := by
      intro heq
      subst heq
      simp [hR.embryo q n hq] at hp
    simpa [update_of_ne hnp] using hR.embryo q n hq
  parent_active := by
    intro j q hj
    dsimp only at hj ⊢
    split at hj
    · rw [← Option.some.inj hj, update_of_ne hinit.symm]
      exact hR.init_active
    · next hne =>
        have hqp : q ≠ p := by
          intro heq
          subst heq
          exact hne hj
        simpa [update_of_ne hqp] using hR.parent_active j q hj
  init_active := by simpa [update_of_ne hinit.symm] using hR.init_active
  init_parent := by simp [hR.init_parent]

/-- The roles are kept by every step. -/
theorem Roles.step (hR : Roles v) (h : Change v f v') : Roles v' := by
  cases h with
  | quiet => exact hR
  | stack => exact { hR with }
  | @found p np hp hidle hnp =>
      have hkind : Roles { v with kind := update v.kind np .embryo } :=
        hR.setKind (by simp [hnp]) (by simp)
      refine hkind.setStage ?_ ?_
      · intro _
        have hne : p ≠ np := by
          intro heq
          subst heq
          simp [hp] at hnp
        simpa [update_of_ne hne] using hp
      · intro n hn
        obtain rfl : np = n := by simpa [Stage.target] using hn
        refine ⟨update_self .., fun q hq => ?_⟩
        simp [hR.embryo q np hq] at hnp
  | @abandon p np d pages hst _ =>
      have ht : (v.stage p).target = some np := by rw [hst]; rfl
      have hnp := hR.embryo p np ht
      exact { (hR.drop p).setKind (i := np) (k := .unused) (by simp [hnp])
        (fun q hq => absurd hq (hR.target_drop ht)) with }
  | @desert p np _ => exact hR.drop p
  | own hst _ _ => exact { hR.fill hst (.inl rfl) with }
  | share hst hstage => exact { hR.fill hst hstage with }
  | @ready p np hst =>
      have ht : (v.stage p).target = some np := by rw [hst]; rfl
      exact (hR.drop p).setKind (by simp) (fun q hq => absurd hq (hR.target_drop ht))
  | exit hp hidle hinit => exact hR.exit hidle hinit hp
  | wait _ hq _ => exact { hR.reap hq with }
  | join _ hq _ _ => exact hR.reap hq
  | @build p d hp _ _ _ =>
      have hst : Roles { v with stage := update v.stage p (.building d) } :=
        hR.setStage (fun _ => hp) (by simp [Stage.target])
      exact { hst with }
  | @commit p d _ | @bad p d _ => exact { hR.drop p with }

end Roles

/-! ## What a change keeps: the groups -/

section Groups

variable {v v' : View} {f : Option (Proc × Nat)} {i l p q np : Proc} {d : Nat}

theorem Groups.setStage (hG : Groups v) {st : Stage}
    (hmaking : ∀ n, st = .making n → v.leader n = none)
    (hmade : ∀ n, st = .made n → v.leader n ≠ none) :
    Groups { v with stage := update v.stage p st } where
  __ := hG
  making := by
    intro q n hq
    by_cases hqp : q = p
    · subst hqp
      exact hmaking n (by simpa using hq)
    · exact hG.making q n (by simpa [update_of_ne hqp] using hq)
  made := by
    intro q n hq
    by_cases hqp : q = p
    · subst hqp
      exact hmade n (by simpa using hq)
    · exact hG.made q n (by simpa [update_of_ne hqp] using hq)

theorem Groups.drop (hG : Groups v) (p : Proc) :
    Groups { v with stage := update v.stage p .idle } :=
  hG.setStage (by simp) (by simp)

/-- An entry in a group is not given up, one that can run is in a group. -/
theorem Groups.setKind (hG : Groups v) {k : Kind} (hk : k = .unused → v.leader i = none)
    (hrun : k = .active ∨ k = .zombie → v.leader i ≠ none) :
    Groups { v with kind := update v.kind i k } where
  __ := hG
  live := by
    intro j m hj hjk
    dsimp only at hj hjk
    by_cases hji : j = i
    · subst hji
      rw [update_self] at hjk
      simp [hk hjk] at hj
    · rw [update_of_ne hji] at hjk
      exact hG.live j m hj hjk
  placed := by
    intro j hj
    by_cases hji : j = i
    · subst hji
      exact hrun (by simpa using hj)
    · exact hG.placed j (by simpa [update_of_ne hji] using hj)

/-- The members of a group other than that of `i` do not see the directory of
`i`. -/
theorem Groups.setPgdir (hG : Groups v) (hi : v.leader i = none ∨ Owned v i) :
    Groups { v with pgdir := update v.pgdir i d } where
  __ := hG
  same_dir := by
    intro j m hj
    dsimp only at hj ⊢
    by_cases hji : j = i <;> by_cases hmi : m = i
    · rw [hji, hmi]
    · subst hji
      obtain hnone | hown := hi
      · simp [hnone] at hj
      · rw [hown.1] at hj
        exact absurd (Option.some.inj hj).symm hmi
    · subst hmi
      obtain hnone | hown := hi
      · simp [hG.leads j m hj] at hnone
      · exact absurd (hown.2 j hj) hji
    · rw [update_of_ne hji, update_of_ne hmi]
      exact hG.same_dir j m hj

/-- `np` enters the group of `l`, or founds its own, as a child of `p`. -/
theorem Groups.enter (hR : Roles v) (hG : Groups v) (hnp : v.kind np = .embryo)
    (hnone : v.leader np = none) (hidle : ∀ q, v.stage q ≠ .making np) (hp : v.kind p = .active)
    (hl : l = np ∨ v.leader l = some l ∧ v.pgdir np = v.pgdir l) :
    Groups { v with
      parent := update v.parent np (some p)
      leader := update v.leader np (some l) } := by
  -- nobody is a child of `np` or in its group yet
  have hchild : ∀ j q, v.parent j = some q → q ≠ np := by
    rintro j q hj rfl
    simp [hR.parent_active j q hj] at hnp
  have hgroup : ∀ j m, v.leader j = some m → m ≠ np := by
    rintro j m hj rfl
    simp [hG.leads j m hj] at hnone
  have hpnp : p ≠ np := by
    intro heq
    subst heq
    simp [hp] at hnp
  refine ⟨?live, ?leads, ?same_dir, ?placed, ?making, ?made, ?init_leads, ?outside⟩
  all_goals dsimp only
  case live =>
    intro j m hj
    by_cases hjn : j = np
    · simp [hjn, hnp]
    · exact hG.live j m (by rwa [update_of_ne hjn] at hj)
  case leads =>
    intro j m hj
    by_cases hjn : j = np
    · subst hjn
      obtain rfl : l = m := by simpa using hj
      obtain rfl | ⟨hl, -⟩ := hl
      · exact hj
      · rwa [update_of_ne (hgroup l l hl)]
    · rw [update_of_ne hjn] at hj
      rw [update_of_ne (hgroup j m hj)]
      exact hG.leads j m hj
  case same_dir =>
    intro j m hj
    by_cases hjn : j = np
    · subst hjn
      obtain rfl : l = m := by simpa using hj
      obtain rfl | ⟨-, hd⟩ := hl
      · rfl
      · exact hd
    · exact hG.same_dir j m (by rwa [update_of_ne hjn] at hj)
  case placed =>
    intro j hj
    by_cases hjn : j = np
    · simp [hjn]
    · rw [update_of_ne hjn]
      exact hG.placed j hj
  case making =>
    intro q n hq
    have hne : n ≠ np := by
      intro heq
      subst heq
      exact hidle q hq
    rw [update_of_ne hne]
    exact hG.making q n hq
  case made =>
    intro q n hq
    by_cases hn : n = np
    · simp [hn]
    · rw [update_of_ne hn]
      exact hG.made q n hq
  case init_leads =>
    rw [update_of_ne (hR.ne_init (by simp [hnp])).symm]
    exact hG.init_leads
  case outside =>
    intro m q hm hq
    by_cases hmn : m = np
    · subst hmn
      obtain rfl : p = q := by simpa using hq
      rw [update_of_ne hpnp]
      exact fun h => hgroup p m h rfl
    · rw [update_of_ne hmn] at hm hq
      rw [update_of_ne (hchild m q hq)]
      exact hG.outside m q hm hq

/-- `fork` and `clone` fill in the entry that `p` is making. -/
theorem Groups.fill (hR : Roles v) (hG : Groups v) (hst : v.stage p = .making np)
    {stage : Stage} (hstage : stage = .made np ∨ stage = .idle)
    (hl : l = np ∨ v.leader l = some l ∧ d = v.pgdir l) :
    Groups { v with
      stage := update v.stage p stage
      pgdir := update v.pgdir np d
      parent := update v.parent np (some p)
      leader := update v.leader np (some l) } := by
  have ht : (v.stage p).target = some np := by rw [hst]; rfl
  have hnone := hG.making p np hst
  -- `p` puts `np` aside, `np` is filled in, `p` goes to its next stage
  have hdir : Groups { v with
      stage := update v.stage p .idle
      pgdir := update v.pgdir np d } := (hG.drop p).setPgdir (.inl hnone)
  have hroles : Roles { v with
      stage := update v.stage p .idle
      pgdir := update v.pgdir np d } := { hR.drop p with }
  have henter : Groups { v with
      stage := update v.stage p .idle
      pgdir := update v.pgdir np d
      parent := update v.parent np (some p)
      leader := update v.leader np (some l) } := by
    refine hdir.enter hroles (hR.embryo p np ht) hnone ?_
      (hR.busy p (by simp [hst])) ?_
    · intro q hq
      dsimp only at hq
      exact hR.target_drop (q := q) ht (by rw [hq]; rfl)
    · refine hl.imp_right ?_
      rintro ⟨hll, hd⟩
      have hne : l ≠ np := by
        intro heq
        subst heq
        simp [hll] at hnone
      exact ⟨hll, by simp [update_of_ne hne, hd]⟩
  have hmaking : ∀ n, stage = .making n → update v.leader np (some l) n = none := by
    rintro n rfl
    simp at hstage
  have hmade : ∀ n, stage = .made n → update v.leader np (some l) n ≠ none := by
    rintro n rfl
    obtain rfl : n = np := by simpa using hstage
    simp
  have hnext := henter.setStage (p := p) hmaking hmade
  simpa only [update_idem] using hnext

/-- A zombie that is nobody else's leader leaves the table. -/
theorem Groups.reap (hR : Roles v) (hG : Groups v) (hq : v.kind q = .zombie)
    (hlast : ∀ j, v.leader j = some q → j = q) : Groups (v.reap q) := by
  have hchild : ∀ j p, v.parent j = some p → p ≠ q := by
    rintro j p hj rfl
    simp [hR.parent_active j p hj] at hq
  have htarget : ∀ p n, (v.stage p).target = some n → n ≠ q := by
    rintro p n hp rfl
    simp [hR.embryo p n hp] at hq
  have hold : ∀ {j m}, update v.leader q none j = some m → j ≠ q ∧ v.leader j = some m := by
    intro j m hj
    by_cases hjq : j = q
    · simp [hjq] at hj
    · exact ⟨hjq, by rwa [update_of_ne hjq] at hj⟩
  refine ⟨?live, ?leads, ?same_dir, ?placed, ?making, ?made, ?init_leads, ?outside⟩
  all_goals dsimp only [View.reap]
  case live =>
    intro j m hj
    obtain ⟨hjq, hj⟩ := hold hj
    rw [update_of_ne hjq]
    exact hG.live j m hj
  case leads =>
    intro j m hj
    obtain ⟨hjq, hjm⟩ := hold hj
    have hmq : m ≠ q := fun hmq => hjq (hlast j (hmq ▸ hjm))
    rw [update_of_ne hmq]
    exact hG.leads j m hjm
  case same_dir => exact fun j m hj => hG.same_dir j m (hold hj).2
  case placed =>
    intro j hj
    by_cases hjq : j = q
    · simp [hjq] at hj
    · rw [update_of_ne hjq] at hj ⊢
      exact hG.placed j hj
  case making =>
    intro p n hp
    rw [update_of_ne (htarget p n (by rw [hp]; rfl))]
    exact hG.making p n hp
  case made =>
    intro p n hp
    rw [update_of_ne (htarget p n (by rw [hp]; rfl))]
    exact hG.made p n hp
  case init_leads =>
    rw [update_of_ne (hR.ne_init (by simp [hq])).symm]
    exact hG.init_leads
  case outside =>
    intro m p hm hp
    obtain ⟨hmq, hm⟩ := hold hm
    rw [update_of_ne hmq] at hp
    rw [update_of_ne (hchild m p hp)]
    exact hG.outside m p hm hp

/-- The children of `p` are passed to `initproc`, whose group they are not in. -/
theorem Groups.reparent (hR : Roles v) (hG : Groups v) : Groups { v with
    parent := fun q => if v.parent q = some p then some initproc else v.parent q } where
  __ := hG
  outside := by
    intro m q hm hq
    dsimp only at hm hq ⊢
    split at hq
    · next hmp =>
        rw [← Option.some.inj hq, hG.init_leads]
        intro hinit
        rw [← Option.some.inj hinit, hR.init_parent] at hmp
        simp at hmp
    · exact hG.outside m q hm hq

/-- The groups are kept by a step that frees a directory only for its owner. -/
theorem Groups.step (hI : Inv v) (h : Change v f v')
    (hc : ∀ i d, f = some (i, d) → d = v.pgdir i → Owned v i) : Groups v' := by
  have ⟨hR, hG, _, _⟩ := hI
  cases h with
  | quiet => exact hG
  | stack => exact { hG with }
  | @found p np _ _ hnp =>
      have hnone := hG.leader_unused hnp
      have hkind : Groups { v with kind := update v.kind np .embryo } :=
        hG.setKind (by simp) (by simp)
      refine hkind.setStage ?_ (by simp)
      intro n hn
      rwa [← Stage.making.inj hn]
  | @abandon p np d pages hst _ =>
      have hnone := hG.making p np hst
      have hkind := (hG.drop p).setKind (i := np) (k := .unused) (fun _ => hnone) (by simp)
      exact { hkind.setPgdir (i := np) (d := d) (.inl hnone) with }
  | @desert p np _ => exact hG.drop p
  | own hst _ _ => exact { hG.fill hR hst (.inl rfl) (.inl rfl) with }
  | @share p np stage hst hstage =>
      obtain ⟨l, hl, -⟩ := hI.leader (.inl (hR.busy p (by simp [hst])))
      rw [hl]
      exact hG.fill hR hst hstage (.inr ⟨hG.leads p l hl, hG.same_dir p l hl⟩)
  | @ready p np hst =>
      have hplaced := hG.made p np hst
      exact (hG.drop p).setKind (by simp) (fun _ => hplaced)
  | @exit p hp hidle hinit =>
      have hplaced := hG.placed p (.inl hp)
      exact (hG.reparent hR).setKind (by simp) (fun _ => hplaced)
  | @wait p q _ hq _ => exact { hG.reap hR hq (hc q _ rfl rfl).2 with }
  | @join p q hp hq hpar hd =>
      refine hG.reap hR hq ?_
      intro j hj
      exact absurd (hG.leads j q hj) (hI.not_leader hp hpar hd)
  | @build p d _ _ _ _ =>
      have hst : Groups { v with stage := update v.stage p (.building d) } :=
        hG.setStage (by simp) (by simp)
      exact { hst with }
  | @commit p d _ =>
      have hown := hc p _ rfl rfl
      rw [← hown.1, update_eq_self]
      exact { (hG.drop p).setPgdir (i := p) (d := d) (.inr hown) with }
  | @bad p d _ => exact { hG.drop p with }

end Groups

/-! ## What a change keeps: the custody of pages -/

section Custody

variable {v v' : View} {f : Option (Proc × Nat)} {i p q np : Proc} {d : Nat}

/-- Giving a kernel stack back, if there is one. -/
theorem Inv.dropStack (hI : Inv v) (q : Proc) :
    Held (update (page v) (.stack q) none) (update v.pages (v.kstack q) false) := by
  by_cases h0 : v.kstack q = 0
  · rw [h0, ← hI.null, update_eq_self]
    have hnone : page v (.stack q) = none := by simp [page, h0]
    rw [← hnone, update_eq_self]
    exact hI.held
  · exact hI.held.drop (by simp [page, h0])

/-- Stages without a directory are alike. -/
theorem fresh_update {st : Stage} (hp : (v.stage p).fresh = none) (hst : st.fresh = none) :
    ∀ q, (update v.stage p st q).fresh = (v.stage q).fresh := by
  intro q
  by_cases hq : q = p
  · rw [hq, update_self, hp, hst]
  · rw [update_of_ne hq]

/-- `p` has its directory no longer. -/
theorem page_fresh_update {st : Stage} :
    ∀ q, (update v.stage p st q).fresh = update (page v) (.fresh p) st.fresh (.fresh q) := by
  intro q
  by_cases hq : q = p <;> simp [page, hq]

/-- A slot given back before it got an address space. -/
theorem page_abandon {pages : Nat → Bool} (hst : v.stage p = .making np)
    (hnone : v.leader np = none) :
    page { v with
      kind := update v.kind np .unused
      stage := update v.stage p .idle
      pgdir := update v.pgdir np d
      kstack := update v.kstack np 0
      pages := pages } = update (page v) (.stack np) none := by
  funext h
  cases h with
  | stack i => by_cases hi : i = np <;> simp [page, hi]
  | space l => by_cases hl : l = np <;> simp [page, hl, hnone]
  | fresh q => simpa [page] using fresh_update (by simp [hst, Stage.fresh]) rfl q

theorem page_reap : page (v.reap q) = update (update (page v) (.stack q) none) (.space q) none := by
  funext h
  cases h with
  | stack i => by_cases hi : i = q <;> simp [page, View.reap, hi]
  | space l => by_cases hl : l = q <;> simp [page, View.reap, hl]
  | fresh p => simp [page, View.reap]

/-- `exec` puts the directory it built in the place of the one it owned, and
frees the old one. -/
theorem Inv.heldCommit (hI : Inv v) (hst : v.stage p = .building d)
    (hown : v.leader p = some p) :
    Held (update (update (page v) (.fresh p) none) (.space p) (some d))
      (update v.pages (v.pgdir p) false) := by
  refine (hI.held.move (page_fresh hst)).free ?_
  intro h hh
  by_cases hsp : h = .space p
  · subst hsp
    rw [update_self, Option.some.injEq] at hh
    exact hI.fresh_ne hst hown hh.symm
  rw [update_of_ne hsp] at hh
  by_cases hfr : h = .fresh p
  · simp [hfr] at hh
  rw [update_of_ne hfr] at hh
  exact hsp (hI.held.unique hh (page_space hown))

/-- Custody is kept by a step that frees a directory only for its owner. -/
theorem Inv.heldStep (hI : Inv v) (h : Change v f v')
    (hc : ∀ i d, f = some (i, d) → d = v.pgdir i → Owned v i) : Held (page v') v'.pages := by
  have ⟨hR, hG, hH, _⟩ := hI
  cases h with
  | quiet => exact hH
  | @found p np _ hidle _ =>
      convert hH using 1
      funext h
      cases h with
      | fresh q => exact fresh_update (by simp [hidle, Stage.fresh]) rfl q
      | _ => rfl
  | @stack p np k _ hk0 hk =>
      convert hH.take hk (.stack np) using 1
      funext h
      cases h with
      | stack i => by_cases hi : i = np <;> simp [page, hi, hk0]
      | _ => simp [page]
  | @abandon p np d pages hst hpages =>
      have hpage : page { v with
          kind := update v.kind np .unused
          stage := update v.stage p .idle
          pgdir := update v.pgdir np d
          kstack := update v.kstack np 0
          pages := pages } = update (page v) (.stack np) none :=
        page_abandon hst (hG.making p np hst)
      rw [hpage]
      obtain rfl | rfl := hpages
      · refine hH.leak ?_
        intro h c hh
        by_cases hne : h = .stack np <;> simp_all
      · exact hI.dropStack np
  | @desert p np hst | @ready p np hst =>
      convert hH using 1
      funext h
      cases h with
      | fresh q => exact fresh_update (by simp [hst, Stage.fresh]) rfl q
      | _ => rfl
  | @own p np d hst _ hfree =>
      have hnone := hG.making p np hst
      convert hH.take hfree (.space np) using 1
      funext h
      cases h with
      | stack i => simp [page]
      | space l => by_cases hl : l = np <;> simp [page, hl]
      | fresh q => simpa [page] using fresh_update (by simp [hst, Stage.fresh]) rfl q
  | @share p np stage hst hstage =>
      have hnone := hG.making p np hst
      have hfresh : stage.fresh = none := by
        obtain rfl | rfl := hstage <;> rfl
      -- the leader of `p` is not the entry that has no group yet
      have hne : v.leader p ≠ some np := by
        intro hp
        simp [hG.leads p np hp] at hnone
      convert hH using 1
      funext h
      cases h with
      | stack i => rfl
      | space l => by_cases hl : l = np <;> simp [page, hl, hnone, hne]
      | fresh q => exact fresh_update (by simp [hst, Stage.fresh]) hfresh q
  | exit _ _ _ => exact hH
  | @wait p q _ hq _ =>
      have hspace : update (page v) (.stack q) none (.space q) = some (v.pgdir q) := by
        simpa using page_space (hc q _ rfl rfl).1
      convert (hI.dropStack q).drop hspace using 1
      · exact page_reap
      · rfl
  | @join p q hp _ hpar hd =>
      have hnone : update (page v) (.stack q) none (.space q) = none := by
        simpa [page] using hI.not_leader hp hpar hd
      convert hI.dropStack q using 1
      · rw [page_reap]
        exact update_eq_iff.mpr ⟨hnone.symm, fun _ _ => rfl⟩
      · rfl
  | @build p d _ _ _ hfree =>
      convert hH.take hfree (.fresh p) using 1
      funext h
      cases h with
      | fresh q => exact page_fresh_update q
      | _ => simp [page]
  | @commit p d hst =>
      convert hI.heldCommit hst (hc p _ rfl rfl).1 using 1
      funext h
      cases h with
      | stack i => simp [page]
      | space l => by_cases hl : l = p <;> simp [page, hl]
      | fresh q =>
          rw [update_of_ne (by simp)]
          exact page_fresh_update q
  | @bad p d hst =>
      convert hH.drop (page_fresh hst) using 1
      funext h
      cases h with
      | fresh q => exact page_fresh_update q
      | _ => simp [page]

end Custody

/-! ## The invariant along runs -/

section Runs

variable {v v' : View} {f : Option (Proc × Nat)} {i p : Proc} {d : Nat}

/-- `kalloc` never hands out the null page. -/
theorem Change.null (h : Change v f v') (h0 : v.pages 0 = false) : v'.pages 0 = false := by
  have hset : ∀ {k : Nat}, k ≠ 0 → update v.pages k true 0 = false := by
    intro k hk
    rwa [update_of_ne hk.symm]
  have hclear : ∀ (g : Nat → Bool) k, g 0 = false → update g k false 0 = false := by
    intro g k hg
    by_cases hk : 0 = k
    · rw [hk, update_self]
    · rwa [update_of_ne hk]
  cases h with
  | quiet | found | desert | share | ready | exit => exact h0
  | stack _ hk _ | own _ hk _ | build _ _ hk _ => exact hset hk
  | abandon _ hpages =>
      obtain rfl | rfl := hpages
      · exact h0
      · exact hclear _ _ h0
  | wait => exact hclear _ _ (hclear _ _ h0)
  | join | commit | bad => exact hclear _ _ h0

theorem Inv.step (hI : Inv v) (h : Change v f v')
    (hc : ∀ i d, f = some (i, d) → d = v.pgdir i → Owned v i) : Inv v' where
  roles := hI.roles.step h
  groups := Groups.step hI h hc
  held := hI.heldStep h hc
  null := h.null hI.null

theorem inv_userinit {kstack pgdir : Nat} (hk : kstack ≠ 0) (hd : pgdir ≠ 0)
    (hne : kstack ≠ pgdir) : Inv (userinit kstack pgdir).view := by
  have hkind : ∀ q, (userinit kstack pgdir).view.kind q =
      if q = initproc then .active else .unused := by
    intro q
    by_cases hq : q = initproc <;> simp [State.view, userinit, hq, ProcState.kind, Entry.zero]
  have hparent : ∀ q, (userinit kstack pgdir).view.parent q = none := by
    intro q
    by_cases hq : q = initproc <;> simp [State.view, userinit, hq, Entry.zero]
  have hleader : ∀ q, (userinit kstack pgdir).view.leader q =
      if q = initproc then some initproc else none := by
    intro q
    by_cases hq : q = initproc <;> simp [State.view, userinit, hq]
  have hstage : ∀ q, (userinit kstack pgdir).view.stage q = .idle := fun _ => rfl
  have hpage : ∀ h, page (userinit kstack pgdir).view h =
      if h = .stack initproc then some kstack
      else if h = .space initproc then some pgdir else none := by
    intro h
    cases h with
    | stack q =>
        by_cases hq : q = initproc <;> simp [page, State.view, userinit, hq, hk, Entry.zero]
    | space q => by_cases hq : q = initproc <;> simp [page, State.view, userinit, hq]
    | fresh q => rfl
  refine ⟨?roles, ?groups, ⟨?allocated, ?unique⟩, ?null⟩
  case roles => constructor <;> simp_all [Stage.target]
  case groups => constructor <;> grind
  case allocated =>
    intro h d hh
    rw [hpage] at hh
    simp only [State.view, userinit, Bool.or_eq_true, beq_iff_eq]
    grind
  case unique =>
    intro h h' d hh hh'
    rw [hpage] at hh hh'
    grind
  case null => simp [State.view, userinit, hk.symm, hd.symm]

/-- **Alone exactly if owned**: no other entry has the directory of `i` exactly
if `i` owns its address space and no left-over pointer is in the way. -/
theorem Inv.alone_iff (hI : Inv v) (hi : v.kind i = .active ∨ v.kind i = .zombie) :
    Alone v i (v.pgdir i) ↔ Owned v i ∧ NoLeftover v i (v.pgdir i) := by
  obtain ⟨l, hl, hpage⟩ := hI.leader hi
  constructor
  · intro halone
    have hil : l = i := by
      by_contra hne
      have hll := hI.groups.leads i l hl
      exact halone l hne (hI.groups.live l l hll) (hI.groups.same_dir i l hl).symm
    subst hil
    refine ⟨⟨hl, ?_⟩, fun j hj hlive _ => halone j hj hlive⟩
    intro j hj
    by_contra hne
    exact halone j hne (hI.groups.live j l hj) (hI.groups.same_dir j l hj)
  · rintro ⟨⟨hown, hlast⟩, hleft⟩ j hj hlive hd
    cases hlj : v.leader j with
    | none => exact hleft j hj hlive hlj hd
    | some m =>
        have hmi : m = i := hI.leader_eq hlj hown hd
        exact hj (hlast j (hmi ▸ hlj))

/-- For the directory `exec` gives up building, only a left-over pointer can be
in the way. -/
theorem Inv.alone_fresh_iff (hI : Inv v) (hp : v.stage p = .building d) :
    Alone v p d ↔ NoLeftover v p d := by
  constructor
  · exact fun halone j hj hlive _ => halone j hj hlive
  · intro hleft j hj hlive hd
    cases hlj : v.leader j with
    | none => exact hleft j hj hlive hlj hd
    | some m => exact hI.fresh_ne hp hlj hd

/-- What holds whenever `wait` or `exec` frees a directory. -/
theorem Inv.freed_iff (hI : Inv v) (h : Change v (some (i, d)) v') :
    (Alone v i d ↔ (d = v.pgdir i → Owned v i) ∧ NoLeftover v i d) ∧ v.pages d = true ∧
      (Alone v i d → ∀ j, v'.kind j = .active → v'.pgdir j ≠ d) := by
  cases h with
  | wait _ hq _ =>
      obtain ⟨l, -, hpage⟩ := hI.leader (.inr hq)
      refine ⟨?_, hI.held.allocated hpage, ?_⟩
      · exact (hI.alone_iff (.inr hq)).trans (by simp)
      · intro halone j hj
        dsimp only [View.reap] at hj ⊢
        have hji : j ≠ i := by
          intro heq
          subst heq
          simp at hj
        rw [update_of_ne hji] at hj
        exact halone j hji (by simp [hj])
  | commit hst =>
      have hp := hI.roles.busy i (by simp [hst])
      obtain ⟨l, hl, hpage⟩ := hI.leader (.inl hp)
      refine ⟨?_, hI.held.allocated hpage, ?_⟩
      · exact (hI.alone_iff (.inl hp)).trans (by simp)
      · intro halone j hj
        dsimp only at hj ⊢
        by_cases hji : j = i
        · rw [hji, update_self]
          exact (hI.fresh_ne hst hl).symm
        · rw [update_of_ne hji]
          exact halone j hji (by simp [hj])
  | bad hst =>
      have hp := hI.roles.busy i (by simp [hst])
      obtain ⟨l, hl, -⟩ := hI.leader (.inl hp)
      have hne := hI.fresh_ne hst hl
      refine ⟨?_, hI.held.allocated (page_fresh hst), ?_⟩
      · rw [hI.alone_fresh_iff hst]
        exact (and_iff_right fun hd => absurd hd.symm hne).symm
      · intro halone j hj
        dsimp only at hj ⊢
        by_cases hji : j = i
        · rwa [hji]
        · exact halone j hji (by simp [hj])

end Runs

/-! ## Lifetime -/

/-- A step that frees a directory of the table frees it for its owner, and no
left-over pointer to it is in the way. -/
def Disciplined (s : State) (a : Act) : Prop :=
  ∀ c ∈ freed s a, (c.2 = (s.table c.1).pgdir → Owned s.view c.1) ∧ NoLeftover s.view c.1 c.2

/-- The directory a step frees is allocated, no other entry of the table has it
as its `pgdir`, and no process that can still run is left with it. -/
def FreedSafely (s : State) (a : Act) (s' : State) : Prop :=
  ∀ c ∈ freed s a,
    (∀ j, j ≠ c.1 → (s.table j).state ≠ .unused → (s.table j).pgdir ≠ c.2) ∧
    s.pages c.2 = true ∧
    ∀ j, (s'.table j).state.kind = .active → (s'.table j).pgdir ≠ c.2

instance (v : View) (i : Proc) : Decidable (Owned v i) := inferInstanceAs (Decidable (_ ∧ _))

instance (v : View) (i : Proc) (d : Nat) : Decidable (NoLeftover v i d) :=
  inferInstanceAs (Decidable (∀ _, _))

instance (s : State) (a : Act) : Decidable (Disciplined s a) :=
  inferInstanceAs (Decidable (∀ _ ∈ _, _))

instance (s : State) (a : Act) (s' : State) : Decidable (FreedSafely s a s') :=
  inferInstanceAs (Decidable (∀ _ ∈ _, _))

theorem system_inv : system.InvariantUnder Disciplined fun s => Inv s.view := by
  refine TSys.Inductive.invariantUnder ⟨?_, ?_⟩
  · rintro s ⟨kstack, pgdir, hk, hd, hne, rfl⟩
    exact inv_userinit hk hd hne
  · intro s a s' hI hdis hstep
    refine hI.step (step_change hstep) ?_
    intro i d hf hd
    exact (hdis (i, d) hf).1 hd

theorem kind_ne_unused {s : State} {j : Proc} :
    s.view.kind j ≠ .unused ↔ (s.table j).state ≠ .unused := by
  simp only [State.view]
  cases (s.table j).state <;> simp [ProcState.kind]

/-- **Lifetime of address spaces.** In every run whose steps are all
disciplined, `wait` and `exec` free a directory safely exactly in their
disciplined steps. -/
theorem address_space_lifetime : ∀ s, system.ReachableUnder Disciplined s →
    ∀ a s', system.next s a = some s' → (FreedSafely s a s' ↔ Disciplined s a) := by
  intro s hs a s' hstep
  have hI := system_inv s hs
  have hchange := step_change hstep
  unfold FreedSafely Disciplined
  cases hf : freed s a with
  | none => simp
  | some c =>
      rw [hf] at hchange
      obtain ⟨halone, hpages, hafter⟩ := hI.freed_iff hchange
      simp only [Option.mem_def, Option.some.injEq, forall_eq']
      have hview : Alone s.view c.1 c.2 ↔
          ∀ j, j ≠ c.1 → (s.table j).state ≠ .unused → (s.table j).pgdir ≠ c.2 := by
        simp only [Alone, kind_ne_unused]
        rfl
      constructor
      · rintro ⟨h, -, -⟩
        exact halone.mp (hview.mpr h)
      · intro h
        have hal := halone.mpr h
        exact ⟨hview.mp hal, hpages, hafter hal⟩

/-- The slots of the two processes after `initproc`. -/
def child : Proc := ⟨1, by decide⟩

def thread : Proc := ⟨2, by decide⟩

/-- `initproc` forks, and the child gets the processor. -/
def forkChild : List Act :=
  [.schedule initproc, .create initproc .fork, .kalloc initproc (some 3),
    .copyuvm initproc (some 4), .ready initproc, .yield initproc, .schedule child]

/-- The child exits and `initproc` waits for it. -/
theorem address_space_lifetime_exited_child : ∃ s s', system.ReachableUnder Disciplined s ∧
    system.next s (.scan initproc) = some s' ∧ freed s (.scan initproc) = some (child, 4) ∧
    FreedSafely s (.scan initproc) s' := by
  have hrun : (system.runChecked Disciplined (userinit 1 2)
      (forkChild ++ [.exit child, .schedule initproc, .wait initproc])).any (fun s =>
        decide (Disciplined s (.scan initproc) ∧ freed s (.scan initproc) = some (child, 4)) &&
          (system.next s (.scan initproc)).isSome) = true := by
    decide +kernel
  obtain ⟨s, hs, hend⟩ := (Option.any_eq_true _ _).mp hrun
  rw [Bool.and_eq_true, decide_eq_true_eq, Option.isSome_iff_exists] at hend
  obtain ⟨⟨hdis, hfreed⟩, s', hstep⟩ := hend
  have hreach : system.ReachableUnder Disciplined s :=
    TSys.ReachableUnder.runChecked
      (.init ⟨1, 2, by decide, by decide, by decide, rfl⟩) hs
  exact ⟨s, s', hreach, hstep, hfreed, (address_space_lifetime s hreach _ s' hstep).mpr hdis⟩

/-- The child clones a thread, the thread exits, and the child calls `wait`
where it should call `join`: the directory it runs in is freed. -/
theorem wait_frees_shared_directory : ¬ ∀ s, system.Reachable s →
    ∀ a s', system.next s a = some s' → FreedSafely s a s' := by
  intro hall
  have hrun : (system.run (userinit 1 2)
      (forkChild ++ [.create child (.clone 0 0 0), .kalloc child (some 5), .share child true,
        .ready child, .cloned child, .yield child, .schedule thread, .exit thread,
        .schedule child, .wait child])).any (fun s =>
          (system.next s (.scan child)).any fun s' =>
            !decide (FreedSafely s (.scan child) s')) = true := by
    decide +kernel
  obtain ⟨s, hs, hend⟩ := (Option.any_eq_true _ _).mp hrun
  obtain ⟨s', hstep, hbad⟩ := (Option.any_eq_true _ _).mp hend
  have hreach : system.Reachable s :=
    TSys.Reachable.run (.init ⟨1, 2, by decide, by decide, by decide, rfl⟩) hs
  simp [hall s hreach _ s' hstep] at hbad

end Os377.Xv6
