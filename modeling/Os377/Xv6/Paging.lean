import Mathlib.Algebra.Group.Nat.Defs
import Mathlib.Logic.Function.Basic
import Os377.Xv6.ProcTable

/-!
# The user part of a page directory

`walkpgdir`, `mappages`, `allocuvm`, `deallocuvm` and `copyuvm` of `vm.c`, on
the present bits of the user page tables. Of `kalloc` only the number of pages
it can still hand out matters (`avail`). A `panic` is a result of its own.

What these functions mean is said with `Upto d n`: the pages of `d` that start
below `n` are mapped, and no other user page is.
-/

namespace Os377.Xv6

open Function

/-- `uint`, as an address. -/
abbrev Addr := BitVec 32

/-- `KERNBASE` of `memlayout.h`. -/
def kernbase : Addr := 0x80000000

/-- `PGSIZE` as a `uint`. -/
def pgbytes : Addr := BitVec.ofNat 32 pgsize

/-- `PGROUNDUP(sz)` -/
def pgroundup (sz : Addr) : Addr := (sz + pgbytes - 1) &&& ~~~(pgbytes - 1)

/-- `PGROUNDDOWN(a)` -/
def pgrounddown (a : Addr) : Addr := a &&& ~~~(pgbytes - 1)

/-- `PDX(va)` -/
def pdx (va : Addr) : Nat := va.toNat / 2 ^ 22 % 2 ^ 10

/-- `PTX(va)` -/
def ptx (va : Addr) : Nat := va.toNat / 2 ^ 12 % 2 ^ 10

/-- `PGADDR(d, 0, 0)` -/
def pgaddr (d : Nat) : Addr := BitVec.ofNat 32 (d * 2 ^ 22)

/-- No loop over the pages of an address space is longer. -/
def npages : Nat := 2 ^ 20

/-- A page directory: for each entry with `PTE_P`, the `PTE_P` bits of the page
table. -/
structure PageDir where
  tables : Nat → Option (Nat → Bool)

namespace PageDir

/-- No page table. -/
def empty : PageDir := ⟨fun _ => none⟩

variable (d : PageDir) (va : Addr)

/-- `walkpgdir(pgdir, va, 0)` finds an entry with `PTE_P`. -/
def mapped : Bool :=
  match d.tables (pdx va) with
  | none => false
  | some pgtab => pgtab (ptx va)

/-- `*pte = …`, in a page table that exists. -/
def setPte (present : Bool) : PageDir :=
  ⟨update d.tables (pdx va) ((d.tables (pdx va)).map fun pgtab => update pgtab (ptx va) present)⟩

/-- A page table without entries for `va`. -/
def addTable : PageDir := ⟨update d.tables (pdx va) (some fun _ => false)⟩

/-- `walkpgdir(pgdir, va, 1)` -/
def walk (avail : Nat) : Option (PageDir × Nat) :=
  match d.tables (pdx va) with
  | some _ => some (d, avail)
  | none =>
      match avail with
      | 0 => none
      | avail + 1 => some (d.addTable va, avail)

end PageDir

/-- How `mappages` ends. -/
inductive MapResult where
  | ok (d : PageDir) (avail : Nat)
  /-- `return -1` -/
  | nomem (d : PageDir)
  /-- `panic("remap")` -/
  | remap

/-- The loop of `mappages`, with `more` pages from `a` to `last`. -/
def mapLoop : Nat → PageDir → Addr → Nat → MapResult
  | more, d, a, avail =>
      match d.walk a avail with
      | none => .nomem d
      | some (d, avail) =>
          if d.mapped a then .remap
          else
            match more with
            | 0 => .ok (d.setPte a true) avail
            | more + 1 => mapLoop more (d.setPte a true) (a + pgbytes) avail

def mappages (d : PageDir) (va size : Addr) (avail : Nat) : MapResult :=
  let a := pgrounddown va
  let last := pgrounddown (va + size - 1)
  mapLoop ((last - a).toNat / pgsize) d a avail

/-- The loop of `deallocuvm`. -/
def deallocLoop (oldsz : Addr) : Nat → PageDir → Addr → PageDir
  | 0, d, _ => d
  | fuel + 1, d, a =>
      if a < oldsz then
        match d.tables (pdx a) with
        | none => deallocLoop oldsz fuel d (pgaddr (pdx a + 1) - pgbytes + pgbytes)
        | some pgtab =>
            deallocLoop oldsz fuel (if pgtab (ptx a) then d.setPte a false else d) (a + pgbytes)
      else d

/-- The new size, and the directory. -/
def deallocuvm (d : PageDir) (oldsz newsz : Addr) : Addr × PageDir :=
  if oldsz ≤ newsz then (oldsz, d)
  else (newsz, deallocLoop oldsz npages d (pgroundup newsz))

/-- The loop of `allocuvm`. -/
def allocLoop (newsz : Addr) : Nat → PageDir → Addr → Nat → MapResult
  | 0, d, _, avail => .ok d avail
  | fuel + 1, d, a, avail =>
      if a < newsz then
        match avail with
        | 0 => .nomem d
        | avail + 1 =>
            match mappages d a pgbytes avail with
            | .ok d avail => allocLoop newsz fuel d (a + pgbytes) avail
            | .nomem d => .nomem d
            | .remap => .remap
      else .ok d avail

/-- The new size or 0, and the directory; `none` is `panic("remap")`. -/
def allocuvm (d : PageDir) (oldsz newsz : Addr) (avail : Nat) : Option (Addr × PageDir) :=
  if kernbase ≤ newsz then some (0, d)
  else if newsz < oldsz then some (oldsz, d)
  else
    match allocLoop newsz npages d (pgroundup oldsz) avail with
    | .ok d _ => some (newsz, d)
    | .nomem d => some (0, (deallocuvm d newsz oldsz).2)
    | .remap => none

/-- The loop of `copyuvm`, when `kalloc` succeeds: each page takes at most one
new page table. `none` is a panic. -/
def copyLoop (d : PageDir) (sz : Addr) : Nat → PageDir → Addr → Option PageDir
  | 0, new, _ => some new
  | fuel + 1, new, i =>
      if i < sz then
        if d.mapped i then
          match mappages new i pgbytes 1 with
          | .ok new _ => copyLoop d sz fuel new (i + pgbytes)
          | .nomem _ | .remap => none
        else none
      else some new

def copyuvm (d : PageDir) (sz : Addr) : Option PageDir := copyLoop d sz npages .empty 0

/-! ## Rounding -/

theorem pgbytes_toNat : pgbytes.toNat = 4096 := rfl

/-- Clearing the low bits of a word. -/
theorem toNat_and_not {w k : Nat} (a m : BitVec w) (hm : m.toNat = 2 ^ k - 1) :
    (a &&& ~~~m).toNat = a.toNat / 2 ^ k * 2 ^ k := by
  have hdisjoint : (a &&& ~~~m) &&& (a &&& m) = 0#w := by
    ext i hi
    simp only [BitVec.getElem_and, BitVec.getElem_not, BitVec.getElem_zero]
    cases a[i] <;> cases m[i] <;> rfl
  have hjoin : (a &&& ~~~m) ||| (a &&& m) = a := by
    ext i hi
    simp only [BitVec.getElem_or, BitVec.getElem_and, BitVec.getElem_not]
    cases a[i] <;> cases m[i] <;> rfl
  have hsum := BitVec.toNat_add_of_and_eq_zero hdisjoint
  rw [BitVec.add_eq_or_of_and_eq_zero _ _ hdisjoint, hjoin, BitVec.toNat_and a m, hm,
    Nat.and_two_pow_sub_one_eq_mod] at hsum
  have hdiv := Nat.div_add_mod' a.toNat (2 ^ k)
  omega

theorem pgrounddown_toNat (a : Addr) : (pgrounddown a).toNat = a.toNat / 4096 * 4096 :=
  toNat_and_not (k := 12) a (pgbytes - 1) rfl

theorem pgroundup_toNat {sz : Addr} (h : sz ≤ kernbase) :
    (pgroundup sz).toNat = (sz.toNat + 4095) / 4096 * 4096 := by
  have hle : sz.toNat ≤ 2 ^ 31 := h
  have hadd : (sz + pgbytes - 1).toNat = sz.toNat + 4095 := by
    have := pgbytes_toNat
    bv_omega
  have hmask := toNat_and_not (k := 12) (sz + pgbytes - 1) (pgbytes - 1) rfl
  rw [hadd] at hmask
  exact hmask

/-- An address is below `PGROUNDUP(sz)` exactly if its page starts below `sz`. -/
theorem lt_pgroundup {sz va : Addr} (h : sz ≤ kernbase) :
    va < pgroundup sz ↔ va.toNat / 4096 * 4096 < sz.toNat := by
  rw [BitVec.lt_def, pgroundup_toNat h]
  omega

/-! ## One page -/

section Pages

variable {d d' : PageDir} {va x : Addr} {avail avail' : Nat}

theorem same_page : (pdx x = pdx va ∧ ptx x = ptx va) ↔ x.toNat / 4096 = va.toNat / 4096 := by
  have hx := x.isLt
  have hva := va.isLt
  unfold pdx ptx
  omega

theorem mapped_of_table {pgtab : Nat → Bool} (h : d.tables (pdx va) = some pgtab) :
    d.mapped va = pgtab (ptx va) := by
  rw [PageDir.mapped, h]

theorem mapped_of_no_table (h : d.tables (pdx va) = none) : d.mapped va = false := by
  rw [PageDir.mapped, h]

theorem mapped_setPte (h : (d.tables (pdx va)).isSome) (b : Bool) :
    (d.setPte va b).mapped x = if x.toNat / 4096 = va.toNat / 4096 then b else d.mapped x := by
  obtain ⟨pgtab, hpgtab⟩ := Option.isSome_iff_exists.mp h
  unfold PageDir.setPte PageDir.mapped
  by_cases hpdx : pdx x = pdx va
  · simp only [hpdx, update_self, hpgtab, Option.map_some, update_apply]
    by_cases hptx : ptx x = ptx va
    · rw [if_pos hptx, if_pos (same_page.mp ⟨hpdx, hptx⟩)]
    · rw [if_neg hptx, if_neg fun hpage => hptx (same_page.mpr hpage).2]
  · rw [if_neg fun hpage => hpdx (same_page.mpr hpage).1]
    simp only [update_of_ne hpdx]

theorem mapped_addTable (h : d.tables (pdx va) = none) : (d.addTable va).mapped x = d.mapped x := by
  unfold PageDir.addTable PageDir.mapped
  by_cases hpdx : pdx x = pdx va
  · simp only [hpdx, update_self, h]
  · simp only [update_of_ne hpdx]

/-- `walkpgdir` maps nothing. -/
theorem walk_mapped (h : d.walk va avail = some (d', avail')) :
    (d'.tables (pdx va)).isSome ∧ ∀ x, d'.mapped x = d.mapped x := by
  unfold PageDir.walk at h
  cases htable : d.tables (pdx va) with
  | some pgtab =>
      simp only [htable, Option.some.injEq, Prod.mk.injEq] at h
      obtain ⟨rfl, -⟩ := h
      exact ⟨by rw [htable]; rfl, fun x => rfl⟩
  | none =>
      cases avail with
      | zero => simp [htable] at h
      | succ n =>
          simp only [htable, Option.some.injEq, Prod.mk.injEq] at h
          obtain ⟨rfl, -⟩ := h
          exact ⟨by simp [PageDir.addTable], fun x => mapped_addTable htable⟩

variable (d va) in
theorem walk_some (h : 0 < avail) : ∃ r, d.walk va avail = some r := by
  unfold PageDir.walk
  cases d.tables (pdx va) with
  | some pgtab => exact ⟨_, rfl⟩
  | none =>
      obtain ⟨n, rfl⟩ : ∃ n, avail = n + 1 := ⟨avail - 1, by omega⟩
      exact ⟨_, rfl⟩

/-- For one page the loop of `mappages` ends in its first iteration. -/
theorem mappages_page (ha : va.toNat % 4096 = 0) :
    mappages d va pgbytes avail = mapLoop 0 d va avail := by
  have hva := va.isLt
  have hfirst : pgrounddown va = va := by
    refine BitVec.eq_of_toNat_eq ?_
    rw [pgrounddown_toNat]
    omega
  have hadd : (va + pgbytes - 1).toNat = va.toNat + 4095 := by
    have := pgbytes_toNat
    bv_omega
  have hlast : pgrounddown (va + pgbytes - 1) = va := by
    refine BitVec.eq_of_toNat_eq ?_
    rw [pgrounddown_toNat, hadd]
    omega
  simp only [mappages, hfirst, hlast, BitVec.sub_self, BitVec.toNat_zero, Nat.zero_div]

variable (avail) in
/-- `mappages` of a page that is not mapped. -/
theorem mappages_spec (ha : va.toNat % 4096 = 0) (hnew : d.mapped va = false) :
    (∃ d' avail', mappages d va pgbytes avail = .ok d' avail' ∧
      ∀ x, d'.mapped x = if x.toNat / 4096 = va.toNat / 4096 then true else d.mapped x) ∨
    (mappages d va pgbytes avail = .nomem d ∧ avail = 0) := by
  rw [mappages_page ha, mapLoop]
  cases hwalk : d.walk va avail with
  | none =>
      refine Or.inr ⟨rfl, ?_⟩
      by_contra hpos
      obtain ⟨r, hr⟩ := walk_some d va (Nat.pos_of_ne_zero hpos)
      rw [hwalk] at hr
      cases hr
  | some r =>
      obtain ⟨d', avail'⟩ := r
      obtain ⟨htable, hsame⟩ := walk_mapped hwalk
      refine Or.inl ⟨d'.setPte va true, avail', ?_, fun x => ?_⟩
      · simp only [hsame, hnew, Bool.false_eq_true, if_false]
      · rw [mapped_setPte htable, hsame]

end Pages

/-! ## All pages below a bound -/

/-- The user pages that start below `n` are mapped, and no others. -/
def Upto (d : PageDir) (n : Nat) : Prop :=
  ∀ va < kernbase, d.mapped va = true ↔ va.toNat / 4096 * 4096 < n

section Upto

variable {d new : PageDir} {a i sz oldsz newsz : Addr} {n fuel avail : Nat}

theorem lt_kernbase {va : Addr} : va < kernbase ↔ va.toNat < 2 ^ 31 := Iff.rfl

theorem le_kernbase {va : Addr} : va ≤ kernbase ↔ va.toNat ≤ 2 ^ 31 := Iff.rfl

theorem lt_kernbase_of_lt {va : Addr} (h : va < sz) (hsz : sz ≤ kernbase) : va < kernbase :=
  lt_kernbase.mpr (Nat.lt_of_lt_of_le h (le_kernbase.mp hsz))

theorem upto_empty : Upto .empty 0 := by
  intro va _
  rw [mapped_of_no_table rfl]
  simp

/-- Only the pages that start below the bound matter. -/
theorem Upto.congr {m : Nat} (hd : Upto d n) (h : ∀ k, k * 4096 < n ↔ k * 4096 < m) : Upto d m :=
  fun va hva => (hd va hva).trans (h _)

theorem upto_pgroundup (h : sz ≤ kernbase) : Upto d (pgroundup sz).toNat ↔ Upto d sz.toNat := by
  rw [pgroundup_toNat h]
  exact ⟨fun hd => hd.congr fun k => by omega, fun hd => hd.congr fun k => by omega⟩

/-- The next page is mapped. -/
theorem Upto.next {d' : PageDir} (hd : Upto d a.toNat) (ha : a.toNat % 4096 = 0)
    (hd' : ∀ x, d'.mapped x = if x.toNat / 4096 = a.toNat / 4096 then true else d.mapped x) :
    Upto d' (a.toNat + 4096) := by
  intro x hx
  rw [hd' x]
  split
  · next hpage => exact iff_of_true rfl (by omega)
  · next hpage =>
      rw [hd x hx]
      omega

/-- The first page above the bound is not mapped. -/
theorem Upto.not_mapped (hd : Upto d a.toNat) (ha : a.toNat % 4096 = 0) (hk : a < kernbase) :
    d.mapped a = false := by
  rw [← Bool.not_eq_true, hd a hk]
  omega

theorem add_pgbytes (h : a < kernbase) : (a + pgbytes).toNat = a.toNat + 4096 := by
  have := lt_kernbase.mp h
  have := pgbytes_toNat
  bv_omega

variable (fuel avail) in
/-- `allocuvm` maps pages until `newsz` is reached or memory is short, and never
meets a mapped one. -/
theorem allocLoop_spec (hd : Upto d a.toNat) (ha : a.toNat % 4096 = 0) (hsz : newsz ≤ kernbase)
    (hfuel : newsz.toNat ≤ a.toNat + fuel * 4096) :
    (∃ d' avail', allocLoop newsz fuel d a avail = .ok d' avail' ∧
      Upto d' (max a.toNat newsz.toNat)) ∨
    ∃ d' n, allocLoop newsz fuel d a avail = .nomem d' ∧ Upto d' n ∧ a.toNat ≤ n ∧
      n < newsz.toNat := by
  induction fuel generalizing d a avail with
  | zero =>
      refine Or.inl ⟨d, avail, rfl, ?_⟩
      rwa [max_eq_left (by omega)]
  | succ fuel ih =>
      rw [allocLoop.eq_def]
      dsimp only
      split
      · next hlt =>
          have hlt' : a.toNat < newsz.toNat := hlt
          have hk := lt_kernbase_of_lt hlt hsz
          cases avail with
          | zero => exact Or.inr ⟨d, a.toNat, rfl, hd, le_refl _, hlt'⟩
          | succ avail =>
              rcases mappages_spec avail ha (hd.not_mapped ha hk) with
                ⟨d', avail', hmap, hd'⟩ | ⟨hmap, -⟩
              · have hnext := add_pgbytes hk
                have hupto : Upto d' (a + pgbytes).toNat := by
                  rw [hnext]
                  exact hd.next ha hd'
                simp only [hmap]
                rcases ih avail' hupto (by omega) (by omega) with
                  ⟨d'', avail'', hloop, h⟩ | ⟨d'', n, hloop, h, hn, hlast⟩
                · refine Or.inl ⟨d'', avail'', hloop, h.congr fun k => ?_⟩
                  omega
                · exact Or.inr ⟨d'', n, hloop, h, by omega, hlast⟩
              · simp only [hmap]
                exact Or.inr ⟨d, a.toNat, rfl, hd, le_refl _, hlt'⟩
      · next hge =>
          have hge' : newsz.toNat ≤ a.toNat := not_lt.mp hge
          refine Or.inl ⟨d, avail, rfl, ?_⟩
          rwa [max_eq_left hge']

/-- `deallocuvm` unmaps the pages from `a` on that start below `oldsz`. -/
theorem deallocLoop_mapped (ha : a.toNat % 4096 = 0) (hsz : oldsz ≤ kernbase)
    (hfuel : oldsz.toNat ≤ a.toNat + fuel * 4096) (x : Addr) :
    (deallocLoop oldsz fuel d a).mapped x = true ↔
      d.mapped x = true ∧ ¬ (a.toNat ≤ x.toNat ∧ x.toNat / 4096 * 4096 < oldsz.toNat) := by
  induction fuel generalizing d a with
  | zero =>
      rw [deallocLoop]
      exact ⟨fun h => ⟨h, by omega⟩, And.left⟩
  | succ fuel ih =>
      rw [deallocLoop]
      split
      · next hlt =>
          have hlt' : a.toNat < oldsz.toNat := hlt
          have hk := lt_kernbase_of_lt hlt hsz
          have hnext := add_pgbytes hk
          cases htable : d.tables (pdx a) with
          | none =>
              -- no page up to the next page table is mapped
              have hpdx : pdx a = a.toNat / 2 ^ 22 := by
                have := a.isLt
                unfold pdx
                omega
              have hskip : (pgaddr (pdx a + 1) - pgbytes + pgbytes).toNat =
                  (a.toNat / 2 ^ 22 + 1) * 2 ^ 22 := by
                have := lt_kernbase.mp hk
                rw [BitVec.sub_add_cancel, pgaddr, BitVec.toNat_ofNat, hpdx]
                omega
              have hnone : x.toNat / 2 ^ 22 = a.toNat / 2 ^ 22 → d.mapped x = false := by
                intro heq
                refine mapped_of_no_table ?_
                rw [pdx, heq, ← pdx, htable]
              rw [ih (by omega) (by omega), hskip]
              refine and_congr_right fun hx => not_congr ?_
              have hfar : x.toNat / 2 ^ 22 ≠ a.toNat / 2 ^ 22 := fun heq => by
                rw [hnone heq] at hx
                cases hx
              omega
          | some pgtab =>
              have hset : (if pgtab (ptx a) then d.setPte a false else d).mapped x =
                  if x.toNat / 4096 = a.toNat / 4096 then false else d.mapped x := by
                split
                · exact mapped_setPte (by rw [htable]; rfl) false
                · next hclear =>
                    split
                    · next hpage =>
                        obtain ⟨hpdx, hptx⟩ := same_page.mpr hpage
                        rw [mapped_of_table (hpdx ▸ htable), hptx, Bool.eq_false_iff]
                        exact hclear
                    · rfl
              rw [ih (by omega) (by omega), hnext, hset]
              split
              · next hpage => exact iff_of_false (by simp) fun h => h.2 (by omega)
              · next hpage => exact and_congr_right fun _ => not_congr (by omega)
      · next hge =>
          have hge' : oldsz.toNat ≤ a.toNat := not_lt.mp hge
          exact ⟨fun h => ⟨h, by omega⟩, And.left⟩

/-- Shrinking to a size of at most `n` bytes. -/
theorem deallocuvm_upto (hd : Upto d n) (hn : n ≤ oldsz.toNat) (hold : oldsz ≤ kernbase)
    (hlt : newsz < oldsz) (hmin : newsz.toNat ≤ n) :
    ∃ d', deallocuvm d oldsz newsz = (newsz, d') ∧ Upto d' newsz.toNat := by
  refine ⟨_, if_neg (BitVec.not_le.mpr hlt), fun x hx => ?_⟩
  have hlt' : newsz.toNat < oldsz.toNat := hlt
  have hold' := le_kernbase.mp hold
  have hround := pgroundup_toNat (show newsz ≤ kernbase from le_kernbase.mpr (by omega))
  rw [deallocLoop_mapped (by omega) hold (by unfold npages; omega), hd x hx, hround]
  omega

/-- `allocuvm` on a directory that holds exactly the pages of `oldsz` bytes: it
does not panic, and where it fails it undoes what it has done. -/
theorem allocuvm_spec (hd : Upto d oldsz.toNat) (hold : oldsz < kernbase) (newsz : Addr)
    (avail : Nat) : ∃ r d', allocuvm d oldsz newsz avail = some (r, d') ∧
      ((r = 0 ∧ Upto d' oldsz.toNat) ∨ (newsz < oldsz ∧ r = oldsz ∧ d' = d) ∨
        (oldsz ≤ newsz ∧ newsz < kernbase ∧ r = newsz ∧ Upto d' newsz.toNat)) := by
  have hold' := lt_kernbase.mp hold
  rw [allocuvm]
  split
  · exact ⟨0, d, rfl, Or.inl ⟨rfl, hd⟩⟩
  · next hk =>
      have hnew : newsz < kernbase := BitVec.not_le.mp hk
      have hnew' := lt_kernbase.mp hnew
      split
      · next hlt => exact ⟨oldsz, d, rfl, Or.inr (Or.inl ⟨hlt, rfl, rfl⟩)⟩
      · next hge =>
          have hge' : oldsz.toNat ≤ newsz.toNat := not_lt.mp hge
          have hround := pgroundup_toNat (le_kernbase.mpr hold'.le)
          rcases allocLoop_spec npages avail ((upto_pgroundup (le_kernbase.mpr hold'.le)).mpr hd)
              (by omega) (le_kernbase.mpr hnew'.le) (by unfold npages; omega) with
            ⟨d', avail', hloop, hd'⟩ | ⟨d', n, hloop, hd', hn, hlast⟩
          · refine ⟨newsz, d', by simp only [hloop], Or.inr (Or.inr ⟨hge', hnew, rfl, ?_⟩)⟩
            refine hd'.congr fun k => ?_
            omega
          · have hgrow : oldsz < newsz := show oldsz.toNat < newsz.toNat by omega
            obtain ⟨d'', hundo, hd''⟩ := deallocuvm_upto hd' hlast.le (le_kernbase.mpr hnew'.le)
              hgrow (by omega)
            exact ⟨0, d'', by simp only [hloop, hundo], Or.inl ⟨rfl, hd''⟩⟩

/-- `copyuvm` copies the pages that start below `sz`. -/
theorem copyLoop_spec (hd : Upto d sz.toNat) (hnew : Upto new i.toNat) (hi : i.toNat % 4096 = 0)
    (hsz : sz ≤ kernbase) (hfuel : sz.toNat ≤ i.toNat + fuel * 4096) :
    ∃ new', copyLoop d sz fuel new i = some new' ∧ Upto new' (max i.toNat sz.toNat) := by
  induction fuel generalizing new i with
  | zero =>
      refine ⟨new, rfl, ?_⟩
      rwa [max_eq_left (by omega)]
  | succ fuel ih =>
      rw [copyLoop]
      split
      · next hlt =>
          have hlt' : i.toNat < sz.toNat := hlt
          have hk := lt_kernbase_of_lt hlt hsz
          have hpage : d.mapped i = true := (hd i hk).mpr (by omega)
          have hnext := add_pgbytes hk
          rcases mappages_spec 1 hi (hnew.not_mapped hi hk) with
            ⟨new', avail', hmap, hnew'⟩ | ⟨-, hzero⟩
          · have hupto : Upto new' (i + pgbytes).toNat := by
              rw [hnext]
              exact hnew.next hi hnew'
            obtain ⟨last, hloop, hlast⟩ := ih hupto (by omega) (by omega)
            refine ⟨last, by simp only [hpage, if_true, hmap, hloop], hlast.congr fun k => ?_⟩
            omega
          · cases hzero
      · next hge =>
          have hge' : sz.toNat ≤ i.toNat := not_lt.mp hge
          refine ⟨new, rfl, ?_⟩
          rwa [max_eq_left hge']

theorem copyuvm_spec (hd : Upto d sz.toNat) (hsz : sz ≤ kernbase) :
    ∃ new, copyuvm d sz = some new ∧ Upto new sz.toNat := by
  have hsz' := le_kernbase.mp hsz
  have hstart : Upto .empty (0 : Addr).toNat := upto_empty
  have hfuel : sz.toNat ≤ (0 : Addr).toNat + npages * 4096 := by
    show sz.toNat ≤ 0 + 2 ^ 20 * 4096
    omega
  obtain ⟨new, hloop, hnew⟩ := copyLoop_spec hd hstart (by decide) hsz hfuel
  exact ⟨new, hloop, hnew.congr fun k => by simp⟩

end Upto

end Os377.Xv6
