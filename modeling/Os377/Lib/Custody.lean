import Mathlib.Logic.Function.Basic

/-!
# Custody of allocated pages

Who holds which page of an allocator: `page h` is the page holder `h` has in its
hands, `alloc` the pages the allocator has handed out. `Held` says that every
held page is allocated and that no page has two holders, and the lemmas below
say that it survives an allocation, a release, a hand-over and a leak. A page
that is freed by its holder is then freed once and has no other holder.
-/

namespace Os377.Lib

open Function

universe u v

variable {H : Type u} {P : Type v} [DecidableEq H] [DecidableEq P]

/-- Every held page is allocated, and has one holder. -/
structure Held (page : H → Option P) (alloc : P → Bool) : Prop where
  allocated : ∀ {h d}, page h = some d → alloc d = true
  unique : ∀ {h h' d}, page h = some d → page h' = some d → h = h'

namespace Held

variable {page page' : H → Option P} {alloc : P → Bool}

omit [DecidableEq H] [DecidableEq P] in
/-- Holding fewer pages leaks the others. -/
theorem leak (hH : Held page alloc) (hp : ∀ h d, page' h = some d → page h = some d) :
    Held page' alloc where
  allocated h1 := hH.allocated (hp _ _ h1)
  unique h1 h2 := hH.unique (hp _ _ h1) (hp _ _ h2)

/-- `h` gets the free page `d`; what it held before is leaked. -/
theorem take (hH : Held page alloc) {d : P} (hd : alloc d = false) (h : H) :
    Held (update page h (some d)) (update alloc d true) := by
  have hold : ∀ {g c}, page g = some c → c ≠ d := by
    rintro g c hg rfl
    simp [hH.allocated hg] at hd
  refine ⟨?_, ?_⟩
  · intro g c hg
    by_cases hgh : g = h
    · subst hgh
      rw [update_self, Option.some.injEq] at hg
      rw [hg, update_self]
    · rw [update_of_ne hgh] at hg
      rw [update_of_ne (hold hg)]
      exact hH.allocated hg
  · intro g g' c hg hg'
    by_cases hgh : g = h <;> by_cases hgh' : g' = h
    · rw [hgh, hgh']
    · subst hgh
      rw [update_self, Option.some.injEq] at hg
      rw [update_of_ne hgh'] at hg'
      exact absurd hg.symm (hold hg')
    · subst hgh'
      rw [update_of_ne hgh] at hg
      rw [update_self, Option.some.injEq] at hg'
      exact absurd hg'.symm (hold hg)
    · rw [update_of_ne hgh] at hg
      rw [update_of_ne hgh'] at hg'
      exact hH.unique hg hg'

omit [DecidableEq H] in
/-- A page nobody holds any more is freed. -/
theorem free (hH : Held page alloc) {d : P} (hd : ∀ h, page h ≠ some d) :
    Held page (update alloc d false) where
  allocated := by
    intro h c hc
    have hcd : c ≠ d := by
      intro heq
      subst heq
      exact hd h hc
    rw [update_of_ne hcd]
    exact hH.allocated hc
  unique := hH.unique

/-- `h` gives its page back to the allocator. -/
theorem drop (hH : Held page alloc) {h : H} {d : P} (hd : page h = some d) :
    Held (update page h none) (update alloc d false) := by
  refine (hH.leak ?_).free ?_
  · intro g c hg
    by_cases hgh : g = h
    · subst hgh
      simp at hg
    · rwa [update_of_ne hgh] at hg
  · intro g hg
    by_cases hgh : g = h
    · subst hgh
      simp at hg
    · rw [update_of_ne hgh] at hg
      exact hgh (hH.unique hg hd)

omit [DecidableEq P] in
/-- `h` hands its page to `h'`, which leaks the page it had. -/
theorem move (hH : Held page alloc) {h h' : H} {d : P} (hd : page h = some d) :
    Held (update (update page h none) h' (some d)) alloc := by
  have hback : ∀ g c, g ≠ h' → update page h none g = some c → g ≠ h ∧ page g = some c := by
    intro g c _ hg
    by_cases hgh : g = h
    · subst hgh
      simp at hg
    · exact ⟨hgh, by rwa [update_of_ne hgh] at hg⟩
  refine ⟨?_, ?_⟩
  · intro g c hg
    by_cases hgh : g = h'
    · subst hgh
      rw [update_self, Option.some.injEq] at hg
      exact hH.allocated (hg ▸ hd)
    · rw [update_of_ne hgh] at hg
      exact hH.allocated (hback g c hgh hg).2
  · intro g g' c hg hg'
    by_cases hgh : g = h' <;> by_cases hgh' : g' = h'
    · rw [hgh, hgh']
    · subst hgh
      rw [update_self, Option.some.injEq] at hg
      rw [update_of_ne hgh'] at hg'
      obtain ⟨hne, hg'⟩ := hback g' c hgh' hg'
      exact absurd (hH.unique hg' (hg ▸ hd)) hne
    · subst hgh'
      rw [update_self, Option.some.injEq] at hg'
      rw [update_of_ne hgh] at hg
      obtain ⟨hne, hg⟩ := hback g c hgh hg
      exact absurd (hH.unique hg (hg' ▸ hd)) hne
    · rw [update_of_ne hgh] at hg
      rw [update_of_ne hgh'] at hg'
      exact hH.unique (hback g c hgh hg).2 (hback g' c hgh' hg').2

end Held

end Os377.Lib
