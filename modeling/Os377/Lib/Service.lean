import Mathlib.Data.List.Basic

/-!
# Calls served one after another

`serve s op` is what an implementation makes of a call: the next state and the
answer, or nothing if the call does not return. `spec s op` is what it should
make of it. A sequence of calls `Agrees` if each of them is served as
specified; it does if all of them are served, as far as the answers are right
(`agrees_of_answers`), and then every beginning of it is (`Agrees.served`).
-/

namespace Os377.Lib

variable {σ Op Reply : Type*}

/-- The calls of a list, one after another. -/
def serveAll (serve : σ → Op → Option (σ × Reply)) : σ → List Op → Option (σ × List Reply)
  | s, [] => some (s, [])
  | s, op :: rest =>
      (serve s op).bind fun x => (serveAll serve x.1 rest).map fun y => (y.1, x.2 :: y.2)

/-- The answers they should get. -/
def answers (spec : σ → Op → σ × Reply) : σ → List Op → List Reply
  | _, [] => []
  | s, op :: rest => (spec s op).2 :: answers spec (spec s op).1 rest

/-- Every call is served as specified. -/
def Agrees (serve : σ → Op → Option (σ × Reply)) (spec : σ → Op → σ × Reply) :
    σ → List Op → Prop
  | _, [] => True
  | s, op :: rest => serve s op = some (spec s op) ∧ Agrees serve spec (spec s op).1 rest

variable {serve : σ → Op → Option (σ × Reply)} {spec : σ → Op → σ × Reply} {s s' s'' : σ}
  {done rest ops : List Op} {op : Op} {r : Reply} {rs : List Reply}

/-- One more call. -/
theorem serveAll_concat (h : serveAll serve s done = some (s', rs))
    (hop : serve s' op = some (s'', r)) :
    serveAll serve s (done ++ [op]) = some (s'', rs ++ [r]) := by
  induction done generalizing s rs with
  | nil =>
      obtain ⟨rfl, rfl⟩ := Prod.mk.inj (Option.some.inj h)
      simp [serveAll, hop]
  | cons first done ih =>
      obtain ⟨⟨t, r'⟩, hfirst, h⟩ := Option.bind_eq_some_iff.mp h
      obtain ⟨⟨u, rs'⟩, hdone, heq⟩ := Option.map_eq_some_iff.mp h
      obtain ⟨rfl, rfl⟩ := Prod.mk.inj heq
      rw [List.cons_append, serveAll, hfirst, Option.bind_some, ih hdone]
      rfl

/-- What every served call keeps. -/
theorem serveAll_invariant {P : σ → Prop}
    (hP : ∀ s op s' r, P s → serve s op = some (s', r) → P s')
    (h : serveAll serve s done = some (s', rs)) (hs : P s) : P s' := by
  induction done generalizing s rs with
  | nil =>
      obtain ⟨rfl, -⟩ := Prod.mk.inj (Option.some.inj h)
      exact hs
  | cons first done ih =>
      obtain ⟨⟨t, r'⟩, hfirst, h⟩ := Option.bind_eq_some_iff.mp h
      obtain ⟨⟨u, rs'⟩, hdone, heq⟩ := Option.map_eq_some_iff.mp h
      obtain ⟨rfl, rfl⟩ := Prod.mk.inj heq
      exact ih hdone (hP _ _ _ _ hs hfirst)

theorem answers_prefix (s : σ) (done rest : List Op) :
    answers spec s done <+: answers spec s (done ++ rest) := by
  induction done generalizing s with
  | nil => exact List.nil_prefix
  | cons first done ih => exact (List.cons_prefix_cons).mpr ⟨rfl, ih _⟩

/-- A beginning of a sequence that agrees. -/
theorem Agrees.served (h : Agrees serve spec s (done ++ rest)) :
    ∃ s', serveAll serve s done = some (s', answers spec s done) ∧ Agrees serve spec s' rest := by
  induction done generalizing s with
  | nil => exact ⟨s, rfl, h⟩
  | cons first done ih =>
      obtain ⟨hfirst, h⟩ := h
      obtain ⟨s', hdone, hrest⟩ := ih h
      refine ⟨s', ?_, hrest⟩
      rw [serveAll, hfirst, Option.bind_some, hdone]
      rfl

/-- If all calls are served, moving to the specified states, and the answers
are right, the sequence agrees. -/
theorem agrees_of_answers
    (hstate : ∀ s op s' r, serve s op = some (s', r) → s' = (spec s op).1)
    (h : serveAll serve s ops = some (s', rs)) (hrs : rs <+: answers spec s ops) :
    Agrees serve spec s ops := by
  induction ops generalizing s rs with
  | nil => trivial
  | cons op rest ih =>
      obtain ⟨⟨t, r⟩, hop, h⟩ := Option.bind_eq_some_iff.mp h
      obtain ⟨⟨u, rs'⟩, hrest, heq⟩ := Option.map_eq_some_iff.mp h
      obtain ⟨rfl, rfl⟩ := Prod.mk.inj heq
      obtain ⟨hr, hrs'⟩ := List.cons_prefix_cons.mp hrs
      have ht := hstate _ _ _ _ hop
      dsimp only at hr hrs' hrest
      subst hr ht
      exact ⟨hop, ih hrest hrs'⟩

end Os377.Lib
