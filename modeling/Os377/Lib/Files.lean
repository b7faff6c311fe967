import Os377.Lib.TSys
import Mathlib.Data.List.Basic
import Mathlib.Logic.Function.Basic

/-!
# Files that live while somebody can reach them

What a layer of inodes is for. A file has bytes and a number of links; it can be
referenced, and it is there as long as it has a link or a reference. A restart forgets
the references. Without one no file is left
that nobody can reach (`Kept.step`).
-/

namespace Os377.Lib

open Function

universe u v w

variable {N : Type u} {M : Type v} {B : Type w}

/-- The list with `src` written over it at `off`. -/
def overwrite (bytes : List B) (off : Nat) (src : List B) : List B :=
  bytes.take off ++ src ++ bytes.drop (off + src.length)

theorem overwrite_nil (bytes : List B) (off : Nat) : overwrite bytes off [] = bytes := by
  unfold overwrite
  rw [List.append_nil, List.length_nil, Nat.add_zero, List.take_append_drop]

theorem length_overwrite {bytes : List B} {off : Nat} (hoff : off ≤ bytes.length) (src : List B) :
    (overwrite bytes off src).length = max bytes.length (off + src.length) := by
  unfold overwrite
  rw [List.length_append, List.length_append, List.length_take, List.length_drop]
  omega

/-- One write after the other. -/
theorem overwrite_append {bytes : List B} {off : Nat} (hoff : off ≤ bytes.length)
    (src rest : List B) : overwrite (overwrite bytes off src) (off + src.length) rest
      = overwrite bytes off (src ++ rest) := by
  have hfront : (bytes.take off ++ src).length = off + src.length := by
    rw [List.length_append, List.length_take, Nat.min_eq_left hoff]
  unfold overwrite
  rw [List.take_left' hfront, List.drop_append, hfront, List.length_append, ← Nat.add_assoc,
    List.drop_of_length_le (by omega), List.nil_append, Nat.add_sub_cancel_left, List.drop_drop]
  simp only [List.append_assoc]

structure File (M : Type v) (B : Type w) where
  info : M
  links : Nat
  bytes : List B

namespace Files

structure World (N : Type u) (M : Type v) (B : Type w) where
  files : N → Option (File M B)
  refs : N → Nat

inductive Event (N : Type u) (M : Type v) (B : Type w) where
  /-- A new file with one link, referenced once. -/
  | create (n : N) (info : M)
  | get (n : N)
  | put (n : N)
  | link (n : N) (links : Nat)
  | read (n : N) (off len : Nat) (result : List B)
  | write (n : N) (off : Nat) (src : List B)
  | restart

variable [DecidableEq N] [DecidableEq B]

def next (s : World N M B) : Event N M B → Option (World N M B)
  | .create n info =>
      if (s.files n).isNone ∧ s.refs n = 0 then
        some { files := update s.files n (some ⟨info, 1, []⟩), refs := update s.refs n 1 }
      else none
  | .get n =>
      match s.files n with
      | none => none
      | some f =>
          if 0 < f.links ∨ 0 < s.refs n then
            some { s with refs := update s.refs n (s.refs n + 1) }
          else none
  | .put n =>
      match s.files n with
      | none => none
      | some f =>
          if 0 < s.refs n then
            some { files := if s.refs n = 1 ∧ f.links = 0 then update s.files n none else s.files
                   refs := update s.refs n (s.refs n - 1) }
          else none
  | .link n links =>
      match s.files n with
      | none => none
      | some f =>
          if 0 < s.refs n then
            some { s with files := update s.files n (some { f with links := links }) }
          else none
  | .read n off len result =>
      match s.files n with
      | none => none
      | some f =>
          if 0 < s.refs n ∧ off ≤ f.bytes.length ∧ result = (f.bytes.drop off).take len then some s
          else none
  | .write n off src =>
      match s.files n with
      | none => none
      | some f =>
          if 0 < s.refs n ∧ off ≤ f.bytes.length then
            some { s with
              files := update s.files n (some { f with bytes := overwrite f.bytes off src }) }
          else none
  | .restart => some { s with refs := fun _ => 0 }

section Next

variable {s s' : World N M B} {n : N} {f : File M B}

theorem next_create {info : M} (hf : s.files n = none) (hr : s.refs n = 0)
    (hfiles : s'.files = update s.files n (some ⟨info, 1, []⟩))
    (hrefs : s'.refs = update s.refs n 1) : next s (.create n info) = some s' := by
  unfold next
  dsimp only
  rw [if_pos ⟨by rw [hf]; rfl, hr⟩, ← hfiles, ← hrefs]

theorem next_get (hf : s.files n = some f) (hr : 0 < f.links ∨ 0 < s.refs n)
    (hfiles : s'.files = s.files) (hrefs : s'.refs = update s.refs n (s.refs n + 1)) :
    next s (.get n) = some s' := by
  unfold next
  dsimp only
  rw [hf]
  dsimp only
  rw [if_pos hr, ← hfiles, ← hrefs]

theorem next_put (hf : s.files n = some f) (hr : 0 < s.refs n)
    (hfiles : s'.files
      = if s.refs n = 1 ∧ f.links = 0 then update s.files n none else s.files)
    (hrefs : s'.refs = update s.refs n (s.refs n - 1)) : next s (.put n) = some s' := by
  unfold next
  dsimp only
  rw [hf]
  dsimp only
  rw [if_pos hr, ← hfiles, ← hrefs]

theorem next_link {links : Nat} (hf : s.files n = some f) (hr : 0 < s.refs n)
    (hfiles : s'.files = update s.files n (some { f with links := links }))
    (hrefs : s'.refs = s.refs) : next s (.link n links) = some s' := by
  unfold next
  dsimp only
  rw [hf]
  dsimp only
  rw [if_pos hr, ← hfiles, ← hrefs]

theorem next_read {off len : Nat} {result : List B} (hf : s.files n = some f) (hr : 0 < s.refs n)
    (hoff : off ≤ f.bytes.length) (hresult : result = (f.bytes.drop off).take len) :
    next s (.read n off len result) = some s := by
  unfold next
  dsimp only
  rw [hf]
  exact if_pos ⟨hr, hoff, hresult⟩

theorem next_write {off : Nat} {src : List B} (hf : s.files n = some f) (hr : 0 < s.refs n)
    (hoff : off ≤ f.bytes.length)
    (hfiles : s'.files = update s.files n (some { f with bytes := overwrite f.bytes off src }))
    (hrefs : s'.refs = s.refs) : next s (.write n off src) = some s' := by
  unfold next
  dsimp only
  rw [hf]
  dsimp only
  rw [if_pos ⟨hr, hoff⟩, ← hfiles, ← hrefs]

end Next

/-- Nobody has lost a file. -/
def Kept (s : World N M B) : Prop := ∀ n f, s.files n = some f → 0 < f.links ∨ 0 < s.refs n

omit [DecidableEq B] in
/-- The world after a change of one file and of the references to it. -/
theorem Kept.update {s s' : World N M B} (h : Kept s) (n : N)
    (hfiles : ∀ m, m ≠ n → s'.files m = s.files m) (hrefs : ∀ m, m ≠ n → s'.refs m = s.refs m)
    (hn : ∀ f, s'.files n = some f → 0 < f.links ∨ 0 < s'.refs n) : Kept s' := by
  intro m f hf
  by_cases hmn : m = n
  · subst hmn
    exact hn f hf
  · rw [hrefs m hmn]
    exact h m f (by rw [← hfiles m hmn, hf])

/-- Without a restart no file is lost. -/
theorem Kept.step {s s' : World N M B} {e : Event N M B} (h : Kept s)
    (he : e ≠ .restart) (hn : next s e = some s') : Kept s' := by
  unfold next at hn
  cases e with
  | create n info =>
      obtain ⟨-, hn⟩ := Option.ite_none_right_eq_some.mp hn
      obtain rfl := Option.some.inj hn
      refine h.update n (fun m hm => update_of_ne hm _ _) (fun m hm => update_of_ne hm _ _)
        fun _ _ => .inr ?_
      show 0 < Function.update s.refs n 1 n
      rw [update_self]
      exact Nat.one_pos
  | get n =>
      dsimp only at hn
      split at hn
      · cases hn
      · obtain ⟨-, hn⟩ := Option.ite_none_right_eq_some.mp hn
        obtain rfl := Option.some.inj hn
        refine h.update n (fun m hm => rfl) (fun m hm => update_of_ne hm _ _) fun _ _ => .inr ?_
        show 0 < Function.update s.refs n (s.refs n + 1) n
        rw [update_self]
        exact Nat.succ_pos _
  | put n =>
      dsimp only at hn
      split at hn
      · cases hn
      · next f hf =>
          obtain ⟨hr, hn⟩ := Option.ite_none_right_eq_some.mp hn
          obtain rfl := Option.some.inj hn
          refine h.update n (fun m hm => ?_) (fun m hm => update_of_ne hm _ _) fun g hg => ?_
          · show (if _ then Function.update s.files n none else s.files) m = _
            split
            · exact update_of_ne hm _ _
            · rfl
          · show _ ∨ 0 < Function.update s.refs n (s.refs n - 1) n
            rw [update_self]
            replace hg : (if s.refs n = 1 ∧ f.links = 0 then Function.update s.files n none
              else s.files) n = some g := hg
            split at hg
            · rw [update_self] at hg
              cases hg
            · next hlast =>
                rw [hf] at hg
                cases hg
                omega
  | link n links =>
      dsimp only at hn
      split at hn
      · cases hn
      · obtain ⟨hr, hn⟩ := Option.ite_none_right_eq_some.mp hn
        obtain rfl := Option.some.inj hn
        exact h.update n (fun m hm => update_of_ne hm _ _) (fun _ _ => rfl) fun _ _ => .inr hr
  | read n off len result =>
      dsimp only at hn
      split at hn
      · cases hn
      · obtain ⟨-, hn⟩ := Option.ite_none_right_eq_some.mp hn
        exact Option.some.inj hn ▸ h
  | write n off src =>
      dsimp only at hn
      split at hn
      · cases hn
      · obtain ⟨⟨hr, -⟩, hn⟩ := Option.ite_none_right_eq_some.mp hn
        obtain rfl := Option.some.inj hn
        exact h.update n (fun m hm => update_of_ne hm _ _) (fun _ _ => rfl) fun _ _ => .inr hr
  | restart => exact absurd rfl he

end Files

/-- The bytes of a file after a write, read off a description of each byte. -/
theorem map_range_overwrite {f g : Nat → B} {size off : Nat} {src : List B} (hoff : off ≤ size)
    (hstored : ∀ x, off ≤ x → ∀ h : x - off < src.length, g x = src[x - off])
    (hrest : ∀ x < size, x < off ∨ off + src.length ≤ x → g x = f x) :
    (List.range (max size (off + src.length))).map g
      = overwrite ((List.range size).map f) off src := by
  unfold overwrite
  apply List.ext_getElem
  · simp only [List.length_map, List.length_range, List.length_append, List.length_take,
      List.length_drop]
    omega
  · intro x hx hx'
    simp only [List.length_map, List.length_range] at hx
    rw [List.getElem_map, List.getElem_range]
    by_cases h1 : x < off
    · rw [List.getElem_append_left (by simp; omega), List.getElem_append_left (by simp; omega),
        List.getElem_take, List.getElem_map, List.getElem_range]
      exact hrest x (by omega) (.inl h1)
    · by_cases h2 : x < off + src.length
      · rw [List.getElem_append_left (by simp; omega), List.getElem_append_right (by simp; omega)]
        simp only [List.length_take, List.length_map, List.length_range, Nat.min_eq_left hoff]
        exact hstored x (by omega) (by omega)
      · rw [List.getElem_append_right (by simp; omega), List.getElem_drop, List.getElem_map,
          List.getElem_range]
        simp only [List.length_append, List.length_take, List.length_map, List.length_range,
          Nat.min_eq_left hoff]
        rw [show off + src.length + (x - (off + src.length)) = x by omega]
        exact hrest x (by omega) (.inr (by omega))

end Os377.Lib
