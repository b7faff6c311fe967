import Os377.Fs.Ownership

/-!
# Reading back what was written

Sessions that give files short names and create only files that are not there
keep the names of the used inodes apart. With the ownership invariant this is
enough to follow one block of one file through any sequence of other calls.
-/

namespace Os377.Fs

open Os377.Lib Function

/-- Some used inode carries the name. -/
def Present (d : Disk) (name : CString) : Prop :=
  ∃ k, InUse d k ∧ Spells (inode d k) 0 name.bytes

/-- A name that fits into `char name[8]` with its NUL. -/
def Short (name : CString) : Prop := name.bytes ≠ [] ∧ name.bytes.length ≤ 7

/-- Calls with short names, sizes in `0 .. 8` and block numbers from `0` on;
`create_file` only for a name that is not present. -/
def Polite (d : Disk) : Op → Prop
  | .createFile name size => Short name ∧ (0 ≤ size ∧ size ≤ 8) ∧ ¬ Present d name
  | .deleteFile name => Short name
  | .read name blockNum => Short name ∧ 0 ≤ blockNum
  | .write name blockNum _ => Short name ∧ 0 ≤ blockNum
  | .ls => True

/-- The call neither writes block `b` of `f` nor deletes `f`. -/
def Op.Spares (f : CString) (b : Int) : Op → Prop
  | .write name blockNum _ => ¬ (name.bytes = f.bytes ∧ blockNum = b)
  | .deleteFile name => name.bytes ≠ f.bytes
  | _ => True

/-- No two used inodes carry the same short name. -/
def Distinct (d : Disk) : Prop :=
  ∀ name k k', Short name → InUse d k → InUse d k' →
    Spells (inode d k) 0 name.bytes → Spells (inode d k') 0 name.bytes → k = k'

/-- Block `b` of the file named `f` holds `buf`. -/
def Holds (d : Disk) (f : CString) (b : Int) (buf : Buf) : Prop :=
  ∃ k j : Nat, Spells (inode d k) 0 f.bytes ∧ Owns d k b.toNat j ∧
    ∀ i : Fin 1024, d (j * 1024 + i) = buf i

variable {d d' : Disk} {k : Nat} {f : CString} {b : Int} {buf : Buf}

theorem Polite.sane {op : Op} (h : Polite d op) : op.Sane := by
  cases op with
  | createFile name size => exact ⟨h.1.1, h.2.1⟩
  | deleteFile name => exact h.1
  | read name blockNum => exact ⟨h.1.1, h.2⟩
  | write name blockNum buf => exact ⟨h.1.1, h.2⟩
  | ls => trivial

/-- The name in an inode only depends on its bytes. -/
theorem spells_congr {name : CString} (hname : Short name)
    (h : ∀ x, slot k ≤ x → x < slot k + 48 → d' x = d x) :
    Spells (inode d' k) 0 name.bytes ↔ Spells (inode d k) 0 name.bytes := by
  have hlen := hname.2
  have hbytes : ∀ i ≤ name.bytes.length, inode d' k (0 + i) = inode d k (0 + i) :=
    fun i hi => h _ (by omega) (by omega)
  exact ⟨fun hs => hs.congr fun i hi => (hbytes i hi).symm, fun hs => hs.congr hbytes⟩

/-- A new file carries the name it was given. -/
theorem Created.spells {name : CString} {bs : List Nat} (hc : Created d k name bs d')
    (hname : Short name) : Spells (inode d' k) 0 name.bytes := by
  intro i hi
  have := hname.2
  rw [Nat.zero_add]
  exact hc.name i (by omega)

theorem Deleted.spells {name : CString} (hname : Short name)
    (hcmp : strncmpEq (inode d k) 0 8 name.bytes = true) : Spells (inode d k) 0 name.bytes :=
  (strncmpEq_iff (by have := hname.2; omega)).mp hcmp

/-- Names stay distinct: of two files one may be new, and its name was not
present. -/
theorem Distinct.effect {op : Op} (hu : Distinct d) (ho : Owned d) (hop : Polite d op)
    (h : Effect d op d') : Distinct d' := by
  have hnew : ∀ {g : CString} {k k'}, Short g → k' ≠ k → InUse d' k' →
      Spells (inode d' k) 0 g.bytes → Spells (inode d' k') 0 g.bytes →
      (∃ name size bs, op = .createFile name size ∧ Created d k name bs d') → False := by
    rintro g k k' hg hne hi hsk hs ⟨name, size, bs, rfl, hc⟩
    have hgname := Spells.unique hsk (hc.spells hop.1)
    have hold := (inUse_congr (hc.same_bytes hne)).mp hi
    exact hop.2.2 ⟨k', hold, hgname ▸ (spells_congr hg (hc.same_bytes hne)).mp hs⟩
  intro g k1 k2 hg h1 h2 s1 s2
  by_contra hne
  rcases h.file ho h1 with hc | ⟨u1, e1⟩
  · exact hnew hg (Ne.symm hne) h2 s1 s2 hc
  rcases h.file ho h2 with hc | ⟨u2, e2⟩
  · exact hnew hg hne h1 s2 s1 hc
  exact hne (hu g k1 k2 hg u1 u2 ((spells_congr hg e1).mp s1) ((spells_congr hg e2).mp s2))

/-- A block is followed along bytes that do not change. -/
theorem Holds.congr {j : Nat} (ho : Owned d) (hf : Short f)
    (hs : Spells (inode d k) 0 f.bytes) (howns : Owns d k b.toNat j)
    (hblock : ∀ i : Fin 1024, d (j * 1024 + i) = buf i)
    (hslot : ∀ x, slot k ≤ x → x < slot k + 48 → d' x = d x)
    (hdata : ∀ x, j * 1024 ≤ x → x < j * 1024 + 1024 → d' x = d x) : Holds d' f b buf := by
  refine ⟨k, j, (spells_congr hf hslot).mpr hs, (ho.owns_congr hslot).mpr howns, fun i => ?_⟩
  have := i.isLt
  rw [hdata _ (by omega) (by omega), hblock i]

/-- No other call changes the block. -/
theorem Holds.effect {op : Op} (h : Holds d f b buf) (ho : Owned d) (hf : Short f) (hb : 0 ≤ b)
    (hop : Polite d op) (hspare : op.Spares f b) (heff : Effect d op d') : Holds d' f b buf := by
  obtain ⟨k, j, hs, howns, hblock⟩ := h
  have hj := ho.pointer_range _ _ _ howns
  cases heff with
  | none => exact ⟨k, j, hs, howns, hblock⟩
  | @created name size k' bs _ _ hc =>
      have hne : k ≠ k' := by
        intro heq
        subst heq
        exact hc.not_owns howns
      have hk' := hc.slot_lt
      exact Holds.congr ho hf hs howns hblock (hc.same_bytes hne) fun x hx _ =>
        hc.frame x (by omega) (by simp only [slot]; omega)
  | @deleted name k' _ hcmp hd =>
      have hne : k ≠ k' := by
        intro heq
        subst heq
        exact hspare (Spells.unique (Deleted.spells hop hcmp) hs)
      have hk' := hd.inUse.1
      exact Holds.congr ho hf hs howns hblock (hd.same_bytes hne) fun x hx _ =>
        hd.frame x (by omega) (by simp only [slot]; omega)
  | @written name blockNum buf' k' _ j' hs' howns' hw =>
      have hne : j ≠ j' := by
        intro heq
        subst heq
        obtain ⟨rfl, hblk⟩ := ho.unique _ _ _ _ _ howns howns'
        have := hop.2
        exact hspare ⟨Spells.unique hs' hs, by omega⟩
      have hj' := ho.pointer_range _ _ _ howns'
      have hk := howns.1.1
      refine Holds.congr ho hf hs howns hblock (fun x _ hx => ?_) fun x h1 h2 => ?_
      · exact hw.frame x (Or.inl (by simp only [slot] at hx; omega))
      · exact hw.frame x (by omega)

/-- `read` returns what the block holds. -/
theorem Holds.read (h : Holds d f b buf) (ho : Owned d) (hu : Distinct d) (hf : Short f)
    (hb : 0 ≤ b) : read d f b = .ok ⟨some buf, 1, .readFrom f b⟩ := by
  obtain ⟨k, j, hs, howns, hblock⟩ := h
  have hscan : scan d (fun n => n.used == 1 && strcmpEq n 0 f.bytes) = some k := by
    cases hscan : scan d fun n => n.used == 1 && strcmpEq n 0 f.bytes with
    | none =>
        have hk := howns.1.1
        have := scan_eq_none hscan k (by omega)
        rw [howns.1.2, strcmpEq_iff.mpr hs] at this
        simp at this
    | some k' =>
        obtain ⟨hi, hs'⟩ := ho.scan_strcmp hf.1 hscan
        rw [hu f k' k hf hi howns.1 hs' hs]
  have hlt := howns.2.1
  obtain ⟨j', howns', haddr⟩ := ho.blockAddr_eq hb howns.1 (by omega)
  have hj : j' = j := by
    have := howns'.2.2.symm.trans howns.2.2
    omega
  unfold Fs.read
  rw [hscan]
  simp only [if_neg (show ¬ b ≥ (inode d k).size by omega), haddr, hj]
  rw [show (fun i : Fin 1024 => d (j * 1024 + i)) = buf from funext hblock]

theorem next_effect {op : Op} (ho : Owned d) (hop : Polite d op)
    (hn : sessions.next d op = some d') : Effect d op d' := by
  obtain ⟨d'', hd, heff⟩ := exec_effect ho hop.sane
  rw [next_eq_some hd, Option.some.injEq] at hn
  exact hn ▸ heff

/-- Both invariants along a polite session. -/
theorem polite_inductive : sessions.Inductive Polite fun d => Owned d ∧ Distinct d where
  init s hs := by
    have hs' : s = formatted := hs
    subst hs'
    exact ⟨owned_formatted, fun name k k' _ hk => (formatted_not_inUse hk).elim⟩
  step s op s' h hop hn := by
    have heff := next_effect h.1 hop hn
    exact ⟨h.1.effect hop.sane heff, h.2.effect h.1 hop heff⟩

/-- **Read after write.** After a successful `write(f, b, buf)` in a polite
session, and any polite calls that neither write block `b` of `f` nor delete
`f`, `read(f, b, out)` returns 1 and `out` is `buf`. -/
theorem read_after_write {d d' : Disk} {f : CString} {b : Int} {buf : Buf} {r : Result}
    (hd : sessions.ReachableUnder Polite d) (hop : Polite d (.write f b buf))
    (hwrite : write d f b buf = .ok r) (hret : r.ret = 0)
    (hpath : sessions.PathUnder (fun e op => Polite e op ∧ op.Spares f b) r.disk d') :
    read d' f b = .ok ⟨some buf, 1, .readFrom f b⟩ := by
  obtain ⟨ho, -⟩ := polite_inductive.invariantUnder d hd
  have hnext : sessions.next d (.write f b buf) = some r.disk :=
    next_eq_some (by rw [exec, hwrite]; rfl)
  have hstart := hd.step hop hnext
  have hholds : Holds d' f b buf := by
    induction hpath with
    | refl =>
        -- right after the write
        obtain ⟨r', hr', h⟩ := write_spec ho hop.1.1 hop.2 buf
        rw [hwrite, Except.ok.injEq] at hr'
        subst hr'
        rcases h with ⟨hfail, -⟩ | ⟨-, k, j, hs, howns, hw⟩
        · rw [hret] at hfail
          simp at hfail
        · have hj := ho.pointer_range _ _ _ howns
          have hk := howns.1.1
          have hslot : ∀ x, slot k ≤ x → x < slot k + 48 → r.disk x = d x := fun x _ hx =>
            hw.frame x (Or.inl (by simp only [slot] at hx; omega))
          exact ⟨k, j, (spells_congr hop.1 hslot).mpr hs, (ho.owns_congr hslot).mpr howns,
            hw.block⟩
    | step hp hc hn ih =>
        obtain ⟨ho', -⟩ := polite_inductive.invariantUnder _
          (hstart.path (fun _ _ h => h.1) hp)
        exact ih.effect ho' hop.1 hop.2 hc.1 hc.2 (next_effect ho' hc.1 hn)
  obtain ⟨ho', hu'⟩ := polite_inductive.invariantUnder d' (hstart.path (fun _ _ h => h.1) hpath)
  exact hholds.read ho' hu' hop.1 hop.2

/-- A block written to a fresh file of one block is read back. -/
theorem read_after_write_fresh_file :
    ∃ d r, sessions.next formatted (.createFile ⟨[102], by decide⟩ 1) = some d ∧
      write d ⟨[102], by decide⟩ 0 (fun _ => 7) = .ok r ∧ r.ret = 0 ∧
      read r.disk ⟨[102], by decide⟩ 0
        = .ok ⟨some fun _ => 7, 1, .readFrom ⟨[102], by decide⟩ 0⟩ := by
  have hrun : (sessions.next formatted (.createFile ⟨[102], by decide⟩ 1)).bind (fun d =>
      (write d ⟨[102], by decide⟩ 0 fun _ => 7).toOption.map (·.ret)) = some 0 := by
    decide +kernel
  obtain ⟨d, hd, hw⟩ := Option.bind_eq_some_iff.mp hrun
  obtain ⟨r, hr, hret⟩ := Option.map_eq_some_iff.mp hw
  have hwrite : write d ⟨[102], by decide⟩ 0 (fun _ => 7) = .ok r := by
    cases h : write d ⟨[102], by decide⟩ 0 fun _ => 7 with
    | error e => simp [h, Except.toOption] at hr
    | ok r' => simpa [h, Except.toOption] using hr
  have hshort : Short ⟨[102], by decide⟩ := ⟨by simp, by simp⟩
  have hcreate : Polite formatted (.createFile ⟨[102], by decide⟩ 1) :=
    ⟨hshort, ⟨by omega, by omega⟩, fun ⟨_, hu, _⟩ => formatted_not_inUse hu⟩
  have hreach : sessions.ReachableUnder Polite d := .step (.init rfl) hcreate hd
  exact ⟨d, r, hd, hwrite, hret, read_after_write hreach ⟨hshort, le_refl 0⟩ hwrite hret .refl⟩

end Os377.Fs
