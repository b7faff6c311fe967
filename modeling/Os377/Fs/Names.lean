import Os377.Fs.Behind

/-!
# File names

A name of up to 8 characters is stored in `char name[8]`, without a NUL if it
has 8. `delete_file` compares at most these 8 bytes, `read` and `write` compare
C strings and `ls` prints one, so on a full field they run on into the `size`
behind it. And `create_file` does not look whether the name is there already.
-/

namespace Os377.Fs

open Os377.Lib Function

/-- A name of 1 to 8 characters. -/
def Fits (name : CString) : Prop := name.bytes ≠ [] ∧ name.bytes.length ≤ 8

/-- The calls names are about: `create_file` with a name that fits and a size
in `0 .. 8`, and any other call. -/
def Op.Fits : Op → Prop
  | .createFile name size => Fs.Fits name ∧ 0 ≤ size ∧ size ≤ 8
  | _ => True

instance : (op : Op) → Decidable op.Fits
  | .createFile _ _ => inferInstanceAs (Decidable ((_ ≠ _ ∧ _) ∧ _ ∧ _))
  | .deleteFile _ | .read _ _ | .write _ _ _ | .ls => inferInstanceAs (Decidable True)

/-- The `name` of slot `k` is what `strncpy` makes of `name`. -/
def Carries (d : Disk) (k : Nat) (name : CString) : Prop :=
  ∀ i < 8, inode d k i = name.bytes.getD i 0

variable {d d' : Disk} {k : Nat} {name : CString} {bs : List Nat} {op : Op}

theorem Op.Fits.sized (h : op.Fits) : op.Sized := by
  cases op with
  | createFile name size => exact h.2
  | _ => trivial

theorem carries_congr (h : ∀ x, slot k ≤ x → x < slot k + 48 → d' x = d x) :
    Carries d' k name ↔ Carries d k name := by
  have hbyte : ∀ i < 8, inode d' k i = inode d k i := fun i hi =>
    h (slot k + i) (by omega) (by omega)
  exact forall₂_congr fun i hi => by rw [hbyte i hi]

/-! ## Unique names -/

/-- No two used inodes have the same 8 bytes in `name`. -/
def UniqueNames (d : Disk) : Prop :=
  ∀ k k', InUse d k → InUse d k' → (∀ i < 8, inode d k i = inode d k' i) → k = k'

/-- A used inode holds the name. -/
def Named (d : Disk) (name : CString) : Prop := ∃ k, InUse d k ∧ Carries d k name

/-- `create_file` of a name that is there already finds no room for it. -/
def Fresh (d : Disk) : Op → Prop
  | .createFile name size => Named d name → NoRoom d size
  | _ => True

/-- A new file keeps the names unique exactly if its name was not there. -/
theorem Created.unique_iff (hc : Created d k name bs d') (hu : UniqueNames d) :
    UniqueNames d' ↔ ¬ Named d name := by
  have hnew : InUse d' k := ⟨hc.slot_lt, hc.used⟩
  have hold : ∀ {j}, j ≠ k → InUse d' j → InUse d j := fun hne hj =>
    (inUse_congr (hc.same_bytes hne)).mp hj
  have hbytes : ∀ {j}, j ≠ k → ∀ i < 8, inode d' j i = inode d j i := fun hne i hi =>
    hc.same_bytes hne (slot _ + i) (by omega) (by omega)
  constructor
  · rintro hu' ⟨j, hj, hcar⟩
    have hne : j ≠ k := by
      intro heq
      subst heq
      simpa [hc.was_free] using hj.2
    refine hne (hu' j k ((inUse_congr (hc.same_bytes hne)).mpr hj) hnew fun i hi => ?_)
    rw [hbytes hne i hi, hcar i hi, hc.name i hi]
  · intro hnone
    have hclash : ∀ {j}, j ≠ k → InUse d' j → ¬ ∀ i < 8, inode d' j i = inode d' k i := by
      intro j hne hj heq
      refine hnone ⟨j, hold hne hj, fun i hi => ?_⟩
      rw [← hbytes hne i hi, heq i hi, hc.name i hi]
    intro j1 j2 h1 h2 heq
    by_cases e1 : j1 = k <;> by_cases e2 : j2 = k
    · rw [e1, e2]
    · exact (hclash e2 h2 fun i hi => (e1 ▸ heq i hi).symm).elim
    · exact (hclash e1 h1 fun i hi => e2 ▸ heq i hi).elim
    · refine hu j1 j2 (hold e1 h1) (hold e2 h2) fun i hi => ?_
      rw [← hbytes e1 i hi, heq i hi, hbytes e2 i hi]

/-- A call that creates nothing keeps the names unique. -/
theorem UniqueNames.kept (hu : UniqueNames d) (h : FilesKept d op d')
    (hop : ∀ name size, op ≠ .createFile name size) : UniqueNames d' := by
  have hold : ∀ {j}, InUse d' j → InUse d j ∧ ∀ i < 8, inode d' j i = inode d j i := by
    intro j hj
    rcases h j hj with ⟨name, size, bs, hname, -⟩ | ⟨hj, hsame⟩
    · exact absurd hname (hop name size)
    · exact ⟨hj, fun i hi => hsame (slot j + i) (by omega) (by omega)⟩
  intro j1 j2 h1 h2 heq
  obtain ⟨u1, b1⟩ := hold h1
  obtain ⟨u2, b2⟩ := hold h2
  exact hu j1 j2 u1 u2 fun i hi => by rw [← b1 i hi, heq i hi, b2 i hi]

/-- One call, as far as names are concerned. -/
theorem UniqueNames.next (hu : UniqueNames d) (ho : Owned d) (hop : op.Fits)
    (hin : op.InBounds d) :
    ∃ d', sessions.next d op = some d' ∧ (UniqueNames d' ↔ Fresh d op) := by
  cases op with
  | createFile name size =>
      obtain ⟨r, hr, h⟩ := createFile_spec ho name hop.2.1 hop.2.2
      refine ⟨r.disk, next_eq_some (by rw [exec, hr]; rfl), ?_⟩
      rcases h with ⟨-, hdisk, hfull⟩ | ⟨-, hroom, k, bs, -, -, hc⟩
      · rw [hdisk]
        exact ⟨fun _ _ => hfull, fun _ => hu⟩
      · rw [hc.unique_iff hu]
        exact ⟨fun hnone hname => absurd hname hnone, fun hfresh hname => hroom (hfresh hname)⟩
  | _ =>
      obtain ⟨d', hd', -, hkept⟩ := exec_keeps ho hop.sized hin
      exact ⟨d', next_eq_some hd', fun _ => trivial, fun _ => hu.kept hkept (by simp)⟩

theorem unique_inductive :
    sessions.Inductive (fun d op => op.Fits ∧ op.InBounds d ∧ Fresh d op)
      fun d => Owned d ∧ UniqueNames d where
  init s hs := by
    have hs' : s = formatted := hs
    subst hs'
    exact ⟨owned_formatted, fun k _ hk => (formatted_not_inUse hk).elim⟩
  step s op s' h hop hn := by
    obtain ⟨hfits, hin, hfresh⟩ := hop
    obtain ⟨t, ht, ho, -⟩ := exec_keeps h.1 hfits.sized hin
    obtain ⟨u, hu, hiff⟩ := h.2.next h.1 hfits hin
    obtain rfl : t = s' := Option.some.inj ((next_eq_some ht).symm.trans hn)
    obtain rfl : u = t := Option.some.inj (hu.symm.trans hn)
    exact ⟨ho, hiff.mpr hfresh⟩

/-- **Unique names.** In every session in which no `create_file` of a name
that is there already finds room, and no negative block number comes with a file
that is found, names are unique after every call. A further call keeps them unique
exactly if it meets the condition, and a `create_file` of a name that is there is
refused exactly if there is no room. -/
theorem unique_names {d : Disk}
    (hd : sessions.ReachableUnder (fun d op => op.Fits ∧ op.InBounds d ∧ Fresh d op) d) :
    UniqueNames d ∧
      (∀ op : Op, op.Fits → op.InBounds d → ∃ d', sessions.next d op = some d' ∧
        (UniqueNames d' ↔ Fresh d op)) ∧
      ∀ name size, (Op.createFile name size).Fits → Named d name →
        ∃ r, createFile d name size = .ok r ∧
          (r.ret = -1 ∧ r.disk = d ↔ Fresh d (.createFile name size)) := by
  obtain ⟨ho, hu⟩ := unique_inductive.invariantUnder d hd
  refine ⟨hu, fun op hop hin => hu.next ho hop hin, fun name size hop hname => ?_⟩
  obtain ⟨r, hr, h⟩ := createFile_spec ho name hop.2.1 hop.2.2
  refine ⟨r, hr, ?_⟩
  rcases h with ⟨hret, hdisk, hfull⟩ | ⟨hret, hroom, -⟩
  · exact ⟨fun _ _ => hfull, fun _ => ⟨hret, hdisk⟩⟩
  · refine ⟨fun hfail => ?_, fun hfresh => absurd (hfresh hname) hroom⟩
    rw [hret] at hfail
    simp at hfail

/-- After one file has been created. -/
theorem unique_names_one_file :
    ∃ d, sessions.next formatted (.createFile ⟨[97], by decide⟩ 3) = some d ∧ UniqueNames d := by
  have hop : (Op.createFile ⟨[97], by decide⟩ 3).Fits := ⟨⟨by simp, by simp⟩, by omega, by omega⟩
  have hfresh : Fresh formatted (.createFile ⟨[97], by decide⟩ 3) := by
    rintro ⟨k, hk, -⟩
    exact (formatted_not_inUse hk).elim
  obtain ⟨d, hd, -⟩ := (unique_names (.init rfl)).2.1 _ hop trivial
  exact ⟨d, hd, (unique_names (.step (.init rfl) ⟨hop, trivial, hfresh⟩ hd)).1⟩

/-- `create_file` twice with the same name. -/
theorem duplicate_name :
    ¬ sessions.InvariantUnder (fun _ op => op.Fits) UniqueNames := by
  intro hinv
  have hrun : (sessions.runChecked (fun _ op => op.Fits) formatted
      [.createFile ⟨[97], by decide⟩ 0, .createFile ⟨[97], by decide⟩ 0]).any
      (fun d => decide ((inode d 0).used = 1 ∧ (inode d 1).used = 1 ∧
        ∀ i ∈ List.range 8, inode d 0 i = inode d 1 i)) = true := by
    decide +kernel
  obtain ⟨d, hd, hview⟩ := (Option.any_eq_true _ _).mp hrun
  obtain ⟨h0, h1, heq⟩ := of_decide_eq_true hview
  have := hinv d (.runChecked (.init rfl) hd) 0 1 ⟨by omega, h0⟩ ⟨by omega, h1⟩
    fun i hi => heq i (List.mem_range.mpr hi)
  omega

end Os377.Fs
