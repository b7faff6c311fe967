import Os377.Fs.Names
import Mathlib.Data.List.Find
import Mathlib.Data.List.TakeWhile

/-!
# One reading of a name

`delete_file` finds a file by the 8 bytes of its `name`; `read` and `write` also
need the byte behind a full field to be NUL, and `ls` prints up to it. That byte
is the first one of `size`, so the four agree exactly while every file with a
name of 8 characters has size 0.
-/

namespace Os377.Fs

open Os377.Lib Function

/-- The name in slot `k`: its 8 bytes up to a NUL. -/
def fileName (d : Disk) (k : Nat) : List UInt8 :=
  ((List.range 8).map (inode d k)).takeWhile (· != 0)

/-- The operations agree on the names of the files. -/
structure OneReading (d : Disk) : Prop where
  lookup : ∀ name, Fits name →
    deleteLookup d name = readLookup d name ∧ deleteLookup d name = writeLookup d name
  found : ∀ k name, InUse d k → Fits name → Carries d k name →
    ∃ k', readLookup d name = some k' ∧ InUse d k' ∧ Carries d k' name
  listed : ls d = ((List.range 16).filter fun k => (inode d k).used == 1).map fun k =>
    (fileName d k, (inode d k).size)

/-- A file with a name of 8 characters has size 0. -/
def Closed (d : Disk) : Prop :=
  ∀ k, InUse d k → (∀ i < 8, inode d k i ≠ 0) → (inode d k).size = 0

/-- Every file carries a name that fits. -/
def Labelled (d : Disk) : Prop := ∀ k, InUse d k → ∃ name, Fits name ∧ Carries d k name

/-- A new file with a name of 8 characters has size 0. -/
def Terminated (d : Disk) : Op → Prop
  | .createFile name size => name.bytes.length = 8 → size = 0 ∨ NoRoom d size
  | _ => True

variable {d d' : Disk} {k : Nat} {name : CString} {bs : List Nat} {op : Op}

/-! ## The comparisons on a labelled field -/

/-- A field is full exactly if its name has 8 characters. -/
theorem Carries.full_iff (h : Carries d k name) (hname : Fits name) :
    (∀ i < 8, inode d k i ≠ 0) ↔ name.bytes.length = 8 := by
  have hlen := hname.2
  constructor
  · intro hfull
    by_contra hne
    refine hfull name.bytes.length (by omega) ?_
    rw [h _ (by omega), name.getD_eq_zero]
  · intro h8 i hi hzero
    rw [h i hi, name.getD_eq_zero] at hzero
    omega

/-- `strncmp` finds the name, -/
theorem strncmpEq_iff_carries (hl : Labelled d) (hk : InUse d k) (hname : Fits name) :
    strncmpEq (inode d k) 0 8 name.bytes = true ↔ Carries d k name := by
  obtain ⟨g, hg, hcar⟩ := hl k hk
  rw [strncmpEq_iff_forall]
  constructor
  · intro h
    have hgname : g.bytes = name.bytes := by
      refine CString.eq_of_getD hname.2 hg.2 fun i hi hlen => ?_
      rw [← hcar i hi, ← h i hi hlen, Nat.zero_add]
    intro i hi
    rw [hcar i hi, hgname]
  · intro h i hi _
    rw [Nat.zero_add, h i hi]

/-- and `strcmp` finds it if a full field is followed by a NUL. -/
theorem strcmpEq_iff_carries (hl : Labelled d) (hk : InUse d k) (hname : Fits name) :
    strcmpEq (inode d k) 0 name.bytes = true ↔
      Carries d k name ∧ (name.bytes.length = 8 → inode d k 8 = 0) := by
  have hlen := hname.2
  rw [← strncmpEq_iff_carries hl hk hname, strcmpEq_iff, strncmpEq_iff_forall]
  constructor
  · intro h
    refine ⟨fun i _ hi => h i hi, fun h8 => ?_⟩
    rw [← h8, ← Nat.zero_add name.bytes.length, h _ (le_refl _), name.getD_eq_zero]
  · rintro ⟨h, hnul⟩ i hi
    by_cases hi8 : i < 8
    · exact h i hi8 hi
    · obtain rfl : i = 8 := by omega
      rw [Nat.zero_add, hnul (by omega), eq_comm, name.getD_eq_zero]
      omega

/-- The byte behind the name is the size. -/
theorem Owned.size_byte (ho : Owned d) (hk : InUse d k) :
    inode d k 8 = 0 ↔ (inode d k).size = 0 := by
  obtain ⟨h0, h8⟩ := ho.size_range k hk
  have hbyte : (inode d k).size = (inode d k 8).toNat := getInt_byte h0 (by
    show (inode d k).size < 256
    omega)
  rw [hbyte]
  constructor
  · intro h
    rw [h]
    rfl
  · intro h
    exact UInt8.toNat_inj.mp (by exact_mod_cast h)

/-! ## The lookups -/

/-- What the lookup of `delete_file` accepts. -/
theorem delete_accepts (ho : Owned d) (hl : Labelled d) (hname : Fits name) (hk : k < 19) :
    ((inode d k).used == 1 && strncmpEq (inode d k) 0 8 name.bytes) = true ↔
      InUse d k ∧ Carries d k name := by
  rw [Bool.and_eq_true, beq_iff_eq]
  constructor
  · rintro ⟨hu, hcmp⟩
    have hfirst := strncmpEq_iff_forall.mp hcmp 0 (by omega) (by omega)
    have hin : InUse d k := ⟨ho.slot_lt hk hname.1 hfirst, hu⟩
    exact ⟨hin, (strncmpEq_iff_carries hl hin hname).mp hcmp⟩
  · rintro ⟨hin, hcar⟩
    exact ⟨hin.2, (strncmpEq_iff_carries hl hin hname).mpr hcar⟩

/-- What the lookup of `read` and `write` accepts. -/
theorem read_accepts (ho : Owned d) (hl : Labelled d) (hname : Fits name) (hk : k < 19) :
    ((inode d k).used == 1 && strcmpEq (inode d k) 0 name.bytes) = true ↔
      InUse d k ∧ Carries d k name ∧ (name.bytes.length = 8 → (inode d k).size = 0) := by
  rw [Bool.and_eq_true, beq_iff_eq]
  constructor
  · rintro ⟨hu, hcmp⟩
    have hfirst := strcmpEq_iff.mp hcmp 0 (by omega)
    have hin : InUse d k := ⟨ho.slot_lt hk hname.1 hfirst, hu⟩
    rw [strcmpEq_iff_carries hl hin hname, ho.size_byte hin] at hcmp
    exact ⟨hin, hcmp⟩
  · rintro ⟨hin, hcar⟩
    rw [strcmpEq_iff_carries hl hin hname, ho.size_byte hin]
    exact ⟨hin.2, hcar⟩

/-- On a closed disk the two comparisons find the same slots. -/
theorem Closed.lookup_eq (hc : Closed d) (ho : Owned d) (hl : Labelled d) (hname : Fits name) :
    deleteLookup d name = readLookup d name := by
  rw [deleteLookup, readLookup, scan, scan]
  refine List.find?_congr fun k hk => ?_
  have hk := List.mem_range.mp hk
  rw [Bool.eq_iff_iff, delete_accepts ho hl hname hk, read_accepts ho hl hname hk]
  constructor
  · rintro ⟨hin, hcar⟩
    exact ⟨hin, hcar, fun h8 => hc k hin ((hcar.full_iff hname).mpr h8)⟩
  · rintro ⟨hin, hcar, -⟩
    exact ⟨hin, hcar⟩

/-- A file that `delete_file` can find is found. -/
theorem deleteLookup_found (ho : Owned d) (hl : Labelled d) (hname : Fits name)
    (hin : InUse d k) (hcar : Carries d k name) :
    ∃ k', deleteLookup d name = some k' ∧ InUse d k' ∧ Carries d k' name := by
  have hlt : k < 19 := by
    have := hin.1
    omega
  cases hscan : deleteLookup d name with
  | none =>
      have hreject := scan_eq_none hscan k hlt
      rw [(delete_accepts ho hl hname hlt).mpr ⟨hin, hcar⟩] at hreject
      cases hreject
  | some k' =>
      obtain ⟨haccept, hk', -⟩ := scan_eq_some hscan
      exact ⟨k', rfl, (delete_accepts ho hl hname hk').mp haccept⟩

/-! ## `ls` -/

/-- `ls` prints the name exactly if the field is not full or the size is 0. -/
theorem printed_eq_iff (ho : Owned d) (hin : InUse d k) :
    ((List.range 48).map (inode d k)).takeWhile (· != 0) = fileName d k ↔
      ((∀ i < 8, inode d k i ≠ 0) → (inode d k).size = 0) := by
  have hsplit : (List.range 48).map (inode d k) = (List.range 8).map (inode d k) ++
      inode d k 8 :: (List.range 39).map fun i => inode d k (9 + i) := rfl
  rw [hsplit, fileName, List.takeWhile_append, ← ho.size_byte hin]
  by_cases hfull : ∀ i < 8, inode d k i ≠ 0
  · have hall : ((List.range 8).map (inode d k)).takeWhile (· != 0)
        = (List.range 8).map (inode d k) := by
      rw [List.takeWhile_eq_self_iff]
      intro c hc
      obtain ⟨i, hi, rfl⟩ := List.mem_map.mp hc
      simpa using hfull i (List.mem_range.mp hi)
    rw [hall, if_pos rfl, List.append_right_eq_self, List.takeWhile_cons]
    constructor
    · intro h _
      by_contra hne
      simp [hne] at h
    · intro h
      simp [h hfull]
  · have hstop : (((List.range 8).map (inode d k)).takeWhile (· != 0)).length
        ≠ ((List.range 8).map (inode d k)).length := by
      intro hlen
      have hself := (List.takeWhile_prefix (p := (· != 0))
        (l := (List.range 8).map (inode d k))).eq_of_length hlen
      rw [List.takeWhile_eq_self_iff] at hself
      refine hfull fun i hi => ?_
      simpa using hself (inode d k i) (List.mem_map_of_mem (List.mem_range.mpr hi))
    rw [if_neg hstop]
    exact ⟨fun _ h => absurd h hfull, fun _ => rfl⟩

theorem ls_eq_iff (ho : Owned d) :
    ls d = (((List.range 16).filter fun k => (inode d k).used == 1).map fun k =>
      (fileName d k, (inode d k).size)) ↔ Closed d := by
  rw [ls, List.map_inj_left]
  constructor
  · intro h k hin
    refine (printed_eq_iff ho hin).mp (Prod.ext_iff.mp (h k ?_)).1
    simpa [InUse] using hin
  · intro hc k hk
    have hin : InUse d k := by simpa [InUse] using hk
    rw [(printed_eq_iff ho hin).mpr (hc k hin)]

/-- **The operations agree exactly on the closed disks.** -/
theorem oneReading_iff (ho : Owned d) (hl : Labelled d) : OneReading d ↔ Closed d := by
  constructor
  · exact fun h => (ls_eq_iff ho).mp h.listed
  · intro hc
    refine ⟨fun name hname => ?_, fun k name hin hname hcar => ?_, (ls_eq_iff ho).mpr hc⟩
    · exact ⟨hc.lookup_eq ho hl hname, hc.lookup_eq ho hl hname⟩
    · rw [← hc.lookup_eq ho hl hname]
      exact deleteLookup_found ho hl hname hin hcar

/-! ## Along a session -/

theorem Labelled.kept (hl : Labelled d) (hop : op.Fits) (h : FilesKept d op d') :
    Labelled d' := by
  intro k hin
  rcases h k hin with ⟨name, size, bs, rfl, hc⟩ | ⟨hold, hsame⟩
  · exact ⟨name, hop.1, hc.name⟩
  · obtain ⟨name, hname, hcar⟩ := hl k hold
    exact ⟨name, hname, (carries_congr hsame).mpr hcar⟩

/-- A file that was there before keeps its name and size. -/
theorem full_congr (h : ∀ x, slot k ≤ x → x < slot k + 48 → d' x = d x) :
    ((∀ i < 8, inode d' k i ≠ 0) → (inode d' k).size = 0) ↔
      ((∀ i < 8, inode d k i ≠ 0) → (inode d k).size = 0) := by
  have hbyte : ∀ i < 8, inode d' k i = inode d k i := fun i hi =>
    h (slot k + i) (by omega) (by omega)
  rw [(inode_congr (show 0 < 8 by omega) h).2.1]
  refine imp_congr_left (forall₂_congr fun i hi => ?_)
  rw [hbyte i hi]

/-- A new file keeps the disk closed exactly if its name ends or it is empty. -/
theorem Created.closed_iff (hc : Created d k name bs d') (hname : Fits name) (hd : Closed d) :
    Closed d' ↔ (name.bytes.length = 8 → (bs.length : Int) = 0) := by
  have hcar : Carries d' k name := hc.name
  have hnew : InUse d' k := ⟨hc.slot_lt, hc.used⟩
  constructor
  · intro h h8
    rw [← hc.size]
    exact h k hnew ((hcar.full_iff hname).mpr h8)
  · intro h j hj
    by_cases hne : j = k
    · subst hne
      rw [hcar.full_iff hname, hc.size]
      exact h
    · exact (full_congr (hc.same_bytes hne)).mpr
        (hd j ((inUse_congr (hc.same_bytes hne)).mp hj))

/-- One call on a closed disk. -/
theorem Closed.next (hc : Closed d) (ho : Owned d) (hop : op.Fits) (hin : op.InBounds d) :
    ∃ d', sessions.next d op = some d' ∧ (Closed d' ↔ Terminated d op) := by
  cases op with
  | createFile name size =>
      obtain ⟨r, hr, h⟩ := createFile_spec ho name hop.2.1 hop.2.2
      refine ⟨r.disk, next_eq_some (by rw [exec, hr]; rfl), ?_⟩
      rcases h with ⟨-, hdisk, hfull⟩ | ⟨-, hroom, k, bs, hlen, -, hcreated⟩
      · rw [hdisk]
        exact ⟨fun _ _ => Or.inr hfull, fun _ => hc⟩
      · rw [hcreated.closed_iff hop.1 hc, hlen]
        exact ⟨fun h h8 => Or.inl (h h8), fun h h8 => (h h8).resolve_right hroom⟩
  | _ =>
      obtain ⟨d', hd', -, hkept⟩ := exec_keeps ho hop.sized hin
      refine ⟨d', next_eq_some hd', fun _ => trivial, fun _ k hk => ?_⟩
      rcases hkept k hk with ⟨name, size, bs, hname, -⟩ | ⟨hold, hsame⟩
      · cases hname
      · exact (full_congr hsame).mpr (hc k hold)

theorem closed_inductive :
    sessions.Inductive (fun d op => op.Fits ∧ op.InBounds d ∧ Terminated d op)
      fun d => Owned d ∧ Labelled d ∧ Closed d where
  init s hs := by
    have hs' : s = formatted := hs
    subst hs'
    exact ⟨owned_formatted, fun k hk => (formatted_not_inUse hk).elim,
      fun k hk => (formatted_not_inUse hk).elim⟩
  step s op s' h hop hn := by
    obtain ⟨ho, hl, hc⟩ := h
    obtain ⟨hfits, hin, hterminated⟩ := hop
    obtain ⟨t, ht, ho', hkept⟩ := exec_keeps ho hfits.sized hin
    obtain ⟨u, hu, hiff⟩ := hc.next ho hfits hin
    obtain rfl : t = s' := Option.some.inj ((next_eq_some ht).symm.trans hn)
    obtain rfl : u = t := Option.some.inj (hu.symm.trans hn)
    exact ⟨ho', hl.kept hfits hkept, hiff.mpr hterminated⟩

/-- **One reading of names.** In every session that gives names of 8
characters only to files of size 0, and in which no negative block number comes with
a file that is found, `delete_file`, `read` and `write` find the same file under
every name, every file is found, and `ls` prints its name. A further call keeps it
so exactly if it meets the condition. -/
theorem one_reading {d : Disk}
    (hd : sessions.ReachableUnder (fun d op => op.Fits ∧ op.InBounds d ∧ Terminated d op) d) :
    OneReading d ∧ ∀ op : Op, op.Fits → op.InBounds d →
      ∃ d', sessions.next d op = some d' ∧ (OneReading d' ↔ Terminated d op) := by
  obtain ⟨ho, hl, hc⟩ := closed_inductive.invariantUnder d hd
  refine ⟨(oneReading_iff ho hl).mpr hc, fun op hop hin => ?_⟩
  obtain ⟨t, ht, ho', hkept⟩ := exec_keeps ho hop.sized hin
  obtain ⟨d', hd', hiff⟩ := hc.next ho hop hin
  obtain rfl : t = d' := Option.some.inj ((next_eq_some ht).symm.trans hd')
  exact ⟨t, hd', by rw [oneReading_iff ho' (hl.kept hop hkept), hiff]⟩

/-- A file with a name of one character. -/
theorem one_reading_short_name :
    ∃ d, sessions.next formatted (.createFile ⟨[97], by decide⟩ 3) = some d ∧ OneReading d := by
  have hop : (Op.createFile ⟨[97], by decide⟩ 3).Fits := ⟨⟨by simp, by simp⟩, by omega, by omega⟩
  obtain ⟨d, hd, hiff⟩ := (one_reading (.init rfl)).2 _ hop trivial
  exact ⟨d, hd, hiff.mpr fun h8 => by simp at h8⟩

/-- A file of one block with a name of 8 characters: `delete_file` finds it,
`read` does not. -/
theorem full_name_not_found : ¬ sessions.InvariantUnder (fun _ op => op.Fits) OneReading := by
  intro hinv
  have hrun : (sessions.runChecked (fun _ op => op.Fits) formatted
      [.createFile ⟨[102, 105, 108, 101, 46, 116, 120, 116], by decide⟩ 1]).any
      (fun d => decide
        (deleteLookup d ⟨[102, 105, 108, 101, 46, 116, 120, 116], by decide⟩ = some 0 ∧
          readLookup d ⟨[102, 105, 108, 101, 46, 116, 120, 116], by decide⟩ = none)) = true := by
    decide +kernel
  obtain ⟨d, hd, hview⟩ := (Option.any_eq_true _ _).mp hrun
  obtain ⟨hdelete, hread⟩ := of_decide_eq_true hview
  have hsame := ((hinv d (.runChecked (.init rfl) hd)).lookup
    ⟨[102, 105, 108, 101, 46, 116, 120, 116], by decide⟩ ⟨by simp, by simp⟩).1
  rw [hdelete, hread] at hsame
  cases hsame

end Os377.Fs
