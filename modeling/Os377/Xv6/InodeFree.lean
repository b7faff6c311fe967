import Os377.Xv6.InodeMap
import Mathlib.Data.List.Nodup

/-!
# Truncating an inode

`itrunc` gives back every block of an inode and no other, and `bfree` never finds one of
them free.
-/

namespace Os377.Xv6.Filesys

open Os377.Lib Function

/-- What freeing `m` blocks changes: the bitmap, and nothing else on the disk. -/
structure Freed (sb : Superblock) (d d' : Disk) (m : Nat) : Prop where
  data : ∀ x, ¬ InBitmap sb x → d'.data x = d.data x
  free : free sb d' = free sb d + m
  logged : ∀ x ∈ d'.logged, x ∈ d.logged ∨ InBitmap sb x

variable {sb : Superblock} {d d' d₁ : Disk} {ip : Dinode} {t : Nat → Dinode}
variable {i k m n x : Nat} {p : Nat × Nat → Nat} {w : Nat × Nat}

theorem Freed.refl : Freed sb d d 0 := ⟨fun _ _ => rfl, rfl, fun _ => Or.inl⟩

/-- Freeing logs blocks of the bitmap. -/
theorem Freed.logs (h : Freed sb d d' m) (S : Nat → Prop) :
    Logs d d' (sb.nmeta - sb.bmapstart) S := by
  refine ⟨List.range' sb.bmapstart (sb.nmeta - sb.bmapstart), ?_, fun x hx => ?_⟩
  · rw [List.length_range']
  · refine (h.logged x hx).imp_right fun ⟨h1, h2⟩ => .inl (List.mem_range'_1.mpr ?_)
    omega

theorem Freed.trans (h : Freed sb d d₁ m) (h' : Freed sb d₁ d' n) : Freed sb d d' (m + n) where
  data x hx := (h'.data x hx).trans (h.data x hx)
  free := by
    have h1 := h.free
    have h2 := h'.free
    omega
  logged x hx := by
    rcases h'.logged x hx with hx | hx
    · exact h.logged x hx
    · exact .inr hx

/-- The block of one holder, if it has one. -/
theorem bfree_one (hp : Placed (· < sb.size) (· < sb.nmeta) (Used sb d) p) (hw : p w ≠ 0) :
    ∃ d', bfree sb d (p w) = .ok d' ∧ Freed sb d d' 1 ∧
      Placed (· < sb.size) (· < sb.nmeta) (Used sb d') (update p w 0) := by
  have hlt := (hp.cell w hw).1
  have hused := hp.held hw
  refine ⟨_, bfree_spec hused, ⟨fun x hx => unmark_data hlt hx, ?_, fun x hx => ?_⟩, ?_⟩
  · exact free_drop hlt hused fun c _ => used_unmark
  · rcases mem_logWrite.mp hx with hx | rfl
    · exact .inl hx
    · exact .inr (inBitmap_bblock hlt)
  · exact hp.drop hw fun c _ => used_unmark

/-- The loop frees the blocks of all its holders `hold j`. -/
theorem bfreeEach_spec (entry : Disk → Nat → Nat) (hold : Nat → Nat × Nat) (js : List Nat)
    (hjs : js.Nodup) (hinj : Injective hold)
    (hentry : ∀ j ∈ js, ∀ d', (∀ x, ¬ InBitmap sb x → d'.data x = d.data x) →
      entry d' j = p (hold j))
    (hp : Placed (· < sb.size) (· < sb.nmeta) (Used sb d) p) :
    ∃ d', bfreeEach sb entry js d = .ok d' ∧
      Freed sb d d' (js.countP fun j => decide (p (hold j) ≠ 0)) ∧
      Placed (· < sb.size) (· < sb.nmeta) (Used sb d') (without p (js.map hold)) := by
  induction js generalizing d p with
  | nil => exact ⟨d, rfl, .refl, by rwa [List.map_nil, without_nil]⟩
  | cons j js ih =>
      obtain ⟨hj, hjs⟩ := List.nodup_cons.mp hjs
      have hhere : entry d j = p (hold j) := hentry j List.mem_cons_self d fun _ _ => rfl
      have hlater : ∀ k ∈ js, update p (hold j) 0 (hold k) = p (hold k) := by
        intro k hk
        apply update_of_ne
        intro heq
        exact hj (hinj heq ▸ hk)
      have hcount : js.countP (fun k => decide (update p (hold j) 0 (hold k) ≠ 0))
          = js.countP fun k => decide (p (hold k) ≠ 0) :=
        List.countP_congr fun k hk => by rw [hlater k hk]
      have hgoal : ∀ d₁ m, Freed sb d d₁ m → m = (if p (hold j) = 0 then 0 else 1) →
          Placed (· < sb.size) (· < sb.nmeta) (Used sb d₁) (update p (hold j) 0) →
          ∃ d', bfreeEach sb entry js d₁ = .ok d' ∧
            Freed sb d d' ((j :: js).countP fun j => decide (p (hold j) ≠ 0)) ∧
            Placed (· < sb.size) (· < sb.nmeta) (Used sb d')
              (without p ((j :: js).map hold)) := by
        intro d₁ m hfreed hm hp₁
        obtain ⟨d', hd', hfreed', hp'⟩ := ih hjs
          (fun k hk d₂ hd₂ => by
            rw [hlater k hk]
            exact hentry k (List.mem_cons_of_mem j hk) d₂
              fun x hx => (hd₂ x hx).trans (hfreed.data x hx)) hp₁
        refine ⟨d', hd', ?_, by rwa [List.map_cons, ← without_cons]⟩
        rw [hcount] at hfreed'
        have htrans := hfreed.trans hfreed'
        rw [hm, Nat.add_comm] at htrans
        rw [List.countP_cons]
        convert htrans using 2
        by_cases h0 : p (hold j) = 0 <;> simp [h0]
      rw [bfreeEach, hhere]
      by_cases h0 : p (hold j) = 0
      · rw [if_pos h0]
        refine hgoal d 0 .refl (if_pos h0).symm ?_
        rwa [← h0, update_eq_self]
      · rw [if_neg h0]
        obtain ⟨d₁, hd₁, hfreed, hp₁⟩ := bfree_one hp h0
        rw [hd₁]
        exact hgoal d₁ 1 hfreed (if_neg h0).symm hp₁

theorem countP_range_lt (m n : Nat) : (List.range m).countP (fun k => decide (k < n)) = min m n := by
  induction m with
  | zero => exact (Nat.zero_min n).symm
  | succ m ih =>
      rw [List.range_succ, List.countP_append, ih, List.countP_singleton]
      by_cases h : m < n
      · rw [if_pos (decide_eq_true h)]
        omega
      · rw [if_neg (by simpa using h)]
        omega

/-! ## `itrunc` -/

/-- The fields of an inode that has been truncated. -/
def emptied (ip : Dinode) : Dinode :=
  { ip with addrs := fun k => if k ≤ ndirect then 0 else ip.addrs k, size := 0 }

theorem ptr_emptied (k : Nat) : ptr d (emptied ip) k = 0 := by
  have h0 : ∀ m, m ≤ ndirect → (emptied ip).addrs m = 0 := fun m hm => if_pos hm
  by_cases hk : k ≤ ndirect
  · rw [ptr_direct hk, h0 k hk]
  · exact ptr_none (h0 ndirect (Nat.le_refl _)) (by omega)

theorem Filled.emptied : Filled d (emptied ip) 0 where
  block k _ := by
    rw [Filesys.block, ptr_emptied]
    omega
  indirect := by
    rw [← ptr_direct (d := d) (Nat.le_refl ndirect), ptr_emptied]
    omega
  le := Nat.zero_le _

theorem Filled.ptr_eq_zero (hf : Filled d ip n) (h : ndirect < k) (h' : ¬ ndirect < n) :
    ptr d ip k = 0 := by
  refine ptr_none ?_ h
  by_contra hne
  exact h' (hf.indirect.mp hne)

/-- With every pointer of the inode gone, its fields can be cleared. -/
theorem Good.emptied (hg : Good sb t d) (hd : ∀ x, ¬ InBitmap sb x → d'.data x = d.data x)
    (hi : ∀ k, p (i, k) = 0) (hother : ∀ j k, j ≠ i → p (j, k) = pointers sb t d (j, k))
    (hp : Placed (· < sb.size) (· < sb.nmeta) (Used sb d') p) :
    Good sb (update t i (emptied (t i))) d' := by
  unfold Good
  convert hp
  funext ⟨j, k⟩
  by_cases hji : j = i
  · rw [hji, hi, pointers, update_self, ptr_emptied, ite_self]
  · rw [hother j k hji, pointers, pointers, update_of_ne hji]
    by_cases hj : j < sb.ninodes
    · rw [if_pos hj, if_pos hj, ptr_congr]
      intro h0
      apply hd
      rw [← ptr_direct (d := d) (Nat.le_refl ndirect)] at h0 ⊢
      exact not_inBitmap (hg.ptr_ge hj h0)
    · rw [if_neg hj, if_neg hj]

theorem hold_injective (i c : Nat) : Injective fun j => (i, c + j) := by
  intro j k hjk
  have := (Prod.mk.inj hjk).2
  omega

/-- The first loop of `itrunc`. -/
theorem Good.free_direct (hg : Good sb t d) (hi : i < sb.ninodes) (hf : Filled d (t i) n) :
    ∃ d', bfreeEach sb (fun _ j => (t i).addrs j) (List.range ndirect) d = .ok d' ∧
      Freed sb d d' (min ndirect n) ∧
      Placed (· < sb.size) (· < sb.nmeta) (Used sb d')
        (without (pointers sb t d) ((List.range ndirect).map fun j => (i, 0 + j))) := by
  have hcount : (List.range ndirect).countP (fun j => decide (pointers sb t d (i, 0 + j) ≠ 0))
      = min ndirect n := by
    rw [← countP_range_lt]
    apply List.countP_congr
    intro j hj
    have hj := List.mem_range.mp hj
    have hslot : slot j = 0 + j := by rw [slot, if_pos hj, Nat.zero_add]
    rw [← hslot, decide_eq_true_eq, decide_eq_true_eq, pointers_lt hi]
    exact hf.block j (by unfold maxfile; omega)
  rw [← hcount]
  refine bfreeEach_spec _ (fun j => (i, 0 + j)) (List.range ndirect) List.nodup_range
    (hold_injective i 0) (fun j hj _ _ => ?_) hg.placed
  rw [pointers_lt hi, Nat.zero_add, ptr_direct (Nat.le_of_lt (List.mem_range.mp hj))]

/-- The second loop of `itrunc`, and the indirect block itself. -/
theorem Good.free_indirect (hg : Good sb t d) (hi : i < sb.ninodes) (hf : Filled d (t i) n)
    (hn : ndirect < n) (hd : ∀ x, ¬ InBitmap sb x → d₁.data x = d.data x)
    (hp : Placed (· < sb.size) (· < sb.nmeta) (Used sb d₁) p)
    (hpt : ∀ k, ndirect ≤ k → p (i, k) = ptr d (t i) k) :
    ∃ d', bfreeIndirect sb ((t i).addrs ndirect) d₁ = .ok d' ∧
      Freed sb d₁ d' (n - ndirect + 1) ∧
      Placed (· < sb.size) (· < sb.nmeta) (Used sb d')
        (update (without p ((List.range nindirect).map fun j => (i, ndirect + 1 + j)))
          (i, ndirect) 0) := by
  have hle := hf.le
  have h0 := hf.indirect.mpr hn
  have hbp : ptr d (t i) ndirect = (t i).addrs ndirect := ptr_direct (Nat.le_refl _)
  have hmeta : ¬ InBitmap sb ((t i).addrs ndirect) := by
    rw [← hbp] at h0 ⊢
    exact not_inBitmap (hg.ptr_ge hi h0)
  have hentry : ∀ j < nindirect, p (i, ndirect + 1 + j)
      = entry (d.data ((t i).addrs ndirect)) j := by
    intro j hj
    rw [hpt _ (by omega), ptr_indirect h0 (by omega) (by unfold maxfile; omega),
      Nat.add_sub_cancel_left]
  have hcount : (List.range nindirect).countP
      (fun j => decide (p (i, ndirect + 1 + j) ≠ 0)) = n - ndirect := by
    rw [show n - ndirect = min nindirect (n - ndirect) by unfold maxfile at hle; omega,
      ← countP_range_lt]
    apply List.countP_congr
    intro j hj
    have hj := List.mem_range.mp hj
    have hslot : slot (ndirect + j) = ndirect + 1 + j := by
      rw [slot, if_neg (by omega)]
      omega
    have hfill := hf.block (ndirect + j) (by unfold maxfile; omega)
    rw [Filesys.block, hslot] at hfill
    rw [decide_eq_true_eq, decide_eq_true_eq, hpt _ (by omega), hfill]
    omega
  obtain ⟨d₂, hd₂, hfreed₂, hp₂⟩ := bfreeEach_spec
    (fun d j => entry (d.data ((t i).addrs ndirect)) j)
    (fun j => (i, ndirect + 1 + j)) (List.range nindirect) List.nodup_range
    (hold_injective i _) (fun j hj d' hd' => by
      rw [hentry j (List.mem_range.mp hj), hd' _ hmeta, hd _ hmeta]) hp
  have hwhere : without p ((List.range nindirect).map fun j => (i, ndirect + 1 + j)) (i, ndirect)
      = (t i).addrs ndirect := by
    rw [without, if_neg, hpt _ (Nat.le_refl _), hbp]
    intro hmem
    obtain ⟨j, -, hj⟩ := List.mem_map.mp hmem
    have := (Prod.mk.inj hj).2
    omega
  obtain ⟨d', hd', hfreed', hp'⟩ := bfree_one (w := (i, ndirect)) hp₂ (by rwa [hwhere])
  rw [hwhere] at hd'
  rw [hcount] at hfreed₂
  refine ⟨d', ?_, hfreed₂.trans hfreed', hp'⟩
  rw [bfreeIndirect, if_neg h0, hd₂]
  exact hd'

/-- `itrunc` succeeds, and frees the blocks of the inode. -/
theorem Good.itrunc_freed (hg : Good sb t d) (hi : i < sb.ninodes) (hf : Filled d (t i) n) :
    ∃ d', itrunc sb i (t i) d
        = .ok (Filesys.emptied (t i), iupdate sb d' i (Filesys.emptied (t i))) ∧
      Freed sb d d' (held n) ∧ Good sb (update t i (Filesys.emptied (t i))) d' := by
  obtain ⟨d₁, hd₁, hfreed₁, hp₁⟩ := hg.free_direct hi hf
  have hgone : ∀ k < ndirect, without (pointers sb t d)
      ((List.range ndirect).map fun j => (i, 0 + j)) (i, k) = 0 := fun k hk =>
    if_pos (List.mem_map.mpr ⟨k, List.mem_range.mpr hk, by rw [Nat.zero_add]⟩)
  have hleft : ∀ j k, (j = i → ndirect ≤ k) → without (pointers sb t d)
      ((List.range ndirect).map fun j => (i, 0 + j)) (j, k) = pointers sb t d (j, k) := by
    intro j k hjk
    refine if_neg fun hmem => ?_
    obtain ⟨m, hm, heq⟩ := List.mem_map.mp hmem
    have hm := List.mem_range.mp hm
    have h1 := (Prod.mk.inj heq).1
    have h2 := (Prod.mk.inj heq).2
    have := hjk h1.symm
    omega
  have hrun : ∀ d', bfreeIndirect sb ((t i).addrs ndirect) d₁ = .ok d' → itrunc sb i (t i) d
      = .ok (Filesys.emptied (t i), iupdate sb d' i (Filesys.emptied (t i))) := by
    intro d' hd'
    unfold itrunc
    rw [hd₁]
    show (do let d ← bfreeIndirect sb ((t i).addrs ndirect) d₁; _) = _
    rw [hd']
    rfl
  by_cases hn : ndirect < n
  · obtain ⟨d', hd', hfreed', hp'⟩ := hg.free_indirect hi hf hn hfreed₁.data hp₁
      fun k hk => by rw [hleft i k fun _ => hk, pointers_lt hi]
    have hheld : held n = min ndirect n + (n - ndirect + 1) := by
      rw [held, if_pos hn]
      omega
    have hkeep : ∀ x, ¬ InBitmap sb x → d'.data x = d.data x := fun x hx =>
      (hfreed'.data x hx).trans (hfreed₁.data x hx)
    refine ⟨d', hrun d' hd', hheld ▸ hfreed₁.trans hfreed', ?_⟩
    refine hg.emptied hkeep (fun k => ?_) (fun j k hj => ?_) hp'
    · by_cases hk : k = ndirect
      · rw [hk, update_self]
      · rw [update_of_ne fun h => hk (Prod.mk.inj h).2, without]
        by_cases hmem : (i, k) ∈ (List.range nindirect).map fun j => (i, ndirect + 1 + j)
        · exact if_pos hmem
        · rw [if_neg hmem]
          by_cases hlt : k < ndirect
          · exact hgone k hlt
          · rw [hleft i k fun _ => by omega, pointers_lt hi, ptr, if_neg (by omega), if_pos]
            refine .inr (Nat.lt_of_not_le fun hle => hmem ?_)
            refine List.mem_map.mpr ⟨k - (ndirect + 1), List.mem_range.mpr ?_, ?_⟩
            · unfold maxfile at hle
              omega
            · rw [show ndirect + 1 + (k - (ndirect + 1)) = k by omega]
    · rw [update_of_ne fun h => hj (Prod.mk.inj h).1, without, if_neg]
      · exact hleft j k fun h => absurd h hj
      · intro hmem
        obtain ⟨m, -, heq⟩ := List.mem_map.mp hmem
        exact hj (Prod.mk.inj heq).1.symm
  · have h0 : (t i).addrs ndirect = 0 := by
      by_contra hne
      exact hn (hf.indirect.mp hne)
    have hheld : held n = min ndirect n := by
      rw [held, if_neg hn]
      omega
    refine ⟨d₁, hrun d₁ (if_pos h0), hheld ▸ hfreed₁, hg.emptied hfreed₁.data (fun k => ?_)
      (fun j k hj => hleft j k fun h => absurd h hj) hp₁⟩
    by_cases hk : k < ndirect
    · exact hgone k hk
    · rw [hleft i k fun _ => by omega, pointers_lt hi]
      by_cases hkn : k = ndirect
      · rw [hkn, ptr_direct (Nat.le_refl _), h0]
      · exact hf.ptr_eq_zero (by omega) hn

end Os377.Xv6.Filesys
