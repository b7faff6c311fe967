import Os377.Xv6.InodeFree

/-!
# The content of files

`readi` and `writei` go through a file block by block. A file's blocks are there up to its
size, so that reading never allocates; writing fills blocks of the file and adds new ones
behind its last, and leaves every byte that it does not write as it was, in this file and
in all others.
-/

namespace Os377.Xv6.Filesys

open Os377.Lib Function

/-- Byte number `x` of an inode. -/
def byteAt (d : Disk) (ip : Dinode) (x : Nat) : UInt8 :=
  d.data (block d ip (x / bsize)) (x % bsize)

/-- The blocks that `size` bytes need. -/
def blocksFor (size : Nat) : Nat := (size + bsize - 1) / bsize

variable {sb : Superblock} {d d' d₁ d₂ : Disk} {ip ip' ip₁ ip₂ : Dinode} {t : Nat → Dinode}
variable {b i j k m n n' n₁ n₂ off len x fuel : Nat} {src : List UInt8}

/-! ## Reading -/

theorem readLoop_spec (hf : Filled d ip n) (hlen : len ≤ fuel) (hn : off + len ≤ bsize * n) :
    readLoop sb fuel ip off len d
      = .ok ((List.range len).map fun k => byteAt d ip (off + k), ip, d) := by
  induction fuel generalizing off len with
  | zero =>
      rw [Nat.le_zero.mp hlen]
      rfl
  | succ fuel ih =>
      rw [readLoop]
      by_cases h0 : len = 0
      · rw [if_pos h0, h0]
        rfl
      · have hblock : off / bsize < n := by
          unfold bsize at *
          omega
        have hlow : ∀ k < min len (bsize - off % bsize),
            (off + k) / bsize = off / bsize ∧ (off + k) % bsize = off % bsize + k := by
          intro k hk
          unfold bsize at *
          omega
        have hpos : 0 < min len (bsize - off % bsize) := by
          unfold bsize
          omega
        have hle := Nat.min_le_left len (bsize - off % bsize)
        generalize hm : min len (bsize - off % bsize) = m at hlow hpos hle
        have hsplit : (List.range len).map (fun k => byteAt d ip (off + k))
            = (List.range m).map (fun k => d.data (block d ip (off / bsize)) (off % bsize + k))
              ++ (List.range (len - m)).map fun k => byteAt d ip (off + m + k) := by
          rw [← Nat.add_sub_cancel' hle, List.range_add, List.map_append, List.map_map,
            Nat.add_sub_cancel_left]
          congr 1
          · apply List.map_congr_left
            intro k hk
            have hk := hlow k (List.mem_range.mp hk)
            rw [byteAt, hk.1, hk.2]
          · apply List.map_congr_left
            intro k _
            rw [Function.comp_apply, Nat.add_assoc]
        have hrest : readLoop sb fuel ip (off + m) (len - m) d = _ := ih (by omega) (by omega)
        rw [if_neg h0, hf.bmap_eq hblock, hsplit, ok_bind]
        simp only [hrest, ok_bind]

/-! ## Adding blocks -/

namespace Extended

theorem refl (hg : Good sb t d) (hf : Filled d (t i) n) : Extended sb t d i n (t i) d n where
  good := by rwa [update_eq_self]
  filled := hf
  grows := Nat.le_refl n
  idle _ := rfl
  same := rfl
  beyond _ _ := rfl
  indirect _ := rfl
  blocks _ _ := rfl
  used _ _ := id
  fresh k _ _ := ⟨k, rfl⟩
  frame _ _ _ _ _ := rfl
  free := rfl

theorem trans (hi : i < sb.ninodes) (h : Extended sb t d i n ip₁ d₁ n₁)
    (h' : Extended sb (update t i ip₁) d₁ i n₁ ip' d' n') : Extended sb t d i n ip' d' n' := by
  have hself : update t i ip₁ i = ip₁ := update_self i _ _
  have hlt : ∀ k, ptr d' ip' k ≠ 0 → ptr d' ip' k < sb.size := by
    intro k hk
    have := h'.good.ptr_lt (i := i) (k := k) hi
    rw [update_self] at this
    exact this hk
  refine ⟨by simpa only [update_idem] using h'.good, h'.filled, h.grows.trans h'.grows,
    fun heq => ?_, ?_, fun m hm => ?_, fun hne => ?_, fun k hk => ?_,
    fun c hc hu => h'.used c hc (h.used c hc hu), fun k hk hu => ?_, fun x hx hnb hu hx' => ?_, ?_⟩
  · have h1 := h.grows
    have h2 := h'.grows
    rw [h'.idle (by omega), hself, h.idle (by omega)]
  · have hs := h'.same
    rw [hself, h.same] at hs
    exact hs
  · rw [h'.beyond m hm, hself, h.beyond m hm]
  · have h1 := h.indirect hne
    have h2 := h'.indirect
    rw [hself, h1] at h2
    exact h2 hne
  · have hk₁ := h'.blocks k (by have := h.grows; omega)
    rw [hself] at hk₁
    rw [hk₁, h.blocks k hk]
  · obtain ⟨m, hm⟩ := h'.fresh k hk (h.used _ (hlt k hk) hu)
    rw [hself] at hm
    rw [← hm] at hk hu ⊢
    exact h.fresh m hk hu
  · rw [h'.frame x hx hnb (h.used x hx hu) ?_, h.frame x hx hnb hu hx']
    rw [hself]
    rintro k hk rfl
    obtain ⟨m, hm⟩ := h.fresh k hk hu
    exact hx' m (by rwa [hm]) hm.symm
  · have h1 := h.free
    have h2 := h'.free
    omega

end Extended


/-! ## Writing -/

section Store

variable (hg : Good sb t d) (hi : i < sb.ninodes) (hip : t i = ip) (hf : Filled d ip n) (hk : k < n)
include hg hi hip hf hk

/-- Storing into a data block of an inode moves no block. -/
theorem Good.store (m : Mem) :
    Extended sb t d i n ip (d.logWrite (block d ip k) m) n := by
  subst hip
  have hne : block d (t i) k ≠ 0 := (hf.block k (Nat.lt_of_lt_of_le hk hf.le)).mpr hk
  have hmeta := not_inBitmap (hg.ptr_ge hi hne)
  have hptr : ∀ j < sb.ninodes, ptr (d.logWrite (block d (t i) k) m) (t j) = ptr d (t j) := by
    intro j hj
    apply ptr_congr
    intro h0
    apply logWrite_of_ne
    rw [← ptr_direct (d := d) (Nat.le_refl ndirect)] at h0 ⊢
    intro heq
    exact slot_ne_ndirect k (hg.ptr_inj hj hi heq h0).2.symm
  have hused : ∀ c < sb.size, Used sb (d.logWrite (block d (t i) k) m) c ↔ Used sb d c :=
    fun c hc => used_logWrite hc hmeta
  have hblock : block (d.logWrite (block d (t i) k) m) (t i) = block d (t i) := by
    funext c
    rw [block, hptr i hi]
    rfl
  have hpointers : pointers sb t (d.logWrite (block d (t i) k) m) = pointers sb t d :=
    pointers_congr hptr
  refine ⟨?_, ⟨fun c hc => ?_, hf.indirect, hf.le⟩, Nat.le_refl n, fun _ => rfl, rfl,
    fun _ _ => rfl, fun _ => rfl, fun c _ => congrFun hblock c, fun c hc => (hused c hc).mpr,
    fun c _ _ => ⟨c, by rw [hptr i hi]⟩, fun x _ _ _ hx => ?_, by rw [free_congr hused]⟩
  · rw [update_eq_self]
    unfold Good
    rw [hpointers]
    exact hg.placed.congr_used hused
  · rw [hblock]
    exact hf.block c hc
  · exact logWrite_of_ne (hx (slot k) hne)

/-- The bytes after storing into a data block. -/
theorem Good.byteAt_store (m : Mem) (hx : x / bsize < n) :
    byteAt (d.logWrite (block d ip k) m) ip x
      = if x / bsize = k then m (x % bsize) else byteAt d ip x := by
  subst hip
  have hblock := (hg.store hi rfl hf hk m).blocks _ hx
  have hne : block d (t i) (x / bsize) ≠ 0 :=
    (hf.block _ (Nat.lt_of_lt_of_le hx hf.le)).mpr hx
  rw [byteAt, hblock]
  by_cases hxk : x / bsize = k
  · rw [if_pos hxk, hxk, logWrite_self]
  · rw [if_neg hxk, logWrite_of_ne, byteAt]
    intro heq
    exact hxk (slot_inj (hg.ptr_inj hi hi heq hne).2)

end Store

/-- The bytes `src` have been written at `off`. -/
structure Wrote (sb : Superblock) (t : Nat → Dinode) (d : Disk) (i n off : Nat) (src : List UInt8)
    (ip' : Dinode) (d' : Disk) (n' : Nat) : Prop extends Extended sb t d i n ip' d' n' where
  stored : ∀ x, off ≤ x → x < off + src.length → byteAt d' ip' x = src.getD (x - off) 0
  rest : ∀ x < bsize * n, x < off ∨ off + src.length ≤ x → byteAt d' ip' x = byteAt d (t i) x
  logged : Logs d d' (held n' - held n) fun x =>
    (∃ k, off / bsize ≤ k ∧ k < blocksFor (off + src.length) ∧ x = block d' ip' k) ∨
    (ip'.addrs ndirect ≠ 0 ∧ x = ip'.addrs ndirect)

theorem Wrote.nil (hg : Good sb t d) (hf : Filled d (t i) n) :
    Wrote sb t d i n off [] (t i) d n where
  toExtended := .refl hg hf
  stored _ h1 h2 := absurd h2 (Nat.not_lt_of_le h1)
  rest _ _ _ := rfl
  logged := (Logs.refl d).mono (Nat.zero_le _) fun _ => id

/-- One piece after the other. -/
theorem Wrote.trans (hi : i < sb.ninodes) (hm : m ≤ src.length)
    (h : Wrote sb t d i n off (src.take m) ip₁ d₁ n₁) (hn : off + m ≤ bsize * n₁)
    (h' : Wrote sb (update t i ip₁) d₁ i n₁ (off + m) (src.drop m) ip' d' n') :
    Wrote sb t d i n off src ip' d' n' where
  toExtended := h.toExtended.trans hi h'.toExtended
  stored x h1 h2 := by
    by_cases hx : x < off + m
    · rw [h'.rest x (by omega) (.inl hx), update_self,
        h.stored x h1 (by rw [List.length_take]; omega), List.getD_eq_getElem?_getD,
        List.getElem?_take_of_lt (by omega), List.getD_eq_getElem?_getD]
    · rw [h'.stored x (by omega) (by rw [List.length_drop]; omega), List.getD_eq_getElem?_getD,
        List.getElem?_drop, show m + (x - (off + m)) = x - off by omega,
        List.getD_eq_getElem?_getD]
  rest x hx hout := by
    have hgrows := h.grows
    have hxn : x < bsize * n₁ := Nat.lt_of_lt_of_le hx (Nat.mul_le_mul_left _ hgrows)
    rw [h'.rest x hxn (by rw [List.length_drop]; omega), update_self,
      h.rest x hx (by rw [List.length_take]; omega)]
  logged := by
    have hlow : (off + m) / bsize ≥ off / bsize := Nat.div_le_div_right (Nat.le_add_right _ _)
    have hend : off + m + (src.drop m).length = off + src.length := by
      rw [List.length_drop]
      omega
    have hmid : blocksFor (off + (src.take m).length) ≤ blocksFor (off + src.length) := by
      rw [List.length_take]
      exact Nat.div_le_div_right (by omega)
    have h1 := held_mono h.grows
    have h2 := held_mono h'.grows
    refine Logs.mono (Logs.trans (h.logged.mono (Nat.le_refl _) ?_)
      (h'.logged.mono (Nat.le_refl _) ?_)) (by omega) fun _ => id
    · rintro x (⟨k, h1, h2, rfl⟩ | ⟨hne, hx⟩)
      · refine .inl ⟨k, h1, by omega, ?_⟩
        have hk : k < n₁ := by
          rw [List.length_take, Nat.min_eq_left hm] at h2
          unfold blocksFor bsize at *
          omega
        rw [h'.blocks k hk, update_self]
      · have hkeep := h'.indirect
        rw [update_self] at hkeep
        exact .inr ⟨by rwa [hkeep hne], by rw [hkeep hne, hx]⟩
    · rintro x (⟨k, h1, h2, rfl⟩ | hx)
      · rw [hend] at h2
        exact .inl ⟨k, by omega, h2, rfl⟩
      · exact .inr hx

/-- The rest of an iteration of `writei`, once `bmap` has found or made the block. -/
theorem Extended.wrote (h : Extended sb t d i n ip₁ d₁ n₁) (hi : i < sb.ninodes)
    (off : Nat) (src : List UInt8)
    (hk : off / bsize < n₁) (hm : m ≤ src.length) (hpos : 0 < m) (hend : off % bsize + m ≤ bsize)
    (hbytes : ∀ x < bsize * n, byteAt d₁ ip₁ x = byteAt d (t i) x)
    (hlog : Logs d d₁ (held n₁ - held n) fun x => x = block d₁ ip₁ (off / bsize) ∨
      (ip₁.addrs ndirect ≠ 0 ∧ x = ip₁.addrs ndirect)) :
    Wrote sb t d i n off (src.take m) ip₁
      (d₁.logWrite (block d₁ ip₁ (off / bsize)) (splice (d₁.data (block d₁ ip₁ (off / bsize)))
        (off % bsize) m fun i => src.getD i 0)) n₁ := by
  have hstore := h.good.store hi (update_self i ip₁ t) h.filled hk
  have hbyte := fun w x hx => h.good.byteAt_store hi (update_self i ip₁ t) h.filled hk w (x := x) hx
  have hlen : (src.take m).length = m := by rw [List.length_take, Nat.min_eq_left hm]
  refine ⟨h.trans hi (hstore _), fun x h1 h2 => ?_, fun x hx hout => ?_, ?_⟩
  · rw [hlen] at h2
    have hdiv : x / bsize = off / bsize ∧ x % bsize = off % bsize + (x - off) := by
      unfold bsize at *
      omega
    rw [hbyte _ x (by rw [hdiv.1]; exact hk), if_pos hdiv.1, hdiv.2,
      splice_inside (by omega) (by omega), Nat.add_sub_cancel_left, List.getD_eq_getElem?_getD,
      List.getD_eq_getElem?_getD, List.getElem?_take_of_lt (by omega)]
  · rw [hlen] at hout
    have hgrows := h.grows
    have hxn : x / bsize < n₁ := by
      unfold bsize at *
      omega
    rw [hbyte _ x hxn, ← hbytes x hx]
    by_cases hxk : x / bsize = off / bsize
    · rw [if_pos hxk, splice_outside, byteAt, hxk]
      unfold bsize at *
      omega
    · exact if_neg hxk
  · have hsame := (hstore (splice (d₁.data (block d₁ ip₁ (off / bsize))) (off % bsize) m
      fun i => src.getD i 0)).blocks _ hk
    rw [update_self] at hsame
    have hlast : off / bsize < blocksFor (off + (src.take m).length) := by
      rw [hlen]
      unfold blocksFor bsize
      omega
    have hhere : ∀ x, x = block d₁ ip₁ (off / bsize) → ∃ k, off / bsize ≤ k ∧
        k < blocksFor (off + (src.take m).length) ∧ x = block _ ip₁ k := fun x hx =>
      ⟨off / bsize, Nat.le_refl _, hlast, hx.trans hsame.symm⟩
    refine (hlog.mono (Nat.le_refl _) fun x hx => ?_).logWrite (.inl (hhere _ rfl)) _
    exact hx.imp_left (hhere x)

/-- An iteration of `writei`. -/
theorem Good.writeBlock (hg : Good sb t d) (hi : i < sb.ninodes) (hf : Filled d (t i) n)
    (hsrc : src ≠ []) (hoff : off ≤ bsize * n) (hmax : off + src.length ≤ maxfile * bsize) :
    (∃ bp ip₁ d₁, bmap sb (t i) (off / bsize) d = .ok (bp, ip₁, d₁) ∧
      Wrote sb t d i n off (src.take (min src.length (bsize - off % bsize))) ip₁
        (d₁.logWrite bp (splice (d₁.data bp) (off % bsize)
          (min src.length (bsize - off % bsize)) fun i => src.getD i 0))
        (max n (off / bsize + 1))) ∨
      (bmap sb (t i) (off / bsize) d = .error "balloc: out of blocks" ∧ off / bsize = n ∧
        free sb d + held n < held (n + 1)) := by
  have hlen := List.length_pos_iff.mpr hsrc
  have hpos : 0 < min src.length (bsize - off % bsize) := by
    unfold bsize
    omega
  have hend : off % bsize + min src.length (bsize - off % bsize) ≤ bsize := by
    unfold bsize
    omega
  have hle := Nat.min_le_left src.length (bsize - off % bsize)
  by_cases hk : off / bsize < n
  · refine .inl ⟨_, _, _, hf.bmap_eq hk, ?_⟩
    rw [Nat.max_eq_left hk]
    exact (Extended.refl hg hf).wrote hi off src hk hle hpos hend (fun _ _ => rfl)
      ((Logs.refl d).mono (Nat.zero_le _) fun _ => id)
  · have hkn : off / bsize = n := by
      unfold bsize at *
      omega
    have hmaxn : n < maxfile := by
      unfold bsize at *
      omega
    rcases hg.bmap_grown hi hf hmaxn with ⟨b, ip₁, d₁, hrun, hgrown⟩ | ⟨hrun, hroom⟩
    · refine .inl ⟨b, ip₁, d₁, by rw [hkn]; exact hrun, ?_⟩
      have hlog := hgrown.logged
      rw [Nat.max_eq_right (by omega), hkn]
      rw [← hgrown.new] at hlog ⊢
      have hgo := hgrown.toExtended.wrote hi off src (by omega) hle hpos hend
        (fun x hx => ?_) (by rwa [hkn])
      · rwa [hkn] at hgo
      · have hxn : x / bsize < n := by
          unfold bsize at *
          omega
        have hne := (hf.block _ (by omega)).mpr hxn
        rw [byteAt, byteAt, hgrown.blocks _ hxn]
        refine congrFun (?_ : d₁.data (block d (t i) (x / bsize)) = _) _
        refine hgrown.kept _ (hg.ptr_lt hi hne) (not_inBitmap (hg.ptr_ge hi hne))
          (hg.ptr_used hi hne) fun heq => ?_
        rw [← ptr_direct (d := d) (Nat.le_refl ndirect)] at heq
        exact absurd (hg.ptr_inj hi hi heq hne).2 (slot_ne_ndirect _)
    · exact .inr ⟨by rw [hkn]; exact hrun, hkn, hroom⟩

/-- The loop of `writei` writes all bytes, if there is room for them. -/
theorem Good.writeLoop_wrote (hg : Good sb t d) (hi : i < sb.ninodes) (hf : Filled d (t i) n)
    (hfuel : src.length ≤ fuel) (hoff : off ≤ bsize * n)
    (hmax : off + src.length ≤ maxfile * bsize) :
    (∃ ip' d', writeLoop sb fuel (t i) off src d = .ok (off + src.length, ip', d') ∧
      Wrote sb t d i n off src ip' d' (max n (blocksFor (off + src.length)))) ∨
      (writeLoop sb fuel (t i) off src d = .error "balloc: out of blocks" ∧
        free sb d + held n < held (max n (blocksFor (off + src.length)))) := by
  induction fuel generalizing t d off src n with
  | zero =>
      obtain rfl := List.length_eq_zero_iff.mp (Nat.le_zero.mp hfuel)
      have hn : max n (blocksFor (off + 0)) = n := by
        unfold blocksFor bsize at *
        omega
      exact .inl ⟨_, _, rfl, by rw [List.length_nil, hn]; exact .nil hg hf⟩
  | succ fuel ih =>
      rw [writeLoop]
      by_cases hsrc : src = []
      · subst hsrc
        have hn : max n (blocksFor (off + 0)) = n := by
          unfold blocksFor bsize at *
          omega
        rw [if_pos rfl]
        exact .inl ⟨_, _, rfl, by rw [List.length_nil, hn]; exact .nil hg hf⟩
      · have hlen := List.length_pos_iff.mpr hsrc
        have hcover : off / bsize + 1 ≤ blocksFor (off + src.length) := by
          unfold blocksFor bsize
          omega
        rw [if_neg hsrc]
        rcases hg.writeBlock hi hf hsrc hoff hmax with
          ⟨bp, ip₁, d₁, hrun, hw⟩ | ⟨hrun, hkn, hroom⟩
        · rw [hrun, ok_bind]
          dsimp only
          have hle := Nat.min_le_left src.length (bsize - off % bsize)
          have hend : off + min src.length (bsize - off % bsize) ≤ bsize * (off / bsize + 1) ∧
              0 < min src.length (bsize - off % bsize) := by
            unfold bsize
            omega
          generalize min src.length (bsize - off % bsize) = m at hw hle hend ⊢
          generalize d₁.logWrite bp _ = d₂ at hw ⊢
          have htotal : off + m + (src.drop m).length = off + src.length := by
            rw [List.length_drop]
            omega
          have hn₁ : max (max n (off / bsize + 1)) (blocksFor (off + src.length))
              = max n (blocksFor (off + src.length)) := by omega
          have hnext : off + m ≤ bsize * max n (off / bsize + 1) :=
            hend.1.trans (Nat.mul_le_mul_left _ (Nat.le_max_right _ _))
          have hleft : (src.drop m).length ≤ fuel := by
            rw [List.length_drop]
            omega
          have hstep := ih hw.good (by rw [update_self]; exact hw.filled) hleft hnext
            (by rw [htotal]; exact hmax)
          rw [update_self, htotal, hn₁] at hstep
          rcases hstep with ⟨ip', d', hrest, hw'⟩ | ⟨hrest, hroom⟩
          · exact .inl ⟨ip', d', hrest, hw.trans hi hle hnext hw'⟩
          · refine .inr ⟨hrest, ?_⟩
            have := hw.free
            omega
        · refine .inr ⟨by rw [hrun]; rfl, Nat.lt_of_lt_of_le hroom (held_mono ?_)⟩
          omega

end Os377.Xv6.Filesys
