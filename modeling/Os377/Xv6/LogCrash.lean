import Os377.Lib.Transactions
import Os377.Xv6.LogSpace

/-!
# What a crash leaves of the file-system calls

The log of xv6 looks like the machine of `Lib/Transactions`: `recorded` runs that machine
next to the log, with a commit at the first `write_head` of `commit` and a crash at every
crash. `Data` relates the two, over the disk (`Lib/RedoLog`), the buffer cache and the
stage of a commit or a recovery; `log_atomic` reads the result off it.
-/

namespace Os377.Xv6.Log

open Os377.Lib Function

/-- The running operations and the writes of the log, as `Lib/Transactions` has them. -/
abbrev History := Transactions.State Proc Nat Block

/-- What a step of the log is for the machine of transactions. -/
def event (s : State) : Label → Option (Transactions.Event Proc Nat Block)
  | .beginOp p => if s.commit ≠ none ∨ s.scarce then none else some (.start p)
  | .logWrite p =>
      match s.pc p with
      | .checked _ b => some (.write p b (s.buf b).data)
      | _ => none
  | .endOp p => some (.finish p)
  | .commit _ =>
      match s.commit with
      | some (.writeLog tail) => if tail < s.lh.length then none else some .commit
      | _ => none
  | .crash => some .crash
  | _ => none

def note (s : State) (a : Label) (t : History) : History :=
  match event s a with
  | some e => (Transactions.next t e).getD t
  | none => t

/-- The log, with its history of transactions. -/
def recorded (sb : Super) (base : Nat → Block) : TSys (State × History) Label :=
  (system sb base).record Transactions.fresh note

variable {sb : Super} {base : Nat → Block} {s s' : State} {a : Label} {t t' : History}
  {p q : Proc} {b c : Nat}

/-! ## The two views -/

/-- The contents that survive a crash. -/
def kept (base : Nat → Block) (t : History) : Nat → Block := replay base t.kept

/-- The contents as the operations see them. -/
def now (base : Nat → Block) (t : History) : Nat → Block := replay base (t.kept ++ t.recent)

theorem replay_other {ws : List (Update Nat Block)} {f : Nat → Block}
    (h : ∀ w ∈ ws, w.addr ≠ b) : replay f ws b = f b := by
  induction ws generalizing f with
  | nil => rfl
  | cons w ws ih =>
      show replay (update f w.addr w.val) ws b = f b
      rw [ih fun w' hw' => h w' (List.mem_cons_of_mem w hw')]
      exact update_of_ne (h w List.mem_cons_self).symm ..

theorem now_eq_kept (h : ∀ w ∈ t.recent, w.addr ≠ b) : now base t b = kept base t b := by
  rw [now, replay_append]
  exact replay_other h

theorem now_of_no_recent (h : t.recent = []) : now base t = kept base t := by
  rw [now, h, List.append_nil, kept]

/-! ## The disk -/

/-- What `write_head` stores is what `read_head` will find. -/
theorem readHeader_home {m : Block} {blocks : List Nat} (hlh : ∀ b ∈ blocks, Home sb b)
    (hlen : blocks.length ≤ logSize) : readHeader (writeHeader m blocks) = blocks := by
  refine readHeader_writeHeader (fun b hb => ?_) ?_
  · have hhome := (hlh b hb).1
    unfold fsSize at hhome
    omega
  · unfold logSize maxOpBlocks at hlen
    omega

/-- The log on the disk. -/
def redo (sb : Super) (hlog : 0 < sb.nlog) : RedoLog Nat Block where
  head := sb.logstart
  slot i := sb.logstart + i + 1
  capacity := sb.nlog - 1
  entries := readHeader
  home := Home sb
  head_apart h := by
    unfold Home at h
    omega
  slot_apart i hi h := by
    unfold Home at h
    omega
  slot_ne_head i hi := by omega
  slot_inj i j _ _ h := by omega

/-- The block whose buffer a process has stored into without having logged it. -/
def Pc.target : Pc → Option Nat
  | .stored _ b | .checked _ b => some b
  | _ => none

def Touched (s : State) (b : Nat) : Prop := ∃ p, (s.pc p).target = some b

/-- The blocks that must stay `B_DIRTY`: the logged ones that are not yet installed. -/
def pinnedBy : Option BootStep → Option CommitStep → List Nat → List Nat
  | none, some (.install tail), lh => lh.drop tail
  | none, _, lh => lh
  | some _, _, _ => []

/-- The buffers: a clean one holds what is on the disk, the dirty ones are the pinned ones,
and those hold what the operations see. -/
structure Cached (disk : Nat → Block) (cache : Nat → Option Buf) (pin touched : Nat → Prop)
    (seen : Nat → Block) : Prop where
  coherent : ∀ b buf, cache b = some buf → buf.dirty = false → ¬ touched b → buf.data = disk b
  dirty : ∀ b buf, cache b = some buf → buf.dirty = true → pin b
  pinned : ∀ b, pin b → ∃ buf, cache b = some buf ∧ buf.dirty = true ∧
    (¬ touched b → buf.data = seen b)

namespace Cached

variable {disk disk' : Nat → Block} {cache : Nat → Option Buf}
  {pin pin' touched touched' : Nat → Prop} {seen seen' : Nat → Block} {entry : Option Buf}

/-- One buffer changes, and with it whatever is said of its block. -/
theorem set (h : Cached disk cache pin touched seen)
    (hdisk : ∀ c, c ≠ b → disk' c = disk c) (hpin : ∀ c, c ≠ b → (pin' c ↔ pin c))
    (htouched : ∀ c, c ≠ b → (touched' c ↔ touched c)) (hseen : ∀ c, c ≠ b → seen' c = seen c)
    (hclean : ∀ buf, entry = some buf → buf.dirty = false → ¬ touched' b → buf.data = disk' b)
    (hdirty : ∀ buf, entry = some buf → buf.dirty = true → pin' b)
    (hpinned : pin' b → ∃ buf, entry = some buf ∧ buf.dirty = true ∧
      (¬ touched' b → buf.data = seen' b)) :
    Cached disk' (update cache b entry) pin' touched' seen' := by
  refine ⟨fun c buf hbuf hd ht => ?_, fun c buf hbuf hd => ?_, fun c hc => ?_⟩
  · by_cases hcb : c = b
    · subst hcb
      rw [update_self] at hbuf
      exact hclean buf hbuf hd ht
    · rw [update_of_ne hcb] at hbuf
      rw [hdisk c hcb]
      exact h.coherent c buf hbuf hd fun hc => ht ((htouched c hcb).mpr hc)
  · by_cases hcb : c = b
    · subst hcb
      rw [update_self] at hbuf
      exact hdirty buf hbuf hd
    · rw [update_of_ne hcb] at hbuf
      exact (hpin c hcb).mpr (h.dirty c buf hbuf hd)
  · by_cases hcb : c = b
    · subst hcb
      rw [update_self]
      exact hpinned hc
    · rw [update_of_ne hcb, hseen c hcb]
      obtain ⟨buf, hbuf, hd, hdata⟩ := h.pinned c ((hpin c hcb).mp hc)
      exact ⟨buf, hbuf, hd, fun ht => hdata fun hc => ht ((htouched c hcb).mpr hc)⟩

/-- Only the meaning of the predicates changes. -/
theorem congr (h : Cached disk cache pin touched seen) (hpin : ∀ c, pin' c ↔ pin c)
    (htouched : ∀ c, touched' c ↔ touched c) (hseen : ∀ c, pin c → seen' c = seen c) :
    Cached disk cache pin' touched' seen' where
  coherent b buf hbuf hd ht := h.coherent b buf hbuf hd fun hb => ht ((htouched b).mpr hb)
  dirty b buf hbuf hd := (hpin b).mpr (h.dirty b buf hbuf hd)
  pinned b hb := by
    have hb := (hpin b).mp hb
    obtain ⟨buf, hbuf, hd, hdata⟩ := h.pinned b hb
    rw [hseen b hb]
    exact ⟨buf, hbuf, hd, fun ht => hdata fun hc => ht ((htouched b).mpr hc)⟩

/-- No buffer is dirty. -/
theorem nothing (hpin : ∀ c, ¬ pin c) (hcache : ∀ b buf, cache b = some buf →
    buf.dirty = false ∧ (¬ touched b → buf.data = disk b)) :
    Cached disk cache pin touched seen where
  coherent b buf hbuf _ := (hcache b buf hbuf).2
  dirty b buf hbuf hd := by
    rw [(hcache b buf hbuf).1] at hd
    cases hd
  pinned b hb := absurd hb (hpin b)

theorem load {s : State} (h : Cached s.disk s.cache pin touched seen) (b : Nat) :
    Cached s.disk (s.load b).cache pin touched seen := by
  refine h.set (fun _ _ => rfl) (fun _ _ => Iff.rfl) (fun _ _ => Iff.rfl) (fun _ _ => rfl) ?_ ?_ ?_
  all_goals unfold State.buf
  · intro buf hbuf hd ht
    obtain rfl := Option.some.inj hbuf
    cases hcache : s.cache b with
    | none => rfl
    | some buf =>
        rw [hcache] at hd
        exact h.coherent b buf hcache hd ht
  · intro buf hbuf hd
    obtain rfl := Option.some.inj hbuf
    cases hcache : s.cache b with
    | none => rw [hcache] at hd; cases hd
    | some buf =>
        rw [hcache] at hd
        exact h.dirty b buf hcache hd
  · intro hb
    obtain ⟨buf, hbuf, hd, hdata⟩ := h.pinned b hb
    rw [hbuf]
    exact ⟨buf, rfl, hd, hdata⟩

/-- `bwrite`: the buffer is clean from then on, and so its block is not pinned any more. -/
theorem bwrite {s : State} (h : Cached s.disk s.cache pin touched seen) (b : Nat) (v : Block)
    (hpin : ∀ c, c ≠ b → (pin' c ↔ pin c)) (hb : ¬ pin' b) :
    Cached (s.bwrite b v).disk (s.bwrite b v).cache pin' touched seen := by
  have hdisk : ∀ c, c ≠ b → (s.bwrite b v).disk c = s.disk c := fun c hcb => update_of_ne hcb ..
  refine h.set hdisk hpin (fun _ _ => Iff.rfl) (fun _ _ => rfl) ?_ ?_ (fun hc => absurd hc hb)
  · rintro buf hbuf - -
    obtain rfl := Option.some.inj hbuf
    exact (update_self b v s.disk).symm
  · intro buf hbuf hd
    obtain rfl := Option.some.inj hbuf
    cases hd

/-- A buffer of a block that is neither pinned nor touched holds what is on the disk. -/
theorem onDisk {s : State} (h : Cached s.disk s.cache pin touched seen) (hpin : ¬ pin b)
    (hnot : ¬ touched b) : (s.buf b).data = s.disk b := by
  unfold State.buf
  cases hcache : s.cache b with
  | none => rfl
  | some buf =>
      refine h.coherent b buf hcache ?_ hnot
      rw [Bool.eq_false_iff]
      exact fun hd => hpin (h.dirty b buf hcache hd)

end Cached

section Invariant

variable (hlog : 0 < sb.nlog)

/-- How far a commit or a recovery has got on the disk. -/
def Stage (base : Nat → Block) (disk : Nat → Block) (lh : List Nat) (t : History) :
    Option BootStep → Option CommitStep → Prop
  | some .readHead, _ => True
  | some (.install tail), _ =>
      lh = readHeader (disk sb.logstart) ∧ (redo sb hlog).Installed disk (kept base t) tail
  | none, none => readHeader (disk sb.logstart) = []
  | none, some (.writeLog tail) =>
      readHeader (disk sb.logstart) = [] ∧
        ∀ i b, i < tail → lh[i]? = some b → disk (sb.logstart + i + 1) = now base t b
  | none, some (.install tail) =>
      readHeader (disk sb.logstart) = lh ∧ t.recent = [] ∧
        (redo sb hlog).Installed disk (kept base t) tail
  | none, some .finish => readHeader (disk sb.logstart) = [] ∧ t.recent = []

/-- The log and its history. -/
structure Data (base : Nat → Block) (s : State) (t : History) : Prop where
  runs : ∀ p, (t.running p).isSome = (s.pc p).inOp
  recoverable : (redo sb hlog).Recoverable s.disk (kept base t)
  booting : s.boot ≠ none → t.recent = []
  recent : ∀ w ∈ t.recent, w.addr ∈ s.lh
  cached : Cached s.disk s.cache (· ∈ pinnedBy s.boot s.commit s.lh) (Touched s) (now base t)
  named : s.boot = none → ∀ b ∈ s.lh, Home sb b
  nodup : s.boot = none → s.lh.Nodup
  held : ∀ b p, s.lockedBy b = some p → Home sb b
  touched : ∀ p b, (s.pc p).target = some b → s.lockedBy b = some p
  stage : Stage hlog base s.disk s.lh t s.boot s.commit

variable {hlog}

theorem pinned_sub {boot : Option BootStep} {commit : Option CommitStep} {lh : List Nat}
    (h : b ∈ pinnedBy boot commit lh) : boot = none ∧ b ∈ lh := by
  unfold pinnedBy at h
  split at h
  · exact ⟨rfl, List.mem_of_mem_drop h⟩
  · exact ⟨rfl, h⟩
  · exact absurd h List.not_mem_nil

theorem not_touched (h : ∀ p, (s.pc p).inOp = false) (b : Nat) : ¬ Touched s b := by
  rintro ⟨p, hp⟩
  have hin := h p
  cases hpc : s.pc p with
  | stored w c => rw [hpc] at hin; cases hin
  | checked w c => rw [hpc] at hin; cases hin
  | _ => rw [hpc] at hp; cases hp

namespace Data

/-- A block that needs no pin is on the disk as the operations see it. -/
theorem settled (h : Data hlog base s t) (hboot : s.boot = none) (hb : Home sb b)
    (hnot : b ∉ pinnedBy s.boot s.commit s.lh) : s.disk b = now base t b := by
  have hstage := h.stage
  rw [hboot] at hstage hnot
  have hempty : readHeader (s.disk sb.logstart) = [] → b ∉ s.lh → s.disk b = now base t b := by
    intro hhead hlh
    rw [h.recoverable.empty hhead hb]
    refine (now_eq_kept fun w hw heq => ?_).symm
    exact hlh (heq ▸ h.recent w hw)
  match hcommit : s.commit with
  | none => rw [hcommit] at hstage hnot; exact hempty hstage hnot
  | some (.writeLog tail) => rw [hcommit] at hstage hnot; exact hempty hstage.1 hnot
  | some .finish => rw [hcommit] at hstage hnot; exact hempty hstage.1 hnot
  | some (.install tail) =>
      rw [hcommit] at hstage hnot
      obtain ⟨hhead, hrecent, hinstalled⟩ := hstage
      rw [now_of_no_recent hrecent]
      by_cases hlh : b ∈ s.lh
      · -- its entry has been installed already
        obtain ⟨i, hi, hib⟩ := List.getElem_of_mem hlh
        have hlt : i < tail := by
          by_contra hge
          have hdrop : (s.lh.drop tail)[i - tail]? = some b := by
            rw [List.getElem?_drop, show tail + (i - tail) = i by omega]
            exact List.getElem?_eq_some_iff.mpr ⟨hi, hib⟩
          exact hnot (List.mem_of_getElem? hdrop)
        refine hinstalled i b ?_ hlt
        show (readHeader (s.disk sb.logstart))[i]? = some b
        rw [hhead]
        exact List.getElem?_eq_some_iff.mpr ⟨hi, hib⟩
      · refine h.recoverable.rest b hb ?_
        show b ∉ readHeader (s.disk sb.logstart)
        rwa [hhead]

/-- **What `bread` finds.** -/
theorem view (h : Data hlog base s t) (hboot : s.boot = none) (hb : Home sb b)
    (hnot : ¬ Touched s b) : (s.buf b).data = now base t b := by
  by_cases hpin : b ∈ pinnedBy s.boot s.commit s.lh
  · obtain ⟨buf, hbuf, -, hdata⟩ := h.cached.pinned b hpin
    rw [State.buf, hbuf]
    exact hdata hnot
  · rw [h.cached.onDisk hpin hnot]
    exact h.settled hboot hb hpin

/-- Only who stands where, and who runs what, changes. -/
theorem repc {n k : Nat} {f : Proc → Pc} {r : Proc → Option Nat} {x : Bool}
    (h : Data hlog base s t) (htarget : ∀ p, (f p).target = (s.pc p).target)
    (hruns : ∀ p, (r p).isSome = (f p).inOp) :
    Data hlog base { s with outstanding := n, pc := f, panicked := x }
      { t with running := r, serial := k } where
  runs := hruns
  recoverable := h.recoverable
  booting := h.booting
  recent := h.recent
  cached := h.cached.congr (fun _ => Iff.rfl)
    (fun b => exists_congr fun p => by rw [htarget p]) (fun _ _ => rfl)
  named := h.named
  nodup := h.nodup
  held := h.held
  touched p b hp := h.touched p b (htarget p ▸ hp)
  stage := h.stage

theorem running_none (h : Data hlog base s t) (hp : (s.pc p).inOp = false) :
    t.running p = none := by
  rw [← Option.not_isSome_iff_eq_none, h.runs p, hp]
  exact Bool.false_ne_true

/-- A process moves within its operation, or outside of any. -/
theorem setPc {pc : Pc} (h : Data hlog base s t) (htarget : pc.target = (s.pc p).target)
    (hin : pc.inOp = (s.pc p).inOp) : Data hlog base (s.setPc p pc) t := by
  refine h.repc (fun q => ?_) fun q => ?_
  · by_cases hqp : q = p
    · subst hqp
      rw [update_self, htarget]
    · rw [update_of_ne hqp]
  · by_cases hqp : q = p
    · subst hqp
      rw [update_self, hin, h.runs]
    · rw [update_of_ne hqp]
      exact h.runs q

theorem enter (h : Data hlog base s t) (hpc : s.pc p = .idle ∨ s.pc p = .woken) :
    ∃ t', Transactions.next t (.start p) = some t' ∧
      Data hlog base { s.setPc p (.op []) with outstanding := s.outstanding + 1 } t' := by
  have hnone : t.running p = none :=
    h.running_none (by rcases hpc with hpc | hpc <;> rw [hpc] <;> rfl)
  refine ⟨_, if_pos hnone, h.repc (fun q => ?_) fun q => ?_⟩
  · by_cases hqp : q = p
    · subst hqp
      rw [State.setPc_self]
      rcases hpc with hpc | hpc <;> rw [hpc] <;> rfl
    · rw [State.setPc_of_ne s hqp]
  · by_cases hqp : q = p
    · subst hqp
      rw [State.setPc_self, update_self]
      rfl
    · rw [State.setPc_of_ne s hqp, update_of_ne hqp]
      exact h.runs q

/-- The process `p` ends its operation. -/
theorem leave {wrote : List Nat} {n : Nat} {f : Proc → Pc} (h : Data hlog base s t)
    (hpc : s.pc p = .op wrote) (hp : (f p).inOp = false)
    (hf : ∀ q, q ≠ p → (f q).target = (s.pc q).target ∧ (f q).inOp = (s.pc q).inOp) :
    ∃ t', Transactions.next t (.finish p) = some t' ∧ t'.recent = t.recent ∧
      Data hlog base { s with outstanding := n, pc := f } t' := by
  have hsome : t.running p ≠ none := by
    intro hnone
    have hrun := h.runs p
    rw [hnone, hpc] at hrun
    cases hrun
  have htarget : (f p).target = none := by
    cases hfp : f p with
    | stored w c => rw [hfp] at hp; cases hp
    | checked w c => rw [hfp] at hp; cases hp
    | _ => rfl
  refine ⟨_, if_neg hsome, rfl, h.repc (fun q => ?_) fun q => ?_⟩
  · by_cases hqp : q = p
    · subst hqp
      rw [htarget, hpc]
      rfl
    · exact (hf q hqp).1
  · by_cases hqp : q = p
    · subst hqp
      rw [update_self, hp]
      rfl
    · rw [update_of_ne hqp, (hf q hqp).2]
      exact h.runs q

theorem bread (h : Data hlog base s t) (hb : Home sb b) (hfree : s.unlocked b) :
    Data hlog base { s.load b with lockedBy := update s.lockedBy b (some p) } t where
  runs := h.runs
  recoverable := h.recoverable
  booting := h.booting
  recent := h.recent
  cached := h.cached.load b
  named := h.named
  nodup := h.nodup
  held c q hq := by
    change update s.lockedBy b (some p) c = some q at hq
    by_cases hcb : c = b
    · exact hcb ▸ hb
    · rw [update_of_ne hcb] at hq
      exact h.held c q hq
  touched q c hq := by
    show update s.lockedBy b (some p) c = some q
    have hlock := h.touched q c hq
    have hcb : c ≠ b := by
      rintro rfl
      rw [State.unlocked, hlock] at hfree
      cases hfree
    rw [update_of_ne hcb]
    exact hlock
  stage := h.stage

theorem brelse (h : Data hlog base s t) (hlock : s.lockedBy b = some p)
    (hpc : (s.pc p).target = none) :
    Data hlog base { s with lockedBy := update s.lockedBy b none } t where
  runs := h.runs
  recoverable := h.recoverable
  booting := h.booting
  recent := h.recent
  cached := h.cached
  named := h.named
  nodup := h.nodup
  held c q hq := by
    change update s.lockedBy b none c = some q at hq
    by_cases hcb : c = b
    · rw [hcb, update_self] at hq
      cases hq
    · rw [update_of_ne hcb] at hq
      exact h.held c q hq
  touched q c hq := by
    show update s.lockedBy b none c = some q
    have hheld := h.touched q c hq
    have hcb : c ≠ b := by
      rintro rfl
      obtain rfl := Option.some.inj (hlock.symm.trans hheld)
      rw [hpc] at hq
      cases hq
    rw [update_of_ne hcb]
    exact hheld
  stage := h.stage

theorem evict {data : Block} (h : Data hlog base s t) (hbuf : s.cache b = some ⟨data, false⟩) :
    Data hlog base { s with cache := update s.cache b none } t where
  runs := h.runs
  recoverable := h.recoverable
  booting := h.booting
  recent := h.recent
  cached := by
    refine h.cached.set (fun _ _ => rfl) (fun _ _ => Iff.rfl) (fun _ _ => Iff.rfl)
      (fun _ _ => rfl) (fun _ hn => by cases hn) (fun _ hn => by cases hn) fun hpin => ?_
    obtain ⟨buf, hbuf', hd, -⟩ := h.cached.pinned b hpin
    rw [hbuf] at hbuf'
    obtain rfl := Option.some.inj hbuf'
    cases hd
  named := h.named
  nodup := h.nodup
  held := h.held
  touched := h.touched
  stage := h.stage

theorem store {wrote : List Nat} {data : Block} (h : Data hlog base s t)
    (hpc : s.pc p = .op wrote) (hlock : s.lockedBy b = some p) :
    Data hlog base { s.setPc p (.stored wrote b) with
      cache := update s.cache b (some { s.buf b with data := data }) } t where
  runs q := by
    show (t.running q).isSome = (update s.pc p (.stored wrote b) q).inOp
    by_cases hqp : q = p
    · subst hqp
      rw [update_self, h.runs, hpc]
      rfl
    · rw [update_of_ne hqp]
      exact h.runs q
  recoverable := h.recoverable
  booting := h.booting
  recent := h.recent
  cached := by
    have hself : Touched (s.setPc p (.stored wrote b)) b :=
      ⟨p, by rw [State.setPc_self]; rfl⟩
    have htouched : ∀ c, c ≠ b → (Touched (s.setPc p (.stored wrote b)) c ↔ Touched s c) := by
      intro c hcb
      refine exists_congr fun q => ?_
      show (update s.pc p (.stored wrote b) q).target = some c ↔ _
      by_cases hqp : q = p
      · subst hqp
        rw [update_self, hpc]
        simp [Pc.target, hcb.symm]
      · rw [update_of_ne hqp]
    refine h.cached.set (fun _ _ => rfl) (fun _ _ => Iff.rfl) htouched (fun _ _ => rfl) ?_ ?_ ?_
    · intro buf _ _ hnot
      exact absurd hself hnot
    · intro buf hbuf hd
      obtain rfl := Option.some.inj hbuf
      refine h.cached.dirty b (s.buf b) ?_ hd
      unfold State.buf at hd ⊢
      cases hcache : s.cache b with
      | none => rw [hcache] at hd; cases hd
      | some buf => rfl
    · intro hpin
      obtain ⟨buf, hbuf, hd, -⟩ := h.cached.pinned b hpin
      refine ⟨_, rfl, ?_, fun hnot => absurd hself hnot⟩
      show (s.buf b).dirty = true
      rw [State.buf, hbuf]
      exact hd
  named := h.named
  nodup := h.nodup
  held := h.held
  touched q c hq := by
    change (update s.pc p (.stored wrote b) q).target = some c at hq
    by_cases hqp : q = p
    · subst hqp
      rw [update_self] at hq
      obtain rfl := Option.some.inj hq
      exact hlock
    · rw [update_of_ne hqp] at hq
      exact h.touched q c hq
  stage := h.stage

theorem append {wrote : List Nat} (h : Data hlog base s t) (hc : Control s)
    (hpc : s.pc p = .checked wrote b) :
    ∃ t', Transactions.next t (.write p b (s.buf b).data) = some t' ∧
      Data hlog base { s.setPc p (.op (wrote.insert b)) with
        lh := if b ∈ s.lh then s.lh else s.lh ++ [b]
        cache := update s.cache b (some { s.buf b with dirty := true }) } t' := by
  have hboot : s.boot = none := hc.boot_of_pc (p := p) (by rw [hpc]; exact Pc.noConfusion)
  have hcommit : s.commit = none := hc.commit_of_inOp (p := p) (by rw [hpc]; rfl)
  have htarget : (s.pc p).target = some b := by rw [hpc]; rfl
  have hhome : Home sb b := h.held b p (h.touched p b htarget)
  have hpin : ∀ lh, pinnedBy s.boot s.commit lh = lh := fun lh => by rw [hboot, hcommit]; rfl
  obtain ⟨op, hop⟩ := Option.isSome_iff_exists.mp ((h.runs p).trans (by rw [hpc]; rfl))
  have hlh : ∀ c, (c ∈ if b ∈ s.lh then s.lh else s.lh ++ [b]) ↔ c ∈ s.lh ∨ c = b := by
    intro c
    split
    · next hb => exact ⟨Or.inl, fun hcb => hcb.elim id fun heq => heq ▸ hb⟩
    · rw [List.mem_append, List.mem_singleton]
  have hnow : ∀ c, replay base (t.kept ++ (t.recent ++ [⟨op, b, (s.buf b).data⟩])) c
      = update (now base t) b (s.buf b).data c := by
    intro c
    rw [← List.append_assoc, replay_concat]
    rfl
  have hnext : Transactions.next t (.write p b (s.buf b).data)
      = some { t with recent := t.recent ++ [⟨op, b, (s.buf b).data⟩] } := by
    simp only [Transactions.next, hop, Option.map_some]
  have hpcs : ∀ q, q ≠ p → (s.setPc p (.op (wrote.insert b))).pc q = s.pc q := fun q hqp =>
    s.setPc_of_ne hqp _
  refine ⟨_, hnext, ?_, h.recoverable, ?_, ?_, ?_, ?_, ?_, h.held, ?_, ?_⟩
  · intro q
    show (t.running q).isSome = ((s.setPc p (.op (wrote.insert b))).pc q).inOp
    by_cases hqp : q = p
    · subst hqp
      rw [State.setPc_self, h.runs, hpc]
      rfl
    · rw [hpcs q hqp]
      exact h.runs q
  · exact fun hb => absurd hboot hb
  · intro w hw
    rw [hlh]
    rcases List.mem_append.mp hw with hw | hw
    · exact Or.inl (h.recent w hw)
    · obtain rfl := List.mem_singleton.mp hw
      exact Or.inr rfl
  · have hpin' : ∀ c, (c ∈ pinnedBy s.boot s.commit (if b ∈ s.lh then s.lh else s.lh ++ [b])) ↔
        c ∈ s.lh ∨ c = b := by
      intro c
      rw [hpin]
      exact hlh c
    refine h.cached.set (fun _ _ => rfl) ?_ ?_ ?_ ?_ ?_ ?_
    · intro c hcb
      rw [hpin s.lh]
      exact (hpin' c).trans (or_iff_left hcb)
    · intro c hcb
      refine exists_congr fun q => ?_
      show ((s.setPc p (.op (wrote.insert b))).pc q).target = some c ↔ _
      by_cases hqp : q = p
      · subst hqp
        rw [State.setPc_self, hpc]
        simp [Pc.target, hcb.symm]
      · rw [hpcs q hqp]
    · intro c hcb
      exact (hnow c).trans (update_of_ne hcb ..)
    · intro buf hbuf hd
      obtain rfl := Option.some.inj hbuf
      cases hd
    · exact fun _ _ _ => (hpin' b).mpr (Or.inr rfl)
    · exact fun _ => ⟨_, rfl, rfl, fun _ => ((hnow b).trans (update_self ..)).symm⟩
  · intro _ c hcm
    rcases (hlh c).mp hcm with hcm | rfl
    · exact h.named hboot c hcm
    · exact hhome
  · intro _
    show (if b ∈ s.lh then s.lh else s.lh ++ [b]).Nodup
    split
    · exact h.nodup hboot
    · next hb =>
        refine List.nodup_append.mpr ⟨h.nodup hboot, List.nodup_singleton b, ?_⟩
        intro c hcm d hd heq
        rw [List.mem_singleton.mp hd] at heq
        exact hb (heq ▸ hcm)
  · intro q c hq
    change ((s.setPc p (.op (wrote.insert b))).pc q).target = some c at hq
    by_cases hqp : q = p
    · subst hqp
      rw [State.setPc_self] at hq
      cases hq
    · rw [hpcs q hqp] at hq
      exact h.touched q c hq
  · have hstage := h.stage
    show Stage hlog base s.disk _ _ s.boot s.commit
    rw [hboot, hcommit] at hstage ⊢
    exact hstage

/-- The commit goes on to another stage. -/
theorem recommit {step : Option CommitStep} (h : Data hlog base s t)
    (hpin : pinnedBy s.boot step s.lh = pinnedBy s.boot s.commit s.lh)
    (hstage : Stage hlog base s.disk s.lh t s.boot step) :
    Data hlog base { s with commit := step } t :=
  { h with
    cached := h.cached.congr (fun _ => hpin ▸ Iff.rfl) (fun _ => Iff.rfl) (fun _ _ => rfl)
    stage := hstage }

theorem endCommit {wrote : List Nat} (h : Data hlog base s t) (hc : Control s)
    (hpc : s.pc p = .op wrote) (hcommit : s.commit = none) :
    ∃ t', Transactions.next t (.finish p) = some t' ∧
      Data hlog base { { s with outstanding := s.outstanding - 1 }.setPc p .committing with
        commit := some (if 0 < s.lh.length then .writeLog 0 else .finish) } t' := by
  have hboot := hc.boot_of_pc (p := p) (by rw [hpc]; exact Pc.noConfusion)
  have hothers : ∀ q, q ≠ p → (update s.pc p .committing q).target = (s.pc q).target ∧
      (update s.pc p .committing q).inOp = (s.pc q).inOp := by
    intro q hqp
    rw [update_of_ne hqp]
    exact ⟨rfl, rfl⟩
  obtain ⟨t', hn, -, ht⟩ :=
    h.leave (n := s.outstanding - 1) hpc (by rw [update_self]; rfl) hothers
  have hempty : readHeader (s.disk sb.logstart) = [] := by
    have hstage := h.stage
    rwa [hboot, hcommit] at hstage
  refine ⟨t', hn, ht.recommit ?_ ?_⟩
  · show pinnedBy s.boot _ s.lh = pinnedBy s.boot s.commit s.lh
    rw [hboot, hcommit]
    split <;> rfl
  · show Stage hlog base s.disk s.lh t' s.boot _
    rw [hboot]
    split
    · exact ⟨hempty, fun i _ hi => absurd hi (Nat.not_lt_zero i)⟩
    · next hz =>
        -- an empty log has nothing to commit
        refine ⟨hempty, List.eq_nil_iff_forall_not_mem.mpr fun w hw => ?_⟩
        have hlh := List.length_eq_zero_iff.mp (Nat.eq_zero_of_not_pos hz)
        have hmem := ht.recent w hw
        change w.addr ∈ s.lh at hmem
        rw [hlh] at hmem
        exact List.not_mem_nil hmem

theorem wakeup_target : (s.wakeup.pc p).target = (s.pc p).target := by
  show (if s.pc p = .asleep then Pc.woken else s.pc p).target = (s.pc p).target
  split
  · next h => rw [h]; rfl
  · rfl

theorem wakeup (h : Data hlog base s t) : Data hlog base s.wakeup t :=
  h.repc (fun _ => wakeup_target) fun p => by
    rw [h.runs p]
    exact wakeup_inOp.symm

theorem endWake {wrote : List Nat} (h : Data hlog base s t) (hpc : s.pc p = .op wrote) :
    ∃ t', Transactions.next t (.finish p) = some t' ∧
      Data hlog base ({ s with outstanding := s.outstanding - 1 }.setPc p .idle).wakeup t' := by
  have hothers : ∀ q, q ≠ p → (update s.pc p .idle q).target = (s.pc q).target ∧
      (update s.pc p .idle q).inOp = (s.pc q).inOp := by
    intro q hqp
    rw [update_of_ne hqp]
    exact ⟨rfl, rfl⟩
  obtain ⟨t', hn, -, ht⟩ :=
    h.leave (n := s.outstanding - 1) hpc (by rw [update_self]; rfl) hothers
  exact ⟨t', hn, ht.wakeup⟩

/-! ### The commit -/

/-- A home block is written, in the cache and on the disk. -/
theorem written {pin' : Nat → Prop} (h : Data hlog base s t) {src dst : Nat}
    (hsrc : (s.buf src).data = s.disk src) (hpin : ∀ c, c ≠ dst →
      (pin' c ↔ c ∈ pinnedBy s.boot s.commit s.lh)) (hdst : ¬ pin' dst) :
    (s.copy src dst).disk = update s.disk dst (s.disk src) ∧
      Cached (s.copy src dst).disk (s.copy src dst).cache pin' (Touched s) (now base t) := by
  refine ⟨?_, ?_⟩
  · show update s.disk dst (s.buf src).data = update s.disk dst (s.disk src)
    rw [hsrc]
  · exact (h.cached.load src).bwrite (s := s.load src) dst (s.buf src).data hpin hdst

theorem copyOut {tail : Nat} (h : Data hlog base s t) (hc : Control s)
    (hpc : s.pc p = .committing) (hcommit : s.commit = some (.writeLog tail))
    (hb : s.lh[tail]? = some b) (hfit : s.lh.length ≤ sb.nlog - 1) :
    Data hlog base { s.copy b (sb.logstart + tail + 1) with commit := some (.writeLog (tail + 1)) }
      t := by
  have hboot := hc.boot_of_pc (p := p) (by rw [hpc]; exact Pc.noConfusion)
  have hquiet := hc.quiet (by rw [hcommit]; exact Option.some_ne_none _)
  have hlt := (List.getElem?_eq_some_iff.mp hb).1
  have hcap : tail < (redo sb hlog).capacity := Nat.lt_of_lt_of_le hlt hfit
  have hstage := h.stage
  rw [hboot, hcommit] at hstage
  obtain ⟨hempty, hcopied⟩ := hstage
  have hview : (s.buf b).data = now base t b :=
    h.view hboot (h.named hboot b (List.mem_of_getElem? hb)) (not_touched hquiet b)
  have hslot : sb.logstart + tail + 1 ∉ s.lh := fun hmem =>
    (redo sb hlog).slot_apart tail hcap (h.named hboot _ hmem)
  have hpin : pinnedBy s.boot s.commit s.lh = s.lh := by rw [hboot, hcommit]; rfl
  have hrec : (redo sb hlog).Recoverable
      (update s.disk (sb.logstart + tail + 1) (s.buf b).data) (kept base t) :=
    h.recoverable.slot hempty hcap (s.buf b).data
  refine { h with recoverable := hrec, cached := ?_, stage := ?_ }
  · show Cached _ _ (· ∈ pinnedBy s.boot (some (.writeLog (tail + 1))) s.lh) _ _
    refine (h.cached.load b).bwrite (s := s.load b) _ _ (fun c _ => ?_) ?_
    · rw [hpin, hboot]
      exact Iff.rfl
    · rw [hboot]
      exact hslot
  · show Stage hlog base (update s.disk (sb.logstart + tail + 1) (s.buf b).data) s.lh t s.boot _
    rw [hboot]
    refine ⟨?_, fun i c hi hc => ?_⟩
    · rw [update_of_ne (by omega)]
      exact hempty
    · by_cases hit : i = tail
      · subst hit
        obtain rfl := Option.some.inj (hb.symm.trans hc)
        rw [update_self]
        exact hview
      · rw [update_of_ne (by omega)]
        exact hcopied i c (by omega) hc

/-- `write_head`. -/
theorem headWritten (blocks : List Nat) {pin' : Nat → Prop} (h : Data hlog base s t)
    (hpin : ∀ c, pin' c ↔ c ∈ pinnedBy s.boot s.commit s.lh) (hlh : ∀ b, pin' b → Home sb b) :
    let s' := { s with lh := blocks }.writeHead sb
    Cached s'.disk s'.cache pin' (Touched s) (now base t) :=
  h.cached.bwrite (s := { s with lh := blocks }) sb.logstart _ (fun c _ => hpin c) fun hc =>
    (redo sb hlog).head_apart (hlh _ hc)

/-- **The commit point.** What the operations see is what a crash leaves from now on. -/
theorem commitHead {tail : Nat} (h : Data hlog base s t) (hc : Control s)
    (hpc : s.pc p = .committing) (hcommit : s.commit = some (.writeLog tail))
    (hend : s.lh[tail]? = none) (hfit : s.lh.length ≤ sb.nlog - 1)
    (hlen : s.lh.length ≤ logSize) :
    ∃ t', Transactions.next t .commit = some t' ∧
      Data hlog base { s.writeHead sb with commit := some (.install 0) } t' := by
  have hboot := hc.boot_of_pc (p := p) (by rw [hpc]; exact Pc.noConfusion)
  have hquiet := hc.quiet (by rw [hcommit]; exact Option.some_ne_none _)
  have hidle : ∀ q, t.running q = none := fun q => h.running_none (hquiet q)
  have hpin : ∀ step, step = .writeLog tail ∨ step = .install 0 →
      pinnedBy s.boot (some step) s.lh = s.lh := by
    rw [hboot]
    rintro step (rfl | rfl) <;> rfl
  have hread : readHeader (writeHeader (s.buf sb.logstart).data s.lh) = s.lh :=
    readHeader_home (h.named hboot) hlen
  have hstage := h.stage
  rw [hboot, hcommit] at hstage
  obtain ⟨hempty, hcopied⟩ := hstage
  have hkept : kept base { t with kept := t.kept ++ t.recent, recent := [] } = now base t := rfl
  have hnow : now base { t with kept := t.kept ++ t.recent, recent := [] } = now base t := by
    rw [now_of_no_recent rfl, hkept]
  have hrec : (redo sb hlog).Recoverable
      (update s.disk sb.logstart (writeHeader (s.buf sb.logstart).data s.lh)) (now base t) := by
    refine RedoLog.Recoverable.commit (L := redo sb hlog) ?_ ?_ ?_ ?_
    · show (readHeader _).length ≤ sb.nlog - 1
      rwa [hread]
    · show ∀ b ∈ readHeader _, Home sb b
      rw [hread]
      exact h.named hboot
    · show ∀ i b, (readHeader _)[i]? = some b → s.disk (sb.logstart + i + 1) = now base t b
      rw [hread]
      intro i b hi
      have hlt : i < tail :=
        Nat.lt_of_lt_of_le (List.getElem?_eq_some_iff.mp hi).1 (List.getElem?_eq_none_iff.mp hend)
      exact hcopied i b hlt hi
    · show ∀ b, Home sb b → b ∉ readHeader _ → s.disk b = now base t b
      rw [hread]
      intro b hb hnot
      exact h.settled hboot hb (by rwa [hcommit, hpin _ (Or.inl rfl)])
  refine ⟨_, if_pos hidle, ?_⟩
  refine { h with
    recoverable := hkept ▸ hrec
    booting := fun hb => absurd hboot hb
    recent := fun w hw => absurd hw List.not_mem_nil
    cached := ?_
    stage := ?_ }
  · show Cached _ _ (· ∈ pinnedBy s.boot (some (.install 0)) s.lh) (Touched s) _
    rw [hnow, hpin _ (Or.inr rfl)]
    refine h.headWritten s.lh (fun c => ?_) (h.named hboot)
    rw [hcommit, hpin _ (Or.inl rfl)]
  · show Stage hlog base (update s.disk sb.logstart _) s.lh _ s.boot _
    rw [hboot]
    refine ⟨?_, rfl, fun i a _ hi => absurd hi (Nat.not_lt_zero i)⟩
    rw [update_self]
    exact hread

/-- One entry of the header is copied home. -/
theorem installed {tail : Nat} (pin' : Nat → Prop) (h : Data hlog base s t)
    (hin : (redo sb hlog).Installed s.disk (kept base t) tail)
    (hb : (readHeader (s.disk sb.logstart))[tail]? = some b)
    (hslot : ¬ Touched s (sb.logstart + tail + 1))
    (hhome : ∀ c ∈ pinnedBy s.boot s.commit s.lh, Home sb c)
    (hpin : ∀ c, c ≠ b → (pin' c ↔ c ∈ pinnedBy s.boot s.commit s.lh)) (hnot : ¬ pin' b) :
    let s' := s.copy (sb.logstart + tail + 1) b
    (redo sb hlog).Recoverable s'.disk (kept base t) ∧
      (redo sb hlog).Installed s'.disk (kept base t) (tail + 1) ∧
      s'.disk sb.logstart = s.disk sb.logstart ∧
      Cached s'.disk s'.cache pin' (Touched s) (now base t) := by
  have hcap : tail < (redo sb hlog).capacity := h.recoverable.lt_capacity hb
  have hnamed : Home sb b := h.recoverable.named b (List.mem_of_getElem? hb)
  have hsrc : (s.buf (sb.logstart + tail + 1)).data = s.disk (sb.logstart + tail + 1) := by
    refine h.cached.onDisk (fun hmem => ?_) hslot
    exact (redo sb hlog).slot_apart tail hcap (hhome _ hmem)
  obtain ⟨hdisk, hcached⟩ := h.written hsrc hpin hnot
  dsimp only
  refine ⟨?_, ?_, ?_, hcached⟩
  · rw [hdisk]
    exact h.recoverable.install hb
  · rw [hdisk]
    exact RedoLog.Installed.step h.recoverable hin hb
  · rw [hdisk]
    exact update_of_ne (RedoLog.home_ne_head (L := redo sb hlog) hnamed).symm ..

theorem copyHome {tail : Nat} (h : Data hlog base s t) (hc : Control s)
    (hpc : s.pc p = .committing) (hcommit : s.commit = some (.install tail))
    (hb : s.lh[tail]? = some b) :
    Data hlog base { s.copy (sb.logstart + tail + 1) b with commit := some (.install (tail + 1)) }
      t := by
  have hboot := hc.boot_of_pc (p := p) (by rw [hpc]; exact Pc.noConfusion)
  have hquiet := hc.quiet (by rw [hcommit]; exact Option.some_ne_none _)
  have hstage := h.stage
  rw [hboot, hcommit] at hstage
  obtain ⟨hhead, hrecent, hin⟩ := hstage
  have hlt := (List.getElem?_eq_some_iff.mp hb).1
  have hdrop : s.lh.drop tail = b :: s.lh.drop (tail + 1) := by
    rw [List.drop_eq_getElem_cons hlt, (List.getElem?_eq_some_iff.mp hb).2]
  have hnodup : b ∉ s.lh.drop (tail + 1) := by
    have hsub := (h.nodup hboot).sublist (List.drop_sublist tail s.lh)
    rw [hdrop] at hsub
    exact (List.nodup_cons.mp hsub).1
  have hpinned : pinnedBy s.boot s.commit s.lh = b :: s.lh.drop (tail + 1) := by
    rw [hboot, hcommit]
    exact hdrop
  obtain ⟨hrec, hin', hhead', hcached⟩ := h.installed (· ∈ s.lh.drop (tail + 1)) hin
    (hhead ▸ hb) (not_touched hquiet _)
    (fun c hc => h.named hboot c (pinned_sub hc).2)
    (fun c hcb => by rw [hpinned]; simp [hcb]) hnodup
  refine { h with recoverable := hrec, cached := ?_, stage := ?_ }
  · show Cached _ _ (· ∈ pinnedBy s.boot (some (.install (tail + 1))) s.lh) _ _
    rw [hboot]
    exact hcached
  · show Stage hlog base (s.copy (sb.logstart + tail + 1) b).disk s.lh t s.boot _
    rw [hboot]
    exact ⟨(congrArg readHeader hhead').trans hhead, hrecent, hin'⟩

/-- The header is emptied after the last entry is home. -/
theorem cleared {tail : Nat} (h : Data hlog base s t)
    (hin : (redo sb hlog).Installed s.disk (kept base t) tail)
    (hend : (readHeader (s.disk sb.logstart)).length ≤ tail)
    (hpin : ∀ c, c ∉ pinnedBy s.boot s.commit s.lh) :
    let s' := { s with lh := [] }.writeHead sb
    readHeader (s'.disk sb.logstart) = [] ∧ (redo sb hlog).Recoverable s'.disk (kept base t) ∧
      Cached s'.disk s'.cache (· ∈ ([] : List Nat)) (Touched s) (now base t) := by
  have hread : readHeader (writeHeader (s.buf sb.logstart).data []) = [] :=
    readHeader_home (fun b hb => (absurd hb List.not_mem_nil : Home sb b)) (Nat.zero_le _)
  refine ⟨?_, h.recoverable.clear hin hend hread, ?_⟩
  · show readHeader (update s.disk sb.logstart _ sb.logstart) = []
    rw [update_self]
    exact hread
  · refine h.headWritten [] (fun c => ?_) fun b hb => absurd hb List.not_mem_nil
    exact iff_of_false List.not_mem_nil (hpin c)

theorem clearHead {tail : Nat} (h : Data hlog base s t) (hc : Control s)
    (hpc : s.pc p = .committing) (hcommit : s.commit = some (.install tail))
    (hend : s.lh[tail]? = none) :
    Data hlog base { { s with lh := [] }.writeHead sb with commit := some .finish } t := by
  have hboot := hc.boot_of_pc (p := p) (by rw [hpc]; exact Pc.noConfusion)
  have hlen := List.getElem?_eq_none_iff.mp hend
  have hstage := h.stage
  rw [hboot, hcommit] at hstage
  obtain ⟨hhead, hrecent, hin⟩ := hstage
  obtain ⟨hempty, hrec, hcached⟩ := h.cleared hin (hhead ▸ hlen) fun c hc => by
    rw [hboot, hcommit] at hc
    change c ∈ s.lh.drop tail at hc
    rw [List.drop_eq_nil_of_le hlen] at hc
    exact List.not_mem_nil hc
  refine { h with
    recoverable := hrec
    recent := fun w hw => absurd (hrecent ▸ hw) List.not_mem_nil
    cached := ?_
    named := fun _ b hb => absurd hb List.not_mem_nil
    nodup := fun _ => List.nodup_nil
    stage := ?_ }
  · show Cached _ _ (· ∈ pinnedBy s.boot (some .finish) []) _ _
    rw [hboot]
    exact hcached
  · show Stage hlog base ({ s with lh := [] }.writeHead sb).disk [] t s.boot _
    rw [hboot]
    exact ⟨hempty, hrecent⟩

theorem finish (h : Data hlog base s t) (hc : Control s) (hpc : s.pc p = .committing)
    (hcommit : s.commit = some .finish) :
    Data hlog base { (s.setPc p .idle).wakeup with commit := none } t := by
  have hboot := hc.boot_of_pc (p := p) (by rw [hpc]; exact Pc.noConfusion)
  have hstage := h.stage
  rw [hboot, hcommit] at hstage
  have hmove : Data hlog base (s.setPc p .idle) t :=
    h.setPc (by rw [hpc]; rfl) (by rw [hpc]; rfl)
  refine hmove.wakeup.recommit ?_ ?_
  · show pinnedBy s.boot none s.lh = pinnedBy s.boot s.commit s.lh
    rw [hboot, hcommit]
    rfl
  · show Stage hlog base s.disk s.lh t s.boot none
    rw [hboot]
    exact hstage.1

/-! ### The recovery -/

theorem not_pinned (hboot : s.boot ≠ none) (c : Nat) : c ∉ pinnedBy s.boot s.commit s.lh :=
  fun hc => hboot (pinned_sub hc).1

theorem readHead (h : Data hlog base s t) (hc : Control s) (hboot : s.boot = some .readHead) :
    Data hlog base { s.load sb.logstart with
      lh := readHeader (s.buf sb.logstart).data, boot := some (.install 0) } t := by
  have hne : s.boot ≠ none := by rw [hboot]; exact Option.some_ne_none _
  have hidle := (hc.booting hne).2
  have hdisk : (s.buf sb.logstart).data = s.disk sb.logstart :=
    h.cached.onDisk (not_pinned hne _) (not_touched (fun q => by rw [hidle q]; rfl) _)
  refine { h with
    booting := fun _ => h.booting hne
    recent := fun w hw => absurd (h.booting hne ▸ hw) List.not_mem_nil
    cached := ?_
    named := fun hb => by cases hb
    nodup := fun hb => by cases hb
    stage := ?_ }
  · refine (h.cached.load sb.logstart).congr (fun c => ?_) (fun _ => Iff.rfl) fun _ _ => rfl
    exact iff_of_false List.not_mem_nil (not_pinned hne c)
  · refine ⟨?_, fun i a _ hi => absurd hi (Nat.not_lt_zero i)⟩
    show readHeader (s.buf sb.logstart).data = readHeader (s.disk sb.logstart)
    rw [hdisk]

theorem reinstall {tail : Nat} (h : Data hlog base s t) (hc : Control s)
    (hboot : s.boot = some (.install tail)) (hb : s.lh[tail]? = some b) :
    Data hlog base { s.copy (sb.logstart + tail + 1) b with boot := some (.install (tail + 1)) }
      t := by
  have hne : s.boot ≠ none := by rw [hboot]; exact Option.some_ne_none _
  have hidle := (hc.booting hne).2
  have hstage := h.stage
  rw [hboot] at hstage
  obtain ⟨hlh, hin⟩ := hstage
  obtain ⟨hrec, hin', hhead, hcached⟩ := h.installed (· ∈ ([] : List Nat)) hin
    (hlh ▸ hb) (not_touched (fun q => by rw [hidle q]; rfl) _)
    (fun c hc => absurd hc (not_pinned hne c))
    (fun c _ => iff_of_false List.not_mem_nil (not_pinned hne c)) List.not_mem_nil
  refine { h with
    recoverable := hrec
    booting := fun _ => h.booting hne
    cached := hcached
    named := fun hb => by cases hb
    nodup := fun hb => by cases hb
    stage := ⟨?_, hin'⟩ }
  show s.lh = readHeader ((s.copy (sb.logstart + tail + 1) b).disk sb.logstart)
  rw [hhead]
  exact hlh

theorem booted {tail : Nat} (h : Data hlog base s t) (hc : Control s)
    (hboot : s.boot = some (.install tail)) (hend : s.lh[tail]? = none) :
    Data hlog base { { s with lh := [] }.writeHead sb with boot := none } t := by
  have hne : s.boot ≠ none := by rw [hboot]; exact Option.some_ne_none _
  have hcommit := (hc.booting hne).1
  have hstage := h.stage
  rw [hboot] at hstage
  obtain ⟨hlh, hin⟩ := hstage
  obtain ⟨hempty, hrec, hcached⟩ :=
    h.cleared hin (hlh ▸ List.getElem?_eq_none_iff.mp hend) (not_pinned hne)
  refine { h with
    recoverable := hrec
    booting := fun hb => absurd rfl hb
    recent := fun w hw => absurd (h.booting hne ▸ hw) List.not_mem_nil
    cached := ?_
    named := fun _ b hb => absurd hb List.not_mem_nil
    nodup := fun _ => List.nodup_nil
    stage := ?_ }
  · show Cached _ _ (· ∈ pinnedBy none s.commit []) _ _
    rw [hcommit]
    exact hcached
  · show Stage hlog base ({ s with lh := [] }.writeHead sb).disk [] t none s.commit
    rw [hcommit]
    exact hempty

/-- A crash forgets the buffers, and what was not committed. -/
theorem crash (h : Data hlog base s t) :
    Data hlog base (State.off s.disk) { t with running := fun _ => none, recent := [] } where
  runs _ := rfl
  recoverable := h.recoverable
  booting _ := rfl
  recent w hw := absurd hw List.not_mem_nil
  cached := .nothing (fun _ => List.not_mem_nil) fun b buf hbuf => by cases hbuf
  named hb := by cases hb
  nodup hb := by cases hb
  held b q hq := by cases hq
  touched q b hq := by cases hq
  stage := trivial

end Data

variable (hlog) in
/-- The history is right about the step, and the relation is kept. -/
def Explained (base : Nat → Block) (s : State) (a : Label) (s' : State) (t : History) : Prop :=
  (note s a t = t ∨ ∃ e, Transactions.next t e = some (note s a t)) ∧
    Data hlog base s' (note s a t)

theorem explain_silent (he : event s a = none) (h : Data hlog base s' t) :
    Explained hlog base s a s' t := by
  have hnote : note s a t = t := by
    unfold note
    rw [he]
  exact ⟨Or.inl hnote, hnote.symm ▸ h⟩

theorem explain_event {e : Transactions.Event Proc Nat Block} (he : event s a = some e)
    (h : ∃ t', Transactions.next t e = some t' ∧ Data hlog base s' t') :
    Explained hlog base s a s' t := by
  obtain ⟨t', hn, h⟩ := h
  have hnote : note s a t = t' := by
    unfold note
    rw [he]
    show (Transactions.next t e).getD t = t'
    rw [hn]
    rfl
  refine ⟨Or.inr ⟨e, ?_⟩, hnote.symm ▸ h⟩
  rw [hn, hnote]

/-- The blocks in `log.lh` fit into the log. -/
def Fits (sb : Super) (s : State) : Prop :=
  s.boot = none → s.lh.length ≤ logSize ∧ s.lh.length ≤ sb.nlog - 1

theorem Data.step {budget : Nat} (h : Data hlog base s t) (hc : Control s) (hfits : Fits sb s)
    (hpolite : Polite sb budget s a) (hs : Step sb s a s') : Explained hlog base s a s' t := by
  cases hs with
  | enter _ hpc hcommit hroom =>
      refine explain_event (e := .start _) (if_neg ?_) (h.enter hpc)
      rintro (hne | hscarce)
      · exact hne hcommit
      · exact hroom hscarce
  | sleep _ hpc hwait =>
      refine explain_silent (if_pos hwait) (h.setPc ?_ ?_)
      all_goals rcases hpc with hpc | hpc <;> rw [hpc] <;> rfl
  | bread _ hfree _ => exact explain_silent rfl (h.bread hpolite hfree)
  | brelse hlock hpc =>
      refine explain_silent rfl (h.brelse hlock ?_)
      rcases hpc with hpc | ⟨w, hpc⟩ <;> rw [hpc] <;> rfl
  | store hpc hlock => exact explain_silent rfl (h.store hpc hlock)
  | tooBig hpc _ =>
      exact explain_silent (by simp only [event, hpc]) (h.repc (fun _ => rfl) h.runs)
  | check hpc _ =>
      refine explain_silent (by simp only [event, hpc]) (h.setPc ?_ ?_) <;> rw [hpc] <;> rfl
  | append hpc => exact explain_event (by simp only [event, hpc]) (h.append hc hpc)
  | @endPanic p wrote hpc hcommit =>
      exact absurd (hc.commit_of_inOp (p := p) (by rw [hpc]; rfl)) hcommit
  | endCommit hpc hcommit _ => exact explain_event rfl (h.endCommit hc hpc hcommit)
  | endWake hpc _ _ => exact explain_event rfl (h.endWake hpc)
  | copyOut hpc hcommit hb _ _ =>
      have hlt := (List.getElem?_eq_some_iff.mp hb).1
      have hboot := hc.boot_of_pc (by rw [hpc]; exact Pc.noConfusion)
      refine explain_silent ?_ (h.copyOut hc hpc hcommit hb (hfits hboot).2)
      simp only [event, hcommit, hlt, if_true]
  | commitHead hpc hcommit hend =>
      have hge := List.getElem?_eq_none_iff.mp hend
      have hboot := hc.boot_of_pc (by rw [hpc]; exact Pc.noConfusion)
      refine explain_event (e := .commit) ?_
        (h.commitHead hc hpc hcommit hend (hfits hboot).2 (hfits hboot).1)
      simp only [event, hcommit, Nat.not_lt.mpr hge, if_false]
  | copyHome hpc hcommit hb _ _ =>
      exact explain_silent (by simp only [event, hcommit]) (h.copyHome hc hpc hcommit hb)
  | clearHead hpc hcommit hend =>
      exact explain_silent (by simp only [event, hcommit]) (h.clearHead hc hpc hcommit hend)
  | finish hpc hcommit =>
      exact explain_silent (by simp only [event, hcommit]) (h.finish hc hpc hcommit)
  | readHead hboot => exact explain_silent rfl (h.readHead hc hboot)
  | reinstall hboot hb => exact explain_silent rfl (h.reinstall hc hboot hb)
  | booted hboot hend => exact explain_silent rfl (h.booted hc hboot hend)
  | evict hbuf _ => exact explain_silent rfl (h.evict hbuf)
  | kill hpc => refine explain_silent rfl (h.setPc ?_ ?_) <;> rw [hpc] <;> rfl
  | crash => exact explain_event rfl ⟨_, rfl, h.crash⟩

theorem Data.fresh (hbase : readHeader (base sb.logstart) = []) :
    Data hlog base (State.off base) Transactions.fresh where
  runs _ := rfl
  recoverable := .of_empty hbase fun _ _ => rfl
  booting _ := rfl
  recent w hw := absurd hw List.not_mem_nil
  cached := .nothing (fun _ => List.not_mem_nil) fun b buf hbuf => by cases hbuf
  named hb := by cases hb
  nodup hb := by cases hb
  held b q hq := by cases hq
  touched q b hq := by cases hq
  stage := trivial

variable (hlog) in
/-- The log, what it holds, and its history. -/
structure Logged (base : Nat → Block) (budget : Nat) (x : State × History) : Prop where
  control : Control x.1
  room : Room budget x.1
  data : Data hlog base x.1 x.2
  transactions : Transactions.machine.Reachable x.2

theorem logged_invariant {budget : Nat} (hbudget : budget ≤ maxOpBlocks)
    (hlarge : maxOpBlocks + 2 * budget ≤ sb.nlog - 1)
    (hbase : readHeader (base sb.logstart) = []) :
    (recorded sb base).InvariantUnder (fun x a => Polite sb budget x.1 a)
      (Logged hlog base budget) := by
  refine TSys.Inductive.invariantUnder ⟨?_, ?_⟩
  · rintro ⟨s, t⟩ ⟨rfl, rfl⟩
    exact ⟨.off base, .off base, .fresh hbase, .init rfl⟩
  · rintro ⟨s, t⟩ a ⟨s', t'⟩ h hpolite hn
    obtain ⟨s'', hnext, heq⟩ := Option.map_eq_some_iff.mp hn
    obtain ⟨rfl, rfl⟩ := Prod.mk.inj heq
    have hs := next_step hnext
    have hfits : Fits sb s := fun hboot => by
      have hbound := h.room.bound h.control hbudget hboot
      refine ⟨Nat.le_trans hbound ?_, Nat.le_trans hbound hlarge⟩
      unfold logSize maxOpBlocks at *
      omega
    obtain ⟨htrans, hdata⟩ := h.data.step h.control hfits hpolite hs
    refine ⟨h.control.step hs, h.room.step h.control hbudget hpolite hs, hdata, ?_⟩
    rcases htrans with hnote | ⟨e, he⟩
    · show Transactions.machine.Reachable (note s a t)
      rw [hnote]
      exact h.transactions
    · exact h.transactions.step he

end Invariant

/-! ## The result -/

section Atomic

variable {budget : Nat}

/-- **The file-system calls are atomic, whatever crashes.** In every run of operations that
log at most `budget` blocks, on a log with room for them:

* the operations kept are whole, and they are what the machine of transactions keeps;
* a home block that nobody is storing into reads as the operations kept and the recent
  ones left it;
* a commit keeps everything that was written before it. -/
theorem log_atomic (hbudget : budget ≤ maxOpBlocks)
    (hlarge : maxOpBlocks + 2 * budget ≤ sb.nlog - 1)
    (hbase : readHeader (base sb.logstart) = []) :
    (recorded sb base).InvariantUnder (fun x a => Polite sb budget x.1 a) fun x =>
      (Transactions.machine.Reachable x.2 ∧ Transactions.Whole x.2) ∧
      (x.1.boot = none → ∀ b, Home sb b → ¬ Touched x.1 b →
        (x.1.buf b).data = now base x.2 b) ∧
      (x.1.commit = some .finish → x.2.recent = []) := by
  intro x hx
  have hlog : 0 < sb.nlog := by
    unfold maxOpBlocks at hlarge
    omega
  have h : Logged hlog base budget x := logged_invariant hbudget hlarge hbase x hx
  refine ⟨⟨h.transactions, Transactions.kept_whole x.2 h.transactions⟩, ?_, fun hcommit => ?_⟩
  · exact fun hboot b hb hnot => h.data.view hboot hb hnot
  · have hboot : x.1.boot = none := by
      by_contra hne
      rw [(h.control.booting hne).1] at hcommit
      cases hcommit
    have hstage := h.data.stage
    rw [hboot, hcommit] at hstage
    exact hstage.2

/-- On the log that `mkfs` makes, with nine blocks to an operation. -/
theorem log_atomic_mkfs :
    (recorded { logstart := 2, nlog := 30 } fun _ _ => 0).InvariantUnder
      (fun x a => Polite { logstart := 2, nlog := 30 } 9 x.1 a) fun x =>
        (Transactions.machine.Reachable x.2 ∧ Transactions.Whole x.2) ∧
        (x.1.boot = none → ∀ b, Home { logstart := 2, nlog := 30 } b → ¬ Touched x.1 b →
          (x.1.buf b).data = now (fun _ _ => 0) x.2 b) ∧
        (x.1.commit = some .finish → x.2.recent = []) :=
  log_atomic (by decide) (by decide) readHeader_zero

theorem recorded_recover (base : Nat → Block) (t : History) (hup : s.panicked = false)
    (hr : recover sb s = some s') :
    (recorded sb base).next (s, t) .recover = some (s', t) := by
  have hn : next sb s .recover = some s' := by
    unfold next
    rw [hup, if_neg (fun h => Bool.false_ne_true h.1)]
    exact hr
  show (next sb s .recover).map _ = _
  rw [hn]
  rfl

/-- Recovery copies what the header names, and is done. -/
theorem recover_finishes {tail : Nat}
    (hx : (recorded sb base).ReachableUnder (fun x a => Polite sb budget x.1 a) (s, t))
    (hup : s.panicked = false) (hboot : s.boot = some (.install tail)) :
    ∃ n s', (recorded sb base).run (s, t) (List.replicate n .recover) = some (s', t) ∧
      (recorded sb base).ReachableUnder (fun x a => Polite sb budget x.1 a) (s', t) ∧
      s'.boot = none ∧ s'.pc = s.pc := by
  induction hk : s.lh.length - tail generalizing s tail with
  | zero =>
      have hend : s.lh[tail]? = none := List.getElem?_eq_none_iff.mpr (by omega)
      have hr : recover sb s = some { { s with lh := [] }.writeHead sb with boot := none } := by
        unfold recover
        rw [hboot]
        dsimp only
        rw [hend]
      have hn := recorded_recover base t hup hr
      refine ⟨1, _, ?_, hx.step (show Polite sb budget s .recover from trivial) hn, rfl, rfl⟩
      show ((recorded sb base).next (s, t) .recover).bind _ = _
      rw [hn]
      rfl
  | succ k ih =>
      have hlt : tail < s.lh.length := by omega
      have hb : s.lh[tail]? = some s.lh[tail] := List.getElem?_eq_getElem hlt
      have hr : recover sb s = some { s.copy (sb.logstart + tail + 1) s.lh[tail] with
          boot := some (.install (tail + 1)) } := by
        unfold recover
        rw [hboot]
        dsimp only
        rw [hb]
      have hn := recorded_recover base t hup hr
      obtain ⟨n, s', hrun, hs', hdone, hpc⟩ := ih
        (s := { s.copy (sb.logstart + tail + 1) s.lh[tail] with
          boot := some (.install (tail + 1)) })
        (hx.step (show Polite sb budget s .recover from trivial) hn) hup rfl
        (show s.lh.length - (tail + 1) = k by omega)
      refine ⟨n + 1, s', ?_, hs', hdone, hpc⟩
      rw [List.replicate_succ]
      show ((recorded sb base).next (s, t) .recover).bind _ = _
      rw [hn]
      exact hrun

/-- **A crash at any moment can be recovered from**, and then all home blocks read as the
operations kept before it left them. -/
theorem crash_recovers (hbudget : budget ≤ maxOpBlocks)
    (hlarge : maxOpBlocks + 2 * budget ≤ sb.nlog - 1)
    (hbase : readHeader (base sb.logstart) = []) :
    (recorded sb base).InvariantUnder (fun x a => Polite sb budget x.1 a) fun x =>
      ∃ n y, (recorded sb base).run x (.crash :: List.replicate n .recover) = some y ∧
        y.1.boot = none ∧ ∀ b, Home sb b → (y.1.buf b).data = kept base x.2 b := by
  rintro ⟨s, t⟩ hx
  have hlog : 0 < sb.nlog := by
    unfold maxOpBlocks at hlarge
    omega
  let t' : History := { t with running := fun _ => none, recent := [] }
  have hcrash : (recorded sb base).next (s, t) .crash = some (State.off s.disk, t') := by
    show (next sb s .crash).map _ = _
    unfold next
    rw [if_neg (fun h => Bool.noConfusion h.2)]
    rfl
  have h1 := hx.step (show Polite sb budget s .crash from trivial) hcrash
  have hread :=
    recorded_recover base t' (rfl : (State.off s.disk).panicked = false)
      (rfl : recover sb (State.off s.disk) = some _)
  have h2 := h1.step (show Polite sb budget _ .recover from trivial) hread
  obtain ⟨n, s', hrun, hs', hdone, hpc⟩ := recover_finishes h2 rfl rfl
  refine ⟨n + 1, (s', t'), ?_, hdone, fun b hb => ?_⟩
  · rw [List.replicate_succ]
    show ((recorded sb base).next (s, t) .crash).bind _ = _
    rw [hcrash, Option.bind_some]
    show ((recorded sb base).next (State.off s.disk, t') .recover).bind _ = _
    rw [hread]
    exact hrun
  · have hlogged : Logged hlog base budget (s', t') :=
      logged_invariant hbudget hlarge hbase (s', t') hs'
    have h := hlogged.data
    have hnot : ¬ Touched s' b := not_touched (fun q => by rw [hpc]; rfl) b
    rw [h.view hdone hb hnot, now_of_no_recent rfl]
    rfl

theorem crash_recovers_mkfs :
    (recorded { logstart := 2, nlog := 30 } fun _ _ => 0).InvariantUnder
      (fun x a => Polite { logstart := 2, nlog := 30 } 9 x.1 a) fun x =>
        ∃ n y, (recorded { logstart := 2, nlog := 30 } fun _ _ => 0).run x
            (.crash :: List.replicate n .recover) = some y ∧
          y.1.boot = none ∧ ∀ b, Home { logstart := 2, nlog := 30 } b →
            (y.1.buf b).data = kept (fun _ _ => 0) x.2 b :=
  crash_recovers (by decide) (by decide) readHeader_zero

end Atomic

end Os377.Xv6.Log
