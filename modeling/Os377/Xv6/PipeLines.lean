import Os377.Xv6.PipeFlow

/-!
# Lines in an xv6 pipe

Where every `pipewrite` ends with a line and every `piperead` has room for a full pipe, the
bytes come out in pieces that end with a line, or fill the pipe (`pieces_invariant`):
`pipewrite` lets go of the lock only at its end and when there is no more room.
-/

namespace Os377.Xv6.Pipe

open Os377.Lib Function

variable {s s' : State} {a : Label} {p q : Proc} {nl : UInt8}

/-- It ends with a line, or it fills the pipe. -/
def Piece (nl : UInt8) (seg : List UInt8) : Prop :=
  seg.getLast? = some nl ∨ seg.length = pipeSize

/-- A `pipewrite` of lines, or a `piperead` that can take all there is. -/
def Call.linewise (nl : UInt8) : Call → Prop
  | .write _ rest => rest = [] ∨ rest.getLast? = some nl
  | .read n => pipeSize ≤ n

instance (nl : UInt8) (call : Call) : Decidable (call.linewise nl) :=
  match call with
  | .write _ _ => inferInstanceAs (Decidable (_ ∨ _))
  | .read n => inferInstanceAs (Decidable (pipeSize ≤ n))

/-- All calls are of that kind. -/
def Linewise (nl : UInt8) (_ : State) : Label → Prop
  | .call _ call => call.linewise nl
  | _ => True

instance (nl : UInt8) (s : State) (a : Label) : Decidable (Linewise nl s a) :=
  match a with
  | .call _ call => inferInstanceAs (Decidable (call.linewise nl))
  | .run _ | .sleep _ | .kill _ | .dup _ _ | .fork _ _ | .close _ _ => isTrue trivial

/-- Every call is of that kind, and the pipe holds no part of a line unless it is full. -/
structure Lines (nl : UInt8) (s : State) : Prop where
  calls : ∀ p call, (s.pc p).calling = some call → call.linewise nl
  bytes : s.bytes = [] ∨ Piece nl s.bytes

namespace Lines

/-- A step of one process. -/
theorem move {pc : Pc} {c : Option End} (h : Lines nl s) (hm : Moved s s' p pc c)
    (hcall : ∀ call, pc.calling = some call → call.linewise nl)
    (hbytes : s'.bytes = [] ∨ Piece nl s'.bytes) : Lines nl s' := by
  refine ⟨fun q call hq => ?_, hbytes⟩
  by_cases hqp : q = p
  · rw [hqp, hm.self] at hq
    exact hcall call hq
  · rw [hm.calling hqp] at hq
    exact h.calls q call hq

/-- A writer that has no room left leaves the pipe full. -/
theorem full {rest : List UInt8} {k : Nat} (hk : k < rest.length) (hsum : s.count + k = pipeSize) :
    (s.puts (rest.take k)).bytes = [] ∨ Piece nl (s.puts (rest.take k)).bytes := by
  have hlen : (rest.take k).length = k := List.length_take_of_le (Nat.le_of_lt hk)
  have hroom : s.count + (rest.take k).length ≤ pipeSize := by
    rw [hlen]
    exact Nat.le_of_eq hsum
  refine Or.inr (Or.inr ?_)
  rw [bytes_length, puts_count hroom, hlen, hsum]

theorem step (h : Lines nl s) (hbound : s.count ≤ pipeSize) (hcalls : Linewise nl s a)
    (hs : Step s a s') : Lines nl s' := by
  have hnone : ∀ {r : Int} (call : Call), (Pc.out r).calling = some call → call.linewise nl :=
    fun call hc => by cases hc
  cases hs with
  | call _ _ _ =>
      refine h.move (.setPc rfl) (fun call hc => ?_) h.bytes
      cases hc
      exact hcalls
  | @writeAll p n rest _ hpc hroom =>
      have hlines := h.calls p (.write n rest) (by rw [hpc]; rfl)
      have hm : Moved s (((s.puts rest).wakeup .read).setPc p (.out n)) p (.out n) (some .read) :=
        .wake (by rw [puts_eq]; rfl)
      refine h.move hm hnone ?_
      show (s.puts rest).bytes = [] ∨ Piece nl (s.puts rest).bytes
      rw [puts_bytes hroom]
      rcases hlines with rfl | hlast
      · rw [List.append_nil]
        exact h.bytes
      · refine Or.inr (Or.inl ?_)
        rw [List.getLast?_append, hlast]
        rfl
  | @writeFail p n rest k _ hpc hk hsum _ =>
      have hm : Moved s ((s.puts (rest.take k)).setPc p (.out (-1))) p (.out (-1)) none :=
        .setPc (by rw [puts_eq]; rfl)
      exact h.move hm hnone (full hk hsum)
  | @writeWait p n rest k _ hpc hk hsum _ =>
      have hlines := h.calls p (.write n rest) (by rw [hpc]; rfl)
      have hm : Moved s { ((s.puts (rest.take k)).wakeup .read).setPc p
          (.drowsy (.write n (rest.drop k))) with lockedBy := some p } p
          (.drowsy (.write n (rest.drop k))) (some .read) := .wake (by rw [puts_eq]; rfl)
      refine h.move hm (fun call hc => ?_) (full hk hsum)
      cases hc
      -- what is left ends where all of it does
      rcases hlines with rfl | hlast
      · exact absurd hk (Nat.not_lt_zero k)
      · refine Or.inr ?_
        rw [List.getLast?_drop, if_neg (Nat.not_le.mpr hk)]
        exact hlast
  | readFail _ _ _ _ _ => exact h.move (.setPc rfl) hnone h.bytes
  | readWait _ hpc _ _ =>
      refine h.move (.setPc rfl) (fun call hc => ?_) h.bytes
      cases hc
      exact h.calls _ _ (by rw [hpc]; rfl)
  | @readSome p n _ hpc _ =>
      have hn : pipeSize ≤ n := h.calls p (.read n) (by rw [hpc]; rfl)
      refine h.move (c := some .write) (.wake rfl) hnone (Or.inl ?_)
      show (s.skip n).bytes = []
      rw [skip_bytes, List.drop_eq_nil_iff, bytes_length]
      exact Nat.le_trans hbound hn
  | @pipeclose p e _ _ =>
      obtain ⟨freed, heq, -⟩ := Refs.pipeclose_eq s p e
      rw [heq]
      exact h.move (.wake rfl) hnone h.bytes
  | sleep hpc =>
      refine h.move (.setPc rfl) (fun call hc => ?_) h.bytes
      cases hc
      exact h.calls _ _ (by rw [hpc]; rfl)
  | @kill p =>
      refine h.move (.setPc rfl) (fun call hc => ?_) h.bytes
      refine h.calls p call ?_
      cases hpc : s.pc p <;> rw [hpc] at hc <;> exact hc
  | dup _ _ => exact ⟨h.calls, h.bytes⟩
  | fork _ _ _ => exact ⟨h.calls, h.bytes⟩
  | close _ _ =>
      unfold fileclose
      dsimp only
      split
      · exact ⟨h.calls, h.bytes⟩
      · exact h.move (.setPc rfl) (fun call hc => by cases hc) h.bytes

theorem new (p : Proc) (data : Nat → UInt8) (killed : Proc → Bool) :
    Lines nl (State.new p data killed) := by
  refine ⟨fun q call hq => ?_, Or.inl ?_⟩
  · cases hq
  · rw [← empty_iff]
    rfl

end Lines

/-! ## The pieces -/

variable {h : History} {segs : List (List UInt8)}

/-- What a `piperead` returns is a piece, if it is anything. -/
def cut (x : State × History) (a : Label) (segs : List (List UInt8)) : List (List UInt8) :=
  let seg := ((note x.1 a x.2).received.drop x.2.received.length).map Prod.snd
  if seg = [] then segs else segs ++ [seg]

/-- The pipe, with its history and the pieces in which it has been read. -/
def pieced : TSys ((State × History) × List (List UInt8)) Label := recorded.record [] cut

/-- Only a `piperead` that finds something receives. -/
theorem note_received (hs : Step s a s') (hn : next s a = some s') :
    (note s a h).received = h.received ∨ ∃ p n, s.pc p = .enter (.read n) ∧
      (note s a h).received = h.received ++ (s.bytes.take n).map fun c => (p, c) := by
  cases hs with
  | @call p call _ _ _ => cases call <;> exact Or.inl rfl
  | writeAll _ hpc _ | writeFail _ hpc _ _ _ | writeWait _ hpc _ _ _ =>
      left
      simp only [note, hpc]
      rfl
  | pipeclose _ hpc => simp only [note, hpc, true_or]
  | readFail hlock hpc _ _ _ | readWait hlock hpc _ _ =>
      left
      simp only [note, hpc, Flow.run_read hlock hpc hn, State.setPc_self]
  | @readSome p n hlock hpc _ =>
      refine Or.inr ⟨p, n, hpc, ?_⟩
      simp only [note, hpc, Flow.run_read hlock hpc hn, State.setPc_self, update_self]
  | sleep _ | kill | dup _ _ | fork _ _ _ | close _ _ => exact Or.inl rfl

/-- The pieces make up what was received, and they are what they are called. -/
structure Pieces (nl : UInt8) (h : History) (segs : List (List UInt8)) : Prop where
  flatten : segs.flatten = h.received.map Prod.snd
  piece : ∀ seg ∈ segs, seg ≠ [] ∧ seg.length ≤ pipeSize ∧ Piece nl seg

theorem Pieces.step (h' : Pieces nl h segs) (hlines : Lines nl s) (hbound : s.count ≤ pipeSize)
    (hs : Step s a s') (hn : next s a = some s') :
    Pieces nl (note s a h) (cut (s, h) a segs) := by
  rcases note_received (h := h) hs hn with hsame | ⟨p, n, hpc, hmore⟩
  · have hnone : cut (s, h) a segs = segs := by
      simp [cut, hsame]
    rw [hnone]
    exact ⟨hsame ▸ h'.flatten, h'.piece⟩
  · -- there was room for all that was in the pipe
    have hn' : pipeSize ≤ n := hlines.calls p (.read n) (by rw [hpc]; rfl)
    have hall : s.bytes.take n = s.bytes :=
      List.take_of_length_le (Nat.le_trans (bytes_length ▸ hbound) hn')
    rw [hall] at hmore
    have hseg : ((note s a h).received.drop h.received.length).map Prod.snd = s.bytes := by
      rw [hmore, List.drop_left, List.map_map]
      exact List.map_id _
    have hreceived : (note s a h).received.map Prod.snd = h.received.map Prod.snd ++ s.bytes := by
      rw [hmore, List.map_append, List.map_map]
      congr 1
      exact List.map_id _
    unfold cut
    dsimp only
    rw [hseg]
    split
    · next hnil =>
        rw [hnil, List.append_nil] at hreceived
        exact ⟨h'.flatten.trans hreceived.symm, h'.piece⟩
    · next hne =>
        refine ⟨?_, fun seg hmem => ?_⟩
        · rw [List.flatten_append, h'.flatten, hreceived, List.flatten_singleton]
        · rcases List.mem_append.mp hmem with hmem | hmem
          · exact h'.piece seg hmem
          · rw [List.mem_singleton.mp hmem]
            exact ⟨hne, bytes_length ▸ hbound, hlines.bytes.resolve_left hne⟩

theorem pieces_invariant (nl : UInt8) : pieced.InvariantUnder (fun x => Linewise nl x.1.1)
    fun x => (Refs x.1.1 ∧ Flow x.1.1 x.1.2) ∧ Lines nl x.1.1 ∧ Pieces nl x.1.2 x.2 := by
  refine TSys.Inductive.invariantUnder ⟨?_, ?_⟩
  · rintro ⟨⟨s, h⟩, segs⟩ ⟨⟨⟨p, data, killed, rfl⟩, rfl⟩, rfl⟩
    exact ⟨⟨.new p data killed, .new p data killed⟩, .new p data killed, rfl,
      fun seg hmem => absurd hmem List.not_mem_nil⟩
  · rintro ⟨⟨s, h⟩, segs⟩ a x' ⟨⟨hrefs, hf⟩, hlines, hpieces⟩ hcalls hnext
    obtain ⟨y, hrecorded, rfl⟩ := Option.map_eq_some_iff.mp hnext
    obtain ⟨s', hn, rfl⟩ := Option.map_eq_some_iff.mp hrecorded
    have hs := next_step hf.bounded hn
    exact ⟨⟨hrefs.step hs, hf.step hrefs hs hn⟩, hlines.step hf.bounded hcalls hs,
      hpieces.step hlines hf.bounded hs hn⟩

end Os377.Xv6.Pipe
