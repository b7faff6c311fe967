import Os377.Lib.Service
import Os377.NoLock.Size

/-!
# The stack in one thread

A client hands its calls to the stack one after another; all of them run in
thread 0. On a node that is the head, the first exchange of `pop` compares the
head with the `next` of the node and fails, which stores the node in its own
`next`, so that the second one succeeds: the node goes, and the chain behind it
is left alone. What `pop` never does is to assign its argument, or to ask
whether there is a head.

* `serve` — what the code makes of a call, in terms of the values on the stack;
* `ideal` — what a stack makes of it;
* `sequential_iff` — when the two agree.
-/

namespace Os377.NoLock

open Os377.Lib Function

/-- The calls. -/
inductive Op where
  | push (x : Int)
  /-- `t` is what the variable of the caller holds before the call. -/
  | pop (t : Int)
  | size
  deriving DecidableEq, Repr

/-- What a call gives back. -/
inductive Reply where
  | pushed
  /-- True together with what the variable holds after the call, or false. -/
  | popped (value : Option Int)
  | size (n : Int)
  deriving DecidableEq, Repr

/-! ## A client of the stack -/

structure Client where
  stack : State
  /-- The calls that have not returned; the first one may be running. -/
  todo : List Op
  replies : List Reply

inductive Label where
  /-- The next call begins; `new` returns `newnode`. -/
  | call (newnode : Addr)
  /-- The next step of the call. -/
  | step
  /-- Its `compare_exchange_weak` fails spuriously. -/
  | spurious
  deriving DecidableEq, Repr

/-- What a call gives back that takes steps: `pop` returns true, and leaves the
variable as it is. -/
def Op.ret : Op → Option Reply
  | .push _ => some .pushed
  | .pop t => some (.popped (some t))
  | .size => none

/-- The stack has moved; a call that is over has returned. A count beyond the
`int`s is not computed. -/
def Client.move (c : Client) (s : State) : Option Client :=
  if IsInt s.count then
    if s.pc 0 = .idle then
      match c.todo with
      | [] => none
      | op :: rest => op.ret.map fun r => ⟨s, rest, c.replies ++ [r]⟩
    else some { c with stack := s }
  else none

def clientNext (c : Client) : Label → Option Client
  | .call newnode =>
      match c.todo with
      | [] => none
      | .push x :: _ => (next c.stack (.push 0 x newnode)).map fun s => { c with stack := s }
      | .pop _ :: _ => (next c.stack (.pop 0)).map fun s => { c with stack := s }
      | .size :: rest =>
          if c.stack.pc 0 = .idle then
            (size c.stack).map fun n => ⟨c.stack, rest, c.replies ++ [.size n]⟩
          else none
  | .step => (next c.stack (.step 0)).bind c.move
  | .spurious => (next c.stack (.spurious 0)).map fun s => { c with stack := s }

/-- A client with these calls, on the stack of `NoLockStack()`. -/
def client (ops : List Op) : TSys Client Label where
  init c := c = ⟨empty, ops, []⟩
  next := clientNext

/-! ## The calls on the values -/

/-- What the code makes of a call; `st` are the values on the stack, the top
first. -/
def serve (st : List Int) : Op → Option (List Int × Reply)
  | .push x => if st.length < 2147483647 then some (x :: st, .pushed) else none
  | .pop t =>
      match st with
      | [] => none
      | _ :: st => some (st, .popped (some t))
  | .size => some (st, .size st.length)

/-- What a stack makes of it. -/
def ideal (st : List Int) : Op → List Int × Reply
  | .push x => (x :: st, .pushed)
  | .pop _ =>
      match st with
      | [] => ([], .popped none)
      | x :: st => (st, .popped (some x))
  | .size => (st, .size st.length)

/-- The sequence is served like by a stack: the answers so far always are the
right ones, no call ever gets stuck, and every one comes to an end, as far as
the exchanges do not keep failing for no reason. -/
structure IsStack (ops : List Op) : Prop where
  replies : ∀ c, (client ops).Reachable c → c.replies <+: answers ideal [] ops
  goesOn : ∀ c, (client ops).Reachable c → c.todo ≠ [] →
    ∃ l c', l ≠ .spurious ∧ clientNext c l = some c'
  bounded : ∃ k, ∀ labels c, (client ops).run ⟨empty, ops, []⟩ labels = some c →
    labels.countP (fun l => decide (l ≠ .spurious)) ≤ k

/-- The stack has room for a `push`; a `pop` finds a value, and the variable
already holds it. -/
def Op.Fits (st : List Int) : Op → Prop
  | .push _ => st.length < 2147483647
  | .pop t => st.head? = some t
  | .size => True

/-- Every call of the sequence fits, on the stack that the calls before it make. -/
def Fits : List Int → List Op → Prop
  | _, [] => True
  | st, op :: rest => op.Fits st ∧ Fits (ideal st op).1 rest

variable {s s' : State} {st : List Int} {todo rest ops : List Op} {nodes : List Addr} {a p : Addr}
  {c c' : Client} {l : Label} {op : Op} {x : Int}

theorem serve_state (st : List Int) (op : Op) (st' : List Int) (r : Reply)
    (h : serve st op = some (st', r)) : st' = (ideal st op).1 := by
  cases op with
  | push x =>
      rw [serve, Option.ite_none_right_eq_some, Option.some.injEq] at h
      exact (Prod.mk.inj h.2).1.symm
  | pop t =>
      cases st with
      | nil => cases h
      | cons v st => exact (Prod.mk.inj (Option.some.inj h)).1.symm
  | size => exact (Prod.mk.inj (Option.some.inj h)).1.symm

/-- The values fit in an `int`. -/
theorem serve_length (st : List Int) (op : Op) (st' : List Int) (r : Reply)
    (hst : st.length ≤ 2147483647) (h : serve st op = some (st', r)) :
    st'.length ≤ 2147483647 := by
  rw [serve_state st op st' r h]
  cases op with
  | push x =>
      rw [serve, Option.ite_none_right_eq_some] at h
      exact h.1
  | pop t =>
      cases st with
      | nil => exact Nat.zero_le _
      | cons v st => exact Nat.le_of_succ_le hst
  | size => exact hst

theorem op_fits_iff : op.Fits st ↔ serve st op = some (ideal st op) := by
  cases op with
  | push x =>
      rw [serve, Option.ite_none_right_eq_some]
      exact (and_iff_left rfl).symm
  | pop t =>
      cases st with
      | nil => simp [Op.Fits, serve]
      | cons v st => simp [Op.Fits, serve, ideal, eq_comm]
  | size => exact iff_of_true trivial rfl

theorem fits_iff : Fits st ops ↔ Agrees serve ideal st ops := by
  induction ops generalizing st with
  | nil => exact Iff.rfl
  | cons op rest ih => exact and_congr op_fits_iff ih

/-! ## Where a call stands -/

/-- The nodes from `p` hold the values `st`. -/
structure Lists (s : State) (p : Addr) (nodes : List Addr) (st : List Int) : Prop where
  linked : Seg s.next p nodes 0
  nodup : nodes.Nodup
  known : ∀ a ∈ nodes, a ≠ 0 ∧ s.allocated a = true
  values : nodes.map s.data = st

/-- The stack holds `st` before the first call of `todo`, which may be running. -/
inductive Stands (s : State) : List Int → List Op → Prop
  | between {st : List Int} {todo : List Op} {nodes : List Addr} : s.pc 0 = .idle →
      Lists s s.head nodes st → s.count = st.length → Stands s st todo
  | pushNext {st : List Int} {rest : List Op} {nodes : List Addr} {x : Int} {a : Addr} :
      s.pc 0 = .pushNext a → Lists s s.head nodes st → s.count = st.length →
      a ∉ nodes → a ≠ 0 → s.allocated a = true → s.data a = x → Stands s st (.push x :: rest)
  | pushExchange {st : List Int} {rest : List Op} {nodes : List Addr} {x : Int} {a : Addr} :
      s.pc 0 = .pushExchange a → Lists s s.head nodes st → s.count = st.length →
      a ∉ nodes → a ≠ 0 → s.allocated a = true → s.data a = x → s.next a = s.head →
      Stands s st (.push x :: rest)
  | pushCount {st : List Int} {rest : List Op} {nodes : List Addr} {x : Int} :
      s.pc 0 = .pushCount → Lists s s.head nodes (x :: st) → s.count = st.length →
      Stands s st (.push x :: rest)
  | pushStore {st : List Int} {rest : List Op} {nodes : List Addr} {x : Int} :
      s.pc 0 = .pushStore s.count → Lists s s.head nodes (x :: st) → s.count = st.length →
      Stands s st (.push x :: rest)
  | popNext {st : List Int} {rest : List Op} {nodes : List Addr} {t : Int} :
      s.pc 0 = .popNext s.head → Lists s s.head nodes st → s.count = st.length →
      Stands s st (.pop t :: rest)
  /-- The node is its own successor once an exchange has failed. -/
  | popExchange {st : List Int} {rest : List Op} {nodes : List Addr} {t v : Int} {n : Addr} :
      s.pc 0 = .popExchange s.head n → Lists s n nodes st → s.count = st.length + 1 →
      s.head ∉ nodes → Stands s (v :: st) (.pop t :: rest)
  | popCount {st : List Int} {rest : List Op} {nodes : List Addr} {t v : Int} :
      s.pc 0 = .popCount → Lists s s.head nodes st → s.count = st.length + 1 →
      Stands s (v :: st) (.pop t :: rest)
  | popStore {st : List Int} {rest : List Op} {nodes : List Addr} {t v : Int} :
      s.pc 0 = .popStore s.count → Lists s s.head nodes st → s.count = st.length + 1 →
      Stands s (v :: st) (.pop t :: rest)

/-- How many steps the call has behind it. -/
def Pc.passed (s : State) : Pc → Nat
  | .idle => 0
  | .pushNext _ | .popNext _ => 1
  | .pushExchange _ => 2
  | .popExchange node _ => if s.next node = node then 3 else 2
  | .pushCount => 3
  | .pushStore _ | .popCount => 4
  | .popStore _ => 5

/-- How many steps are left at most. -/
def Client.work (c : Client) : Nat := 6 * c.todo.length - (c.stack.pc 0).passed c.stack

theorem Lists.setNext (h : Lists s p nodes st) (ha : a ∉ nodes) (b : Addr) :
    Lists (s.setNext a b) p nodes st := by
  refine { h with linked := h.linked.congr fun n hn => ?_ }
  have hne : n ≠ a := by
    intro heq
    exact ha (heq ▸ hn)
  exact update_of_ne hne _ _

theorem Lists.alloc (h : Lists s p nodes st) (ha : a ∉ nodes) (x : Int) :
    Lists (s.alloc a x) p nodes st := by
  have hne : ∀ n ∈ nodes, n ≠ a := by
    intro n hn heq
    exact ha (heq ▸ hn)
  refine ⟨h.linked.congr fun n hn => update_of_ne (hne n hn) _ _, h.nodup, fun n hn => ?_, ?_⟩
  · obtain ⟨h0, halloc⟩ := h.known n hn
    exact ⟨h0, (update_of_ne (hne n hn) _ _).trans halloc⟩
  · refine Eq.trans (List.map_congr_left fun n hn => ?_) h.values
    exact update_of_ne (hne n hn) _ _

/-- The node of a `push` goes in front. -/
theorem Lists.link (h : Lists s s.head nodes st) (ha : a ∉ nodes) (h0 : a ≠ 0)
    (halloc : s.allocated a = true) (hnext : s.next a = s.head) :
    Lists (s.link a) a (a :: nodes) (s.data a :: st) := by
  refine ⟨⟨rfl, ?_⟩, List.nodup_cons.mpr ⟨ha, h.nodup⟩, fun n hn => ?_, ?_⟩
  · show Seg s.next (s.next a) nodes 0
    rw [hnext]
    exact h.linked
  · rcases List.mem_cons.mp hn with rfl | hn
    · exact ⟨h0, halloc⟩
    · exact h.known n hn
  · rw [List.map_cons]
    exact congrArg (s.data a :: ·) h.values

/-- A node that is not null holds the top value. -/
theorem Lists.uncons (h : Lists s p nodes st) (hp : p ≠ 0) :
    ∃ rest st', st = s.data p :: st' ∧ p ∉ rest ∧ Lists s (s.next p) rest st' := by
  cases nodes with
  | nil => exact absurd h.linked hp
  | cons b rest =>
      obtain ⟨rfl, hrest⟩ := h.linked
      obtain ⟨hnot, hnodup⟩ := List.nodup_cons.mp h.nodup
      refine ⟨rest, rest.map s.data, h.values.symm, hnot, hrest, hnodup, fun n hn => ?_, rfl⟩
      exact h.known n (List.mem_cons_of_mem _ hn)

theorem isInt_of_eq {n : Int} {k : Nat} (hn : n = k) (hk : k ≤ 2147483647) : IsInt n := by
  rw [IsInt]
  omega

theorem passed_le (s : State) (pc : Pc) : pc.passed s ≤ 5 := by
  cases pc with
  | popExchange node n =>
      rw [Pc.passed]
      split
      · omega
      · omega
  | _ => simp [Pc.passed]

theorem work_of_idle (ht : c.stack.pc 0 = .idle) : c.work = 6 * c.todo.length := by
  rw [Client.work, ht]
  rfl

/-- What a step of the running call leads to: the call goes on, or it is over. -/
def Onward (s s' : State) (st : List Int) (todo : List Op) : Prop :=
  s'.allocated = s.allocated ∧
    ((s'.pc 0 ≠ .idle ∧ Stands s' st todo ∧ (s.pc 0).passed s < (s'.pc 0).passed s') ∨
      (s'.pc 0 = .idle ∧ ∃ op rest st' r, todo = op :: rest ∧ op.ret = some r ∧
        Stands s' st' rest ∧ (IsInt s'.count → serve st op = some (st', r))))

/-- The call goes on at `pc`. -/
theorem onward_setPc {pc : Pc} (hstands : Stands (s'.setPc 0 pc) st todo)
    (halloc : s'.allocated = s.allocated) (hpc : pc ≠ .idle)
    (hlt : (s.pc 0).passed s < pc.passed (s'.setPc 0 pc)) : Onward s (s'.setPc 0 pc) st todo := by
  refine ⟨halloc, Or.inl ⟨?_, hstands, ?_⟩⟩
  · rw [setPc_self]
    exact hpc
  · rw [setPc_self]
    exact hlt

namespace Stands

theorem todo_ne_nil (h : Stands s st todo) (hpc : s.pc 0 ≠ .idle) : todo ≠ [] := by
  cases h with
  | between ht _ _ => exact absurd ht hpc
  | _ => exact List.cons_ne_nil _ _

/-- A failed exchange: of a node that is not linked, or of the head that goes. -/
theorem fail (h : Stands s st todo) (hn : fail s 0 = some s') :
    Stands s' st todo ∧ s'.allocated = s.allocated ∧
      (s.pc 0).passed s ≤ (s'.pc 0).passed s' := by
  have hsame := fail_pc hn
  cases h with
  | @pushExchange st rest nodes x a ht hlists hcount ha h0 halloc hdata hnext =>
      rw [NoLock.fail, ht] at hn
      obtain rfl := Option.some.inj hn
      refine ⟨.pushExchange ht (hlists.setNext ha _) hcount ha h0 halloc hdata setNext_self,
        rfl, ?_⟩
      rw [hsame, ht]
      exact Nat.le_refl 2
  | @popExchange st rest nodes t v n ht hlists hcount hhead =>
      rw [NoLock.fail, ht] at hn
      obtain rfl := Option.some.inj hn
      refine ⟨.popExchange ht (hlists.setNext hhead _) hcount hhead, rfl, ?_⟩
      rw [hsame, ht, Pc.passed, Pc.passed, if_pos setNext_self]
      split
      · exact Nat.le_refl 3
      · exact Nat.le_succ 2
  | between ht | pushNext ht | pushCount ht | pushStore ht | popNext ht | popCount ht
  | popStore ht =>
      rw [NoLock.fail, ht] at hn
      cases hn

/-- A step within a call, or the last one. -/
theorem step (h : Stands s st todo) (hn : step s 0 = some s') : Onward s s' st todo := by
  cases h with
  | between ht _ _ =>
      rw [NoLock.step, ht] at hn
      cases hn
  | @pushNext st rest nodes x a ht hlists hcount ha h0 halloc hdata =>
      rw [NoLock.step, ht] at hn
      obtain rfl := Option.some.inj hn
      have hset := hlists.setNext ha s.head
      refine onward_setPc ?_ rfl Pc.noConfusion ?_
      · exact .pushExchange setPc_self { hset with } hcount ha h0 halloc hdata setNext_self
      · rw [ht]
        exact Nat.lt_succ_self 1
  | @pushExchange st rest nodes x a ht hlists hcount ha h0 halloc hdata hnext =>
      rw [NoLock.step, ht] at hn
      dsimp only at hn
      rw [if_pos hnext.symm] at hn
      obtain rfl := Option.some.inj hn
      subst hdata
      have hlinked := hlists.link ha h0 halloc hnext
      refine onward_setPc (.pushCount setPc_self { hlinked with } hcount) rfl Pc.noConfusion ?_
      rw [ht]
      exact Nat.lt_succ_self 2
  | @pushCount st rest nodes x ht hlists hcount =>
      rw [NoLock.step, ht] at hn
      obtain rfl := Option.some.inj hn
      refine onward_setPc (.pushStore setPc_self { hlists with } hcount) rfl Pc.noConfusion ?_
      rw [ht]
      exact Nat.lt_succ_self 3
  | @pushStore st rest nodes x ht hlists hcount =>
      rw [NoLock.step, ht] at hn
      obtain rfl := Option.some.inj hn
      refine ⟨rfl, Or.inr ⟨setPc_self, .push x, rest, x :: st, .pushed, rfl, rfl, ?_, ?_⟩⟩
      · refine .between setPc_self { hlists with } ?_
        show s.count + 1 = ((st.length + 1 : Nat) : Int)
        omega
      · intro hint
        have hmax : s.count + 1 ≤ 2147483647 := hint.2
        exact if_pos (by omega)
  | @popNext st rest nodes t ht hlists hcount =>
      rw [NoLock.step, ht] at hn
      obtain ⟨h0, hn⟩ := Option.ite_none_left_eq_some.mp hn
      obtain rfl := Option.some.inj hn
      obtain ⟨behind, st', rfl, hnot, hbehind⟩ := hlists.uncons h0
      refine onward_setPc ?_ rfl Pc.noConfusion ?_
      · exact .popExchange setPc_self { hbehind with } hcount hnot
      · rw [ht, Pc.passed, Pc.passed]
        split
        · omega
        · omega
  | @popExchange st rest nodes t v n ht hlists hcount hhead =>
      have hstands : Stands s (v :: st) (.pop t :: rest) := .popExchange ht hlists hcount hhead
      rw [NoLock.step, ht] at hn
      dsimp only at hn
      by_cases hself : s.head = s.next s.head
      · rw [if_pos hself] at hn
        obtain rfl := Option.some.inj hn
        refine onward_setPc (.popCount setPc_self { hlists with } hcount) rfl Pc.noConfusion ?_
        rw [ht, Pc.passed, if_pos hself.symm]
        exact Nat.lt_succ_self 3
      · -- the node becomes its own successor
        rw [if_neg hself] at hn
        obtain ⟨hstands', halloc, -⟩ := hstands.fail hn
        have hpc := fail_pc hn
        rw [NoLock.fail, ht] at hn
        obtain rfl := Option.some.inj hn
        refine ⟨halloc, Or.inl ⟨?_, hstands', ?_⟩⟩
        · rw [hpc, ht]
          exact Pc.noConfusion
        · rw [hpc, ht, Pc.passed, Pc.passed, if_neg fun heq => hself heq.symm, if_pos setNext_self]
          exact Nat.lt_succ_self 2
  | @popCount st rest nodes t v ht hlists hcount =>
      rw [NoLock.step, ht] at hn
      obtain rfl := Option.some.inj hn
      refine onward_setPc (.popStore setPc_self { hlists with } hcount) rfl Pc.noConfusion ?_
      rw [ht]
      exact Nat.lt_succ_self 4
  | @popStore st rest nodes t v ht hlists hcount =>
      rw [NoLock.step, ht] at hn
      obtain rfl := Option.some.inj hn
      refine ⟨rfl, Or.inr ⟨setPc_self, .pop t, rest, st, .popped (some t), rfl, rfl, ?_,
        fun _ => rfl⟩⟩
      refine .between setPc_self { hlists with } ?_
      show s.count - 1 = (st.length : Int)
      omega

/-- Between two calls. -/
theorem idle (h : Stands s st todo) (ht : s.pc 0 = .idle) :
    ∃ nodes, Lists s s.head nodes st ∧ s.count = st.length := by
  cases h with
  | between _ hlists hcount => exact ⟨_, hlists, hcount⟩
  | pushNext ht' | pushExchange ht' | pushCount ht' | pushStore ht' | popNext ht' | popExchange ht'
  | popCount ht' | popStore ht' =>
      rw [ht'] at ht
      cases ht

/-- A call that fits does not get stuck. -/
theorem moves (h : Stands s st (op :: rest)) (ht : s.pc 0 ≠ .idle) (hfits : op.Fits st)
    (hlength : st.length ≤ 2147483647) : ∃ s', NoLock.step s 0 = some s' ∧ IsInt s'.count := by
  cases h with
  | between hidle => exact absurd hidle ht
  | pushNext hpc _ hcount =>
      rw [NoLock.step, hpc]
      exact ⟨_, rfl, isInt_of_eq hcount hlength⟩
  | pushExchange hpc _ hcount _ _ _ _ hnext =>
      rw [NoLock.step, hpc]
      exact ⟨_, if_pos hnext.symm, isInt_of_eq hcount hlength⟩
  | pushCount hpc _ hcount =>
      rw [NoLock.step, hpc]
      exact ⟨_, rfl, isInt_of_eq hcount hlength⟩
  | pushStore hpc _ hcount =>
      have hroom : st.length + 1 ≤ 2147483647 := hfits
      have hnew : s.count + 1 = ((st.length + 1 : Nat) : Int) := by omega
      rw [NoLock.step, hpc]
      exact ⟨_, rfl, isInt_of_eq hnew hroom⟩
  | @popNext _ _ nodes t hpc hlists hcount =>
      have hhead : s.head ≠ 0 := by
        cases nodes with
        | nil =>
            obtain rfl : [] = st := hlists.values
            cases hfits
        | cons a nodes =>
            rw [hlists.linked.1]
            exact (hlists.known a List.mem_cons_self).1
      rw [NoLock.step, hpc]
      exact ⟨_, if_neg hhead, isInt_of_eq hcount hlength⟩
  | popExchange hpc _ hcount =>
      have hint := isInt_of_eq hcount hlength
      rw [NoLock.step, hpc]
      dsimp only
      by_cases hself : s.head = s.next s.head
      · exact ⟨_, if_pos hself, hint⟩
      · rw [if_neg hself, NoLock.fail, hpc]
        exact ⟨_, rfl, hint⟩
  | popCount hpc _ hcount =>
      rw [NoLock.step, hpc]
      exact ⟨_, rfl, isInt_of_eq hcount hlength⟩
  | @popStore st _ _ t v hpc _ hcount =>
      have hnew : s.count - 1 = (st.length : Int) := by omega
      rw [NoLock.step, hpc]
      exact ⟨_, rfl, isInt_of_eq hnew (Nat.le_of_succ_le hlength)⟩

end Stands

/-! ## Runs of the client -/

/-- The calls that have returned were served on the values, and the stack
holds what they left. -/
structure Good (ops : List Op) (c : Client) : Prop where
  served : ∃ done st, ops = done ++ c.todo ∧ serveAll serve [] done = some (st, c.replies) ∧
    Stands c.stack st c.todo
  /-- There always are new addresses. -/
  room : ∃ k, ∀ a, k ≤ a → c.stack.allocated a = false

/-- Only a spurious failure costs nothing. -/
def Label.cost : Label → Nat
  | .spurious => 0
  | _ => 1

theorem Label.cost_eq (l : Label) : l.cost = if decide (l ≠ .spurious) = true then 1 else 0 := by
  cases l with
  | call newnode => rfl
  | step => rfl
  | spurious => rfl

namespace Good

variable (h : Good ops c)
include h

/-- The call at the head of `todo` has returned. -/
theorem returned {done : List Op} {st st' : List Int} {r : Reply} (hops : ops = done ++ c.todo)
    (htodo : c.todo = op :: rest) (hserved : serveAll serve [] done = some (st, c.replies))
    (hop : serve st op = some (st', r)) (hstands : Stands s' st' rest)
    (halloc : s'.allocated = c.stack.allocated) : Good ops ⟨s', rest, c.replies ++ [r]⟩ := by
  refine ⟨⟨done ++ [op], st', ?_, serveAll_concat hserved hop, hstands⟩, ?_⟩
  · rw [hops, htodo, List.append_assoc]
    rfl
  · rw [halloc]
    exact h.room

/-- A call begins, or `size` is served. -/
theorem call {newnode : Addr} (hn : clientNext c (.call newnode) = some c') :
    Good ops c' ∧ c'.work + 1 ≤ c.work := by
  obtain ⟨done, st, hops, hserved, hstands⟩ := h.served
  obtain ⟨k, hk⟩ := h.room
  obtain ⟨s, todo, replies⟩ := c
  cases todo with
  | nil => cases hn
  | cons op rest =>
      cases op with
      | push x =>
          obtain ⟨s', hs', rfl⟩ := Option.map_eq_some_iff.mp hn
          simp only [next, Option.ite_none_right_eq_some, Option.some.injEq] at hs'
          obtain ⟨⟨ht, h0, hfree⟩, rfl⟩ := hs'
          obtain ⟨nodes, hlists, hcount⟩ := hstands.idle ht
          have hnot : newnode ∉ nodes := by
            intro hmem
            have hused := (hlists.known newnode hmem).2
            rw [hfree] at hused
            cases hused
          refine ⟨⟨⟨done, st, hops, hserved, ?_⟩, ⟨max k (newnode + 1), fun a ha => ?_⟩⟩, ?_⟩
          · have hkeep := hlists.alloc hnot x
            exact .pushNext setPc_self { hkeep with } hcount hnot h0 (update_self ..)
              (update_self ..)
          · have hne : a ≠ newnode := by
              intro heq
              subst heq
              exact Nat.not_succ_le_self a ((Nat.le_max_right k (a + 1)).trans ha)
            exact (update_of_ne hne _ _).trans (hk a ((Nat.le_max_left _ _).trans ha))
          · have hold : Client.work ⟨s, .push x :: rest, replies⟩ = 6 * (rest.length + 1) :=
              work_of_idle ht
            rw [hold, Client.work, setPc_self, Pc.passed, List.length_cons]
            omega
      | pop t =>
          obtain ⟨s', hs', rfl⟩ := Option.map_eq_some_iff.mp hn
          simp only [next, Option.ite_none_right_eq_some, Option.some.injEq] at hs'
          obtain ⟨ht, rfl⟩ := hs'
          obtain ⟨nodes, hlists, hcount⟩ := hstands.idle ht
          refine ⟨⟨⟨done, st, hops, hserved, ?_⟩, ⟨k, hk⟩⟩, ?_⟩
          · exact .popNext setPc_self { hlists with } hcount
          · have hold : Client.work ⟨s, .pop t :: rest, replies⟩ = 6 * (rest.length + 1) :=
              work_of_idle ht
            rw [hold, Client.work, setPc_self, Pc.passed, List.length_cons]
            omega
      | size =>
          obtain ⟨ht, hn⟩ := Option.ite_none_right_eq_some.mp hn
          obtain ⟨n, hsize, rfl⟩ := Option.map_eq_some_iff.mp hn
          obtain ⟨nodes, hlists, hcount⟩ := hstands.idle ht
          rw [size, Option.ite_none_right_eq_some, Option.some.injEq] at hsize
          obtain ⟨-, rfl⟩ := hsize
          refine ⟨h.returned hops rfl hserved ?_ (.between ht hlists hcount) rfl, ?_⟩
          · dsimp only
            rw [hcount]
            rfl
          · have hold : Client.work ⟨s, .size :: rest, replies⟩ = 6 * (rest.length + 1) :=
              work_of_idle ht
            have hnew : Client.work ⟨s, rest, replies ++ [.size s.count]⟩ = 6 * rest.length :=
              work_of_idle ht
            rw [hold, hnew]
            omega

/-- A step of the running call. -/
theorem move (hn : clientNext c .step = some c') : Good ops c' ∧ c'.work + 1 ≤ c.work := by
  obtain ⟨done, st, hops, hserved, hstands⟩ := h.served
  obtain ⟨s', hs', hmove⟩ := Option.bind_eq_some_iff.mp hn
  rw [Client.move, Option.ite_none_right_eq_some] at hmove
  obtain ⟨hint, hmove⟩ := hmove
  have hle := passed_le c.stack (c.stack.pc 0)
  have hle' := passed_le s' (s'.pc 0)
  obtain ⟨halloc, ⟨hpc, hstands', hlt⟩ | ⟨hpc, op, rest, st', r, htodo, hret, hstands', hop⟩⟩ :=
    hstands.step hs'
  · rw [if_neg hpc, Option.some.injEq] at hmove
    subst hmove
    refine ⟨⟨⟨done, st, hops, hserved, hstands'⟩, ?_⟩, ?_⟩
    · show ∃ k, ∀ a, k ≤ a → s'.allocated a = false
      rw [halloc]
      exact h.room
    · have hpos := List.length_pos_of_ne_nil (hstands'.todo_ne_nil hpc)
      simp only [Client.work]
      omega
  · rw [if_pos hpc, htodo] at hmove
    dsimp only at hmove
    rw [hret, Option.map_some, Option.some.injEq] at hmove
    subst hmove
    refine ⟨h.returned hops htodo hserved (hop hint) hstands' halloc, ?_⟩
    have hnew : Client.work ⟨s', rest, c.replies ++ [r]⟩ = 6 * rest.length := work_of_idle hpc
    rw [hnew, Client.work, htodo, List.length_cons]
    omega

/-- A spurious failure. -/
theorem spurious (hn : clientNext c .spurious = some c') : Good ops c' ∧ c'.work ≤ c.work := by
  obtain ⟨done, st, hops, hserved, hstands⟩ := h.served
  obtain ⟨s', hs', rfl⟩ := Option.map_eq_some_iff.mp hn
  obtain ⟨hstands', halloc, hle⟩ := hstands.fail hs'
  refine ⟨⟨⟨done, st, hops, hserved, hstands'⟩, ?_⟩, ?_⟩
  · show ∃ k, ∀ a, k ≤ a → s'.allocated a = false
    rw [halloc]
    exact h.room
  · simp only [Client.work]
    omega

theorem step (hn : clientNext c l = some c') : Good ops c' ∧ c'.work + l.cost ≤ c.work := by
  cases l with
  | call newnode => exact h.call hn
  | step => exact h.move hn
  | spurious => exact h.spurious hn

/-- A run that is not kept going by spurious failures comes to an end. -/
theorem run {labels : List Label} (hrun : (client ops).run c labels = some c') :
    c'.work + labels.countP (fun l => decide (l ≠ .spurious)) ≤ c.work := by
  induction labels generalizing c with
  | nil =>
      obtain rfl := Option.some.inj hrun
      exact Nat.le_refl _
  | cons l labels ih =>
      obtain ⟨c1, hn, hrun⟩ := Option.bind_eq_some_iff.mp hrun
      obtain ⟨h1, hwork⟩ := h.step hn
      have hrest := ih h1 hrun
      have hcount := List.countP_cons (p := fun l => decide (l ≠ .spurious)) (a := l) (l := labels)
      rw [← Label.cost_eq] at hcount
      omega

/-- If the next call fits, the run goes on. -/
theorem goesOn {done : List Op} {st : List Int}
    (hserved : serveAll serve [] done = some (st, c.replies)) (hstands : Stands c.stack st c.todo)
    (htodo : c.todo = op :: rest) (hfits : op.Fits st) :
    ∃ l c', l ≠ .spurious ∧ clientNext c l = some c' := by
  have hlength : st.length ≤ 2147483647 :=
    serveAll_invariant (P := fun st => st.length ≤ 2147483647) serve_length hserved
      (Nat.zero_le _)
  by_cases ht : c.stack.pc 0 = .idle
  · obtain ⟨nodes, hlists, hcount⟩ := hstands.idle ht
    obtain ⟨k, hk⟩ := h.room
    obtain ⟨s, todo, replies⟩ := c
    obtain rfl : todo = op :: rest := htodo
    have ht : s.pc 0 = .idle := ht
    cases op with
    | push x =>
        have hcall : next s (.push 0 x (k + 1))
            = some ((s.alloc (k + 1) x).setPc 0 (.pushNext (k + 1))) :=
          if_pos ⟨ht, Nat.succ_ne_zero k, hk _ (Nat.le_succ k)⟩
        have hstep : clientNext ⟨s, .push x :: rest, replies⟩ (.call (k + 1))
            = some ⟨(s.alloc (k + 1) x).setPc 0 (.pushNext (k + 1)), .push x :: rest, replies⟩ := by
          rw [clientNext]
          dsimp only
          rw [hcall]
          rfl
        exact ⟨.call (k + 1), _, by simp, hstep⟩
    | pop t =>
        have hcall : next s (.pop 0) = some (s.setPc 0 (.popNext s.head)) := if_pos ht
        have hstep : clientNext ⟨s, .pop t :: rest, replies⟩ (.call k)
            = some ⟨s.setPc 0 (.popNext s.head), .pop t :: rest, replies⟩ := by
          rw [clientNext]
          dsimp only
          rw [hcall]
          rfl
        exact ⟨.call k, _, by simp, hstep⟩
    | size =>
        have hint : IsInt s.count := isInt_of_eq hcount hlength
        refine ⟨.call k, ⟨s, rest, replies ++ [.size s.count]⟩, by simp, ?_⟩
        rw [clientNext]
        dsimp only
        rw [if_pos ht, size, if_pos hint]
        rfl
  · rw [htodo] at hstands
    obtain ⟨s', hs', hint⟩ := hstands.moves ht hfits hlength
    have hmove : clientNext c .step = c.move s' := by
      rw [clientNext, show next c.stack (.step 0) = some s' from hs']
      rfl
    rw [Client.move, if_pos hint] at hmove
    obtain ⟨-, ⟨hpc, -, -⟩ | ⟨hpc, op', rest', st', r, htodo', hret, -, -⟩⟩ := hstands.step hs'
    · rw [if_neg hpc] at hmove
      exact ⟨.step, _, by simp, hmove⟩
    · rw [if_pos hpc, htodo, htodo'] at hmove
      dsimp only at hmove
      rw [hret] at hmove
      exact ⟨.step, _, by simp, hmove⟩

end Good

theorem good_start (ops : List Op) : Good ops ⟨empty, ops, []⟩ where
  served := by
    have hempty : Lists empty empty.head [] [] := ⟨rfl, List.nodup_nil, by simp, rfl⟩
    exact ⟨[], [], rfl, rfl, .between rfl hempty rfl⟩
  room := ⟨0, fun _ _ => rfl⟩

theorem good_of_reachable (hc : (client ops).Reachable c) : Good ops c := by
  have hinv : (client ops).Inductive (fun _ _ => True) (Good ops) := by
    constructor
    · intro c hc
      obtain rfl : c = ⟨empty, ops, []⟩ := hc
      exact good_start ops
    · intro c l c' h _ hn
      exact (h.step hn).1
  exact hinv.invariant c hc

/-- If nothing gets stuck, all calls return. -/
theorem IsStack.all_return (hstack : IsStack ops) (hc : (client ops).Reachable c) :
    ∃ c', (client ops).Reachable c' ∧ c'.todo = [] := by
  induction hwork : c.work using Nat.strong_induction_on generalizing c with
  | h n ih =>
      by_cases htodo : c.todo = []
      · exact ⟨c, hc, htodo⟩
      · obtain ⟨l, c', hl, hn⟩ := hstack.goesOn c hc htodo
        have hless := ((good_of_reachable hc).step hn).2
        rw [Label.cost_eq, if_pos (decide_eq_true hl)] at hless
        exact ih c'.work (by omega) (TSys.Reachable.step hc hn) rfl

/-- **In one thread.** The sequence is served like by a stack exactly if no
`pop` meets an empty stack, every `pop` is given a variable that already holds
the value to be popped, and the stack never holds more values than an `int` can
count. -/
theorem sequential_iff (ops : List Op) : IsStack ops ↔ Fits [] ops := by
  constructor
  · intro hstack
    obtain ⟨c, hc, htodo⟩ := hstack.all_return (.init rfl)
    obtain ⟨done, st, hops, hserved, -⟩ := (good_of_reachable hc).served
    rw [htodo, List.append_nil] at hops
    subst hops
    exact fits_iff.mpr (agrees_of_answers serve_state hserved (hstack.replies c hc))
  · intro hfits
    refine ⟨fun c hc => ?_, fun c hc htodo => ?_, ⟨6 * ops.length, fun labels c hrun => ?_⟩⟩
    · obtain ⟨done, st, hops, hserved, -⟩ := (good_of_reachable hc).served
      subst hops
      obtain ⟨st', hdone, -⟩ := (fits_iff.mp hfits).served
      obtain ⟨-, hreplies⟩ := Prod.mk.inj (Option.some.inj (hserved.symm.trans hdone))
      rw [hreplies]
      exact answers_prefix _ _ _
    · have hgood := good_of_reachable hc
      obtain ⟨done, st, hops, hserved, hstands⟩ := hgood.served
      obtain ⟨op, rest, hcons⟩ := List.exists_cons_of_ne_nil htodo
      rw [hops, hcons] at hfits
      obtain ⟨st', hdone, hrest⟩ := (fits_iff.mp hfits).served
      obtain ⟨rfl, -⟩ := Prod.mk.inj (Option.some.inj (hserved.symm.trans hdone))
      exact hgood.goesOn hserved hstands hcons (fits_iff.mpr hrest).1
    · exact Nat.le_trans (Nat.le_add_left _ _) ((good_start ops).run hrun)

/-- The variable of the caller holds 0 after the `pop` of 7, and a `pop` on the
empty stack goes no further than `node->next`. -/
theorem pop_keeps_variable : ¬ IsStack [.push 7, .pop 0] ∧ ¬ IsStack [.pop 0] := by
  constructor
  · intro hstack
    have hrun : ((client [.push 7, .pop 0]).run ⟨empty, [.push 7, .pop 0], []⟩
        ([.call 1] ++ List.replicate 4 .step ++ .call 2 :: List.replicate 5 .step)).any
        (fun c => decide (c.replies = [.pushed, .popped (some 0)])) = true := by
      decide +kernel
    obtain ⟨c, hc, hview⟩ := (Option.any_eq_true _ _).mp hrun
    have hreplies := hstack.replies c (TSys.Reachable.run (.init rfl) hc)
    rw [of_decide_eq_true hview] at hreplies
    revert hreplies
    decide
  · intro hstack
    have hrun : (client [.pop 0]).run ⟨empty, [.pop 0], []⟩ [.call 1]
        = some ⟨empty.setPc 0 (.popNext 0), [.pop 0], []⟩ := rfl
    obtain ⟨l, c', -, hn⟩ := hstack.goesOn _ (TSys.Reachable.run (.init rfl) hrun)
      (List.cons_ne_nil _ _)
    cases l with
    | call newnode => cases hn
    | step => cases hn
    | spurious => cases hn

end Os377.NoLock
