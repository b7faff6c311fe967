import Os377.Lib.Links
import Os377.NoLock.Stack
import Mathlib.Data.List.Perm.Basic

/-!
# No node is lost

`pop` compares the head with `node->next` where it should compare it with
`node`, and a failed comparison overwrites `node->next`. Nothing is lost as long
as no `pop` replaces a head that is not its node, and no `pop` reads a `next`
that another one has overwritten. The invariant is a list, the stack as the
pushes linked it: the real `next` of a node differs from it only while a `pop`
is at work on the node.
-/

namespace Os377.NoLock

open Os377.Lib Function

variable {s s' : State} {t : Nat} {a : Addr} {chain : List Addr}

/-- The nodes from `head` form a finite chain without cycle, and every node is
on the chain or was unlinked by exactly one `pop`. -/
def Accounted (s : State) : Prop :=
  ∃ chain, Seg s.next s.head chain 0 ∧ 0 ∉ chain ∧ chain.Nodup ∧
    s.pushed.Nodup ∧ s.pushed.Perm (chain ++ s.popped) ∧
    ∀ a, s.allocated a = true → a ∈ s.pushed

/-- A `pop` that replaces the head replaces its own node, and a `pop` that
reads `node->next` finds what `push` stored there. -/
def Pc.Intact (s : State) : Pc → Prop
  | .popNext node => s.next node = s.linked node
  | .popExchange node _ => s.head = s.next node → s.head = node
  | _ => True

def Intact (s : State) : Act → Prop
  | .step t => (s.pc t).Intact s
  | _ => True

/-- A `pop` starts on a stack that is not empty, and does not empty it. -/
def Pc.Legal (s : State) : Pc → Prop
  | .popExchange node n => s.head = s.next node → n ≠ 0
  | _ => True

def Legal (s : State) : Act → Prop
  | .pop _ => s.head ≠ 0
  | .step t => (s.pc t).Legal s
  | _ => True

instance (s : State) : (pc : Pc) → Decidable (pc.Intact s)
  | .popNext _ => inferInstanceAs (Decidable (_ = _))
  | .popExchange _ _ => inferInstanceAs (Decidable (_ = _ → _ = _))
  | .idle | .pushNext _ | .pushExchange _ | .pushCount | .pushStore _ | .popCount
  | .popStore _ => inferInstanceAs (Decidable True)

instance (s : State) : (a : Act) → Decidable (Intact s a)
  | .step t => inferInstanceAs (Decidable ((s.pc t).Intact s))
  | .push _ _ _ | .pop _ | .spurious _ => inferInstanceAs (Decidable True)

instance (s : State) : (pc : Pc) → Decidable (pc.Legal s)
  | .popExchange _ _ => inferInstanceAs (Decidable (_ = _ → _ ≠ _))
  | .popNext _ | .idle | .pushNext _ | .pushExchange _ | .pushCount | .pushStore _ | .popCount
  | .popStore _ => inferInstanceAs (Decidable True)

instance (s : State) : (a : Act) → Decidable (Legal s a)
  | .pop _ => inferInstanceAs (Decidable (_ ≠ _))
  | .step t => inferInstanceAs (Decidable ((s.pc t).Legal s))
  | .push _ _ _ | .spurious _ => inferInstanceAs (Decidable True)

/-- The node a `push` has not linked yet. -/
def Pc.private : Pc → Option Addr
  | .pushNext newnode | .pushExchange newnode => some newnode
  | _ => none

/-- The node a `pop` is at work on. -/
def Pc.node : Pc → Option Addr
  | .popNext node | .popExchange node _ => some node
  | _ => none

/-- A node not yet linked is not one of the `shared` ones, and known to one
thread only. -/
structure Privates (s : State) (shared : List Addr) : Prop where
  fresh : ∀ t a, (s.pc t).private = some a → a ∉ shared ∧ a ≠ 0 ∧ s.allocated a = true
  single : ∀ t t' a, (s.pc t).private = some a → (s.pc t').private = some a → t = t'

/-- The invariant; `chain` is the stack as the pushes linked it. -/
structure Inv (s : State) (chain : List Addr) : Prop where
  linked : Seg s.linked s.head chain 0
  nodup : s.pushed.Nodup
  perm : s.pushed.Perm (chain ++ s.popped)
  pushed : ∀ a ∈ s.pushed, a ≠ 0 ∧ s.allocated a = true
  /-- A node not yet linked is known to one thread only. -/
  fresh : ∀ t a, (s.pc t).private = some a → a ∉ s.pushed ∧ a ≠ 0 ∧ s.allocated a = true
  single : ∀ t t' a, (s.pc t).private = some a → (s.pc t').private = some a → t = t'
  every : ∀ a, s.allocated a = true → a ∈ s.pushed ∨ ∃ t, (s.pc t).private = some a
  /-- Only a `pop` in front of its exchange has overwritten a `next`. -/
  clean : ∀ a ∈ chain, s.next a = s.linked a ∨ ∃ t n, s.pc t = .popExchange a n
  node : ∀ t a, (s.pc t).node = some a → a = 0 ∨ a ∈ s.pushed
  saved : ∀ t a n, s.pc t = .popExchange a n → a ≠ 0 ∧ (a ∈ chain → n = s.linked a)

section Moves

variable {pc : Pc} {t' : Nat} {n : Addr}

/-- A thread with a new node in its hands has not just put it down. -/
theorem private_of_setPc (hpc : pc.private = none)
    (ha : ((s.setPc t pc).pc t').private = some a) : t' ≠ t ∧ (s.pc t').private = some a := by
  rcases setPc_cases s t pc t' with ⟨hne, he⟩ | ⟨-, he⟩
  · exact ⟨hne, he ▸ ha⟩
  · rw [he, hpc] at ha
    cases ha

/-- A thread at work on a node was at work on it before another one moved. -/
theorem node_of_setPc (hpc : pc.node = none) (ha : ((s.setPc t pc).pc t').node = some a) :
    (s.pc t').node = some a := by
  rcases setPc_cases s t pc t' with ⟨-, he⟩ | ⟨-, he⟩
  · exact he ▸ ha
  · rw [he, hpc] at ha
    cases ha

theorem popExchange_of_setPc (hpc : pc.node = none)
    (ha : (s.setPc t pc).pc t' = .popExchange a n) : s.pc t' = .popExchange a n := by
  rcases setPc_cases s t pc t' with ⟨-, he⟩ | ⟨-, he⟩
  · exact he.symm.trans ha
  · rw [← he, ha] at hpc
    cases hpc

end Moves

namespace Privates

variable {shared : List Addr} {pc : Pc} (h : Privates s shared)
include h

/-- Thread `t` goes on, with the same new node in its hands. -/
theorem setPc (hpc : pc.private = (s.pc t).private) : Privates (s.setPc t pc) shared := by
  have hsame : ∀ t', ((s.setPc t pc).pc t').private = (s.pc t').private := by
    intro t'
    rcases setPc_cases s t pc t' with ⟨-, he⟩ | ⟨ht, he⟩
    · rw [he]
    · rw [he, hpc, ht]
  constructor
  · intro t' a ha
    exact h.fresh t' a ((hsame t').symm.trans ha)
  · intro t1 t2 a h1 h2
    exact h.single t1 t2 a ((hsame t1).symm.trans h1) ((hsame t2).symm.trans h2)

/-- `push` begins: a node nobody knows. -/
theorem push (hshared : ∀ x ∈ shared, s.allocated x = true) (data : Int) (h0 : a ≠ 0)
    (ha : s.allocated a = false) : Privates ((s.alloc a data).setPc t (.pushNext a)) shared := by
  have hne : ∀ x, s.allocated x = true → x ≠ a := by
    intro x hx heq
    rw [heq, ha] at hx
    cases hx
  have hother : ∀ t', (s.pc t').private ≠ some a := fun t' hp =>
    hne a (h.fresh t' a hp).2.2 rfl
  have hpc := setPc_cases (s.alloc a data) t (.pushNext a)
  constructor
  · intro t' x hx
    rcases hpc t' with ⟨-, he⟩ | ⟨-, he⟩
    · rw [he] at hx
      obtain ⟨h1, h2, h3⟩ := h.fresh t' x hx
      exact ⟨h1, h2, (update_of_ne (hne x h3) _ _).trans h3⟩
    · rw [he] at hx
      obtain rfl : a = x := Option.some.inj hx
      exact ⟨fun hmem => hne a (hshared a hmem) rfl, h0, update_self ..⟩
  · intro t1 t2 x h1 h2
    rcases hpc t1 with ⟨-, e1⟩ | ⟨e1, e1'⟩ <;> rcases hpc t2 with ⟨-, e2⟩ | ⟨e2, e2'⟩
    · exact h.single t1 t2 x (e1 ▸ h1) (e2 ▸ h2)
    · rw [e2'] at h2
      exact absurd (e1 ▸ h1) (Option.some.inj h2 ▸ hother t1)
    · rw [e1'] at h1
      exact absurd (e2 ▸ h2) (Option.some.inj h1 ▸ hother t2)
    · rw [e1, e2]

/-- `push` makes its node the head, and shares it. -/
theorem link (ht : (s.pc t).private = some a) (hpc : pc.private = none) :
    Privates ((s.link a).setPc t pc) (a :: shared) := by
  constructor
  · intro t' x hx
    obtain ⟨hne, hx⟩ := private_of_setPc (s := s.link a) hpc hx
    obtain ⟨h1, h2, h3⟩ := h.fresh t' x hx
    refine ⟨fun hmem => ?_, h2, h3⟩
    rcases List.mem_cons.mp hmem with rfl | hmem
    · exact hne (h.single t' t x hx ht)
    · exact h1 hmem
  · intro t1 t2 x h1 h2
    exact h.single t1 t2 x (private_of_setPc (s := s.link a) hpc h1).2
      (private_of_setPc (s := s.link a) hpc h2).2

end Privates

namespace Inv

variable (h : Inv s chain)
include h

theorem mem_pushed (ha : a ∈ chain) : a ∈ s.pushed :=
  h.perm.mem_iff.mpr (List.mem_append_left _ ha)

theorem privates : Privates s s.pushed := ⟨h.fresh, h.single⟩

/-- The head is null or on the chain. -/
theorem head_mem : s.head = 0 ∨ s.head ∈ chain := by
  cases chain with
  | nil => exact Or.inl h.linked
  | cons b rest => exact Or.inr (by rw [h.linked.1]; exact List.mem_cons_self)

/-- A node stays clean, or at the exchange of a `pop`, when a thread moves that is not
at the exchange of this node. -/
theorem clean_setPc (ha : a ∈ chain) (hleave : ∀ n, s.pc t ≠ .popExchange a n) (pc : Pc) :
    s.next a = s.linked a ∨ ∃ t' n, (s.setPc t pc).pc t' = .popExchange a n := by
  rcases h.clean a ha with heq | ⟨t', n, ht'⟩
  · exact Or.inl heq
  · have hne : t' ≠ t := by
      intro htt
      exact hleave n (htt ▸ ht')
    exact Or.inr ⟨t', n, (setPc_of_ne hne).trans ht'⟩

/-- Thread `t` goes on, with the same new node in its hands. -/
theorem setPc {pc : Pc} (hprivate : pc.private = (s.pc t).private)
    (hnode : ∀ a, pc.node = some a → a = 0 ∨ a ∈ s.pushed)
    (hsaved : ∀ a n, pc = .popExchange a n → a ≠ 0 ∧ (a ∈ chain → n = s.linked a))
    (hleave : ∀ a n, s.pc t = .popExchange a n → a ∉ chain) : Inv (s.setPc t pc) chain := by
  have hnew := h.privates.setPc hprivate
  refine { h with
    fresh := hnew.fresh, single := hnew.single, every := ?_, clean := ?_, node := ?_, saved := ?_ }
  · intro a ha
    rcases h.every a ha with hp | ⟨t', ht'⟩
    · exact Or.inl hp
    · refine Or.inr ⟨t', ?_⟩
      rcases setPc_cases s t pc t' with ⟨-, he⟩ | ⟨htt, he⟩
      · rw [he]
        exact ht'
      · rw [he, hprivate, ← htt]
        exact ht'
  · exact fun a ha => h.clean_setPc ha (fun n ht => hleave a n ht ha) pc
  · intro t' a ha
    by_cases ht : t' = t
    · rw [ht, setPc_self] at ha
      exact hnode a ha
    · rw [setPc_of_ne ht] at ha
      exact h.node t' a ha
  · intro t' a n ha
    by_cases ht : t' = t
    · rw [ht, setPc_self] at ha
      exact hsaved a n ha
    · rw [setPc_of_ne ht] at ha
      exact h.saved t' a n ha

/-- Thread `t` leaves `push` or `pop`, or moves on to `count`. -/
theorem setPc_count {pc : Pc} (hold : (s.pc t).private = none ∧ (s.pc t).node = none)
    (hnew : pc.private = none ∧ pc.node = none) : Inv (s.setPc t pc) chain := by
  refine h.setPc (hnew.1.trans hold.1.symm) (fun a ha => ?_) (fun a n ha => ?_) fun a n ha => ?_
  · rw [hnew.2] at ha
    cases ha
  · rw [ha] at hnew
    cases hnew.2
  · rw [ha] at hold
    cases hold.2

omit h in
/-- The counter does not matter. -/
theorem setCount (h : Inv s chain) (c : Int) : Inv { s with count := c } chain := { h with }

/-- The counter is stored, and the call is over. -/
theorem storeCount (hold : (s.pc t).private = none ∧ (s.pc t).node = none) (c : Int) :
    Inv ({ s with count := c }.setPc t .idle) chain := by
  have hcount := h.setCount c
  exact hcount.setPc_count hold ⟨rfl, rfl⟩

/-- A node that is not linked yet may point anywhere. -/
theorem setNext_private (ha : (s.pc t).private = some a) (b : Addr) :
    Inv (s.setNext a b) chain := by
  refine { h with clean := fun x hx => ?_ }
  have hne : x ≠ a := by
    intro heq
    subst heq
    exact (h.fresh t x ha).1 (h.mem_pushed hx)
  show update s.next a b x = s.linked x ∨ _
  rw [update_of_ne hne]
  exact h.clean x hx

/-- So may a node a `pop` is about to exchange. -/
theorem setNext_node {n : Addr} (ht : s.pc t = .popExchange a n) (b : Addr) :
    Inv (s.setNext a b) chain := by
  refine { h with clean := fun x hx => ?_ }
  by_cases hxa : x = a
  · exact Or.inr ⟨t, n, hxa ▸ ht⟩
  · show update s.next a b x = s.linked x ∨ _
    rw [update_of_ne hxa]
    exact h.clean x hx

/-- A failed exchange. -/
theorem fail (hn : fail s t = some s') : Inv s' chain := by
  unfold NoLock.fail at hn
  split at hn
  · next newnode ht =>
      rw [Option.some.injEq] at hn
      exact hn ▸ h.setNext_private (t := t) (by rw [ht]; rfl) s.head
  · next node n ht =>
      rw [Option.some.injEq] at hn
      exact hn ▸ h.setNext_node ht s.head
  · cases hn

/-- `push` begins: a node nobody knows. -/
theorem push (data : Int) (ht : s.pc t = .idle) (h0 : a ≠ 0) (ha : s.allocated a = false) :
    Inv ((s.alloc a data).setPc t (.pushNext a)) chain := by
  have hne : ∀ x, s.allocated x = true → x ≠ a := by
    intro x hx heq
    rw [heq, ha] at hx
    cases hx
  have hkeep : ∀ x, s.allocated x = true → update s.allocated a true x = true := fun x hx =>
    (update_of_ne (hne x hx) _ _).trans hx
  have hnew := h.privates.push (t := t) (fun x hx => (h.pushed x hx).2) data h0 ha
  refine ⟨h.linked, h.nodup, h.perm, fun x hx => ?_, hnew.fresh, hnew.single,
    fun x hx => ?_, fun x hx => ?_, fun t' x hx => ?_, fun t' x n hx => ?_⟩
  · exact ⟨(h.pushed x hx).1, hkeep x (h.pushed x hx).2⟩
  · by_cases hxa : x = a
    · exact Or.inr ⟨t, by rw [hxa, setPc_self]; rfl⟩
    · have hx' : update s.allocated a true x = true := hx
      rw [update_of_ne hxa] at hx'
      rcases h.every x hx' with hp | ⟨t', ht'⟩
      · exact Or.inl hp
      · have hmoved : t' ≠ t := by
          intro heq
          subst heq
          rw [ht] at ht'
          cases ht'
        exact Or.inr ⟨t', by rw [setPc_of_ne hmoved]; exact ht'⟩
  · have hxa : x ≠ a := hne x (h.pushed x (h.mem_pushed hx)).2
    show update s.next a 0 x = s.linked x ∨ _
    rw [update_of_ne hxa]
    exact h.clean_setPc hx (by simp [ht]) _
  · exact h.node t' x (node_of_setPc (s := s.alloc a data) rfl hx)
  · exact h.saved t' x n (popExchange_of_setPc (s := s.alloc a data) rfl hx)

/-- `push` makes its node the head. -/
theorem link (ht : s.pc t = .pushExchange a) (heq : s.head = s.next a) :
    Inv ((s.link a).setPc t .pushCount) (a :: chain) := by
  have hpriv : (s.pc t).private = some a := by rw [ht]; rfl
  obtain ⟨hnew, h0, halloc⟩ := h.fresh t a hpriv
  have hchain : ∀ x ∈ chain, x ≠ a := by
    rintro x hx rfl
    exact hnew (h.mem_pushed hx)
  have hlink : ∀ x, x ≠ a → update s.linked a (s.next a) x = s.linked x := fun x hx =>
    update_of_ne hx _ _
  have hshared : Privates ((s.link a).setPc t .pushCount) (a :: s.pushed) :=
    h.privates.link hpriv rfl
  refine ⟨⟨rfl, ?_⟩, ?_, ?_, ?_, hshared.fresh, hshared.single, fun x hx => ?_,
    fun x hx => ?_, fun t' x hx => ?_, fun t' x n hx => ?_⟩
  · have hself : ((s.link a).setPc t .pushCount).linked a = s.head :=
      (update_self ..).trans heq.symm
    rw [hself]
    exact h.linked.congr fun x hx => hlink x (hchain x hx)
  · exact List.nodup_cons.mpr ⟨hnew, h.nodup⟩
  · exact h.perm.cons a
  · intro x hx
    rcases List.mem_cons.mp hx with rfl | hx
    · exact ⟨h0, halloc⟩
    · exact h.pushed x hx
  · rcases h.every x hx with hp | ⟨t', ht'⟩
    · exact Or.inl (List.mem_cons_of_mem _ hp)
    · by_cases htt : t' = t
      · rw [htt, hpriv] at ht'
        exact Or.inl (Option.some.inj ht' ▸ List.mem_cons_self)
      · exact Or.inr ⟨t', by rw [setPc_of_ne htt]; exact ht'⟩
  · show s.next x = update s.linked a (s.next a) x ∨ _
    rcases List.mem_cons.mp hx with rfl | hx
    · exact Or.inl (by rw [update_self])
    · rw [hlink x (hchain x hx)]
      exact h.clean_setPc hx (by simp [ht]) _
  · exact (h.node t' x (node_of_setPc (s := s.link a) rfl hx)).imp_right
      fun hp => List.mem_cons_of_mem _ hp
  · have hold : s.pc t' = .popExchange x n := popExchange_of_setPc (s := s.link a) rfl hx
    -- the new node is not one a `pop` knows
    have hxa : x ≠ a := by
      intro heq
      subst heq
      exact (h.node t' x (by rw [hold]; rfl)).elim h0 hnew
    obtain ⟨hne, hn⟩ := h.saved t' x n hold
    refine ⟨hne, fun hmem => ?_⟩
    show n = update s.linked a (s.next a) x
    rw [hlink x hxa]
    exact hn ((List.mem_cons.mp hmem).resolve_left hxa)

/-- `pop` replaces its own node. -/
theorem unlink {n : Addr} (ht : s.pc t = .popExchange a n) (heq : s.head = a) :
    ∃ rest, chain = a :: rest ∧ Inv ((s.unlink a n).setPc t .popCount) rest := by
  obtain ⟨h0, hn⟩ := h.saved t a n ht
  cases chain with
  | nil => exact absurd (heq.symm.trans h.linked) h0
  | cons b rest =>
      obtain ⟨hb, hrest⟩ := h.linked
      obtain rfl : b = a := hb.symm.trans heq
      have hnodup := h.perm.nodup h.nodup
      have hnot : b ∉ rest := (List.nodup_cons.mp (List.nodup_append.mp hnodup).1).1
      refine ⟨rest, rfl, ?_⟩
      have hmoved : Inv (s.unlink b n) rest := by
        refine { h with linked := ?_, perm := ?_, clean := ?_, saved := ?_ }
        · show Seg s.linked n rest 0
          rw [hn List.mem_cons_self]
          exact hrest
        · exact h.perm.trans List.perm_middle.symm
        · exact fun x hx => h.clean x (List.mem_cons_of_mem _ hx)
        · intro t' x m hx
          obtain ⟨h1, h2⟩ := h.saved t' x m hx
          exact ⟨h1, fun hmem => h2 (List.mem_cons_of_mem _ hmem)⟩
      refine hmoved.setPc ?_ (by simp [Pc.node]) (by simp) fun x m hx => ?_
      · show Pc.private .popCount = (s.pc t).private
        rw [ht]
        rfl
      · have hxb : x = b := by
          have := ht.symm.trans hx
          simp only [Pc.popExchange.injEq] at this
          exact this.1.symm
        rwa [hxb]

end Inv

/-! ## Along runs -/

/-- One intact step. -/
theorem inv_step {c : Act} (h : Inv s chain) (hc : Intact s c) (hn : next s c = some s') :
    ∃ chain', Inv s' chain' := by
  cases c with
  | push t data newnode =>
      simp only [next, Option.ite_none_right_eq_some, Option.some.injEq] at hn
      obtain ⟨⟨ht, h0, ha⟩, rfl⟩ := hn
      exact ⟨chain, h.push data ht h0 ha⟩
  | pop t =>
      simp only [next, Option.ite_none_right_eq_some, Option.some.injEq] at hn
      obtain ⟨ht, rfl⟩ := hn
      refine ⟨chain, h.setPc (by rw [ht]; rfl) (fun a ha => ?_) (by simp) (by simp [ht])⟩
      obtain rfl : s.head = a := Option.some.inj ha
      exact h.head_mem.imp_right h.mem_pushed
  | spurious t => exact ⟨chain, h.fail hn⟩
  | step t =>
      simp only [next, step] at hn
      simp only [Intact] at hc
      split at hn
      · cases hn
      · next newnode ht =>
          rw [Option.some.injEq] at hn
          subst hn
          have hset := h.setNext_private (t := t) (a := newnode) (by rw [ht]; rfl) s.head
          refine ⟨chain, hset.setPc ?_ (by simp [Pc.node]) (by simp) ?_⟩
          · show _ = (s.pc t).private
            rw [ht]
            rfl
          · show ∀ a n, s.pc t = _ → _
            simp [ht]
      · next newnode ht =>
          split at hn
          · next heq =>
              rw [Option.some.injEq] at hn
              exact ⟨_, hn ▸ h.link ht heq⟩
          · exact ⟨chain, h.fail hn⟩
      · next ht =>
          rw [Option.some.injEq] at hn
          exact ⟨chain, hn ▸ h.setPc_count (by rw [ht]; exact ⟨rfl, rfl⟩) ⟨rfl, rfl⟩⟩
      · next count ht =>
          rw [Option.some.injEq] at hn
          exact ⟨chain, hn ▸ h.storeCount (by rw [ht]; exact ⟨rfl, rfl⟩) (count + 1)⟩
      · next node ht =>
          simp only [Option.ite_none_left_eq_some, Option.some.injEq] at hn
          obtain ⟨h0, rfl⟩ := hn
          rw [ht, Pc.Intact] at hc
          refine ⟨chain, h.setPc (by rw [ht]; rfl) (fun a ha => ?_) (fun a n hpc => ?_)
            (by simp [ht])⟩
          · obtain rfl : node = a := Option.some.inj ha
            exact h.node t node (by rw [ht]; rfl)
          · simp only [Pc.popExchange.injEq] at hpc
            obtain ⟨rfl, rfl⟩ := hpc
            exact ⟨h0, fun _ => hc⟩
      · next node n ht =>
          rw [ht, Pc.Intact] at hc
          split at hn
          · next heq =>
              rw [Option.some.injEq] at hn
              obtain ⟨rest, -, hrest⟩ := h.unlink ht (hc heq)
              exact ⟨rest, hn ▸ hrest⟩
          · exact ⟨chain, h.fail hn⟩
      · next ht =>
          rw [Option.some.injEq] at hn
          exact ⟨chain, hn ▸ h.setPc_count (by rw [ht]; exact ⟨rfl, rfl⟩) ⟨rfl, rfl⟩⟩
      · next count ht =>
          rw [Option.some.injEq] at hn
          exact ⟨chain, hn ▸ h.storeCount (by rw [ht]; exact ⟨rfl, rfl⟩) (count - 1)⟩

theorem inv_inductive : system.Inductive Intact fun s => ∃ chain, Inv s chain where
  init s hs := by
    have hs' : s = empty := hs
    subst hs'
    refine ⟨[], ?_⟩
    constructor <;> simp [empty, Seg, Pc.private, Pc.node]
  step s c s' h hc hn := by
    obtain ⟨chain, h⟩ := h
    exact inv_step h hc hn

/-- When no call is running, the real links are those of the pushes. -/
theorem Inv.accounted (h : Inv s chain) (hq : Quiescent s) : Accounted s := by
  refine ⟨chain, h.linked.congr fun a ha => ?_, fun h0 => ?_, ?_, h.nodup, h.perm, fun a ha => ?_⟩
  · refine (h.clean a ha).resolve_right ?_
    rintro ⟨t, n, ht⟩
    rw [hq t] at ht
    cases ht
  · exact (h.pushed 0 (h.mem_pushed h0)).1 rfl
  · exact (List.nodup_append.mp (h.perm.nodup h.nodup)).1
  · refine (h.every a ha).resolve_right ?_
    rintro ⟨t, ht⟩
    rw [hq t] at ht
    cases ht

/-- **Nothing is lost.** In every run of intact steps, whenever all calls have
finished, the nodes from `head` form a finite chain, and every pushed node is
on it or was unlinked by exactly one `pop`. -/
theorem stack_accounted {s : State} (hs : system.ReachableUnder Intact s) (hq : Quiescent s) :
    Accounted s := by
  obtain ⟨chain, h⟩ := inv_inductive.invariantUnder s hs
  exact h.accounted hq

/-! ## Two runs -/

/-- The thread that takes the step. -/
def Act.thread : Act → Nat
  | .push t _ _ | .pop t | .step t | .spurious t => t

theorem fail_pc (hn : fail s t = some s') : s'.pc = s.pc := by
  unfold fail at hn
  split at hn <;> simp only [Option.some.injEq, reduceCtorEq] at hn
  all_goals exact hn ▸ rfl

/-- The other threads stay where they are. -/
theorem next_pc_of_ne {c : Act} (hn : next s c = some s') (ht : t ≠ c.thread) :
    s'.pc t = s.pc t := by
  cases c with
  | push t' data newnode =>
      simp only [next, Option.ite_none_right_eq_some, Option.some.injEq] at hn
      exact hn.2 ▸ setPc_of_ne ht
  | pop t' =>
      simp only [next, Option.ite_none_right_eq_some, Option.some.injEq] at hn
      exact hn.2 ▸ setPc_of_ne ht
  | spurious t' => rw [fail_pc hn]
  | step t' =>
      change t ≠ t' at ht
      simp only [next, step] at hn
      split at hn
      · cases hn
      · exact Option.some.inj hn ▸ setPc_of_ne ht
      · split at hn
        · exact Option.some.inj hn ▸ setPc_of_ne ht
        · rw [fail_pc hn]
      · exact Option.some.inj hn ▸ setPc_of_ne ht
      · exact Option.some.inj hn ▸ setPc_of_ne ht
      · split at hn
        · cases hn
        · exact Option.some.inj hn ▸ setPc_of_ne ht
      · split at hn
        · exact Option.some.inj hn ▸ setPc_of_ne ht
        · rw [fail_pc hn]
      · exact Option.some.inj hn ▸ setPc_of_ne ht
      · exact Option.some.inj hn ▸ setPc_of_ne ht

/-- A thread that takes no step of a run stays where it is. -/
theorem run_pc_of_ne {acts : List Act} (ht : ∀ c ∈ acts, t ≠ c.thread)
    (hr : system.run s acts = some s') : s'.pc t = s.pc t := by
  induction acts generalizing s with
  | nil =>
      simp only [TSys.run, Option.some.injEq] at hr
      exact hr ▸ rfl
  | cons c rest ih =>
      simp only [TSys.run, Option.bind_eq_some_iff] at hr
      obtain ⟨u, hn, hr⟩ := hr
      rw [ih (fun c' hc' => ht c' (List.mem_cons_of_mem _ hc')) hr]
      exact next_pc_of_ne hn (ht c List.mem_cons_self)

/-- A whole `push` of thread `t` that nobody disturbs. -/
def pushCall (t : Nat) (data : Int) (newnode : Addr) : List Act :=
  .push t data newnode :: List.replicate 4 (.step t)

/-- A run of threads 0 and 1 that leaves both outside ends with all calls finished. -/
theorem quiescent_of_run {acts : List Act} (hacts : ∀ c ∈ acts, c.thread < 2)
    (hr : system.run empty acts = some s) (h0 : s.pc 0 = .idle) (h1 : s.pc 1 = .idle) :
    Quiescent s := by
  intro t
  match t with
  | 0 => exact h0
  | 1 => exact h1
  | k + 2 =>
      have hother : ∀ c ∈ acts, k + 2 ≠ c.thread := fun c hc => by
        have := hacts c hc
        omega
      exact run_pc_of_ne hother hr

/-- Two pushes, and a `pop` that nobody disturbs. -/
theorem stack_accounted_pop :
    ∃ s, s.pushed = [2, 1] ∧ s.popped = [2] ∧ Accounted s := by
  have hrun : (system.runChecked Intact empty (pushCall 0 7 1 ++ pushCall 0 8 2 ++
      .pop 1 :: List.replicate 5 (.step 1))).any
      (fun s => decide (s.pushed = [2, 1] ∧ s.popped = [2] ∧ s.pc 0 = .idle ∧
        s.pc 1 = .idle)) = true := by
    decide +kernel
  obtain ⟨s, hs, hview⟩ := (Option.any_eq_true _ _).mp hrun
  obtain ⟨hpushed, hpopped, h0, h1⟩ := of_decide_eq_true hview
  have hquiet := quiescent_of_run (by decide) (TSys.run_of_runChecked hs) h0 h1
  exact ⟨s, hpushed, hpopped, stack_accounted (.runChecked (.init rfl) hs) hquiet⟩

/-- Thread 1 is in front of its exchange, about to replace node 2 by node 1,
when thread 0 pushes node 3: node 3 is lost. -/
theorem pushed_node_lost : ¬ system.InvariantUnder Legal fun s => Quiescent s → Accounted s := by
  intro hinv
  have hrun : (system.runChecked Legal empty (pushCall 0 7 1 ++ pushCall 0 8 2 ++
      [.pop 1, .step 1] ++ pushCall 0 9 3 ++ List.replicate 4 (.step 1))).any
      (fun s => decide (s.pushed = [3, 2, 1] ∧ s.popped = [2] ∧ s.head = 1 ∧ s.next 1 = 0 ∧
        s.pc 0 = .idle ∧ s.pc 1 = .idle)) = true := by
    decide +kernel
  obtain ⟨s, hs, hview⟩ := (Option.any_eq_true _ _).mp hrun
  obtain ⟨hpushed, hpopped, hhead, hnext, h0, h1⟩ := of_decide_eq_true hview
  have hquiet := quiescent_of_run (by decide) (TSys.run_of_runChecked hs) h0 h1
  obtain ⟨chain, hseg, hnull, -, -, hperm, -⟩ :=
    hinv s (.runChecked (.init rfl) hs) hquiet
  have hlength := hperm.length_eq
  rw [hpushed, hpopped, List.length_append] at hlength
  -- the chain is node 1 alone
  match chain, hseg with
  | [], _ => simp at hlength
  | [_], _ => simp at hlength
  | _ :: b :: _, ⟨ha, hb, _⟩ =>
      rw [← ha, hhead, hnext] at hb
      exact hnull (hb ▸ List.mem_cons_of_mem _ List.mem_cons_self)

end Os377.NoLock
