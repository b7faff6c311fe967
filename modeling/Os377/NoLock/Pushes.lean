import Os377.NoLock.Accounting

/-!
# Pushes among themselves

With no `pop` running, a failed `compare_exchange_weak` reloads `next` from the
head, so the exchange that succeeds finds in `next` the chain it puts its node
in front of. The chain from `head` then lists the pushes in the order of their
exchanges, last first, in front of whatever was there before the first call.

* `PushStep` — all a step can do while no `pop` runs;
* `pushes_linearised` — the chain in every reachable state.
-/

namespace Os377.NoLock

open Os377.Lib Function

variable {s s' s0 : State} {t : Nat} {a : Act} {newnode : Addr} {new chain0 : List Addr}

/-- A call of `pop`. -/
def Act.isPop : Act → Bool
  | .pop _ => true
  | _ => false

/-- Inside `pop`. -/
def Pc.popping : Pc → Bool
  | .popNext _ | .popExchange _ _ | .popCount | .popStore _ => true
  | _ => false

/-- The steps of `push`. -/
inductive PushStep (s : State) : Act → State → Prop
  | call {t : Nat} {data : Int} {newnode : Addr} :
      s.pc t = .idle → newnode ≠ 0 → s.allocated newnode = false →
      PushStep s (.push t data newnode) ((s.alloc newnode data).setPc t (.pushNext newnode))
  | load {t : Nat} {newnode : Addr} : s.pc t = .pushNext newnode →
      PushStep s (.step t) ((s.setNext newnode s.head).setPc t (.pushExchange newnode))
  | link {t : Nat} {newnode : Addr} : s.pc t = .pushExchange newnode → s.head = s.next newnode →
      PushStep s (.step t) ((s.link newnode).setPc t .pushCount)
  /-- The exchange finds another head. -/
  | retry {t : Nat} {newnode : Addr} :
      s.pc t = .pushExchange newnode → s.head ≠ s.next newnode →
      PushStep s (.step t) (s.setNext newnode s.head)
  | spurious {t : Nat} {newnode : Addr} : s.pc t = .pushExchange newnode →
      PushStep s (.spurious t) (s.setNext newnode s.head)
  | count {t : Nat} : s.pc t = .pushCount → PushStep s (.step t) (s.setPc t (.pushStore s.count))
  | store {t : Nat} {count : Int} : s.pc t = .pushStore count →
      PushStep s (.step t) ({ s with count := count + 1 }.setPc t .idle)

/-- While no `pop` runs, every step is one of `push`. -/
theorem pushStep_of_next (hpop : ∀ t, (s.pc t).popping = false) (ha : a.isPop = false)
    (hn : next s a = some s') : PushStep s a s' := by
  cases a with
  | push t data newnode =>
      simp only [next, Option.ite_none_right_eq_some, Option.some.injEq] at hn
      obtain ⟨⟨ht, h0, halloc⟩, rfl⟩ := hn
      exact .call ht h0 halloc
  | pop t => cases ha
  | spurious t =>
      have hpop := hpop t
      simp only [next, fail] at hn
      split at hn
      · next newnode ht => exact Option.some.inj hn ▸ .spurious ht
      · next node n ht =>
          rw [ht] at hpop
          cases hpop
      · cases hn
  | step t =>
      have hpop := hpop t
      cases hpc : s.pc t with
      | idle =>
          rw [next, step, hpc] at hn
          cases hn
      | pushNext newnode =>
          rw [next, step, hpc] at hn
          exact Option.some.inj hn ▸ .load hpc
      | pushExchange newnode =>
          rw [next, step, hpc] at hn
          dsimp only at hn
          by_cases hhead : s.head = s.next newnode
          · rw [if_pos hhead] at hn
            exact Option.some.inj hn ▸ .link hpc hhead
          · rw [if_neg hhead, fail, hpc] at hn
            exact Option.some.inj hn ▸ .retry hpc hhead
      | pushCount =>
          rw [next, step, hpc] at hn
          exact Option.some.inj hn ▸ .count hpc
      | pushStore count =>
          rw [next, step, hpc] at hn
          exact Option.some.inj hn ▸ .store hpc
      | popNext | popExchange | popCount | popStore =>
          rw [hpc] at hpop
          cases hpop

theorem popping_setPc {pc : Pc} (h : ∀ t, (s.pc t).popping = false) (hpc : pc.popping = false)
    (t t' : Nat) : ((s.setPc t pc).pc t').popping = false := by
  rcases setPc_cases s t pc t' with ⟨-, he⟩ | ⟨-, he⟩
  · rw [he]
    exact h t'
  · rw [he]
    exact hpc

/-! ## The order of the exchanges -/

/-- What the calls were asked to push, and what has been pushed. -/
structure History where
  /-- The argument of the call a thread is in. -/
  argument : Nat → Int
  /-- The arguments of the pushes that have exchanged the head, the last one
  first. -/
  done : List Int

def History.start : History := ⟨fun _ => 0, []⟩

/-- What a step adds to the history. -/
def note (s : State) (a : Act) (h : History) : History :=
  match a with
  | .push t data _ => { h with argument := update h.argument t data }
  | .step t =>
      match s.pc t with
      | .pushExchange newnode =>
          if s.head = s.next newnode then { h with done := h.argument t :: h.done } else h
      | _ => h
  | _ => h

/-- Only the exchange of the head adds to `done`. -/
theorem note_of_quiet {h : History}
    (hquiet : ∀ n, s.pc t = .pushExchange n → s.head ≠ s.next n) : note s (.step t) h = h := by
  rw [note]
  split
  · next n ht => exact if_neg (hquiet n ht)
  · rfl

/-- The stack from a given state on. -/
def systemFrom (s0 : State) : TSys State Act := { system with init := fun s => s = s0 }

/-- The steps of the stack with their history. -/
def recorded (s0 : State) : TSys (State × History) Act :=
  (systemFrom s0).record .start note

/-- All threads are outside, and the nodes from `head` are `chain`. -/
structure Holds (s : State) (chain : List Addr) : Prop where
  quiet : Quiescent s
  linked : Seg s.next s.head chain 0
  nodup : chain.Nodup
  known : ∀ a ∈ chain, a ≠ 0 ∧ s.allocated a = true

/-- The invariant; `new` are the nodes in front of the initial chain. -/
structure Linearised (s0 : State) (chain0 : List Addr) (x : State × History)
    (new : List Addr) : Prop where
  popping : ∀ t, (x.1.pc t).popping = false
  linked : Seg x.1.next x.1.head (new ++ chain0) 0
  nodup : (new ++ chain0).Nodup
  known : ∀ a ∈ new ++ chain0, a ≠ 0 ∧ x.1.allocated a = true
  privates : Privates x.1 (new ++ chain0)
  /-- A node not yet linked holds what its call was asked to push. -/
  argument : ∀ t a, (x.1.pc t).private = some a → x.1.data a = x.2.argument t
  done : new.map x.1.data = x.2.done
  initial : ∀ a ∈ chain0, x.1.data a = s0.data a

namespace Linearised

variable {h : History} {pc : Pc} (hx : Linearised s0 chain0 (s, h) new)
include hx

/-- Thread `t` goes on, with the same new node in its hands or none. -/
theorem setPc (hpop : pc.popping = false) (hpc : pc.private = (s.pc t).private) :
    Linearised s0 chain0 (s.setPc t pc, h) new := by
  refine { hx with
    popping := popping_setPc hx.popping hpop t, privates := hx.privates.setPc hpc,
    argument := fun t' a ha => ?_ }
  rcases setPc_cases s t pc t' with ⟨-, he⟩ | ⟨ht, he⟩
  · exact hx.argument t' a (he ▸ ha)
  · rw [he, hpc, ← ht] at ha
    exact hx.argument t' a ha

/-- A node that is not linked yet may point anywhere. -/
theorem setNext (ht : (s.pc t).private = some newnode) (b : Addr) :
    Linearised s0 chain0 (s.setNext newnode b, h) new := by
  have hnew := (hx.privates.fresh t newnode ht).1
  refine { hx with linked := hx.linked.congr fun n hn => ?_, privates := ?_ }
  · have hne : n ≠ newnode := by
      intro heq
      exact hnew (heq ▸ hn)
    exact update_of_ne hne _ _
  · exact ⟨hx.privates.fresh, hx.privates.single⟩

/-- `push` begins. -/
theorem call (t : Nat) (data : Int) (h0 : newnode ≠ 0) (ha : s.allocated newnode = false) :
    Linearised s0 chain0 ((s.alloc newnode data).setPc t (.pushNext newnode),
      note s (.push t data newnode) h) new := by
  have hne : ∀ x, s.allocated x = true → x ≠ newnode := by
    intro x hx heq
    rw [heq, ha] at hx
    cases hx
  have hchain : ∀ x ∈ new ++ chain0, x ≠ newnode := fun x hmem => hne x (hx.known x hmem).2
  have hdata : ∀ x ∈ new ++ chain0, update s.data newnode data x = s.data x := fun x hmem =>
    update_of_ne (hchain x hmem) _ _
  refine ⟨popping_setPc (s := s.alloc newnode data) hx.popping rfl t, ?_, hx.nodup, ?_,
    hx.privates.push (fun x hmem => (hx.known x hmem).2) data h0 ha, ?_, ?_, ?_⟩
  · exact hx.linked.congr fun x hmem => update_of_ne (hchain x hmem) _ _
  · intro x hmem
    obtain ⟨hx0, halloc⟩ := hx.known x hmem
    exact ⟨hx0, (update_of_ne (hchain x hmem) _ _).trans halloc⟩
  · intro t' x hpriv
    show update s.data newnode data x = update h.argument t data t'
    rcases setPc_cases (s.alloc newnode data) t (.pushNext newnode) t' with ⟨hne', he⟩ | ⟨htt, he⟩
    · have hpriv' : (s.pc t').private = some x := by
        rw [he] at hpriv
        exact hpriv
      rw [update_of_ne hne', update_of_ne (hne x (hx.privates.fresh t' x hpriv').2.2)]
      exact hx.argument t' x hpriv'
    · rw [he] at hpriv
      obtain rfl : newnode = x := Option.some.inj hpriv
      rw [htt, update_self, update_self]
  · refine Eq.trans (List.map_congr_left fun x hmem => ?_) hx.done
    exact hdata x (List.mem_append_left _ hmem)
  · intro x hmem
    exact (hdata x (List.mem_append_right _ hmem)).trans (hx.initial x hmem)

/-- The exchange of the head. -/
theorem link (ht : s.pc t = .pushExchange newnode) (hhead : s.head = s.next newnode) :
    Linearised s0 chain0 ((s.link newnode).setPc t .pushCount, note s (.step t) h)
      (newnode :: new) := by
  have hpriv : (s.pc t).private = some newnode := by rw [ht]; rfl
  obtain ⟨hfresh, h0, halloc⟩ := hx.privates.fresh t newnode hpriv
  have hnote : note s (.step t) h = { h with done := h.argument t :: h.done } := by
    rw [note, ht]
    exact if_pos hhead
  rw [hnote]
  refine ⟨popping_setPc (s := s.link newnode) hx.popping rfl t, ⟨rfl, ?_⟩, ?_, ?_,
    hx.privates.link hpriv rfl, ?_, ?_, hx.initial⟩
  · show Seg s.next (s.next newnode) (new ++ chain0) 0
    rw [← hhead]
    exact hx.linked
  · exact List.nodup_cons.mpr ⟨hfresh, hx.nodup⟩
  · intro x hmem
    rcases List.mem_cons.mp hmem with rfl | hmem
    · exact ⟨h0, halloc⟩
    · exact hx.known x hmem
  · intro t' x hpriv'
    exact hx.argument t' x (private_of_setPc (s := s.link newnode) rfl hpriv').2
  · show s.data newnode :: new.map s.data = h.argument t :: h.done
    rw [hx.argument t newnode hpriv, hx.done]

end Linearised

/-- One step while no `pop` runs. -/
theorem Linearised.step {x x' : State × History} (hx : Linearised s0 chain0 x new)
    (ha : a.isPop = false) (hn : (recorded s0).next x a = some x') :
    ∃ new', Linearised s0 chain0 x' new' := by
  obtain ⟨s, h⟩ := x
  obtain ⟨s', hs', rfl⟩ := Option.map_eq_some_iff.mp hn
  show ∃ new', Linearised s0 chain0 (s', note s a h) new'
  cases pushStep_of_next hx.popping ha hs' with
  | call _ h0 halloc => exact ⟨new, hx.call _ _ h0 halloc⟩
  | @load t newnode ht =>
      rw [note_of_quiet fun newnode he => by rw [ht] at he; cases he]
      have hpriv : (s.pc t).private = some newnode := by rw [ht]; rfl
      have hset := hx.setNext hpriv s.head
      refine ⟨new, hset.setPc rfl ?_⟩
      show _ = (s.pc t).private
      rw [ht]
      rfl
  | link ht hhead => exact ⟨_, hx.link ht hhead⟩
  | @retry t newnode ht hhead =>
      rw [note_of_quiet fun n he => by rw [ht] at he; cases he; exact hhead]
      exact ⟨new, hx.setNext (t := t) (by rw [ht]; rfl) s.head⟩
  | @spurious t newnode ht =>
      exact ⟨new, hx.setNext (t := t) (by rw [ht]; rfl) s.head⟩
  | @count t ht =>
      rw [note_of_quiet fun newnode he => by rw [ht] at he; cases he]
      exact ⟨new, hx.setPc rfl (by rw [ht]; rfl)⟩
  | @store t count ht =>
      rw [note_of_quiet fun newnode he => by rw [ht] at he; cases he]
      have hcount : Linearised s0 chain0 ({ s with count := count + 1 }, h) new :=
        { hx with privates := ⟨hx.privates.fresh, hx.privates.single⟩ }
      refine ⟨new, hcount.setPc rfl ?_⟩
      show _ = (s.pc t).private
      rw [ht]
      rfl

theorem linearised_start (h0 : Holds s0 chain0) : Linearised s0 chain0 (s0, .start) [] := by
  have hidle : ∀ t, s0.pc t = .idle := h0.quiet
  refine ⟨fun t => by rw [hidle t]; rfl, h0.linked, h0.nodup, h0.known, ⟨fun t a ha => ?_,
    fun t t' a ha => ?_⟩, fun t a ha => ?_, rfl, fun _ _ => rfl⟩
  · rw [hidle t] at ha
    cases ha
  · rw [hidle t] at ha
    cases ha
  · change (s0.pc t).private = some a at ha
    rw [hidle t] at ha
    cases ha

/-- **Pushes are linearised at their exchange.** From any state in which all
threads are outside, in every state of every run without `pop`: the nodes from
`head` form a finite chain without cycle, which lists the values of the pushes
that have exchanged the head, the last one first, and then the initial chain. -/
theorem pushes_linearised {s0 : State} {chain0 : List Addr} (h0 : Holds s0 chain0) {s : State}
    {h : History} (hs : (recorded s0).ReachableUnder (fun _ a => a.isPop = false) (s, h)) :
    ∃ new, Seg s.next s.head (new ++ chain0) 0 ∧ 0 ∉ new ++ chain0 ∧ (new ++ chain0).Nodup ∧
      new.map s.data = h.done ∧ chain0.map s.data = chain0.map s0.data := by
  have hinv : (recorded s0).Inductive (fun _ a => a.isPop = false)
      fun x => ∃ new, Linearised s0 chain0 x new := by
    constructor
    · intro x hx
      obtain ⟨hs, hh⟩ := hx
      have hs : x.1 = s0 := hs
      obtain ⟨s, h⟩ := x
      subst hs hh
      exact ⟨[], linearised_start h0⟩
    · intro x a x' hx ha hn
      obtain ⟨new, hx⟩ := hx
      exact hx.step ha hn
  obtain ⟨new, hx⟩ := hinv.invariantUnder _ hs
  refine ⟨new, hx.linked, fun hmem => (hx.known 0 hmem).1 rfl, hx.nodup, hx.done, ?_⟩
  exact List.map_congr_left hx.initial

/-- Thread 1 exchanges the head while thread 0 is in front of its exchange. -/
theorem pushes_linearised_two :
    ∃ (s : State) (h : History), h.done = [7, 8] ∧
      ∃ new, Seg s.next s.head new 0 ∧ new.map s.data = h.done := by
  have hrun : ((recorded empty).runChecked (fun _ a => a.isPop = false) (empty, .start)
      ([.push 0 7 1, .step 0] ++ pushCall 1 8 2 ++ [.step 0, .step 0])).any
      (fun x => decide (x.2.done = [7, 8])) = true := by
    decide +kernel
  obtain ⟨⟨s, h⟩, hs, hview⟩ := (Option.any_eq_true _ _).mp hrun
  have hdone := of_decide_eq_true hview
  have hholds : Holds empty [] := ⟨fun _ => rfl, rfl, List.nodup_nil, by simp⟩
  have hinit : (recorded empty).init (empty, .start) := ⟨rfl, rfl⟩
  obtain ⟨new, hseg, -, -, hvalues, -⟩ := pushes_linearised hholds (.runChecked (.init hinit) hs)
  rw [List.append_nil] at hseg
  exact ⟨s, h, hdone, new, hseg, hvalues⟩

end Os377.NoLock
