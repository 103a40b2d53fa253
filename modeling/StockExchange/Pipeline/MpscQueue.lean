/-
`MPSCQueue` (`pipeline/mpsc_queue.hpp`): a linked list to which any number of producers append by exchanging `tail_`
and storing the link afterwards, and from whose front one consumer takes nodes and deletes them. The atomic
steps of the code are the steps of the machine; memory of deleted nodes may be allocated again.

Between an exchange and the store that follows it the list is broken there. The nodes from `head_` to `tail_`, in the
order of the exchanges, are the chain: of two neighbours in it the first points to the second, or a producer is still to
store that link. So values come out in the order of the exchanges, and no store hits a deleted node.
-/
import StockExchange.Lib.Chain
import StockExchange.Lib.Machine
import Mathlib.Data.List.Infix
import Mathlib.Data.Option.Basic

universe u v

open Chain

namespace StockExchange

namespace MpscQueue

/-- The address of a node. -/
abbrev Addr := ℕ

/-- `Node`; the stub has no value. -/
structure Node (T : Type v) where
  data : Option T
  next : Option Addr := none

/-- Where a producer stands in `enqueue`. -/
inductive Producer (T : Type v)
  | idle
  /-- `closed_` was not set. -/
  | checked (val : T)
  | allocated (val : T) (node : Addr)
  /-- `tail_` has been exchanged, `prev_tail->next` is still to be stored. -/
  | exchanged (prev node : Addr)

/-- Where the consumer stands in `dequeue`. -/
inductive Consumer (T : Type v)
  | idle
  /-- `head->next` has been loaded, and is not null. -/
  | loaded (next : Addr)
  /-- The value has been taken and `head_` advanced, the old head is still to be deleted. -/
  | advanced (old : Addr) (val : T)

inductive Action (P : Type u) (T : Type v)
  /-- A producer calls `enqueue` and loads `closed_`. -/
  | loadClosed (p : P) (val : T)
  /-- `new Node`, at some free address. -/
  | alloc (p : P) (node : Addr)
  | exchange (p : P)
  | store (p : P)
  | close
  /-- The consumer calls `dequeue` and loads `head->next`. -/
  | loadNext
  | advance
  | delete

/-- The step is of the consumer. -/
def Action.consumes {P : Type u} {T : Type v} : Action P T → Bool
  | .loadNext => true
  | .advance => true
  | .delete => true
  | _ => false

end MpscQueue

open MpscQueue

structure MpscQueue (P : Type u) (T : Type v) where
  heap : Addr → Option (MpscQueue.Node T)
  tail : Addr
  head : Addr
  closed : Bool := false
  producers : P → Producer T := fun _ => .idle
  consumer : Consumer T := .idle
  /-- The values whose `enqueue` has got past the check, by producer. Nothing reads it. -/
  accepted : P → List T := fun _ => []
  /-- The values in the order of the exchanges of `tail_`, with their producers. Nothing reads it. -/
  exchanged : List (P × T) := []
  /-- The values that `dequeue` has returned. Nothing reads it. -/
  dequeued : List T := []

namespace MpscQueue

variable {P : Type u} {T : Type v}

/-- The constructor: a stub at some address. -/
def start (P : Type u) (T : Type v) (stub : Addr) : MpscQueue P T where
  heap a := if a = stub then some ⟨none, none⟩ else none
  tail := stub
  head := stub

variable [DecidableEq P]

def moveTo (s : MpscQueue P T) (p : P) (pc : Producer T) : MpscQueue P T :=
  { s with producers := Function.update s.producers p pc }

/-- One step; `none` where the thread stands elsewhere, the address is not free, or memory is accessed that is not
allocated. -/
def step (s : MpscQueue P T) : Action P T → Option (MpscQueue P T)
  | .loadClosed p val =>
    match s.producers p with
    | .idle =>
      if s.closed then some s
      else some ({ s with accepted := Function.update s.accepted p (s.accepted p ++ [val]) }.moveTo p (.checked val))
    | _ => none
  | .alloc p node =>
    match s.producers p, s.heap node with
    | .checked val, none =>
      some ({ s with heap := Function.update s.heap node (some ⟨some val, none⟩) }.moveTo p (.allocated val node))
    | _, _ => none
  | .exchange p =>
    match s.producers p with
    | .allocated val node =>
      some ({ s with tail := node, exchanged := s.exchanged ++ [(p, val)] }.moveTo p (.exchanged s.tail node))
    | _ => none
  | .store p =>
    match s.producers p with
    | .exchanged prev node =>
      match s.heap prev with
      | some n => some ({ s with heap := Function.update s.heap prev (some { n with next := some node }) }.moveTo p .idle)
      | none => none
    | _ => none
  | .close => some { s with closed := true }
  | .loadNext =>
    match s.consumer, s.heap s.head with
    | .idle, some n =>
      match n.next with
      | none => some s
      | some next => some { s with consumer := .loaded next }
    | _, _ => none
  | .advance =>
    match s.consumer with
    | .loaded next =>
      match s.heap next with
      | some ⟨some val, link⟩ =>
        some { s with
          heap := Function.update s.heap next (some ⟨none, link⟩)
          head := next
          consumer := .advanced s.head val }
      | _ => none
    | _ => none
  | .delete =>
    match s.consumer with
    | .advanced old val =>
      some { s with
        heap := Function.update s.heap old none
        consumer := .idle
        dequeued := s.dequeued ++ [val] }
    | _ => none

/-- `empty`. -/
def empty (s : MpscQueue P T) : Option Bool := (s.heap s.head).map fun n => n.next.isNone

/-- Everything a step can do. -/
inductive Steps (s : MpscQueue P T) : Action P T → MpscQueue P T → Prop
  | closed (p : P) (val : T) (hp : s.producers p = .idle) (hc : s.closed = true) : Steps s (.loadClosed p val) s
  | loadClosed (p : P) (val : T) (hp : s.producers p = .idle) (hc : s.closed = false) :
    Steps s (.loadClosed p val)
      ({ s with accepted := Function.update s.accepted p (s.accepted p ++ [val]) }.moveTo p (.checked val))
  | alloc (p : P) (node : Addr) (val : T) (hp : s.producers p = .checked val) (hn : s.heap node = none) :
    Steps s (.alloc p node)
      ({ s with heap := Function.update s.heap node (some ⟨some val, none⟩) }.moveTo p (.allocated val node))
  | exchange (p : P) (val : T) (node : Addr) (hp : s.producers p = .allocated val node) :
    Steps s (.exchange p)
      ({ s with tail := node, exchanged := s.exchanged ++ [(p, val)] }.moveTo p (.exchanged s.tail node))
  | store (p : P) (prev node : Addr) (n : Node T) (hp : s.producers p = .exchanged prev node)
    (hn : s.heap prev = some n) : Steps s (.store p)
      ({ s with heap := Function.update s.heap prev (some { n with next := some node }) }.moveTo p .idle)
  | close : Steps s .close { s with closed := true }
  | noNext (n : Node T) (hc : s.consumer = .idle) (hn : s.heap s.head = some n) (hnext : n.next = none) :
    Steps s .loadNext s
  | loadNext (n : Node T) (next : Addr) (hc : s.consumer = .idle) (hn : s.heap s.head = some n)
    (hnext : n.next = some next) : Steps s .loadNext { s with consumer := .loaded next }
  | advance (next : Addr) (val : T) (link : Option Addr) (hc : s.consumer = .loaded next)
    (hn : s.heap next = some ⟨some val, link⟩) : Steps s .advance
      { s with
        heap := Function.update s.heap next (some ⟨none, link⟩)
        head := next
        consumer := .advanced s.head val }
  | delete (old : Addr) (val : T) (hc : s.consumer = .advanced old val) : Steps s .delete
      { s with heap := Function.update s.heap old none, consumer := .idle, dequeued := s.dequeued ++ [val] }

theorem steps {s s' : MpscQueue P T} {a : Action P T} (h : s.step a = some s') : Steps s a s' := by
  cases a with
  | loadClosed p val =>
    simp only [step] at h
    split at h
    next hp =>
      split at h
      next hc => cases h; exact .closed p val hp hc
      next hc => cases h; exact .loadClosed p val hp (Bool.not_eq_true _ ▸ hc)
    next => cases h
  | alloc p node =>
    simp only [step] at h
    split at h
    next val hp hn => cases h; exact .alloc p node val hp hn
    next => cases h
  | exchange p =>
    simp only [step] at h
    split at h
    next val node hp => cases h; exact .exchange p val node hp
    next => cases h
  | store p =>
    simp only [step] at h
    split at h
    next prev node hp =>
      split at h
      next n hn => cases h; exact .store p prev node n hp hn
      next => cases h
    next => cases h
  | close => cases h; exact .close
  | loadNext =>
    simp only [step] at h
    split at h
    next n hc hn =>
      split at h
      next hnext => cases h; exact .noNext n hc hn hnext
      next next hnext => cases h; exact .loadNext n next hc hn hnext
    next => cases h
  | advance =>
    simp only [step] at h
    split at h
    next next hc =>
      split at h
      next val link hn => cases h; exact .advance next val link hc hn
      next => cases h
    next => cases h
  | delete =>
    simp only [step] at h
    split at h
    next old val hc => cases h; exact .delete old val hc
    next => cases h

theorem step_closed {s s' : MpscQueue P T} {a : Action P T} (hs : s.step a = some s') (ha : a ≠ .close) :
    s'.closed = s.closed := by
  cases steps hs with
  | close => exact absurd rfl ha
  | _ => rfl

theorem step_consumer {s s' : MpscQueue P T} {a : Action P T} (hs : s.step a = some s') (ha : a.consumes = false) :
    s'.consumer = s.consumer ∧ s'.dequeued = s.dequeued := by
  cases steps hs with
  | loadNext n next hc hn hnext => cases ha
  | advance next val link hc hn => cases ha
  | delete old val hc => cases ha
  | _ => exact ⟨rfl, rfl⟩

theorem step_producers {s s' : MpscQueue P T} {a : Action P T} (hs : s.step a = some s')
    (ha : a.consumes = true ∨ a = .close) : s'.producers = s.producers := by
  cases steps hs with
  | loadClosed p val hp hc => rcases ha with ha | ha <;> cases ha
  | alloc p node val hp hn => rcases ha with ha | ha <;> cases ha
  | exchange p val node hp => rcases ha with ha | ha <;> cases ha
  | store p prev node n hp hn => rcases ha with ha | ha <;> cases ha
  | _ => rfl

theorem step_exchanged {s s' : MpscQueue P T} {a : Action P T} (hs : s.step a = some s') (ha : ∀ p, a ≠ .exchange p) :
    s'.exchanged = s.exchanged := by
  cases steps hs with
  | exchange p val node hp => exact absurd rfl (ha p)
  | _ => rfl

/-! ## The chain -/

omit [DecidableEq P]

/-- The link and the value of a node. -/
def next (s : MpscQueue P T) (a : Addr) : Option Addr := (s.heap a).bind Node.next

def data (s : MpscQueue P T) (a : Addr) : Option T := (s.heap a).bind Node.data

/-- The value that the consumer is about to return. -/
def Consumer.hand : Consumer T → List T
  | .advanced _ val => [val]
  | _ => []

/-- The value that a producer is about to exchange. -/
def Producer.hand : Producer T → List T
  | .checked val => [val]
  | .allocated val _ => [val]
  | _ => []

/-- The nodes from the head to the tail in the order of the exchanges. Of two neighbours the first points to the second,
or exactly one producer is still to store that link. -/
structure Linked (s : MpscQueue P T) (chain : List Addr) : Prop where
  head : chain.head? = some s.head
  last : chain.getLast? = some s.tail
  nodup : chain.Nodup
  live : ∀ a ∈ chain, s.heap a ≠ none
  links : ∀ a b, Follows chain a b → s.next a = some b ∨ ∃ p, s.producers p = .exchanged a b
  pending : ∀ p a b, s.producers p = .exchanged a b → Follows chain a b ∧ s.next a = none
  alone : ∀ p q a b, s.producers p = .exchanged a b → s.producers q = .exchanged a b → p = q
  lastNext : s.next s.tail = none

/-- The nodes that are not in the chain: those that producers have made, and the old head. -/
structure Outside (s : MpscQueue P T) (chain : List Addr) : Prop where
  allocated : ∀ p val n, s.producers p = .allocated val n → n ∉ chain ∧ s.heap n = some ⟨some val, none⟩
  distinct : ∀ p q val val' n, s.producers p = .allocated val n → s.producers q = .allocated val' n → p = q
  loaded : ∀ n, s.consumer = .loaded n → s.next s.head = some n
  old : ∀ o val, s.consumer = .advanced o val → s.heap o ≠ none ∧ o ∉ chain ∧ ∀ p val', s.producers p ≠ .allocated val' o

/-- What has been exchanged is what has been dequeued, what the consumer holds and what the chain holds; and the
exchanges of a producer are its calls in order. -/
structure Values [DecidableEq P] (s : MpscQueue P T) (chain : List Addr) : Prop where
  held : s.exchanged.map (fun q => some q.2) =
    (s.dequeued ++ s.consumer.hand).map some ++ chain.tail.map s.data
  order : ∀ p, s.accepted p = (s.exchanged.filter fun q => q.1 = p).map Prod.snd ++ (s.producers p).hand

variable {s s' : MpscQueue P T} {chain : List Addr}

theorem Linked.head_mem (h : s.Linked chain) : s.head ∈ chain := List.mem_of_mem_head? h.head

theorem Linked.tail_mem (h : s.Linked chain) : s.tail ∈ chain := List.mem_of_getLast? h.last

/-- Steps that touch neither the ends of the chain nor its links. -/
theorem Linked.congr (h : s.Linked chain) (hhead : s'.head = s.head) (htail : s'.tail = s.tail)
    (hlive : ∀ a ∈ chain, s'.heap a ≠ none) (hnext : ∀ a ∈ chain, s'.next a = s.next a)
    (hproducers : ∀ p a b, s'.producers p = .exchanged a b ↔ s.producers p = .exchanged a b) : s'.Linked chain where
  head := hhead ▸ h.head
  last := htail ▸ h.last
  nodup := h.nodup
  live := hlive
  links a b hab := by
    rw [hnext a hab.mem.1]
    exact (h.links a b hab).imp_right fun ⟨p, hp⟩ => ⟨p, (hproducers p a b).2 hp⟩
  pending p a b hp := by
    obtain ⟨hab, hnone⟩ := h.pending p a b ((hproducers p a b).1 hp)
    rw [hnext a hab.mem.1]
    exact ⟨hab, hnone⟩
  alone p q a b hp hq := h.alone p q a b ((hproducers p a b).1 hp) ((hproducers q a b).1 hq)
  lastNext := by
    rw [htail, hnext s.tail h.tail_mem]
    exact h.lastNext

/-- The pending store of a producer is to a node of the chain, which is not deleted. -/
theorem Linked.pending_live (h : s.Linked chain) {p : P} {a b : Addr} (hp : s.producers p = .exchanged a b) :
    s.heap a ≠ none := h.live a (h.pending p a b hp).1.mem.1

/-- If the head has a link, it is to the second node of the chain. -/
theorem Linked.second (h : s.Linked chain) {next : Addr} (hnext : s.next s.head = some next) :
    ∃ rest, chain = s.head :: next :: rest := by
  have hhead := h.head
  have hlast := h.last
  cases chain with
  | nil => cases hhead
  | cons x rest =>
    cases hhead
    cases rest with
    | nil =>
      have hends : s.head = s.tail := Option.some.inj hlast
      rw [hends, h.lastNext] at hnext
      cases hnext
    | cons y rest =>
      have hfollows : Follows (s.head :: y :: rest) s.head y := .inl ⟨rfl, rfl⟩
      rcases h.links _ _ hfollows with hlink | ⟨p, hp⟩
      · rw [hlink] at hnext
        cases hnext
        exact ⟨rest, rfl⟩
      · rw [(h.pending p _ _ hp).2] at hnext
        cases hnext

section Moves

variable [DecidableEq P] {p q : P} {pc : Producer T}

theorem producers_self (h : s'.producers = Function.update s.producers p pc) : s'.producers p = pc := by
  rw [h, Function.update_self]

theorem producers_of_ne (h : s'.producers = Function.update s.producers p pc) (hq : q ≠ p) :
    s'.producers q = s.producers q := by
  rw [h, Function.update_of_ne hq]

/-- Where a producer stands neither before nor after its move, the same ones stand as before. -/
theorem producers_eq_iff (h : s'.producers = Function.update s.producers p pc) {pc' : Producer T}
    (hold : s.producers p ≠ pc') (hnew : pc ≠ pc') (q : P) : s'.producers q = pc' ↔ s.producers q = pc' := by
  by_cases hq : q = p
  · rw [hq, producers_self h]
    exact iff_of_false hnew hold
  · rw [producers_of_ne h hq]

end Moves

/-! ## Steps -/

section Step

variable [DecidableEq P] {p : P}

/-- `tail_.exchange(new_node)`: the new node is the last of the chain, and its predecessor has no link yet. -/
theorem Linked.exchange (h : s.Linked chain) (ho : s.Outside chain) {val : T} {node : Addr}
    (hp : s.producers p = .allocated val node) (hheap : s'.heap = s.heap) (hhead : s'.head = s.head)
    (htail : s'.tail = node) (hproducers : s'.producers = Function.update s.producers p (.exchanged s.tail node)) :
    s'.Linked (chain ++ [node]) := by
  obtain ⟨hnot, hnode⟩ := ho.allocated p val node hp
  have hnext : s'.next = s.next := by
    unfold MpscQueue.next
    rw [hheap]
  -- a producer that was in the window before is another one, and its store is to another node
  have hother : ∀ {q : P} {a b : Addr}, s.producers q = .exchanged a b → q ≠ p ∧ a ≠ s.tail := by
    intro q a b hq
    refine ⟨?_, ?_⟩
    · rintro rfl
      rw [hp] at hq
      cases hq
    · rintro rfl
      exact (h.pending q _ _ hq).1.ne_last h.nodup h.last
  refine ⟨?_, ?_, ?_, fun a ha => ?_, fun a b hab => ?_, fun q a b hq => ?_, fun q r a b hq hr => ?_, ?_⟩
  · rw [List.head?_append, h.head, hhead]
    rfl
  · rw [List.getLast?_concat, htail]
  · rw [List.nodup_append]
    refine ⟨h.nodup, List.nodup_singleton _, fun a ha b hb hab => hnot ?_⟩
    rw [← List.mem_singleton.1 hb, ← hab]
    exact ha
  · rw [hheap]
    rcases List.mem_append.1 ha with ha | ha
    · exact h.live a ha
    · rw [List.mem_singleton.1 ha, hnode]
      exact Option.some_ne_none _
  · rw [hnext]
    rcases (follows_snoc node).1 hab with hab | ⟨hlast, rfl⟩
    · refine (h.links a b hab).imp_right fun ⟨q, hq⟩ => ⟨q, ?_⟩
      rw [producers_of_ne hproducers (hother hq).1]
      exact hq
    · rw [h.last] at hlast
      cases hlast
      exact .inr ⟨p, producers_self hproducers⟩
  · rw [hnext]
    by_cases hqp : q = p
    · rw [hqp, producers_self hproducers] at hq
      cases hq
      exact ⟨(follows_snoc node).2 (.inr ⟨h.last, rfl⟩), h.lastNext⟩
    · rw [producers_of_ne hproducers hqp] at hq
      obtain ⟨hab, hnone⟩ := h.pending q a b hq
      exact ⟨(follows_snoc node).2 (.inl hab), hnone⟩
  · by_cases hqp : q = p
    · by_cases hrp : r = p
      · rw [hqp, hrp]
      · rw [hqp, producers_self hproducers] at hq
        rw [producers_of_ne hproducers hrp] at hr
        cases hq
        exact absurd rfl (hother hr).2
    · rw [producers_of_ne hproducers hqp] at hq
      by_cases hrp : r = p
      · rw [hrp, producers_self hproducers] at hr
        cases hr
        exact absurd rfl (hother hq).2
      · rw [producers_of_ne hproducers hrp] at hr
        exact h.alone q r a b hq hr
  · rw [htail, hnext, MpscQueue.next, hnode]
    rfl

/-- `prev_tail->next.store(new_node)`: the link between two neighbours is closed. -/
theorem Linked.store (h : s.Linked chain) {prev node : Addr} {n : Node T} (hp : s.producers p = .exchanged prev node)
    (hheap : s'.heap = Function.update s.heap prev (some { n with next := some node })) (hhead : s'.head = s.head)
    (htail : s'.tail = s.tail) (hproducers : s'.producers = Function.update s.producers p .idle) : s'.Linked chain := by
  obtain ⟨hfollows, -⟩ := h.pending p prev node hp
  have hself : s'.next prev = some node := by
    rw [MpscQueue.next, hheap, Function.update_self]
    rfl
  have hne : ∀ {a : Addr}, a ≠ prev → s'.next a = s.next a := by
    intro a ha
    rw [MpscQueue.next, hheap, Function.update_of_ne ha]
    rfl
  -- the producers still in the window were in it before, at other nodes
  have hwindow : ∀ {q : P} {a b : Addr}, s'.producers q = .exchanged a b → s.producers q = .exchanged a b ∧ a ≠ prev := by
    intro q a b hq
    by_cases hqp : q = p
    · rw [hqp, producers_self hproducers] at hq
      cases hq
    · rw [producers_of_ne hproducers hqp] at hq
      refine ⟨hq, ?_⟩
      rintro rfl
      obtain rfl := (h.pending q a b hq).1.unique h.nodup hfollows
      exact hqp (h.alone q p a b hq hp)
  refine ⟨hhead ▸ h.head, htail ▸ h.last, h.nodup, fun a ha => ?_, fun a b hab => ?_, fun q a b hq => ?_,
    fun q r a b hq hr => ?_, ?_⟩
  · rw [hheap]
    by_cases hap : a = prev
    · rw [hap, Function.update_self]
      exact Option.some_ne_none _
    · rw [Function.update_of_ne hap]
      exact h.live a ha
  · by_cases hap : a = prev
    · subst hap
      rw [hself, hab.unique h.nodup hfollows]
      exact .inl rfl
    · rw [hne hap]
      refine (h.links a b hab).imp_right fun ⟨q, hq⟩ => ⟨q, ?_⟩
      have hqp : q ≠ p := by
        rintro rfl
        rw [hp] at hq
        cases hq
        exact hap rfl
      rw [producers_of_ne hproducers hqp]
      exact hq
  · obtain ⟨hq, hap⟩ := hwindow hq
    rw [hne hap]
    exact h.pending q a b hq
  · exact h.alone q r a b (hwindow hq).1 (hwindow hr).1
  · have htail' : s.tail ≠ prev := by
      rintro rfl
      exact hfollows.ne_last h.nodup h.last
    rw [htail, hne htail']
    exact h.lastNext

omit [DecidableEq P] in
/-- `head_ = next`: the chain begins at its second node. -/
theorem Linked.advance (h : s.Linked chain) {next : Addr} (hnext : s.next s.head = some next)
    (hlive : ∀ a ∈ chain.tail, s'.heap a ≠ none) (hlinks : ∀ a ∈ chain.tail, s'.next a = s.next a) (hhead : s'.head = next)
    (htail : s'.tail = s.tail) (hproducers : s'.producers = s.producers) :
    s'.Linked chain.tail ∧ s.head ∉ chain.tail := by
  obtain ⟨rest, rfl⟩ := h.second hnext
  have hnodup := h.nodup
  rw [List.nodup_cons] at hnodup
  have hlast := h.last
  rw [List.getLast?_cons_cons] at hlast
  have htailmem : s.tail ∈ next :: rest := List.mem_of_getLast? hlast
  refine ⟨⟨?_, ?_, hnodup.2, hlive, fun a b hab => ?_, fun q a b hq => ?_, fun q r a b hq hr => ?_, ?_⟩, hnodup.1⟩
  · rw [hhead]
    rfl
  · rw [htail]
    exact hlast
  · rw [hlinks a hab.mem.1, hproducers]
    exact h.links a b hab.of_tail
  · -- a store to the old head would be to a node that has a link already
    rw [hproducers] at hq
    obtain ⟨hab, hnone⟩ := h.pending q a b hq
    rcases (follows_cons s.head).1 hab with ⟨rfl, -⟩ | hab
    · rw [hnone] at hnext
      cases hnext
    · rw [hlinks a hab.mem.1]
      exact ⟨hab, hnone⟩
  · rw [hproducers] at hq hr
    exact h.alone q r a b hq hr
  · rw [htail, hlinks s.tail htailmem]
    exact h.lastNext

omit [DecidableEq P] in
/-- Steps that touch neither the nodes outside the chain nor the consumer. -/
theorem Outside.congr (h : s.Outside chain)
    (hheap : ∀ p val n, s.producers p = .allocated val n → s'.heap n = s.heap n)
    (hproducers : ∀ p val n, s'.producers p = .allocated val n ↔ s.producers p = .allocated val n)
    (hconsumer : s'.consumer = s.consumer)
    (hloaded : ∀ n, s.consumer = .loaded n → s.next s.head = some n → s'.next s'.head = some n)
    (hold : ∀ o val, s.consumer = .advanced o val → s'.heap o ≠ none) : s'.Outside chain where
  allocated p val n hp := by
    rw [hproducers] at hp
    rw [hheap p val n hp]
    exact h.allocated p val n hp
  distinct p q val val' n hp hq := h.distinct p q val val' n ((hproducers ..).1 hp) ((hproducers ..).1 hq)
  loaded n hc := by
    rw [hconsumer] at hc
    exact hloaded n hc (h.loaded n hc)
  old o val hc := by
    rw [hconsumer] at hc
    obtain ⟨-, hnot, hfree⟩ := h.old o val hc
    exact ⟨hold o val hc, hnot, fun p val' hp => hfree p val' ((hproducers ..).1 hp)⟩

/-- Steps that move no value. -/
theorem Values.congr (h : s.Values chain) (hexchanged : s'.exchanged = s.exchanged)
    (hhand : s'.dequeued ++ s'.consumer.hand = s.dequeued ++ s.consumer.hand)
    (hdata : ∀ a ∈ chain.tail, s'.data a = s.data a) (haccepted : s'.accepted = s.accepted)
    (hhands : ∀ p, (s'.producers p).hand = (s.producers p).hand) : s'.Values chain where
  held := by
    rw [hexchanged, hhand, h.held, List.map_congr_left hdata]
  order p := by
    rw [haccepted, hexchanged, hhands]
    exact h.order p

/-- The nodes of the queue and its values. -/
structure Ok (s : MpscQueue P T) (chain : List Addr) : Prop where
  linked : s.Linked chain
  outside : s.Outside chain
  values : s.Values chain

theorem hand_of_move {pc : Producer T} (hproducers : s'.producers = Function.update s.producers p pc)
    (hhand : pc.hand = (s.producers p).hand) (q : P) : (s'.producers q).hand = (s.producers q).hand := by
  by_cases hq : q = p
  · rw [hq, producers_self hproducers, hhand]
  · rw [producers_of_ne hproducers hq]

theorem Ok.loadClosed (h : s.Ok chain) {val : T} (hp : s.producers p = .idle) :
    ({ s with accepted := Function.update s.accepted p (s.accepted p ++ [val]) }.moveTo p (.checked val)).Ok chain := by
  refine ⟨?_, ?_, h.values.held, fun q => ?_⟩
  · exact h.linked.congr rfl rfl h.linked.live (fun _ _ => rfl) fun q a b =>
      producers_eq_iff rfl (by rw [hp]; nofun) (by nofun) q
  · exact h.outside.congr (fun _ _ _ _ => rfl)
      (fun q val' n => producers_eq_iff rfl (by rw [hp]; nofun) (by nofun) q) rfl (fun _ _ h => h)
      fun o val hc => (h.outside.old o val hc).1
  · have horder := h.values.order q
    show Function.update s.accepted p (s.accepted p ++ [val]) q =
      (s.exchanged.filter fun r => r.1 = q).map Prod.snd ++ (Function.update s.producers p (.checked val) q).hand
    by_cases hq : q = p
    · subst hq
      rw [hp] at horder
      rw [Function.update_self, Function.update_self, horder]
      simp [Producer.hand]
    · rw [Function.update_of_ne hq, Function.update_of_ne hq]
      exact horder

theorem Ok.alloc (h : s.Ok chain) {val : T} {node : Addr} (hp : s.producers p = .checked val) (hn : s.heap node = none) :
    ({ s with heap := Function.update s.heap node (some ⟨some val, none⟩) }.moveTo p (.allocated val node)).Ok chain := by
  -- the address is that of no other node
  have hheap : ∀ {a : Addr}, s.heap a ≠ none → Function.update s.heap node (some ⟨some val, none⟩) a = s.heap a :=
    fun {a} ha => Function.update_of_ne (fun heq => ha (by rw [heq, hn])) ..
  have hproducers : ∀ {q : P} {val' : T} {n : Addr},
      Function.update s.producers p (.allocated val node) q = .allocated val' n →
        (q = p ∧ val' = val ∧ n = node) ∨ (q ≠ p ∧ s.producers q = .allocated val' n) := by
    intro q val' n hq
    by_cases hqp : q = p
    · rw [hqp, Function.update_self] at hq
      cases hq
      exact .inl ⟨hqp, rfl, rfl⟩
    · rw [Function.update_of_ne hqp] at hq
      exact .inr ⟨hqp, hq⟩
  have hnot : ∀ {q : P} {val' : T}, s.producers q ≠ .allocated val' node := by
    intro q val' hq
    rw [(h.outside.allocated q val' node hq).2] at hn
    cases hn
  refine ⟨?_, ⟨fun q val' n hq => ?_, fun q r val' val'' n hq hr => ?_, fun n hc => ?_, fun o val' hc => ?_⟩, ?_⟩
  · refine h.linked.congr rfl rfl (fun a ha => ?_) (fun a ha => ?_) fun q a b =>
      producers_eq_iff rfl (by rw [hp]; nofun) (by nofun) q
    · exact fun hnone => h.linked.live a ha ((hheap (h.linked.live a ha)).symm.trans hnone)
    · exact congrArg (Option.bind · Node.next) (hheap (h.linked.live a ha))
  · rcases hproducers hq with ⟨-, rfl, rfl⟩ | ⟨-, hq⟩
    · exact ⟨fun hmem => h.linked.live n hmem hn, Function.update_self ..⟩
    · obtain ⟨hout, hnode⟩ := h.outside.allocated q val' n hq
      refine ⟨hout, ?_⟩
      show Function.update _ _ _ n = _
      rw [hheap (by rw [hnode]; exact Option.some_ne_none _), hnode]
  · rcases hproducers hq with ⟨rfl, -, rfl⟩ | ⟨-, hold⟩
    · rcases hproducers hr with ⟨rfl, -, -⟩ | ⟨-, hold'⟩
      · rfl
      · exact absurd hold' hnot
    · rcases hproducers hr with ⟨-, -, rfl⟩ | ⟨-, hold'⟩
      · exact absurd hold hnot
      · exact h.outside.distinct q r val' val'' n hold hold'
  · refine (congrArg (Option.bind · Node.next) (hheap (h.linked.live _ h.linked.head_mem))).trans ?_
    exact h.outside.loaded n hc
  · obtain ⟨hlive, hout, hfree⟩ := h.outside.old o val' hc
    refine ⟨?_, hout, fun q val'' hq => ?_⟩
    · exact fun hnone => hlive ((hheap hlive).symm.trans hnone)
    · rcases hproducers hq with ⟨-, -, rfl⟩ | ⟨-, hq⟩
      · exact hlive hn
      · exact hfree q val'' hq
  · refine h.values.congr rfl rfl (fun a ha => ?_) rfl (hand_of_move rfl ?_)
    · exact congrArg (Option.bind · Node.data) (hheap (h.linked.live a (List.mem_of_mem_tail ha)))
    · rw [hp]
      rfl

theorem Ok.exchange (h : s.Ok chain) {val : T} {node : Addr} (hp : s.producers p = .allocated val node) :
    ({ s with tail := node, exchanged := s.exchanged ++ [(p, val)] }.moveTo p (.exchanged s.tail node)).Ok
      (chain ++ [node]) := by
  obtain ⟨hnot, hnode⟩ := h.outside.allocated p val node hp
  have hproducers : ∀ {q : P} {val' : T} {n : Addr},
      Function.update s.producers p (.exchanged s.tail node) q = .allocated val' n →
        q ≠ p ∧ s.producers q = .allocated val' n := by
    intro q val' n hq
    by_cases hqp : q = p
    · rw [hqp, Function.update_self] at hq
      cases hq
    · rw [Function.update_of_ne hqp] at hq
      exact ⟨hqp, hq⟩
  refine ⟨h.linked.exchange h.outside hp rfl rfl rfl rfl,
    ⟨fun q val' n hq => ?_, fun q r val' val'' n hq hr => ?_, h.outside.loaded, fun o val' hc => ?_⟩, ?_, fun q => ?_⟩
  · obtain ⟨hqp, hq⟩ := hproducers hq
    obtain ⟨hout, hn⟩ := h.outside.allocated q val' n hq
    refine ⟨fun hmem => ?_, hn⟩
    rcases List.mem_append.1 hmem with hmem | hmem
    · exact hout hmem
    · rw [List.mem_singleton.1 hmem] at hq
      exact hqp (h.outside.distinct q p val' val node hq hp)
  · exact h.outside.distinct q r val' val'' n (hproducers hq).2 (hproducers hr).2
  · obtain ⟨hlive, hout, hfree⟩ := h.outside.old o val' hc
    refine ⟨hlive, fun hmem => ?_, fun q val'' hq => hfree q val'' (hproducers hq).2⟩
    rcases List.mem_append.1 hmem with hmem | hmem
    · exact hout hmem
    · rw [← List.mem_singleton.1 hmem] at hp
      exact hfree p val hp
  · -- the new node is the last of the chain, and the new value the last exchanged
    have hne : chain ≠ [] := List.ne_nil_of_mem h.linked.head_mem
    have hdata : s.data node = some val := by
      rw [MpscQueue.data, hnode]
      rfl
    have hmap : (chain ++ [node]).tail.map s.data = chain.tail.map s.data ++ [some val] := by
      rw [List.tail_append_of_ne_nil hne, List.map_append, List.map_singleton, hdata]
    show (s.exchanged ++ [(p, val)]).map (fun q => some q.2) = (s.dequeued ++ s.consumer.hand).map some ++
      (chain ++ [node]).tail.map s.data
    rw [hmap, List.map_append, h.values.held, List.append_assoc]
    rfl
  · have horder := h.values.order q
    show s.accepted q = ((s.exchanged ++ [(p, val)]).filter fun r => r.1 = q).map Prod.snd ++
      (Function.update s.producers p (.exchanged s.tail node) q).hand
    by_cases hqp : q = p
    · subst hqp
      rw [hp] at horder
      rw [Function.update_self, horder, List.filter_append, List.map_append]
      simp [Producer.hand]
    · have hpq : ¬ p = q := fun heq => hqp heq.symm
      rw [Function.update_of_ne hqp, horder, List.filter_append, List.map_append]
      simp [hpq]

theorem Ok.store (h : s.Ok chain) {prev node : Addr} {n : Node T} (hp : s.producers p = .exchanged prev node)
    (hn : s.heap prev = some n) :
    ({ s with heap := Function.update s.heap prev (some { n with next := some node }) }.moveTo p .idle).Ok chain := by
  obtain ⟨hfollows, hnone⟩ := h.linked.pending p prev node hp
  have hne : ∀ {a : Addr}, a ≠ prev → Function.update s.heap prev (some { n with next := some node }) a = s.heap a :=
    fun ha => Function.update_of_ne ha ..
  refine ⟨h.linked.store hp rfl rfl rfl rfl, ?_, ?_⟩
  · refine h.outside.congr (fun q val m hq => ?_)
      (fun q val m => producers_eq_iff rfl (by rw [hp]; nofun) (by nofun) q) rfl (fun m hc hloaded => ?_) fun o val hc => ?_
    · refine hne ?_
      rintro rfl
      exact (h.outside.allocated q val m hq).1 hfollows.mem.1
    · -- the head has a link already
      have hhead : s.head ≠ prev := by
        intro heq
        rw [heq, hnone] at hloaded
        cases hloaded
      exact (congrArg (Option.bind · Node.next) (hne hhead)).trans hloaded
    · obtain ⟨hlive, hout, -⟩ := h.outside.old o val hc
      refine fun hgone => hlive ((hne ?_).symm.trans hgone)
      rintro rfl
      exact hout hfollows.mem.1
  · refine h.values.congr rfl rfl (fun a _ => ?_) rfl (hand_of_move rfl (by rw [hp]; rfl))
    show (Function.update s.heap prev (some { n with next := some node }) a).bind Node.data = (s.heap a).bind Node.data
    by_cases ha : a = prev
    · rw [ha, Function.update_self, hn]
      rfl
    · rw [hne ha]

theorem Ok.loadNext (h : s.Ok chain) {n : Node T} {next : Addr} (hc : s.consumer = .idle) (hn : s.heap s.head = some n)
    (hnext : n.next = some next) : ({ s with consumer := .loaded next } : MpscQueue P T).Ok chain := by
  refine ⟨h.linked.congr rfl rfl h.linked.live (fun _ _ => rfl) fun _ _ _ => Iff.rfl,
    ⟨h.outside.allocated, h.outside.distinct, ?_, nofun⟩, ?_⟩
  · rintro _ ⟨⟩
    show (s.heap s.head).bind Node.next = _
    rw [hn, Option.bind_some, hnext]
  · refine h.values.congr rfl ?_ (fun _ _ => rfl) rfl fun _ => rfl
    rw [hc]
    rfl

theorem Ok.advance (h : s.Ok chain) {next : Addr} {val : T} {link : Option Addr} (hc : s.consumer = .loaded next)
    (hn : s.heap next = some ⟨some val, link⟩) (hheap : s'.heap = Function.update s.heap next (some ⟨none, link⟩))
    (hhead : s'.head = next) (hconsumer : s'.consumer = .advanced s.head val) (htail : s'.tail = s.tail)
    (hproducers : s'.producers = s.producers) (hexchanged : s'.exchanged = s.exchanged)
    (hdequeued : s'.dequeued = s.dequeued) (haccepted : s'.accepted = s.accepted) : s'.Ok chain.tail := by
  have hloaded := h.outside.loaded next hc
  have hne : ∀ {a : Addr}, a ≠ next → s'.heap a = s.heap a := by
    intro a ha
    rw [hheap, Function.update_of_ne ha]
  have hlive : ∀ {a : Addr}, s.heap a ≠ none → s'.heap a ≠ none := by
    intro a ha
    by_cases hnext : a = next
    · rw [hheap, hnext, Function.update_self]
      exact Option.some_ne_none _
    · rw [hne hnext]
      exact ha
  have hlinks : ∀ a, s'.next a = s.next a := by
    intro a
    unfold MpscQueue.next
    by_cases ha : a = next
    · rw [hheap, ha, Function.update_self, hn]
      rfl
    · rw [hne ha]
  obtain ⟨hlinked, hold⟩ := h.linked.advance hloaded
    (fun a ha => hlive (h.linked.live a (List.mem_of_mem_tail ha))) (fun a _ => hlinks a) hhead htail hproducers
  have hmem : next ∈ chain.tail := by
    have hmem := hlinked.head_mem
    rwa [hhead] at hmem
  refine ⟨hlinked, ⟨fun q val' n hq => ?_, fun q r val' val'' n hq hr => ?_, fun n hc' => ?_, fun o val' hc' => ?_⟩, ?_,
    fun q => ?_⟩
  · rw [hproducers] at hq
    obtain ⟨hout, hnode⟩ := h.outside.allocated q val' n hq
    refine ⟨fun hin => hout (List.mem_of_mem_tail hin), ?_⟩
    rw [hne, hnode]
    rintro rfl
    exact hout (List.mem_of_mem_tail hmem)
  · rw [hproducers] at hq hr
    exact h.outside.distinct q r val' val'' n hq hr
  · rw [hconsumer] at hc'
    cases hc'
  · rw [hconsumer] at hc'
    cases hc'
    refine ⟨hlive (h.linked.live _ h.linked.head_mem), hold, fun q val' hq => ?_⟩
    rw [hproducers] at hq
    exact (h.outside.allocated q val' _ hq).1 h.linked.head_mem
  · -- the value of the new head goes from the chain to the hand of the consumer
    obtain ⟨rest, rfl⟩ := h.linked.second hloaded
    have hnodup := h.linked.nodup
    rw [List.nodup_cons, List.nodup_cons] at hnodup
    have hdata : rest.map s'.data = rest.map s.data := by
      refine List.map_congr_left fun a ha => ?_
      unfold MpscQueue.data
      rw [hne]
      rintro rfl
      exact hnodup.2.1 ha
    have hval : s.data next = some val := by
      rw [MpscQueue.data, hn]
      rfl
    have hheld := h.values.held
    rw [hc] at hheld
    rw [hexchanged, hdequeued, hconsumer, hheld]
    simp [Consumer.hand, hdata, hval]
  · rw [haccepted, hexchanged, hproducers]
    exact h.values.order q

theorem Ok.delete (h : s.Ok chain) {old : Addr} {val : T} (hc : s.consumer = .advanced old val) :
    ({ s with
      heap := Function.update s.heap old none
      consumer := .idle
      dequeued := s.dequeued ++ [val] } : MpscQueue P T).Ok chain := by
  obtain ⟨-, hout, hfree⟩ := h.outside.old old val hc
  have hne : ∀ {a : Addr}, a ≠ old → Function.update s.heap old none a = s.heap a := fun ha => Function.update_of_ne ha ..
  have hchain : ∀ {a : Addr}, a ∈ chain → Function.update s.heap old none a = s.heap a := by
    intro a ha
    refine hne ?_
    rintro rfl
    exact hout ha
  refine ⟨?_, ⟨fun q val' n hq => ?_, h.outside.distinct, nofun, nofun⟩, ?_⟩
  · refine h.linked.congr rfl rfl (fun a ha hnone => ?_) (fun a ha => ?_) fun _ _ _ => Iff.rfl
    · exact h.linked.live a ha ((hchain ha).symm.trans hnone)
    · exact congrArg (Option.bind · Node.next) (hchain ha)
  · obtain ⟨hout', hnode⟩ := h.outside.allocated q val' n hq
    refine ⟨hout', (hne ?_).trans hnode⟩
    rintro rfl
    exact hfree q val' hq
  · refine h.values.congr rfl ?_ (fun a ha => ?_) rfl fun _ => rfl
    · rw [hc]
      exact List.append_nil _
    · exact congrArg (Option.bind · Node.data) (hchain (List.mem_of_mem_tail ha))

/-- The step lemma. -/
theorem Ok.step {a : Action P T} (hs : s.step a = some s') (h : s.Ok chain) : ∃ chain', s'.Ok chain' := by
  cases steps hs with
  | closed p val hp hc => exact ⟨chain, h⟩
  | loadClosed p val hp hc => exact ⟨chain, h.loadClosed hp⟩
  | alloc p node val hp hn => exact ⟨chain, h.alloc hp hn⟩
  | exchange p val node hp => exact ⟨chain ++ [node], h.exchange hp⟩
  | store p prev node n hp hn => exact ⟨chain, h.store hp hn⟩
  | close =>
    refine ⟨chain, h.linked.congr rfl rfl h.linked.live (fun _ _ => rfl) fun _ _ _ => Iff.rfl, ?_, ?_⟩
    · exact ⟨h.outside.allocated, h.outside.distinct, h.outside.loaded, h.outside.old⟩
    · exact ⟨h.values.held, h.values.order⟩
  | noNext n hc hn hnext => exact ⟨chain, h⟩
  | loadNext n next hc hn hnext => exact ⟨chain, h.loadNext hc hn hnext⟩
  | advance next val link hc hn => exact ⟨chain.tail, h.advance hc hn rfl rfl rfl rfl rfl rfl rfl rfl⟩
  | delete old val hc => exact ⟨chain, h.delete hc⟩

theorem start_ok (stub : Addr) : (start P T stub).Ok [stub] := by
  have hstub : (start P T stub).heap stub = some ⟨none, none⟩ := if_pos rfl
  refine ⟨⟨rfl, rfl, List.nodup_singleton _, fun a ha => ?_, fun a b h => h.elim, nofun, nofun, ?_⟩,
    ⟨nofun, nofun, nofun, nofun⟩, rfl, fun p => rfl⟩
  · rw [List.mem_singleton.1 ha, hstub]
    exact Option.some_ne_none _
  · show ((start P T stub).heap stub).bind _ = none
    rw [hstub]
    rfl

/-- The run lemma. -/
theorem run_ok (stub : Addr) (actions : List (Action P T)) (hrun : Machine.run step (start P T stub) actions = some s) :
    ∃ chain, s.Ok chain := by
  have hstep : ∀ (s : MpscQueue P T) (a : Action P T) (s' : MpscQueue P T), True → s.step a = some s' →
      (∃ chain, s.Ok chain) → ∃ chain, s'.Ok chain := fun s a s' _ hs ⟨chain, h⟩ => h.step hs
  exact Machine.run_invariant hstep actions _ s (fun _ _ => trivial) hrun ⟨[stub], start_ok stub⟩

/-- The exchanges are those whose values have left the chain and those whose values are in it. -/
theorem Ok.exchanged_eq (h : s.Ok chain) : ∃ left inside, s.exchanged = left ++ inside ∧
    left.map Prod.snd = s.dequeued ++ s.consumer.hand ∧ inside.map (fun q => some q.2) = chain.tail.map s.data := by
  obtain ⟨left, inside, heq, hleft, hinside⟩ := List.map_eq_append_iff.1 h.values.held
  refine ⟨left, inside, heq, ?_, hinside⟩
  refine (Option.some_injective T).list_map ?_
  rw [List.map_map]
  exact hleft

/-- When no producer is in the window, `empty` means that everything exchanged has been taken out. -/
theorem Ok.drained (h : s.Ok chain) (hquiet : ∀ p prev node, s.producers p ≠ .exchanged prev node)
    (hempty : s.next s.head = none) : s.exchanged.map Prod.snd = s.dequeued ++ s.consumer.hand := by
  have htail : chain.tail = [] := by
    have hhead := h.linked.head
    cases chain with
    | nil => rfl
    | cons x rest =>
      cases hhead
      cases rest with
      | nil => rfl
      | cons y rest =>
        have hfollows : Follows (s.head :: y :: rest) s.head y := .inl ⟨rfl, rfl⟩
        rcases h.linked.links _ _ hfollows with hlink | ⟨p, hp⟩
        · rw [hempty] at hlink
          cases hlink
        · exact absurd hp (hquiet p _ _)
  obtain ⟨left, inside, heq, hleft, hinside⟩ := h.exchanged_eq
  rw [htail, List.map_nil, List.map_eq_nil_iff] at hinside
  rw [heq, hinside, List.append_nil, hleft]

omit [DecidableEq P] in
theorem next_of_empty (h : s.empty = some true) : s.next s.head = none := by
  obtain ⟨n, hn, hnone⟩ := Option.map_eq_some_iff.1 h
  rw [MpscQueue.next, hn, Option.bind_some]
  exact Option.isNone_iff_eq_none.1 hnone

/-- In every state of every interleaving: the values dequeued are the first ones in the order of the exchanges of `tail_`,
for every producer they are its first ones in the order of its calls, and if no producer is between its exchange
and its store and `empty` holds, they are all of them; and the node that a pending store is to has not been deleted. -/
theorem linearised (stub : Addr) (actions : List (Action P T)) (s : MpscQueue P T)
    (hrun : Machine.run step (start P T stub) actions = some s) :
    s.dequeued <+: s.exchanged.map Prod.snd ∧
      (∀ p, ((s.exchanged.take s.dequeued.length).filter fun q => q.1 = p).map Prod.snd <+: s.accepted p) ∧
      ((∀ p prev node, s.producers p ≠ .exchanged prev node) → s.consumer = .idle → s.empty = some true →
        s.dequeued = s.exchanged.map Prod.snd) ∧
      ∀ p prev node, s.producers p = .exchanged prev node → s.heap prev ≠ none := by
  obtain ⟨chain, h⟩ := run_ok stub actions hrun
  obtain ⟨left, inside, heq, hleft, -⟩ := h.exchanged_eq
  refine ⟨?_, fun p => ?_, fun hquiet hc hempty => ?_, fun p prev node hp => h.linked.pending_live hp⟩
  · rw [heq, List.map_append, hleft, List.append_assoc]
    exact List.prefix_append ..
  · rw [h.values.order p]
    refine List.IsPrefix.trans ?_ (List.prefix_append ..)
    exact ((List.take_prefix _ _).filter _).map _
  · rw [h.drained hquiet (next_of_empty hempty), hc]
    exact (List.append_nil _).symm

end Step

/-- Two producers exchange, the second one stores first; the consumer then takes both values, and a third
node is allocated where the stub was. -/
def crossedStores : List (Action Bool ℕ) :=
  [.loadClosed true 5, .loadClosed false 6, .alloc true 1, .alloc false 2, .exchange true, .exchange false, .store false,
    .loadNext, .store true, .loadNext, .advance, .delete, .loadClosed true 7, .alloc true 0, .loadNext, .advance, .delete]

theorem linearised_crossed : ∃ s, Machine.run step (start Bool ℕ 0) crossedStores = some s ∧ s.dequeued = [5, 6] ∧
    s.dequeued <+: s.exchanged.map Prod.snd := by
  have hrun : (Machine.run step (start Bool ℕ 0) crossedStores).any fun s => s.dequeued = [5, 6] := by decide
  obtain ⟨s, hs, hout⟩ := (Option.any_eq_true _ _).1 hrun
  exact ⟨s, hs, of_decide_eq_true hout, (linearised 0 crossedStores s hs).1⟩

end MpscQueue

end StockExchange
