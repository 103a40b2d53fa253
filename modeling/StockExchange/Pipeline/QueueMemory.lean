/-
The memory of `MPSCQueue` and its destructor. Every node that is allocated is in the chain, or was made by a producer that
has not exchanged it yet, or is the old head that the consumer is about to delete. So the destructor, called when no
thread is in the queue, drops what is left and deletes every node, each once.
-/
import StockExchange.Pipeline.MpscQueue
import Mathlib.Data.Set.Card

universe u v

open Chain

namespace StockExchange

namespace MpscQueue

variable {P : Type u} {T : Type v}

/-! ## The destructor -/

section Destructor

variable [DecidableEq P]

/-- `dequeue`, by a thread that is alone in the queue. -/
def dequeue (s : MpscQueue P T) : Option (Option T × MpscQueue P T) :=
  (s.step .loadNext).bind fun s =>
    match s.consumer with
    | .loaded _ =>
      (s.step .advance).bind fun s =>
        match s.consumer with
        | .advanced _ val => (s.step .delete).map fun s => (some val, s)
        | _ => none
    | _ => some (none, s)

/-- `while (auto item = dequeue()) {}`; `none` where the fuel is used up or memory is accessed that is not allocated. -/
def drain : ℕ → MpscQueue P T → Option (MpscQueue P T)
  | 0, _ => none
  | fuel + 1, s =>
    match s.dequeue with
    | none => none
    | some (none, s) => some s
    | some (some _, s) => drain fuel s

/-- `delete head_`; `none` where it is not allocated. -/
def deleteHead (s : MpscQueue P T) : Option (MpscQueue P T) :=
  (s.heap s.head).map fun _ => { s with heap := Function.update s.heap s.head none }

/-- The destructor. -/
def destroy (fuel : ℕ) (s : MpscQueue P T) : Option (MpscQueue P T) :=
  (drain fuel { s with closed := true }).bind deleteHead

end Destructor

/-! ## Every node is somewhere -/

/-- A node in the chain, or a producer's, or the old head. -/
def Held (s : MpscQueue P T) (chain : List Addr) (a : Addr) : Prop :=
  a ∈ chain ∨ (∃ p val, s.producers p = .allocated val a) ∨ ∃ val, s.consumer = .advanced a val

/-- No node is lost. -/
def Owned (s : MpscQueue P T) (chain : List Addr) : Prop := ∀ a, s.heap a ≠ none → s.Held chain a

section Steps

variable [DecidableEq P] {s s' : MpscQueue P T} {chain : List Addr}

theorem Ok.close (h : s.Ok chain) : ({ s with closed := true } : MpscQueue P T).Ok chain := by
  refine ⟨h.linked.congr rfl rfl h.linked.live (fun _ _ => rfl) fun _ _ _ => Iff.rfl, ?_, ?_⟩
  · exact ⟨h.outside.allocated, h.outside.distinct, h.outside.loaded, h.outside.old⟩
  · exact ⟨h.values.held, h.values.order⟩

/-- A producer that does not hold the node moves. -/
theorem Held.move {a : Addr} {p : P} {pc : Producer T} (h : s.Held chain a)
    (hproducers : s'.producers = Function.update s.producers p pc) (hp : ∀ val, s.producers p ≠ .allocated val a)
    (hconsumer : s'.consumer = s.consumer) : s'.Held chain a := by
  rcases h with h | ⟨q, val, hq⟩ | ⟨val, hc⟩
  · exact .inl h
  · refine .inr (.inl ⟨q, val, ?_⟩)
    rw [producers_of_ne hproducers, hq]
    rintro rfl
    exact hp val hq
  · exact .inr (.inr ⟨val, hconsumer.trans hc⟩)

theorem Owned.alloc (ho : s.Owned chain) {p : P} {val : T} {node : Addr} (hp : s.producers p = .checked val) :
    ({ s with heap := Function.update s.heap node (some ⟨some val, none⟩) }.moveTo p (.allocated val node)).Owned
      chain := by
  intro a ha
  by_cases hnode : a = node
  · subst hnode
    exact .inr (.inl ⟨p, val, producers_self rfl⟩)
  · have hlive : s.heap a ≠ none := by
      rwa [← Function.update_of_ne hnode (some ⟨some val, none⟩) s.heap]
    exact (ho a hlive).move rfl (by rw [hp]; rintro _ ⟨⟩) rfl

theorem Owned.exchange (ho : s.Owned chain) {p : P} {val : T} {node : Addr} (hp : s.producers p = .allocated val node) :
    ({ s with tail := node, exchanged := s.exchanged ++ [(p, val)] }.moveTo p (.exchanged s.tail node)).Owned
      (chain ++ [node]) := by
  intro a ha
  by_cases hnode : a = node
  · exact .inl (List.mem_append_right _ (List.mem_singleton.2 hnode))
  · -- the producer held no other node
    have hheld : s.Held (chain ++ [node]) a := (ho a ha).imp_left (List.mem_append_left _)
    refine hheld.move rfl ?_ rfl
    intro val' heq
    rw [hp] at heq
    cases heq
    exact hnode rfl

theorem Owned.store (ho : s.Owned chain) {p : P} {prev node : Addr} {n : Node T} (hp : s.producers p = .exchanged prev node)
    (hn : s.heap prev = some n) :
    ({ s with heap := Function.update s.heap prev (some { n with next := some node }) }.moveTo p .idle).Owned chain := by
  intro a ha
  have hlive : s.heap a ≠ none := by
    by_cases hprev : a = prev
    · rw [hprev, hn]
      exact Option.some_ne_none _
    · rwa [← Function.update_of_ne hprev (some { n with next := some node }) s.heap]
  exact (ho a hlive).move rfl (by rw [hp]; rintro _ ⟨⟩) rfl

omit [DecidableEq P] in
/-- The old head leaves the chain and is in the hand of the consumer. -/
theorem Owned.advance (h : s.Linked chain) (ho : s.Owned chain) {next : Addr} {val : T} {link : Option Addr}
    (hc : s.consumer = .loaded next) (hn : s.heap next = some ⟨some val, link⟩) :
    Owned ({ s with
      heap := Function.update s.heap next (some ⟨none, link⟩)
      head := next
      consumer := .advanced s.head val } : MpscQueue P T) chain.tail := by
  intro a ha
  have hlive : s.heap a ≠ none := by
    by_cases hnext : a = next
    · rw [hnext, hn]
      exact Option.some_ne_none _
    · rwa [← Function.update_of_ne hnext (some ⟨none, link⟩) s.heap]
  rcases ho a hlive with hmem | hp | ⟨val', hc'⟩
  · have hhead := h.head
    cases chain with
    | nil => cases hmem
    | cons x rest =>
      obtain rfl : x = s.head := Option.some.inj hhead
      rcases List.mem_cons.1 hmem with rfl | hmem
      · exact .inr (.inr ⟨val, rfl⟩)
      · exact .inl hmem
  · exact .inr (.inl hp)
  · rw [hc] at hc'
    cases hc'

omit [DecidableEq P] in
theorem Owned.delete (ho : s.Owned chain) {old : Addr} {val : T} (hc : s.consumer = .advanced old val) :
    Owned ({ s with
      heap := Function.update s.heap old none
      consumer := .idle
      dequeued := s.dequeued ++ [val] } : MpscQueue P T) chain := by
  intro a ha
  have hold : a ≠ old := by
    rintro rfl
    exact ha (Function.update_self ..)
  have hlive : s.heap a ≠ none := by
    rwa [← Function.update_of_ne hold none s.heap]
  rcases ho a hlive with hmem | hp | ⟨val', hc'⟩
  · exact .inl hmem
  · exact .inr (.inl hp)
  · rw [hc] at hc'
    cases hc'
    exact absurd rfl hold

/-- The step lemma. -/
theorem Owned.step {a : Action P T} (hs : s.step a = some s') (h : s.Ok chain) (ho : s.Owned chain) :
    ∃ chain', s'.Ok chain' ∧ s'.Owned chain' := by
  cases steps hs with
  | closed p val hp hc => exact ⟨chain, h, ho⟩
  | loadClosed p val hp hc =>
    refine ⟨chain, h.loadClosed hp, fun a ha => ?_⟩
    exact (ho a ha).move rfl (by rw [hp]; rintro _ ⟨⟩) rfl
  | alloc p node val hp hn => exact ⟨chain, h.alloc hp hn, ho.alloc hp⟩
  | exchange p val node hp => exact ⟨chain ++ [node], h.exchange hp, ho.exchange hp⟩
  | store p prev node n hp hn => exact ⟨chain, h.store hp hn, ho.store hp hn⟩
  | close => exact ⟨chain, h.close, ho⟩
  | noNext n hc hn hnext => exact ⟨chain, h, ho⟩
  | loadNext n next hc hn hnext =>
    refine ⟨chain, h.loadNext hc hn hnext, fun a ha => ?_⟩
    refine (ho a ha).imp_right (Or.imp_right ?_)
    rintro ⟨val, hold⟩
    rw [hc] at hold
    cases hold
  | advance next val link hc hn =>
    exact ⟨chain.tail, h.advance hc hn rfl rfl rfl rfl rfl rfl rfl rfl, ho.advance h.linked hc hn⟩
  | delete old val hc => exact ⟨chain, h.delete hc, ho.delete hc⟩

/-- The run lemma. -/
theorem run_owned (stub : Addr) (actions : List (Action P T)) (hrun : Machine.run step (start P T stub) actions = some s) :
    ∃ chain, s.Ok chain ∧ s.Owned chain := by
  have hstep : ∀ (s : MpscQueue P T) (a : Action P T) (s' : MpscQueue P T), True → s.step a = some s' →
      (∃ chain, s.Ok chain ∧ s.Owned chain) → ∃ chain, s'.Ok chain ∧ s'.Owned chain := by
    rintro s a s' - hs ⟨chain, h, ho⟩
    exact ho.step hs h
  refine Machine.run_invariant hstep actions _ s (fun _ _ => trivial) hrun ⟨[stub], start_ok stub, fun a ha => ?_⟩
  refine .inl (List.mem_singleton.2 ?_)
  by_contra hne
  exact ha (if_neg hne)

end Steps

/-! ## A queue that no thread is in -/

/-- No thread is in a call. -/
structure Quiet [DecidableEq P] (s : MpscQueue P T) (chain : List Addr) : Prop where
  ok : s.Ok chain
  owned : s.Owned chain
  producers : ∀ p, s.producers p = .idle
  consumer : s.consumer = .idle

section Quiet

variable [DecidableEq P] {s s' : MpscQueue P T} {chain : List Addr}

/-- The nodes that are allocated are those of the chain. -/
theorem Quiet.live_iff (h : s.Quiet chain) {a : Addr} : s.heap a ≠ none ↔ a ∈ chain := by
  refine ⟨fun ha => ?_, h.ok.linked.live a⟩
  rcases h.owned a ha with hmem | ⟨p, val, hp⟩ | ⟨val, hc⟩
  · exact hmem
  · rw [h.producers p] at hp
    cases hp
  · rw [h.consumer] at hc
    cases hc

/-- Besides its first node, the chain has one node for every value that has not been dequeued. -/
theorem Quiet.length_chain (h : s.Quiet chain) : chain.length + s.dequeued.length = s.exchanged.length + 1 := by
  have hlen := congrArg List.length h.ok.values.held
  have hpos : 0 < chain.length := List.length_pos_of_mem h.ok.linked.head_mem
  rw [h.consumer] at hlen
  simp only [Consumer.hand, List.length_map, List.length_append, List.length_nil, List.length_tail] at hlen
  omega

/-- If the chain has only one node, `dequeue` returns nothing. -/
theorem Quiet.dequeue_none (h : s.Quiet [s.head]) : s.dequeue = some (none, s) := by
  obtain ⟨n, hn⟩ := Option.ne_none_iff_exists'.1 (h.ok.linked.live _ (List.mem_singleton.2 rfl))
  have hends : s.head = s.tail := Option.some.inj h.ok.linked.last
  have hnext : n.next = none := by
    have hlast := h.ok.linked.lastNext
    rwa [← hends, MpscQueue.next, hn] at hlast
  simp only [dequeue, step, h.consumer, hn, hnext, Option.bind_some]

/-- Otherwise it takes the value of the second node and deletes the first. -/
theorem Quiet.dequeue_some {y : Addr} {rest : List Addr} (h : s.Quiet (s.head :: y :: rest)) :
    ∃ val s', s.dequeue = some (some val, s') ∧ s'.Quiet (y :: rest) ∧ s'.exchanged = s.exchanged := by
  have hfollows : Follows (s.head :: y :: rest) s.head y := .inl ⟨rfl, rfl⟩
  have hnext : s.next s.head = some y := by
    refine (h.ok.linked.links _ _ hfollows).resolve_right ?_
    rintro ⟨p, hp⟩
    rw [h.producers p] at hp
    cases hp
  obtain ⟨n, hn, hlink⟩ := Option.bind_eq_some_iff.1 hnext
  -- the node behind the head holds a value that has been exchanged
  have hdata : ∃ val, s.data y = some val := by
    have hheld := h.ok.values.held
    have hmem : s.data y ∈ s.exchanged.map fun q => some q.2 := by
      rw [hheld]
      simp
    obtain ⟨q, -, hq⟩ := List.mem_map.1 hmem
    exact ⟨q.2, hq.symm⟩
  obtain ⟨val, hval⟩ := hdata
  obtain ⟨⟨d, link⟩, hy, hd⟩ := Option.bind_eq_some_iff.1 hval
  obtain rfl : d = some val := hd
  let s₁ : MpscQueue P T := { s with consumer := .loaded y }
  let s₂ : MpscQueue P T :=
    { s₁ with heap := Function.update s₁.heap y (some ⟨none, link⟩), head := y, consumer := .advanced s.head val }
  let s₃ : MpscQueue P T :=
    { s₂ with heap := Function.update s₂.heap s.head none, consumer := .idle, dequeued := s.dequeued ++ [val] }
  have h₁ : s.step .loadNext = some s₁ := by simp only [step, h.consumer, hn, hlink, s₁]
  have h₂ : s₁.step .advance = some s₂ := by simp only [step, hy, s₁, s₂]
  have hok₁ : s₁.Ok (s.head :: y :: rest) := h.ok.loadNext h.consumer hn hlink
  have hok₂ : s₂.Ok (y :: rest) := hok₁.advance rfl hy rfl rfl rfl rfl rfl rfl rfl rfl
  have howned₁ : s₁.Owned (s.head :: y :: rest) := fun a ha => .inl (h.live_iff.1 ha)
  have howned₂ : s₂.Owned (y :: rest) := howned₁.advance hok₁.linked rfl hy
  refine ⟨val, s₃, ?_, ⟨hok₂.delete rfl, howned₂.delete rfl, h.producers, rfl⟩, rfl⟩
  rw [dequeue, h₁, Option.bind_some]
  show (s₁.step .advance).bind _ = _
  rw [h₂]
  rfl

/-- The loop of the destructor goes through the chain. -/
theorem Quiet.drain : ∀ {chain : List Addr} {s : MpscQueue P T} {fuel : ℕ}, s.Quiet chain → chain.length ≤ fuel →
    ∃ s', s.drain fuel = some s' ∧ s'.Quiet [s'.head] ∧ s'.exchanged = s.exchanged
  | chain, s, 0, h, hfuel => by
    have hpos : 0 < chain.length := List.length_pos_of_mem h.ok.linked.head_mem
    omega
  | [], s, fuel + 1, h, _ => by
    have hhead := h.ok.linked.head
    cases hhead
  | [x], s, fuel + 1, h, _ => by
    obtain rfl : x = s.head := Option.some.inj h.ok.linked.head
    exact ⟨s, by rw [MpscQueue.drain, h.dequeue_none], h, rfl⟩
  | x :: y :: rest, s, fuel + 1, h, hfuel => by
    obtain rfl : x = s.head := Option.some.inj h.ok.linked.head
    obtain ⟨val, s₁, hs₁, h₁, hexchanged⟩ := h.dequeue_some
    obtain ⟨s', hs', h', hsame⟩ := h₁.drain (Nat.le_of_succ_le_succ hfuel)
    exact ⟨s', by rw [MpscQueue.drain, hs₁]; exact hs', h', hsame.trans hexchanged⟩

/-- The destructor deletes the last node, and nothing is left. -/
theorem Quiet.destroy (h : s.Quiet chain) {fuel : ℕ} (hfuel : chain.length ≤ fuel) :
    ∃ s', s.destroy fuel = some s' ∧ s'.dequeued = s.exchanged.map Prod.snd ∧ ∀ a, s'.heap a = none := by
  have hclosed : Quiet { s with closed := true } chain := ⟨h.ok.close, h.owned, h.producers, h.consumer⟩
  obtain ⟨s₁, hs₁, h₁, hexchanged⟩ := hclosed.drain hfuel
  obtain ⟨n, hn⟩ := Option.ne_none_iff_exists'.1 (h₁.ok.linked.live _ (List.mem_singleton.2 rfl))
  refine ⟨{ s₁ with heap := Function.update s₁.heap s₁.head none }, ?_, ?_, fun a => ?_⟩
  · rw [MpscQueue.destroy, hs₁, Option.bind_some, deleteHead, hn, Option.map_some]
  · obtain ⟨left, inside, heq, hleft, hinside⟩ := h₁.ok.exchanged_eq
    rw [List.tail_cons, List.map_nil, List.map_eq_nil_iff] at hinside
    rw [h₁.consumer] at hleft
    show s₁.dequeued = _
    rw [← hexchanged, heq, hinside, List.append_nil, hleft]
    exact (List.append_nil _).symm
  · by_cases ha : a = s₁.head
    · exact ha ▸ Function.update_self ..
    · have hdead : s₁.heap a = none := by
        by_contra hlive
        exact ha (List.mem_singleton.1 (h₁.live_iff.1 hlive))
      exact (Function.update_of_ne ha ..).trans hdead

/-- In every state of every interleaving the node that the consumer deletes is allocated. When no thread is in a call,
there is one node more than there are values in the queue, and the destructor ends, drops these values in their order,
accesses no node that has been deleted, and leaves none allocated. -/
theorem memory_reclaimed (stub : Addr) (actions : List (Action P T)) (s : MpscQueue P T)
    (hrun : Machine.run step (start P T stub) actions = some s) :
    (∀ old val, s.consumer = .advanced old val → s.heap old ≠ none) ∧
      ((∀ p, s.producers p = .idle) → s.consumer = .idle →
        { a | s.heap a ≠ none }.ncard + s.dequeued.length = s.exchanged.length + 1 ∧
          ∀ fuel, s.exchanged.length < s.dequeued.length + fuel → ∃ s', s.destroy fuel = some s' ∧
            s'.dequeued = s.exchanged.map Prod.snd ∧ ∀ a, s'.heap a = none) := by
  obtain ⟨chain, h, ho⟩ := run_owned stub actions hrun
  constructor
  · intro old val hc
    exact (h.outside.old old val hc).1
  · intro hproducers hconsumer
    have hquiet : s.Quiet chain := ⟨h, ho, hproducers, hconsumer⟩
    have hlength := hquiet.length_chain
    constructor
    · have hnodes : { a | s.heap a ≠ none } = (chain.toFinset : Set Addr) := by
        ext a
        simp [← hquiet.live_iff]
      rw [hnodes, Set.ncard_coe_finset, List.toFinset_card_of_nodup h.linked.nodup]
      exact hlength
    · intro fuel hfuel
      exact hquiet.destroy (by omega)

end Quiet

/-- Three values are put in and one is taken out; the third node is where the stub was. -/
def threeIn : List (Action Bool ℕ) :=
  [.loadClosed true 5, .alloc true 1, .exchange true, .store true, .loadClosed false 6, .alloc false 2, .exchange false,
    .store false, .loadNext, .advance, .delete, .loadClosed true 7, .alloc true 0, .exchange true, .store true]

theorem memory_reclaimed_three : ∃ s s', Machine.run step (start Bool ℕ 0) threeIn = some s ∧ s.dequeued = [5] ∧
    s.destroy 3 = some s' ∧ s'.dequeued = s.exchanged.map Prod.snd ∧ ∀ a, s'.heap a = none := by
  have hsome : (Machine.run step (start Bool ℕ 0) threeIn).isSome := by decide
  have hquiet := (memory_reclaimed 0 threeIn _ (Option.some_get hsome).symm).2
  obtain ⟨s', hdestroy, hdropped, hfree⟩ := (hquiet (by rintro (_ | _) <;> rfl) rfl).2 3 (show (3 : ℕ) < 4 by decide)
  exact ⟨_, s', (Option.some_get hsome).symm, rfl, hdestroy, hdropped, hfree⟩

end MpscQueue

end StockExchange
