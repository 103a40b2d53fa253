/-
`ExecutionPipeline::stop` returns. Once `running_` is cleared, every turn of `dispatch_loop` after the one under way takes a
value out of a queue, for it is entered only when one of them was not empty. So the dispatch thread takes at most twelve
steps for each value that is left or that a publisher still puts in, and while `stop` waits, the dispatch thread or `stop`
itself can go on.
-/
import StockExchange.Pipeline.Stopping
import StockExchange.Lib.Flow
import Mathlib.Algebra.Order.BigOperators.Group.Finset
import Mathlib.Data.Fintype.Card

universe u v

namespace StockExchange

namespace MpscQueue

variable {P : Type u} {T : Type v} {q q' : MpscQueue P T} {chain : List Addr}

/-- The next `dequeue` returns a value, or the one under way does. -/
def ready (q : MpscQueue P T) : Bool :=
  match q.consumer with
  | .idle => (q.next q.head).isSome
  | _ => true

/-- The values that have gone in and not come out. -/
def left (q : MpscQueue P T) : ℕ := q.exchanged.length - q.dequeued.length

/-- The steps that `dequeue` has still to take. -/
def Consumer.steps : Consumer T → ℕ
  | .idle => 2
  | .loaded _ => 1
  | .advanced _ _ => 0

variable [DecidableEq P] {b : Action P T}

/-- Only the end of `dequeue` leaves a queue not ready that was. -/
theorem Ok.ready_step (h : q.Ok chain) (hs : q.step b = some q') (hb : b ≠ .delete) (hready : q.ready = true) :
    q'.ready = true := by
  have hlive := h.linked.live q.head h.linked.head_mem
  cases steps hs with
  | alloc p node val hp hn =>
    have hne : q.head ≠ node := fun heq => hlive (heq ▸ hn)
    simp only [ready, moveTo, MpscQueue.next, Function.update_of_ne hne]
    exact hready
  | store p prev node n hp hn =>
    by_cases hhead : q.head = prev
    · simp only [ready, moveTo, MpscQueue.next, hhead, Function.update_self]
      split <;> rfl
    · simp only [ready, moveTo, MpscQueue.next, Function.update_of_ne hhead]
      exact hready
  | loadNext n next hc hn hnext => rfl
  | advance next val link hc hn => rfl
  | delete old val hc => exact absurd rfl hb
  | _ => exact hready

theorem left_step (hs : q.step b = some q') (hex : ∀ p, b ≠ .exchange p) (hb : b ≠ .delete) : q'.left = q.left := by
  cases steps hs with
  | exchange p val node hp => exact absurd rfl (hex p)
  | delete old val hc => exact absurd rfl hb
  | _ => rfl

theorem left_exchange {p : P} (hs : q.step (.exchange p) = some q') : q'.left ≤ q.left + 1 := by
  cases steps hs with
  | exchange p val node hp =>
    simp only [left, moveTo, List.length_append, List.length_singleton]
    omega

theorem Ok.left_delete (h : q.Ok chain) (hs : q.step .delete = some q') : q'.left + 1 = q.left := by
  cases steps hs with
  | delete old val hc =>
    obtain ⟨out, inside, heq, hout, -⟩ := h.exchanged_eq
    have hlen := congrArg List.length hout
    rw [hc] at hlen
    simp only [left, heq, List.length_append, List.length_singleton, List.length_map, Consumer.hand] at hlen ⊢
    omega

/-- A consumer that has loaded the next node can go on. -/
theorem Ok.advances (h : q.Ok chain) {next : Addr} (hc : q.consumer = .loaded next) : (q.step .advance).isSome = true := by
  obtain ⟨rest, rfl⟩ := h.linked.second (h.outside.loaded next hc)
  have hheld := h.values.held
  have hdata : ∃ val, q.data next = some val := by
    have hmem : q.data next ∈ q.exchanged.map fun e => some e.2 := by
      rw [hheld]
      simp
    obtain ⟨e, -, he⟩ := List.mem_map.1 hmem
    exact ⟨e.2, he.symm⟩
  obtain ⟨val, hval⟩ := hdata
  obtain ⟨n, hn, hdata⟩ := Option.bind_eq_some_iff.1 hval
  obtain ⟨data, link⟩ := n
  cases hdata
  simp [MpscQueue.step, hc, hn]

end MpscQueue

namespace ExecutionPipeline

variable {P : Type u} {S : Type v} {s s' : ExecutionPipeline P S} {a : Action P S}

/-- The step is of the dispatch thread. -/
def Action.dispatches : Action P S → Bool
  | .test => true
  | .testEmpty => true
  | .loadNext => true
  | .advance => true
  | .delete => true
  | .lookup => true
  | .send => true
  | _ => false

/-- The steps that the dispatch thread has still to take in the turn under way, and twelve more where this turn may take
nothing out. -/
def Dispatcher.cost (ready : Kind → Bool) (steps : Kind → ℕ) : Dispatcher S → ℕ
  | .finished => 12
  | .testEmpty .trade => 13
  | .testEmpty .report => 14
  | .test => 15
  | .dequeue .trade => (if ready .trade then 0 else 12) + 4 + steps .trade
  | .send _ _ => (if ready .trade then 0 else 12) + 7
  | .lookup _ => (if ready .trade then 0 else 12) + 8
  | .dequeue .report => (if ready .report || ready .trade then 0 else 12) + 9 + steps .report

theorem Dispatcher.cost_mono {ready ready' : Kind → Bool} (steps : Kind → ℕ)
    (h : ∀ k, ready k = true → ready' k = true) (d : Dispatcher S) : d.cost ready' steps ≤ d.cost ready steps := by
  have hpen : ∀ {x y : Bool}, (x = true → y = true) → (if y then 0 else 12) ≤ if x then 0 else 12 := by
    intro x y hxy
    cases x with
    | true => rw [hxy rfl]
    | false => cases y <;> decide
  have htrade := hpen (h .trade)
  have hboth : (if ready' .report || ready' .trade then 0 else 12) ≤ if ready .report || ready .trade then 0 else 12 := by
    refine hpen fun hor => ?_
    rw [Bool.or_eq_true] at hor ⊢
    exact hor.imp (h .report) (h .trade)
  cases d with
  | testEmpty k => cases k <;> exact Nat.le_refl _
  | dequeue k =>
    cases k with
    | report =>
      simp only [cost]
      omega
    | trade =>
      simp only [cost]
      omega
  | send session report =>
    simp only [cost]
    omega
  | lookup report =>
    simp only [cost]
    omega
  | _ => exact Nat.le_refl _

def cost (s : ExecutionPipeline P S) : ℕ :=
  (s.dispatcher.map (Dispatcher.cost (fun k => (s.queues k).ready) fun k => (s.queues k).consumer.steps)).getD 0

/-- What the values in the queues are worth. -/
def stock (s : ExecutionPipeline P S) : ℕ := 12 * ((s.queues .report).left + (s.queues .trade).left)

/-- A publisher in `enqueue` may still put its value in. -/
def Publisher.weight : Publisher → ℕ
  | .enqueue _ _ => 12
  | _ => 0

def potential [Fintype P] (s : ExecutionPipeline P S) : ℕ := s.stock + (∑ p, (s.publishers p).weight) + s.cost

/-! ## What a step spends -/

theorem stock_putQueue (s : ExecutionPipeline P S) (j : Kind) (q : MpscQueue P j.Value) :
    (s.putQueue j q).stock + 12 * (s.queues j).left = s.stock + 12 * q.left := by
  unfold stock
  cases j with
  | report =>
    rw [putQueue_queues_self, s.putQueue_queues_of_ne q (by rintro ⟨⟩)]
    omega
  | trade =>
    rw [putQueue_queues_self, s.putQueue_queues_of_ne q (by rintro ⟨⟩)]
    omega

@[simp] theorem putQueue_report_trade (s : ExecutionPipeline P S) (q : MpscQueue P (Kind.Value .report)) :
    (s.putQueue .report q).queues .trade = s.queues .trade := putQueue_queues_of_ne s q (by rintro ⟨⟩)

theorem stock_congr {t : ExecutionPipeline P S} (h : s.queues = t.queues) : s.stock = t.stock := by
  unfold stock
  rw [h]

theorem ready_of_next {T : Type} {q : MpscQueue P T} (hc : q.consumer = .idle) : q.ready = (q.next q.head).isSome := by
  rw [MpscQueue.ready, hc]

theorem cost_eq {d : Dispatcher S} (hd : s.dispatcher = some d) :
    s.cost = d.cost (fun k => (s.queues k).ready) fun k => (s.queues k).consumer.steps := by
  rw [cost, hd]
  rfl

/-- A step of others leaves the dispatch thread no more to do. -/
theorem cost_le (hd : s'.dispatcher = s.dispatcher) (hc : ∀ k, (s'.queues k).consumer = (s.queues k).consumer)
    (hr : ∀ k, (s.queues k).ready = true → (s'.queues k).ready = true) : s'.cost ≤ s.cost := by
  have hsteps : (fun k => (s'.queues k).consumer.steps) = fun k => (s.queues k).consumer.steps :=
    funext fun k => congrArg MpscQueue.Consumer.steps (hc k)
  unfold cost
  rw [hd, hsteps]
  cases s.dispatcher with
  | none => exact Nat.le_refl _
  | some d =>
    simp only [Option.map_some, Option.getD_some]
    exact Dispatcher.cost_mono _ hr d

variable [DecidableEq P]

theorem cost_putQueue (hok : s.Ok) {j : Kind} {q : MpscQueue P j.Value} {b : MpscQueue.Action P j.Value}
    (hq : (s.queues j).step b = some q) (hb : b.consumes = false) : (s.putQueue j q).cost ≤ s.cost := by
  refine cost_le rfl (fun k => (putQueue_consumer hq hb k).1) fun k hready => ?_
  by_cases hk : k = j
  · subst hk
    obtain ⟨chain, hchain⟩ := hok.chained k
    rw [putQueue_queues_self]
    refine hchain.ready_step hq ?_ hready
    rintro rfl
    cases hb
  · rwa [s.putQueue_queues_of_ne q hk]

omit [DecidableEq P] in
/-- The dispatch thread moves outside the queues. -/
theorem paid_outside {d d' : Dispatcher S} (hd : s.dispatcher = some d) (hd' : s'.dispatcher = some d')
    (hqueues : s'.queues = s.queues)
    (hcost : 1 + d'.cost (fun k => (s.queues k).ready) (fun k => (s.queues k).consumer.steps) ≤
      d.cost (fun k => (s.queues k).ready) fun k => (s.queues k).consumer.steps) :
    1 + (s'.stock + s'.cost) ≤ s.stock + s.cost := by
  rw [cost_eq hd, cost_eq hd', hqueues, stock_congr hqueues]
  omega

omit [DecidableEq P] in
/-- The dispatch thread moves in a queue, and takes some values out. -/
theorem paid_inside {k : Kind} {q : MpscQueue P k.Value} {d' : Dispatcher S} {n : ℕ}
    (hd : s.dispatcher = some (.dequeue k)) (hd' : s'.dispatcher = some d') (hqueues : s'.queues = (s.putQueue k q).queues)
    (hleft : q.left + n = (s.queues k).left)
    (hcost : 1 + d'.cost (fun j => ((s.putQueue k q).queues j).ready)
        (fun j => ((s.putQueue k q).queues j).consumer.steps) ≤
      (Dispatcher.dequeue k : Dispatcher S).cost (fun j => (s.queues j).ready) (fun j => (s.queues j).consumer.steps) +
        12 * n) :
    1 + (s'.stock + s'.cost) ≤ s.stock + s.cost := by
  have hstock := s.stock_putQueue k q
  rw [cost_eq hd, cost_eq hd', hqueues, stock_congr hqueues]
  omega

/-- Once `running_` is cleared, what the dispatch thread does is paid for by what there is to do. -/
theorem step_dispatch (hs : s.step a = some s') (hok : s.Ok) (hrun : s.running = false) (ha : a.dispatches = true) :
    1 + (s'.stock + s'.cost) ≤ s.stock + s.cost ∧ s'.publishers = s.publishers := by
  cases steps hs with
  | test hd =>
    refine ⟨paid_outside hd rfl rfl ?_, rfl⟩
    rw [hrun]
    exact Nat.le_refl _
  | testEmpty k empty hd he =>
    refine ⟨paid_outside hd rfl rfl ?_, rfl⟩
    have hidle : ∀ j, (s.queues j).consumer = .idle := fun j => hok.dispatching.consumer j (by rw [hd]; rintro ⟨⟩)
    cases empty with
    | true => cases k <;> exact Nat.le_refl _
    | false =>
      -- the turn is entered since this queue is not empty
      have hready : (s.queues k).ready = true := by
        obtain ⟨n, hn, hnone⟩ := Option.map_eq_some_iff.1 he
        rw [ready_of_next (hidle k), MpscQueue.next, hn, Option.bind_some]
        simpa using hnone
      have hor : ((s.queues .report).ready || (s.queues .trade).ready) = true := by
        cases k <;> simp [hready]
      cases k <;> simp [Dispatcher.cost, hor, hidle, MpscQueue.Consumer.steps]
  | loadNext k q hd hq =>
    refine ⟨?_, rfl⟩
    cases MpscQueue.steps hq with
    | noNext n hc hn hnext =>
      have hready : (s.queues k).ready = false := by
        rw [ready_of_next hc, MpscQueue.next, hn, Option.bind_some, hnext]
        rfl
      refine paid_inside (n := 0) hd rfl rfl rfl ?_
      rw [putQueue_same, hc]
      cases k with
      | report =>
        simp only [Dispatcher.afterNothing, Dispatcher.cost, hready, Bool.false_or, hc, MpscQueue.Consumer.steps,
          hok.dispatching.consumer .trade (by rw [hd]; rintro ⟨⟩)]
        omega
      | trade => simp [Dispatcher.afterNothing, Dispatcher.cost, hready, hc, MpscQueue.Consumer.steps]
    | loadNext n next hc hn hnext =>
      refine paid_inside (n := 0) hd rfl rfl rfl ?_
      cases k with
      | report => simp [Dispatcher.cost, hc, MpscQueue.Consumer.steps, MpscQueue.ready]
      | trade => simp [Dispatcher.cost, hc, MpscQueue.Consumer.steps, MpscQueue.ready]
  | advance k q hd hq =>
    refine ⟨?_, rfl⟩
    cases MpscQueue.steps hq with
    | advance next val link hc hn =>
      refine paid_inside (n := 0) hd hd rfl rfl ?_
      cases k with
      | report => simp [Dispatcher.cost, hc, MpscQueue.Consumer.steps, MpscQueue.ready]
      | trade => simp [Dispatcher.cost, hc, MpscQueue.Consumer.steps, MpscQueue.ready]
  | delete k old val q hd hc hq =>
    obtain ⟨chain, hchain⟩ := hok.chained k
    refine ⟨paid_inside hd rfl rfl (hchain.left_delete hq) ?_, rfl⟩
    cases k with
    | report =>
      simp only [Dispatcher.after, Dispatcher.cost, putQueue_report_trade]
      split <;> omega
    | trade =>
      simp only [Dispatcher.after, Dispatcher.cost]
      omega
  | lookup report hd =>
    refine ⟨paid_outside hd rfl rfl ?_, rfl⟩
    have hidle : ∀ j, (s.queues j).consumer = .idle := fun j => hok.dispatching.consumer j (by rw [hd]; rintro ⟨⟩)
    split
    · simp only [Dispatcher.cost]
      omega
    · simp only [Dispatcher.cost, hidle, MpscQueue.Consumer.steps]
      omega
  | send session report hd =>
    refine ⟨paid_outside hd rfl rfl ?_, rfl⟩
    have hidle : (s.queues .trade).consumer = .idle := hok.dispatching.consumer .trade (by rw [hd]; rintro ⟨⟩)
    simp only [Dispatcher.cost, hidle, MpscQueue.Consumer.steps]
    omega
  | _ => cases ha

variable [Fintype P]

/-- A publisher moves. -/
theorem weight_moveTo (s : ExecutionPipeline P S) (p : P) (pc : Publisher) :
    (∑ r, ((s.moveTo p pc).publishers r).weight) + (s.publishers p).weight =
      pc.weight + ∑ r, (s.publishers r).weight :=
  Flow.sum_weight_update Finset.univ Publisher.weight s.publishers (Finset.mem_univ p) pc

/-- A publisher moves in a queue, or gets a value in. -/
theorem potential_moveTo {t : ExecutionPipeline P S} {p : P} {old pc : Publisher} (hp : s.publishers p = old)
    (hpublishers : t.publishers = s.publishers) (hcost : t.cost ≤ s.cost)
    (hpaid : t.stock + pc.weight ≤ s.stock + old.weight) : (t.moveTo p pc).potential ≤ s.potential := by
  have hweight := t.weight_moveTo p pc
  have hstock : (t.moveTo p pc).stock = t.stock := rfl
  have hsame : (t.moveTo p pc).cost = t.cost := rfl
  rw [hpublishers, hp] at hweight
  unfold potential
  omega

/-- The other threads bring nothing that was not there. -/
theorem step_others (hs : s.step a = some s') (hok : s.Ok) (hrun : s.running = false) (ha : a.dispatches = false) :
    s'.potential ≤ s.potential := by
  have hleft : ∀ {j : Kind} {q : MpscQueue P j.Value} {b : MpscQueue.Action P j.Value}, (s.queues j).step b = some q →
      (∀ p, b ≠ .exchange p) → b ≠ .delete → (s.putQueue j q).stock = s.stock := by
    intro j q b hq hex hb
    have hstock := s.stock_putQueue j q
    rw [MpscQueue.left_step hq hex hb] at hstock
    omega
  cases steps hs with
  | publish p k val hp hrun' => cases hrun.symm.trans hrun'
  | givenUp p k val hp _ => exact potential_moveTo hp rfl (Nat.le_refl _) (Nat.le_refl _)
  | loop p k val hp hrun' => cases hrun.symm.trans hrun'
  | loadClosed p k val q hp hq =>
    refine potential_moveTo hp rfl (cost_putQueue hok hq rfl) ?_
    rw [hleft hq (by rintro p ⟨⟩) (by rintro ⟨⟩)]
    split
    · exact Nat.le_add_right ..
    · exact Nat.le_refl _
  | alloc p node k val q hp hq =>
    have hcost := cost_putQueue hok hq rfl
    have hstock := hleft hq (by rintro p ⟨⟩) (by rintro ⟨⟩)
    have hpublishers : (s.putQueue k q).publishers = s.publishers := rfl
    unfold potential
    rw [hpublishers]
    omega
  | exchange p k val q hp hq =>
    have hstock := s.stock_putQueue k q
    have hone := MpscQueue.left_exchange hq
    refine potential_moveTo hp rfl (cost_putQueue hok hq rfl) ?_
    simp only [Publisher.weight]
    omega
  | store p k q hp hq =>
    refine potential_moveTo hp rfl (cost_putQueue hok hq rfl) ?_
    rw [hleft hq (by rintro p ⟨⟩) (by rintro ⟨⟩)]
    exact Nat.le_refl _
  | spawn hc =>
    have hfits := hok.threads.caller
    rw [hc] at hfits
    cases hrun.symm.trans hfits.1
  | close k q hc hq =>
    have hcost := cost_putQueue hok hq rfl
    have hstock := hleft hq (by rintro p ⟨⟩) (by rintro ⟨⟩)
    exact Nat.add_le_add (Nat.add_le_add (Nat.le_of_eq hstock) (Nat.le_refl _)) hcost
  | join hc hd => exact Nat.add_le_add_left (Nat.zero_le _) _
  | test hd => cases ha
  | testEmpty k empty hd he => cases ha
  | loadNext k q hd hq => cases ha
  | advance k q hd hq => cases ha
  | delete k old val q hd hc hq => cases ha
  | lookup report hd => cases ha
  | send session report hd => cases ha
  | _ => exact Nat.le_refl _

theorem step_potential (hs : s.step a = some s') (hok : s.Ok) (hrun : s.running = false) :
    (if a.dispatches then 1 else 0) + s'.potential ≤ s.potential := by
  cases ha : a.dispatches with
  | true =>
    obtain ⟨hpaid, hpublishers⟩ := step_dispatch hs hok hrun ha
    rw [if_pos rfl, potential, potential, hpublishers]
    omega
  | false =>
    have hle := step_others hs hok hrun ha
    rw [if_neg Bool.false_ne_true]
    omega

omit [Fintype P] in
/-- The head of a queue is a node. -/
theorem Ok.head_live (h : s.Ok) (k : Kind) : ∃ n, (s.queues k).heap (s.queues k).head = some n := by
  obtain ⟨chain, hk⟩ := h.chained k
  exact Option.ne_none_iff_exists'.1 (hk.linked.live _ hk.linked.head_mem)

omit [Fintype P] in
/-- The dispatch thread can go on until it has left its loop. -/
theorem Ok.dispatcher_steps (h : s.Ok) {d : Dispatcher S} (hd : s.dispatcher = some d) (hfin : d ≠ .finished) :
    ∃ a : Action P S, a.dispatches = true ∧ (s.step a).isSome = true := by
  cases d with
  | test => exact ⟨.test, rfl, by simp [ExecutionPipeline.step, hd]⟩
  | testEmpty k =>
    obtain ⟨n, hn⟩ := h.head_live k
    exact ⟨.testEmpty, rfl, by simp [ExecutionPipeline.step, hd, MpscQueue.empty, hn]⟩
  | dequeue k =>
    cases hc : (s.queues k).consumer with
    | idle =>
      obtain ⟨n, hn⟩ := h.head_live k
      refine ⟨.loadNext, rfl, ?_⟩
      have hstep : ((s.queues k).step .loadNext).isSome = true := by
        simp only [MpscQueue.step, hc, hn]
        split <;> rfl
      simpa [ExecutionPipeline.step, hd] using hstep
    | loaded next =>
      obtain ⟨chain, hk⟩ := h.chained k
      exact ⟨.advance, rfl, by simpa [ExecutionPipeline.step, hd] using hk.advances hc⟩
    | advanced old val => exact ⟨.delete, rfl, by simp [ExecutionPipeline.step, hd, hc, MpscQueue.step]⟩
  | lookup report => exact ⟨.lookup, rfl, by simp [ExecutionPipeline.step, hd]⟩
  | send session report => exact ⟨.send, rfl, by simp [ExecutionPipeline.step, hd]⟩
  | finished => exact absurd rfl hfin

omit [Fintype P] in
/-- While `stop` has not returned, it or the dispatch thread can go on. -/
theorem Ok.stop_steps (h : s.Ok) (hstopping : s.caller.stopping = true) :
    ∃ a : Action P S, (a.dispatches = true ∨ a = .close ∨ a = .join) ∧ (s.step a).isSome = true := by
  have hfits := h.threads.caller
  cases hc : s.caller with
  | idle =>
    rw [hc] at hstopping
    cases hstopping
  | spawning =>
    rw [hc] at hstopping
    cases hstopping
  | closing k => exact ⟨.close, .inr (.inl rfl), by simp [ExecutionPipeline.step, hc, MpscQueue.step]⟩
  | joining =>
    rw [hc] at hfits
    obtain ⟨d, hd⟩ := Option.isSome_iff_exists.1 hfits.2
    by_cases hfin : d = .finished
    · subst hfin
      exact ⟨.join, .inr (.inr rfl), by simp [ExecutionPipeline.step, hc, hd]⟩
    · obtain ⟨a, ha, hs⟩ := h.dispatcher_steps hd hfin
      exact ⟨a, .inl ha, hs⟩

omit [DecidableEq P] in
theorem potential_le (s : ExecutionPipeline P S) : s.potential ≤
    12 * ((s.queues .report).left + (s.queues .trade).left + Fintype.card P) + 23 := by
  have hweight : ∑ p, (s.publishers p).weight ≤ Fintype.card P * 12 := by
    refine Finset.sum_le_card_nsmul Finset.univ _ 12 fun p _ => ?_
    cases s.publishers p <;> simp [Publisher.weight]
  have hsteps : ∀ k, (s.queues k).consumer.steps ≤ 2 := by
    intro k
    cases (s.queues k).consumer <;> simp [MpscQueue.Consumer.steps]
  have hcost : s.cost ≤ 23 := by
    cases hd : s.dispatcher with
    | none => simp [cost, hd]
    | some d =>
      rw [cost_eq hd]
      have hreport := hsteps .report
      have htrade := hsteps .trade
      cases d with
      | testEmpty k => cases k <;> simp [Dispatcher.cost]
      | dequeue k =>
        cases k with
        | report =>
          simp only [Dispatcher.cost]
          split <;> omega
        | trade =>
          simp only [Dispatcher.cost]
          split <;> omega
      | lookup report =>
        simp only [Dispatcher.cost]
        split <;> omega
      | send session report =>
        simp only [Dispatcher.cost]
        split <;> omega
      | _ => simp [Dispatcher.cost]
  unfold potential stock
  omega

omit [Fintype P] in
/-- `running_` stays cleared until `start` is called. -/
theorem step_stopped (hs : s.step a = some s') (ha : a ≠ .start) (hrun : s.running = false) : s'.running = false := by
  cases steps hs with
  | start hc _ => exact absurd rfl ha
  | stop hc _ => rfl
  | _ => exact hrun

/-- However the publishers, the sessions and the dispatch thread go on after `stop` has been called: until the pipeline is
started again, the dispatch thread takes at most twelve steps for each value in the queues and for each publisher, and one
turn more; and as long as `stop` has not returned, it or the dispatch thread can take a step. -/
theorem stop_returns (stubs : Kind → MpscQueue.Addr) (before after : List (Action P S)) (s s' : ExecutionPipeline P S)
    (hbefore : Machine.run step (init P S stubs) before = some s) (hrunning : s.running = true)
    (hafter : Machine.run step s (.stop :: after) = some s') (hstart : Action.start ∉ after) :
    after.countP Action.dispatches ≤
        12 * ((s.queues .report).left + (s.queues .trade).left + Fintype.card P) + 23 ∧
      (s'.caller.stopping = true →
        ∃ a : Action P S, (a.dispatches = true ∨ a = .close ∨ a = .join) ∧ (s'.step a).isSome = true) := by
  have hok := run_ok stubs before hbefore
  obtain ⟨s₁, hstop, hrest⟩ := Option.bind_eq_some_iff.1 hafter
  have hstopped : s₁.running = false ∧ s₁.potential = s.potential := by
    cases steps hstop with
    | stopAgain hc hrun => cases hrunning.symm.trans hrun
    | stop hc _ => exact ⟨rfl, rfl⟩
  have hinv : ∀ (t : ExecutionPipeline P S) (a : Action P S) (t' : ExecutionPipeline P S), a ≠ .start → t.step a = some t' →
      t.Ok ∧ t.running = false → t'.Ok ∧ t'.running = false := fun t a t' ha hs h =>
    ⟨h.1.step hs, step_stopped hs ha h.2⟩
  have hadmitted : ∀ a ∈ after, a ≠ .start := fun a ha heq => hstart (heq ▸ ha)
  refine ⟨?_, fun hstopping => ?_⟩
  · have hpaid := Machine.run_potential potential Action.dispatches (fun _ => false) 0 hinv
      (fun t a t' hs h => step_potential hs h.1 h.2) after s₁ s' hadmitted hrest ⟨hok.step hstop, hstopped.1⟩
    have hbound := s.potential_le
    rw [hstopped.2] at hpaid
    omega
  · have hok' := Machine.run_invariant hinv after s₁ s' hadmitted hrest ⟨hok.step hstop, hstopped.1⟩
    exact hok'.1.stop_steps hstopping

/-- Two reports and a trade are left; `stop` still waits when one report and the trade have been taken out. -/
theorem stop_returns_waiting : ∃ s s',
    Machine.run step (init Bool ℕ fun _ => 0) twoPublishers = some s ∧
      Machine.run step s (.stop :: stopAndRestart.take 12) = some s' ∧
      (stopAndRestart.take 12).countP Action.dispatches = 10 ∧ (s.queues .report).left = 2 ∧ (s.queues .trade).left = 1 ∧
      (stopAndRestart.take 12).countP Action.dispatches ≤
        12 * ((s.queues .report).left + (s.queues .trade).left + Fintype.card Bool) + 23 ∧
      ∃ a : Action Bool ℕ, (a.dispatches = true ∨ a = .close ∨ a = .join) ∧ (s'.step a).isSome = true := by
  have hrun : (Machine.run step (init Bool ℕ fun _ => 0) twoPublishers).any fun s =>
      s.running = true ∧ (s.queues .report).left = 2 ∧ (s.queues .trade).left = 1 ∧
        (Machine.run step s (.stop :: stopAndRestart.take 12)).any fun s' => s'.caller.stopping = true := by decide +kernel
  obtain ⟨s, hs, hprop⟩ := (Option.any_eq_true _ _).1 hrun
  obtain ⟨hrunning, hreports, htrades, hrest⟩ := of_decide_eq_true hprop
  obtain ⟨s', hs', hprop'⟩ := (Option.any_eq_true _ _).1 hrest
  obtain ⟨hbound, hgoes⟩ := stop_returns (fun _ => 0) twoPublishers (stopAndRestart.take 12) s s' hs hrunning hs'
    (by simp [stopAndRestart])
  exact ⟨s, s', hs, hs', rfl, hreports, htrades, hbound, hgoes (of_decide_eq_true hprop')⟩

end ExecutionPipeline

end StockExchange
