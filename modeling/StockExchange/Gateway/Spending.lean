/-
The order value limit and what buyers pay. The gateway checks the price field of an order times its quantity when the
packet comes in; the operations that the workers apply, in any order, charge the buyer the prices that the
timestamps pick. The limit holds of what an order that is not modified costs in all its fills, as long as none of them
is at a price above its price field.
-/
import StockExchange.Engine.Spending
import StockExchange.Gateway.ReusedIds

universe u

namespace StockExchange

open History

theorem Request.op_eq_submit {r : Request} {order : Order} (h : r.op = .submit order) : r = .submit order := by
  cases r with
  | submit o =>
    cases h
    rfl
  | cancel req => cases h
  | modify req => cases h

namespace History

variable {W : Type u}

/-- The order was accepted with a task that has been applied. -/
def Applied (h : History W) (order : Order) : Prop :=
  ∃ i ∈ h.tasks.out, ∃ task, h.accepted[i]? = some task ∧ task.request = .submit order

theorem Applied.mono {h h' : History W} {order : Order} (ho : h.Applied order) (haccepted : h.accepted <+: h'.accepted)
    (hout : h.tasks.out ⊆ h'.tasks.out) : h'.Applied order := by
  obtain ⟨i, hi, task, ht, hr⟩ := ho
  obtain ⟨later, hlater⟩ := haccepted
  refine ⟨i, hout hi, task, ?_, hr⟩
  rw [← hlater, List.getElem?_append_left (List.getElem?_eq_some_iff.1 ht).1, ht]

variable [DecidableEq W]

theorem Applied.record {h : History W} {order : Order} (ho : h.Applied order) (p : ThreadPool W) (a : PoolAction W) :
    (h.record p a).Applied order := by
  cases a with
  | submit task => exact ho.mono (List.prefix_append ..) (List.Subset.refl _)
  | apply w =>
    simp only [History.record]
    split
    next book task hq => exact ho.mono (List.prefix_refl _) (List.subset_append_left ..)
    next => exact ho
  | _ => exact ho

end History

namespace Exchange

variable {W : Type u}

/-- What a step adds to the operations applied so far. -/
def recordEvent (x : Exchange W) (a : ExchangeAction W) (events : List Event) : List Event :=
  events ++ (x.applying a).toList.map fun q => q.1.event q.2.request.op x.pool.env

/-- A step of applying charges no buyer that has not been modified a price above its price field. -/
def PaysOwnPrice (s : Exchange W × List Event) (a : ExchangeAction W) : Prop :=
  ∀ q ∈ s.1.applying a, q.1.PaysOwnPrice s.2 q.2.request.op

instance (s : Exchange W × List Event) (a : ExchangeAction W) : Decidable (PaysOwnPrice s a) :=
  inferInstanceAs (Decidable (∀ q ∈ s.1.applying a, q.1.PaysOwnPrice s.2 q.2.request.op))

/-- The accepted orders have passed the risk check with all of them open. -/
def AllChecked (x : Exchange W) : Prop :=
  ∀ q ∈ x.received, ∀ order, q.2.request = .submit order → order.remainingQuantity = order.quantity ∧ order.WithinLimits

/-- The tasks have numbers, and those of the applied orders are out. -/
def Numbered (x : Exchange W) (events : List Event) : Prop :=
  ∃ h, (Arrived x.pool h ∧ ∀ order, .submit order ∈ events.map Event.op → h.Applied order) ∧ x.Admitted h

variable [DecidableEq W] {x x' : Exchange W} {events : List Event} {a : ExchangeAction W}

theorem AllChecked.step (hs : x.step a = some x') (hr : x.AllChecked) : x'.AllChecked := by
  cases transition hs with
  | accepted c packet behind task risk env hc hp hlen =>
    have hresult := Session.processPacket_spec hp
    intro q hq order ho
    rcases List.mem_append.1 hq with hq | hq
    · exact hr q hq order ho
    · cases List.mem_singleton.1 hq
      have hchecked := hresult.1.checked
      rw [ho] at hchecked
      exact ⟨hchecked.1, (RiskChecker.validateOrder_ok.1 hchecked.2).2.1⟩
  | _ => exact hr

omit [DecidableEq W] in
theorem recordEvent_of_none (h : x.applying a = none) : recordEvent x a events = events := by
  rw [recordEvent, h]
  exact List.append_nil _

omit [DecidableEq W] in
theorem recordEvent_of_some {book : OrderBook} {task : Task} (h : x.applying a = some (book, task)) :
    recordEvent x a events = events ++ [book.event task.request.op x.pool.env] := by
  rw [recordEvent, h]
  rfl

/-- The order of the operation that is applied has been applied. -/
theorem applied_of_applying {h : History W} (ha : Arrived x.pool h) {book : OrderBook} {task : Task} {order : Order}
    (hq : x.applying a = some (book, task)) (ho : task.request = .submit order) : (recordPool x a h).Applied order := by
  unfold applying at hq
  split at hq
  next w =>
    obtain ⟨hw, hb⟩ := ThreadPool.applying_eq_some.1 hq
    obtain ⟨i, hi, hacc⟩ := ha.busy w task (by rw [hw]; rfl)
    refine ⟨i, ?_, task, ?_, ho⟩
    · show i ∈ (h.record x.pool (.apply w)).tasks.out
      rw [record_apply hw hb]
      show i ∈ (h.tasks.pass w).out
      rw [Relay.pass_out hi]
      exact List.mem_append_right _ (List.mem_singleton_self i)
    · show (h.record x.pool (.apply w)).accepted[i]? = some task
      rw [record_accepted h x.pool (a := .apply w) (by nofun)]
      exact hacc
  next => cases hq

theorem Numbered.step (hs : x.step a = some x') (hn : x.Numbered events) : x'.Numbered (recordEvent x a events) := by
  obtain ⟨h, hpool, hadm⟩ := hn
  have hkeep : Arrived x'.pool (recordPool x a h) ∧
      ∀ order, .submit order ∈ events.map Event.op → (recordPool x a h).Applied order := by
    refine lift_step (I := fun p h => Arrived p h ∧ ∀ order, .submit order ∈ events.map Event.op → h.Applied order)
      ?_ ?_ hs hpool
    · exact fun p p' h htasks hworkers _ _ ⟨ha, ho⟩ => ⟨ha.of_same_pool htasks hworkers, ho⟩
    · exact fun p a p' h hs ⟨ha, ho⟩ => ⟨ha.step hs, fun order hmem => (ho order hmem).record p a⟩
  refine ⟨recordPool x a h, ⟨hkeep.1, fun order ho => ?_⟩, hadm.step hs⟩
  cases hq : x.applying a with
  | none =>
    rw [recordEvent_of_none hq] at ho
    exact hkeep.2 order ho
  | some q =>
    rw [recordEvent_of_some hq, List.map_append, List.mem_append] at ho
    rcases ho with ho | ho
    · exact hkeep.2 order ho
    · exact applied_of_applying hpool.1 hq (Request.op_eq_submit (List.mem_singleton.1 ho).symm)

omit [DecidableEq W] in
/-- Two accepted orders with one id are the same. -/
theorem Admitted.order_eq {h : History W} (hadm : x.Admitted h) {i j : ℕ} {task task' : Task} {order order' : Order}
    (hi : h.accepted[i]? = some task) (hj : h.accepted[j]? = some task') (ho : task.request = .submit order)
    (ho' : task'.request = .submit order') (hid : order.orderId = order'.orderId) : i = j ∧ order = order' := by
  have hat : h.submittedAt i = some order.orderId := by rw [submittedAt, hi, Option.bind_some, ho, Request.submitted]
  have hat' : h.submittedAt j = some order.orderId := by
    rw [submittedAt, hj, Option.bind_some, ho', Request.submitted, hid]
  obtain rfl := hadm.distinct hat hat'
  rw [hi] at hj
  cases hj
  rw [ho] at ho'
  cases ho'
  exact ⟨rfl, rfl⟩

omit [DecidableEq W] in
/-- The order that a worker is about to apply has not been applied before. -/
theorem Numbered.fresh (hn : x.Numbered events) (hr : x.AllChecked) {book : OrderBook} {task : Task} {order : Order}
    (hq : x.applying a = some (book, task)) (ho : task.request = .submit order) :
    order.orderId ∉ submittedIds (events.map Event.op) ∧ order.remainingQuantity = order.quantity := by
  obtain ⟨h, ⟨ha, happlied⟩, hadm⟩ := hn
  obtain ⟨w, hw, -⟩ := applying_eq_some hq
  obtain ⟨i, hi, hacc⟩ := ha.busy w task (by rw [hw]; rfl)
  constructor
  · intro hmem
    obtain ⟨op, hop, hid⟩ := List.mem_filterMap.1 hmem
    cases op with
    | submit order' =>
      obtain ⟨j, hj, task', hacc', ho'⟩ := happlied order' hop
      obtain ⟨rfl, -⟩ := hadm.order_eq hacc hacc' ho ho' (Option.some.inj hid).symm
      exact ha.valid.held w i (by rw [hi]; exact List.mem_singleton_self i) hj
    | cancel id => cases hid
    | modify request => cases hid
  · have hmem : task ∈ x.received.map Prod.snd := hadm.received ▸ List.mem_of_getElem? hacc
    obtain ⟨r, hr', rfl⟩ := List.mem_map.1 hmem
    exact (hr r hr' order ho).1

/-- The invariant of a run. -/
structure Spending (x : Exchange W) (events : List Event) : Prop where
  numbered : x.Numbered events
  received : x.AllChecked
  paid : x.pool.registry.Paid events

omit [DecidableEq W] in
theorem start_spending (env : Env) : (start W env).Spending [] where
  numbered := by
    refine ⟨{}, ⟨start_arrived env, fun _ ho => nomatch ho⟩, rfl, fun id => ?_, .nil⟩
    simp [start, acceptedIds]
  received _ hq := nomatch hq
  paid := BookRegistry.empty_paid

theorem Spending.step (hs : x.step a = some x') (hp : PaysOwnPrice (x, events) a) (h : x.Spending events) :
    x'.Spending (recordEvent x a events) := by
  refine ⟨h.numbered.step hs, h.received.step hs, ?_⟩
  revert x'
  cases hq : x.applying a with
  | none =>
    rw [recordEvent_of_none hq]
    refine fun hs => (forall_step_iff (P := fun registry => registry.Paid events) ?_).2 ?_ _ hs
    · rintro registry (rfl | ⟨symbol, rfl⟩)
      · exact h.paid
      · exact h.paid.getOrderBook symbol
    · rw [hq]
      nofun
  | some q =>
    obtain ⟨book, task⟩ := q
    rw [recordEvent_of_some hq]
    obtain ⟨w, -, hb⟩ := applying_eq_some hq
    obtain ⟨y, hy, hregistry⟩ := step_applying hq
    intro x' hs
    rw [hy] at hs
    cases hs
    rw [hregistry]
    refine h.paid.apply hb (fun order ho => ?_) (hp _ hq)
    exact h.numbered.fresh h.received hq (Request.op_eq_submit ho)

omit [DecidableEq W] in
theorem Spending.bounded (h : x.Spending events) {q : ClientID × Task} (hq : q ∈ x.received) {order : Order}
    (ho : q.2.request = .submit order) (hm : ¬ Modified events order.orderId) :
    spent (fillsOf events) order.orderId ≤ maxOrderValue.toNat := by
  by_cases hid : order.orderId ∈ submittedIds (events.map Event.op)
  · obtain ⟨op, hop, hsub⟩ := List.mem_filterMap.1 hid
    cases op with
    | submit order' =>
      obtain ⟨h', ⟨-, happlied⟩, hadm⟩ := h.numbered
      obtain ⟨i, -, task, hacc, hreq⟩ := happlied order' hop
      have hmem : q.2 ∈ h'.accepted := hadm.received ▸ List.mem_map_of_mem hq
      obtain ⟨j, hj⟩ := List.mem_iff_getElem?.1 hmem
      obtain ⟨-, rfl⟩ := hadm.order_eq hj hacc ho hreq (Option.some.inj hsub).symm
      exact (h.paid.submitted order hop hm).total.trans (h.received q hq order ho).2.value_le
    | cancel id => cases hsub
    | modify request => cases hsub
  · -- an order that no worker has applied yet
    have hzero : spent (fillsOf events) order.orderId = 0 :=
      spent_eq_zero fun fill hfill heq => hid (heq ▸ h.paid.buyers fill hfill)
    rw [hzero]
    exact Nat.zero_le _

/-- In every run in which no buyer that has not been modified is charged a price above its price field, every accepted
order that is never modified costs no more in all its fills than the limit on the value of an order. -/
theorem spending_bounded (env : Env) (actions : List (ExchangeAction W)) (x : Exchange W) (events : List Event)
    (hrun : Machine.run (Machine.traced step recordEvent) (start W env, []) actions = some (x, events))
    (hown : Machine.Along (Machine.traced step recordEvent) PaysOwnPrice (start W env, []) actions) :
    ∀ q ∈ x.received, ∀ order, q.2.request = .submit order → ¬ Modified events order.orderId →
      spent (fillsOf events) order.orderId ≤ maxOrderValue.toNat := by
  have hstep : ∀ (s : Exchange W × List Event) (a : ExchangeAction W) (s' : Exchange W × List Event), True →
      PaysOwnPrice s a → Machine.traced step recordEvent s a = some s' → s.1.Spending s.2 → s'.1.Spending s'.2 := by
    rintro ⟨x, events⟩ a ⟨x', events'⟩ - hp hs h
    obtain ⟨hs, rfl⟩ := Machine.traced_eq_some.1 hs
    exact h.step hs hp
  have h : x.Spending events := Machine.run_invariant_along hstep actions (start W env, []) (x, events)
    (fun _ _ => trivial) hown hrun (start_spending env)
  exact fun q hq order ho hm => h.bounded hq ho hm

/-- Two clients offer ten each at 50000000, and a market order with a price field buys. -/
def marketRun (price : Price) (quantity : Quantity) : List (ExchangeAction ℕ) :=
  let symbol : Packed.Chars 8 := (Packed.chars 8).get [65]
  let entry : WALEntry := ⟨0, .replicate 52 0⟩
  let net : NetOrder := ⟨0, symbol, 0, 0, 0, 0, 0⟩
  let send (c : ClientID) (order : NetOrder) : ExchangeAction ℕ :=
    .packet c ⟨MsgType.order, NetOrder.packed.put order⟩ []
  [.connect, .connect, .connect, .registerSymbol [65], send 1 ⟨1, symbol, 1, 0, 50000000, 10, 1⟩,
    send 2 ⟨2, symbol, 1, 0, 50000000, 10, 2⟩, send 3 ⟨3, symbol, 0, 1, price, quantity, 3⟩] ++
    [0, 1, 2].flatMap fun w => [.pool (.dequeue w), .pool (.getOrderBook w), .pool (.lock w),
      .pool (.log w entry net), .pool (.apply w), .pool (.unlock w)]

def marketBuy (price : Price) (quantity : Quantity) : Order where
  orderId := 3
  symbol := [65]
  type := .market
  price := price
  quantity := quantity
  remainingQuantity := quantity
  timestamp := 3
  clientId := 3

/-- With a price field of 1 the order for twenty is worth twenty to the risk check, and costs 1000000000. -/
theorem market_buy_over_limit : ∃ x events,
    Machine.run (Machine.traced step recordEvent) (start ℕ ⟨1, fun _ => 0, 0⟩, []) (marketRun 1 20) = some (x, events) ∧
      (∃ q ∈ x.received, q.2.request = .submit (marketBuy 1 20)) ∧ (marketBuy 1 20).side = Side.buy ∧
      ¬ Modified events (marketBuy 1 20).orderId ∧ spent (fillsOf events) (marketBuy 1 20).orderId = 1000000000 := by
  have hrun : (Machine.run (Machine.traced step recordEvent) (start ℕ ⟨1, fun _ => 0, 0⟩, []) (marketRun 1 20)).any
      fun s => (∃ q ∈ s.1.received, q.2.request = .submit (marketBuy 1 20)) ∧ ¬ Modified s.2 (marketBuy 1 20).orderId ∧
        spent (fillsOf s.2) (marketBuy 1 20).orderId = 1000000000 := by decide +kernel
  obtain ⟨⟨x, events⟩, hx, hany⟩ := (Option.any_eq_true _ _).1 hrun
  obtain ⟨hreceived, hm, hspent⟩ := of_decide_eq_true hany
  exact ⟨x, events, hx, hreceived, rfl, hm, hspent⟩

/-- With a price field of 50000000 for ten, it costs the limit. -/
theorem spending_bounded_at_limit : ∃ x events,
    Machine.run (Machine.traced step recordEvent) (start ℕ ⟨1, fun _ => 0, 0⟩, []) (marketRun 50000000 10) =
        some (x, events) ∧
      spent (fillsOf events) 3 = 500000000 ∧ ∀ q ∈ x.received, ∀ order, q.2.request = .submit order →
        ¬ Modified events order.orderId → spent (fillsOf events) order.orderId ≤ maxOrderValue.toNat := by
  have hrun : (Machine.run (Machine.traced step recordEvent) (start ℕ ⟨1, fun _ => 0, 0⟩, [])
      (marketRun 50000000 10)).any fun s => spent (fillsOf s.2) 3 = 500000000 := by decide +kernel
  obtain ⟨⟨x, events⟩, hx, hspent⟩ := (Option.any_eq_true _ _).1 hrun
  exact ⟨x, events, hx, of_decide_eq_true hspent, spending_bounded ⟨1, fun _ => 0, 0⟩ _ x events hx (by decide +kernel)⟩

end Exchange

end StockExchange
