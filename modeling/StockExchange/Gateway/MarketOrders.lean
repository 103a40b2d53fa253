/-
Market orders at the gateway. The book never looks at the price of a market order, the risk checker does: a market
order is passed on, and then trades its quantity or all that rests on the other side, exactly when its price
field would do for a `Limit` order of the same quantity.
-/
import StockExchange.Gateway.Exchange
import StockExchange.Engine.MarketOrder
import StockExchange.Engine.Priority

universe u

namespace StockExchange

open BinarySerializer

/-- Applied to a book, the order trades its quantity, or all that rests on the other side if that is less. -/
def Order.FillsAvailable (order : Order) (book : OrderBook) (env : Env) : Prop :=
  ((book.submit order env).result.fills.map fun fill => fill.quantity.toNat).sum =
    min order.quantity.toNat (totalRemaining ((book.nodes (Branch.ofSide order.side).other).map Node.order))

/-- An order that is not a `Limit` order meets everything on the other side, whatever its price. -/
theorem Order.fillsAvailable_of_not_limit {order : Order} (ht : order.type ≠ OrderType.limit)
    (hfull : order.remainingQuantity = order.quantity) (book : OrderBook) (env : Env) :
    order.FillsAvailable book env := by
  unfold FillsAvailable
  rw [submit_total, (book.eligible_of_not_limit _ order ht).1, hfull]

theorem Session.orderOf_remaining {clientId : ClientID} {packet : Packet} {behind : List UInt8} {order : Order}
    (h : orderOf clientId packet behind = some order) : order.remainingQuantity = order.quantity := by
  unfold orderOf at h
  split at h
  next =>
    cases h
    rfl
  next => cases h

namespace Exchange

variable {W : Type u}

/-- The session hands the order of the packet over to the pool. -/
def PassesOn (x : Exchange W) (c : ClientID) (packet : Packet) (behind : List UInt8) (order : Order) : Prop :=
  ∃ risk env, Session.processPacket c packet behind x.risk x.pool.env =
    (.accepted ⟨.submit order, order.symbol⟩, risk, env)

theorem passesOn_iff {x : Exchange W} {c : ClientID} {packet : Packet} {behind : List UInt8} {order : Order}
    (ho : Session.orderOf c packet behind = some order) : x.PassesOn c packet behind order ↔
      order.symbol ∈ x.risk.allowedSymbols ∧ order.WithinLimits ∧ order.orderId ∉ x.risk.seenOrderIds := by
  constructor
  · rintro ⟨risk, env, hp⟩
    have hresult := Session.processPacket_spec hp
    obtain ⟨hsymbol, hlimits, hnew, -⟩ := RiskChecker.validateOrder_ok.1 hresult.1.checked.2
    exact ⟨hsymbol, hlimits, hnew⟩
  · rintro ⟨hsymbol, hlimits, hnew⟩
    have hok := RiskChecker.validateOrder_ok.2 ⟨hsymbol, hlimits, hnew, rfl⟩
    exact ⟨_, _, Session.processPacket_of_ok ho hok x.pool.env⟩

/-- A market order under a new id, of a registered symbol and with a quantity within the limits, is passed on
to the book and trades all it can there, exactly when its price field is within the limits on prices and on the value
of the order. -/
theorem market_order_iff (x : Exchange W) (c : ClientID) (packet : Packet) (behind : List UInt8) (order : Order)
    (ho : Session.orderOf c packet behind = some order) (ht : order.type = OrderType.market)
    (hsymbol : order.symbol ∈ x.risk.allowedSymbols) (hnew : order.orderId ∉ x.risk.seenOrderIds)
    (hpos : 0 < order.quantity) (hmax : order.quantity ≤ maxQuantity) :
    (x.PassesOn c packet behind order ∧ ∀ book env, order.FillsAvailable book env) ↔
      0 < order.price ∧ order.price ≤ maxPrice ∧ order.price.toNat * order.quantity.toNat ≤ maxOrderValue.toNat := by
  have hne : order.type ≠ OrderType.limit := by
    rw [ht]
    decide
  rw [passesOn_iff ho]
  constructor
  · rintro ⟨⟨-, hl, -⟩, -⟩
    exact ⟨hl.price_pos, hl.price_le, hl.value_le⟩
  · rintro ⟨hprice, hle, hvalue⟩
    refine ⟨⟨hsymbol, ⟨hprice, hle, hpos, hmax, hvalue⟩, hnew⟩, ?_⟩
    exact order.fillsAvailable_of_not_limit hne (Session.orderOf_remaining ho)

/-- The exchange with one client and one symbol, AAPL. -/
def aaplRun : List (ExchangeAction Unit) := [.connect, .registerSymbol (text "AAPL")]

/-- The market order of `run_multi_client_demo`: 50 AAPL under the id 1005, with a price field. -/
def demoMarketBuy (price : Price) : Packet :=
  ⟨MsgType.order, NetOrder.packed.put ⟨1005, ⟨[65, 65, 80, 76, 0, 0, 0, 0], by decide⟩, 0, 1, price, 50, 7002⟩⟩

/-- With the price 0 that the demo sends, the order is not passed on. -/
theorem demo_market_buy_rejected : ∃ x order, Machine.run step (start Unit ⟨1, fun _ => 0, 0⟩) aaplRun = some x ∧
    Session.orderOf 1 (demoMarketBuy 0) [] = some order ∧ order.type = OrderType.market ∧
    order.symbol ∈ x.risk.allowedSymbols ∧ order.orderId ∉ x.risk.seenOrderIds ∧ 0 < order.quantity ∧
    order.quantity ≤ maxQuantity ∧ ¬ x.PassesOn 1 (demoMarketBuy 0) [] order := by
  refine ⟨_, _, rfl, rfl, by decide, by decide, by decide, by decide, by decide, ?_⟩
  rw [passesOn_iff rfl]
  decide

/-- With the price 1 it is passed on, and trades all it can. -/
theorem market_order_iff_demo : ∃ x order, Machine.run step (start Unit ⟨1, fun _ => 0, 0⟩) aaplRun = some x ∧
    Session.orderOf 1 (demoMarketBuy 1) [] = some order ∧
    x.PassesOn 1 (demoMarketBuy 1) [] order ∧ ∀ book env, order.FillsAvailable book env := by
  refine ⟨_, _, rfl, rfl, ?_⟩
  exact (market_order_iff _ 1 (demoMarketBuy 1) [] _ rfl (by decide) (by decide) (by decide) (by decide)
    (by decide)).2 (by decide)

end Exchange

end StockExchange
