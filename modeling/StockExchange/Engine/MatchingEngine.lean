/-
`MatchingEngine::matchOrders` (`engine/matching_engine.cpp`): one match between a buy and a sell
order, with the fill and the two execution reports it appends to the result.
-/
import StockExchange.Common.Types

namespace StockExchange

/-- `std::min` of the two remaining quantities. -/
def matchQty (buy sell : Order) : Quantity :=
  if sell.remainingQuantity < buy.remainingQuantity then sell.remainingQuantity else buy.remainingQuantity

/-- The price of a match: the sell order's price exactly when its timestamp is the smaller one. -/
def execPrice (buy sell : Order) : Price :=
  if sell.timestamp < buy.timestamp then sell.price else buy.price

/-- The report of a match for one of the two orders, whose remaining quantity is already reduced. -/
def matchReport (order : Order) (qty : Quantity) (px : Price) (now : Timestamp) : ExecutionReport where
  orderId := order.orderId
  symbol := order.symbol
  side := order.side
  price := order.price
  quantity := order.quantity
  remainingQuantity := order.remainingQuantity
  lastQty := qty
  lastPx := px
  timestamp := now
  status := if order.remainingQuantity = 0 then .filled else .partiallyFilled
  clientId := order.clientId

/-- An order after `qty` of it has been matched. -/
def Order.reduce (order : Order) (qty : Quantity) : Order :=
  { order with remainingQuantity := order.remainingQuantity - qty }

/-- What `matchOrders` leaves behind: both orders, the result and the outside world. -/
structure Matched where
  buy : Order
  sell : Order
  result : MatchResult
  env : Env

def matchOrders (buy sell : Order) (symbol : Symbol) (result : MatchResult) (env : Env) : Matched :=
  let qty := matchQty buy sell
  if qty = 0 then ⟨buy, sell, result, env⟩
  else
    let (tradeId, env) := env.nextId
    let (now, env) := env.getCurrentTimeNs
    let px := execPrice buy sell
    let fill : Fill := ⟨tradeId, buy.orderId, sell.orderId, symbol, px, qty, now⟩
    let buy := buy.reduce qty
    let sell := sell.reduce qty
    ⟨buy, sell,
      { result with
        fills := result.fills ++ [fill]
        executionReports := result.executionReports ++ [matchReport buy qty px now, matchReport sell qty px now] },
      env⟩

@[simp] theorem Order.reduce_orderId (o : Order) (q : Quantity) : (o.reduce q).orderId = o.orderId := rfl
@[simp] theorem Order.reduce_symbol (o : Order) (q : Quantity) : (o.reduce q).symbol = o.symbol := rfl
@[simp] theorem Order.reduce_side (o : Order) (q : Quantity) : (o.reduce q).side = o.side := rfl
@[simp] theorem Order.reduce_type (o : Order) (q : Quantity) : (o.reduce q).type = o.type := rfl
@[simp] theorem Order.reduce_price (o : Order) (q : Quantity) : (o.reduce q).price = o.price := rfl
@[simp] theorem Order.reduce_quantity (o : Order) (q : Quantity) : (o.reduce q).quantity = o.quantity := rfl
@[simp] theorem Order.reduce_timestamp (o : Order) (q : Quantity) : (o.reduce q).timestamp = o.timestamp := rfl
@[simp] theorem Order.reduce_clientId (o : Order) (q : Quantity) : (o.reduce q).clientId = o.clientId := rfl
@[simp] theorem Order.reduce_remaining (o : Order) (q : Quantity) :
    (o.reduce q).remainingQuantity = o.remainingQuantity - q := rfl

theorem matchReport_status (order : Order) (qty : Quantity) (px : Price) (now : Timestamp) :
    (matchReport order qty px now).status ≠ .cancelled := by
  unfold matchReport
  simp only
  split <;> exact fun h => by cases h

/-! ## Quantities -/

theorem quantity_pos {q : Quantity} : 0 < q ↔ q ≠ 0 := by grind

theorem quantity_toNat_eq_zero (q : Quantity) : q.toNat = 0 ↔ q = 0 := by
  rw [← UInt32.toNat_inj]; rfl

theorem quantity_toNat_le (a b : Quantity) : a.toNat ≤ b.toNat ↔ a ≤ b := UInt32.le_iff_toNat_le.symm

theorem matchQty_toNat (buy sell : Order) :
    (matchQty buy sell).toNat = min buy.remainingQuantity.toNat sell.remainingQuantity.toNat := by
  unfold matchQty
  simp only [UInt32.lt_iff_toNat_lt]
  split <;> omega

end StockExchange
