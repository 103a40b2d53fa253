/-
The memory of an `OrderBook` and the code of its operations (`engine/order_book.cpp`,
`engine/order_index.hpp`). A list node has an address, handed out in the order of the `push_back`
calls, and an iterator is the address of its node; reading or erasing through an iterator whose node
is gone is undefined in the source and is `none` here. The two branches of `submitOrderInternal` are
one definition over `Branch`.
-/
import StockExchange.Lib.OrderedMap
import StockExchange.Engine.MatchingEngine
import Mathlib.Logic.Function.Basic

namespace StockExchange

/-! ## The two sides -/

/-- The branch `incoming_order.side == Side::Buy` of the source and the other one; also the map
`buy_orders_` or `sell_orders_`. -/
inductive Branch
  | buy
  | sell
  deriving DecidableEq, Repr

namespace Branch

def other : Branch → Branch
  | .buy => .sell
  | .sell => .buy

@[simp] theorem other_other (br : Branch) : br.other.other = br := by cases br <;> rfl

@[simp] theorem other_ne (br : Branch) : br.other ≠ br := by cases br <;> decide

/-- The test `side == Side::Buy`. -/
def ofSide (s : Side) : Branch := if s = Side.buy then .buy else .sell

/-- The side recorded in the index. -/
def toSide : Branch → Side
  | .buy => Side.buy
  | .sell => Side.sell

@[simp] theorem ofSide_toSide (br : Branch) : ofSide br.toSide = br := by cases br <;> rfl

/-- The comparator of the map: `std::greater` for `buy_orders_`, `std::less` for `sell_orders_`. -/
def before : Branch → Price → Price → Prop
  | .buy, p, q => q < p
  | .sell, p, q => p < q

instance : (br : Branch) → DecidableRel br.before
  | .buy, p, q => inferInstanceAs (Decidable (q < p))
  | .sell, p, q => inferInstanceAs (Decidable (p < q))

theorem before_toNat (br : Branch) (p q : Price) :
    br.before p q ↔ (br = .buy ∧ q.toNat < p.toNat) ∨ (br = .sell ∧ p.toNat < q.toNat) := by
  cases br <;> simp [before, UInt64.lt_iff_toNat_lt]

instance (br : Branch) : IsStrictTotalOrder Price br.before where
  irrefl p h := by
    rw [before_toNat] at h; omega
  trans p q r h h' := by
    rw [before_toNat] at h h' ⊢
    cases br <;> simp only [true_and, reduceCtorEq, false_and, or_false, false_or] at h h' ⊢ <;> omega
  trichotomous p q h h' := by
    rw [before_toNat] at h h'
    rw [← UInt64.toNat_inj]
    cases br <;> simp only [true_and, reduceCtorEq, false_and, or_false, false_or] at h h' <;> omega

/-- The price test that ends the matching loop of an incoming `Limit` order. -/
def misses : Branch → Price → Price → Bool
  | .buy, limit, best => limit < best
  | .sell, limit, best => limit > best

theorem misses_iff (br : Branch) (limit best : Price) :
    br.misses limit best = true ↔ br.other.before limit best := by
  cases br <;> simp [misses, before, other]

/-- The incoming order goes on matching at a level of price `best`. -/
def accepts (br : Branch) (incoming : Order) (best : Price) : Bool :=
  !(incoming.type = OrderType.limit && br.misses incoming.price best)

end Branch

/-! ## Nodes, index and book -/

/-- A node of a `std::list<Order>`. -/
structure Node where
  addr : Nat
  order : Order
  deriving DecidableEq, Repr, Inhabited

def Node.reduce (n : Node) (qty : Quantity) : Node := { n with order := n.order.reduce qty }

@[simp] theorem Node.reduce_addr (n : Node) (q : Quantity) : (n.reduce q).addr = n.addr := rfl
@[simp] theorem Node.reduce_order (n : Node) (q : Quantity) : (n.reduce q).order = n.order.reduce q := rfl

abbrev Levels (br : Branch) := OrderedMap br.before (List Node)

structure OrderIndexEntry where
  side : Side
  priceLevel : Price
  position : Nat
  deriving DecidableEq, Repr

/-- `std::unordered_map<OrderID, OrderIndexEntry>`. -/
abbrev OrderIndex := OrderID → Option OrderIndexEntry

def OrderIndex.insert (index : OrderIndex) (orderId : OrderID) (side : Side) (price : Price) (position : Nat) :
    OrderIndex :=
  Function.update index orderId (some ⟨side, price, position⟩)

def OrderIndex.get (index : OrderIndex) (orderId : OrderID) : Option OrderIndexEntry := index orderId

def OrderIndex.remove (index : OrderIndex) (orderId : OrderID) : OrderIndex :=
  Function.update index orderId none

/-- The fields of an `OrderBook`, with the address of the next list node. -/
structure BookState where
  symbol : Symbol
  buyOrders : Levels .buy
  sellOrders : Levels .sell
  orderIndex : OrderIndex
  nextNode : Nat

namespace BookState

/-- `OrderBook::OrderBook(symbol)`. -/
def init (symbol : Symbol) : BookState := ⟨symbol, .empty, .empty, fun _ => none, 0⟩

def levels (b : BookState) : (br : Branch) → Levels br
  | .buy => b.buyOrders
  | .sell => b.sellOrders

def setLevels (b : BookState) : (br : Branch) → Levels br → BookState
  | .buy, ls => { b with buyOrders := ls }
  | .sell, ls => { b with sellOrders := ls }

/-- The orders resting on one side: best price first, each queue from its front. -/
def nodes (b : BookState) (br : Branch) : List Node := (b.levels br).flat

section Projections

variable (b : BookState) (br : Branch) (ls : Levels br) (ix : OrderIndex) (n : Nat)

@[simp] theorem setLevels_levels : (b.setLevels br ls).levels br = ls := by cases br <;> rfl
@[simp] theorem setLevels_levels_other (ls : Levels br.other) :
    (b.setLevels br.other ls).levels br = b.levels br := by cases br <;> rfl
@[simp] theorem setLevels_other_levels : (b.setLevels br ls).levels br.other = b.levels br.other := by
  cases br <;> rfl
@[simp] theorem setLevels_symbol : (b.setLevels br ls).symbol = b.symbol := by cases br <;> rfl
@[simp] theorem setLevels_orderIndex : (b.setLevels br ls).orderIndex = b.orderIndex := by cases br <;> rfl
@[simp] theorem setLevels_nextNode : (b.setLevels br ls).nextNode = b.nextNode := by cases br <;> rfl
@[simp] theorem levels_mk_index : ({ b with orderIndex := ix } : BookState).levels br = b.levels br := by
  cases br <;> rfl
@[simp] theorem levels_mk_index_next :
    ({ b with orderIndex := ix, nextNode := n } : BookState).levels br = b.levels br := by
  cases br <;> rfl

end Projections

end BookState

/-! ## The matching loops -/

/-- The variables of the matching loops. -/
structure MatchState where
  incoming : Order
  index : OrderIndex
  result : MatchResult
  env : Env

/-- The call of `matchOrders` in the inner loop: the incoming order is the first argument in the buy
branch and the second in the sell branch. -/
def matchFront (br : Branch) (symbol : Symbol) (resting : Order) (st : MatchState) : Order × MatchState :=
  match br with
  | .buy =>
    let m := matchOrders st.incoming resting symbol st.result st.env
    (m.sell, { st with incoming := m.buy, result := m.result, env := m.env })
  | .sell =>
    let m := matchOrders resting st.incoming symbol st.result st.env
    (m.buy, { st with incoming := m.sell, result := m.result, env := m.env })

/-- The inner loop over one queue. A front order left with a remainder has filled the incoming one,
so the loop ends there (`matchQueue_loop`). -/
def matchQueue (br : Branch) (symbol : Symbol) : List Node → MatchState → List Node × MatchState
  | [], st => ([], st)
  | n :: queue, st =>
    if st.incoming.remainingQuantity > 0 then
      let (resting, st) := matchFront br symbol n.order st
      if resting.remainingQuantity = 0 then
        matchQueue br symbol queue { st with index := st.index.remove resting.orderId }
      else ({ n with order := resting } :: queue, st)
    else (n :: queue, st)

/-- One turn of the outer loop at the level `best`. -/
def matchLevel (br : Branch) (symbol : Symbol) (st : MatchState) (best : Price) (queue : List Node) :
    Option (Option (List Node) × MatchState) :=
  if st.incoming.remainingQuantity > 0 then
    if br.accepts st.incoming best then
      let (queue, st) := matchQueue br symbol queue st
      if queue.isEmpty then some (none, st) else some (some queue, st)
    else none
  else none

/-! ## The operations -/

/-- What an operation leaves behind. -/
structure Outcome where
  book : BookState
  result : MatchResult
  env : Env

/-- The `New` report of an order that enters the book unmatched. -/
def newReport (order : Order) (now : Timestamp) : ExecutionReport where
  orderId := order.orderId
  symbol := order.symbol
  side := order.side
  status := .new
  price := order.price
  quantity := order.quantity
  remainingQuantity := order.remainingQuantity
  timestamp := now
  clientId := order.clientId

/-- The report of a remainder that may not rest. -/
def expiryReport (order : Order) (now : Timestamp) : ExecutionReport where
  orderId := order.orderId
  symbol := order.symbol
  side := order.side
  status := .cancelled
  price := order.price
  quantity := order.quantity
  remainingQuantity := order.remainingQuantity
  rejectReason := text "Market Order Expired / Unfilled Qty"
  timestamp := now
  clientId := order.clientId

def MatchResult.report (result : MatchResult) (r : ExecutionReport) : MatchResult :=
  { result with executionReports := result.executionReports ++ [r] }

namespace BookState

/-- `push_back` of an order at its price and the index entry for it. -/
def rest (b : BookState) (br : Branch) (order : Order) : BookState :=
  { b.setLevels br ((b.levels br).pushBack order.price ⟨b.nextNode, order⟩) with
    orderIndex := b.orderIndex.insert order.orderId br.toSide order.price b.nextNode
    nextNode := b.nextNode + 1 }

/-- What happens to the incoming order after the matching loops. -/
def settle (b : BookState) (br : Branch) (incoming : Order) (result : MatchResult) (env : Env) : Outcome :=
  if incoming.remainingQuantity > 0 then
    if incoming.type = OrderType.limit then
      if incoming.remainingQuantity = incoming.quantity then
        let (now, env) := env.getCurrentTimeNs
        ⟨b.rest br incoming, result.report (newReport incoming now), env⟩
      else ⟨b.rest br incoming, result, env⟩
    else
      let (now, env) := env.getCurrentTimeNs
      ⟨b, result.report (expiryReport incoming now), env⟩
  else ⟨b, result, env⟩

/-- The matching loops over the opposite side. -/
def sweep (b : BookState) (br : Branch) (order : Order) (result : MatchResult) (env : Env) :
    BookState × MatchState :=
  let (levels, st) := (b.levels br.other).walk (matchLevel br b.symbol) ⟨order, b.orderIndex, result, env⟩
  ({ b.setLevels br.other levels with orderIndex := st.index }, st)

/-- One branch of `submitOrderInternal`. -/
def submitBranch (b : BookState) (br : Branch) (order : Order) (result : MatchResult) (env : Env) : Outcome :=
  let (b, st) := b.sweep br order result env
  b.settle br st.incoming st.result st.env

def submitOrderInternal (b : BookState) (order : Order) (result : MatchResult) (env : Env) : Outcome :=
  if order.side = Side.buy then b.submitBranch .buy order result env
  else b.submitBranch .sell order result env

def submitOrder (b : BookState) (order : Order) (env : Env) : Outcome :=
  b.submitOrderInternal order {} env

/-- `*position`. -/
def deref (b : BookState) (position : Nat) : Option Order :=
  ((b.nodes .buy ++ b.nodes .sell).find? fun n => n.addr = position).map Node.order

/-- `it->second.erase(position)` in the level found at a price, and the erasure of an emptied level. -/
def eraseAt (b : BookState) (br : Branch) (priceLevel : Price) (position : Nat) : Option BookState :=
  match (b.levels br).find? priceLevel with
  | none => some b
  | some queue =>
    if queue.any fun n => n.addr = position then
      some (b.setLevels br ((b.levels br).filterAt priceLevel fun n => n.addr ≠ position))
    else none

/-- The removal of an indexed order from the map of its side, as `cancelOrder` and `modifyOrder`
write it. -/
def eraseEntry (b : BookState) (entry : OrderIndexEntry) : Option BookState :=
  b.eraseAt (Branch.ofSide entry.side) entry.priceLevel entry.position

def cancelReport (b : BookState) (orderId : OrderID) (entry : OrderIndexEntry) (clientId : ClientID)
    (now : Timestamp) : ExecutionReport where
  orderId := orderId
  symbol := b.symbol
  side := entry.side
  status := .cancelled
  price := entry.priceLevel
  timestamp := now
  clientId := clientId

def cancelOrder (b : BookState) (orderId : OrderID) (result : MatchResult) (env : Env) : Option (Bool × Outcome) :=
  match b.orderIndex.get orderId with
  | none => some (false, ⟨b, result, env⟩)
  | some entry => do
    let order ← b.deref entry.position
    let b ← b.eraseEntry entry
    let (now, env) := env.getCurrentTimeNs
    let result := result.report (b.cancelReport orderId entry order.clientId now)
    some (true, ⟨{ b with orderIndex := b.orderIndex.remove orderId }, result, env⟩)

/-- A resting order as a modify request rewrites it. -/
def modified (existing : Order) (request : ModifyRequest) : Order :=
  { existing with
    price := request.price
    quantity := request.quantity
    remainingQuantity := request.quantity
    timestamp := request.timestamp }

def modifyOrder (b : BookState) (request : ModifyRequest) (result : MatchResult) (env : Env) :
    Option (Bool × Outcome) :=
  match b.orderIndex.get request.orderId with
  | none => some (false, ⟨b, result, env⟩)
  | some entry => do
    let existing ← b.deref entry.position
    let b ← b.eraseEntry entry
    let b := { b with orderIndex := b.orderIndex.remove request.orderId }
    some (true, b.submitOrderInternal (modified existing request) result env)

/-- `queryOrder`; the outer option is the undefined read. -/
def queryOrder (b : BookState) (orderId : OrderID) : Option (Option Order) :=
  match b.orderIndex.get orderId with
  | none => some none
  | some entry => (b.deref entry.position).map some

end BookState

end StockExchange
