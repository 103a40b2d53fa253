/-
Market orders and the fields that should not matter to them. The price and the timestamp of a market order
decide neither which orders it meets nor what it leaves of them, so the book after it does not depend on
them. The price of a fill does: where the timestamps do not point at the resting order, `matchOrders` takes the
price field of the market order. Two market orders that differ in these fields alone trade alike exactly when
the comparison gives the same price at every order they get to (`market_fields_iff`).
-/
import StockExchange.Engine.Price

namespace StockExchange

open Greedy OrderBook

/-- The parties, the quantity and the price of a fill. -/
def Fill.terms (fill : Fill) : OrderID × OrderID × Quantity × Price :=
  (fill.buyOrderId, fill.sellOrderId, fill.quantity, fill.price)

/-- The same fills, up to trade ids and the clock, and the same book. -/
def OrderBook.Effect.SameTrades (e e' : Effect) : Prop :=
  e.result.fills.map Fill.terms = e'.result.fills.map Fill.terms ∧ e.book = e'.book

/-- The comparison of `matchOrders` gives the same price for both incoming orders: it points at the resting order
for both of them, or where it does not, the price field of the incoming order makes no difference. -/
def SamePick (order order' resting : Order) : Prop :=
  if TimestampsAgree order resting then TimestampsAgree order' resting ∨ order'.price = resting.price
  else if TimestampsAgree order' resting then order.price = resting.price
  else order.price = order'.price

instance (order order' resting : Order) : Decidable (SamePick order order' resting) :=
  inferInstanceAs (Decidable (if TimestampsAgree order resting then
      TimestampsAgree order' resting ∨ order'.price = resting.price
    else if TimestampsAgree order' resting then order.price = resting.price else order.price = order'.price))

/-! ## The book -/

namespace BookState

/-- An order that is not a `Limit` order reaches everything on the other side. -/
theorem eligible_of_not_limit (b : BookState) (br : Branch) (order : Order) (h : order.type ≠ OrderType.limit) :
    b.eligible br order = b.nodes br.other ∧ b.unreachable br order = [] := by
  have hacc : ∀ p, br.accepts order p = true := fun p => by simp [Branch.accepts, h]
  exact ⟨List.filter_eq_self.2 fun n _ => hacc _, List.filter_eq_nil_iff.2 fun n _ => by simp [hacc]⟩

variable {b : BookState} {order : Order} (h : order.type ≠ OrderType.limit) (price : Price) (timestamp : Timestamp)
include h

theorem taken_market : b.taken { order with price := price, timestamp := timestamp } = b.taken order := by
  unfold taken
  rw [(b.eligible_of_not_limit _ order h).1]
  exact congrArg _ (b.eligible_of_not_limit _ { order with price := price, timestamp := timestamp } h).1

/-- The book after a market order does not depend on its price and its timestamp. -/
theorem submitBranch_market (hb : b.WF) (result result' : MatchResult) (env env' : Env) :
    (b.submitBranch (Branch.ofSide order.side) order result env).book =
      (b.submitBranch (Branch.ofSide order.side) { order with price := price, timestamp := timestamp } result' env').book := by
  let order' : Order := { order with price := price, timestamp := timestamp }
  obtain ⟨hel, hun⟩ := b.eligible_of_not_limit (Branch.ofSide order.side) order h
  obtain ⟨hel', hun'⟩ := b.eligible_of_not_limit (Branch.ofSide order.side) order' h
  refine WF.ext_nodes (submitBranch_wf _ _ _ hb rfl) (submitBranch_wf _ _ _ hb rfl) ?_
    (Branch.forall_of (Branch.ofSide order.side) ?_ ?_) (funext fun id => ?_) ?_
  · rw [submitBranch_symbol hb]
    exact (submitBranch_symbol hb order' result' env').symm
  · refine Eq.trans ?_ (submitBranch_nodes hb order' result' env').symm
    rw [submitBranch_nodes hb, if_neg fun h' => h h'.2]
    exact (if_neg fun h' => h h'.2).symm
  · rw [submitBranch_nodes_other hb, submitBranch_nodes_other hb, hel, hun]
    exact (congrArg₂ (fun l l' => leftover Node.size Node.reduce order.remainingQuantity l ++ l') hel' hun').symm
  · refine Eq.trans ?_ (submitBranch_orderIndex hb order' result' env' id).symm
    rw [submitBranch_orderIndex hb, if_neg fun h' => h h'.2.2, hel]
    refine Eq.trans ?_ (if_neg fun h' => h h'.2.2).symm
    rw [hel']
  · refine Eq.trans ?_ (submitBranch_nextNode hb order' result' env').symm
    rw [submitBranch_nextNode hb, if_neg fun h' => h h'.2]
    exact (if_neg fun h' => h h'.2).symm

end BookState

/-! ## The prices -/

/-- The comparison of `matchOrders` takes the price of the incoming order where it does not point at the resting one. -/
theorem execPrice_eq (incoming resting : Order) :
    execPrice ((Branch.ofSide incoming.side).buyOf incoming resting)
        ((Branch.ofSide incoming.side).sellOf incoming resting) =
      if TimestampsAgree incoming resting then resting.price else incoming.price := by
  by_cases h : TimestampsAgree incoming resting
  · rw [if_pos h]
    exact (execPrice_eq_resting incoming resting).2 (.inl h)
  · rw [if_neg h]
    unfold TimestampsAgree at h
    unfold Branch.ofSide execPrice
    by_cases hs : incoming.side = Side.buy
    · rw [if_pos hs] at h
      rw [if_pos hs]
      exact if_neg h
    · rw [if_neg hs] at h
      rw [if_neg hs]
      exact if_pos (UInt64.not_le.1 h)

theorem samePick_iff (order order' resting : Order) : SamePick order order' resting ↔
    (if TimestampsAgree order resting then resting.price else order.price) =
      if TimestampsAgree order' resting then resting.price else order'.price := by
  unfold SamePick
  by_cases h : TimestampsAgree order resting
  · by_cases h' : TimestampsAgree order' resting
    · simp [h, h']
    · simp [h, h', eq_comm]
  · by_cases h' : TimestampsAgree order' resting
    · simp [h, h']
    · simp [h, h']

/-- The parties of a match depend on the ids alone. -/
theorem Branch.parties (br : Branch) {order order' : Order} (h : order.orderId = order'.orderId) (resting : Order) :
    (br.buyOf order resting).orderId = (br.buyOf order' resting).orderId ∧
      (br.sellOf order resting).orderId = (br.sellOf order' resting).orderId := by
  cases br with
  | buy => exact ⟨h, rfl⟩
  | sell => exact ⟨rfl, h⟩

/-- The terms of the fills of a submission: those of the takes, at the price that the timestamps pick. -/
theorem OrderBook.submit_terms (b : OrderBook) (order : Order) (env : Env) :
    (b.submit order env).result.fills.map Fill.terms = (b.taken order).map fun t =>
      (((Branch.ofSide order.side).buyOf order t.1.order).orderId,
        ((Branch.ofSide order.side).sellOf order t.1.order).orderId, t.2,
        if TimestampsAgree order t.1.order then t.1.order.price else order.price) := by
  obtain ⟨-, hfills⟩ := apply_fills env (show b.submission (.submit order) = some (b.toBookState, order) from rfl)
  rw [← List.forall₂_eq_eq_eq, List.forall₂_map_left_iff, List.forall₂_map_right_iff]
  refine hfills.flip.imp fun fill t hf => ?_
  obtain ⟨⟨hbuy, hsell, hquantity⟩, hprice⟩ := hf
  rw [execPrice_eq] at hprice
  rw [Fill.terms, hbuy, hsell, hquantity, hprice]

/-- On every reachable book, two market orders that differ in the price and the timestamp alone trade alike and leave
the same book exactly when the timestamp comparison gives the same price at every resting order they get
to. -/
theorem market_fields_iff (symbol : Symbol) (env env₁ env₂ : Env) (ops : List Op) (order : Order)
    (ht : order.type = OrderType.market) (price : Price) (timestamp : Timestamp) :
    ((run symbol env ops).book.submit order env₁).SameTrades
        ((run symbol env ops).book.submit { order with price := price, timestamp := timestamp } env₂) ↔
      ∀ n, (run symbol env ops).book.Reaches order n →
        SamePick order { order with price := price, timestamp := timestamp } n.order := by
  let b := (run symbol env ops).book
  let order' : Order := { order with price := price, timestamp := timestamp }
  have hne : order.type ≠ OrderType.limit := by
    rw [ht]
    decide
  have hbook : (b.submit order env₁).book = (b.submit order' env₂).book := by
    refine OrderBook.ext ?_
    rw [OrderBook.submit_book, OrderBook.submit_book]
    exact BookState.submitBranch_market hne price timestamp b.wf {} {} env₁ env₂
  have htaken : b.taken order' = b.taken order := BookState.taken_market hne price timestamp
  have hterms : (b.submit order env₁).result.fills.map Fill.terms = (b.submit order' env₂).result.fills.map Fill.terms ↔
      ∀ t ∈ b.taken order, SamePick order order' t.1.order := by
    rw [OrderBook.submit_terms, OrderBook.submit_terms, htaken, List.map_inj_left]
    refine forall₂_congr fun t _ => ?_
    rw [samePick_iff, Prod.mk.injEq, Prod.mk.injEq, Prod.mk.injEq]
    obtain ⟨hbuy, hsell⟩ := (Branch.ofSide order.side).parties (show order.orderId = order'.orderId from rfl) t.1.order
    exact ⟨fun h => h.2.2.2, fun h => ⟨hbuy, hsell, rfl, h⟩⟩
  constructor
  · -- the orders the market order gets to are those it takes from
    rintro ⟨hfills, -⟩ n hn
    obtain ⟨t, ht, rfl⟩ := List.mem_map.1 ((b.mem_taken order n).2 hn)
    exact hterms.1 hfills t ht
  · intro hpick
    refine ⟨hterms.2 fun t ht => hpick t.1 ?_, hbook⟩
    exact (b.mem_taken order t.1).1 (List.mem_map_of_mem ht)

/-- A bid at 10 stamped 5 rests; a market sell order comes in, with a price and a timestamp. -/
def restingBid : List Op := [.submit { orderId := 1, price := 10, quantity := 5, remainingQuantity := 5, timestamp := 5 }]

def marketSell (price : Price) (timestamp : Timestamp) : Order :=
  { orderId := 2, side := .sell, type := .market, price := price, quantity := 3, remainingQuantity := 3,
    timestamp := timestamp }

/-- Stamped before the bid, market orders with the price fields 1 and 2 trade at 1 and at 2. -/
theorem market_price_leaks : ¬ ((run [] ⟨1, fun _ => 0, 0⟩ restingBid).book.submit (marketSell 1 3)
    ⟨1, fun _ => 0, 0⟩).SameTrades ((run [] ⟨1, fun _ => 0, 0⟩ restingBid).book.submit (marketSell 2 3)
      ⟨1, fun _ => 0, 0⟩) := by
  rintro ⟨hfills, -⟩
  revert hfills
  decide

/-- Stamped after the bid, they trade alike whatever their price fields. -/
theorem market_fields_iff_later : ((run [] ⟨1, fun _ => 0, 0⟩ restingBid).book.submit (marketSell 1 6)
    ⟨1, fun _ => 0, 0⟩).SameTrades ((run [] ⟨1, fun _ => 0, 0⟩ restingBid).book.submit (marketSell 2 9)
      ⟨1, fun _ => 0, 0⟩) := by
  refine (market_fields_iff [] ⟨1, fun _ => 0, 0⟩ ⟨1, fun _ => 0, 0⟩ ⟨1, fun _ => 0, 0⟩ restingBid (marketSell 1 6) rfl
    2 9).2 fun n hn => ?_
  rw [← BookState.mem_taken] at hn
  revert n hn
  decide

end StockExchange
