/-
The price of a match. `matchOrders` does not know which of its orders rests; it takes the price of
the one whose timestamp is smaller, the buy order's on a tie. This is the resting order's price
exactly when the timestamps of the packets point at it (`fills_at_resting_price`), but between
`Limit` orders it is always within both limits (`limit_protection`).
-/
import StockExchange.Engine.Events

namespace StockExchange

open Greedy OrderBook

/-- The comparison of `matchOrders` picks the resting order. -/
def TimestampsAgree (incoming resting : Order) : Prop :=
  if incoming.side = Side.buy then resting.timestamp < incoming.timestamp
  else resting.timestamp ≤ incoming.timestamp

instance (incoming resting : Order) : Decidable (TimestampsAgree incoming resting) :=
  inferInstanceAs (Decidable (if incoming.side = Side.buy then resting.timestamp < incoming.timestamp
    else resting.timestamp ≤ incoming.timestamp))

/-- The price of a match is the resting order's exactly when the timestamps point at it or both
prices are equal. -/
theorem execPrice_eq_resting (incoming resting : Order) :
    execPrice ((Branch.ofSide incoming.side).buyOf incoming resting)
        ((Branch.ofSide incoming.side).sellOf incoming resting) = resting.price ↔
      TimestampsAgree incoming resting ∨ resting.price = incoming.price := by
  unfold TimestampsAgree Branch.ofSide execPrice
  by_cases hs : incoming.side = Side.buy
  · rw [if_pos hs, if_pos hs]
    show (if resting.timestamp < incoming.timestamp then resting.price else incoming.price) = resting.price ↔ _
    by_cases ht : resting.timestamp < incoming.timestamp
    · simp [ht]
    · simp [ht, eq_comm]
  · rw [if_neg hs, if_neg hs]
    show (if incoming.timestamp < resting.timestamp then incoming.price else resting.price) = resting.price ↔ _
    by_cases ht : incoming.timestamp < resting.timestamp
    · have hle : ¬ resting.timestamp ≤ incoming.timestamp := by
        rw [UInt64.le_iff_toNat_le]
        rw [UInt64.lt_iff_toNat_lt] at ht
        omega
      simp [ht, hle, eq_comm]
    · have hle : resting.timestamp ≤ incoming.timestamp := by
        rw [UInt64.le_iff_toNat_le]
        rw [UInt64.lt_iff_toNat_lt] at ht
        omega
      simp [ht, hle]

/-- The incoming order gets to this resting order: the eligible orders in front of it do not cover
the incoming quantity. -/
def BookState.Reaches (b : BookState) (order : Order) (n : Node) : Prop :=
  ∃ front back, b.eligible (Branch.ofSide order.side) order = front ++ n :: back ∧
    (front.map fun m => m.size.toNat).sum < order.remainingQuantity.toNat

theorem BookState.mem_taken (b : BookState) (order : Order) (n : Node) :
    n ∈ (b.taken order).map Prod.fst ↔ b.Reaches order n := by
  have hfst : (b.taken order).map Prod.fst = (takes (fun m : Node => m.size.toNat) order.remainingQuantity.toNat
      (b.eligible (Branch.ofSide order.side) order)).map Prod.fst := by
    rw [(BookState.takes_toNat _ _).1, List.map_map]
    rfl
  rw [hfst]
  exact mem_takes_iff order.remainingQuantity.toNat _

/-! ## The resting order's price -/

/-- Every fill of the event is at the price of the order that was resting. -/
def Event.AtRestingPrice (e : Event) : Prop :=
  ∀ b order, e.before.submission e.op = some (b, order) →
    List.Forall₂ (fun t fill => FillOf order t fill ∧ fill.price = t.1.order.price) (b.taken order) e.result.fills

/-- The timestamps of the packets point at the resting order, wherever the prices differ, for every
order the incoming one gets to. -/
def Event.RestingOlder (e : Event) : Prop :=
  ∀ b order, e.before.submission e.op = some (b, order) →
    ∀ n, b.Reaches order n → TimestampsAgree order n.order ∨ n.order.price = order.price

theorem atRestingPrice_iff {e : Event} {env : Env} (he : e.result = (e.before.apply e.op env).result) :
    e.AtRestingPrice ↔ e.RestingOlder := by
  unfold Event.AtRestingPrice Event.RestingOlder
  refine forall_congr' fun b => forall_congr' fun order => forall_congr' fun h => ?_
  obtain ⟨-, hfills⟩ := apply_fills env h
  rw [← he] at hfills
  constructor
  · intro hprice n hn
    obtain ⟨t, ht, rfl⟩ := List.mem_map.1 ((b.mem_taken order n).2 hn)
    -- each fill has the price of `matchOrders`, and by assumption the resting price
    have hagree : List.Forall₂ (fun t (_ : Fill) => (TimestampsAgree order t.1.order ∨
        t.1.order.price = order.price) ∧ True) (b.taken order) e.result.fills := by
      refine hfills.mp (fun t fill hf hp => ⟨?_, trivial⟩) hprice
      exact (execPrice_eq_resting order t.1.order).1 (hf.2.symm.trans hp.2)
    exact ((List.forall₂_and_left _ _).1 hagree).1 t ht
  · intro holder
    have hagree : ∀ t ∈ b.taken order, TimestampsAgree order t.1.order ∨ t.1.order.price = order.price :=
      fun t ht => holder t.1 ((b.mem_taken order t.1).1 (List.mem_map_of_mem ht))
    refine ((List.forall₂_and_left _ _).2 ⟨hagree, hfills⟩).imp ?_
    rintro t fill ⟨hag, hf, hp⟩
    exact ⟨hf, hp.trans ((execPrice_eq_resting order t.1.order).2 hag)⟩

/-- In every run, a submission fills at the resting orders' prices exactly when the timestamps of the
packets point at every resting order it gets to, or the prices are equal. -/
theorem fills_at_resting_price (symbol : Symbol) (env : Env) (ops : List Op) :
    ∀ e ∈ (run symbol env ops).events, e.AtRestingPrice ↔ e.RestingOlder := by
  intro e he
  obtain ⟨env', hresult, -⟩ := run_event symbol env ops e he
  exact atRestingPrice_iff hresult

theorem Event.AtRestingPrice.prices {e : Event} (h : e.AtRestingPrice) {b : BookState} {order : Order}
    (hs : e.before.submission e.op = some (b, order)) :
    (b.taken order).map (fun t => t.1.order.price) = e.result.fills.map Fill.price := by
  rw [← List.forall₂_eq_eq_eq, List.forall₂_map_left_iff, List.forall₂_map_right_iff]
  exact (h b order hs).imp fun t fill hf => hf.2.symm

/-- A bid at 10 with timestamp 5 rests; an ask at 8 with timestamp 3 comes in later. -/
def lateAsk : List Op :=
  [.submit { orderId := 1, price := 10, quantity := 5, remainingQuantity := 5, timestamp := 5 },
    .submit { orderId := 2, side := .sell, price := 8, quantity := 5, remainingQuantity := 5, timestamp := 3 }]

/-- The late ask trades with the bid resting at 10, at its own price 8. -/
theorem lateAsk_fills_at_incoming_price :
    ((run [] ⟨1, fun _ => 0, 0⟩ lateAsk).events.map fun e => e.result.fills.map Fill.price) = [[], [8]] ∧
      ¬ ∀ e ∈ (run [] ⟨1, fun _ => 0, 0⟩ lateAsk).events, e.AtRestingPrice := by
  refine ⟨by decide, fun h => ?_⟩
  have hlast := h ((run [] ⟨1, fun _ => 0, 0⟩ lateAsk).events.get ⟨1, by decide⟩) (List.get_mem _ _)
  have hp := hlast.prices rfl
  revert hp
  decide

/-- The same ask stamped after the bid trades at the resting price. -/
theorem fills_at_resting_price_in_order : ((run [] ⟨1, fun _ => 0, 0⟩
    [.submit { orderId := 1, price := 10, quantity := 5, remainingQuantity := 5, timestamp := 5 },
      .submit { orderId := 2, side := .sell, price := 8, quantity := 5, remainingQuantity := 5,
                timestamp := 6 }]).events.get ⟨1, by decide⟩).AtRestingPrice := by
  refine (fills_at_resting_price _ _ _ _ (List.get_mem _ ⟨1, by decide⟩)).2 ?_
  rintro b order hs n hn
  cases hs
  rw [← BookState.mem_taken] at hn
  revert n hn
  decide

/-! ## The limits of both orders -/

theorem taken_crosses {b : BookState} {order : Order} (ht : order.type = OrderType.limit) {t : Node × Quantity}
    (h : t ∈ b.taken order) : ((Branch.ofSide order.side).sellOf order t.1.order).price ≤
      ((Branch.ofSide order.side).buyOf order t.1.order).price := by
  have hmem : t.1 ∈ b.eligible (Branch.ofSide order.side) order :=
    (takes_isPrefix _ _).subset (List.mem_map_of_mem h)
  have hacc := (List.mem_filter.1 hmem).2
  unfold Branch.accepts at hacc
  rw [decide_eq_true ht, Bool.true_and, Bool.not_eq_true'] at hacc
  cases hbr : Branch.ofSide order.side with
  | buy =>
    rw [hbr] at hacc
    simp only [Branch.misses, decide_eq_false_iff_not] at hacc
    exact UInt64.not_lt.1 hacc
  | sell =>
    rw [hbr] at hacc
    simp only [Branch.misses, decide_eq_false_iff_not] at hacc
    exact UInt64.not_lt.1 hacc

/-- The price of a match is one of the two orders' prices. -/
theorem execPrice_cases (buy sell : Order) : execPrice buy sell = buy.price ∨ execPrice buy sell = sell.price := by
  unfold execPrice
  split
  · exact .inr rfl
  · exact .inl rfl

/-- The fill is within the limits of both orders it matches, and at the price of one of them. -/
def WithinLimits (buy sell : Order) (fill : Fill) : Prop :=
  sell.price ≤ fill.price ∧ fill.price ≤ buy.price ∧ (fill.price = buy.price ∨ fill.price = sell.price)

/-- On every reachable book, every fill of a submitted `Limit` order or of a modify, whatever the
timestamps, is within the limits of the two orders it matches. -/
theorem limit_protection (symbol : Symbol) (env env' : Env) (ops : List Op) (op : Op)
    (hop : ∀ order, op = .submit order → order.type = OrderType.limit) (b : BookState) (order : Order)
    (h : (run symbol env ops).book.submission op = some (b, order)) :
    List.Forall₂ (fun t fill => FillOf order t fill ∧
        WithinLimits ((Branch.ofSide order.side).buyOf order t.1.order)
          ((Branch.ofSide order.side).sellOf order t.1.order) fill)
      (b.taken order) ((run symbol env ops).book.apply op env').result.fills := by
  have ht := submission_type h hop
  have hcross : ∀ t ∈ b.taken order, ((Branch.ofSide order.side).sellOf order t.1.order).price ≤
      ((Branch.ofSide order.side).buyOf order t.1.order).price := fun t hmem => taken_crosses ht hmem
  obtain ⟨-, hfills⟩ := apply_fills env' h
  refine ((List.forall₂_and_left _ _).2 ⟨hcross, hfills⟩).imp ?_
  rintro t fill ⟨hx, hf, hp⟩
  refine ⟨hf, ?_⟩
  unfold WithinLimits
  rw [hp]
  rcases execPrice_cases ((Branch.ofSide order.side).buyOf order t.1.order)
    ((Branch.ofSide order.side).sellOf order t.1.order) with he | he
  · rw [he]
    exact ⟨hx, UInt64.le_refl _, .inl rfl⟩
  · rw [he]
    exact ⟨UInt64.le_refl _, hx, .inr rfl⟩

/-- The late ask, which trades at its own price 8, against the bid at 10. -/
theorem limit_protection_lateAsk : ∃ fill, ((run [] ⟨1, fun _ => 0, 0⟩ (lateAsk.take 1)).book.apply
    (lateAsk.get ⟨1, by decide⟩) ⟨1, fun _ => 0, 0⟩).result.fills = [fill] ∧ 8 ≤ fill.price ∧ fill.price ≤ 10 := by
  have h := limit_protection [] ⟨1, fun _ => 0, 0⟩ ⟨1, fun _ => 0, 0⟩ (lateAsk.take 1)
    (lateAsk.get ⟨1, by decide⟩) (by rintro order ⟨⟩; rfl) _ _ rfl
  cases h with
  | cons h _ => exact ⟨_, rfl, h.2.1, h.2.2.1⟩

end StockExchange
