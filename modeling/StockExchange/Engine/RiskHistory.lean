/-
The decisions of `RiskChecker` over a whole history of calls. The body of `validate_order` is written here with
the members of the checker as its state, so that a test that fails leaves them as they are at that point.
The calls of all sessions are one sequence, as every body runs under the mutex; `reset` is not among them.
-/
import StockExchange.Engine.RiskChecker

namespace StockExchange

/-- The limits as numbers. -/
theorem Order.withinLimits_toNat (order : Order) : order.WithinLimits ↔
    (1 ≤ order.price.toNat ∧ order.price.toNat ≤ maxPrice.toNat) ∧
    (1 ≤ order.quantity.toNat ∧ order.quantity.toNat ≤ maxQuantity.toNat) ∧
      order.price.toNat * order.quantity.toNat ≤ 500000000 := by
  rw [withinLimits_iff, UInt64.lt_iff_toNat_lt, UInt64.le_iff_toNat_le, UInt32.lt_iff_toNat_lt, UInt32.le_iff_toNat_le,
    and_assoc, and_assoc]
  exact Iff.rfl

namespace RiskChecker

/-! ## The body of `validate_order` -/

/-- Code under the mutex: it reads and writes the members and can leave with a `reject_reason`. -/
abbrev Locked := ExceptT Text (StateM RiskChecker)

/-- The shape of each test: `if (test) { reject_reason = reason; return false; }`. -/
def rejectIf (test : RiskChecker → Prop) [DecidablePred test] (reason : Text) : Locked Unit := do
  if test (← get) then throw reason

/-- The tests of `validate_order` before `order_value` is computed. -/
def firstTests (order : Order) : Locked Unit := do
  rejectIf (order.symbol ∉ ·.allowedSymbols) (text "Invalid Symbol")
  rejectIf (fun _ => order.price ≤ 0 ∨ order.price > maxPrice) (text "Invalid Price Bounds")
  rejectIf (fun _ => order.quantity ≤ 0 ∨ order.quantity > maxQuantity) (text "Invalid Quantity Bounds")
  rejectIf (order.orderId ∈ ·.seenOrderIds) (text "Duplicate Order ID")

def validateOrderBody (order : Order) : Locked Unit := do
  firstTests order
  let orderValue := order.price * order.quantity.toUInt64
  rejectIf (fun _ => orderValue > maxOrderValue) (text "Order Value Exceeds Limit")
  modify fun risk => { risk with seenOrderIds := insert order.orderId risk.seenOrderIds }

theorem rejectIf_bind_run (test : RiskChecker → Prop) [DecidablePred test] (reason : Text) (rest : Unit → Locked Unit)
    (risk : RiskChecker) : (rejectIf test reason >>= rest).run.run risk =
      if test risk then (.error reason, risk) else (rest ()).run.run risk := by
  change ((if test risk then throw reason else pure () : Locked Unit) >>= rest).run.run risk = _
  split_ifs <;> rfl

/-- The verdict is that of `validateOrder`, and only an accepted order changes a member. -/
theorem validateOrderBody_run (risk : RiskChecker) (order : Order) : (validateOrderBody order).run.run risk =
    match risk.validateOrder order with
    | .ok risk' => (.ok (), risk')
    | .error reason => (.error reason, risk) := by
  unfold validateOrderBody firstTests validateOrder
  simp only [bind_assoc, rejectIf_bind_run]
  split_ifs <;> rfl

/-- `order_value` is computed for this order: every test before it is passed. -/
def ReachesValue (risk : RiskChecker) (order : Order) : Prop := ((firstTests order).run.run risk).1 = .ok ()

theorem ReachesValue.bounds {risk : RiskChecker} {order : Order} (h : risk.ReachesValue order) :
    order.price ≤ maxPrice ∧ order.quantity ≤ maxQuantity := by
  unfold ReachesValue firstTests at h
  simp only [rejectIf_bind_run] at h
  split_ifs at h with hsymbol hprice hquantity
  exact ⟨UInt64.not_lt.1 (not_or.1 hprice).2, UInt32.not_lt.1 (not_or.1 hquantity).2⟩

/-! ## Histories of calls -/

inductive Call
  | registerSymbol (symbol : Symbol)
  | validateOrder (order : Order)
  deriving DecidableEq

def call (risk : RiskChecker) : Call → RiskChecker
  | .registerSymbol symbol => risk.registerSymbol symbol
  | .validateOrder order => ((validateOrderBody order).run.run risk).2

/-- The checker after a sequence of calls on a new one. -/
def after (calls : List Call) : RiskChecker := calls.foldl call {}

theorem after_snoc (calls : List Call) (c : Call) : after (calls ++ [c]) = (after calls).call c := by
  simp [after, List.foldl_append]

/-- `validate_order` returns `true` for the order after these calls. -/
def Accepts (calls : List Call) (order : Order) : Prop :=
  ((validateOrderBody order).run.run (after calls)).1 = .ok ()

instance (calls : List Call) (order : Order) : Decidable (Accepts calls order) := inferInstanceAs (Decidable (_ = _))

/-- One of the calls accepted an order with this id. -/
def AcceptedIn (calls : List Call) (id : OrderID) : Prop :=
  ∃ earlier order later, calls = earlier ++ .validateOrder order :: later ∧ order.orderId = id ∧ Accepts earlier order

theorem accepts_iff_ok (calls : List Call) (order : Order) :
    Accepts calls order ↔ ∃ risk, (after calls).validateOrder order = .ok risk := by
  unfold Accepts
  rw [validateOrderBody_run]
  cases (after calls).validateOrder order with
  | error reason => simp
  | ok risk => simp

theorem accepts_iff_members (calls : List Call) (order : Order) : Accepts calls order ↔
    order.symbol ∈ (after calls).allowedSymbols ∧ order.WithinLimits ∧ order.orderId ∉ (after calls).seenOrderIds := by
  simp only [accepts_iff_ok, validateOrder_ok, exists_and_left, exists_eq, and_true]

theorem call_validateOrder (risk : RiskChecker) (order : Order) : risk.call (.validateOrder order) =
    match risk.validateOrder order with
    | .ok risk' => risk'
    | .error _ => risk := by
  change ((validateOrderBody order).run.run risk).2 = _
  rw [validateOrderBody_run]
  cases risk.validateOrder order <;> rfl

theorem call_of_accepts {calls : List Call} {order : Order} (h : Accepts calls order) :
    (after calls).call (.validateOrder order) =
      { after calls with seenOrderIds := insert order.orderId (after calls).seenOrderIds } := by
  obtain ⟨risk, hok⟩ := (accepts_iff_ok calls order).1 h
  obtain ⟨-, -, -, rfl⟩ := validateOrder_ok.1 hok
  rw [call_validateOrder, hok]

/-- A rejected order leaves the members as they are. -/
theorem call_of_not_accepts {calls : List Call} {order : Order} (h : ¬ Accepts calls order) :
    (after calls).call (.validateOrder order) = after calls := by
  rw [accepts_iff_ok] at h
  rw [call_validateOrder]
  cases hverdict : (after calls).validateOrder order with
  | error reason => rfl
  | ok risk => exact absurd ⟨risk, hverdict⟩ h

/-- What the calls accepted, one call at a time. -/
theorem acceptedIn_snoc (calls : List Call) (c : Call) (id : OrderID) : AcceptedIn (calls ++ [c]) id ↔
    AcceptedIn calls id ∨ ∃ order, c = .validateOrder order ∧ order.orderId = id ∧ Accepts calls order := by
  constructor
  · rintro ⟨earlier, order, later, heq, hid, haccepts⟩
    rcases List.eq_nil_or_concat' later with rfl | ⟨later, last, rfl⟩
    · obtain ⟨rfl, hc⟩ := List.append_inj' heq rfl
      exact .inr ⟨order, List.singleton_inj.1 hc, hid, haccepts⟩
    · rw [← List.cons_append, ← List.append_assoc] at heq
      exact .inl ⟨earlier, order, later, (List.append_inj' heq rfl).1, hid, haccepts⟩
  · rintro (⟨earlier, order, later, rfl, hid, haccepts⟩ | ⟨order, rfl, hid, haccepts⟩)
    · exact ⟨earlier, order, later ++ [c], by simp, hid, haccepts⟩
    · exact ⟨calls, order, [], rfl, hid, haccepts⟩

/-- A rejected order and a registration accept no id. -/
theorem acceptedIn_rejected {calls : List Call} {order : Order} (h : ¬ Accepts calls order) (symbol : Symbol) (id : OrderID) :
    AcceptedIn (calls ++ [.validateOrder order, .registerSymbol symbol]) id ↔ AcceptedIn calls id := by
  rw [List.append_cons, acceptedIn_snoc, acceptedIn_snoc]
  simp [h]

/-! ## The members are the history -/

theorem mem_allowedSymbols (calls : List Call) (symbol : Symbol) :
    symbol ∈ (after calls).allowedSymbols ↔ .registerSymbol symbol ∈ calls := by
  induction calls using List.reverseRecOn with
  | nil => simp [after]
  | append_singleton calls c ih =>
    rw [after_snoc, List.mem_append, List.mem_singleton, ← ih]
    cases c with
    | registerSymbol other => simp [call, registerSymbol, or_comm]
    | validateOrder order =>
      by_cases h : Accepts calls order
      · simp [call_of_accepts h]
      · simp [call_of_not_accepts h]

theorem mem_seenOrderIds (calls : List Call) (id : OrderID) :
    id ∈ (after calls).seenOrderIds ↔ AcceptedIn calls id := by
  induction calls using List.reverseRecOn with
  | nil => simp [after, AcceptedIn]
  | append_singleton calls c ih =>
    rw [after_snoc, acceptedIn_snoc, ← ih]
    cases c with
    | registerSymbol other => simp [call, registerSymbol]
    | validateOrder order =>
      by_cases h : Accepts calls order
      · simp [call_of_accepts h, h, or_comm, eq_comm]
      · simp [call_of_not_accepts h, h]

theorem accepts_iff (calls : List Call) (order : Order) : Accepts calls order ↔
    .registerSymbol order.symbol ∈ calls ∧ order.WithinLimits ∧ ¬ AcceptedIn calls order.orderId := by
  rw [accepts_iff_members, mem_allowedSymbols, mem_seenOrderIds]

/-- The checker decides its policy over every history: an order is accepted exactly when its symbol is registered,
price and quantity are within their bounds, the exact value is within the limit and no order was accepted
under its id; the 64-bit value is the exact one wherever it is computed; a rejection changes no member,
so that the id can be accepted later; an acceptance is the last one under its id. -/
theorem decides_policy (calls : List Call) (order : Order) :
    (Accepts calls order ↔ .registerSymbol order.symbol ∈ calls ∧
      (1 ≤ order.price.toNat ∧ order.price.toNat ≤ maxPrice.toNat) ∧
      (1 ≤ order.quantity.toNat ∧ order.quantity.toNat ≤ maxQuantity.toNat) ∧
      order.price.toNat * order.quantity.toNat ≤ 500000000 ∧ ¬ AcceptedIn calls order.orderId) ∧
    ((after calls).ReachesValue order →
      (order.price * order.quantity.toUInt64).toNat = order.price.toNat * order.quantity.toNat) ∧
    (¬ Accepts calls order → after (calls ++ [.validateOrder order]) = after calls ∧
      (¬ AcceptedIn calls order.orderId → ∃ later next, next.orderId = order.orderId ∧
        Accepts (calls ++ .validateOrder order :: later) next)) ∧
    (Accepts calls order → ∀ later next, next.orderId = order.orderId →
      ¬ Accepts (calls ++ .validateOrder order :: later) next) := by
  refine ⟨?_, fun h => toNat_value h.bounds.1 h.bounds.2, fun h => ⟨?_, fun hnew => ?_⟩, fun h later next hid hnext => ?_⟩
  · rw [accepts_iff, order.withinLimits_toNat]
    tauto
  · rw [after_snoc, call_of_not_accepts h]
  · -- one unit at the lowest price, once the symbol is registered
    refine ⟨[.registerSymbol order.symbol], { order with price := 1, quantity := 1 }, rfl, (accepts_iff _ _).2 ⟨?_, ?_, ?_⟩⟩
    · exact List.mem_append_right _ (.tail _ (.head _))
    · rw [Order.withinLimits_toNat]
      simp [maxPrice, maxQuantity]
    · rwa [acceptedIn_rejected h]
  · have hin : AcceptedIn (calls ++ .validateOrder order :: later) next.orderId :=
      ⟨calls, order, later, rfl, hid.symm, h⟩
    exact ((accepts_iff _ next).1 hnext).2.2 hin

-- an order over the value limit, then one of the same id within it
example : ¬ Accepts [.registerSymbol (text "AAPL")]
      ⟨1, text "AAPL", Side.buy, OrderType.limit, 99999999, 10000000, 10000000, 0, 7⟩ ∧
    Accepts [.registerSymbol (text "AAPL"),
      .validateOrder ⟨1, text "AAPL", Side.buy, OrderType.limit, 99999999, 10000000, 10000000, 0, 7⟩]
      ⟨1, text "AAPL", Side.buy, OrderType.limit, 50, 10000000, 10000000, 0, 7⟩ := by decide

end RiskChecker

end StockExchange
