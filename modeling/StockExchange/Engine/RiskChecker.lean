/-
`RiskChecker` (`engine/risk_checker.cpp`): the registered symbols, the order ids accepted so far and the
limits of an order (`common/constants.hpp`). An order is accepted exactly when it is within the limits,
of a registered symbol and under a new id; the 64-bit product of price and quantity does not wrap there.
-/
import StockExchange.Common.Types
import Mathlib.Data.Finset.Insert

namespace StockExchange

/-- `MAX_PRICE`. -/
def maxPrice : Price := 99999999

/-- `MAX_QUANTITY`. -/
def maxQuantity : Quantity := 10000000

/-- `MAX_ORDER_VALUE`. -/
def maxOrderValue : UInt64 := 500000000

/-- The limits on price, quantity and value, the value as an exact product. -/
structure Order.WithinLimits (order : Order) : Prop where
  price_pos : 0 < order.price
  price_le : order.price ≤ maxPrice
  quantity_pos : 0 < order.quantity
  quantity_le : order.quantity ≤ maxQuantity
  value_le : order.price.toNat * order.quantity.toNat ≤ maxOrderValue.toNat

theorem Order.withinLimits_iff (order : Order) : order.WithinLimits ↔ 0 < order.price ∧ order.price ≤ maxPrice ∧
    0 < order.quantity ∧ order.quantity ≤ maxQuantity ∧
      order.price.toNat * order.quantity.toNat ≤ maxOrderValue.toNat :=
  ⟨fun h => ⟨h.1, h.2, h.3, h.4, h.5⟩, fun ⟨h₁, h₂, h₃, h₄, h₅⟩ => ⟨h₁, h₂, h₃, h₄, h₅⟩⟩

instance (order : Order) : Decidable order.WithinLimits := decidable_of_iff _ order.withinLimits_iff.symm

structure RiskChecker where
  allowedSymbols : Finset Symbol := ∅
  seenOrderIds : Finset OrderID := ∅

namespace RiskChecker

def registerSymbol (risk : RiskChecker) (symbol : Symbol) : RiskChecker :=
  { risk with allowedSymbols := insert symbol risk.allowedSymbols }

/-- `validate_order`: the checker after an accepted order, or the reason of the rejection. -/
def validateOrder (risk : RiskChecker) (order : Order) : Except Text RiskChecker :=
  if order.symbol ∉ risk.allowedSymbols then .error (text "Invalid Symbol")
  else if order.price ≤ 0 ∨ order.price > maxPrice then .error (text "Invalid Price Bounds")
  else if order.quantity ≤ 0 ∨ order.quantity > maxQuantity then .error (text "Invalid Quantity Bounds")
  else if order.orderId ∈ risk.seenOrderIds then .error (text "Duplicate Order ID")
  else if order.price * order.quantity.toUInt64 > maxOrderValue then .error (text "Order Value Exceeds Limit")
  else .ok { risk with seenOrderIds := insert order.orderId risk.seenOrderIds }

/-- Below the bounds on price and quantity the 64-bit product is the exact one. -/
theorem toNat_value {price : Price} {quantity : Quantity} (hp : price ≤ maxPrice) (hq : quantity ≤ maxQuantity) :
    (price * quantity.toUInt64).toNat = price.toNat * quantity.toNat := by
  have hp : price.toNat ≤ 99999999 := UInt64.le_iff_toNat_le.1 hp
  have hq : quantity.toNat ≤ 10000000 := UInt32.le_iff_toNat_le.1 hq
  have hmul : price.toNat * quantity.toNat ≤ 99999999 * 10000000 := Nat.mul_le_mul hp hq
  rw [UInt64.toNat_mul, UInt32.toNat_toUInt64]
  omega

theorem validateOrder_ok {risk risk' : RiskChecker} {order : Order} :
    risk.validateOrder order = .ok risk' ↔ order.symbol ∈ risk.allowedSymbols ∧ order.WithinLimits ∧
      order.orderId ∉ risk.seenOrderIds ∧
      risk' = { risk with seenOrderIds := insert order.orderId risk.seenOrderIds } := by
  unfold validateOrder
  constructor
  · intro h
    split at h
    next => cases h
    next hsymbol =>
    split at h
    next => cases h
    next hprice =>
    split at h
    next => cases h
    next hquantity =>
    split at h
    next => cases h
    next hid =>
    split at h
    next => cases h
    next hvalue =>
    cases h
    rw [not_or, UInt64.not_le, gt_iff_lt, UInt64.not_lt] at hprice
    rw [not_or, UInt32.not_le, gt_iff_lt, UInt32.not_lt] at hquantity
    rw [gt_iff_lt, UInt64.not_lt, UInt64.le_iff_toNat_le, toNat_value hprice.2 hquantity.2] at hvalue
    exact ⟨not_not.1 hsymbol, ⟨hprice.1, hprice.2, hquantity.1, hquantity.2, hvalue⟩, hid, rfl⟩
  · rintro ⟨hsymbol, hl, hid, rfl⟩
    have hvalue : ¬ order.price * order.quantity.toUInt64 > maxOrderValue := by
      rw [gt_iff_lt, UInt64.not_lt, UInt64.le_iff_toNat_le, toNat_value hl.price_le hl.quantity_le]
      exact hl.value_le
    rw [if_neg (not_not.2 hsymbol), if_neg (not_or.2 ⟨UInt64.not_le.2 hl.price_pos, UInt64.not_lt.2 hl.price_le⟩),
      if_neg (not_or.2 ⟨UInt32.not_le.2 hl.quantity_pos, UInt32.not_lt.2 hl.quantity_le⟩), if_neg hid, if_neg hvalue]

end RiskChecker

end StockExchange
