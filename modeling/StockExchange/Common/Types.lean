/-
The data of the exchange (`common/types.hpp`, `common/enums.hpp`, `common/constants.hpp`) and what
the matcher reads from outside the book: the trade id counter (`common/trade_id_generator.hpp`) and
the wall clock (`common/time_utils.cpp`). Integers keep the widths of the source, so subtraction
and multiplication wrap as they do there.
-/
import Mathlib.Data.List.Basic
import Mathlib.Data.UInt

namespace StockExchange

abbrev Price := UInt64
abbrev Quantity := UInt32
abbrev OrderID := UInt64
abbrev Timestamp := UInt64
abbrev ClientID := UInt32

/-- A `std::string`: any sequence of bytes. -/
abbrev Text := List UInt8
abbrev Symbol := Text

/-- The bytes of an ASCII literal. -/
def text (s : String) : Text := s.toList.map fun c => c.toNat.toUInt8

/-- `enum class Side : uint8_t`. The gateway casts an arbitrary byte to it, so a value other than the
two named ones can occur. -/
structure Side where
  byte : UInt8
  deriving DecidableEq, Repr, Inhabited

def Side.buy : Side := ⟨0⟩
def Side.sell : Side := ⟨1⟩

/-- `enum class OrderType : uint8_t`, cast from an arbitrary byte like `Side`. -/
structure OrderType where
  byte : UInt8
  deriving DecidableEq, Repr, Inhabited

def OrderType.limit : OrderType := ⟨0⟩
def OrderType.market : OrderType := ⟨1⟩

inductive OrderStatus
  | new
  | partiallyFilled
  | filled
  | cancelled
  | rejected
  deriving DecidableEq, Repr, Inhabited

@[ext] structure Order where
  orderId : OrderID := 0
  symbol : Symbol := []
  side : Side := .buy
  type : OrderType := .limit
  price : Price := 0
  quantity : Quantity := 0
  remainingQuantity : Quantity := 0
  timestamp : Timestamp := 0
  clientId : ClientID := 0
  deriving DecidableEq, Repr, Inhabited

structure CancelRequest where
  orderId : OrderID := 0
  symbol : Symbol := []
  timestamp : Timestamp := 0
  clientId : ClientID := 0
  deriving DecidableEq, Repr, Inhabited

structure ModifyRequest where
  orderId : OrderID := 0
  symbol : Symbol := []
  price : Price := 0
  quantity : Quantity := 0
  timestamp : Timestamp := 0
  clientId : ClientID := 0
  deriving DecidableEq, Repr, Inhabited

structure Fill where
  tradeId : UInt64 := 0
  buyOrderId : OrderID := 0
  sellOrderId : OrderID := 0
  symbol : Symbol := []
  price : Price := 0
  quantity : Quantity := 0
  timestamp : Timestamp := 0
  deriving DecidableEq, Repr, Inhabited

structure Trade where
  tradeId : UInt64 := 0
  symbol : Symbol := []
  price : Price := 0
  quantity : Quantity := 0
  timestamp : Timestamp := 0
  deriving DecidableEq, Repr, Inhabited

structure ExecutionReport where
  orderId : OrderID := 0
  symbol : Symbol := []
  side : Side := .buy
  status : OrderStatus := .new
  price : Price := 0
  quantity : Quantity := 0
  remainingQuantity : Quantity := 0
  lastQty : Quantity := 0
  lastPx : Price := 0
  timestamp : Timestamp := 0
  rejectReason : Text := []
  clientId : ClientID := 0
  deriving DecidableEq, Repr, Inhabited

structure MatchResult where
  status : OrderStatus := .new
  fills : List Fill := []
  executionReports : List ExecutionReport := []
  deriving DecidableEq, Repr, Inhabited

/-! ## The world outside the book -/

/-- The trade id counter and the wall clock. The clock is any sequence of readings, of which `reads`
have been taken. -/
structure Env where
  counter : UInt64 := 1
  clock : Nat → Timestamp
  reads : Nat := 0

/-- `TradeIDGenerator::next_id`. -/
def Env.nextId (env : Env) : UInt64 × Env :=
  (env.counter, { env with counter := env.counter + 1 })

/-- `time_utils::get_current_time_ns`. -/
def Env.getCurrentTimeNs (env : Env) : Timestamp × Env :=
  (env.clock env.reads, { env with reads := env.reads + 1 })

end StockExchange
