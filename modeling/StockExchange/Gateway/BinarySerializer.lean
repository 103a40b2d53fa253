/-
The wire structs and their conversions (`gateway/binary_serializer.hpp`). A struct that the source
leaves uninitialised starts from arbitrary contents, and `std::string(net.symbol)` reads the packed
bytes from the symbol's offset up to the first zero byte, beyond the array if it holds none.
-/
import StockExchange.Common.Types
import StockExchange.Lib.Packed

namespace StockExchange

open Packed

/-! ## Structs -/

structure MsgHeader where
  type : UInt16
  length : UInt16
  deriving DecidableEq

structure NetOrder where
  orderId : UInt64
  symbol : Chars 8
  side : UInt8
  type : UInt8
  price : UInt64
  quantity : UInt32
  timestamp : UInt64
  deriving DecidableEq

structure NetCancel where
  orderId : UInt64
  symbol : Chars 8
  timestamp : UInt64
  deriving DecidableEq

structure NetModify where
  orderId : UInt64
  symbol : Chars 8
  price : UInt64
  quantity : UInt32
  timestamp : UInt64
  deriving DecidableEq

structure NetExecutionReport where
  orderId : UInt64
  symbol : Chars 8
  side : UInt8
  status : UInt8
  price : UInt64
  quantity : UInt32
  remainingQuantity : UInt32
  lastQty : UInt32
  lastPx : UInt64
  timestamp : UInt64
  rejectReason : Chars 32
  deriving DecidableEq

def MsgHeader.packed : Packed MsgHeader :=
  (u16.prod u16).iso (fun (type, length) => ⟨type, length⟩) (fun header => (header.type, header.length)) (fun _ => rfl)
    (fun _ => rfl)

def NetOrder.packed : Packed NetOrder :=
  (u64.prod ((chars 8).prod (u8.prod (u8.prod (u64.prod (u32.prod u64)))))).iso
    (fun (orderId, symbol, side, type, price, quantity, timestamp) =>
      ⟨orderId, symbol, side, type, price, quantity, timestamp⟩)
    (fun net => (net.orderId, net.symbol, net.side, net.type, net.price, net.quantity, net.timestamp))
    (fun _ => rfl) (fun _ => rfl)

def NetCancel.packed : Packed NetCancel :=
  (u64.prod ((chars 8).prod u64)).iso (fun (orderId, symbol, timestamp) => ⟨orderId, symbol, timestamp⟩)
    (fun net => (net.orderId, net.symbol, net.timestamp)) (fun _ => rfl) (fun _ => rfl)

def NetModify.packed : Packed NetModify :=
  (u64.prod ((chars 8).prod (u64.prod (u32.prod u64)))).iso
    (fun (orderId, symbol, price, quantity, timestamp) => ⟨orderId, symbol, price, quantity, timestamp⟩)
    (fun net => (net.orderId, net.symbol, net.price, net.quantity, net.timestamp)) (fun _ => rfl) (fun _ => rfl)

def NetExecutionReport.packed : Packed NetExecutionReport :=
  (u64.prod ((chars 8).prod (u8.prod (u8.prod (u64.prod (u32.prod (u32.prod (u32.prod (u64.prod
    (u64.prod (chars 32))))))))))).iso
    (fun (orderId, symbol, side, status, price, quantity, remainingQuantity, lastQty, lastPx, timestamp, rejectReason) =>
      ⟨orderId, symbol, side, status, price, quantity, remainingQuantity, lastQty, lastPx, timestamp, rejectReason⟩)
    (fun net => (net.orderId, net.symbol, net.side, net.status, net.price, net.quantity, net.remainingQuantity,
      net.lastQty, net.lastPx, net.timestamp, net.rejectReason))
    (fun _ => rfl) (fun _ => rfl)

example : NetOrder.packed.size = 38 ∧ NetCancel.packed.size = 24 ∧ NetModify.packed.size = 36 := ⟨rfl, rfl, rfl⟩

/-! ## Strings -/

/-- `std::string(const char*)`: the bytes up to the first zero byte. -/
def cString (bytes : List UInt8) : Text := bytes.takeWhile fun b => b ≠ 0

/-- `safe_strncpy` into an array of `n + 1` bytes: what fits of the string and a zero byte, over the old
contents. -/
def safeStrncpy {n : ℕ} (dest : Chars (n + 1)) (src : Text) : Chars (n + 1) :=
  let len := min src.length n
  ⟨src.take len ++ 0 :: dest.1.drop (len + 1), by
    have hdest := dest.2
    rw [List.length_append, List.length_cons, List.length_take, List.length_drop]
    omega⟩

/-- A string with no zero byte in it. -/
def NulFree (s : Text) : Prop := 0 ∉ s

instance (s : Text) : Decidable (NulFree s) := inferInstanceAs (Decidable (0 ∉ s))

theorem cString_append {s : Text} (hs : NulFree s) (rest : List UInt8) : cString (s ++ 0 :: rest) = s := by
  rw [cString, List.takeWhile_append_of_pos, List.takeWhile_cons_of_neg, List.append_nil]
  · simp
  · intro b hb
    refine decide_eq_true ?_
    rintro rfl
    exact hs hb

/-- A string that fits its array with the terminator is read back, whatever stands behind it. -/
theorem cString_safeStrncpy {n : ℕ} (dest : Chars (n + 1)) {src : Text} (hs : NulFree src) (hlen : src.length ≤ n)
    (rest : List UInt8) : cString ((safeStrncpy dest src).1 ++ rest) = src := by
  show cString ((src.take (min src.length n) ++ 0 :: dest.1.drop (min src.length n + 1)) ++ rest) = src
  rw [Nat.min_eq_left hlen, List.take_length, List.append_assoc]
  exact cString_append hs _

/-! ## Conversions -/

namespace BinarySerializer

/-- `to_net(const Order&)`; `net` is the uninitialised local struct. -/
def orderToNet (net : NetOrder) (order : Order) : NetOrder where
  orderId := order.orderId
  symbol := safeStrncpy net.symbol order.symbol
  side := order.side.byte
  type := order.type.byte
  price := order.price
  quantity := order.quantity
  timestamp := order.timestamp

/-- `from_net(const NetOrder&)`; `behind` is the memory behind the struct. -/
def orderFromNet (net : NetOrder) (behind : List UInt8) : Order where
  orderId := net.orderId
  symbol := cString ((NetOrder.packed.put net ++ behind).drop 8)
  side := ⟨net.side⟩
  type := ⟨net.type⟩
  price := net.price
  quantity := net.quantity
  remainingQuantity := net.quantity
  timestamp := net.timestamp

/-- `to_net(const CancelRequest&)`. -/
def cancelToNet (net : NetCancel) (req : CancelRequest) : NetCancel where
  orderId := req.orderId
  symbol := safeStrncpy net.symbol req.symbol
  timestamp := req.timestamp

/-- `from_net(const NetCancel&)`. -/
def cancelFromNet (net : NetCancel) (behind : List UInt8) : CancelRequest where
  orderId := net.orderId
  symbol := cString ((NetCancel.packed.put net ++ behind).drop 8)
  timestamp := net.timestamp

/-- `to_net(const ModifyRequest&)`. -/
def modifyToNet (net : NetModify) (req : ModifyRequest) : NetModify where
  orderId := req.orderId
  symbol := safeStrncpy net.symbol req.symbol
  price := req.price
  quantity := req.quantity
  timestamp := req.timestamp

/-- `from_net(const NetModify&)`. -/
def modifyFromNet (net : NetModify) (behind : List UInt8) : ModifyRequest where
  orderId := net.orderId
  symbol := cString ((NetModify.packed.put net ++ behind).drop 8)
  price := net.price
  quantity := net.quantity
  timestamp := net.timestamp

/-- The value of an `OrderStatus` in its byte. -/
def statusByte : OrderStatus → UInt8
  | .new => 0
  | .partiallyFilled => 1
  | .filled => 2
  | .cancelled => 3
  | .rejected => 4

/-- `to_net(const ExecutionReport&)`. -/
def reportToNet (net : NetExecutionReport) (report : ExecutionReport) : NetExecutionReport where
  orderId := report.orderId
  symbol := safeStrncpy net.symbol report.symbol
  side := report.side.byte
  status := statusByte report.status
  price := report.price
  quantity := report.quantity
  remainingQuantity := report.remainingQuantity
  lastQty := report.lastQty
  lastPx := report.lastPx
  timestamp := report.timestamp
  rejectReason := safeStrncpy net.rejectReason report.rejectReason

/-- In all three structs the symbol stands right after the eight bytes of the id. -/
theorem drop_put (id : UInt64) (symbol : Chars 8) (fields behind : List UInt8) :
    ((u64.put id ++ (symbol.1 ++ fields)) ++ behind).drop 8 = symbol.1 ++ (fields ++ behind) := by
  have hid : (u64.put id).length = 8 := u64.length_put id
  rw [List.append_assoc, List.drop_left' hid, List.append_assoc]

/-- The symbol of a request that the wire structs can hold: at most seven bytes, none of them zero. -/
def Fits (symbol : Symbol) : Prop := NulFree symbol ∧ symbol.length ≤ 7

instance (symbol : Symbol) : Decidable (Fits symbol) := inferInstanceAs (Decidable (_ ∧ _))

/-- The symbol is read from the bytes that the encoder wrote, up to the terminator. -/
theorem orderFromNet_symbol (net : NetOrder) (order : Order) (behind : List UInt8) :
    ∃ rest, (orderFromNet (orderToNet net order) behind).symbol =
      cString ((safeStrncpy net.symbol order.symbol).1 ++ rest) :=
  ⟨_, congrArg cString (drop_put _ _ _ _)⟩

theorem orderFromNet_toNet (net : NetOrder) {order : Order} (h : Fits order.symbol)
    (hq : order.remainingQuantity = order.quantity) (behind : List UInt8) :
    orderFromNet (orderToNet net order) behind = { order with clientId := 0 } := by
  have hsymbol : (orderFromNet (orderToNet net order) behind).symbol = order.symbol := by
    obtain ⟨rest, hread⟩ := orderFromNet_symbol net order behind
    rw [hread, cString_safeStrncpy net.symbol h.1 h.2]
  ext1
  · rfl
  · exact hsymbol
  · rfl
  · rfl
  · rfl
  · rfl
  · exact hq.symm
  · rfl
  · rfl

/-- The wire has no field for the remaining quantity: the whole order is open again. -/
theorem orderFromNet_toNet_open (net : NetOrder) {order : Order} (h : Fits order.symbol) (behind : List UInt8) :
    orderFromNet (orderToNet net order) behind =
      { order with clientId := 0, remainingQuantity := order.quantity } := by
  exact @orderFromNet_toNet net { order with remainingQuantity := order.quantity } h rfl behind

theorem cancelFromNet_symbol (net : NetCancel) (req : CancelRequest) (behind : List UInt8) :
    ∃ rest, (cancelFromNet (cancelToNet net req) behind).symbol =
      cString ((safeStrncpy net.symbol req.symbol).1 ++ rest) :=
  ⟨_, congrArg cString (drop_put _ _ _ _)⟩

theorem cancelFromNet_toNet (net : NetCancel) {req : CancelRequest} (h : Fits req.symbol) (behind : List UInt8) :
    cancelFromNet (cancelToNet net req) behind = { req with clientId := 0 } := by
  have hsymbol : (cancelFromNet (cancelToNet net req) behind).symbol = req.symbol := by
    obtain ⟨rest, hread⟩ := cancelFromNet_symbol net req behind
    rw [hread, cString_safeStrncpy net.symbol h.1 h.2]
  rw [CancelRequest.mk.injEq]
  exact ⟨rfl, hsymbol, rfl, rfl⟩

theorem modifyFromNet_symbol (net : NetModify) (req : ModifyRequest) (behind : List UInt8) :
    ∃ rest, (modifyFromNet (modifyToNet net req) behind).symbol =
      cString ((safeStrncpy net.symbol req.symbol).1 ++ rest) :=
  ⟨_, congrArg cString (drop_put _ _ _ _)⟩

theorem modifyFromNet_toNet (net : NetModify) {req : ModifyRequest} (h : Fits req.symbol) (behind : List UInt8) :
    modifyFromNet (modifyToNet net req) behind = { req with clientId := 0 } := by
  have hsymbol : (modifyFromNet (modifyToNet net req) behind).symbol = req.symbol := by
    obtain ⟨rest, hread⟩ := modifyFromNet_symbol net req behind
    rw [hread, cString_safeStrncpy net.symbol h.1 h.2]
  rw [ModifyRequest.mk.injEq]
  exact ⟨rfl, hsymbol, rfl, rfl, rfl, rfl⟩

end BinarySerializer

end StockExchange
