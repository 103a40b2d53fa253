/-
The write-ahead log (`pipeline/wal.hpp`, `pipeline/wal_event.hpp`, `pipeline/wal.cpp`): its records, the
queue the workers append to and the file the flush thread writes. A record is a tag byte and a union;
the union is its bytes, of which writing a member changes the first ones only.
-/
import StockExchange.Threadpool.Task
import StockExchange.Gateway.BinarySerializer

namespace StockExchange

open Packed BinarySerializer

/-! ## Records -/

structure NetFill where
  tradeId : UInt64
  buyOrderId : UInt64
  sellOrderId : UInt64
  symbol : Chars 8
  price : UInt64
  quantity : UInt32
  timestamp : UInt64
  deriving DecidableEq

def NetFill.packed : Packed NetFill :=
  (u64.prod (u64.prod (u64.prod ((chars 8).prod (u64.prod (u32.prod u64)))))).iso
    (fun (tradeId, buyOrderId, sellOrderId, symbol, price, quantity, timestamp) =>
      ⟨tradeId, buyOrderId, sellOrderId, symbol, price, quantity, timestamp⟩)
    (fun net => (net.tradeId, net.buyOrderId, net.sellOrderId, net.symbol, net.price, net.quantity, net.timestamp))
    (fun _ => rfl) (fun _ => rfl)

/-- The union of the four structs, as large as the largest of them. -/
abbrev WALData := Chars NetFill.packed.size

structure WALEntry where
  type : UInt8
  data : WALData
  deriving DecidableEq

def WALEntry.packed : Packed WALEntry :=
  (u8.prod (chars NetFill.packed.size)).iso (fun (type, data) => ⟨type, data⟩) (fun entry => (entry.type, entry.data))
    (fun _ => rfl) (fun _ => rfl)

/-- `WALEventType`. -/
def WALEventType.submit : UInt8 := 1
def WALEventType.cancel : UInt8 := 2
def WALEventType.modify : UInt8 := 3
def WALEventType.fill : UInt8 := 4

namespace WALData

variable {α : Type}

/-- A member of the union, read from its first bytes. -/
def read (A : Packed α) (data : WALData) : α := A.get (data.1.take A.size)

def write (A : Packed α) (hA : A.size ≤ NetFill.packed.size) (a : α) (data : WALData) : WALData :=
  ⟨A.put a ++ data.1.drop A.size, by
    rw [List.length_append, A.length_put, List.length_drop, data.2]
    omega⟩

/-- The memory behind a member: the rest of the union and what follows it. -/
def behind (A : Packed α) (data : WALData) (after : List UInt8) : List UInt8 := data.1.drop A.size ++ after

theorem read_write (A : Packed α) (hA : A.size ≤ NetFill.packed.size) (a : α) (data : WALData) :
    read A (write A hA a data) = a := A.get_take a _

end WALData

/-! ## Logging -/

/-- The entries made by `log_order`, `log_cancel`, `log_modify`. The entry and the struct returned by
`to_net` are uninitialised: `entry` and `net` are their old contents. -/
def WALEntry.ofRequest (entry : WALEntry) (net : NetOrder) : Request → WALEntry
  | .submit order =>
    ⟨WALEventType.submit, entry.data.write NetOrder.packed (by decide) (orderToNet net order)⟩
  | .cancel req =>
    ⟨WALEventType.cancel, entry.data.write NetCancel.packed (by decide)
      { entry.data.read NetCancel.packed with
        orderId := req.orderId
        symbol := safeStrncpy (entry.data.read NetCancel.packed).symbol req.symbol
        timestamp := req.timestamp }⟩
  | .modify req =>
    ⟨WALEventType.modify, entry.data.write NetModify.packed (by decide)
      { entry.data.read NetModify.packed with
        orderId := req.orderId
        symbol := safeStrncpy (entry.data.read NetModify.packed).symbol req.symbol
        price := req.price
        quantity := req.quantity
        timestamp := req.timestamp }⟩

/-- The entry made by `log_fill`. -/
def WALEntry.ofFill (entry : WALEntry) (fill : Fill) : WALEntry :=
  ⟨WALEventType.fill, entry.data.write NetFill.packed (le_refl _)
    { entry.data.read NetFill.packed with
      tradeId := fill.tradeId
      buyOrderId := fill.buyOrderId
      sellOrderId := fill.sellOrderId
      symbol := safeStrncpy (entry.data.read NetFill.packed).symbol fill.symbol
      price := fill.price
      quantity := fill.quantity
      timestamp := fill.timestamp }⟩

/-- The log: the queue between the workers and the flush thread, and the file. -/
structure WAL where
  queue : List WALEntry := []
  file : List UInt8 := []

namespace WAL

/-- `queue_.enqueue`, which never fails while the log is running. -/
def enqueue (wal : WAL) (entry : WALEntry) : WAL := { wal with queue := wal.queue ++ [entry] }

/-- One turn of `flush_loop` that finds an entry. -/
def flush (wal : WAL) : Option WAL :=
  match wal.queue with
  | [] => none
  | entry :: queue => some ⟨queue, wal.file ++ WALEntry.packed.put entry⟩

end WAL

/-! ## Reading -/

/-- What `ReplayEngine::replay` makes of an entry; `after` is the memory behind it. Fill entries and
unknown tags are skipped. -/
def WALEntry.request (entry : WALEntry) (after : List UInt8) : Option Request :=
  if entry.type = WALEventType.submit then
    some (.submit (orderFromNet (entry.data.read NetOrder.packed) (entry.data.behind NetOrder.packed after)))
  else if entry.type = WALEventType.cancel then
    some (.cancel (cancelFromNet (entry.data.read NetCancel.packed) (entry.data.behind NetCancel.packed after)))
  else if entry.type = WALEventType.modify then
    some (.modify (modifyFromNet (entry.data.read NetModify.packed) (entry.data.behind NetModify.packed after)))
  else none

/-- A request as the gateway builds it: a symbol of at most seven bytes without a zero byte, and all of a
submitted order still open. -/
def Request.Built : Request → Prop
  | .submit order => Fits order.symbol ∧ order.remainingQuantity = order.quantity
  | .cancel req => Fits req.symbol
  | .modify req => Fits req.symbol

instance (r : Request) : Decidable r.Built :=
  match r with
  | .submit order => inferInstanceAs (Decidable (Fits order.symbol ∧ order.remainingQuantity = order.quantity))
  | .cancel req => inferInstanceAs (Decidable (Fits req.symbol))
  | .modify req => inferInstanceAs (Decidable (Fits req.symbol))

/-- What is logged of a request is read back, all but the client, whatever was in memory. -/
theorem WALEntry.request_ofRequest (entry : WALEntry) (net : NetOrder) {r : Request} (h : r.Built) (after : List UInt8) :
    (entry.ofRequest net r).request after = some r.anonymous := by
  cases r with
  | submit order =>
    rw [ofRequest, request, if_pos rfl, WALData.read_write, orderFromNet_toNet net h.1 h.2]
    rfl
  | cancel req =>
    rw [ofRequest, request, if_neg (show WALEventType.cancel ≠ WALEventType.submit by decide), if_pos rfl,
      WALData.read_write]
    exact congrArg (some ∘ Request.cancel) (cancelFromNet_toNet _ h _)
  | modify req =>
    rw [ofRequest, request, if_neg (show WALEventType.modify ≠ WALEventType.submit by decide),
      if_neg (show WALEventType.modify ≠ WALEventType.cancel by decide), if_pos rfl, WALData.read_write]
    exact congrArg (some ∘ Request.modify) (modifyFromNet_toNet _ h _)

@[simp] theorem WALEntry.request_ofFill (entry : WALEntry) (fill : Fill) (after : List UInt8) :
    (entry.ofFill fill).request after = none := rfl

end StockExchange
