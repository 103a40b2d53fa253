/-
`Session::process_packet` (`gateway/session.hpp`): what a session makes of one packet. The requester's id
is that of the session; orders pass the risk checker, cancels and modifies do not.
-/
import StockExchange.Engine.RiskChecker
import StockExchange.Threadpool.Task
import StockExchange.Gateway.BinarySerializer

namespace StockExchange

open Packed BinarySerializer

/-- `MsgType`. -/
def MsgType.order : UInt16 := 1
def MsgType.cancel : UInt16 := 2
def MsgType.modify : UInt16 := 3
def MsgType.executionReport : UInt16 := 4

/-- A packet: the type in its header and the body, whose length is the one in the header. -/
structure Packet where
  type : UInt16
  body : List UInt8
  deriving DecidableEq

/-- What a packet leads to. -/
inductive PacketResult
  /-- A wrong size or an unknown type: the packet is dropped. -/
  | dropped
  /-- The risk check failed: the session is sent a report. -/
  | rejected (report : ExecutionReport)
  | accepted (task : Task)

namespace Session

/-- The report of a failed risk check. -/
def rejectReport (order : Order) (reason : Text) (clientId : ClientID) (now : Timestamp) : ExecutionReport where
  orderId := order.orderId
  symbol := order.symbol
  side := order.side
  status := .rejected
  rejectReason := reason
  timestamp := now
  clientId := clientId

/-- `process_packet` on the session of a client, up to the hand-over to the pool. `behind` is the memory
behind the struct that the body is copied to. -/
def processPacket (clientId : ClientID) (packet : Packet) (behind : List UInt8) (risk : RiskChecker) (env : Env) :
    PacketResult × RiskChecker × Env :=
  if packet.type = MsgType.order then
    if packet.body.length ≠ NetOrder.packed.size then (.dropped, risk, env)
    else
      let order := { orderFromNet (NetOrder.packed.get packet.body) behind with clientId := clientId }
      match risk.validateOrder order with
      | .error reason =>
        let (now, env) := env.getCurrentTimeNs
        (.rejected (rejectReport order reason clientId now), risk, env)
      | .ok risk => (.accepted ⟨.submit order, order.symbol⟩, risk, env)
  else if packet.type = MsgType.cancel then
    if packet.body.length ≠ NetCancel.packed.size then (.dropped, risk, env)
    else
      let req := { cancelFromNet (NetCancel.packed.get packet.body) behind with clientId := clientId }
      (.accepted ⟨.cancel req, req.symbol⟩, risk, env)
  else if packet.type = MsgType.modify then
    if packet.body.length ≠ NetModify.packed.size then (.dropped, risk, env)
    else
      let req := { modifyFromNet (NetModify.packed.get packet.body) behind with clientId := clientId }
      (.accepted ⟨.modify req, req.symbol⟩, risk, env)
  else (.dropped, risk, env)

/-- A task as a session accepts it: its own client, the request's symbol, and an order that has passed the
risk check with all of it open. -/
structure Accepts (clientId : ClientID) (risk : RiskChecker) (task : Task) (risk' : RiskChecker) : Prop where
  client : task.request.clientId = clientId
  symbol : task.symbol = task.request.symbol
  checked : match task.request with
    | .submit order => order.remainingQuantity = order.quantity ∧ risk.validateOrder order = .ok risk'
    | .cancel _ => risk' = risk
    | .modify _ => risk' = risk

/-- Everything a packet can lead to. -/
theorem processPacket_spec {clientId : ClientID} {packet : Packet} {behind : List UInt8} {risk risk' : RiskChecker}
    {env env' : Env} {result : PacketResult} (h : processPacket clientId packet behind risk env = (result, risk', env')) :
    match result with
    | .dropped => risk' = risk ∧ env' = env
    | .rejected report => report.clientId = clientId ∧ report.status = .rejected ∧ risk' = risk
    | .accepted task => Accepts clientId risk task risk' ∧ env' = env := by
  unfold processPacket at h
  split at h
  next =>
    split at h
    next =>
      cases h
      exact ⟨rfl, rfl⟩
    next =>
      dsimp only at h
      split at h
      next reason _ =>
        cases h
        exact ⟨rfl, rfl, rfl⟩
      next checked hok =>
        cases h
        exact ⟨⟨rfl, rfl, rfl, hok⟩, rfl⟩
  next =>
  split at h
  next =>
    split at h
    next => cases h; exact ⟨rfl, rfl⟩
    next => cases h; exact ⟨⟨rfl, rfl, rfl⟩, rfl⟩
  next =>
  split at h
  next =>
    split at h
    next => cases h; exact ⟨rfl, rfl⟩
    next => cases h; exact ⟨⟨rfl, rfl, rfl⟩, rfl⟩
  next => cases h; exact ⟨rfl, rfl⟩

/-- The order that an Order packet carries, with the client of the session. -/
def orderOf (clientId : ClientID) (packet : Packet) (behind : List UInt8) : Option Order :=
  if packet.type = MsgType.order ∧ packet.body.length = NetOrder.packed.size then
    some { orderFromNet (NetOrder.packed.get packet.body) behind with clientId := clientId }
  else none

/-- A packet of an order that passes the risk check. -/
theorem processPacket_of_ok {clientId : ClientID} {packet : Packet} {behind : List UInt8} {risk risk' : RiskChecker}
    {order : Order} (ho : orderOf clientId packet behind = some order) (hr : risk.validateOrder order = .ok risk') (env : Env) :
    processPacket clientId packet behind risk env = (.accepted ⟨.submit order, order.symbol⟩, risk', env) := by
  unfold orderOf at ho
  split at ho
  next h =>
    cases ho
    unfold processPacket
    rw [if_pos h.1, if_neg (not_not.2 h.2)]
    simp only [hr]
  next => cases ho

/-- An order that is accepted or rejected came in an Order packet. -/
theorem orderOf_of_processPacket {clientId : ClientID} {packet : Packet} {behind : List UInt8} {risk risk' : RiskChecker}
    {env env' : Env} {result : PacketResult} (h : processPacket clientId packet behind risk env = (result, risk', env')) :
    match result with
    | .dropped => True
    | .rejected report => ∃ order, orderOf clientId packet behind = some order ∧ report.orderId = order.orderId ∧
        report.clientId = clientId
    | .accepted task => ∀ order, task.request = .submit order → orderOf clientId packet behind = some order := by
  unfold processPacket at h
  split at h
  next htype =>
    split at h
    next =>
      cases h
      trivial
    next hlen =>
      have ho : orderOf clientId packet behind =
          some { orderFromNet (NetOrder.packed.get packet.body) behind with clientId := clientId } :=
        if_pos ⟨htype, not_not.1 hlen⟩
      dsimp only at h
      split at h
      next reason _ =>
        cases h
        exact ⟨_, ho, rfl, rfl⟩
      next =>
        cases h
        rintro order ⟨⟩
        exact ho
  next =>
  split at h
  next =>
    split at h
    next => cases h; trivial
    next => cases h; rintro order ⟨⟩
  next =>
  split at h
  next =>
    split at h
    next => cases h; trivial
    next => cases h; rintro order ⟨⟩
  next => cases h; trivial

end Session

end StockExchange
