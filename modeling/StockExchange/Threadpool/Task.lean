/-
The requests that travel through the exchange (`threadpool/task.hpp`). The tag `Task::type` and the
alternative held by the variant always go together in the source, so the constructor of a `Request` is both.
-/
import StockExchange.Engine.SameBook

namespace StockExchange

inductive Request
  | submit (order : Order)
  | cancel (req : CancelRequest)
  | modify (req : ModifyRequest)
  deriving DecidableEq, Repr

namespace Request

def symbol : Request → Symbol
  | .submit order => order.symbol
  | .cancel req => req.symbol
  | .modify req => req.symbol

def clientId : Request → ClientID
  | .submit order => order.clientId
  | .cancel req => req.clientId
  | .modify req => req.clientId

/-- What the request asks of the book. -/
def op : Request → Op
  | .submit order => .submit order
  | .cancel req => .cancel req.orderId
  | .modify req => .modify req

/-- The request as it comes out of the log, which has no field for the client. -/
def anonymous : Request → Request
  | .submit order => .submit order.anonymous
  | .cancel req => .cancel { req with clientId := 0 }
  | .modify req => .modify req.anonymous

@[simp] theorem anonymous_symbol (r : Request) : r.anonymous.symbol = r.symbol := by cases r <;> rfl

@[simp] theorem anonymous_op (r : Request) : r.anonymous.op = r.op.anonymous := by cases r <;> rfl

end Request

structure Task where
  request : Request
  symbol : Symbol
  deriving DecidableEq, Repr

end StockExchange
