/-
Runs of `submitOrder`, `cancelOrder` and `modifyOrder` on one book, from the empty book on, with
arbitrary orders and requests: what each operation can do (`applies`), the induction over a run
(`run_induction`), and the price levels of the two sides never crossing.
-/
import StockExchange.Engine.OrderBook

namespace StockExchange

/-- An operation on a book. -/
inductive Op
  | submit (order : Order)
  | cancel (id : OrderID)
  | modify (request : ModifyRequest)
  deriving DecidableEq, Repr

namespace OrderBook

def apply (b : OrderBook) (op : Op) (env : Env) : Effect :=
  match op with
  | .submit order => b.submit order env
  | .cancel id => b.cancel id env
  | .modify request => b.modify request env

/-- Everything an operation can do: it submits an order, finds no order with the id, removes the
indexed order and reports it, or removes the indexed order and submits it again. -/
inductive Applies (b : OrderBook) (env : Env) : Op → Outcome → Prop
  | submit (order : Order) :
    Applies b env (.submit order) (b.submitBranch (Branch.ofSide order.side) order {} env)
  | cancelMiss (id : OrderID) (hi : b.orderIndex id = none) : Applies b env (.cancel id) ⟨b.toBookState, {}, env⟩
  | cancel (br : Branch) (n : Node) (hn : n ∈ b.nodes br)
    (hi : b.orderIndex n.order.orderId = some ⟨br.toSide, n.order.price, n.addr⟩) :
    Applies b env (.cancel n.order.orderId) ⟨b.without br n,
      MatchResult.report {} (b.cancelReport n.order.orderId ⟨br.toSide, n.order.price, n.addr⟩ n.order.clientId
        (env.clock env.reads)), { env with reads := env.reads + 1 }⟩
  | modifyMiss (request : ModifyRequest) (hi : b.orderIndex request.orderId = none) :
    Applies b env (.modify request) ⟨b.toBookState, {}, env⟩
  | modify (br : Branch) (n : Node) (request : ModifyRequest) (hn : n ∈ b.nodes br)
    (hid : n.order.orderId = request.orderId)
    (hi : b.orderIndex n.order.orderId = some ⟨br.toSide, n.order.price, n.addr⟩) :
    Applies b env (.modify request)
      ((b.without br n).submitBranch br (BookState.modified n.order request) {} env)

theorem applies (b : OrderBook) (op : Op) (env : Env) :
    ∃ o, Applies b env op o ∧ (b.apply op env).book.toBookState = o.book ∧ (b.apply op env).result = o.result ∧
      (b.apply op env).env = o.env := by
  cases op with
  | submit order =>
    refine ⟨_, .submit order, ?_⟩
    rw [← BookState.submitOrderInternal_eq]
    exact ⟨rfl, rfl, rfl⟩
  | cancel id =>
    rcases BookState.cancelOrder_cases b.wf id {} env with ⟨hi, h⟩ | ⟨br, n, hn, rfl, hi, h⟩
    · exact ⟨_, .cancelMiss id hi, ofDefined_eq (b.cancelOrder_defined id env) h⟩
    · exact ⟨_, .cancel br n hn hi, ofDefined_eq (b.cancelOrder_defined _ env) h⟩
  | modify request =>
    rcases BookState.modifyOrder_cases b.wf request {} env with ⟨hi, h⟩ | ⟨br, n, hn, hid, hi, h⟩
    · exact ⟨_, .modifyMiss request hi, ofDefined_eq (b.modifyOrder_defined request env) h⟩
    · rw [← hid] at hi
      exact ⟨_, .modify br n request hn hid hi, ofDefined_eq (b.modifyOrder_defined request env) h⟩

theorem cancel_cases (b : OrderBook) (id : OrderID) (env : Env) :
    (b.orderIndex id = none ∧ (b.cancel id env).book.toBookState = b.toBookState) ∨
      ∃ br, ∃ n ∈ b.nodes br, n.order.orderId = id ∧ b.orderIndex id = some ⟨br.toSide, n.order.price, n.addr⟩ ∧
        (b.cancel id env).book.toBookState = b.without br n := by
  rcases BookState.cancelOrder_cases b.wf id {} env with ⟨hi, h⟩ | ⟨br, n, hn, hid, hi, h⟩
  · exact .inl ⟨hi, (ofDefined_eq (b.cancelOrder_defined id env) h).1⟩
  · exact .inr ⟨br, n, hn, hid, hi, (ofDefined_eq (b.cancelOrder_defined id env) h).1⟩

theorem modify_cases (b : OrderBook) (request : ModifyRequest) (env : Env) :
    (b.orderIndex request.orderId = none ∧ (b.modify request env).book.toBookState = b.toBookState) ∨
      ∃ br, ∃ n ∈ b.nodes br, n.order.orderId = request.orderId ∧
        b.orderIndex request.orderId = some ⟨br.toSide, n.order.price, n.addr⟩ ∧
        (b.modify request env).book.toBookState =
          ((b.without br n).submitBranch br (BookState.modified n.order request) {} env).book := by
  rcases BookState.modifyOrder_cases b.wf request {} env with ⟨hi, h⟩ | ⟨br, n, hn, hid, hi, h⟩
  · exact .inl ⟨hi, (ofDefined_eq (b.modifyOrder_defined request env) h).1⟩
  · exact .inr ⟨br, n, hn, hid, hi, (ofDefined_eq (b.modifyOrder_defined request env) h).1⟩

end OrderBook

/-! ## Runs -/

/-- One operation of a run with the books around it. -/
structure Event where
  op : Op
  before : OrderBook
  result : MatchResult
  after : OrderBook

/-- An operation applied to a book, as an event. -/
def OrderBook.event (b : OrderBook) (op : Op) (env : Env) : Event :=
  ⟨op, b, (b.apply op env).result, (b.apply op env).book⟩

/-- A run so far: the current book and everything that happened, oldest first. -/
structure Run where
  book : OrderBook
  env : Env
  events : List Event

def Run.start (symbol : Symbol) (env : Env) : Run := ⟨.init symbol, env, []⟩

def Run.step (r : Run) (op : Op) : Run :=
  let e := r.book.apply op r.env
  ⟨e.book, e.env, r.events ++ [r.book.event op r.env]⟩

/-- The run of a list of operations from the empty book for `symbol`. -/
def run (symbol : Symbol) (env : Env) (ops : List Op) : Run := ops.foldl Run.step (.start symbol env)

theorem run_snoc (symbol : Symbol) (env : Env) (ops : List Op) (op : Op) :
    run symbol env (ops ++ [op]) = (run symbol env ops).step op := by
  simp [run, List.foldl_append]

/-- Induction over a run: what holds of the empty book and is kept by each operation, given the
operations before it. -/
theorem run_induction {symbol : Symbol} {env : Env} {P : List Op → Run → Prop} (hstart : P [] (.start symbol env))
    (hstep : ∀ ops op, P ops (run symbol env ops) → P (ops ++ [op]) ((run symbol env ops).step op)) (ops : List Op) :
    P ops (run symbol env ops) := by
  induction ops using List.reverseRecOn with
  | nil => exact hstart
  | append_singleton ops op ih =>
    rw [run_snoc]
    exact hstep ops op ih

theorem run_events (symbol : Symbol) (env : Env) (ops : List Op) :
    (run symbol env ops).events.map Event.op = ops := by
  refine run_induction (P := fun ops r => r.events.map Event.op = ops) rfl ?_ ops
  intro ops op ih
  simp only [Run.step, List.map_append, ih, List.map_cons, List.map_nil, OrderBook.event]

/-- Every event of a run is one operation applied to the book before it. -/
theorem run_event (symbol : Symbol) (env : Env) (ops : List Op) : ∀ e ∈ (run symbol env ops).events,
    ∃ env', e.result = (e.before.apply e.op env').result ∧ e.after = (e.before.apply e.op env').book := by
  refine run_induction (P := fun _ r => ∀ e ∈ r.events, ∃ env',
    e.result = (e.before.apply e.op env').result ∧ e.after = (e.before.apply e.op env').book) ?_ ?_ ops
  · intro e he
    cases he
  · intro ops op ih e he
    rcases List.mem_append.1 he with he | he
    · exact ih e he
    · rw [List.mem_singleton.1 he]
      exact ⟨(run symbol env ops).env, rfl, rfl⟩

/-! ## The sides never cross -/

/-- The prices at which a side has a level. -/
def BookState.prices (b : BookState) (br : Branch) : List Price := (b.levels br).entries.map Prod.fst

/-- A price level of a well-formed book holds an order at that price. -/
theorem BookState.WF.exists_at_price {b : BookState} (hb : b.WF) {br : Branch} {p : Price} (hp : p ∈ b.prices br) :
    ∃ n ∈ b.nodes br, n.order.price = p := by
  obtain ⟨e, he, rfl⟩ := List.mem_map.1 hp
  obtain ⟨hne, hq⟩ := hb.levels br e he
  obtain ⟨n, hn⟩ := List.exists_mem_of_ne_nil _ hne
  exact ⟨n, OrderedMap.mem_flat.2 ⟨e.1, e.2, he, hn⟩, hq n hn⟩

/-- In every state of every run, whatever the orders and requests, every price level of `buy_orders_`
is strictly below every price level of `sell_orders_`. -/
theorem never_crossed (symbol : Symbol) (env : Env) (ops : List Op) :
    ∀ bid ∈ (run symbol env ops).book.prices .buy, ∀ ask ∈ (run symbol env ops).book.prices .sell, bid < ask := by
  intro bid hbid ask hask
  have hwf := (run symbol env ops).book.wf
  obtain ⟨m, hm, rfl⟩ := hwf.exists_at_price hbid
  obtain ⟨n, hn, rfl⟩ := hwf.exists_at_price hask
  exact hwf.uncrossed .buy m hm n hn

/-- Two bids and an ask; the first order for 10 trades with the ask at that price and is gone. -/
theorem never_crossed_spread : ∃ book : OrderBook, book = (run [] ⟨1, fun _ => 0, 0⟩
    [.submit { orderId := 1, price := 9, quantity := 5, remainingQuantity := 5 },
      .submit { orderId := 2, side := .sell, price := 10, quantity := 4, remainingQuantity := 4 },
      .submit { orderId := 3, price := 12, quantity := 1, remainingQuantity := 1 },
      .submit { orderId := 4, price := 8, quantity := 1, remainingQuantity := 1 }]).book ∧
    book.prices .buy = [9, 8] ∧ book.prices .sell = [10] ∧
    ∀ bid ∈ book.prices .buy, ∀ ask ∈ book.prices .sell, bid < ask :=
  ⟨_, rfl, by decide, by decide, never_crossed [] ⟨1, fun _ => 0, 0⟩ _⟩

end StockExchange
