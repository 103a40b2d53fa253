/-
Execution reports on the wire. The struct has eight bytes for the symbol and thirty-two for the reason of a rejection;
all that the book and the gateway write there fits, but for the text of a market order that expires. So in a run the
reports can be read back exactly as long as no order other than a `Limit` order asks for more than rests on the other
side (`reports_survive_iff`).
-/
import StockExchange.Gateway.Reencoding
import StockExchange.Gateway.Exchange
import StockExchange.Engine.Priority
import StockExchange.Engine.MarketOrder
import StockExchange.Threadpool.History

universe u

namespace StockExchange

open Packed BinarySerializer

/-! ## Reading a report back -/

/-- The status that a byte stands for. -/
def statusOf (b : UInt8) : Option OrderStatus :=
  if b = 0 then some .new
  else if b = 1 then some .partiallyFilled
  else if b = 2 then some .filled
  else if b = 3 then some .cancelled
  else if b = 4 then some .rejected
  else none

/-- What a client can read from the struct; strings are read up to the first zero byte, `behind` is the memory behind
the struct. The client id does not travel. -/
def reportFromNet (net : NetExecutionReport) (behind : List UInt8) : Option ExecutionReport :=
  (statusOf net.status).map fun status =>
    { orderId := net.orderId
      symbol := cString ((NetExecutionReport.packed.put net ++ behind).drop 8)
      side := ⟨net.side⟩
      status := status
      price := net.price
      quantity := net.quantity
      remainingQuantity := net.remainingQuantity
      lastQty := net.lastQty
      lastPx := net.lastPx
      timestamp := net.timestamp
      rejectReason := cString (net.rejectReason.1 ++ behind) }

/-- The report can be read back from its struct, all but the client. -/
def ExecutionReport.Survives (r : ExecutionReport) : Prop :=
  ∀ net behind, reportFromNet (reportToNet net r) behind = some { r with clientId := 0 }

theorem statusOf_statusByte (status : OrderStatus) : statusOf (statusByte status) = some status := by
  cases status <;> rfl

theorem survives_iff {r : ExecutionReport} (hs : Fits r.symbol) (hr : NulFree r.rejectReason) :
    r.Survives ↔ r.rejectReason.length ≤ 31 := by
  have hread : ∀ net behind, reportFromNet (reportToNet net r) behind = some { r with
      clientId := 0
      rejectReason := cString ((safeStrncpy net.rejectReason r.rejectReason).1 ++ behind) } := by
    intro net behind
    have hsymbol : cString ((NetExecutionReport.packed.put (reportToNet net r) ++ behind).drop 8) = r.symbol := by
      refine (congrArg cString (drop_put _ _ _ _)).trans ?_
      exact cString_safeStrncpy net.symbol hs.1 hs.2 _
    unfold reportFromNet
    rw [hsymbol, show (reportToNet net r).status = statusByte r.status from rfl, statusOf_statusByte]
    rfl
  constructor
  · intro h
    have hlen := length_cString_safeStrncpy (Chars.replicate 32 0) r.rejectReason []
    have heq := (hread ⟨0, .replicate 8 0, 0, 0, 0, 0, 0, 0, 0, 0, .replicate 32 0⟩ []).symm.trans (h _ [])
    have hreason := congrArg (Option.map ExecutionReport.rejectReason) heq
    simp only [Option.map_some, Option.some.injEq] at hreason
    rw [hreason] at hlen
    exact hlen
  · intro h net behind
    rw [hread, cString_safeStrncpy net.rejectReason hr h]

theorem survives_of_no_reason {r : ExecutionReport} (hs : Fits r.symbol) (hr : r.rejectReason = []) : r.Survives := by
  refine (survives_iff hs ?_).2 ?_
  · rw [hr]
    decide
  · rw [hr]
    decide

/-- The text of an expiry is too long by four bytes. -/
theorem expiryReport_not_survives {order : Order} (hs : Fits order.symbol) (now : Timestamp) :
    ¬ (expiryReport order now).Survives := by
  have hnul : NulFree (expiryReport order now).rejectReason := by
    show NulFree (text "Market Order Expired / Unfilled Qty")
    decide
  rw [survives_iff hs hnul]
  show ¬ (text "Market Order Expired / Unfilled Qty").length ≤ 31
  decide

/-- Every reason of the risk checker fits. -/
theorem rejectReport_survives {risk : RiskChecker} {order : Order} {reason : Text}
    (hr : risk.validateOrder order = .error reason) (hs : Fits order.symbol) (clientId : ClientID) (now : Timestamp) :
    (Session.rejectReport order reason clientId now).Survives := by
  have hreason : NulFree reason ∧ reason.length ≤ 31 := by
    unfold RiskChecker.validateOrder at hr
    repeat' split at hr
    all_goals cases hr
    all_goals decide
  exact (survives_iff hs hreason.1).2 hreason.2

/-! ## The reports of an operation -/

/-- The symbol of the book and those of the orders in it fit. -/
structure BookState.SymbolsFit (b : BookState) : Prop where
  symbol : Fits b.symbol
  orders : ∀ br, ∀ n ∈ b.nodes br, Fits n.order.symbol

theorem BookState.init_symbolsFit {symbol : Symbol} (h : Fits symbol) : (init symbol).SymbolsFit := by
  refine ⟨h, fun br n hn => ?_⟩
  rw [init_nodes] at hn
  cases hn

/-- The operation submits an order that may not rest and asks for more than there is on the other side. -/
def Op.Expires (b : BookState) : Op → Prop
  | .submit order => order.type ≠ OrderType.limit ∧
      totalRemaining ((b.nodes (Branch.ofSide order.side).other).map Node.order) < order.remainingQuantity.toNat
  | .cancel _ => False
  | .modify _ => False

instance (b : BookState) (op : Op) : Decidable (op.Expires b) :=
  match op with
  | .submit order => inferInstanceAs (Decidable (order.type ≠ OrderType.limit ∧ _ < order.remainingQuantity.toNat))
  | .cancel _ => .isFalse id
  | .modify _ => .isFalse id

namespace BookState

/-- What is left of an order that may not rest is what the other side is short of. -/
theorem expires_iff (b : BookState) (order : Order) : (Op.submit order).Expires b ↔
    order.type ≠ OrderType.limit ∧ (b.remainder order).remainingQuantity ≠ 0 := by
  refine and_congr_right fun ht => ?_
  have hrem := remainder_toNat b order
  rw [(b.eligible_of_not_limit _ order ht).1] at hrem
  rw [ne_eq, ← quantity_toNat_eq_zero, hrem]
  omega

variable {b : BookState} (hb : b.WF)
include hb

theorem submitBranch_survives (hf : b.SymbolsFit) {order : Order} (ho : Fits order.symbol) (env : Env) :
    (∀ r ∈ (b.submitBranch (Branch.ofSide order.side) order {} env).result.executionReports, r.Survives) ↔
      ¬ (Op.submit order).Expires b := by
  obtain ⟨now, hreports⟩ := submitBranch_reports hb order {} env
  have hmatches : ∀ r ∈ reportsFrom (Branch.ofSide order.side) order env (b.taken order), r.Survives := by
    refine reportsFrom_forall (Q := fun o => Fits o.symbol) (fun _ _ h => h)
      (fun o qty px now h => survives_of_no_reason h rfl) _ _ _ _ ho fun t ht => ?_
    have hmem : t.1 ∈ b.eligible (Branch.ofSide order.side) order :=
      (Greedy.takes_isPrefix _ _).subset (List.mem_map_of_mem ht)
    exact hf.orders _ t.1 (List.mem_filter.1 hmem).1
  rw [hreports, List.nil_append, expires_iff, List.forall_mem_append]
  constructor
  · intro h hexp
    have hremainder : Fits (b.remainder order).symbol := ho
    exact expiryReport_not_survives hremainder now (h.2 _ (mem_remainderReport.2 ⟨hexp.2, .inr ⟨hexp.1, rfl⟩⟩))
  · intro h
    refine ⟨hmatches, fun r hr => ?_⟩
    obtain ⟨hq, ⟨-, -, rfl⟩ | ⟨ht, -⟩⟩ := mem_remainderReport.1 hr
    · exact survives_of_no_reason ho rfl
    · exact absurd ⟨ht, hq⟩ h

theorem submitBranch_symbolsFit (hf : b.SymbolsFit) {order : Order} (ho : Fits order.symbol) (env : Env) :
    (b.submitBranch (Branch.ofSide order.side) order {} env).book.SymbolsFit := by
  refine ⟨?_, submitBranch_forall (P := fun o => Fits o.symbol) order {} env hb (fun _ _ h _ => h) hf.orders
    fun _ _ => ho⟩
  rw [submitBranch_symbol hb]
  exact hf.symbol

theorem without_symbolsFit (hf : b.SymbolsFit) {br : Branch} {n : Node} (hn : n ∈ b.nodes br) :
    (b.without br n).SymbolsFit := by
  refine ⟨?_, without_forall (P := fun o => Fits o.symbol) hb hn hf.orders⟩
  rw [without_symbol]
  exact hf.symbol

end BookState

/-- The reports of an operation can all be read back exactly if it lets no order expire. -/
theorem OrderBook.apply_survives {b : OrderBook} (hf : b.SymbolsFit) (op : Op) (env : Env)
    (hop : ∀ order, op = .submit order → Fits order.symbol) :
    (b.apply op env).book.SymbolsFit ∧
      ((∀ r ∈ (b.apply op env).result.executionReports, r.Survives) ↔ ¬ op.Expires b.toBookState) := by
  obtain ⟨o, ho, hbook, hresult, -⟩ := b.applies op env
  rw [hbook, hresult]
  cases ho with
  | submit order =>
    have horder := hop order rfl
    exact ⟨BookState.submitBranch_symbolsFit b.wf hf horder env, BookState.submitBranch_survives b.wf hf horder env⟩
  | cancelMiss id hi => exact ⟨hf, fun _ h => h, fun _ r hr => by cases hr⟩
  | cancel br n hn hi =>
    refine ⟨BookState.without_symbolsFit b.wf hf hn, fun _ h => h, fun _ r hr => ?_⟩
    rw [List.mem_singleton.1 hr]
    exact survives_of_no_reason hf.symbol rfl
  | modifyMiss request hi => exact ⟨hf, fun _ h => h, fun _ r hr => by cases hr⟩
  | modify br n request hn hid hi =>
    have hw := BookState.without_wf b.wf hn
    have hf' := BookState.without_symbolsFit b.wf hf hn
    have hside := b.wf.modified_side hn request
    have horder : Fits (BookState.modified n.order request).symbol := hf.orders br n hn
    have hbook' := BookState.submitBranch_symbolsFit hw hf' horder env
    have hreports := BookState.submitBranch_survives hw hf' horder env
    rw [hside] at hbook' hreports
    -- what rests is a `Limit` order, so no part of it expires
    refine ⟨hbook', fun _ h => h, fun _ => hreports.2 fun hexp => ?_⟩
    exact hexp.1 (b.wf.resting br n hn).1

/-! ## Runs of the exchange -/

theorem Request.op_symbol {r : Request} {order : Order} (h : r.op = .submit order) : r.symbol = order.symbol := by
  cases r with
  | submit _ =>
    cases h
    rfl
  | cancel req => cases h
  | modify req => cases h

namespace ThreadPool

variable {W : Type u}

/-- The symbols of all tasks and of all books fit. -/
structure SymbolsFit (p : ThreadPool W) : Prop where
  tasks : p.AllTasks fun task => Fits task.symbol ∧ Fits task.request.symbol
  books : p.registry.All fun book => book.SymbolsFit

variable {p p' : ThreadPool W}

/-- Applied in such a pool, an operation makes such a book, and reports that survive exactly if no order expires. -/
theorem SymbolsFit.apply (h : p.SymbolsFit) {w : W} {book : OrderBook} {task : Task}
    (hq : p.applying w = some (book, task)) :
    (book.apply task.request.op p.env).book.SymbolsFit ∧
      ((∀ r ∈ (book.apply task.request.op p.env).result.executionReports, r.Survives) ↔
        ¬ task.request.op.Expires book.toBookState) := by
  obtain ⟨hw, hb⟩ := applying_eq_some.1 hq
  refine OrderBook.apply_survives (h.books _ _ hb) _ _ fun order ho => ?_
  rw [← Request.op_symbol ho]
  exact (h.tasks.taken w task (by rw [hw]; rfl)).2

variable [DecidableEq W]

theorem SymbolsFit.step {a : PoolAction W} (hs : p.step a = some p')
    (ha : ∀ task, a = .submit task → Fits task.symbol ∧ Fits task.request.symbol) (h : p.SymbolsFit) : p'.SymbolsFit := by
  refine ⟨h.tasks.step hs ha, books_step hs (fun w task hw => ?_) (fun w book task hq _ => (h.apply hq).1) h.books⟩
  exact BookState.init_symbolsFit (h.tasks.taken w task (by rw [hw]; rfl)).1

end ThreadPool

/-- The symbol of the request in a packet fits. -/
def ExchangeAction.SymbolFits {W : Type u} : ExchangeAction W → Prop
  | .packet _ p behind => ∀ kind : RequestKind, p.Carries kind → Fits (kind.fromNet p.body behind).symbol
  | _ => True

instance {W : Type u} (a : ExchangeAction W) : Decidable a.SymbolFits :=
  match a with
  | .packet _ p behind =>
    decidable_of_iff ((p.Carries .order → Fits (RequestKind.order.fromNet p.body behind).symbol) ∧
      (p.Carries .cancel → Fits (RequestKind.cancel.fromNet p.body behind).symbol) ∧
      (p.Carries .modify → Fits (RequestKind.modify.fromNet p.body behind).symbol))
      ⟨fun h kind => by
        cases kind
        · exact h.1
        · exact h.2.1
        · exact h.2.2, fun h => ⟨h .order, h .cancel, h .modify⟩⟩
  | .connect | .close _ | .registerSymbol _ | .pool _ | .dispatchReport | .dispatchTrade => .isTrue trivial

namespace Exchange

variable {W : Type u}

/-- Every report that the book or the gateway has made can be read back from the wire: those in the hands of workers,
those published and those handed to sessions. -/
structure ReportsSurvive (x : Exchange W) : Prop where
  pool : x.pool.AllReports ExecutionReport.Survives
  sent : ∀ q ∈ x.sent, q.2.Survives

/-- The step applies no order that expires. -/
def ExpiresNothing (x : Exchange W) (a : ExchangeAction W) : Prop :=
  ∀ q ∈ x.applying a, ¬ q.2.request.op.Expires q.1.toBookState

instance (x : Exchange W) (a : ExchangeAction W) : Decidable (x.ExpiresNothing a) :=
  inferInstanceAs (Decidable (∀ q ∈ x.applying a, ¬ q.2.request.op.Expires q.1.toBookState))

variable [DecidableEq W] {x x' : Exchange W} {a : ExchangeAction W}

theorem symbolsFit_step (ha : a.SymbolFits) (hs : x.step a = some x') (h : x.pool.SymbolsFit) : x'.pool.SymbolsFit := by
  cases transition hs with
  | accepted c packet behind task risk env hc hp hlen =>
    obtain ⟨kind, hkind, hrequest⟩ := Session.processPacket_decodes hp
    have hresult := Session.processPacket_spec hp
    have hfits : Fits task.request.symbol := by
      rw [hrequest, Request.ofClient_symbol]
      exact ha kind hkind
    refine ⟨⟨fun t ht => ?_, h.tasks.taken⟩, h.books⟩
    rcases List.mem_append.1 ht with ht | ht
    · exact h.tasks.queued t ht
    · rw [List.mem_singleton.1 ht]
      refine ⟨?_, hfits⟩
      rw [hresult.1.symbol]
      exact hfits
  | pool a pool hstep hsubmit => exact h.step hstep fun task heq => absurd heq (hsubmit task)
  | _ => exact ⟨⟨h.tasks.queued, h.tasks.taken⟩, h.books⟩

/-- A step keeps the reports readable exactly if no order expires in it. -/
theorem reportsSurvive_step (ha : a.SymbolFits) (hf : x.pool.SymbolsFit) (h : x.ReportsSurvive) :
    (∀ x' ∈ x.step a, x'.ReportsSurvive) ↔ x.ExpiresNothing a := by
  constructor
  · rintro hall ⟨book, task⟩ hq
    unfold applying at hq
    split at hq
    next w =>
      obtain ⟨pool, hpool, -⟩ := ThreadPool.step_apply hq
      have hstep : x.step (.pool (.apply w)) = some { x with pool := pool } := by
        show (x.pool.step (.apply w)).map _ = _
        rw [hpool]
        rfl
      have hmade := (hall _ hstep).pool.made w
      obtain ⟨hw, hb⟩ := ThreadPool.applying_eq_some.1 hq
      cases ThreadPool.steps hpool with
      | apply _ task' book' hw' hb' =>
        cases hw.symm.trans hw'
        cases hb.symm.trans hb'
        -- the worker holds the reports of the operation
        refine (hf.apply hq).2.1 fun r hr => hmade r ?_
        show r ∈ ((ThreadPool.move _ w _).workers w).reports
        rw [ThreadPool.move_self]
        exact hr
    next => cases hq
  · intro hnone x' hs
    cases transition hs with
    | rejected c packet behind report risk env hc hp =>
      obtain ⟨hkind, order, reason, now, horder, hr, rfl⟩ := Session.processPacket_decodes hp
      have hfits : Fits order.symbol := by
        have hsymbol := congrArg Request.symbol horder
        rw [Request.ofClient_symbol] at hsymbol
        rw [show order.symbol = _ from hsymbol]
        exact ha .order hkind
      refine ⟨⟨h.pool.made, h.pool.published⟩, fun q hq => ?_⟩
      rcases List.mem_append.1 hq with hq | hq
      · exact h.sent q hq
      · rw [List.mem_singleton.1 hq]
        exact rejectReport_survives hr hfits c now
    | pool a pool hstep hsubmit =>
      refine ⟨h.pool.step hstep fun w book task haw hq => ?_, h.sent⟩
      refine (hf.apply hq).2.2 (hnone (book, task) ?_)
      rw [haw]
      exact hq
    | dispatchReport report reports hr =>
      have hfirst : report.Survives := h.pool.published report (by rw [hr]; exact List.mem_cons_self ..)
      refine ⟨⟨h.pool.made, fun r hmem => h.pool.published r (by rw [hr]; exact List.mem_cons_of_mem _ hmem)⟩,
        fun q hq => ?_⟩
      by_cases hc : report.clientId ∈ x.sessions
      · replace hq : q ∈ x.sent ++ [(report.clientId, report)] := by
          rwa [if_pos hc] at hq
        rcases List.mem_append.1 hq with hq | hq
        · exact h.sent q hq
        · rw [List.mem_singleton.1 hq]
          exact hfirst
      · rw [if_neg hc] at hq
        exact h.sent q hq
    | _ => exact ⟨⟨h.pool.made, h.pool.published⟩, h.sent⟩

/-- In a run of packets whose symbols have at most seven bytes and no zero byte, all reports made in all states can be
read back from the wire exactly if no order other than a `Limit` order is applied that asks for more than rests on the
other side. -/
theorem reports_survive_iff (env : Env) (actions : List (ExchangeAction W)) (hfits : ∀ a ∈ actions, a.SymbolFits) :
    (∀ pre, pre <+: actions → ∀ x, Machine.run step (start W env) pre = some x → x.ReportsSurvive) ↔
      Machine.Along step ExpiresNothing (start W env) actions := by
  refine Machine.always_iff_along_of_admitted (I := fun x => x.pool.SymbolsFit)
    (fun x a x' ha hs h => symbolsFit_step ha hs h) (fun x a ha hf h => reportsSurvive_step ha hf h) actions _ hfits ?_ ?_
  · exact ⟨ThreadPool.start_allTasks _ env, fun _ _ h => by cases h⟩
  · exact ⟨ThreadPool.start_allReports _ env, fun _ h => by cases h⟩

/-- A client offers some AAPL at 1, and then asks for 50 with a market order. -/
def expiryRun (offered : UInt32) : List (ExchangeAction Unit) :=
  let symbol : Packed.Chars 8 := (Packed.chars 8).get (text "AAPL")
  let entry : WALEntry := ⟨0, .replicate 52 0⟩
  let net : NetOrder := ⟨0, symbol, 0, 0, 0, 0, 0⟩
  let handle : List (ExchangeAction Unit) := [.pool (.dequeue ()), .pool (.getOrderBook ()), .pool (.lock ()),
    .pool (.log () entry net), .pool (.apply ()), .pool (.unlock ())]
  [.connect, .registerSymbol (text "AAPL"),
    .packet 1 ⟨MsgType.order, NetOrder.packed.put ⟨7, symbol, 1, 0, 1, offered, 1⟩⟩ [],
    .packet 1 ⟨MsgType.order, NetOrder.packed.put ⟨8, symbol, 0, 1, 1, 50, 2⟩⟩ []] ++
    handle ++ [.pool (.publishReport ()), .pool (.finish ())] ++
    handle ++ [.pool (.logFill () entry), .pool (.publishReport ()), .pool (.publishReport ()), .dispatchReport,
      .dispatchReport, .dispatchReport]

/-- With 50 on offer the market order is filled, and all reports can be read back. -/
theorem reports_survive_iff_filled : (Machine.run step (start Unit ⟨1, fun _ => 0, 0⟩) (expiryRun 50)).isSome ∧
    ∀ pre, pre <+: expiryRun 50 → ∀ x, Machine.run step (start Unit ⟨1, fun _ => 0, 0⟩) pre = some x → x.ReportsSurvive :=
  ⟨by decide +kernel,
    (reports_survive_iff ⟨1, fun _ => 0, 0⟩ (expiryRun 50) (by decide +kernel)).2 (by decide +kernel)⟩

/-- With 30 on offer the rest of the market order expires; the client is sent the report, and can read back only the
first 31 bytes of its reason. -/
theorem expired_market_order_cut : (∀ a ∈ expiryRun 30 ++ [.pool (.publishReport ()), .dispatchReport], a.SymbolFits) ∧
    ∃ x, Machine.run step (start Unit ⟨1, fun _ => 0, 0⟩)
        (expiryRun 30 ++ [.pool (.publishReport ()), .dispatchReport]) = some x ∧
      ∃ q ∈ x.sent, ¬ q.2.Survives := by
  refine ⟨by decide +kernel, ?_⟩
  have hrun : (Machine.run step (start Unit ⟨1, fun _ => 0, 0⟩)
      (expiryRun 30 ++ [.pool (.publishReport ()), .dispatchReport])).any fun x => x.sent.any fun q =>
        reportFromNet (reportToNet ⟨0, .replicate 8 0, 0, 0, 0, 0, 0, 0, 0, 0, .replicate 32 0⟩ q.2) [] ≠
          some { q.2 with clientId := 0 } := by decide +kernel
  obtain ⟨x, hx, hsent⟩ := (Option.any_eq_true _ _).1 hrun
  obtain ⟨q, hq, hcut⟩ := List.any_eq_true.1 hsent
  exact ⟨x, hx, q, hq, fun h => of_decide_eq_true hcut (h _ _)⟩

end Exchange

end StockExchange
