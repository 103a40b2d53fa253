/-
Ids and owners. An operation invents neither: every order that rests after it, and every order it reports on, has the
id and the client of an order that rested before it or of the order it submits. A modify keeps the stored client.
-/
import StockExchange.Engine.Events

namespace StockExchange

open Greedy

/-- The ids and clients of all that rests are related by `P`. -/
def BookState.Owned (P : OrderID → ClientID → Prop) (b : BookState) : Prop :=
  ∀ br, ∀ n ∈ b.nodes br, P n.order.orderId n.order.clientId

/-- The ids and clients of all reports are related by `P`. -/
def ReportsOwned (P : OrderID → ClientID → Prop) (reports : List ExecutionReport) : Prop :=
  ∀ r ∈ reports, P r.orderId r.clientId

section Reports

variable {P : OrderID → ClientID → Prop}

theorem ReportsOwned.nil : ReportsOwned P [] := fun _ h => nomatch h

theorem ReportsOwned.append {reports reports' : List ExecutionReport} (h : ReportsOwned P reports)
    (h' : ReportsOwned P reports') : ReportsOwned P (reports ++ reports') := by
  intro r hr
  rcases List.mem_append.1 hr with hr | hr
  · exact h r hr
  · exact h' r hr

theorem reportsFrom_owned (br : Branch) : ∀ (ts : List (Node × Quantity)) (incoming : Order) (env : Env),
    P incoming.orderId incoming.clientId → (∀ t ∈ ts, P t.1.order.orderId t.1.order.clientId) →
      ReportsOwned P (reportsFrom br incoming env ts)
  | [], _, _, _, _ => .nil
  | t :: ts, incoming, env, hin, hts => by
    have hfirst : ReportsOwned P (reportsOf br incoming t.1.order t.2 env) := by
      have hrest := hts t (List.mem_cons_self ..)
      intro r hr
      rcases List.mem_pair.1 hr with rfl | rfl
      · cases br
        · exact hin
        · exact hrest
      · cases br
        · exact hrest
        · exact hin
    exact hfirst.append (reportsFrom_owned br ts (incoming.reduce t.2) _ hin fun s hs => hts s (List.mem_cons_of_mem _ hs))

theorem remainderReport_owned {incoming : Order} (h : P incoming.orderId incoming.clientId) (now : Timestamp) :
    ReportsOwned P (BookState.remainderReport incoming now) := by
  intro r hr
  rcases (BookState.mem_remainderReport.1 hr).2 with ⟨-, -, rfl⟩ | ⟨-, rfl⟩
  · exact h
  · exact h

end Reports

namespace BookState

variable {P : OrderID → ClientID → Prop} {b : BookState}

theorem Owned.mono {P' : OrderID → ClientID → Prop} (h : b.Owned P) (hP : ∀ id c, P id c → P' id c) : b.Owned P' :=
  fun br n hn => hP _ _ (h br n hn)

theorem init_owned (symbol : Symbol) : (init symbol).Owned P := by
  intro br n hn
  rw [init_nodes] at hn
  cases hn

theorem Owned.submitBranch (hb : b.WF) (h : b.Owned P) {order : Order} (ho : P order.orderId order.clientId) (env : Env) :
    (b.submitBranch (Branch.ofSide order.side) order {} env).book.Owned P ∧
      ReportsOwned P (b.submitBranch (Branch.ofSide order.side) order {} env).result.executionReports := by
  constructor
  · exact submitBranch_forall order {} env hb (P := fun o => P o.orderId o.clientId) (fun _ _ h _ => h) h fun _ _ => ho
  · obtain ⟨now, hreports⟩ := submitBranch_reports hb order {} env
    have htaken : ∀ t ∈ b.taken order, P t.1.order.orderId t.1.order.clientId := by
      intro t ht
      have hmem : t.1 ∈ b.eligible (Branch.ofSide order.side) order :=
        (takes_isPrefix _ _).subset (List.mem_map_of_mem ht)
      exact h _ t.1 (List.mem_filter.1 hmem).1
    have hremainder : P (b.remainder order).orderId (b.remainder order).clientId := ho
    rw [hreports]
    exact (reportsFrom_owned _ _ order env ho htaken).append (remainderReport_owned hremainder now)

end BookState

/-- An operation keeps what holds of the ids and clients of the resting orders and of the order it submits, and its
reports are about such orders. -/
theorem OrderBook.apply_owned {P : OrderID → ClientID → Prop} {b : OrderBook} (h : b.Owned P) (op : Op) (env : Env)
    (hop : ∀ order, op = .submit order → P order.orderId order.clientId) :
    (b.apply op env).book.Owned P ∧ ReportsOwned P (b.apply op env).result.executionReports := by
  obtain ⟨o, ho, hbook, hresult, -⟩ := b.applies op env
  rw [hbook, hresult]
  cases ho with
  | submit order => exact h.submitBranch b.wf (hop order rfl) env
  | cancelMiss id hi => exact ⟨h, .nil⟩
  | cancel br n hn hi =>
    refine ⟨BookState.without_forall b.wf hn (P := fun o => P o.orderId o.clientId) h, fun r hr => ?_⟩
    rw [List.mem_singleton.1 hr]
    exact h br n hn
  | modifyMiss request hi => exact ⟨h, .nil⟩
  | modify br n request hn hid hi =>
    have hwithout : (b.without br n).Owned P :=
      BookState.without_forall b.wf hn (P := fun o => P o.orderId o.clientId) h
    have hside := b.wf.modified_side hn request
    have howner : P (BookState.modified n.order request).orderId (BookState.modified n.order request).clientId := h br n hn
    have hsub := hwithout.submitBranch (BookState.without_wf b.wf hn) howner env
    rwa [hside] at hsub

end StockExchange
